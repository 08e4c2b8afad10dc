import Strk20.Foundation.Sha256
import Strk20.Feed.CodecParsed

/-!
# Manifest and genesis (`manifest.rs`)

The documents arrive decoded (plain serde); modelled are the fields the
consumer reads and the two checks an epoch payload passes before it is folded.
-/

namespace Strk20.Feed

open Json Result

/-- `payload_sha256`: the content identity of a payload. -/
def payloadSha256 (payload : ByteArray) : Key := Sha256.sha256 payload

structure Genesis where
  chainId : String
  pool : String
  genesisBlock : Nat
  epochSize : Nat
deriving DecidableEq

structure ManifestEpoch where
  e : Nat
  first : Nat
  last : Nat
  hash : String
deriving DecidableEq

structure ManifestSnapshot where
  e : Nat
  block : Nat
  epochHash : String
  file : String
  hash : String
  zst : String
  slots : Nat
deriving DecidableEq

structure Manifest where
  chainId : String
  epochs : List ManifestEpoch
  snapshot : Option ManifestSnapshot
deriving DecidableEq

/-- The manifest entry for epoch index `e`, if cut. -/
def Manifest.epoch (m : Manifest) (e : Nat) : Option ManifestEpoch :=
  m.epochs.find? fun entry => entry.e == e

namespace Codec

/-- A content hash as an error spells it. -/
def hashText (h : Option Key) : String :=
  match h with
  | some k => hexEncode k
  | none => "null"

section

variable (P : FeltParser) (J : JsonParser)

/-- One epoch payload against its manifest entry and the previous epoch's
content hash. -/
def verifyEpochAgainstManifest (payload : ByteArray) (entry : ManifestEpoch)
    (prevHash : Option Key) : Except FeedError Epoch :=
  let actual := payloadSha256 payload
  if hexEncode actual ≠ entry.hash then
    .error (.hashMismatch entry.e entry.hash (hexEncode actual))
  else do
    let epoch ← parseEpoch P J payload
    if epoch.header.epoch ≠ entry.e ∨ epoch.header.first ≠ entry.first ∨
        epoch.header.last ≠ entry.last then
      throw (.malformed ("epoch " ++ entry.e.repr ++ " header range disagrees with manifest"))
    else if epoch.header.prev ≠ prevHash then
      throw (.chainBroken entry.e (hashText prevHash) (hashText epoch.header.prev))
    else pure epoch

/-- Bind a verified epoch to the chain and pool it claims to be about. -/
def verifyEpochBinding (epoch : Epoch) (chainId : String) (pool : Felt) : Except FeedError Unit :=
  if epoch.header.chainId ≠ chainId then
    .error (.malformed ("epoch " ++ epoch.header.epoch.repr ++ " is stamped chain " ++
      epoch.header.chainId ++ " but the feed declares " ++ chainId))
  else if epoch.header.pool ≠ pool then
    .error (.malformed ("epoch " ++ epoch.header.epoch.repr ++ " is stamped pool " ++
      feltHex epoch.header.pool ++ " but the feed declares " ++ feltHex pool))
  else .ok ()

/-- `verify_chain`, on top of a content hash. -/
def verifyChain : Option Key → List (ManifestEpoch × ByteArray) → Except FeedError (List Epoch)
  | _, [] => .ok []
  | prev, (entry, payload) :: items => do
      let epoch ← verifyEpochAgainstManifest P J payload entry prev
      let out ← verifyChain (some (payloadSha256 payload)) items
      pure (epoch :: out)

/-- What a verified epoch satisfies. -/
structure Verified (payload : ByteArray) (entry : ManifestEpoch) (prevHash : Option Key)
    (epoch : Epoch) : Prop where
  hash : hexEncode (payloadSha256 payload) = entry.hash
  parsed : parseEpoch P J payload = .ok epoch
  index : epoch.header.epoch = entry.e
  first : epoch.header.first = entry.first
  last : epoch.header.last = entry.last
  prev : epoch.header.prev = prevHash

theorem verifyEpochAgainstManifest_eq_ok {payload : ByteArray} {entry : ManifestEpoch}
    {prevHash : Option Key} {epoch : Epoch} :
    verifyEpochAgainstManifest P J payload entry prevHash = .ok epoch ↔
      Verified P J payload entry prevHash epoch := by
  rw [verifyEpochAgainstManifest]
  constructor
  · intro h
    obtain ⟨hhash, h⟩ := ite_error_eq_ok.mp h
    obtain ⟨e, hparse, h⟩ := bind_eq_ok.mp h
    obtain ⟨hrange, h⟩ := ite_throw_eq_ok.mp h
    obtain ⟨hprev, h⟩ := ite_throw_eq_ok.mp h
    obtain rfl := pure_eq_ok.mp h
    rw [not_or, not_or] at hrange
    exact ⟨not_not.mp hhash, hparse, not_not.mp hrange.1, not_not.mp hrange.2.1,
      not_not.mp hrange.2.2, not_not.mp hprev⟩
  · intro h
    simp [h.hash, h.parsed, h.index, h.first, h.last, h.prev, bind, Except.bind, pure, Except.pure]

theorem verifyEpochBinding_eq_ok {epoch : Epoch} {chainId : String} {pool : Felt} :
    verifyEpochBinding epoch chainId pool = .ok () ↔
      epoch.header.chainId = chainId ∧ epoch.header.pool = pool := by
  rw [verifyEpochBinding, ite_error_eq_ok, ite_error_eq_ok, not_not, not_not]
  simp

end

end Codec

end Strk20.Feed
