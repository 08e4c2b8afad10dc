import Strk20.Feed.Manifest

/-!
# Snapshot files (`snapshot.rs`)

A snapshot is the folded slot state of the pool at one epoch boundary: every
slot with a nonzero value, its value and its last write block.

- `Snapshot.parse`, `decodeSnapshotPayload`: the reader and its ladder of
  checks.
- `SnapshotWf`, `parse_snapshotBytes`: what the writer emits parses back.
-/

namespace Strk20.Feed

open Text Json Result

def SNAPSHOT_VERSION : Nat := 1
def KIND_SNAPSHOT : String := "strk20-snapshot"

structure SnapshotHeader where
  v : Nat
  kind : String
  chainId : String
  pool : Felt
  epoch : Nat
  block : Nat
  epochHash : String
  storageRoot : Felt
  cls : Felt
deriving DecidableEq

structure SnapSlot where
  k : Felt
  v : Felt
  w : Nat
deriving DecidableEq

structure Snapshot where
  header : SnapshotHeader
  slots : List SnapSlot
deriving DecidableEq

/-- `{e:08}`. -/
def pad8 (e : Nat) : String := String.ofList (List.replicate (8 - e.repr.length) '0') ++ e.repr

def snapshotFileName (e : Nat) : String := "snapshots/" ++ pad8 e ++ ".strk20s.zst"

namespace Snapshot

open Codec (record)

/-! ## Encoding -/

def encodeHeader (h : SnapshotHeader) : String :=
  record [("t", quoted "hdr"), ("v", h.v.repr), ("kind", quoted h.kind),
    ("chain_id", quoted h.chainId), ("pool", quoted (feltHex h.pool)), ("epoch", h.epoch.repr),
    ("block", h.block.repr), ("epoch_hash", quoted h.epochHash),
    ("storage_root", quoted (feltHex h.storageRoot)), ("class", quoted (feltHex h.cls))]

def encodeSlot (s : SnapSlot) : String :=
  record [("t", quoted "s"), ("k", quoted (feltHex s.k)), ("v", quoted (feltHex s.v)),
    ("w", s.w.repr)]

/-- `slots.len() as u64`. -/
def slotCount (slots : List SnapSlot) : Nat := slots.length % 2 ^ 64

def encodeEnd (slots : List SnapSlot) : String :=
  record [("t", quoted "end"), ("slots", (slotCount slots).repr)]

def encode (s : Snapshot) : ByteArray :=
  intoBytes (unlines (encodeHeader s.header :: (s.slots.map encodeSlot ++ [encodeEnd s.slots])))

/-! ## Decoding -/

def strField (v : Json) (key ctx : String) : Except FeedError String :=
  orMalformed ((v.get key).bind asStr) (ctx ++ ": missing string field " ++ debugStr key)

def u64Field (v : Json) (key ctx : String) : Except FeedError Nat :=
  orMalformed ((v.get key).bind asU64) (ctx ++ ": missing integer field " ++ debugStr key)

/-- `{other:?}` of an optional string. -/
def debugOpt (s : Option String) : String :=
  match s with
  | some s => "Some(" ++ debugStr s ++ ")"
  | none => "None"

section

variable (P : FeltParser) (J : JsonParser)

def feltField (v : Json) (key ctx : String) : Except FeedError Felt := do
  feltFromHex P (← strField v key ctx)

def parseHeader (hv : Json) : Except FeedError SnapshotHeader := do
  let v ← u64Field hv "v" "snapshot header"
  let kind ← strField hv "kind" "snapshot header"
  let chainId ← strField hv "chain_id" "snapshot header"
  let pool ← feltField P hv "pool" "snapshot header"
  let epoch ← u64Field hv "epoch" "snapshot header"
  let block ← u64Field hv "block" "snapshot header"
  let epochHash ← strField hv "epoch_hash" "snapshot header"
  let storageRoot ← feltField P hv "storage_root" "snapshot header"
  let cls ← feltField P hv "class" "snapshot header"
  pure ⟨v, kind, chainId, pool, epoch, block, epochHash, storageRoot, cls⟩

/-- Slots and footer collected so far. -/
structure Collected where
  slots : List SnapSlot
  footer : Option Nat

/-- The checks on one slot record after its fields are read. -/
def checkSlot (block : Nat) (prior : Option SnapSlot) (slot : SnapSlot) (n : Nat) :
    Except FeedError Unit :=
  if slot.v = 0 then
    .error (.malformed ("snapshot line " ++ n.repr ++
      ": zero-valued slots are never emitted (Cairo map semantics)"))
  else if slot.w > block then
    .error (.malformed ("snapshot line " ++ n.repr ++ ": write block " ++ slot.w.repr ++
      " is above the basis " ++ block.repr))
  else
    match prior with
    | none => .ok ()
    | some prev =>
        if (toBytesBe prev.k).val ≥ (toBytesBe slot.k).val then
          .error (.malformed ("snapshot line " ++ n.repr ++ ": slot " ++ feltHex slot.k ++
            " does not follow " ++ feltHex prev.k))
        else .ok ()

/-- One line after the header; `n` is its number. -/
def parseLine (block : Nat) (s : Collected) (n : Nat) (raw : String) :
    Except FeedError Collected := do
  let v ← Codec.fromStr J raw
  let t := (v.get "t").bind asStr
  let ctx := "snapshot line " ++ n.repr
  if t = some "s" then
    if s.footer.isSome then
      throw (.malformed (ctx ++ ": slot record after the \"end\" record"))
    else do
      let key ← feltField P v "k" ctx
      let value ← feltField P v "v" ctx
      let w ← u64Field v "w" ctx
      checkSlot block s.slots.getLast? ⟨key, value, w⟩ n
      pure { s with slots := s.slots ++ [⟨key, value, w⟩] }
  else if t = some "end" then do
    let slots ← u64Field v "slots" ctx
    pure { s with footer := some slots }
  else throw (.malformed (ctx ++ ": unknown record type " ++ debugOpt t))

def parseLoop (block : Nat) : Collected → Nat → List String → Except FeedError Collected
  | s, _, [] => .ok s
  | s, n, raw :: rest => do parseLoop block (← parseLine P J block s n raw) (n + 1) rest

def parse (payload : ByteArray) : Except FeedError Snapshot := do
  let text ← orMalformed (fromUtf8 payload) "snapshot payload is not utf-8"
  if !endsWithNewline text then throw (.malformed "snapshot payload must end with a newline")
  else
    match lines text with
    | [] => throw (.malformed "snapshot payload is empty")
    | first :: rest => do
        let hv ← Codec.fromStr J first
        if (hv.get "t").bind asStr ≠ some "hdr" then
          throw (.malformed "snapshot line 1 must be the \"hdr\" record")
        else do
          let header ← parseHeader P hv
          if header.v ≠ SNAPSHOT_VERSION ∨ header.kind ≠ KIND_SNAPSHOT then
            throw (.malformed ("snapshot is " ++ debugStr header.kind ++ " v" ++ header.v.repr ++
              ", expected " ++ KIND_SNAPSHOT ++ " v" ++ SNAPSHOT_VERSION.repr))
          else do
            let s ← parseLoop P J header.block ⟨[], none⟩ 2 rest
            let declared ← orMalformed s.footer "snapshot payload has no \"end\" record"
            if declared ≠ slotCount s.slots then
              throw (.malformed ("snapshot footer declares " ++ declared.repr ++ " slots but " ++
                s.slots.length.repr ++ " were emitted"))
            else pure ⟨header, s.slots⟩

/-! ## The ladder -/

/-- Feed identity a snapshot must be bound to before a slot is applied. -/
structure FeedIdentity where
  chainId : String
  pool : Felt

def checkZstHash (zstSha256 : String) (entry : ManifestSnapshot) : Except FeedError Unit :=
  if zstSha256 ≠ entry.zst then
    .error (.malformed ("FEED_HASH_MISMATCH: snapshot " ++ entry.file ++ " has sha256 " ++
      zstSha256 ++ ", manifest says " ++ entry.zst))
  else .ok ()

/-- Decode a decompressed snapshot and check hashes, identity and its basis
link. -/
def decodeSnapshotPayload (payload : ByteArray) (zstSha256 : String) (entry : ManifestSnapshot)
    (basisEpochHash : String) (expect : FeedIdentity) : Except FeedError Snapshot := do
  checkZstHash zstSha256 entry
  let contentHash := hexEncode (payloadSha256 payload)
  if contentHash ≠ entry.hash then
    throw (.malformed ("FEED_HASH_MISMATCH: snapshot " ++ entry.file ++ " payload has sha256 " ++
      contentHash ++ ", manifest says " ++ entry.hash))
  else do
    let snap ← parse P J payload
    let h := snap.header
    if h.chainId ≠ expect.chainId ∨ h.pool ≠ expect.pool then
      throw (.malformed ("CHAIN_MISMATCH: snapshot is stamped chain " ++ h.chainId ++ " pool " ++
        feltHex h.pool ++ " but the feed declares " ++ expect.chainId ++ " " ++
        feltHex expect.pool))
    else if h.epoch ≠ entry.e ∨ h.block ≠ entry.block then
      throw (.malformed ("FEED_MALFORMED: snapshot header names epoch " ++ h.epoch.repr ++
        " block " ++ h.block.repr ++ " but the manifest says " ++ entry.e.repr ++ " " ++
        entry.block.repr))
    else if entry.file ≠ snapshotFileName entry.e then
      throw (.malformed ("FEED_MALFORMED: manifest snapshot file " ++ debugStr entry.file ++
        " is not " ++ debugStr (snapshotFileName entry.e)))
    else if slotCount snap.slots ≠ entry.slots then
      throw (.malformed ("FEED_MALFORMED: snapshot carries " ++ snap.slots.length.repr ++
        " slots, manifest says " ++ entry.slots.repr))
    else if h.epochHash ≠ basisEpochHash ∨ entry.epochHash ≠ basisEpochHash then
      throw (.chainBroken entry.e basisEpochHash h.epochHash)
    else pure snap

/-! ## What a parsed snapshot satisfies -/

/-- Slots as the parser leaves them: nonzero, written at or below the basis,
ascending. -/
structure SlotsWf (block : Nat) (slots : List SnapSlot) : Prop where
  nonzero : ∀ s ∈ slots, s.v ≠ 0
  bounded : ∀ s ∈ slots, s.w ≤ block
  ascending : slots.IsChain fun a b => a.k.val < b.k.val

theorem checkSlot_eq_ok {block n : Nat} {prior : Option SnapSlot} {slot : SnapSlot} :
    checkSlot block prior slot n = .ok () ↔
      slot.v ≠ 0 ∧ slot.w ≤ block ∧ ∀ prev ∈ prior, prev.k.val < slot.k.val := by
  unfold checkSlot
  rw [ite_error_eq_ok, ite_error_eq_ok, Nat.not_lt]
  refine and_congr_right fun _ => and_congr_right fun _ => ?_
  cases prior with
  | none => simp
  | some prev =>
      rw [ite_error_eq_ok]
      simp

theorem SlotsWf.snoc {block : Nat} {slots : List SnapSlot} {slot : SnapSlot}
    (h : SlotsWf block slots) (hz : slot.v ≠ 0) (hw : slot.w ≤ block)
    (hlast : ∀ prev ∈ slots.getLast?, prev.k.val < slot.k.val) :
    SlotsWf block (slots ++ [slot]) := by
  refine ⟨fun s hs => ?_, fun s hs => ?_, ?_⟩
  · rcases List.mem_append.mp hs with hs | hs
    · exact h.nonzero s hs
    · rwa [List.mem_singleton.mp hs]
  · rcases List.mem_append.mp hs with hs | hs
    · exact h.bounded s hs
    · rwa [List.mem_singleton.mp hs]
  · refine List.isChain_append.mpr ⟨h.ascending, List.isChain_singleton _, fun a ha b hb => ?_⟩
    rw [List.head?_cons, Option.mem_some_iff] at hb
    exact hb ▸ hlast a ha

theorem parseLine_slotsWf {block n : Nat} {s t : Collected} {raw : String}
    (h : parseLine P J block s n raw = .ok t) (hs : SlotsWf block s.slots) :
    SlotsWf block t.slots := by
  rw [parseLine] at h
  obtain ⟨v, -, h⟩ := bind_eq_ok.mp h
  simp only at h
  split at h
  · obtain ⟨-, h⟩ := ite_throw_eq_ok.mp h
    obtain ⟨key, -, h⟩ := bind_eq_ok.mp h
    obtain ⟨value, -, h⟩ := bind_eq_ok.mp h
    obtain ⟨w, -, h⟩ := bind_eq_ok.mp h
    obtain ⟨_, hcheck, h⟩ := bind_eq_ok.mp h
    obtain ⟨hz, hw, hlast⟩ := checkSlot_eq_ok.mp hcheck
    obtain rfl := pure_eq_ok.mp h
    exact hs.snoc hz hw hlast
  · split at h
    · obtain ⟨slots, -, h⟩ := bind_eq_ok.mp h
      obtain rfl := pure_eq_ok.mp h
      exact hs
    · cases h

theorem parseLoop_slotsWf {block : Nat} : ∀ {ls : List String} {n : Nat} {s t : Collected},
    parseLoop P J block s n ls = .ok t → SlotsWf block s.slots → SlotsWf block t.slots
  | [], n, s, t, h, hs => by
      rw [parseLoop, Except.ok.injEq] at h
      exact h ▸ hs
  | raw :: ls, n, s, t, h, hs => by
      rw [parseLoop] at h
      obtain ⟨s', hs', h⟩ := bind_eq_ok.mp h
      exact parseLoop_slotsWf h (parseLine_slotsWf P J hs' hs)

theorem parse_slotsWf {payload : ByteArray} {snap : Snapshot} (h : parse P J payload = .ok snap) :
    SlotsWf snap.header.block snap.slots := by
  rw [parse] at h
  obtain ⟨text, -, h⟩ := bind_eq_ok.mp h
  obtain ⟨-, h⟩ := ite_throw_eq_ok.mp h
  split at h
  · cases h
  · obtain ⟨hv, -, h⟩ := bind_eq_ok.mp h
    obtain ⟨-, h⟩ := ite_throw_eq_ok.mp h
    obtain ⟨header, -, h⟩ := bind_eq_ok.mp h
    obtain ⟨-, h⟩ := ite_throw_eq_ok.mp h
    obtain ⟨s, hloop, h⟩ := bind_eq_ok.mp h
    obtain ⟨declared, -, h⟩ := bind_eq_ok.mp h
    obtain ⟨-, h⟩ := ite_throw_eq_ok.mp h
    obtain rfl := pure_eq_ok.mp h
    exact parseLoop_slotsWf P J hloop ⟨by simp, by simp, List.IsChain.nil⟩

theorem u64Field_lt {v : Json} {key ctx : String} {n : Nat} (h : u64Field v key ctx = .ok n) :
    n < 2 ^ 64 := by
  rw [u64Field, orMalformed_eq_ok] at h
  obtain ⟨w, -, hw⟩ := Option.bind_eq_some_iff.mp h
  exact Codec.asU64_lt hw

theorem parse_bounded {payload : ByteArray} {snap : Snapshot} (h : parse P J payload = .ok snap) :
    snap.header.epoch < 2 ^ 64 ∧ snap.header.block < 2 ^ 64 := by
  rw [parse] at h
  obtain ⟨text, -, h⟩ := bind_eq_ok.mp h
  obtain ⟨-, h⟩ := ite_throw_eq_ok.mp h
  split at h
  · cases h
  · obtain ⟨hv, -, h⟩ := bind_eq_ok.mp h
    obtain ⟨-, h⟩ := ite_throw_eq_ok.mp h
    obtain ⟨header, hheader, h⟩ := bind_eq_ok.mp h
    obtain ⟨-, h⟩ := ite_throw_eq_ok.mp h
    obtain ⟨s, -, h⟩ := bind_eq_ok.mp h
    obtain ⟨declared, -, h⟩ := bind_eq_ok.mp h
    obtain ⟨-, h⟩ := ite_throw_eq_ok.mp h
    obtain rfl := pure_eq_ok.mp h
    rw [parseHeader] at hheader
    obtain ⟨v, -, hheader⟩ := bind_eq_ok.mp hheader
    obtain ⟨kind, -, hheader⟩ := bind_eq_ok.mp hheader
    obtain ⟨chainId, -, hheader⟩ := bind_eq_ok.mp hheader
    obtain ⟨pool, -, hheader⟩ := bind_eq_ok.mp hheader
    obtain ⟨epoch, hepoch, hheader⟩ := bind_eq_ok.mp hheader
    obtain ⟨block, hblock, hheader⟩ := bind_eq_ok.mp hheader
    obtain ⟨epochHash, -, hheader⟩ := bind_eq_ok.mp hheader
    obtain ⟨root, -, hheader⟩ := bind_eq_ok.mp hheader
    obtain ⟨cls, -, hheader⟩ := bind_eq_ok.mp hheader
    obtain rfl := pure_eq_ok.mp hheader
    exact ⟨u64Field_lt hepoch, u64Field_lt hblock⟩

/-- What a decoded snapshot satisfies. -/
structure Decoded (payload : ByteArray) (zstSha256 : String) (entry : ManifestSnapshot)
    (basisEpochHash : String) (expect : FeedIdentity) (snap : Snapshot) : Prop where
  zst : zstSha256 = entry.zst
  hash : hexEncode (payloadSha256 payload) = entry.hash
  parsed : parse P J payload = .ok snap
  chainId : snap.header.chainId = expect.chainId
  pool : snap.header.pool = expect.pool
  epoch : snap.header.epoch = entry.e
  block : snap.header.block = entry.block
  file : entry.file = snapshotFileName entry.e
  slots : slotCount snap.slots = entry.slots
  epochHash : snap.header.epochHash = basisEpochHash
  entryEpochHash : entry.epochHash = basisEpochHash

theorem decodeSnapshotPayload_eq_ok {payload : ByteArray} {zstSha256 : String}
    {entry : ManifestSnapshot} {basisEpochHash : String} {expect : FeedIdentity}
    {snap : Snapshot} :
    decodeSnapshotPayload P J payload zstSha256 entry basisEpochHash expect = .ok snap ↔
      Decoded P J payload zstSha256 entry basisEpochHash expect snap := by
  rw [decodeSnapshotPayload, checkZstHash]
  constructor
  · intro h
    obtain ⟨_, hzst, h⟩ := bind_eq_ok.mp h
    obtain ⟨hzst, -⟩ := ite_error_eq_ok.mp hzst
    obtain ⟨hhash, h⟩ := ite_throw_eq_ok.mp h
    obtain ⟨s, hparse, h⟩ := bind_eq_ok.mp h
    obtain ⟨hid, h⟩ := ite_throw_eq_ok.mp h
    obtain ⟨hpos, h⟩ := ite_throw_eq_ok.mp h
    obtain ⟨hfile, h⟩ := ite_throw_eq_ok.mp h
    obtain ⟨hslots, h⟩ := ite_throw_eq_ok.mp h
    obtain ⟨hepoch, h⟩ := ite_throw_eq_ok.mp h
    obtain rfl := pure_eq_ok.mp h
    rw [not_or, not_not, not_not] at hid hpos hepoch
    exact ⟨not_not.mp hzst, not_not.mp hhash, hparse, hid.1, hid.2, hpos.1, hpos.2,
      not_not.mp hfile, not_not.mp hslots, hepoch.1, hepoch.2⟩
  · intro h
    have hfile := h.file
    simp [h.zst, h.hash, h.parsed, h.chainId, h.pool, h.epoch, h.block, ← hfile, h.slots,
      h.epochHash, h.entryEpochHash, bind, Except.bind, pure, Except.pure]

end

/-! ## The round trip -/

open Codec (feltJson compact_record compact_num compact_str compact_feltJson plain_feltJson
  plainStr_literal plainStr_feltHex fromStr_compact)

def headerJson (h : SnapshotHeader) : Json :=
  .obj [("t", .str "hdr"), ("v", .num h.v), ("kind", .str h.kind), ("chain_id", .str h.chainId),
    ("pool", feltJson h.pool), ("epoch", .num h.epoch), ("block", .num h.block),
    ("epoch_hash", .str h.epochHash), ("storage_root", feltJson h.storageRoot),
    ("class", feltJson h.cls)]

def slotJson (s : SnapSlot) : Json :=
  .obj [("t", .str "s"), ("k", feltJson s.k), ("v", feltJson s.v), ("w", .num s.w)]

def endJson (slots : List SnapSlot) : Json :=
  .obj [("t", .str "end"), ("slots", .num (slotCount slots))]

/-- An end record with any count. -/
def endRecord (c : Nat) : Json := .obj [("t", .str "end"), ("slots", .num c)]

theorem compact_headerJson (h : SnapshotHeader) : (headerJson h).compact = encodeHeader h := by
  rw [headerJson, compact_record, encodeHeader]
  simp only [List.map_cons, List.map_nil, compact_num, compact_str, compact_feltJson]

theorem compact_slotJson (s : SnapSlot) : (slotJson s).compact = encodeSlot s := by
  rw [slotJson, compact_record, encodeSlot]
  simp only [List.map_cons, List.map_nil, compact_num, compact_str, compact_feltJson]

theorem compact_endJson (slots : List SnapSlot) : (endJson slots).compact = encodeEnd slots := by
  rw [endJson, compact_record, encodeEnd]
  simp only [List.map_cons, List.map_nil, compact_num, compact_str]

theorem encodeEnd_eq (slots : List SnapSlot) :
    encodeEnd slots = (endRecord (slotCount slots)).compact :=
  (compact_endJson slots).symm

/-- A snapshot its encoder writes and `parse` accepts. -/
structure SnapshotWf (s : Snapshot) : Prop where
  version : s.header.v = SNAPSHOT_VERSION
  kind : s.header.kind = KIND_SNAPSHOT
  chainId : PlainStr s.header.chainId
  epochHash : PlainStr s.header.epochHash
  epoch : s.header.epoch < 2 ^ 64
  block : s.header.block < 2 ^ 64
  slots : SlotsWf s.header.block s.slots

theorem plain_headerJson {s : Snapshot} (h : SnapshotWf s) : (headerJson s.header).Plain := by
  have hv : s.header.v < 2 ^ 64 := by rw [h.version]; decide
  have hkind : PlainStr s.header.kind := by
    rw [h.kind]
    exact plainStr_literal (by decide)
  rw [headerJson, Plain]
  simp only [PlainFields, plain_feltJson, and_true, true_and]
  simp only [Plain]
  exact ⟨plainStr_literal (by decide), plainStr_literal (by decide), plainStr_literal (by decide),
    hv, plainStr_literal (by decide), hkind, plainStr_literal (by decide), h.chainId,
    plainStr_literal (by decide), plainStr_literal (by decide), h.epoch,
    plainStr_literal (by decide), h.block, plainStr_literal (by decide), h.epochHash,
    plainStr_literal (by decide), plainStr_literal (by decide)⟩

theorem plain_slotJson {s : SnapSlot} (h : s.w < 2 ^ 64) : (slotJson s).Plain := by
  rw [slotJson, Plain]
  simp only [PlainFields, plain_feltJson, and_true, true_and]
  simp only [Plain]
  exact ⟨plainStr_literal (by decide), plainStr_literal (by decide), plainStr_literal (by decide),
    plainStr_literal (by decide), plainStr_literal (by decide), h⟩

theorem slotCount_lt (slots : List SnapSlot) : slotCount slots < 2 ^ 64 :=
  Nat.mod_lt _ (by decide)

theorem plain_endRecord {c : Nat} (hc : c < 2 ^ 64) : (endRecord c).Plain := by
  rw [endRecord, Plain]
  simp only [PlainFields, and_true]
  simp only [Plain]
  exact ⟨plainStr_literal (by decide), plainStr_literal (by decide), plainStr_literal (by decide),
    hc⟩

theorem readable_headerJson {s : Snapshot} (h : SnapshotWf s) : (headerJson s.header).Readable :=
  ⟨plain_headerJson h,
    by simp [headerJson, feltJson, Json.depth, Json.depthFields, Json.NESTING_LIMIT]⟩

theorem readable_slotJson {s : SnapSlot} (h : s.w < 2 ^ 64) : (slotJson s).Readable :=
  ⟨plain_slotJson h,
    by simp [slotJson, feltJson, Json.depth, Json.depthFields, Json.NESTING_LIMIT]⟩

theorem readable_endRecord {c : Nat} (hc : c < 2 ^ 64) : (endRecord c).Readable :=
  ⟨plain_endRecord hc, by simp [endRecord, Json.depth, Json.depthFields, Json.NESTING_LIMIT]⟩

section

variable (P : FeltParser) (J : JsonParser)

theorem strField_of (ctx : String) {v : Json} {k s : String} (hget : v.get k = some (.str s)) :
    strField v k ctx = .ok s := by
  simp only [strField, hget, Option.bind_some, asStr, orMalformed_some]

theorem u64Field_of (ctx : String) {v : Json} {k : String} {n : Nat}
    (hget : v.get k = some (.num n)) (hn : n < 2 ^ 64) : u64Field v k ctx = .ok n := by
  simp only [u64Field, hget, Option.bind_some, asU64, if_pos hn, orMalformed_some]

theorem feltField_of (ctx : String) {v : Json} {k : String} {f : Felt}
    (hget : v.get k = some (feltJson f)) : feltField P v k ctx = .ok f := by
  rw [feltField, strField_of ctx hget]
  exact feltFromHex_feltHex P f

theorem parseHeader_headerJson {s : Snapshot} (h : SnapshotWf s) :
    parseHeader P (headerJson s.header) = .ok s.header := by
  have hv : s.header.v < 2 ^ 64 := by rw [h.version]; decide
  have h₁ := u64Field_of "snapshot header" (v := headerJson s.header) (k := "v") rfl hv
  have h₂ := strField_of "snapshot header" (v := headerJson s.header) (k := "kind") rfl
  have h₃ := strField_of "snapshot header" (v := headerJson s.header) (k := "chain_id") rfl
  have h₄ := feltField_of P "snapshot header" (v := headerJson s.header) (k := "pool") rfl
  have h₅ := u64Field_of "snapshot header" (v := headerJson s.header) (k := "epoch") rfl h.epoch
  have h₆ := u64Field_of "snapshot header" (v := headerJson s.header) (k := "block") rfl h.block
  have h₇ := strField_of "snapshot header" (v := headerJson s.header) (k := "epoch_hash") rfl
  have h₈ := feltField_of P "snapshot header" (v := headerJson s.header) (k := "storage_root") rfl
  have h₉ := feltField_of P "snapshot header" (v := headerJson s.header) (k := "class") rfl
  simp only [parseHeader, h₁, h₂, h₃, h₄, h₅, h₆, h₇, h₈, h₉, bind, Except.bind, pure, Except.pure]

theorem parseLine_slot {block n : Nat} {s : Collected} {slot : SnapSlot} (hblock : block < 2 ^ 64)
    (hs : s.footer = none) (hcheck : checkSlot block s.slots.getLast? slot n = .ok ())
    (hw : slot.w ≤ block) :
    parseLine P J block s n (encodeSlot slot) = .ok { s with slots := s.slots ++ [slot] } := by
  have hw' : slot.w < 2 ^ 64 := Nat.lt_of_le_of_lt hw hblock
  have hk := feltField_of P ("snapshot line " ++ n.repr) (v := slotJson slot) (k := "k") rfl
  have hv := feltField_of P ("snapshot line " ++ n.repr) (v := slotJson slot) (k := "v") rfl
  have hn := u64Field_of ("snapshot line " ++ n.repr) (v := slotJson slot) (k := "w") rfl hw'
  have ht : ((slotJson slot).get "t").bind asStr = some "s" := rfl
  rw [← compact_slotJson, parseLine, fromStr_compact J (readable_slotJson hw')]
  simp only [bind, Except.bind, ht, if_true, hs, Option.isSome_none, Bool.false_eq_true, if_false,
    hk, hv, hn, hcheck, pure, Except.pure]

theorem parseLoop_slots {block : Nat} (hblock : block < 2 ^ 64) :
    ∀ (slots : List SnapSlot) {s : Collected} (n : Nat), s.footer = none →
      SlotsWf block (s.slots ++ slots) → (rest : List String) →
      parseLoop P J block s n (slots.map encodeSlot ++ rest) =
        parseLoop P J block { s with slots := s.slots ++ slots } (n + slots.length) rest
  | [], s, n, _, _, rest => by simp
  | slot :: slots, s, n, hs, hwf, rest => by
      have hmem : slot ∈ s.slots ++ slot :: slots := by simp
      have hchain := (List.isChain_append.mp hwf.ascending).2.2
      have hcheck : checkSlot block s.slots.getLast? slot n = .ok () :=
        checkSlot_eq_ok.mpr ⟨hwf.nonzero slot hmem, hwf.bounded slot hmem,
          fun prev hprev => hchain prev hprev slot (by simp)⟩
      have ih := parseLoop_slots hblock slots (s := { s with slots := s.slots ++ [slot] }) (n + 1) hs
        (by simpa using hwf) rest
      rw [List.map_cons, List.cons_append, parseLoop,
        parseLine_slot P J hblock hs hcheck (hwf.bounded slot hmem)]
      rw [show n + 1 + slots.length = n + (slot :: slots).length by
        rw [List.length_cons]; omega] at ih
      simpa [bind, Except.bind] using ih

theorem plainLine_slots {s : Snapshot} (h : SnapshotWf s) :
    ∀ l ∈ s.slots.map encodeSlot, PlainLine l := by
  intro l hl
  obtain ⟨slot, hslot, rfl⟩ := List.mem_map.mp hl
  rw [← compact_slotJson]
  exact plainLine_compact
    (plain_slotJson (Nat.lt_of_le_of_lt (h.slots.bounded slot hslot) h.block))

/-- A header followed by lines from which the loop collects the slots and their count. -/
theorem parse_of_loop {s : Snapshot} {rest : List String} (h : SnapshotWf s)
    (hrest : ∀ l ∈ rest, PlainLine l)
    (hloop : parseLoop P J s.header.block ⟨[], none⟩ 2 rest =
      .ok ⟨s.slots, some (slotCount s.slots)⟩) :
    parse P J (intoBytes (unlines (encodeHeader s.header :: rest))) = .ok s := by
  have hplain : ∀ l ∈ encodeHeader s.header :: rest, PlainLine l := by
    refine List.forall_mem_cons.mpr ⟨?_, hrest⟩
    rw [← compact_headerJson]
    exact plainLine_compact (plain_headerJson h)
  have hnl : endsWithNewline (unlines (encodeHeader s.header :: rest)) = true :=
    endsWithNewline_unlines (by simp)
  have hfirst : Codec.fromStr J (encodeHeader s.header) = .ok (headerJson s.header) := by
    rw [← compact_headerJson]
    exact fromStr_compact J (readable_headerJson h)
  have ht : ((headerJson s.header).get "t").bind asStr = some "hdr" := rfl
  simp only [parse, fromUtf8_intoBytes, orMalformed_some, hnl, lines_unlines hplain, hfirst,
    ht, parseHeader_headerJson P h, h.version, h.kind, hloop, bind, Except.bind, pure, Except.pure]
  simp

/-- An end record, whatever was read before it. -/
theorem parseLine_endRecord {block n c : Nat} {s : Collected} (hc : c < 2 ^ 64) :
    parseLine P J block s n (endRecord c).compact = .ok { s with footer := some c } := by
  have hu := u64Field_of ("snapshot line " ++ n.repr) (v := endRecord c) (k := "slots") rfl hc
  have ht : ((endRecord c).get "t").bind asStr = some "end" := rfl
  rw [parseLine, fromStr_compact J (readable_endRecord hc)]
  simp only [bind, Except.bind, ht, Option.some.injEq, if_false, if_true, hu, pure, Except.pure,
    String.reduceEq]

theorem parse_encode {s : Snapshot} (h : SnapshotWf s) : parse P J (encode s) = .ok s := by
  have hplain : ∀ l ∈ s.slots.map encodeSlot ++ [encodeEnd s.slots], PlainLine l := by
    intro l hl
    rcases List.mem_append.mp hl with hl | hl
    · exact plainLine_slots h l hl
    · rw [List.mem_singleton.mp hl, encodeEnd_eq]
      exact plainLine_compact (plain_endRecord (slotCount_lt s.slots))
  apply parse_of_loop P J h hplain
  rw [parseLoop_slots P J h.block s.slots 2 rfl (by simpa using h.slots), parseLoop]
  rw [List.nil_append, encodeEnd_eq, parseLine_endRecord P J (slotCount_lt s.slots)]
  rfl

end

end Snapshot

end Strk20.Feed
