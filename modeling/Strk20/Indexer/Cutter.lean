import Strk20.Consumer.Apply
import Strk20.Indexer.Ingest

/-!
# Epochs, manifest and head from the database (`cutter.rs`)

Published bytes are a function of the rows: `buildEpoch` and `buildHead` make the
structs that the codec encodes, `manifestOf` the poll target. The feed directory
is its files, and a publisher writes database and directory one write at a time.
-/

namespace Strk20.Indexer

open Feed Feed.Codec Tables
open Consumer (toI64 toU64 MAX_DECOMPRESSED)
open Std (ExtTreeMap)

/-- Compression of a feed file (zstd), as far as the feed relies on it: a file
expands into what was compressed. -/
structure Zstd where
  compress : ByteArray → ByteArray
  expand : ByteArray → Option ByteArray
  expand_compress : ∀ b : ByteArray, expand (compress b) = some b

def Zstd.decompress (Z : Zstd) (bytes : ByteArray) : Option ByteArray :=
  (Z.expand bytes).filter fun payload => payload.size ≤ MAX_DECOMPRESSED

/-! ## Rows of published artifacts -/

/-- `EpochRowFull`. -/
structure EpochRow where
  idx : Nat
  first : Nat
  last : Nat
  contentHash : Key
  zstSha256 : Key
  fileSize : Nat
  anchor : Option Anchor
deriving DecidableEq

def anchorOf (a : Int × AnchorRec) : Anchor :=
  ⟨toU64 a.1, a.2.blockHash, a.2.storageRoot, a.2.classHash⟩

def anchorRecOf (a : Anchor) : Int × AnchorRec :=
  (toI64 a.block, ⟨a.blockHash, a.storageRoot, a.classHash⟩)

def epochRowOf (idx : Int) (r : EpochRec) : EpochRow :=
  ⟨toU64 idx, toU64 r.fromBlock, toU64 r.toBlock, r.contentHash, r.zstSha256, toU64 r.fileSize,
    r.anchor.map anchorOf⟩

@[simp] theorem epochRowOf_idx (idx : Int) (r : EpochRec) : (epochRowOf idx r).idx = toU64 idx := rfl

/-! ## Manifest -/

structure EpochAnchor where
  block : Nat
  blockHash : String
  storageRoot : String
  cls : String
deriving DecidableEq

structure ManifestHead where
  number : Nat
  hash : String
  l1Accepted : Nat
  cls : String
  decodeState : String
deriving DecidableEq

/-- A manifest entry, with the fields a consumer does not check. -/
structure EpochEntry extends ManifestEpoch where
  zst : String
  bytes : Nat
  anchor : Option EpochAnchor
deriving DecidableEq

structure SnapshotEntry extends ManifestSnapshot where
  bytes : Nat
  storageRoot : String
  anchor : Option EpochAnchor
  grounding : String
deriving DecidableEq

/-- `manifest.json`. -/
structure ManifestFile where
  v : Nat
  chainId : String
  pool : String
  genesisBlock : Nat
  epochSize : Nat
  head : ManifestHead
  latestEpoch : Option Nat
  epochs : List EpochEntry
  snapshot : Option SnapshotEntry
deriving DecidableEq

def epochAnchorOf (a : Anchor) : EpochAnchor :=
  ⟨a.block, feltHex a.blockHash, feltHex a.storageRoot, feltHex a.classHash⟩

def EpochRow.entry (r : EpochRow) : EpochEntry :=
  ⟨⟨r.idx, r.first, r.last, hexEncode r.contentHash⟩, hexEncode r.zstSha256, r.fileSize,
    r.anchor.map epochAnchorOf⟩

def snapshotEntryOf (e : Int) (r : SnapshotRec) : SnapshotEntry :=
  ⟨⟨toU64 e, toU64 r.block, r.epochHash, r.file, r.hash, r.zst, toU64 r.slots⟩, toU64 r.bytes,
    r.storageRoot, r.anchor.map fun a => epochAnchorOf (anchorOf a), r.grounding⟩

/-- Feed-relative path of a snapshot's basis-block proof sidecar. -/
def snapshotAnchorFileName (e : Nat) : String := "snapshots/" ++ pad8 e ++ ".anchor.json"

def footerFor (blocks : List BlockLine) (cls : Felt) : Footer :=
  ⟨countBlocks blocks, countDiffs blocks, countEvents blocks, cls⟩

namespace Database

def epochRows (d : Database) : List EpochRow := d.epochs.toList.map fun e => epochRowOf e.1 e.2

/-- Published snapshots, ascending by epoch. -/
def snapshotRows (d : Database) : List SnapshotEntry :=
  d.snapshots.toList.map fun e => snapshotEntryOf e.1 e.2

def deleteSnapshot (d : Database) (e : Nat) : Database :=
  { d with snapshots := d.snapshots.erase (toI64 e) }

/-- `INSERT OR REPLACE INTO epochs`. -/
def insertEpoch (d : Database) (idx : Nat) (r : EpochRec) : Database :=
  { d with epochs := d.epochs.insert (toI64 idx) r }

/-- A stored event as an event line. -/
def eventLineOf (e : EventRow) : EventLine := ⟨e.txIndex, e.eventIndex, e.txHash, e.keys, e.data⟩

/-- Finality of a line in a file that says `upto`: both the row and the header
have to say so. -/
def finalityFor (b : BlockRow) (upto : Nat) : Finality :=
  if b.l1Accepted && b.number ≤ upto then .l1 else .l2

def blockLineOf (d : Database) (finalityUpto : Option Nat) (b : BlockRow) : BlockLine :=
  { number := b.number
    hash := b.hash
    parent := b.parentHash
    timestamp := b.timestamp
    diffs := d.diffsOfBlock b.number
    events := (d.eventsOfBlock b.number).map eventLineOf
    replacedClass := d.replacedClassOfBlock b.number
    finality := finalityUpto.map (finalityFor b) }

def blocksAsLines (d : Database) (first last : Nat) (finalityUpto : Option Nat) : List BlockLine :=
  (d.blocksInRange first last).map (d.blockLineOf finalityUpto)

end Database

section

variable (cfg : ChainConfig) (d : Database)

/-- `build_epoch`. -/
def buildEpoch (idx : Nat) (prev : Option Key) : Epoch :=
  let range := cfg.epochRange idx
  let blocks := d.blocksAsLines range.1 range.2 none
  { header := ⟨cfg.chainId, cfg.pool, idx, range.1, range.2, prev⟩
    blocks := blocks
    footer := footerFor blocks ((d.classAsOf range.2).getD 0) }

/-- First block of the tail: the one after the last epoch. -/
def tailFrom : Nat :=
  match d.lastEpoch with
  | some (_, _, last) => (last + 1) % 2 ^ 64
  | none => (cfg.epochRange cfg.firstEpoch).1

/-- The head that `regen_head` encodes. -/
def buildHead (P : FeltParser) : Except Failure Head := do
  let headNumber := (d.metaU64 "head_number").getD 0
  let headHash ← ((d.metaGet "head_hash").mapM (parseFelt P))
  let l1Accepted := (d.metaU64 "l1_accepted_number").getD 0
  let blocks := d.blocksAsLines (tailFrom cfg d) headNumber (some l1Accepted)
  pure
    { header := ⟨tailFrom cfg d, headNumber, headHash.getD 0, l1Accepted⟩
      blocks := blocks
      footer := footerFor blocks ((d.classAsOf headNumber).getD 0) }

/-- Content hash of a rebuilt epoch; `none` is the encoder's panic. -/
def epochHash (idx : Nat) (prev : Option Key) : Option Key :=
  (encodeEpoch (buildEpoch cfg d idx prev)).map payloadSha256

/-- What `rewrite_manifest` writes. -/
def manifestOf : ManifestFile :=
  let rows := d.epochRows
  let headNumber := (d.metaU64 "head_number").getD 0
  { v := FORMAT_VERSION
    chainId := cfg.chainId
    pool := feltHex cfg.pool
    genesisBlock := cfg.genesisBlock
    epochSize := cfg.epochSize
    head :=
      { number := headNumber
        hash := (d.metaGet "head_hash").getD "0x0"
        l1Accepted := (d.metaU64 "l1_accepted_number").getD 0
        cls := feltHex ((d.classAsOf headNumber).getD 0)
        decodeState := (d.metaGet "decode_state").getD "ok" }
    latestEpoch := rows.getLast?.map (·.idx)
    epochs := rows.map EpochRow.entry
    snapshot := d.snapshotRows.getLast? }

end

/-! ## Directory and writes -/

structure FeedDir where
  genesis : Option Genesis
  epochs : ExtTreeMap Nat ByteArray
  snapshots : ExtTreeMap String ByteArray
  manifest : Option ManifestFile
  head : Option ByteArray

/-- A publisher's database and feed directory. -/
structure Site where
  database : Database
  dir : FeedDir

/-- One write of a publisher; each lands whole or not at all. -/
inductive Write where
  | layout
  | removeFile (name : String)
  | deleteSnapshot (e : Nat)
  | epochFile (idx : Nat) (bytes : ByteArray)
  | epochRow (idx : Nat) (r : EpochRec)
  | manifest
deriving DecidableEq

namespace Write

variable (cfg : ChainConfig)

def apply (s : Site) : Write → Site
  | layout =>
      let genesis : Genesis := ⟨cfg.chainId, feltHex cfg.pool, cfg.genesisBlock, cfg.epochSize⟩
      { s with dir := { s.dir with genesis := some (s.dir.genesis.getD genesis) } }
  | removeFile name => { s with dir := { s.dir with snapshots := s.dir.snapshots.erase name } }
  | deleteSnapshot e => { s with database := s.database.deleteSnapshot e }
  | epochFile idx bytes =>
      { s with dir := { s.dir with epochs := s.dir.epochs.insert idx bytes } }
  | epochRow idx r => { s with database := s.database.insertEpoch idx r }
  | manifest => { s with dir := { s.dir with manifest := some (manifestOf cfg s.database) } }

def applyAll (s : Site) (ws : List Write) : Site := ws.foldl (apply cfg) s

@[simp] theorem applyAll_nil (s : Site) : applyAll cfg s [] = s := rfl

@[simp] theorem applyAll_cons (s : Site) (w : Write) (ws : List Write) :
    applyAll cfg s (w :: ws) = applyAll cfg (apply cfg s w) ws := rfl

theorem applyAll_append (s : Site) (ws ws' : List Write) :
    applyAll cfg s (ws ++ ws') = applyAll cfg (applyAll cfg s ws) ws' :=
  List.foldl_append

end Write

/-! ## What writes leave alone -/

/-- Published rows apart, the same database. -/
def SameBlocks (d d' : Database) : Prop :=
  ∃ epochs snapshots, d' = { d with epochs := epochs, snapshots := snapshots }

theorem SameBlocks.refl (d : Database) : SameBlocks d d := ⟨_, _, rfl⟩

theorem SameBlocks.trans {d d' d'' : Database} (h : SameBlocks d d') (h' : SameBlocks d' d'') :
    SameBlocks d d'' := by
  obtain ⟨epochs, snapshots, rfl⟩ := h
  obtain ⟨epochs', snapshots', rfl⟩ := h'
  exact ⟨_, _, rfl⟩

/-- Epochs are built from the block tables alone. -/
theorem SameBlocks.buildEpoch {d d' : Database} (h : SameBlocks d d') (cfg : ChainConfig) (idx : Nat)
    (prev : Option Key) : buildEpoch cfg d' idx prev = buildEpoch cfg d idx prev := by
  obtain ⟨epochs, snapshots, rfl⟩ := h
  rfl

theorem SameBlocks.epochHash {d d' : Database} (h : SameBlocks d d') (cfg : ChainConfig) (idx : Nat)
    (prev : Option Key) : epochHash cfg d' idx prev = epochHash cfg d idx prev := by
  unfold Indexer.epochHash
  rw [h.buildEpoch]

/-- The published rows decide the rest. -/
theorem SameBlocks.ext {d d₁ d₂ : Database} (h₁ : SameBlocks d d₁) (h₂ : SameBlocks d d₂)
    (hepochs : d₁.epochs = d₂.epochs) (hsnapshots : d₁.snapshots = d₂.snapshots) : d₁ = d₂ := by
  obtain ⟨epochs, snapshots, rfl⟩ := h₁
  obtain ⟨epochs', snapshots', rfl⟩ := h₂
  cases hepochs
  cases hsnapshots
  rfl

namespace Write

variable (cfg : ChainConfig)

def epochsStep (t : ExtTreeMap Int EpochRec) : Write → ExtTreeMap Int EpochRec
  | epochRow idx r => t.insert (toI64 idx) r
  | _ => t

def snapshotsStep (t : ExtTreeMap Int SnapshotRec) : Write → ExtTreeMap Int SnapshotRec
  | deleteSnapshot e => t.erase (toI64 e)
  | _ => t

def filesStep (t : ExtTreeMap Nat ByteArray) : Write → ExtTreeMap Nat ByteArray
  | epochFile idx bytes => t.insert idx bytes
  | _ => t

theorem apply_blocks (s : Site) (w : Write) : SameBlocks s.database (apply cfg s w).database := by
  cases w <;> exact ⟨_, _, rfl⟩

theorem applyAll_blocks (s : Site) (ws : List Write) :
    SameBlocks s.database (applyAll cfg s ws).database := by
  induction ws generalizing s with
  | nil => exact SameBlocks.refl _
  | cons w ws ih => exact (apply_blocks cfg s w).trans (ih _)

theorem applyAll_epochs (s : Site) (ws : List Write) :
    (applyAll cfg s ws).database.epochs = ws.foldl epochsStep s.database.epochs := by
  induction ws generalizing s with
  | nil => rfl
  | cons w ws ih =>
      rw [applyAll_cons, ih, List.foldl_cons]
      cases w <;> rfl

theorem applyAll_snapshots (s : Site) (ws : List Write) :
    (applyAll cfg s ws).database.snapshots = ws.foldl snapshotsStep s.database.snapshots := by
  induction ws generalizing s with
  | nil => rfl
  | cons w ws ih =>
      rw [applyAll_cons, ih, List.foldl_cons]
      cases w <;> rfl

theorem applyAll_files (s : Site) (ws : List Write) :
    (applyAll cfg s ws).dir.epochs = ws.foldl filesStep s.dir.epochs := by
  induction ws generalizing s with
  | nil => rfl
  | cons w ws ih =>
      rw [applyAll_cons, ih, List.foldl_cons]
      cases w <;> rfl

/-- After a manifest write the manifest is that of the database. -/
theorem applyAll_manifest (s : Site) (ws : List Write) :
    (applyAll cfg s (ws ++ [manifest])).dir.manifest =
      some (manifestOf cfg (applyAll cfg s (ws ++ [manifest])).database) := by
  rw [applyAll_append]
  rfl

end Write

/-! ## Epochs under their index -/

/-- Keys of the published tables are 64-bit integers, as SQLite's are. -/
structure Database.Columns64 (d : Database) : Prop where
  epochs : ∀ (k : Int) (r : EpochRec), d.epochs[k]? = some r → -2 ^ 63 ≤ k ∧ k < 2 ^ 63
  snapshots : ∀ (k : Int) (r : SnapshotRec), d.snapshots[k]? = some r → -2 ^ 63 ≤ k ∧ k < 2 ^ 63

theorem toI64_toU64 {i : Int} (hlow : -2 ^ 63 ≤ i) (hhigh : i < 2 ^ 63) : toI64 (toU64 i) = i := by
  unfold toI64 toU64
  simp only
  split <;> omega

theorem toU64_lt (i : Int) : toU64 i < 2 ^ 64 := by
  unfold toU64
  omega

namespace Database

variable {d : Database}

/-- A listed epoch is the row under its index. -/
theorem epochRows_split (hcols : d.Columns64) {pre post : List EpochRow} {row : EpochRow}
    (h : d.epochRows = pre ++ row :: post) :
    ∃ (a b : List (Int × EpochRec)) (r : EpochRec), d.epochs.toList = a ++ (toI64 row.idx, r) :: b ∧
      a.map (fun e => epochRowOf e.1 e.2) = pre ∧ b.map (fun e => epochRowOf e.1 e.2) = post ∧
        epochRowOf (toI64 row.idx) r = row := by
  obtain ⟨a, rest, hlist, ha, hrest⟩ := List.map_eq_append_iff.mp h
  obtain ⟨e, b, rfl, he, hb⟩ := List.map_eq_cons_iff.mp hrest
  obtain ⟨k, r⟩ := e
  have hget : d.epochs[k]? = some r := by
    rw [← ExtTreeMap.mem_toList_iff_getElem?_eq_some, hlist]
    simp
  obtain ⟨hlow, hhigh⟩ := hcols.epochs k r hget
  have hkey : toI64 row.idx = k := by
    rw [← he]
    exact toI64_toU64 hlow hhigh
  rw [hkey]
  exact ⟨a, b, r, hlist, ha, hb, he⟩

theorem epochRows_insertEpoch (hcols : d.Columns64) {pre post : List EpochRow} {row : EpochRow}
    (h : d.epochRows = pre ++ row :: post) (r : EpochRec) :
    (d.insertEpoch row.idx r).epochRows = pre ++ epochRowOf (toI64 row.idx) r :: post := by
  obtain ⟨a, b, r₀, hlist, rfl, rfl, -⟩ := epochRows_split hcols h
  unfold epochRows insertEpoch
  rw [toList_insert_of_split hlist, List.map_append, List.map_cons]

theorem insertEpoch_columns64 (hcols : d.Columns64) {pre post : List EpochRow} {row : EpochRow}
    (h : d.epochRows = pre ++ row :: post) (r : EpochRec) :
    (d.insertEpoch row.idx r).Columns64 := by
  obtain ⟨a, b, r₀, hlist, -, -, -⟩ := epochRows_split hcols h
  have hget : d.epochs[toI64 row.idx]? = some r₀ := by
    rw [← ExtTreeMap.mem_toList_iff_getElem?_eq_some, hlist]
    simp
  refine ⟨fun k r' hk => ?_, hcols.snapshots⟩
  unfold insertEpoch at hk
  rw [getElem?_insert_eq] at hk
  split at hk
  · rename_i hkey
    rw [hkey]
    exact hcols.epochs _ _ hget
  · exact hcols.epochs k r' hk

theorem epochRows_idx_lt {row : EpochRow} (h : row ∈ d.epochRows) : row.idx < 2 ^ 64 := by
  obtain ⟨e, -, rfl⟩ := List.mem_map.mp h
  exact toU64_lt e.1

end Database

end Strk20.Indexer
