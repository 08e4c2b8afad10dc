import Strk20.Foundation.Effect
import Strk20.Consumer.FeedStore

/-!
# The indexer's database (`indexerd/src/db.rs`)

One file, many connections: `Database` is the file, as its tables, and every
operation is one transaction on it. Numbers go through `i64` both ways and felts
are their 32 canonical bytes. Foreign keys are on, so a deleted block takes its
storage rows and its events along, and the three triggers on `storage_log` count
every row that comes or goes in `meta.storage_revision`. Indexed copies of event
keys and the `decoder` column are never read and left out.
-/

namespace Strk20.Indexer

open Feed Versioned Tables
open Consumer (toI64 toU64)
open Consumer.FeedStore (castInteger)
open Std (ExtTreeMap)

instance instTransCmpSlotWrites : Std.TransCmp (pairCmp : Felt × Int → Felt × Int → Ordering) :=
  instTransCmpPairCmp

/-- What callers tell apart in an `anyhow::Error`. -/
inductive Failure where
  | blockNotFound
  | proofUnavailable
  | proofUnbound
  | rootMismatch (block : Nat) (localRoot chainRoot : Felt)
  | feed (e : FeedError)
  | other (message : String)
deriving DecidableEq

structure BlockRow where
  number : Nat
  hash : Felt
  parentHash : Felt
  timestamp : Nat
  l1Accepted : Bool
deriving DecidableEq

structure EventRow where
  block : Nat
  eventIndex : Nat
  txIndex : Nat
  txHash : Felt
  keys : List Felt
  data : List Felt
deriving DecidableEq

structure Anchor where
  block : Nat
  blockHash : Felt
  storageRoot : Felt
  classHash : Felt
deriving DecidableEq

/-! ## Tables -/

structure BlockRec where
  hash : Felt
  parentHash : Felt
  timestamp : Int
  status : Int
deriving DecidableEq

structure EventRec where
  txIndex : Int
  txHash : Felt
  keys : List Felt
  data : List Felt
deriving DecidableEq

structure AnchorRec where
  blockHash : Felt
  storageRoot : Felt
  classHash : Felt
deriving DecidableEq

/-- A published epoch. The anchor columns are null together. -/
structure EpochRec where
  fromBlock : Int
  toBlock : Int
  contentHash : Key
  zstSha256 : Key
  fileSize : Int
  prevHash : Option Key
  anchor : Option (Int × AnchorRec)
  cutAt : Int
deriving DecidableEq

structure SeenHead where
  number : Int
  reorged : Bool
deriving DecidableEq

structure SnapshotRec where
  block : Int
  epochHash : String
  file : String
  hash : String
  zst : String
  bytes : Int
  slots : Int
  storageRoot : String
  anchor : Option (Int × AnchorRec)
  grounding : String
deriving DecidableEq

structure Database where
  metas : ExtTreeMap String String
  blocks : ExtTreeMap Int BlockRec
  storageLog : Table Felt Int Felt
  events : Table Int Int EventRec
  classHistory : ExtTreeMap Int Felt
  epochs : ExtTreeMap Int EpochRec
  anchors : ExtTreeMap Int AnchorRec
  snapshots : ExtTreeMap Int SnapshotRec
  ingestCursor : Option Int
  seenHeads : ExtTreeMap Felt SeenHead

namespace Database

/-- What `DDL` creates. -/
def new : Database := ⟨∅, ∅, ∅, ∅, ∅, ∅, ∅, ∅, none, ∅⟩

def metaGet (d : Database) (key : String) : Option String := d.metas[key]?

def metaSet (d : Database) (key value : String) : Database :=
  { d with metas := d.metas.insert key value }

/-- `meta_get(key)?.and_then(|s| s.parse().ok())` of a `u64`. -/
def metaU64 (d : Database) (key : String) : Option Nat := (d.metaGet key).bind Text.parseU64

/-! ## Storage revision -/

/-- `CAST(value AS INTEGER) + 1` kept as text; past the last integer the sum is
a float. -/
def increment (value : String) : String :=
  if castInteger value + 1 < 2 ^ 63 then (castInteger value + 1).repr
  else "9.2233720368547758e+18"

/-- Body of the `storage_revision` triggers. -/
def fire (d : Database) : Database :=
  d.metaSet "storage_revision"
    (match d.metaGet "storage_revision" with
      | none => "1"
      | some value => increment value)

/-! ## Blocks -/

/-- Whether a number is that of a row which `p` selects. -/
def selects (d : Database) (p : Int → BlockRec → Bool) (n : Int) : Bool :=
  match d.blocks[n]? with
  | some b => p n b
  | none => false

/-- Block rows go, and by `ON DELETE CASCADE` their storage rows and events. -/
def clearBlocks (d : Database) (p : Int → BlockRec → Bool) : Database :=
  { d with
    blocks := d.blocks.filter fun n b => !p n b
    storageLog := d.storageLog.filter fun k _ => !d.selects p k.2
    events := d.events.filter fun k _ => !d.selects p k.1 }

/-- Storage rows that a deletion of blocks takes along. -/
def cascaded (d : Database) (p : Int → BlockRec → Bool) : Nat :=
  (d.storageLog.filter fun k _ => d.selects p k.2).size

/-- `DELETE FROM blocks`. The trigger on `storage_log` fires once for every row
that the cascade deletes. -/
def deleteBlocks (d : Database) (p : Int → BlockRec → Bool) : Database :=
  Nat.iterate fire (d.cascaded p) (d.clearBlocks p)

/-- `INSERT OR REPLACE INTO blocks`: `number` is the key and `hash` is unique,
so a row with either goes first. -/
def insertBlock (d : Database) (b : BlockRow) : Database :=
  let cleared := d.deleteBlocks fun n r => n == toI64 b.number || r.hash == b.hash
  { cleared with
    blocks := cleared.blocks.insert (toI64 b.number)
      ⟨b.hash, b.parentHash, toI64 b.timestamp, if b.l1Accepted then 1 else 0⟩ }

def rowToBlock (number : Int) (r : BlockRec) : BlockRow :=
  ⟨toU64 number, r.hash, r.parentHash, toU64 r.timestamp, r.status == 1⟩

def block (d : Database) (number : Nat) : Option BlockRow :=
  (d.blocks[toI64 number]?).map (rowToBlock (toI64 number))

def blocksInRange (d : Database) (first last : Nat) : List BlockRow :=
  (d.blocks.toList.filter fun e => toI64 first ≤ e.1 ∧ e.1 ≤ toI64 last).map fun e =>
    rowToBlock e.1 e.2

/-- `UPDATE blocks SET status = 1 WHERE number <= ?1 AND status = 0`. -/
def promoteL1 (d : Database) (upto : Nat) : Database :=
  { d with
    blocks := d.blocks.map fun n r =>
      if n ≤ toI64 upto ∧ r.status = 0 then { r with status := 1 } else r }

def recordSeenHead (d : Database) (hash : Felt) (number : Nat) : Database :=
  { d with seenHeads := d.seenHeads.insert hash ⟨toI64 number, false⟩ }

/-! ## One block's data -/

/-- `INSERT OR REPLACE INTO storage_log`. A replaced row fires nothing, the
inserted one does. -/
def insertDiff (block : Nat) (d : Database) (w : Felt × Felt) : Database :=
  fire { d with storageLog := d.storageLog.insert (w.1, toI64 block) w.2 }

/-- `INSERT OR REPLACE INTO events`, whose block has to exist. -/
def insertEvent (d : Database) (e : EventRow) : Except Failure Database :=
  if d.blocks.contains (toI64 e.block) then
    .ok { d with
      events := d.events.insert (toI64 e.block, toI64 e.eventIndex)
        ⟨toI64 e.txIndex, e.txHash, e.keys, e.data⟩ }
  else .error (.other "FOREIGN KEY constraint failed")

def insertClass (d : Database) (block : Nat) (replacedClass : Option Felt) : Database :=
  match replacedClass with
  | some cls => { d with classHistory := d.classHistory.insert (toI64 block) cls }
  | none => d

/-- The frontier only ever advances here. -/
def advanceCursor (d : Database) (frontier : Nat) : Database :=
  { d with
    ingestCursor := some (match d.ingestCursor with
      | some f => max f (toI64 frontier)
      | none => toI64 frontier) }

/-- `insert_block_data`: one transaction, so an error leaves the database as it
was. -/
def insertBlockData (d : Database) (block : BlockRow) (diffs : List (Felt × Felt))
    (events : List EventRow) (replacedClass : Option Felt) (newFrontier : Nat) :
    Except Failure Database :=
  let written := diffs.foldl (insertDiff block.number) (d.insertBlock block)
  match events.foldlM insertEvent written with
  | .error e => .error e
  | .ok filled => .ok ((filled.insertClass block.number replacedClass).advanceCursor newFrontier)

def setIngestCursor (d : Database) (frontier : Nat) : Database :=
  { d with ingestCursor := some (toI64 frontier) }

/-- Last fully ingested block. -/
def cursor (d : Database) : Option Nat := d.ingestCursor.map toU64

/-! ## Rollback -/

/-- Hashes that are about to be forgotten are remembered as reorged. -/
def tombstone (d : Database) (ancestor : Nat) : Database :=
  let added := (d.blocks.toList.filter fun e => toI64 ancestor < e.1).foldl
    (fun t e => t.insert e.2.hash ⟨e.1, true⟩) d.seenHeads
  { d with
    seenHeads := added.map fun _ h =>
      if toI64 ancestor < h.number then { h with reorged := true } else h }

/-- Anchors, frontier and probe marker of a rollback. -/
def rewindMarkers (d : Database) (ancestor : Nat) : Database :=
  { d with
    anchors := d.anchors.filter fun n _ => !(toI64 ancestor < n)
    ingestCursor := d.ingestCursor.map (min · (toI64 ancestor))
    metas := d.metas.erase "anchor_probe_frontier" }

/-- `rollback_above`. `class_history` has no foreign key and is not named here. -/
def rollbackAbove (d : Database) (ancestor : Nat) : Database :=
  ((d.tombstone ancestor).deleteBlocks fun n _ => toI64 ancestor < n).rewindMarkers ancestor

/-! ## Reads -/

def readSlotAsOf (d : Database) (slot : Felt) (block : Nat) : Felt × Option Nat :=
  match asOf d.storageLog slot (toI64 block) with
  | some (v, b) => (v, some (toU64 b))
  | none => (0, none)

/-- All diffs of one block, sorted by slot bytes. -/
def diffsOfBlock (d : Database) (block : Nat) : List (Felt × Felt) :=
  (d.storageLog.toList.filter fun e => e.1.2 = toI64 block).map fun e => (e.1.1, e.2)

def fullSlotSetAsOf (d : Database) (block : Nat) : List (Felt × Felt) :=
  ((latestRows d.storageLog (toI64 block)).map fun e => (e.1.1, e.2)).filter fun e => e.2 ≠ 0

def eventsOfBlock (d : Database) (block : Nat) : List EventRow :=
  (d.events.toList.filter fun e => e.1.1 = toI64 block).map fun e =>
    ⟨toU64 e.1.1, toU64 e.1.2, toU64 e.2.txIndex, e.2.txHash, e.2.keys, e.2.data⟩

/-- The event of a block under its index. -/
def eventRec (d : Database) (block index : Int) : Option EventRec := d.events[(block, index)]?

def replacedClassOfBlock (d : Database) (block : Nat) : Option Felt := d.classHistory[toI64 block]?

/-- Pool class as of a block: the latest row at or below it. -/
def classAsOf (d : Database) (block : Nat) : Option Felt :=
  ((d.classHistory.toList.filter fun e => e.1 ≤ toI64 block).getLast?).map Prod.snd

end Database

end Strk20.Indexer
