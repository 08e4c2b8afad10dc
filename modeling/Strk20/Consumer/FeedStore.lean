import Strk20.Foundation.Versioned
import Strk20.Feed.MptRoot
import Strk20.Consumer.Rows

/-!
# The SQLite store (`client/src/store.rs`)

Tables with primary keys. Numbers are cast to the signed 64-bit integers of
SQLite on the way in and back on the way out, so a block from `2^63` on is
stored under a negative key. Felts are blobs of their 32 canonical bytes, which
order as the felts do; the indexed copies of event keys are never read.
-/

namespace Strk20.Consumer

open Feed Versioned Tables
open Std (ExtTreeMap)

/-- `n as i64` of a `u64`. -/
def toI64 (n : Nat) : Int :=
  let m : Int := (n % 2 ^ 64 : Nat)
  if m < 2 ^ 63 then m else m - 2 ^ 64

/-- `i as u64` of an `i64`. -/
def toU64 (i : Int) : Nat := (i % 2 ^ 64).toNat

theorem toI64_of_lt {n : Nat} (h : n < 2 ^ 63) : toI64 n = n := by
  have hmod : n % 2 ^ 64 = n := Nat.mod_eq_of_lt (by omega)
  unfold toI64
  rw [hmod]
  simp only
  rw [if_pos (by omega)]

theorem toU64_toI64 {n : Nat} (h : n < 2 ^ 64) : toU64 (toI64 n) = n := by
  have hmod : n % 2 ^ 64 = n := Nat.mod_eq_of_lt h
  unfold toI64 toU64
  rw [hmod]
  simp only
  by_cases hn : (n : Int) < 2 ^ 63
  · rw [if_pos hn]; omega
  · rw [if_neg hn]; omega

theorem toI64_inj {m n : Nat} (hm : m < 2 ^ 64) (hn : n < 2 ^ 64) : toI64 m = toI64 n ↔ m = n := by
  constructor
  · intro h
    rw [← toU64_toI64 hm, h, toU64_toI64 hn]
  · rintro rfl
    rfl

namespace FeedStore

structure BlockRow where
  hash : Felt
  parentHash : Felt
  timestamp : Int
  finality : Int

structure EventRow where
  txIndex : Int
  txHash : Felt
  keys : List Felt
  data : List Felt

structure NoteRecord where
  owner : Felt
  sender : Felt
  token : Felt
  idx : Int
  nullifier : Felt
  amount : String
  block : Int
  spent : Int

end FeedStore

/-- `FeedStore`; the hash is the one `storage_root_at` computes with. -/
structure FeedStore (pedersen : Felt → Felt → Felt) where
  metas : ExtTreeMap String String
  blocks : ExtTreeMap Int FeedStore.BlockRow
  storageLog : Table Felt Int Felt
  events : Table Int Int FeedStore.EventRow
  notesRegistry : ExtTreeMap Felt FeedStore.NoteRecord

namespace FeedStore

variable {pedersen : Felt → Felt → Felt}

/-- A newly created database. -/
def new (pedersen : Felt → Felt → Felt) : FeedStore pedersen := ⟨∅, ∅, ∅, ∅, ∅⟩

def metaSet (s : FeedStore pedersen) (key value : String) : FeedStore pedersen :=
  { s with metas := s.metas.insert key value }

def isEmpty (s : FeedStore pedersen) : Bool :=
  if (s.metas["last_epoch_applied"]?).isSome then false
  else s.blocks.size + s.storageLog.size == 0

def blockHash (s : FeedStore pedersen) (number : Nat) : Option Felt :=
  (s.blocks[toI64 number]?).map (·.hash)

/-- The condition a range becomes in SQL: `BETWEEN ?1 AND ?2`, `> ?1`. -/
def inRange (r : Range) (i : Int) : Bool :=
  match r with
  | .inclusive first last => toI64 first ≤ i && i ≤ toI64 last
  | .above floor => toI64 floor < i

def blockHashes (s : FeedStore pedersen) (range : Range) : Except Failure (List (Nat × Felt)) :=
  .ok ((s.blocks.toList.filter fun e => inRange range e.1).map fun e => (toU64 e.1, e.2.hash))

def readSlotAsOf (s : FeedStore pedersen) (slot : Felt) (bound : Nat) : Felt × Nat :=
  match asOf s.storageLog slot (toI64 bound) with
  | some (v, b) => (v, toU64 b)
  | none => (0, 0)

def fullSlotSetAsOf (s : FeedStore pedersen) (block : Nat) : List (Felt × Felt) :=
  ((latestRows s.storageLog (toI64 block)).map fun e => (e.1.1, e.2)).filter fun e => e.2 ≠ 0

/-- The trait's default: `mpt::storage_root` of the slot set. -/
def storageRootAt (s : FeedStore pedersen) (block : Nat) :
    Except Failure Felt × FeedStore pedersen :=
  (.ok (Mpt.storageRoot pedersen (s.fullSlotSetAsOf block)), s)

def blockRecOf (row : BlockRow) : BlockRec :=
  ⟨row.hash, row.parentHash, toU64 row.timestamp, row.finality ≠ 0⟩

def eventRecOf (row : EventRow) : EventRec := ⟨toU64 row.txIndex, row.txHash, row.keys, row.data⟩

def eventRows (s : FeedStore pedersen) (first last : Nat) : Except Failure (List EmittedEvent) :=
  .ok ((s.events.toList.filter fun e => inRange (.inclusive first last) e.1.1).filterMap fun e =>
    match s.blocks[e.1.1]? with
    | some b => some (emitted (toU64 e.1.1) (toU64 e.1.2) b.hash (eventRecOf e.2))
    | none => none)

def applyBlockLine (s : FeedStore pedersen) (b : BlockLine) (finality : Int) :
    FeedStore pedersen :=
  { s with
    blocks := s.blocks.insert (toI64 b.number) ⟨b.hash, b.parent, toI64 b.timestamp, finality⟩
    storageLog := b.diffs.foldl (fun t d => t.insert (d.1, toI64 b.number) d.2) s.storageLog
    events := b.events.foldl (fun t e => t.insert (toI64 b.number, toI64 e.eventIndex)
      ⟨toI64 e.txIndex, e.txHash, e.keys, e.data⟩) s.events }

def metaSets (s : FeedStore pedersen) (writes : List (String × String)) : FeedStore pedersen :=
  writes.foldl (fun s w => s.metaSet w.1 w.2) s

def isSpace (c : Char) : Bool := [' ', '\t', '\n', '\x0b', '\x0c', '\r'].contains c

/-- `CAST(value AS INTEGER)` of a text: its digits, as far as they go, after
any leading spaces. -/
def castInteger (s : String) : Int :=
  let (negative, digits) :=
    match s.toList.dropWhile isSpace with
    | '-' :: rest => (true, rest)
    | '+' :: rest => (false, rest)
    | rest => (false, rest)
  let n := (Text.digitsValue (digits.takeWhile Char.isDigit)).getD 0
  if negative then max (-(n : Int)) (-2 ^ 63) else min (n : Int) (2 ^ 63 - 1)

/-- The cast reads a plain number back, as far as SQLite's integers go. -/
theorem castInteger_repr {n : Nat} (h : n < 2 ^ 63) : castInteger n.repr = n := by
  have hlist : n.repr.toList = Nat.toDigits 10 n := Nat.toList_repr
  have hdigit : ∀ c ∈ Nat.toDigits 10 n, c.isDigit = true := fun c hc =>
    Nat.isDigit_of_mem_toDigits (by decide) (by decide) hc
  obtain ⟨c, cs, hcs⟩ := List.exists_cons_of_ne_nil (Nat.toDigits_ne_nil (n := n) (b := 10))
  have hc : c.isDigit = true := hdigit c (by rw [hcs]; exact List.mem_cons_self)
  have hspace : isSpace c = false := by
    rw [isSpace]
    by_contra hmem
    rw [Bool.not_eq_false, List.contains_iff_mem] at hmem
    fin_cases hmem <;> exact absurd hc (by decide)
  have hdrop : (c :: cs).dropWhile isSpace = c :: cs := by
    rw [List.dropWhile_cons, hspace]
    rfl
  have hsign : ∀ d, c = d → d.isDigit = true := fun d hd => hd ▸ hc
  have htake : (c :: cs).takeWhile Char.isDigit = c :: cs := by
    rw [List.takeWhile_eq_self_iff, ← hcs]
    exact hdigit
  have hvalue : (Text.digitsValue (c :: cs)).getD 0 = n := by
    rw [← hcs, Text.digitsValue_toDigits]
    rfl
  unfold castInteger
  rw [hlist, hcs, hdrop]
  split
  rename_i negative digits hsplit
  split at hsplit
  · rename_i rest heq
    exact absurd (hsign '-' (List.cons.inj heq).1) (by decide)
  · rename_i rest heq
    exact absurd (hsign '+' (List.cons.inj heq).1) (by decide)
  · obtain ⟨rfl, rfl⟩ := Prod.mk.inj hsplit
    rw [htake, hvalue]
    simp only [Bool.false_eq_true, if_false]
    exact min_eq_left (by omega)

/-- `CAST(CAST(value AS INTEGER) + 1 AS TEXT)`; past the last integer the sum
is a float. -/
def bumpGeneration (s : FeedStore pedersen) : FeedStore pedersen :=
  s.metaSet "tail_generation"
    (match s.metas["tail_generation"]? with
      | none => "1"
      | some value =>
          if castInteger value + 1 < 2 ^ 63 then (castInteger value + 1).repr
          else "9.2233720368547758e+18")

def installSnapshot (s : FeedStore pedersen) (slots : List SnapSlot)
    (writes : List (String × String)) : FeedStore pedersen :=
  let filled : FeedStore pedersen :=
    { s with
      storageLog := slots.foldl (fun t x => t.insert (x.k, toI64 x.w) x.v) s.storageLog }
  filled.metaSets writes

def replaceRange (s : FeedStore pedersen) (range : Range) (blocks : List (BlockLine × Bool))
    (writes : List (String × String)) (bump : Bool) : FeedStore pedersen :=
  let cleared : FeedStore pedersen :=
    { s with
      storageLog := s.storageLog.filter fun k _ => !inRange range k.2
      events := s.events.filter fun k _ => !inRange range k.1
      blocks := s.blocks.filter fun n _ => !inRange range n }
  let filled := blocks.foldl (fun s b => s.applyBlockLine b.1 (if b.2 then 1 else 0)) cleared
  let written := filled.metaSets writes
  if bump then written.bumpGeneration else written

def tailGeneration (s : FeedStore pedersen) : Nat :=
  ((s.metas["tail_generation"]?).bind Text.parseU64).getD 0

/-- `DELETE FROM` every table of rows, and the reset keys of `meta`. -/
def resetMirror (s : FeedStore pedersen) : FeedStore pedersen :=
  { new pedersen with metas := s.metas.filter fun key _ => !resetKeys.contains key }

/-- A row of the registry as it is selected. -/
def noteOf (noteId : Felt) (r : NoteRecord) : NoteRow :=
  ⟨noteId, r.owner, r.sender, r.token, toU64 r.idx, r.nullifier, (Text.parseU128 r.amount).getD 0,
    toU64 r.block, r.spent ≠ 0⟩

/-- `ORDER BY token, idx`. -/
def noteLe (a b : Felt × NoteRecord) : Bool :=
  a.2.token.val < b.2.token.val || (a.2.token.val == b.2.token.val && a.2.idx ≤ b.2.idx)

def notes (s : FeedStore pedersen) (owner : Felt) : List NoteRow :=
  ((s.notesRegistry.toList.filter fun e => e.2.owner == owner).mergeSort noteLe).map fun e =>
    noteOf e.1 e.2

/-- `INSERT .. ON CONFLICT(note_id) DO UPDATE SET sender, amount, block`. -/
def upsertNote (s : FeedStore pedersen) (n : NoteRow) : FeedStore pedersen :=
  match s.notesRegistry[n.noteId]? with
  | some r =>
      { s with
        notesRegistry := s.notesRegistry.insert n.noteId
          { r with sender := n.sender, amount := n.amount.repr, block := toI64 n.block } }
  | none =>
      let r : NoteRecord :=
        ⟨n.owner, n.sender, n.token, toI64 n.index, n.nullifier, n.amount.repr, toI64 n.block,
          if n.spent then 1 else 0⟩
      { s with notesRegistry := s.notesRegistry.insert n.noteId r }

def setNoteSpent (s : FeedStore pedersen) (noteId : Felt) (spent : Bool) : FeedStore pedersen :=
  match s.notesRegistry[noteId]? with
  | some r =>
      { s with
        notesRegistry := s.notesRegistry.insert noteId { r with spent := if spent then 1 else 0 } }
  | none => s

def deleteNote (s : FeedStore pedersen) (noteId : Felt) : FeedStore pedersen :=
  { s with notesRegistry := s.notesRegistry.erase noteId }

/-- The number of deleted rows is the statement's change count. -/
def deleteOwnerNotes (s : FeedStore pedersen) (owner : Felt) : Nat × FeedStore pedersen :=
  ((s.notesRegistry.filter fun _ r => r.owner == owner).size,
    { s with notesRegistry := s.notesRegistry.filter fun _ r => r.owner != owner })

instance : ConsumerStore (FeedStore pedersen) where
  metaGet s key := s.metas[key]?
  metaSet := metaSet
  isEmpty := isEmpty
  blockHash := blockHash
  blockHashes := blockHashes
  readSlotAsOf := readSlotAsOf
  fullSlotSetAsOf := fullSlotSetAsOf
  storageRootAt := storageRootAt
  eventRows := eventRows
  installSnapshot := installSnapshot
  replaceRange s range blocks writes bump := .ok (s.replaceRange range blocks writes bump)
  resetMirror := resetMirror
  tailGeneration := tailGeneration
  notes := notes
  upsertNote := upsertNote
  setNoteSpent := setNoteSpent
  deleteNote := deleteNote
  deleteOwnerNotes := deleteOwnerNotes

/-! ## The rows of a `FeedStore` -/

def rows (s : FeedStore pedersen) : Rows where
  blocks n := (s.blocks[(n : Int)]?).map blockRecOf
  slots k n := s.storageLog[(k, (n : Int))]?
  events n i := if i < 2 ^ 64 then (s.events[((n : Int), toI64 i)]?).map eventRecOf else none

/-- No block number has gone through the sign. -/
structure Good (s : FeedStore pedersen) : Prop where
  blocks : ∀ i : Int, s.blocks[i]?.isSome → 0 ≤ i ∧ i < 2 ^ 63
  events : ∀ i j : Int, s.events[(i, j)]?.isSome → 0 ≤ i ∧ i < 2 ^ 63
  storage : ∀ (k : Felt) (i : Int), s.storageLog[(k, i)]?.isSome → 0 ≤ i ∧ i < 2 ^ 63

theorem good_new : Good (new pedersen) := by
  refine ⟨fun n h => ?_, fun n i h => ?_, fun k n h => ?_⟩ <;> simp [new] at h

/-- One row written. -/
def put (s : FeedStore pedersen) : Row → FeedStore pedersen
  | .block n rec =>
      let row : BlockRow :=
        ⟨rec.hash, rec.parent, toI64 rec.timestamp, if rec.l1Final then 1 else 0⟩
      { s with blocks := s.blocks.insert (toI64 n) row }
  | .slot k n v => { s with storageLog := s.storageLog.insert (k, toI64 n) v }
  | .event n i rec =>
      let row : EventRow := ⟨toI64 rec.txIndex, rec.txHash, rec.keys, rec.data⟩
      { s with events := s.events.insert (toI64 n, toI64 i) row }

/-- A row whose numbers survive the casts. -/
def FitsRow : Row → Prop
  | .block n rec => n < 2 ^ 63 ∧ rec.timestamp < 2 ^ 64
  | .slot _ n _ => n < 2 ^ 63
  | .event n i rec => n < 2 ^ 63 ∧ i < 2 ^ 64 ∧ rec.txIndex < 2 ^ 64

theorem blockRecOf_row (rec : BlockRec) (h : rec.timestamp < 2 ^ 64) :
    blockRecOf ⟨rec.hash, rec.parent, toI64 rec.timestamp, if rec.l1Final then 1 else 0⟩ = rec := by
  cases rec with
  | mk hash parent timestamp fin => cases fin <;> simp [blockRecOf, toU64_toI64 h]

theorem eventRecOf_row (rec : EventRec) (h : rec.txIndex < 2 ^ 64) :
    eventRecOf ⟨toI64 rec.txIndex, rec.txHash, rec.keys, rec.data⟩ = rec := by
  simp [eventRecOf, toU64_toI64 h]

theorem rows_put (s : FeedStore pedersen) {r : Row} (h : FitsRow r) :
    (s.put r).rows = s.rows.put r := by
  cases r with
  | block n rec =>
      refine Rows.ext (fun m => ?_) (fun _ _ => rfl) fun _ _ => rfl
      simp only [put, rows, Rows.put, getElem?_insert_eq, toI64_of_lt h.1, Nat.cast_inj]
      split
      · rw [Option.map_some, blockRecOf_row rec h.2]
      · rfl
  | slot k n v =>
      refine Rows.ext (fun _ => rfl) (fun k' m => ?_) fun _ _ => rfl
      simp only [put, rows, Rows.put, getElem?_insert_eq, toI64_of_lt h, Prod.mk.injEq,
        Nat.cast_inj]
  | event n i rec =>
      refine Rows.ext (fun _ => rfl) (fun _ _ => rfl) fun m j => ?_
      simp only [put, rows, Rows.put, getElem?_insert_eq, toI64_of_lt h.1, Prod.mk.injEq,
        Nat.cast_inj]
      by_cases hj : j < 2 ^ 64
      · simp only [if_pos hj, toI64_inj hj h.2.1]
        split
        · rw [Option.map_some, eventRecOf_row rec h.2.2]
        · rfl
      · have hne : ¬ (m = n ∧ j = i) := fun he => hj (he.2 ▸ h.2.1)
        rw [if_neg hj, if_neg hne, if_neg hj]

theorem good_put {s : FeedStore pedersen} {r : Row} (h : s.Good) (hr : FitsRow r) :
    (s.put r).Good := by
  have hcast : ∀ {n : Nat}, n < 2 ^ 63 → (0 : Int) ≤ n ∧ (n : Int) < 2 ^ 63 := fun hn => by omega
  cases r with
  | block n rec =>
      refine ⟨fun i hi => ?_, h.events, h.storage⟩
      simp only [put, getElem?_insert_eq, toI64_of_lt hr.1] at hi
      split at hi
      · rename_i heq
        exact heq ▸ hcast hr.1
      · exact h.blocks i hi
  | slot k n v =>
      refine ⟨h.blocks, h.events, fun k' i hi => ?_⟩
      simp only [put, getElem?_insert_eq, toI64_of_lt hr] at hi
      split at hi
      · rename_i heq
        exact (Prod.mk.inj heq).2 ▸ hcast hr
      · exact h.storage k' i hi
  | event n j rec =>
      refine ⟨h.blocks, fun i j' hi => ?_, h.storage⟩
      simp only [put, getElem?_insert_eq, toI64_of_lt hr.1] at hi
      split at hi
      · rename_i heq
        exact (Prod.mk.inj heq).1 ▸ hcast hr.1
      · exact h.events i j' hi

theorem foldl_put : ∀ {l : List Row} {s : FeedStore pedersen}, s.Good → (∀ r ∈ l, FitsRow r) →
    (l.foldl put s).rows = s.rows.putAll l ∧ (l.foldl put s).Good
  | [], s, h, _ => ⟨rfl, h⟩
  | r :: l, s, h, hl => by
      obtain ⟨hr, hl⟩ := List.forall_mem_cons.mp hl
      obtain ⟨hrows, hgood⟩ := foldl_put (good_put h hr) hl
      exact ⟨by rw [List.foldl_cons, hrows, rows_put s hr]; rfl, hgood⟩

theorem foldl_put_slots (n : Nat) : ∀ (diffs : List (Felt × Felt)) (s : FeedStore pedersen),
    (diffs.map fun d => Row.slot d.1 n d.2).foldl put s =
      { s with
        storageLog := diffs.foldl (fun t d => t.insert (d.1, toI64 n) d.2) s.storageLog }
  | [], s => rfl
  | d :: diffs, s => by
      rw [List.map_cons, List.foldl_cons, foldl_put_slots n diffs, put]
      rfl

theorem foldl_put_events (n : Nat) : ∀ (events : List EventLine) (s : FeedStore pedersen),
    (events.map fun e => Row.event n e.eventIndex (eventRec e)).foldl put s =
      { s with
        events := events.foldl (fun t e => t.insert (toI64 n, toI64 e.eventIndex)
          ⟨toI64 e.txIndex, e.txHash, e.keys, e.data⟩) s.events }
  | [], s => rfl
  | e :: events, s => by
      rw [List.map_cons, List.foldl_cons, foldl_put_events n events, put]
      rfl

theorem applyBlockLine_eq (s : FeedStore pedersen) (b : BlockLine) (fin : Bool) :
    s.applyBlockLine b (if fin then 1 else 0) = (Row.ofBlock b fin).foldl put s := by
  rw [Row.ofBlock, List.foldl_cons, List.foldl_append, foldl_put_slots, foldl_put_events]
  rfl

theorem foldl_applyBlockLine (blocks : List (BlockLine × Bool)) (s : FeedStore pedersen) :
    blocks.foldl (fun s b => s.applyBlockLine b.1 (if b.2 then 1 else 0)) s =
      (Row.ofBlocks blocks).foldl put s := by
  simp only [applyBlockLine_eq, Row.ofBlocks, List.foldl_flatMap]

theorem fitsRow_of_mem_ofBlock {b : BlockLine} {fin : Bool} (hn : b.number < 2 ^ 63)
    (hb : b.Bounded) : ∀ r ∈ Row.ofBlock b fin, FitsRow r := by
  intro r hr
  rw [Row.ofBlock, List.mem_cons, List.mem_append, List.mem_map, List.mem_map] at hr
  rcases hr with rfl | ⟨d, -, rfl⟩ | ⟨e, he, rfl⟩
  · exact ⟨hn, hb.timestamp⟩
  · exact hn
  · exact ⟨hn, (hb.events e he).2, (hb.events e he).1⟩

/-! ## The laws -/

def FitsRange : Range → Prop
  | .inclusive first last => first < 2 ^ 63 ∧ last < 2 ^ 63
  | .above floor => floor < 2 ^ 63

theorem inRange_natCast {r : Range} (hr : FitsRange r) (n : Nat) :
    inRange r n = r.contains n := by
  cases r with
  | inclusive first last =>
      simp only [inRange, Range.contains, toI64_of_lt hr.1, toI64_of_lt hr.2, Nat.cast_le]
  | above floor =>
      simp only [FitsRange] at hr
      simp only [inRange, Range.contains, toI64_of_lt hr, Nat.cast_lt]

/-- The store after the deletes of `replace_range`. -/
def clear (s : FeedStore pedersen) (range : Range) : FeedStore pedersen :=
  { s with
    storageLog := s.storageLog.filter fun k _ => !inRange range k.2
    events := s.events.filter fun k _ => !inRange range k.1
    blocks := s.blocks.filter fun n _ => !inRange range n }

theorem clear_spec {s : FeedStore pedersen} {r : Range} (h : s.Good) (hr : FitsRange r) :
    (s.clear r).rows = s.rows.clear r ∧ (s.clear r).Good := by
  have hblocks : ∀ i : Int, (s.clear r).blocks[i]? = if inRange r i then none else s.blocks[i]? := by
    intro i
    rw [clear, getElem?_filter_key _ fun n : Int => !inRange r n]
    cases inRange r i <;> rfl
  have hevents : ∀ i j : Int, (s.clear r).events[(i, j)]? =
      if inRange r i then none else s.events[(i, j)]? := by
    intro i j
    rw [clear, getElem?_filter_key _ fun k : Int × Int => !inRange r k.1]
    cases inRange r i <;> rfl
  have hstorage : ∀ (k : Felt) (i : Int), (s.clear r).storageLog[(k, i)]? =
      if inRange r i then none else s.storageLog[(k, i)]? := by
    intro k i
    rw [clear, getElem?_filter_key _ fun k : Felt × Int => !inRange r k.2]
    cases inRange r i <;> rfl
  have hkeep : ∀ {β : Type} {row : Option β} {b : Bool},
      (if b then none else row).isSome → row.isSome := by
    intro β row b hb
    cases b
    · exact hb
    · cases hb
  refine ⟨Rows.ext (fun n => ?_) (fun k n => ?_) fun n i => ?_, fun i hi => ?_, fun i j hi => ?_,
    fun k i hi => ?_⟩
  · simp only [rows, Rows.clear, hblocks, inRange_natCast hr]
    cases r.contains n <;> rfl
  · simp only [rows, Rows.clear, hstorage, inRange_natCast hr]
  · simp only [rows, Rows.clear, hevents, inRange_natCast hr]
    cases r.contains n <;> simp
  · exact h.blocks i (hkeep (hblocks i ▸ hi))
  · exact h.events i j (hkeep (hevents i j ▸ hi))
  · exact h.storage k i (hkeep (hstorage k i ▸ hi))

theorem rows_metaSet (s : FeedStore pedersen) (k v : String) : (s.metaSet k v).rows = s.rows := rfl

theorem good_metaSet {s : FeedStore pedersen} (h : s.Good) (k v : String) : (s.metaSet k v).Good :=
  ⟨h.blocks, h.events, h.storage⟩

theorem metas_metaSets (key : String) : ∀ (writes : List (String × String))
    (s : FeedStore pedersen), (s.metaSets writes).metas[key]? = metaAfter writes key s.metas[key]?
  | [], _ => rfl
  | w :: writes, s => by
      have ih := metas_metaSets key writes (s.metaSet w.1 w.2)
      rw [metaSets] at ih ⊢
      rw [List.foldl_cons, ih, metaSet, getElem?_insert_eq]
      rfl

theorem metaSets_spec : ∀ (writes : List (String × String)) {s : FeedStore pedersen}, s.Good →
    (s.metaSets writes).rows = s.rows ∧ (s.metaSets writes).Good
  | [], _, h => ⟨rfl, h⟩
  | w :: writes, s, h => by
      obtain ⟨hrows, hgood⟩ := metaSets_spec writes (good_metaSet h w.1 w.2)
      exact ⟨hrows.trans (rows_metaSet s w.1 w.2), hgood⟩

theorem metas_foldl_put : ∀ (l : List Row) (s : FeedStore pedersen),
    (l.foldl put s).metas = s.metas
  | [], _ => rfl
  | r :: l, s => by
      rw [List.foldl_cons, metas_foldl_put l]
      cases r <;> rfl

theorem isEmpty_iff {s : FeedStore pedersen} (h : s.Good) : s.isEmpty = true ↔
    s.metas["last_epoch_applied"]? = none ∧ (∀ n, s.rows.blocks n = none) ∧
      ∀ k n, s.rows.slots k n = none := by
  have hblocks : s.blocks.isEmpty = true ↔ ∀ n, s.rows.blocks n = none := by
    rw [isEmpty_iff_getElem?]
    refine ⟨fun hb n => by simp only [rows, hb, Option.map_none], fun hb i => ?_⟩
    by_contra hne
    have hi := (h.blocks i (Option.isSome_iff_ne_none.mpr hne)).1
    have := hb i.toNat
    simp only [rows, Int.toNat_of_nonneg hi, Option.map_eq_none_iff] at this
    exact hne this
  have hstorage : s.storageLog.isEmpty = true ↔ ∀ k n, s.rows.slots k n = none := by
    rw [isEmpty_iff_getElem?]
    refine ⟨fun hb k n => hb (k, (n : Int)), fun hb p => ?_⟩
    by_contra hne
    have hi := (h.storage p.1 p.2 (Option.isSome_iff_ne_none.mpr hne)).1
    have := hb p.1 p.2.toNat
    simp only [rows, Int.toNat_of_nonneg hi] at this
    exact hne this
  rw [isEmpty]
  cases hm : s.metas["last_epoch_applied"]? with
  | some v => simp
  | none =>
      simp only [Option.isSome_none, Bool.false_eq_true, if_false, beq_iff_eq, true_and,
        Nat.add_eq_zero_iff, ← hblocks, ← hstorage, ExtTreeMap.isEmpty_eq_size_beq_zero]

theorem isEmpty_meta {s : FeedStore pedersen} (h : s.isEmpty = true) :
    s.metas["last_epoch_applied"]? = none := by
  rw [isEmpty] at h
  split at h
  · cases h
  · rename_i hc
    exact Option.not_isSome_iff_eq_none.mp hc

theorem isEmpty_metaSet (s : FeedStore pedersen) {k : String} (v : String)
    (hk : k ≠ "last_epoch_applied") : (s.metaSet k v).isEmpty = s.isEmpty := by
  rw [isEmpty, isEmpty, metaSet, getElem?_insert_eq, if_neg hk.symm]

theorem readSlotAsOf_eq {s : FeedStore pedersen} (k : Felt) {bound : Nat} (h : s.Good)
    (hb : bound < 2 ^ 63) : s.readSlotAsOf k bound = s.rows.readSlot k bound := by
  rw [readSlotAsOf, toI64_of_lt hb]
  cases hasOf : asOf s.storageLog k (bound : Int) with
  | none =>
      rw [asOf_eq_none_iff] at hasOf
      exact (latest_eq_of_none fun m hm => hasOf m (by omega)).symm
  | some e =>
      obtain ⟨v, i⟩ := e
      obtain ⟨hn, hv, hmax⟩ := asOf_eq_some_iff.mp hasOf
      obtain ⟨hi, hi'⟩ := h.storage k i (by rw [hv]; rfl)
      obtain ⟨n, rfl⟩ := Int.eq_ofNat_of_zero_le hi
      have hmod : toU64 (n : Int) = n := by
        rw [← toI64_of_lt (by omega : n < 2 ^ 63)]
        exact toU64_toI64 (by omega)
      have hlatest : latest (s.rows.slots k) bound = (v, n) :=
        latest_eq_of_max hv (by omega) fun m hm hsome => by
          have := hmax m (by omega) hsome
          omega
      simp only [hmod, Rows.readSlot, hlatest]

theorem mem_fullSlotSetAsOf (s : FeedStore pedersen) (bound : Nat) (k v : Felt) :
    (k, v) ∈ s.fullSlotSetAsOf bound ↔ v ≠ 0 ∧ (s.readSlotAsOf k bound).1 = v := by
  simp only [fullSlotSetAsOf, List.mem_filter, List.mem_map, mem_latestRows, decide_eq_true_eq,
    readSlotAsOf]
  constructor
  · rintro ⟨⟨e, he, heq⟩, hne⟩
    obtain ⟨rfl, rfl⟩ := Prod.mk.inj heq
    rw [he]
    exact ⟨hne, rfl⟩
  · rintro ⟨hne, hread⟩
    refine ⟨?_, hne⟩
    cases hasOf : asOf s.storageLog k (toI64 bound) with
    | none =>
        rw [hasOf] at hread
        exact absurd hread.symm hne
    | some e =>
        rw [hasOf] at hread
        obtain rfl : e.1 = v := hread
        exact ⟨((k, e.2), e.1), hasOf, rfl⟩

theorem mem_blockHashes {s : FeedStore pedersen} {r : Range} {l : List (Nat × Felt)} (h : s.Good)
    (hr : FitsRange r) (hl : s.blockHashes r = .ok l) (n : Nat) (f : Felt) :
    (n, f) ∈ l ↔ r.contains n = true ∧ (s.rows.blocks n).map (·.hash) = some f := by
  have hnat : ∀ {i : Int} {row : BlockRow}, s.blocks[i]? = some row → ((toU64 i : Nat) : Int) = i := by
    intro i row hrow
    obtain ⟨hi, hi'⟩ := h.blocks i (by rw [hrow]; rfl)
    rw [toU64]
    omega
  obtain rfl := Except.ok.inj hl
  simp only [List.mem_map, List.mem_filter, Prod.mk.injEq]
  constructor
  · rintro ⟨e, ⟨he, hb⟩, rfl, rfl⟩
    have hget := ExtTreeMap.mem_toList_iff_getElem?_eq_some.mp he
    have hcast := hnat hget
    refine ⟨?_, ?_⟩
    · rw [← inRange_natCast hr, hcast]
      exact hb
    · simp only [rows, hcast, hget]
      rfl
  · rintro ⟨hc, hm⟩
    obtain ⟨rec, hrec, rfl⟩ := Option.map_eq_some_iff.mp hm
    obtain ⟨row, hrow, rfl⟩ := Option.map_eq_some_iff.mp hrec
    refine ⟨((n : Int), row), ⟨ExtTreeMap.mem_toList_iff_getElem?_eq_some.mpr hrow, ?_⟩, ?_, rfl⟩
    · rw [inRange_natCast hr]
      exact hc
    · exact Int.ofNat_inj.mp (hnat hrow)

theorem installSnapshot_eq (s : FeedStore pedersen) (slots : List SnapSlot)
    (writes : List (String × String)) :
    s.installSnapshot slots writes = ((Row.ofSlots slots).foldl put s).metaSets writes := by
  have hfold : ∀ (slots : List SnapSlot) (s : FeedStore pedersen),
      (Row.ofSlots slots).foldl put s =
        { s with
          storageLog := slots.foldl (fun t x => t.insert (x.k, toI64 x.w) x.v) s.storageLog } := by
    intro slots
    induction slots with
    | nil => exact fun s => rfl
    | cons x slots ih =>
        intro s
        rw [Row.ofSlots, List.map_cons, List.foldl_cons, ← Row.ofSlots, ih, put]
        rfl
  rw [hfold]
  rfl

theorem replaceRange_spec {s : FeedStore pedersen} {r : Range} {blocks : List (BlockLine × Bool)}
    {writes : List (String × String)} {bump : Bool} (h : s.Good) (hr : FitsRange r)
    (hb : ∀ b ∈ blocks, b.1.number < 2 ^ 63 ∧ b.1.Bounded) :
    (s.replaceRange r blocks writes bump).rows = s.rows.replace r blocks ∧
      (s.replaceRange r blocks writes bump).Good := by
  have hfits : ∀ row ∈ Row.ofBlocks blocks, FitsRow row := by
    intro row hrow
    obtain ⟨b, hmem, hrow⟩ := Row.mem_ofBlocks.mp hrow
    exact fitsRow_of_mem_ofBlock (hb b hmem).1 (hb b hmem).2 row hrow
  obtain ⟨hcrows, hcgood⟩ := clear_spec h hr
  obtain ⟨hfrows, hfgood⟩ := foldl_put hcgood hfits
  obtain ⟨hwrows, hwgood⟩ := metaSets_spec writes hfgood
  rw [← foldl_applyBlockLine] at hfrows hfgood hwrows hwgood
  have hrows := hwrows.trans (hfrows.trans (congrArg (·.putAll (Row.ofBlocks blocks)) hcrows))
  cases bump with
  | false => exact ⟨hrows, hwgood⟩
  | true => exact ⟨hrows, good_metaSet hwgood _ _⟩

theorem metas_replaceRange {s : FeedStore pedersen} {r : Range} {blocks : List (BlockLine × Bool)}
    {writes : List (String × String)} {bump : Bool} {key : String}
    (hkey : key ≠ "tail_generation") :
    (s.replaceRange r blocks writes bump).metas[key]? = metaAfter writes key s.metas[key]? := by
  have hwritten : ((blocks.foldl (fun s b => s.applyBlockLine b.1 (if b.2 then 1 else 0))
      (s.clear r)).metaSets writes).metas[key]? = metaAfter writes key s.metas[key]? := by
    rw [metas_metaSets, foldl_applyBlockLine, metas_foldl_put]
    rfl
  cases bump with
  | false => exact hwritten
  | true =>
      refine Eq.trans ?_ hwritten
      simp only [replaceRange, if_true, bumpGeneration, metaSet]
      rw [getElem?_insert_eq, if_neg hkey]
      rfl

/-- What the counter is set to by a bump. -/
def nextGeneration : Option String → String
  | none => "1"
  | some value =>
      if castInteger value + 1 < 2 ^ 63 then (castInteger value + 1).repr
      else "9.2233720368547758e+18"

theorem generation_replaceRange {s : FeedStore pedersen} {r : Range} {blocks : List (BlockLine × Bool)}
    {writes : List (String × String)} {bump : Bool} :
    (s.replaceRange r blocks writes bump).metas["tail_generation"]? =
      if bump then
        some (nextGeneration (metaAfter writes "tail_generation" s.metas["tail_generation"]?))
      else metaAfter writes "tail_generation" s.metas["tail_generation"]? := by
  have hwritten : ((blocks.foldl (fun s b => s.applyBlockLine b.1 (if b.2 then 1 else 0))
      (s.clear r)).metaSets writes).metas["tail_generation"]? =
      metaAfter writes "tail_generation" s.metas["tail_generation"]? := by
    rw [metas_metaSets, foldl_applyBlockLine, metas_foldl_put]
    rfl
  cases bump with
  | false => exact hwritten
  | true =>
      rw [← hwritten]
      simp only [replaceRange, if_true, bumpGeneration, metaSet, getElem?_insert_eq]
      rfl

instance : LawfulStore (FeedStore pedersen) where
  rows := rows
  Good := Good
  Fits n := n < 2 ^ 63
  FitsRange := FitsRange
  metaGet_metaSet s k v key := getElem?_insert_eq s.metas k key v
  rows_metaSet := rows_metaSet
  good_metaSet _ k v h := good_metaSet h k v
  isEmpty_meta _ h := isEmpty_meta h
  isEmpty_metaSet s _ v hk := isEmpty_metaSet s v hk
  isEmpty_iff _ h := isEmpty_iff h
  blockHash_eq s n hn := by
    show (s.blocks[toI64 n]?).map (·.hash) = _
    rw [toI64_of_lt hn]
    simp [rows, Option.map_map, Function.comp_def, blockRecOf]
  mem_blockHashes := mem_blockHashes
  readSlotAsOf_eq k _ h hb := readSlotAsOf_eq k h hb
  mem_fullSlotSetAsOf := mem_fullSlotSetAsOf
  blockHashes_ok _ _ _ := ⟨_, rfl⟩
  rows_installSnapshot {s slots writes} h hw := by
    have hfits : ∀ r ∈ Row.ofSlots slots, FitsRow r := by
      intro r hr
      obtain ⟨x, hx, rfl⟩ := List.mem_map.mp hr
      exact hw x hx
    obtain ⟨hrows, hgood⟩ := foldl_put h hfits
    obtain ⟨hrows', hgood'⟩ := metaSets_spec writes hgood
    rw [← installSnapshot_eq] at hrows' hgood'
    exact ⟨hrows'.trans hrows, hgood'⟩
  metaGet_installSnapshot s slots writes key := by
    show (s.installSnapshot slots writes).metas[key]? = _
    rw [installSnapshot_eq, metas_metaSets, metas_foldl_put]
    rfl
  rows_replaceRange h hr hb hs := by
    obtain rfl := Except.ok.inj hs
    exact replaceRange_spec h hr hb
  metaGet_replaceRange hkey hs := by
    obtain rfl := Except.ok.inj hs
    exact metas_replaceRange hkey
  replaceRange_ok _ _ _ _ _ _ := ⟨_, rfl⟩

theorem fresh_new (pedersen : Felt → Felt → Felt) : Fresh (new pedersen) where
  good := good_new
  metas key := by simp [metaGet, new]
  rows := by ext1 <;> simp [LawfulStore.rows, FeedStore.rows, new, Rows.empty]

end FeedStore

end Strk20.Consumer
