import Strk20.Foundation.Displace
import Strk20.Indexer.Cutter

/-!
# Rolling back and ingesting again (`db.rs`)

What is left of orphaned blocks once `rollback_above` has taken them away and
canonical blocks were stored in their place. The three tables that hang together
by foreign keys are read as one partial function, from a number to the block row
with all that refers to it; storing a block puts an entry there, a rollback cuts
entries away. `class_history` stands apart: it has no foreign key, so a rollback
leaves it as it is.
-/

namespace Strk20.Indexer

open Feed Feed.Codec Versioned Tables Displace
open Consumer (toI64 toU64)
open Std (ExtTreeMap)

/-- One call of `insert_block_data`. The events are those of the block. -/
structure BlockInsert where
  block : BlockRow
  diffs : List (Felt × Felt)
  events : List EventRow
  replacedClass : Option Felt
  newFrontier : Nat
  own : ∀ e ∈ events, e.block = block.number

/-- A block row with the rows that refer to it. -/
structure BlockEntry where
  row : BlockRec
  slots : Felt → Option Felt
  events : Int → Option EventRec

namespace BlockInsert

variable (b : BlockInsert)

/-- Number of the block as SQLite keeps it. -/
def key : Int := toI64 b.block.number

def row : BlockRec :=
  ⟨b.block.hash, b.block.parentHash, toI64 b.block.timestamp, if b.block.l1Accepted then 1 else 0⟩

/-- Rows of `events`, by event index. -/
def eventRecs : List (Int × EventRec) :=
  b.events.map fun e => (toI64 e.eventIndex, ⟨toI64 e.txIndex, e.txHash, e.keys, e.data⟩)

def classRow : Option (Int × Felt) := b.replacedClass.map fun cls => (b.key, cls)

end BlockInsert

def BlockInsert.entry (b : BlockInsert) : BlockEntry :=
  ⟨b.row, lastUnder b.diffs, lastUnder b.eventRecs⟩

namespace Database

/-- The entry under a number. -/
def entry (d : Database) (n : Int) : Option BlockEntry :=
  (d.blocks[n]?).map fun r =>
    ⟨r, fun slot => d.storageLog[(slot, n)]?, d.eventRec n⟩

/-- The foreign keys hold. -/
structure Linked (d : Database) : Prop where
  storage : ∀ (slot : Felt) (n : Int), (d.storageLog[(slot, n)]?).isSome → (d.blocks[n]?).isSome
  events : ∀ n i : Int, (d.eventRec n i).isSome → (d.blocks[n]?).isSome

/-- The four tables that published bytes are made of agree. -/
structure SameRows (d d' : Database) : Prop where
  blocks : d.blocks = d'.blocks
  storageLog : d.storageLog = d'.storageLog
  events : d.events = d'.events
  classHistory : d.classHistory = d'.classHistory

/-- Rows that no modelled operation of this module writes agree: published epochs
and the metas that the head is made of. -/
structure SameHead (d d' : Database) : Prop where
  epochs : d.epochs = d'.epochs
  metas : ∀ key, key ≠ "storage_revision" → key ≠ "anchor_probe_frontier" →
    d.metaGet key = d'.metaGet key

/-- Blocks stored one after the other. -/
def insertBlocks (d : Database) (bs : List BlockInsert) : Except Failure Database :=
  bs.foldlM (fun d b => d.insertBlockData b.block b.diffs b.events b.replacedClass b.newFrontier) d

/-! ## Storing a block -/

/-- Everything but the revision in the metas. -/
structure SameBut (d d' : Database) : Prop where
  blocks : d'.blocks = d.blocks
  storageLog : d'.storageLog = d.storageLog
  events : d'.events = d.events
  classHistory : d'.classHistory = d.classHistory
  epochs : d'.epochs = d.epochs
  ingestCursor : d'.ingestCursor = d.ingestCursor
  seenHeads : d'.seenHeads = d.seenHeads
  metas : ∀ key, key ≠ "storage_revision" → d'.metaGet key = d.metaGet key

theorem sameBut_fire (d : Database) : SameBut d d.fire where
  blocks := rfl
  storageLog := rfl
  events := rfl
  classHistory := rfl
  epochs := rfl
  ingestCursor := rfl
  seenHeads := rfl
  metas := by
    intro key hkey
    unfold fire metaSet metaGet
    rw [getElem?_insert_eq, if_neg hkey]

theorem sameBut_iterate_fire (n : Nat) (d : Database) : SameBut d (Nat.iterate fire n d) := by
  induction n generalizing d with
  | zero => exact ⟨rfl, rfl, rfl, rfl, rfl, rfl, rfl, fun _ _ => rfl⟩
  | succ n ih =>
      have hfirst := sameBut_fire d
      have hrest := ih d.fire
      exact
        { blocks := hrest.blocks.trans hfirst.blocks
          storageLog := hrest.storageLog.trans hfirst.storageLog
          events := hrest.events.trans hfirst.events
          classHistory := hrest.classHistory.trans hfirst.classHistory
          epochs := hrest.epochs.trans hfirst.epochs
          ingestCursor := hrest.ingestCursor.trans hfirst.ingestCursor
          seenHeads := hrest.seenHeads.trans hfirst.seenHeads
          metas := fun key hkey => (hrest.metas key hkey).trans (hfirst.metas key hkey) }

theorem sameBut_deleteBlocks (d : Database) (p : Int → BlockRec → Bool) :
    SameBut (d.clearBlocks p) (d.deleteBlocks p) :=
  sameBut_iterate_fire _ _

theorem getElem?_clearBlocks (d : Database) (p : Int → BlockRec → Bool) (n : Int) :
    (d.clearBlocks p).blocks[n]? = (d.blocks[n]?).filter fun r => !p n r := by
  show (d.blocks.filter fun n b => !p n b)[n]? = _
  rw [ExtTreeMap.getElem?_filter']

/-- A deletion takes whole entries away. -/
theorem entry_clearBlocks (d : Database) (p : Int → BlockRec → Bool) (n : Int) :
    (d.clearBlocks p).entry n = (d.entry n).filter fun e => !p n e.row := by
  unfold entry
  rw [getElem?_clearBlocks]
  cases hn : d.blocks[n]? with
  | none => rfl
  | some r =>
      cases hp : p n r with
      | true => simp [Option.filter, hp]
      | false =>
          -- the block stays, so no row under its number is selected
          have hsel : d.selects p n = false := by
            unfold selects
            rw [hn]
            exact hp
          have hslot : ∀ slot : Felt, (d.clearBlocks p).storageLog[(slot, n)]? = d.storageLog[(slot, n)]? := by
            intro slot
            show (d.storageLog.filter fun k _ => !d.selects p k.2)[(slot, n)]? = _
            rw [getElem?_filter_key d.storageLog fun k => !d.selects p k.2]
            simp [hsel]
          have hevent : ∀ i, (d.clearBlocks p).eventRec n i = d.eventRec n i := by
            intro i
            show (d.events.filter fun k _ => !d.selects p k.1)[(n, i)]? = d.events[(n, i)]?
            rw [getElem?_filter_key d.events fun k => !d.selects p k.1]
            simp [hsel]
          simp [Option.filter, hp, hslot, funext hevent]

theorem isSome_clearBlocks {d : Database} {p : Int → BlockRec → Bool} {n : Int}
    (hblock : (d.blocks[n]?).isSome) (hsel : d.selects p n = false) :
    ((d.clearBlocks p).blocks[n]?).isSome := by
  rw [getElem?_clearBlocks]
  obtain ⟨r, hr⟩ := Option.isSome_iff_exists.mp hblock
  unfold selects at hsel
  rw [hr] at hsel ⊢
  simp [hsel]

theorem linked_clearBlocks {d : Database} (hd : d.Linked) (p : Int → BlockRec → Bool) :
    (d.clearBlocks p).Linked where
  storage := by
    intro slot n hrow
    have hrow' : ((d.storageLog.filter fun k _ => !d.selects p k.2)[(slot, n)]?).isSome := hrow
    rw [getElem?_filter_key d.storageLog fun k => !d.selects p k.2] at hrow'
    cases hsel : d.selects p n with
    | true => simp [hsel] at hrow'
    | false =>
        rw [hsel, Bool.not_false, if_pos rfl] at hrow'
        exact isSome_clearBlocks (hd.storage slot n hrow') hsel
  events := by
    intro n i hrow
    have hrow' : ((d.events.filter fun k _ => !d.selects p k.1)[(n, i)]?).isSome := hrow
    rw [getElem?_filter_key d.events fun k => !d.selects p k.1] at hrow'
    cases hsel : d.selects p n with
    | true => simp [hsel] at hrow'
    | false =>
        rw [hsel, Bool.not_false, if_pos rfl] at hrow'
        exact isSome_clearBlocks (hd.events n i hrow') hsel

/-- Rows that a block's own replace. -/
def replaces (b : BlockInsert) (n : Int) (r : BlockRec) : Bool :=
  n == toI64 b.block.number || r.hash == b.block.hash

/-- What storing a block makes of the tables, without the metas. -/
structure Stored (d : Database) (b : BlockInsert) (d' : Database) : Prop where
  blocks : d'.blocks = (d.clearBlocks (replaces b)).blocks.insert b.key b.row
  storageLog : d'.storageLog =
    insertAll (d.clearBlocks (replaces b)).storageLog (b.diffs.map fun w => ((w.1, b.key), w.2))
  events : d'.events =
    insertAll (d.clearBlocks (replaces b)).events (b.eventRecs.map fun e => ((b.key, e.1), e.2))
  classHistory : d'.classHistory = insertAll d.classHistory b.classRow.toList
  head : SameHead d' d

theorem sameBut_insertDiffs (block : Nat) (diffs : List (Felt × Felt)) (d : Database) :
    SameBut { d with storageLog := insertAll d.storageLog (diffs.map fun w => ((w.1, toI64 block), w.2)) }
      (diffs.foldl (insertDiff block) d) := by
  induction diffs generalizing d with
  | nil => exact ⟨rfl, rfl, rfl, rfl, rfl, rfl, rfl, fun _ _ => rfl⟩
  | cons w diffs ih =>
      have hfirst := sameBut_fire { d with storageLog := d.storageLog.insert (w.1, toI64 block) w.2 }
      have hrest := ih (insertDiff block d w)
      exact
        { blocks := hrest.blocks.trans hfirst.blocks
          storageLog := hrest.storageLog
          events := hrest.events.trans hfirst.events
          classHistory := hrest.classHistory.trans hfirst.classHistory
          epochs := hrest.epochs.trans hfirst.epochs
          ingestCursor := hrest.ingestCursor.trans hfirst.ingestCursor
          seenHeads := hrest.seenHeads.trans hfirst.seenHeads
          metas := fun key hkey => (hrest.metas key hkey).trans (hfirst.metas key hkey) }

/-- Events of a stored block all go in. -/
theorem insertEvents_ok {block : Nat} {events : List EventRow} {d : Database}
    (hown : ∀ e ∈ events, e.block = block) (hblock : d.blocks.contains (toI64 block) = true) :
    events.foldlM insertEvent d = .ok { d with
      events := insertAll d.events (events.map fun e =>
        ((toI64 block, toI64 e.eventIndex), ⟨toI64 e.txIndex, e.txHash, e.keys, e.data⟩)) } := by
  induction events generalizing d with
  | nil => rfl
  | cons e events ih =>
      have he : e.block = block := hown e List.mem_cons_self
      have hstep : insertEvent d e = .ok { d with
          events := d.events.insert (toI64 block, toI64 e.eventIndex)
            ⟨toI64 e.txIndex, e.txHash, e.keys, e.data⟩ } := by
        unfold insertEvent
        rw [he, if_pos hblock]
      rw [List.foldlM_cons, hstep]
      exact ih (fun e' he' => hown e' (List.mem_cons_of_mem e he')) hblock

theorem insertClass_eq (d : Database) (block : Nat) (cls : Option Felt) :
    d.insertClass block cls = { d with
      classHistory := insertAll d.classHistory (cls.map fun c => (toI64 block, c)).toList } := by
  cases cls with
  | none => rfl
  | some c => simp [insertClass, insertAll]

theorem insertBlockData_stored (d : Database) (b : BlockInsert) :
    ∃ d', d.insertBlockData b.block b.diffs b.events b.replacedClass b.newFrontier = .ok d' ∧
      Stored d b d' := by
  have hclear := sameBut_deleteBlocks d (replaces b)
  have hdiffs := sameBut_insertDiffs b.block.number b.diffs (d.insertBlock b.block)
  have hblock : (b.diffs.foldl (insertDiff b.block.number) (d.insertBlock b.block)).blocks =
      (d.clearBlocks (replaces b)).blocks.insert b.key b.row := by
    rw [hdiffs.blocks]
    show (d.deleteBlocks (replaces b)).blocks.insert b.key b.row = _
    rw [hclear.blocks]
  have hcontains : (b.diffs.foldl (insertDiff b.block.number)
      (d.insertBlock b.block)).blocks.contains (toI64 b.block.number) = true := by
    rw [hblock, contains_eq_isSome]
    show (((d.clearBlocks (replaces b)).blocks.insert b.key b.row)[b.key]?).isSome = true
    rw [getElem?_insert_eq, if_pos rfl]
    rfl
  unfold insertBlockData
  simp only [insertEvents_ok b.own hcontains, insertClass_eq]
  refine ⟨_, rfl, ?_⟩
  exact
    { blocks := hblock
      storageLog := hdiffs.storageLog.trans (by
        show insertAll (d.deleteBlocks (replaces b)).storageLog _ = _
        rw [hclear.storageLog]
        rfl)
      events := by
        show insertAll (b.diffs.foldl (insertDiff b.block.number) (d.insertBlock b.block)).events _ = _
        rw [hdiffs.events]
        show insertAll (d.deleteBlocks (replaces b)).events _ = _
        rw [hclear.events]
        simp only [BlockInsert.eventRecs, BlockInsert.key, List.map_map, Function.comp_def]
      classHistory := by
        have hbase : (b.diffs.foldl (insertDiff b.block.number) (d.insertBlock b.block)).classHistory =
            d.classHistory := hdiffs.classHistory.trans hclear.classHistory
        simp only [advanceCursor, BlockInsert.classRow, BlockInsert.key, hbase]
      head :=
        { epochs := hdiffs.epochs.trans hclear.epochs
          metas := fun key hkey _ => (hdiffs.metas key hkey).trans (hclear.metas key hkey) } }

/-! ## Entries -/

namespace Stored

variable {d d' : Database} {b : BlockInsert}

theorem getElem?_key (h : Stored d b d') : d'.blocks[b.key]? = some b.row := by
  rw [h.blocks, getElem?_insert_eq, if_pos rfl]

theorem getElem?_of_ne (h : Stored d b d') {n : Int} (hn : n ≠ b.key) :
    d'.blocks[n]? = (d.clearBlocks (replaces b)).blocks[n]? := by
  rw [h.blocks, getElem?_insert_eq, if_neg hn]

theorem slot_eq (h : Stored d b d') (slot : Felt) (n : Int) :
    d'.storageLog[(slot, n)]? =
      if n = b.key then (lastUnder b.diffs slot).or (d.clearBlocks (replaces b)).storageLog[(slot, n)]?
      else (d.clearBlocks (replaces b)).storageLog[(slot, n)]? := by
  rw [h.storageLog, getElem?_insertAll]
  by_cases hn : n = b.key
  · rw [if_pos hn, hn, lastUnder_map (f := fun s : Felt => (s, b.key)) fun _ _ heq =>
      congrArg Prod.fst heq]
  · rw [if_neg hn, lastUnder_eq_none_iff.mpr, Option.none_or]
    simp only [List.map_map, List.mem_map, Function.comp_apply, Prod.mk.injEq, not_exists, not_and]
    exact fun _ _ _ heq => hn heq.symm

theorem event_eq (h : Stored d b d') (n i : Int) :
    d'.eventRec n i =
      if n = b.key then (lastUnder b.eventRecs i).or ((d.clearBlocks (replaces b)).eventRec n i)
      else (d.clearBlocks (replaces b)).eventRec n i := by
  unfold eventRec
  rw [h.events, getElem?_insertAll]
  by_cases hn : n = b.key
  · rw [if_pos hn, hn, lastUnder_map (f := fun i : Int => (b.key, i)) fun _ _ heq =>
      congrArg Prod.snd heq]
  · rw [if_neg hn, lastUnder_eq_none_iff.mpr, Option.none_or]
    simp only [List.map_map, List.mem_map, Function.comp_apply, Prod.mk.injEq, not_exists, not_and]
    exact fun _ _ heq => absurd heq.symm hn

/-- Nothing is left under the number of a block that is about to be stored. -/
theorem cleared_key (d : Database) (b : BlockInsert) :
    (d.clearBlocks (replaces b)).blocks[b.key]? = none := by
  rw [getElem?_clearBlocks]
  cases d.blocks[b.key]? with
  | none => rfl
  | some r => simp [Option.filter, replaces, BlockInsert.key]

theorem linked (h : Stored d b d') (hd : d.Linked) : d'.Linked where
  storage := by
    intro slot n hrow
    by_cases hn : n = b.key
    · rw [hn, h.getElem?_key]
      rfl
    · rw [h.slot_eq, if_neg hn] at hrow
      rw [h.getElem?_of_ne hn]
      exact (linked_clearBlocks hd _).storage slot n hrow
  events := by
    intro n i hrow
    by_cases hn : n = b.key
    · rw [hn, h.getElem?_key]
      rfl
    · rw [h.event_eq, if_neg hn] at hrow
      rw [h.getElem?_of_ne hn]
      exact (linked_clearBlocks hd _).events n i hrow

/-- To store a block is to put its entry. -/
theorem entry (h : Stored d b d') (hd : d.Linked) :
    d'.entry = put (fun e => e.row.hash) d.entry (b.key, b.entry) := by
  have hclear := linked_clearBlocks hd (replaces b)
  funext n
  unfold put
  by_cases hn : n = b.key
  · rw [if_pos hn, hn]
    have hslots : (fun slot => d'.storageLog[(slot, b.key)]?) = lastUnder b.diffs := by
      funext slot
      have hnone : (d.clearBlocks (replaces b)).storageLog[(slot, b.key)]? = none := by
        rw [← Option.not_isSome_iff_eq_none]
        intro hrow
        have hblock := hclear.storage slot b.key hrow
        rw [cleared_key] at hblock
        cases hblock
      rw [h.slot_eq, if_pos rfl, hnone, Option.or_none]
    have hevents : d'.eventRec b.key = lastUnder b.eventRecs := by
      funext i
      have hnone : (d.clearBlocks (replaces b)).eventRec b.key i = none := by
        rw [← Option.not_isSome_iff_eq_none]
        intro hrow
        have hblock := hclear.events b.key i hrow
        rw [cleared_key] at hblock
        cases hblock
      rw [h.event_eq, if_pos rfl, hnone, Option.or_none]
    unfold Database.entry BlockInsert.entry
    rw [h.getElem?_key, Option.map_some, hslots, hevents]
  · rw [if_neg hn]
    have hsame : d'.entry n = (d.clearBlocks (replaces b)).entry n := by
      unfold Database.entry
      simp only [h.getElem?_of_ne hn, h.slot_eq, if_neg hn,
        funext fun i => (h.event_eq n i).trans (if_neg hn)]
    rw [hsame, entry_clearBlocks]
    refine congrFun (congrArg Option.filter (funext fun e => ?_)) _
    have hne : (n == toI64 b.block.number) = false := beq_false_of_ne hn
    rw [replaces, hne, Bool.false_or]
    show (!e.row.hash == b.block.hash) = decide (e.row.hash ≠ b.block.hash)
    rw [decide_not, beq_eq_decide]

end Stored

/-- A storage row is part of the entry of its block. -/
theorem slot_of_entry {d : Database} (hd : d.Linked) (slot : Felt) (n : Int) :
    d.storageLog[(slot, n)]? = (d.entry n).bind fun e => e.slots slot := by
  unfold entry
  cases hn : d.blocks[n]? with
  | some r => rfl
  | none =>
      rw [Option.map_none, Option.bind_none, ← Option.not_isSome_iff_eq_none]
      intro hrow
      have hblock := hd.storage slot n hrow
      rw [hn] at hblock
      cases hblock

theorem event_of_entry {d : Database} (hd : d.Linked) (n i : Int) :
    d.eventRec n i = (d.entry n).bind fun e => e.events i := by
  unfold entry
  cases hn : d.blocks[n]? with
  | some r => rfl
  | none =>
      rw [Option.map_none, Option.bind_none, ← Option.not_isSome_iff_eq_none]
      intro hrow
      have hblock := hd.events n i hrow
      rw [hn] at hblock
      cases hblock

theorem block_of_entry (d : Database) (n : Int) : d.blocks[n]? = (d.entry n).map BlockEntry.row := by
  unfold entry
  rw [Option.map_map]
  exact Option.map_id'.symm

/-- The three linked tables agree exactly if their entries do. -/
theorem entry_eq_iff {d d' : Database} (hd : d.Linked) (hd' : d'.Linked) :
    d.entry = d'.entry ↔
      d.blocks = d'.blocks ∧ d.storageLog = d'.storageLog ∧ d.events = d'.events := by
  constructor
  · intro h
    refine ⟨ExtTreeMap.ext_getElem? fun n => ?_, ExtTreeMap.ext_getElem? ?_,
      ExtTreeMap.ext_getElem? ?_⟩
    · rw [block_of_entry, block_of_entry, h]
    · rintro ⟨slot, n⟩
      rw [slot_of_entry hd, slot_of_entry hd', h]
    · rintro ⟨n, i⟩
      show d.eventRec n i = d'.eventRec n i
      rw [event_of_entry hd, event_of_entry hd', h]
  · rintro ⟨hblocks, hstorage, hevents⟩
    funext n
    unfold entry eventRec
    rw [hblocks, hstorage, hevents]

/-! ## Runs -/

/-- Rows of `class_history` that a list of blocks writes. -/
def classRows (bs : List BlockInsert) : List (Int × Felt) := bs.filterMap BlockInsert.classRow

/-- What storing a list of blocks makes of the tables. -/
structure StoredAll (d : Database) (bs : List BlockInsert) (d' : Database) : Prop where
  linked : d'.Linked
  entry : d'.entry = putAll (fun e => e.row.hash) d.entry (bs.map fun b => (b.key, b.entry))
  classHistory : d'.classHistory = insertAll d.classHistory (classRows bs)
  head : SameHead d' d

theorem insertBlocks_stored {d : Database} (hd : d.Linked) (bs : List BlockInsert) :
    ∃ d', d.insertBlocks bs = .ok d' ∧ StoredAll d bs d' := by
  induction bs generalizing d with
  | nil => exact ⟨d, rfl, hd, rfl, rfl, rfl, fun _ _ _ => rfl⟩
  | cons b bs ih =>
      obtain ⟨d₁, hstep, hstored⟩ := insertBlockData_stored d b
      obtain ⟨d', hrest, hall⟩ := ih (hstored.linked hd)
      refine ⟨d', ?_, hall.linked, ?_, ?_, hall.head.epochs.trans hstored.head.epochs, ?_⟩
      · unfold insertBlocks at hrest ⊢
        rw [List.foldlM_cons, hstep]
        exact hrest
      · rw [hall.entry, hstored.entry hd]
        rfl
      · rw [hall.classHistory, hstored.classHistory]
        unfold classRows insertAll
        rw [← List.foldl_append]
        cases hrow : b.classRow with
        | none => rw [List.filterMap_cons_none hrow]; rfl
        | some row => rw [List.filterMap_cons_some hrow]; rfl
      · intro key hrev hprobe
        exact (hall.head.metas key hrev hprobe).trans (hstored.head.metas key hrev hprobe)

/-- Numbers that a rollback keeps. -/
def keeps (ancestor : Nat) (n : Int) : Bool := decide (n ≤ toI64 ancestor)

/-- A rollback cuts entries away and leaves the class history as it is. -/
structure RolledBack (d : Database) (ancestor : Nat) (d' : Database) : Prop where
  linked : d'.Linked
  entry : d'.entry = cut (keeps ancestor) d.entry
  classHistory : d'.classHistory = d.classHistory
  head : SameHead d' d

theorem rollbackAbove_rolledBack {d : Database} (hd : d.Linked) (ancestor : Nat) :
    RolledBack d ancestor (d.rollbackAbove ancestor) := by
  have hdelete := sameBut_deleteBlocks (d.tombstone ancestor) fun n _ => toI64 ancestor < n
  have htomb : (d.tombstone ancestor).Linked := ⟨hd.storage, hd.events⟩
  have hclear := linked_clearBlocks htomb fun n _ => toI64 ancestor < n
  have hlinked : (d.rollbackAbove ancestor).Linked := by
    constructor
    · intro slot n hrow
      show ((((d.tombstone ancestor).deleteBlocks _).blocks)[n]?).isSome
      rw [hdelete.blocks]
      refine hclear.storage slot n ?_
      rw [← hdelete.storageLog]
      exact hrow
    · intro n i hrow
      show ((((d.tombstone ancestor).deleteBlocks _).blocks)[n]?).isSome
      rw [hdelete.blocks]
      refine hclear.events n i ?_
      unfold eventRec
      rw [← hdelete.events]
      exact hrow
  refine ⟨hlinked, ?_, hdelete.classHistory, hdelete.epochs, ?_⟩
  · have hentry : (d.rollbackAbove ancestor).entry =
        ((d.tombstone ancestor).clearBlocks fun n _ => toI64 ancestor < n).entry :=
      (entry_eq_iff hlinked hclear).mpr ⟨hdelete.blocks, hdelete.storageLog, hdelete.events⟩
    funext n
    rw [hentry, entry_clearBlocks]
    show ((d.entry n).filter fun _ => !decide (toI64 ancestor < n)) = _
    unfold cut keeps
    by_cases hn : n ≤ toI64 ancestor
    · rw [if_pos (decide_eq_true hn), decide_eq_false (not_lt.mpr hn)]
      cases d.entry n <;> rfl
    · rw [if_neg (by simpa using hn), decide_eq_true (not_le.mp hn)]
      cases d.entry n <;> rfl
  · intro key hrev hprobe
    show ((((d.tombstone ancestor).deleteBlocks _).metas).erase "anchor_probe_frontier")[key]? = _
    rw [getElem?_erase_eq, if_neg hprobe]
    exact hdelete.metas key hrev

/-! ## Published bytes -/

/-- Lines of a file are made of the four tables. -/
theorem SameRows.blocksAsLines {d d' : Database} (h : SameRows d d') (first last : Nat)
    (finalityUpto : Option Nat) :
    d.blocksAsLines first last finalityUpto = d'.blocksAsLines first last finalityUpto := by
  unfold Database.blocksAsLines blocksInRange
  rw [h.blocks]
  refine List.map_congr_left fun b _ => ?_
  unfold blockLineOf diffsOfBlock eventsOfBlock replacedClassOfBlock
  rw [h.storageLog, h.events, h.classHistory]

theorem SameRows.classAsOf {d d' : Database} (h : SameRows d d') (block : Nat) :
    d.classAsOf block = d'.classAsOf block := by
  unfold Database.classAsOf
  rw [h.classHistory]

theorem SameRows.buildEpoch {d d' : Database} (h : SameRows d d') (cfg : ChainConfig) (idx : Nat)
    (prev : Option Key) : buildEpoch cfg d idx prev = buildEpoch cfg d' idx prev := by
  unfold Indexer.buildEpoch
  simp only [h.blocksAsLines, h.classAsOf]

theorem SameHead.buildHead {d d' : Database} (h : SameHead d d') (hrows : SameRows d d')
    (cfg : ChainConfig) (P : FeltParser) : buildHead cfg d P = buildHead cfg d' P := by
  have hnumber := h.metas "head_number" (by decide) (by decide)
  have hhash := h.metas "head_hash" (by decide) (by decide)
  have hl1 := h.metas "l1_accepted_number" (by decide) (by decide)
  unfold Indexer.buildHead tailFrom lastEpoch metaU64
  simp only [hnumber, hhash, hl1, h.epochs, hrows.blocksAsLines, hrows.classAsOf]

/-- Two databases of which the same is published: tables, epochs and head. -/
structure SamePublished (d d' : Database) : Prop where
  rows : SameRows d d'
  epochs : ∀ cfg idx prev,
    encodeEpoch (Indexer.buildEpoch cfg d idx prev) = encodeEpoch (Indexer.buildEpoch cfg d' idx prev)
  head : ∀ cfg P,
    (Indexer.buildHead cfg d P).map encodeHead = (Indexer.buildHead cfg d' P).map encodeHead

/-- Storing the orphans, rolling back to the ancestor and storing the canonical
blocks publishes the same as storing the canonical blocks alone. -/
def ForgetsOrphans (d : Database) (ancestor : Nat) (orphans canonical : List BlockInsert) : Prop :=
  ∃ seen again only, d.insertBlocks orphans = .ok seen ∧
    (seen.rollbackAbove ancestor).insertBlocks canonical = .ok again ∧
      d.insertBlocks canonical = .ok only ∧ SamePublished again only

/-- Nothing the orphans touched outlives the rollback. A block of the database that
no canonical one replaces is not above the ancestor, where the rollback deletes it, and
has no orphan's hash, by which the orphan replaced it. The class an orphan has set is
set again by a canonical block of the same number, or was on record before. -/
structure NoTrace (d : Database) (ancestor : Nat) (orphans canonical : List BlockInsert) : Prop where
  blocks : ∀ (n : Int) (r : BlockRec), d.blocks[n]? = some r →
    (∀ c ∈ canonical, c.key ≠ n ∧ c.block.hash ≠ r.hash) →
      n ≤ toI64 ancestor ∧ ∀ o ∈ orphans, o.block.hash ≠ r.hash
  classes : ∀ (n : Int) (cls : Felt), lastUnder (classRows orphans) n = some cls →
    lastUnder (classRows canonical) n = none → d.classHistory[n]? = some cls

theorem not_displaced_iff {bs : List BlockInsert} {n : Int} {e : BlockEntry} :
    ¬ Displaced (fun e : BlockEntry => e.row.hash) (bs.map fun b => (b.key, b.entry)) n e ↔
      ∀ b ∈ bs, b.key ≠ n ∧ b.block.hash ≠ e.row.hash := by
  unfold Displaced
  simp only [List.mem_map, exists_exists_and_eq_and, not_exists, not_and, not_or, BlockInsert.entry,
    BlockInsert.row, ne_eq]

section

variable {d seen back again only : Database} {ancestor : Nat} {orphans canonical : List BlockInsert}

/-- The linked tables, as one table of entries. -/
theorem again_entry_iff (hseen : StoredAll d orphans seen) (hback : RolledBack seen ancestor back)
    (hagain : StoredAll back canonical again) (honly : StoredAll d canonical only)
    (habove : ∀ o ∈ orphans, toI64 ancestor < toI64 o.block.number) :
    again.entry = only.entry ↔
      ∀ (n : Int) (r : BlockRec), d.blocks[n]? = some r →
        (∀ c ∈ canonical, c.key ≠ n ∧ c.block.hash ≠ r.hash) →
          n ≤ toI64 ancestor ∧ ∀ o ∈ orphans, o.block.hash ≠ r.hash := by
  have hkeys : ∀ x ∈ orphans.map (fun b => (b.key, b.entry)), keeps ancestor x.1 = false := by
    intro x hx
    obtain ⟨o, ho, rfl⟩ := List.mem_map.mp hx
    have hkey : toI64 ancestor < o.key := habove o ho
    dsimp only [keeps]
    rw [decide_eq_false_iff_not, Int.not_le]
    exact hkey
  rw [hagain.entry, hback.entry, hseen.entry, honly.entry, putAll_cut_putAll_iff hkeys]
  constructor
  · intro h n r hr hfree
    have hentry : d.entry n = some ⟨r, fun slot => d.storageLog[(slot, n)]?, d.eventRec n⟩ := by
      unfold entry
      rw [hr]
      rfl
    obtain ⟨hkeep, htags⟩ := h n _ hentry (not_displaced_iff.mpr hfree)
    exact ⟨of_decide_eq_true hkeep, fun o ho => htags (o.key, o.entry) (List.mem_map_of_mem ho)⟩
  · intro h n e he hfree
    have hr : d.blocks[n]? = some e.row := by
      rw [block_of_entry, he]
      rfl
    obtain ⟨hkeep, htags⟩ := h n e.row hr (not_displaced_iff.mp hfree)
    refine ⟨decide_eq_true hkeep, fun x hx => ?_⟩
    obtain ⟨o, ho, rfl⟩ := List.mem_map.mp hx
    exact htags o ho

/-- No rollback touches the class history. -/
theorem again_classHistory_iff (hseen : StoredAll d orphans seen)
    (hback : RolledBack seen ancestor back) (hagain : StoredAll back canonical again)
    (honly : StoredAll d canonical only) :
    again.classHistory = only.classHistory ↔
      ∀ (n : Int) (cls : Felt), lastUnder (classRows orphans) n = some cls →
        lastUnder (classRows canonical) n = none → d.classHistory[n]? = some cls := by
  rw [hagain.classHistory, hback.classHistory, hseen.classHistory, honly.classHistory,
    insertAll_insertAll_eq_iff]

theorem again_head (hseen : StoredAll d orphans seen) (hback : RolledBack seen ancestor back)
    (hagain : StoredAll back canonical again) (honly : StoredAll d canonical only) :
    SameHead again only := by
  refine ⟨?_, fun key hrev hprobe => ?_⟩
  · rw [hagain.head.epochs, hback.head.epochs, hseen.head.epochs, honly.head.epochs]
  · rw [hagain.head.metas key hrev hprobe, hback.head.metas key hrev hprobe,
      hseen.head.metas key hrev hprobe, honly.head.metas key hrev hprobe]

end

/-- The two runs of the comparison, with what each has made of the tables. -/
theorem forgetsOrphans_runs {d : Database} (hd : d.Linked) (ancestor : Nat)
    (orphans canonical : List BlockInsert) :
    ∃ seen again only, StoredAll d orphans seen ∧
      RolledBack seen ancestor (seen.rollbackAbove ancestor) ∧
      StoredAll (seen.rollbackAbove ancestor) canonical again ∧ StoredAll d canonical only ∧
        (d.ForgetsOrphans ancestor orphans canonical ↔ SamePublished again only) := by
  obtain ⟨seen, hseen, hall⟩ := insertBlocks_stored hd orphans
  have hback := rollbackAbove_rolledBack hall.linked ancestor
  obtain ⟨again, hagain, hall'⟩ := insertBlocks_stored hback.linked canonical
  obtain ⟨only, honly, hall''⟩ := insertBlocks_stored hd canonical
  refine ⟨seen, again, only, hall, hback, hall', hall'', ?_, ?_⟩
  · rintro ⟨seen', again', only', hs, ha, ho, hsame⟩
    rw [hseen] at hs
    cases hs
    rw [hagain] at ha
    cases ha
    rw [honly] at ho
    cases ho
    exact hsame
  · intro hsame
    exact ⟨seen, again, only, hseen, hagain, honly, hsame⟩

/-- **Orphans are forgotten exactly when they leave no trace.** Rows of blocks,
storage and events follow the rollback; the class history does not. -/
theorem forgetsOrphans_iff {d : Database} (hd : d.Linked) (ancestor : Nat)
    (orphans canonical : List BlockInsert)
    (habove : ∀ o ∈ orphans, toI64 ancestor < toI64 o.block.number) :
    d.ForgetsOrphans ancestor orphans canonical ↔ d.NoTrace ancestor orphans canonical := by
  obtain ⟨seen, again, only, hseen, hback, hagain, honly, hiff⟩ :=
    forgetsOrphans_runs hd ancestor orphans canonical
  have hentries := entry_eq_iff hagain.linked honly.linked
  have hlinked := again_entry_iff hseen hback hagain honly habove
  have hclasses := again_classHistory_iff hseen hback hagain honly
  rw [hiff]
  constructor
  · intro hsame
    have hrows := hsame.rows
    exact ⟨hlinked.mp (hentries.mpr ⟨hrows.blocks, hrows.storageLog, hrows.events⟩),
      hclasses.mp hrows.classHistory⟩
  · rintro ⟨hblocks, hcls⟩
    obtain ⟨hb, hst, hev⟩ := hentries.mp (hlinked.mpr hblocks)
    have hrows : SameRows again only := ⟨hb, hst, hev, hclasses.mpr hcls⟩
    refine ⟨hrows, fun cfg idx prev => ?_, fun cfg P => ?_⟩
    · rw [hrows.buildEpoch]
    · rw [(again_head hseen hback hagain honly).buildHead hrows]

theorem new_linked : Database.new.Linked := by
  constructor
  · intro slot n hrow
    simp [Database.new] at hrow
  · intro n i hrow
    simp [Database.new, eventRec] at hrow

theorem own_nil (block : Nat) : ∀ e ∈ ([] : List EventRow), e.block = block := by
  intro e he
  cases he

/-- Block 1 with a hash and a class change, if any, and nothing else. -/
def bareBlock (hash : Felt) (cls : Option Felt) : BlockInsert :=
  ⟨⟨1, hash, 0, 0, false⟩, [], [], cls, 1, own_nil 1⟩

theorem bareBlock_above (hash : Felt) (cls : Option Felt) :
    ∀ o ∈ [bareBlock hash cls], toI64 0 < toI64 o.block.number := by
  intro o ho
  rw [List.mem_singleton.mp ho]
  show toI64 0 < toI64 1
  decide

/-- An orphan at block 1 that replaced the pool's class: the class history keeps the row. -/
theorem forgetsOrphans_class : Database.new.Linked ∧
    (∀ o ∈ [bareBlock 1 (some 7)], toI64 0 < toI64 o.block.number) ∧
      ¬ Database.new.ForgetsOrphans 0 [bareBlock 1 (some 7)] [bareBlock 2 none] := by
  refine ⟨new_linked, bareBlock_above _ _, fun hforgets => ?_⟩
  obtain ⟨seen, again, only, hseen, hback, hagain, honly, hiff⟩ :=
    forgetsOrphans_runs new_linked 0 [bareBlock 1 (some 7)] [bareBlock 2 none]
  have hclasses := (again_classHistory_iff hseen hback hagain honly).mp
    (hiff.mp hforgets).rows.classHistory
  have hrow := hclasses 1 7 (by decide) (by decide)
  simp [Database.new] at hrow

theorem own_single {block : Nat} (e : EventRow) (h : e.block = block) :
    ∀ x ∈ [e], x.block = block := by
  intro x hx
  rw [List.mem_singleton.mp hx, h]

/-- A block that writes a slot, logs an event and sets the class to 7. -/
def busyBlock (number : Nat) (hash value : Felt) : BlockInsert :=
  ⟨⟨number, hash, 0, 0, false⟩, [(10, value)], [⟨number, 0, 0, hash, [value], []⟩], some 7, 1,
    own_single _ rfl⟩

/-- A database of one block holds that block's row only. -/
theorem blocks_of_single {d : Database} {b : BlockInsert} (h : StoredAll new [b] d) {n : Int}
    {r : BlockRec} (hr : d.blocks[n]? = some r) : n = b.key ∧ r = b.row := by
  have hentry : (d.entry n).map (·.row) = some r := by
    rw [entry, hr]
    rfl
  have hput : d.entry n = put (fun e => e.row.hash) new.entry (b.key, b.entry) n := by
    rw [h.entry]
    rfl
  have hnone : new.entry n = none := by simp [entry, new]
  simp only [hput, put, hnone, Option.filter_none] at hentry
  generalize b.key = k at hentry ⊢
  split at hentry
  · rename_i hkey
    have hrow : b.row = r := Option.some.inj hentry
    exact ⟨hkey, hrow.symm⟩
  · cases hentry

/-- Over a stored block 0, an orphan of block 1 is forgotten with its slot and its
event; the canonical block repeats its class change. -/
theorem forgetsOrphans_iff_repeated : ∃ d, Database.new.insertBlocks [busyBlock 0 4 3] = .ok d ∧
    d.ForgetsOrphans 0 [busyBlock 1 1 5] [busyBlock 1 2 6] := by
  obtain ⟨d, hd, hall⟩ := insertBlocks_stored new_linked [busyBlock 0 4 3]
  have habove : ∀ o ∈ [busyBlock 1 1 5], toI64 0 < toI64 o.block.number := by
    intro o ho
    rw [List.mem_singleton.mp ho]
    change toI64 0 < toI64 1
    decide
  refine ⟨d, hd, (forgetsOrphans_iff hall.linked 0 _ _ habove).mpr ?_⟩
  constructor
  · intro n r hr _
    obtain ⟨rfl, rfl⟩ := blocks_of_single hall hr
    refine ⟨le_refl (toI64 0), fun o ho => ?_⟩
    rw [List.mem_singleton.mp ho]
    change (1 : Felt) ≠ 4
    decide
  · intro n cls horphan hcanonical
    have hsame : classRows [busyBlock 1 1 5] = classRows [busyBlock 1 2 6] := rfl
    rw [hsame, hcanonical] at horphan
    cases horphan

end Database

end Strk20.Indexer
