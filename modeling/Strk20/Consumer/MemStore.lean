import Strk20.Foundation.Versioned
import Strk20.Feed.TrieCache
import Strk20.Consumer.Rows

/-!
# The in-memory store (`mem.rs`)

Ordered maps, with the storage map keyed by slot and write block.
`BTreeMap::range` looks at its bounds only in a map that has a root: there a
start above the end panics, without a root the answer is empty. A map gets its
root with the first row and keeps it when the last one is removed; `clear`, and
a copy or a collection of no rows, have none. The two maps asked for ranges of
the caller's carry that as a flag.
-/

namespace Strk20.Consumer

open Feed Trie Versioned Tables
open Std (ExtTreeMap)

/-- `MemStore` over one Pedersen hash, the one its trie was built with. -/
structure MemStore (pedersen : Felt → Felt → Felt) where
  trie : CachedTrie
  trieValid : CachedTrie.Valid pedersen trie
  metas : ExtTreeMap String String
  blocks : ExtTreeMap Nat BlockRec
  blocksRoot : Bool
  /-- Slot and write block to value. -/
  storage : Table Key Nat Felt
  /-- Highest write block any storage row ever carried. -/
  storageMaxBlock : Nat
  /-- Block and event index to event. -/
  events : Table Nat Nat EventRec
  eventsRoot : Bool
  notes : ExtTreeMap Key NoteRow

namespace MemStore

variable {pedersen : Felt → Felt → Felt}

def new (pedersen : Felt → Felt → Felt) : MemStore pedersen :=
  ⟨CachedTrie.default, CachedTrie.valid_default pedersen, ∅, ∅, false, ∅, 0, ∅, false, ∅⟩

/-- An independent copy of the state; a copy of a map without rows has no root. -/
def fork (s : MemStore pedersen) : MemStore pedersen :=
  { s with blocksRoot := !s.blocks.isEmpty, eventsRoot := !s.events.isEmpty }

def U64_MAX : Nat := 2 ^ 64 - 1

/-- A range as a pair of inclusive bounds; `saturating_add`. -/
def bounds : Range → Nat × Nat
  | .inclusive first last => (first, last)
  | .above floor => (min (floor + 1) U64_MAX, U64_MAX)

def readSlotAsOf (s : MemStore pedersen) (slot : Felt) (bound : Nat) : Felt × Nat :=
  (asOf s.storage (toBytesBe slot) bound).getD (0, 0)

/-- The slots of the storage map, each once. -/
def slots (s : MemStore pedersen) : List Key := keysOf s.storage

def fullSlotSetAsOf (s : MemStore pedersen) (block : Nat) : List (Felt × Felt) :=
  s.slots.filterMap fun sk =>
    let slot := fromBytesBe sk
    let value := (s.readSlotAsOf slot block).1
    if value ≠ 0 then some (slot, value) else none

def storageRootAt (s : MemStore pedersen) (block : Nat) : Except Failure Felt × MemStore pedersen :=
  let entries := s.fullSlotSetAsOf block
  let updated := s.trie.update pedersen entries
  (liftFeed updated.1,
    { s with trie := updated.2, trieValid := CachedTrie.valid_update s.trieValid entries })

def isEmpty (s : MemStore pedersen) : Bool :=
  if s.metas.contains "last_epoch_applied" then false
  else s.blocks.isEmpty && s.storage.isEmpty

/-- The blocks of a range, ascending. -/
def blocksIn (s : MemStore pedersen) (lo hi : Nat) : List (Nat × BlockRec) :=
  s.blocks.toList.filter fun e => lo ≤ e.1 ∧ e.1 ≤ hi

def blockHashes (s : MemStore pedersen) (range : Range) : Except Failure (List (Nat × Felt)) :=
  let (lo, hi) := bounds range
  if hi < lo ∧ s.blocksRoot then .error .panicked
  else .ok ((s.blocksIn lo hi).map fun e => (e.1, e.2.hash))

def eventRows (s : MemStore pedersen) (first last : Nat) :
    Except Failure (List EmittedEvent) :=
  if last < first ∧ s.eventsRoot then .error .panicked
  else
    .ok ((s.events.toList.filter fun e => first ≤ e.1.1 ∧ e.1.1 ≤ last).filterMap fun e =>
      match s.blocks[e.1.1]? with
      | some b => some (emitted e.1.1 e.1.2 b.hash e.2)
      | none => none)

def clearRange (s : MemStore pedersen) (range : Range) : Except Failure (MemStore pedersen) :=
  let (lo, hi) := bounds range
  if hi < lo ∧ (s.blocksRoot || s.eventsRoot) then .error .panicked
  else
    .ok { s with
      blocks := s.blocks.filter fun n _ => !(decide (lo ≤ n ∧ n ≤ hi))
      events := s.events.filter fun k _ => !(decide (lo ≤ k.1 ∧ k.1 ≤ hi))
      storage :=
        -- only when a row in range can exist
        if lo ≤ s.storageMaxBlock then s.storage.filter fun k _ => !range.contains k.2
        else s.storage }

def applyBlockLine (s : MemStore pedersen) (b : BlockLine) (l1Final : Bool) : MemStore pedersen :=
  { s with
    blocks := s.blocks.insert b.number (blockRec b l1Final)
    blocksRoot := true
    storage := b.diffs.foldl (fun t d => t.insert (toBytesBe d.1, b.number) d.2) s.storage
    storageMaxBlock :=
      if b.diffs.isEmpty then s.storageMaxBlock else max s.storageMaxBlock b.number
    events := b.events.foldl (fun t e => t.insert (b.number, e.eventIndex) (eventRec e)) s.events
    eventsRoot := s.eventsRoot || !b.events.isEmpty }

def metaSet (s : MemStore pedersen) (key value : String) : MemStore pedersen :=
  { s with metas := s.metas.insert key value }

def metaSets (s : MemStore pedersen) (writes : List (String × String)) : MemStore pedersen :=
  writes.foldl (fun s w => s.metaSet w.1 w.2) s

def tailGeneration (s : MemStore pedersen) : Nat :=
  ((s.metas["tail_generation"]?).bind Text.parseU64).getD 0

def bumpGeneration (s : MemStore pedersen) : MemStore pedersen :=
  s.metaSet "tail_generation" ((s.tailGeneration + 1) % 2 ^ 64).repr

def insertSlot (s : MemStore pedersen) (x : SnapSlot) : MemStore pedersen :=
  { s with
    storage := s.storage.insert (toBytesBe x.k, x.w) x.v
    storageMaxBlock := max s.storageMaxBlock x.w }

def installSnapshot (s : MemStore pedersen) (slots : List SnapSlot)
    (writes : List (String × String)) : MemStore pedersen :=
  (slots.foldl insertSlot s).metaSets writes

def replaceRange (s : MemStore pedersen) (range : Range) (blocks : List (BlockLine × Bool))
    (writes : List (String × String)) (bump : Bool) : Except Failure (MemStore pedersen) := do
  let cleared ← s.clearRange range
  let filled := blocks.foldl (fun s b => s.applyBlockLine b.1 b.2) cleared
  let written := filled.metaSets writes
  pure (if bump then written.bumpGeneration else written)

def resetMirror (s : MemStore pedersen) : MemStore pedersen :=
  { new pedersen with metas := resetKeys.foldl (fun t key => t.erase key) s.metas }

/-- Ordered by `(token, index)`, the token as its bytes. -/
def noteLe (a b : NoteRow) : Bool :=
  a.token.val < b.token.val || (a.token.val == b.token.val && a.index ≤ b.index)

def ownerNotes (s : MemStore pedersen) (owner : Felt) : List NoteRow :=
  ((s.notes.toList.map Prod.snd).filter fun n => n.owner == owner).mergeSort noteLe

/-- `spent` is left to `refresh_spent`. -/
def upsertNote (s : MemStore pedersen) (n : NoteRow) : MemStore pedersen :=
  let id := toBytesBe n.noteId
  match s.notes[id]? with
  | some existing =>
      { s with
        notes := s.notes.insert id
          { existing with sender := n.sender, amount := n.amount, block := n.block } }
  | none => { s with notes := s.notes.insert id n }

def setNoteSpent (s : MemStore pedersen) (noteId : Felt) (spent : Bool) : MemStore pedersen :=
  match s.notes[toBytesBe noteId]? with
  | some n => { s with notes := s.notes.insert (toBytesBe noteId) { n with spent := spent } }
  | none => s

def deleteNote (s : MemStore pedersen) (noteId : Felt) : MemStore pedersen :=
  { s with notes := s.notes.erase (toBytesBe noteId) }

def deleteOwnerNotes (s : MemStore pedersen) (owner : Felt) : Nat × MemStore pedersen :=
  let kept := s.notes.filter fun _ n => n.owner != owner
  (s.notes.size - kept.size, { s with notes := kept })

instance : ConsumerStore (MemStore pedersen) where
  metaGet s key := s.metas[key]?
  metaSet := metaSet
  isEmpty := isEmpty
  blockHash s n := (s.blocks[n]?).map (·.hash)
  blockHashes := blockHashes
  readSlotAsOf := readSlotAsOf
  fullSlotSetAsOf := fullSlotSetAsOf
  storageRootAt := storageRootAt
  eventRows := eventRows
  installSnapshot := installSnapshot
  replaceRange := replaceRange
  resetMirror := resetMirror
  tailGeneration := tailGeneration
  notes := ownerNotes
  upsertNote := upsertNote
  setNoteSpent := setNoteSpent
  deleteNote := deleteNote
  deleteOwnerNotes := deleteOwnerNotes

/-! ## The rows of a `MemStore` -/

def rows (s : MemStore pedersen) : Rows where
  blocks n := s.blocks[n]?
  slots k n := s.storage[(toBytesBe k, n)]?
  events n i := s.events[(n, i)]?

/-- Block numbers are `u64`, the storage bound bounds, and slots are felts. -/
structure Good (s : MemStore pedersen) : Prop where
  blocks : ∀ n : Nat, s.blocks[n]?.isSome → n < 2 ^ 64
  events : ∀ n i : Nat, s.events[(n, i)]?.isSome → n < 2 ^ 64
  storage : ∀ (k : Key) (n : Nat), s.storage[(k, n)]?.isSome → n < 2 ^ 64 ∧ n ≤ s.storageMaxBlock
  canonical : ∀ (k : Key) (n : Nat), s.storage[(k, n)]?.isSome → k.val < STARK_PRIME

theorem good_new : Good (new pedersen) := by
  refine ⟨fun n h => ?_, fun n i h => ?_, fun k n h => ?_, fun k n h => ?_⟩ <;> simp [new] at h

/-- One row written; the steps `apply_block_line` and `install_snapshot` are
made of. -/
def put (s : MemStore pedersen) : Row → MemStore pedersen
  | .block n rec => { s with blocks := s.blocks.insert n rec, blocksRoot := true }
  | .slot k n v =>
      { s with
        storage := s.storage.insert (toBytesBe k, n) v
        storageMaxBlock := max s.storageMaxBlock n }
  | .event n i rec => { s with events := s.events.insert (n, i) rec, eventsRoot := true }

theorem rows_put (s : MemStore pedersen) (r : Row) : (s.put r).rows = s.rows.put r := by
  cases r with
  | block n rec => ext1 <;> simp [put, rows, Rows.put, getElem?_insert_eq]
  | slot k n v => ext1 <;> simp [put, rows, Rows.put, getElem?_insert_eq, toBytesBe_inj]
  | event n i rec => ext1 <;> simp [put, rows, Rows.put, getElem?_insert_eq]

/-- Block numbers are `u64`, and the storage bound bounds. -/
structure Bounded (s : MemStore pedersen) : Prop where
  blocks : ∀ n : Nat, s.blocks[n]?.isSome → n < 2 ^ 64
  events : ∀ n i : Nat, s.events[(n, i)]?.isSome → n < 2 ^ 64
  storage : ∀ (k : Key) (n : Nat), s.storage[(k, n)]?.isSome → n < 2 ^ 64 ∧ n ≤ s.storageMaxBlock

theorem Good.bounded {s : MemStore pedersen} (h : s.Good) : s.Bounded :=
  ⟨h.blocks, h.events, h.storage⟩

theorem bounded_put {s : MemStore pedersen} {r : Row} (h : s.Bounded) (hr : r.number < 2 ^ 64) :
    (s.put r).Bounded := by
  cases r with
  | block n rec =>
      refine ⟨fun m hm => ?_, h.events, h.storage⟩
      simp only [put, getElem?_insert_eq] at hm
      split at hm
      · rename_i heq
        exact heq ▸ hr
      · exact h.blocks m hm
  | slot k n v =>
      refine ⟨h.blocks, h.events, fun k' m hm => ?_⟩
      simp only [put, getElem?_insert_eq] at hm
      split at hm
      · rename_i heq
        obtain rfl := (Prod.mk.inj heq).2
        exact ⟨hr, le_max_right _ _⟩
      · have := h.storage k' m hm
        exact ⟨this.1, le_max_of_le_left this.2⟩
  | event n i rec =>
      refine ⟨h.blocks, fun m j hm => ?_, h.storage⟩
      simp only [put, getElem?_insert_eq] at hm
      split at hm
      · rename_i heq
        exact (Prod.mk.inj heq).1 ▸ hr
      · exact h.events m j hm

theorem good_put {s : MemStore pedersen} {r : Row} (h : s.Good) (hr : r.number < 2 ^ 64) :
    (s.put r).Good := by
  have hbounded := bounded_put h.bounded hr
  refine ⟨hbounded.blocks, hbounded.events, hbounded.storage, fun k' m hm => ?_⟩
  cases r with
  | block n rec => exact h.canonical k' m hm
  | slot k n v =>
      simp only [put, getElem?_insert_eq] at hm
      split at hm
      · rename_i heq
        rw [(Prod.mk.inj heq).1]
        exact k.isLt
      · exact h.canonical k' m hm
  | event n i rec => exact h.canonical k' m hm

theorem foldl_put : ∀ {l : List Row} {s : MemStore pedersen}, s.Good →
    (∀ r ∈ l, r.number < 2 ^ 64) →
    (l.foldl put s).rows = s.rows.putAll l ∧ (l.foldl put s).Good
  | [], s, h, _ => ⟨rfl, h⟩
  | r :: l, s, h, hl => by
      obtain ⟨hr, hl⟩ := List.forall_mem_cons.mp hl
      obtain ⟨hrows, hgood⟩ := foldl_put (good_put h hr) hl
      exact ⟨by rw [List.foldl_cons, hrows, rows_put]; rfl, hgood⟩

/-- A fold that writes one component writes it row by row. -/
theorem foldl_put_slots (n : Nat) : ∀ (diffs : List (Felt × Felt)) (s : MemStore pedersen),
    (diffs.map fun d => Row.slot d.1 n d.2).foldl put s =
      { s with
        storage := diffs.foldl (fun t d => t.insert (toBytesBe d.1, n) d.2) s.storage
        storageMaxBlock := if diffs.isEmpty then s.storageMaxBlock else max s.storageMaxBlock n }
  | [], s => rfl
  | d :: diffs, s => by
      rw [List.map_cons, List.foldl_cons, foldl_put_slots n diffs, put]
      cases diffs <;> simp

theorem foldl_put_events (n : Nat) : ∀ (events : List EventLine) (s : MemStore pedersen),
    (events.map fun e => Row.event n e.eventIndex (eventRec e)).foldl put s =
      { s with
        events := events.foldl (fun t e => t.insert (n, e.eventIndex) (eventRec e)) s.events
        eventsRoot := s.eventsRoot || !events.isEmpty }
  | [], s => by simp
  | e :: events, s => by
      rw [List.map_cons, List.foldl_cons, foldl_put_events n events, put]
      simp

theorem applyBlockLine_eq (s : MemStore pedersen) (b : BlockLine) (fin : Bool) :
    s.applyBlockLine b fin = (Row.ofBlock b fin).foldl put s := by
  rw [Row.ofBlock, List.foldl_cons, List.foldl_append, foldl_put_slots, foldl_put_events]
  rfl

theorem foldl_applyBlockLine (blocks : List (BlockLine × Bool)) (s : MemStore pedersen) :
    blocks.foldl (fun s b => s.applyBlockLine b.1 b.2) s = (Row.ofBlocks blocks).foldl put s := by
  simp only [applyBlockLine_eq, Row.ofBlocks, List.foldl_flatMap]

theorem foldl_insertSlot (slots : List SnapSlot) (s : MemStore pedersen) :
    slots.foldl insertSlot s = (Row.ofSlots slots).foldl put s := by
  rw [Row.ofSlots, List.foldl_map]
  rfl

/-! ## The laws -/

/-- The one range a `u64` bound cannot exclude is the one above the last
block. -/
def FitsRange : Range → Prop
  | .inclusive _ _ => True
  | .above floor => floor + 1 < 2 ^ 64

/-- On `u64` blocks the bounds of a range are the range. -/
theorem bounds_iff {r : Range} {n : Nat} (hr : FitsRange r) (hn : n < 2 ^ 64) :
    (bounds r).1 ≤ n ∧ n ≤ (bounds r).2 ↔ r.contains n = true := by
  cases r with
  | inclusive first last => rw [Range.contains_inclusive]; rfl
  | above floor =>
      rw [Range.contains_above]
      simp only [FitsRange] at hr
      simp only [bounds, U64_MAX]
      omega

/-- A table filtered by the bounds loses the rows of the range. -/
theorem filter_bounds {β : Type} {r : Range} {n : Nat} {row : Option β} (hr : FitsRange r)
    (hrow : row.isSome → n < 2 ^ 64) :
    (if !decide ((bounds r).1 ≤ n ∧ n ≤ (bounds r).2) then row else none) =
      if r.contains n then none else row := by
  cases row with
  | none => simp
  | some v =>
      have hiff := bounds_iff (r := r) hr (hrow rfl)
      by_cases hc : r.contains n = true
      · simp [hc, hiff.mpr hc]
      · have hb : ¬ ((bounds r).1 ≤ n ∧ n ≤ (bounds r).2) := fun hb => hc (hiff.mp hb)
        simp [hc, hb]

/-- What `clear_range` leaves of the storage map. -/
theorem storage_clearRange {s : MemStore pedersen} {r : Range} (h : s.Bounded) (hr : FitsRange r)
    (k : Key) (n : Nat) :
    (if (bounds r).1 ≤ s.storageMaxBlock then s.storage.filter fun k _ => !r.contains k.2
      else s.storage)[(k, n)]? = if r.contains n then none else s.storage[(k, n)]? := by
  by_cases hmax : (bounds r).1 ≤ s.storageMaxBlock
  · rw [if_pos hmax, getElem?_filter_key _ fun k : Key × Nat => !r.contains k.2]
    cases r.contains n <;> rfl
  · rw [if_neg hmax]
    by_cases hc : r.contains n = true
    · rw [if_pos hc]
      by_contra hne
      have hrow := h.storage k n (Option.isSome_iff_ne_none.mpr hne)
      have hb := (bounds_iff hr hrow.1).mpr hc
      exact hmax (le_trans hb.1 hrow.2)
    · rw [if_neg hc]

/-- What `clear_range` leaves. -/
structure ClearedTo (r : Range) (s s' : MemStore pedersen) : Prop where
  blocks : ∀ n : Nat, s'.blocks[n]? = if r.contains n then none else s.blocks[n]?
  events : ∀ n i : Nat, s'.events[(n, i)]? = if r.contains n then none else s.events[(n, i)]?
  storage : ∀ (k : Key) (n : Nat),
    s'.storage[(k, n)]? = if r.contains n then none else s.storage[(k, n)]?
  rest : s' = { s with blocks := s'.blocks, events := s'.events, storage := s'.storage }

theorem clearRange_cleared {s s' : MemStore pedersen} {r : Range} (h : s.Bounded)
    (hr : FitsRange r) (hc : s.clearRange r = .ok s') : ClearedTo r s s' := by
  simp only [clearRange] at hc
  split at hc
  · cases hc
  · cases hc
    refine ⟨fun n => ?_, fun n i => ?_, storage_clearRange h hr, rfl⟩
    · rw [getElem?_filter_key _ fun n : Nat => !decide ((bounds r).1 ≤ n ∧ n ≤ (bounds r).2)]
      exact filter_bounds hr (h.blocks n)
    · rw [getElem?_filter_key _ fun k : Nat × Nat =>
        !decide ((bounds r).1 ≤ k.1 ∧ k.1 ≤ (bounds r).2)]
      exact filter_bounds hr (h.events n i)

theorem isSome_of_cleared {β : Type} {row : Option β} {b : Bool}
    (h : (if b then none else row).isSome) : row.isSome := by
  cases b with
  | false => exact h
  | true => cases h

theorem ClearedTo.bounded {s s' : MemStore pedersen} {r : Range} (h : ClearedTo r s s')
    (hs : s.Bounded) : s'.Bounded := by
  refine ⟨fun n hn => ?_, fun n i hn => ?_, fun k n hn => ?_⟩
  · exact hs.blocks n (isSome_of_cleared (h.blocks n ▸ hn))
  · exact hs.events n i (isSome_of_cleared (h.events n i ▸ hn))
  · have hmax : s'.storageMaxBlock = s.storageMaxBlock := by rw [h.rest]
    rw [hmax]
    exact hs.storage k n (isSome_of_cleared (h.storage k n ▸ hn))

theorem clearRange_spec {s s' : MemStore pedersen} {r : Range} (h : s.Good) (hr : FitsRange r)
    (hc : s.clearRange r = .ok s') : s'.rows = s.rows.clear r ∧ s'.Good := by
  have hcleared := clearRange_cleared h.bounded hr hc
  have hbounded := hcleared.bounded h.bounded
  refine ⟨Rows.ext hcleared.blocks (fun k n => hcleared.storage (toBytesBe k) n) hcleared.events,
    hbounded.blocks, hbounded.events, hbounded.storage, fun k n hn => ?_⟩
  exact h.canonical k n (isSome_of_cleared (hcleared.storage k n ▸ hn))

theorem rows_metaSet (s : MemStore pedersen) (k v : String) : (s.metaSet k v).rows = s.rows := rfl

theorem good_metaSet {s : MemStore pedersen} (h : s.Good) (k v : String) : (s.metaSet k v).Good :=
  ⟨h.blocks, h.events, h.storage, h.canonical⟩

theorem metas_metaSets (key : String) : ∀ (writes : List (String × String))
    (s : MemStore pedersen), (s.metaSets writes).metas[key]? = metaAfter writes key s.metas[key]?
  | [], _ => rfl
  | w :: writes, s => by
      have ih := metas_metaSets key writes (s.metaSet w.1 w.2)
      rw [metaSets] at ih ⊢
      rw [List.foldl_cons, ih, metaSet, getElem?_insert_eq]
      rfl

theorem metaSets_spec : ∀ (writes : List (String × String)) {s : MemStore pedersen}, s.Good →
    (s.metaSets writes).rows = s.rows ∧ (s.metaSets writes).Good
  | [], _, h => ⟨rfl, h⟩
  | w :: writes, s, h => by
      obtain ⟨hrows, hgood⟩ := metaSets_spec writes (good_metaSet h w.1 w.2)
      exact ⟨hrows.trans (rows_metaSet s w.1 w.2), hgood⟩

theorem metas_foldl_put : ∀ (l : List Row) (s : MemStore pedersen),
    (l.foldl put s).metas = s.metas
  | [], _ => rfl
  | r :: l, s => by
      rw [List.foldl_cons, metas_foldl_put l]
      cases r <;> rfl

/-- A canonical key is the key of a felt. -/
theorem toBytesBe_fromBytesBe {k : Key} (h : k.val < STARK_PRIME) :
    toBytesBe (fromBytesBe k) = k := by
  apply Fin.ext
  simp [fromBytesBe, Nat.mod_eq_of_lt h]

theorem isEmpty_iff {s : MemStore pedersen} (h : s.Good) : s.isEmpty = true ↔
    s.metas["last_epoch_applied"]? = none ∧ (∀ n, s.rows.blocks n = none) ∧
      ∀ k n, s.rows.slots k n = none := by
  have hstorage : s.storage.isEmpty = true ↔ ∀ k n, s.rows.slots k n = none := by
    rw [isEmpty_iff_getElem?]
    refine ⟨fun hs k n => hs (toBytesBe k, n), fun hs p => ?_⟩
    by_contra hne
    have hp := h.canonical p.1 p.2 (Option.isSome_iff_ne_none.mpr hne)
    have := hs (fromBytesBe p.1) p.2
    simp only [rows, toBytesBe_fromBytesBe hp] at this
    exact hne this
  rw [isEmpty]
  cases hm : s.metas.contains "last_epoch_applied" with
  | true =>
      rw [contains_eq_isSome] at hm
      simp only [if_true, Bool.false_eq_true, false_iff]
      rintro ⟨hnone, -⟩
      rw [hnone] at hm
      cases hm
  | false =>
      rw [contains_eq_false_iff] at hm
      simp only [Bool.false_eq_true, if_false, Bool.and_eq_true, hstorage, isEmpty_iff_getElem?, hm,
        true_and]
      rfl

theorem isEmpty_meta {s : MemStore pedersen} (h : s.isEmpty = true) :
    s.metas["last_epoch_applied"]? = none := by
  rw [isEmpty] at h
  split at h
  · cases h
  · rename_i hc
    exact (contains_eq_false_iff _ _).mp (Bool.not_eq_true _ ▸ hc)

theorem isEmpty_metaSet (s : MemStore pedersen) {k : String} (v : String)
    (hk : k ≠ "last_epoch_applied") : (s.metaSet k v).isEmpty = s.isEmpty := by
  rw [isEmpty, isEmpty, contains_eq_isSome, contains_eq_isSome, metaSet, getElem?_insert_eq,
    if_neg hk.symm]

theorem readSlotAsOf_eq {s : MemStore pedersen} (k : Felt) (bound : Nat) :
    s.readSlotAsOf k bound = s.rows.readSlot k bound := by
  rw [readSlotAsOf]
  cases hasOf : asOf s.storage (toBytesBe k) bound with
  | none =>
      rw [asOf_eq_none_iff] at hasOf
      exact (latest_eq_of_none hasOf).symm
  | some e =>
      obtain ⟨hn, hv, hmax⟩ := asOf_eq_some_iff.mp hasOf
      exact (latest_eq_of_max hv hn hmax).symm

theorem mem_fullSlotSetAsOf (s : MemStore pedersen) (bound : Nat) (k v : Felt) :
    (k, v) ∈ s.fullSlotSetAsOf bound ↔ v ≠ 0 ∧ (s.readSlotAsOf k bound).1 = v := by
  rw [fullSlotSetAsOf, List.mem_filterMap]
  constructor
  · rintro ⟨sk, -, hsk⟩
    simp only at hsk
    split at hsk
    · rename_i hne
      obtain ⟨rfl, rfl⟩ := Prod.mk.inj (Option.some.inj hsk)
      exact ⟨hne, rfl⟩
    · cases hsk
  · rintro ⟨hne, hread⟩
    refine ⟨toBytesBe k, mem_keysOf.mpr ?_, ?_⟩
    · rw [readSlotAsOf] at hread
      cases hasOf : asOf s.storage (toBytesBe k) bound with
      | none =>
          rw [hasOf] at hread
          exact absurd hread.symm hne
      | some e =>
          obtain ⟨-, hv, -⟩ := asOf_eq_some_iff.mp hasOf
          exact ⟨e.2, by rw [hv]; rfl⟩
    · simp only [fromBytesBe_toBytesBe, hread]
      rw [if_pos hne]

theorem mem_blockHashes {s : MemStore pedersen} {r : Range} {l : List (Nat × Felt)} (h : s.Good)
    (hr : FitsRange r) (hl : s.blockHashes r = .ok l) (n : Nat) (f : Felt) :
    (n, f) ∈ l ↔ r.contains n = true ∧ (s.rows.blocks n).map (·.hash) = some f := by
  simp only [blockHashes] at hl
  split at hl
  · cases hl
  · cases hl
    simp only [blocksIn, List.mem_map, List.mem_filter, decide_eq_true_eq, Prod.mk.injEq]
    constructor
    · rintro ⟨e, ⟨he, hb⟩, rfl, rfl⟩
      have hget := ExtTreeMap.mem_toList_iff_getElem?_eq_some.mp he
      have hlt := h.blocks e.1 (by rw [hget]; rfl)
      exact ⟨(bounds_iff hr hlt).mp hb, congrArg (Option.map (·.hash)) hget⟩
    · rintro ⟨hc, hm⟩
      obtain ⟨rec, hrec, rfl⟩ := Option.map_eq_some_iff.mp hm
      have hlt := h.blocks n (by rw [show s.blocks[n]? = some rec from hrec]; rfl)
      exact ⟨(n, rec), ⟨ExtTreeMap.mem_toList_iff_getElem?_eq_some.mpr hrec,
        (bounds_iff hr hlt).mpr hc⟩, rfl, rfl⟩

theorem bounds_proper {r : Range} (h : r.Proper) : ¬ (bounds r).2 < (bounds r).1 := by
  cases r with
  | inclusive first last => exact Nat.not_lt.mpr h
  | above floor => exact Nat.not_lt.mpr (min_le_right _ _)

theorem clearRange_ok (s : MemStore pedersen) {r : Range} (h : r.Proper) :
    ∃ s', s.clearRange r = .ok s' := by
  exact ⟨_, if_neg fun hpanic => bounds_proper h hpanic.1⟩

theorem number_lt_of_mem_ofBlocks {blocks : List (BlockLine × Bool)}
    (h : ∀ b ∈ blocks, b.1.number < 2 ^ 64) : ∀ r ∈ Row.ofBlocks blocks, r.number < 2 ^ 64 := by
  intro r hr
  obtain ⟨b, hb, hr⟩ := Row.mem_ofBlocks.mp hr
  rw [Row.number_of_mem_ofBlock hr]
  exact h b hb

theorem installSnapshot_spec {s : MemStore pedersen} {slots : List SnapSlot}
    {writes : List (String × String)} (h : s.Good) (hw : ∀ x ∈ slots, x.w < 2 ^ 64) :
    (s.installSnapshot slots writes).rows = s.rows.install slots ∧
      (s.installSnapshot slots writes).Good := by
  have hnum : ∀ r ∈ Row.ofSlots slots, r.number < 2 ^ 64 := by
    intro r hr
    obtain ⟨x, hx, rfl⟩ := List.mem_map.mp hr
    exact hw x hx
  obtain ⟨hrows, hgood⟩ := foldl_put h hnum
  obtain ⟨hrows', hgood'⟩ := metaSets_spec writes hgood
  rw [installSnapshot, foldl_insertSlot]
  exact ⟨hrows'.trans hrows, hgood'⟩

theorem replaceRange_spec {s s' : MemStore pedersen} {r : Range}
    {blocks : List (BlockLine × Bool)} {writes : List (String × String)} {bump : Bool}
    (h : s.Good) (hr : FitsRange r) (hb : ∀ b ∈ blocks, b.1.number < 2 ^ 64)
    (hs : s.replaceRange r blocks writes bump = .ok s') :
    s'.rows = s.rows.replace r blocks ∧ s'.Good := by
  obtain ⟨c, hc, hs⟩ := Result.bind_eq_ok.mp hs
  obtain ⟨hcrows, hcgood⟩ := clearRange_spec h hr hc
  obtain ⟨hfrows, hfgood⟩ := foldl_put hcgood (number_lt_of_mem_ofBlocks hb)
  obtain ⟨hwrows, hwgood⟩ := metaSets_spec writes hfgood
  rw [← foldl_applyBlockLine] at hfrows hfgood hwrows hwgood
  obtain rfl := Result.pure_eq_ok.mp hs
  have hrows := hwrows.trans (hfrows.trans (congrArg (·.putAll (Row.ofBlocks blocks)) hcrows))
  cases bump with
  | false => exact ⟨hrows, hwgood⟩
  | true => exact ⟨hrows, good_metaSet hwgood _ _⟩

theorem frame_clearRange {s : MemStore pedersen} {r : Range} {c : MemStore pedersen} (hc : s.clearRange r = .ok c) :
    c.metas = s.metas ∧ c.notes = s.notes := by
  simp only [clearRange] at hc
  split at hc
  · cases hc
  · cases hc
    exact ⟨rfl, rfl⟩

theorem metas_replaceRange {s s' : MemStore pedersen} {r : Range}
    {blocks : List (BlockLine × Bool)} {writes : List (String × String)} {bump : Bool}
    {key : String} (hkey : key ≠ "tail_generation")
    (hs : s.replaceRange r blocks writes bump = .ok s') :
    s'.metas[key]? = metaAfter writes key s.metas[key]? := by
  obtain ⟨c, hc, hs⟩ := Result.bind_eq_ok.mp hs
  obtain rfl := Result.pure_eq_ok.mp hs
  have hwritten : ((blocks.foldl (fun s b => s.applyBlockLine b.1 b.2) c).metaSets writes).metas[key]? =
      metaAfter writes key s.metas[key]? := by
    rw [metas_metaSets, foldl_applyBlockLine, metas_foldl_put, (frame_clearRange hc).1]
  cases bump with
  | false => exact hwritten
  | true =>
      simp only [if_true, bumpGeneration, metaSet]
      rw [getElem?_insert_eq, if_neg hkey]
      exact hwritten

/-- What the counter is set to by a bump. -/
def nextGeneration (value : Option String) : String :=
  (((value.bind Text.parseU64).getD 0 + 1) % 2 ^ 64).repr

theorem generation_replaceRange {s s' : MemStore pedersen} {r : Range} {blocks : List (BlockLine × Bool)}
    {writes : List (String × String)} {bump : Bool}
    (hs : s.replaceRange r blocks writes bump = .ok s') :
    s'.metas["tail_generation"]? =
      if bump then
        some (nextGeneration (metaAfter writes "tail_generation" s.metas["tail_generation"]?))
      else metaAfter writes "tail_generation" s.metas["tail_generation"]? := by
  obtain ⟨c, hc, hs⟩ := Result.bind_eq_ok.mp hs
  have hwritten : ((blocks.foldl (fun s b => s.applyBlockLine b.1 b.2) c).metaSets
      writes).metas["tail_generation"]? =
      metaAfter writes "tail_generation" s.metas["tail_generation"]? := by
    rw [metas_metaSets, foldl_applyBlockLine, metas_foldl_put, (frame_clearRange hc).1]
  obtain rfl := Result.pure_eq_ok.mp hs
  cases bump with
  | false => exact hwritten
  | true =>
      rw [← hwritten]
      simp only [if_true, bumpGeneration, metaSet, getElem?_insert_eq]
      rfl

instance : LawfulStore (MemStore pedersen) where
  rows := rows
  Good := Good
  Fits n := n < 2 ^ 64
  FitsRange := FitsRange
  metaGet_metaSet s k v key := getElem?_insert_eq s.metas k key v
  rows_metaSet := rows_metaSet
  good_metaSet _ k v h := good_metaSet h k v
  isEmpty_meta _ h := isEmpty_meta h
  isEmpty_metaSet s _ v hk := isEmpty_metaSet s v hk
  isEmpty_iff _ h := isEmpty_iff h
  blockHash_eq _ _ _ := rfl
  mem_blockHashes := mem_blockHashes
  readSlotAsOf_eq k _ _ _ := readSlotAsOf_eq k _
  mem_fullSlotSetAsOf := mem_fullSlotSetAsOf
  blockHashes_ok s r h := ⟨_, if_neg fun hpanic => bounds_proper h hpanic.1⟩
  rows_installSnapshot := installSnapshot_spec
  metaGet_installSnapshot s slots writes key := by
    show (s.installSnapshot slots writes).metas[key]? = _
    rw [installSnapshot, metas_metaSets, foldl_insertSlot, metas_foldl_put]
    rfl
  rows_replaceRange h hr hb hs := replaceRange_spec h hr (fun b hmem => (hb b hmem).1) hs
  metaGet_replaceRange := metas_replaceRange
  replaceRange_ok s r blocks writes bump h := by
    obtain ⟨c, hc⟩ := clearRange_ok s h
    exact ⟨_, Result.bind_eq_ok.mpr ⟨c, hc, rfl⟩⟩

theorem fresh_new (pedersen : Felt → Felt → Felt) : Fresh (new pedersen) where
  good := good_new
  metas key := by simp [metaGet, new]
  rows := by
    ext1 <;> simp [LawfulStore.rows, MemStore.rows, new, Rows.empty]

end MemStore

end Strk20.Consumer
