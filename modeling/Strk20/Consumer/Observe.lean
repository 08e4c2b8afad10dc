import Strk20.Consumer.MemStore
import Strk20.Consumer.FeedStore

/-!
# Two stores, one behaviour

The trait's operations as data, executed on any store. `Twin` relates an
in-memory store to a SQLite one that took the same operations; an operation on
twins is answered alike and leaves twins, except where the two really differ:
an event query that starts above the view's bound, on a map of events with a
root, and a bump of a generation that is not a plain number.
-/

namespace Strk20.Consumer

open Feed Versioned Tables
open Std (ExtTreeMap)

/-! ## Operations and answers -/

/-- One operation of the trait or of a view, with its arguments. -/
inductive StoreOp where
  | metaGet (key : String)
  | metaSet (key value : String)
  | isEmpty
  | blockHash (number : Nat)
  | blockHashes (range : Range)
  | readSlotAsOf (slot : Felt) (bound : Nat)
  | fullSlotSetAsOf (block : Nat)
  | storageRootAt (block : Nat)
  | view (block : Nat)
  | readSlotsWithBlock (v : View) (slots : List Felt)
  | getEvents (v : View) (filters : List (List Felt)) (fromBlock toBlock : BlockId)
  | resetMirror
  | installSnapshot (slots : List SnapSlot) (writes : List (String × String))
  | replaceRange (range : Range) (blocks : List (BlockLine × Bool))
      (writes : List (String × String)) (bump : Bool)
  | tailGeneration
  | notes (owner : Felt)
  | upsertNote (n : NoteRow)
  | setNoteSpent (noteId : Felt) (spent : Bool)
  | deleteNote (noteId : Felt)
  | deleteOwnerNotes (owner : Felt)

/-- What an operation returns. -/
inductive Answer where
  | done
  | text (value : Option String)
  | flag (value : Bool)
  | hash (value : Option Felt)
  | hashes (rows : List (Nat × Felt))
  | slots (reads : List (Felt × Nat))
  | slotSet (entries : List (Felt × Felt))
  | view (v : View)
  | events (rows : List EmittedEvent)
  | number (n : Nat)
  | notes (rows : List NoteRow)

/-- A range the caller may ask for: SQLite's integers, not turned around. -/
def Range.Addressable : Range → Prop
  | inclusive first last => first ≤ last ∧ last < 2 ^ 63
  | above floor => floor < 2 ^ 63

/-- Block numbers and indexes stay below `2^63`, ranges are not turned around,
and numbers fit their types. -/
def StoreOp.Addressable : StoreOp → Prop
  | blockHash number => number < 2 ^ 63
  | blockHashes range => range.Addressable
  | readSlotAsOf _ bound => bound < 2 ^ 63
  | fullSlotSetAsOf block => block < 2 ^ 63
  | view block => block < 2 ^ 63
  | readSlotsWithBlock v _ => v.bound < 2 ^ 63
  | getEvents v _ fromBlock toBlock =>
      v.bound < 2 ^ 63 ∧ fromBlock.num 0 < 2 ^ 63 ∧ toBlock.num v.bound < 2 ^ 63 ∧
        fromBlock.num 0 ≤ toBlock.num v.bound
  | installSnapshot slots _ => ∀ x ∈ slots, x.w < 2 ^ 63
  | replaceRange range blocks _ _ =>
      range.Addressable ∧ ∀ b ∈ blocks, b.1.number < 2 ^ 63 ∧ b.1.Bounded ∧
        ∀ e ∈ b.1.events, e.eventIndex < 2 ^ 63
  | upsertNote n => n.index < 2 ^ 63 ∧ n.block < 2 ^ 63 ∧ n.amount < 2 ^ 128
  | _ => True

section

variable {S : Type} [ConsumerStore S]

/-- One operation on a store. The root is recomputed but not compared: the two
stores answer differently for slots outside of the trie's key range. -/
def exec (s : S) : StoreOp → Except Failure Answer × S
  | .metaGet key => (.ok (.text (metaGet s key)), s)
  | .metaSet key value => (.ok .done, metaSet s key value)
  | .isEmpty => (.ok (.flag (ConsumerStore.isEmpty s)), s)
  | .blockHash number => (.ok (.hash (ConsumerStore.blockHash s number)), s)
  | .blockHashes range => ((ConsumerStore.blockHashes s range).map .hashes, s)
  | .readSlotAsOf slot bound => (.ok (.slots [ConsumerStore.readSlotAsOf s slot bound]), s)
  | .fullSlotSetAsOf block => (.ok (.slotSet (ConsumerStore.fullSlotSetAsOf s block)), s)
  | .storageRootAt block => (.ok .done, (ConsumerStore.storageRootAt s block).2)
  | .view block => ((view s block).map .view, s)
  | .readSlotsWithBlock v slots => (.ok (.slots (v.readSlotsWithBlock s slots)), s)
  | .getEvents v filters fromBlock toBlock =>
      ((v.getEvents s filters fromBlock toBlock).map .events, s)
  | .resetMirror => (.ok .done, ConsumerStore.resetMirror s)
  | .installSnapshot slots writes => (.ok .done, ConsumerStore.installSnapshot s slots writes)
  | .replaceRange range blocks writes bump =>
      match ConsumerStore.replaceRange s range blocks writes bump with
      | .ok s' => (.ok .done, s')
      | .error e => (.error e, s)
  | .tailGeneration => (.ok (.number (ConsumerStore.tailGeneration s)), s)
  | .notes owner => (.ok (.notes (ConsumerStore.notes s owner)), s)
  | .upsertNote n => (.ok .done, ConsumerStore.upsertNote s n)
  | .setNoteSpent noteId spent => (.ok .done, ConsumerStore.setNoteSpent s noteId spent)
  | .deleteNote noteId => (.ok .done, ConsumerStore.deleteNote s noteId)
  | .deleteOwnerNotes owner =>
      (.ok (.number (ConsumerStore.deleteOwnerNotes s owner).1),
        (ConsumerStore.deleteOwnerNotes s owner).2)

/-- The answers of a sequence of operations. -/
def answers (s : S) : List StoreOp → List (Except Failure Answer)
  | [] => []
  | op :: ops => (exec s op).1 :: answers (exec s op).2 ops

end

/-- One answer for another: a slot set is compared as a set, notes up to the
order of those with one token and index. -/
def Answer.Same : Answer → Answer → Prop
  | slotSet a, slotSet b => ∀ e, e ∈ a ↔ e ∈ b
  | notes a, notes b => a.Perm b ∧ a.map (fun n => (n.token, n.index)) =
      b.map fun n => (n.token, n.index)
  | a, b => a = b

/-- Results and refusals alike. -/
def SameResult : Except Failure Answer → Except Failure Answer → Prop
  | .ok a, .ok b => a.Same b
  | .error e, .error e' => e = e'
  | _, _ => False

theorem Answer.Same.refl (a : Answer) : a.Same a := by
  cases a <;> simp [Answer.Same]

theorem SameResult.of_eq {a b : Except Failure Answer} (h : a = b) : SameResult a b := by
  subst h
  cases a with
  | ok a => exact Answer.Same.refl a
  | error e => exact rfl

theorem SameResult.answer {α : Type} (f : α → Answer) {a b : α} (h : a = b) :
    SameResult (.ok (f a)) (.ok (f b)) :=
  SameResult.of_eq (by rw [h])

theorem SameResult.result {α : Type} (f : α → Answer) {a b : Except Failure α} (h : a = b) :
    SameResult (a.map f) (b.map f) :=
  SameResult.of_eq (by rw [h])

/-! ## Where the stores agree -/

/-- A generation both stores read as the same number, with room for one more. -/
def GenerationReads : Option String → Prop
  | none => True
  | some text => FeedStore.castInteger text = ((Text.parseU64 text).getD 0 : Nat) ∧
      FeedStore.castInteger text + 1 < 2 ^ 63

/-- The operations answered alike: an event query that starts below the floor or
at or below the view's bound, any event query while no event was stored, a bump
of a generation both stores read. -/
def Agrees {pedersen : Felt → Felt → Felt} (m : MemStore pedersen) : StoreOp → Prop
  | .getEvents v _ fromBlock _ =>
      fromBlock.num 0 < v.historyFloor ∨ fromBlock.num 0 ≤ v.bound ∨ m.eventsRoot = false
  | .replaceRange _ _ writes true =>
      GenerationReads (metaAfter writes "tail_generation" (metaGet m "tail_generation"))
  | _ => True

/-- Every operation of the sequence, in the state it meets. -/
def AgreesAll {pedersen : Felt → Felt → Felt} (m : MemStore pedersen) : List StoreOp → Prop
  | [] => True
  | op :: ops => Agrees m op ∧ AgreesAll (exec m op).2 ops

/-! ## Ordered reads -/

/-- An event of the given blocks, with its block's hash. -/
def EventAt (m : Rows) (first last : Nat) (e : EmittedEvent) : Prop :=
  ∃ n i rec b, m.events n i = some rec ∧ m.blocks n = some b ∧ (first ≤ n ∧ n ≤ last) ∧
    e = emitted n i b.hash rec

/-- Events by block and index, the index below `2^64`. -/
def eventOrder (e : EmittedEvent) : Nat := e.blockNumber * 2 ^ 64 + e.eventIndex

/-- Events by block, then by index. -/
def EventBefore (a b : EmittedEvent) : Prop :=
  a.blockNumber < b.blockNumber ∨ (a.blockNumber = b.blockNumber ∧ a.eventIndex < b.eventIndex)

theorem eventOrder_lt {a b : EmittedEvent} (hi : a.eventIndex < 2 ^ 64) (hlt : EventBefore a b) :
    eventOrder a < eventOrder b := by
  unfold eventOrder
  rcases hlt with hlt | ⟨heq, hlt⟩
  · have hmul : (a.blockNumber + 1) * 2 ^ 64 ≤ b.blockNumber * 2 ^ 64 := Nat.mul_le_mul_right _ hlt
    omega
  · rw [heq]
    omega

namespace MemStore

variable {pedersen : Felt → Felt → Felt} {s : MemStore pedersen}

theorem blockHashes_ascending {r : Range} {l : List (Nat × Felt)} (hl : s.blockHashes r = .ok l) :
    l.Pairwise fun a b => a.1 < b.1 := by
  simp only [blockHashes] at hl
  split at hl
  · cases hl
  · cases hl
    rw [List.pairwise_map]
    have hord : s.blocks.toList.Pairwise fun a b => compare a.1 b.1 = .lt :=
      ExtTreeMap.ordered_keys_toList
    exact (hord.sublist List.filter_sublist).imp fun hlt => compare_lt_iff_lt.mp hlt

theorem mem_eventRows {first last : Nat} {l : List EmittedEvent}
    (hl : s.eventRows first last = .ok l) (e : EmittedEvent) :
    e ∈ l ↔ EventAt s.rows first last e := by
  unfold eventRows at hl
  split at hl
  · cases hl
  · cases hl
    rw [List.mem_filterMap]
    constructor
    · rintro ⟨x, hx, hsome⟩
      rw [List.mem_filter, ExtTreeMap.mem_toList_iff_getElem?_eq_some (k := x.1) (v := x.2),
        decide_eq_true_eq] at hx
      cases hb : s.blocks[x.1.1]? with
      | none => simp [hb] at hsome
      | some b =>
          simp only [hb, Option.some.injEq] at hsome
          exact ⟨x.1.1, x.1.2, x.2, b, hx.1, hb, hx.2, hsome.symm⟩
    · rintro ⟨n, i, rec, b, hev, hb, hin, rfl⟩
      refine ⟨((n, i), rec), List.mem_filter.mpr ⟨?_, by simpa using hin⟩, ?_⟩
      · exact ExtTreeMap.mem_toList_iff_getElem?_eq_some.mpr hev
      · simp only [show s.blocks[n]? = some b from hb]

theorem eventRows_before {first last : Nat} {l : List EmittedEvent}
    (hl : s.eventRows first last = .ok l) : l.Pairwise EventBefore := by
  unfold eventRows at hl
  split at hl
  · cases hl
  · cases hl
    have hord : s.events.toList.Pairwise fun a b => pairCmp a.1 b.1 = .lt :=
      ExtTreeMap.ordered_keys_toList
    rw [List.pairwise_filterMap]
    refine (hord.sublist List.filter_sublist).imp fun {x y} hlt e he e' he' => ?_
    cases hb : s.blocks[x.1.1]? with
    | none => simp [hb] at he
    | some b =>
        cases hb' : s.blocks[y.1.1]? with
        | none => simp [hb'] at he'
        | some b' =>
            simp only [hb, Option.some.injEq] at he
            simp only [hb', Option.some.injEq] at he'
            rw [← he, ← he']
            exact pairCmp_eq_lt.mp hlt

theorem eventRows_spec {first last : Nat} (h : ¬ (last < first ∧ s.eventsRoot))
    (hindex : ∀ n i rec, s.rows.events n i = some rec → i < 2 ^ 64) :
    ∃ l, s.eventRows first last = .ok l ∧ (∀ e, e ∈ l ↔ EventAt s.rows first last e) ∧
      l.Pairwise fun a b => eventOrder a < eventOrder b := by
  have hok : ∃ l, s.eventRows first last = .ok l := ⟨_, if_neg h⟩
  obtain ⟨l, hl⟩ := hok
  refine ⟨l, hl, mem_eventRows hl, (eventRows_before hl).imp_of_mem fun {a b} ha _ hab => ?_⟩
  obtain ⟨n, i, rec, blk, hev, -, -, rfl⟩ := (mem_eventRows hl a).mp ha
  exact eventOrder_lt (hindex n i rec hev) hab

end MemStore

namespace FeedStore

variable {pedersen : Felt → Felt → Felt} {s : FeedStore pedersen}

/-- No event index has gone through the sign. -/
def Indexed (s : FeedStore pedersen) : Prop :=
  ∀ i j : Int, s.events[(i, j)]?.isSome → 0 ≤ j ∧ j < 2 ^ 63

theorem toU64_of_nonneg {i : Int} (h : 0 ≤ i) (h' : i < 2 ^ 63) : (toU64 i : Int) = i := by
  rw [toU64]
  omega

theorem blockHashes_ascending {r : Range} {l : List (Nat × Felt)} (h : s.Good)
    (hl : s.blockHashes r = .ok l) : l.Pairwise fun a b => a.1 < b.1 := by
  obtain rfl := Except.ok.inj hl
  rw [List.pairwise_map]
  have hord : s.blocks.toList.Pairwise fun a b => compare a.1 b.1 = .lt :=
    ExtTreeMap.ordered_keys_toList
  refine (hord.sublist List.filter_sublist).imp_of_mem fun {x y} hx hy hlt => ?_
  have hbound : ∀ {z : Int × BlockRow}, z ∈ s.blocks.toList → 0 ≤ z.1 ∧ z.1 < 2 ^ 63 :=
    fun {z} hz => h.blocks z.1 (by rw [ExtTreeMap.mem_toList_iff_getElem?_eq_some.mp hz]; rfl)
  have hx' := hbound (List.mem_filter.mp hx).1
  have hy' := hbound (List.mem_filter.mp hy).1
  have hlt' : x.1 < y.1 := compare_lt_iff_lt.mp hlt
  have hxn := toU64_of_nonneg hx'.1 hx'.2
  have hyn := toU64_of_nonneg hy'.1 hy'.2
  show toU64 x.1 < toU64 y.1
  omega

theorem eventRows_spec {first last : Nat} (h : s.Good) (hi : s.Indexed)
    (hf : FitsRange (.inclusive first last)) :
    ∃ l, s.eventRows first last = .ok l ∧ (∀ e, e ∈ l ↔ EventAt s.rows first last e) ∧
      l.Pairwise fun a b => eventOrder a < eventOrder b := by
  have hkey : ∀ {x : (Int × Int) × EventRow}, x ∈ s.events.toList →
      s.events[x.1]? = some x.2 ∧ (toU64 x.1.1 : Int) = x.1.1 ∧ (toU64 x.1.2 : Int) = x.1.2 ∧
        toU64 x.1.2 < 2 ^ 63 := by
    intro x hx
    have hget := ExtTreeMap.mem_toList_iff_getElem?_eq_some.mp hx
    have hblock := h.events x.1.1 x.1.2 (by rw [Prod.eta, hget]; rfl)
    have hindex := hi x.1.1 x.1.2 (by rw [Prod.eta, hget]; rfl)
    have hcast := toU64_of_nonneg hindex.1 hindex.2
    exact ⟨hget, toU64_of_nonneg hblock.1 hblock.2, hcast, by omega⟩
  refine ⟨_, rfl, fun e => ?_, ?_⟩
  · rw [List.mem_filterMap]
    constructor
    · rintro ⟨x, hx, hsome⟩
      obtain ⟨hmem, hin⟩ := List.mem_filter.mp hx
      obtain ⟨hget, hblock, hindex, hlt⟩ := hkey hmem
      cases hb : s.blocks[x.1.1]? with
      | none => simp [hb] at hsome
      | some b =>
          simp only [hb, Option.some.injEq] at hsome
          refine ⟨toU64 x.1.1, toU64 x.1.2, eventRecOf x.2, blockRecOf b, ?_, ?_, ?_, hsome.symm⟩
          · simp only [rows]
            rw [if_pos (by omega), hblock, toI64_of_lt hlt, hindex, Prod.eta, hget]
            rfl
          · simp only [rows, hblock, hb]
            rfl
          · rw [← hblock, inRange_natCast hf] at hin
            exact (Range.contains_inclusive _ _ _).mp hin
    · rintro ⟨n, i, rec, b, hev, hb, hin, rfl⟩
      simp only [rows] at hev hb
      split at hev
      · rename_i hi64
        obtain ⟨er, her, rfl⟩ := Option.map_eq_some_iff.mp hev
        obtain ⟨br, hbr, rfl⟩ := Option.map_eq_some_iff.mp hb
        have hmem : (((n : Int), toI64 i), er) ∈ s.events.toList :=
          ExtTreeMap.mem_toList_iff_getElem?_eq_some.mpr her
        refine ⟨_, List.mem_filter.mpr ⟨hmem, ?_⟩, ?_⟩
        · rw [inRange_natCast hf]
          exact (Range.contains_inclusive _ _ _).mpr hin
        · have hn : toU64 (n : Int) = n := Int.ofNat_inj.mp (hkey hmem).2.1
          simp only [hbr, hn, toU64_toI64 hi64]
          rfl
      · cases hev
  · have hord : s.events.toList.Pairwise fun a b => pairCmp a.1 b.1 = .lt :=
      ExtTreeMap.ordered_keys_toList
    rw [List.pairwise_filterMap]
    refine (hord.sublist List.filter_sublist).imp_of_mem fun {x y} hx hy hlt e he e' he' => ?_
    obtain ⟨-, hxb, hxi, hxlt⟩ := hkey (List.mem_filter.mp hx).1
    obtain ⟨-, hyb, hyi, -⟩ := hkey (List.mem_filter.mp hy).1
    cases hb : s.blocks[x.1.1]? with
    | none => simp [hb] at he
    | some b =>
        cases hb' : s.blocks[y.1.1]? with
        | none => simp [hb'] at he'
        | some b' =>
            simp only [hb, Option.some.injEq] at he
            simp only [hb', Option.some.injEq] at he'
            rw [← he, ← he']
            have hindex : toU64 x.1.2 < 2 ^ 64 := by omega
            refine eventOrder_lt hindex ?_
            show toU64 x.1.1 < toU64 y.1.1 ∨ (toU64 x.1.1 = toU64 y.1.1 ∧ toU64 x.1.2 < toU64 y.1.2)
            rcases pairCmp_eq_lt.mp hlt with hlt | ⟨heq, hlt⟩
            · exact .inl (by omega)
            · exact .inr ⟨by rw [heq], by omega⟩

end FeedStore

/-! ## The notes -/

/-- The note map and the registry hold the same notes, with indexes that order
as they are. -/
structure NotesTwin (a : ExtTreeMap Key NoteRow) (b : ExtTreeMap Felt FeedStore.NoteRecord) :
    Prop where
  row : ∀ id : Felt, a[toBytesBe id]? = (b[id]?).map (FeedStore.noteOf id)
  canonical : ∀ k : Key, a[k]?.isSome → k.val < STARK_PRIME
  index : ∀ (id : Felt) r, b[id]? = some r → 0 ≤ r.idx ∧ r.idx < 2 ^ 63

namespace NotesTwin

open FeedStore (noteOf NoteRecord)

variable {a : ExtTreeMap Key NoteRow} {b : ExtTreeMap Felt NoteRecord}

theorem empty : NotesTwin ∅ ∅ := by
  refine ⟨fun id => ?_, fun k h => ?_, fun id r h => ?_⟩
  · simp
  · simp at h
  · simp at h

/-- A note of the map is the selected row of its id. -/
theorem of_mem (h : NotesTwin a b) {k : Key} {n : NoteRow} (hk : a[k]? = some n) :
    toBytesBe n.noteId = k ∧ ∃ r, b[n.noteId]? = some r ∧ noteOf n.noteId r = n := by
  have hcan := MemStore.toBytesBe_fromBytesBe (h.canonical k (by rw [hk]; rfl))
  have hrow := h.row (fromBytesBe k)
  rw [hcan, hk] at hrow
  obtain ⟨r, hr, hn⟩ := Option.map_eq_some_iff.mp hrow.symm
  have hid : n.noteId = fromBytesBe k := by rw [← hn]; rfl
  rw [hid]
  exact ⟨hcan, r, hr, hn⟩

theorem list_eq (h : NotesTwin a b) :
    a.toList.map Prod.snd = b.toList.map fun e => noteOf e.1 e.2 := by
  refine Lists.eq_of_ascending (fun n => n.noteId.val) ?_ ?_ fun n => ?_
  · rw [List.pairwise_map]
    have hord : a.toList.Pairwise fun x y => compare x.1 y.1 = .lt := ExtTreeMap.ordered_keys_toList
    refine hord.imp_of_mem fun {x y} hx hy hlt => ?_
    have hx' := (h.of_mem (ExtTreeMap.mem_toList_iff_getElem?_eq_some.mp hx)).1
    have hy' := (h.of_mem (ExtTreeMap.mem_toList_iff_getElem?_eq_some.mp hy)).1
    rw [← hx', ← hy'] at hlt
    exact compare_lt_iff_lt.mp hlt
  · rw [List.pairwise_map]
    have hord : b.toList.Pairwise fun x y => compare x.1 y.1 = .lt := ExtTreeMap.ordered_keys_toList
    exact hord.imp fun hlt => compare_lt_iff_lt.mp hlt
  · simp only [List.mem_map]
    constructor
    · rintro ⟨x, hx, rfl⟩
      obtain ⟨-, r, hr, hn⟩ := h.of_mem (ExtTreeMap.mem_toList_iff_getElem?_eq_some.mp hx)
      exact ⟨(x.2.noteId, r), ExtTreeMap.mem_toList_iff_getElem?_eq_some.mpr hr, hn⟩
    · rintro ⟨x, hx, rfl⟩
      have hr := ExtTreeMap.mem_toList_iff_getElem?_eq_some.mp hx
      have hrow := h.row x.1
      rw [hr] at hrow
      exact ⟨(toBytesBe x.1, noteOf x.1 x.2), ExtTreeMap.mem_toList_iff_getElem?_eq_some.mpr hrow, rfl⟩

/-- `sort_by_key` and `ORDER BY` order alike. -/
theorem sorted_eq (h : NotesTwin a b) (owner : Felt) :
    ((a.toList.map Prod.snd).filter fun n => n.owner == owner).mergeSort MemStore.noteLe =
      ((b.toList.filter fun e => e.2.owner == owner).mergeSort FeedStore.noteLe).map fun e =>
        noteOf e.1 e.2 := by
  have hle : ∀ x ∈ b.toList.filter (fun e => e.2.owner == owner),
      ∀ y ∈ b.toList.filter (fun e => e.2.owner == owner),
      FeedStore.noteLe x y = MemStore.noteLe (noteOf x.1 x.2) (noteOf y.1 y.2) := by
    intro x hx y hy
    have hindex : ∀ {z : Felt × NoteRecord}, z ∈ b.toList.filter (fun e => e.2.owner == owner) →
        (toU64 z.2.idx : Int) = z.2.idx := by
      intro z hz
      have hb := h.index z.1 z.2
        (ExtTreeMap.mem_toList_iff_getElem?_eq_some.mp (List.mem_filter.mp hz).1)
      exact FeedStore.toU64_of_nonneg hb.1 hb.2
    have hiff : x.2.idx ≤ y.2.idx ↔ toU64 x.2.idx ≤ toU64 y.2.idx := by
      have hx' := hindex hx
      have hy' := hindex hy
      omega
    rw [FeedStore.noteLe, MemStore.noteLe, decide_eq_decide.mpr hiff]
    rfl
  rw [List.map_mergeSort hle, h.list_eq, List.filter_map]
  rfl

theorem insert (h : NotesTwin a b) {id : Felt} {n : NoteRow} {r : NoteRecord}
    (hr : noteOf id r = n) (hidx : 0 ≤ r.idx ∧ r.idx < 2 ^ 63) :
    NotesTwin (a.insert (toBytesBe id) n) (b.insert id r) := by
  refine ⟨fun id' => ?_, fun k hk => ?_, fun id' r' hr' => ?_⟩
  · simp only [getElem?_insert_eq, toBytesBe_inj]
    split
    · rename_i heq
      rw [heq, Option.map_some, hr]
    · exact h.row id'
  · rw [getElem?_insert_eq] at hk
    split at hk
    · rename_i heq
      rw [heq]
      exact id.isLt
    · exact h.canonical k hk
  · rw [getElem?_insert_eq] at hr'
    split at hr'
    · cases hr'
      exact hidx
    · exact h.index id' r' hr'

theorem erase (h : NotesTwin a b) (id : Felt) : NotesTwin (a.erase (toBytesBe id)) (b.erase id) := by
  refine ⟨fun id' => ?_, fun k hk => ?_, fun id' r' hr' => ?_⟩
  · simp only [getElem?_erase_eq, toBytesBe_inj]
    split
    · rfl
    · exact h.row id'
  · rw [getElem?_erase_eq] at hk
    split at hk
    · cases hk
    · exact h.canonical k hk
  · rw [getElem?_erase_eq] at hr'
    split at hr'
    · cases hr'
    · exact h.index id' r' hr'

theorem filter_owner (h : NotesTwin a b) (owner : Felt) :
    NotesTwin (a.filter fun _ n => n.owner != owner) (b.filter fun _ r => r.owner != owner) := by
  refine ⟨fun id => ?_, fun k hk => ?_, fun id r hr => ?_⟩
  · rw [ExtTreeMap.getElem?_filter', ExtTreeMap.getElem?_filter', h.row id]
    cases b[id]? with
    | none => rfl
    | some r =>
        simp only [Option.map_some, Option.filter_some]
        show (if (r.owner != owner) = true then some (noteOf id r) else none) = _
        split <;> rfl
  · rw [ExtTreeMap.getElem?_filter'] at hk
    exact h.canonical k (Option.isSome_of_isSome_filter _ _ hk)
  · rw [ExtTreeMap.getElem?_filter'] at hr
    exact h.index id r (Option.filter_eq_some_iff.mp hr).1

theorem deleted_eq (h : NotesTwin a b) (owner : Felt) :
    a.size - (a.filter fun _ n => n.owner != owner).size =
      (b.filter fun _ r => r.owner == owner).size := by
  have hall : a.toList.length = b.toList.length := by
    simpa using congrArg List.length h.list_eq
  have hkept : (a.toList.filter fun e => e.2.owner != owner).length =
      (b.toList.filter fun e => e.2.owner != owner).length := by
    have hcount := congrArg (List.countP fun n : NoteRow => n.owner != owner) h.list_eq
    rw [List.countP_map, List.countP_map] at hcount
    rw [← List.countP_eq_length_filter, ← List.countP_eq_length_filter]
    exact hcount
  have hsplit := List.length_eq_length_filter_add (l := b.toList) fun e => e.2.owner == owner
  rw [← ExtTreeMap.length_toList, ← ExtTreeMap.length_toList, ← ExtTreeMap.length_toList,
    ExtTreeMap.toList_filter, ExtTreeMap.toList_filter, hkept, hall, hsplit]
  exact Nat.add_sub_cancel _ _

end NotesTwin

/-! ## Indexes and generations under a replacement -/

namespace FeedStore

variable {pedersen : Felt → Felt → Felt} {s : FeedStore pedersen}

/-- An event row with an index SQLite orders as it is. -/
def IndexedRow : Row → Prop
  | .event _ i _ => i < 2 ^ 63
  | _ => True

theorem indexed_put {r : Row} (h : s.Indexed) (hr : IndexedRow r) : (s.put r).Indexed := by
  cases r with
  | block n rec => exact h
  | slot k n v => exact h
  | event n i rec =>
      intro a b hab
      simp only [put, getElem?_insert_eq] at hab
      split at hab
      · rename_i heq
        rw [(Prod.mk.inj heq).2, toI64_of_lt hr]
        simp only [IndexedRow] at hr
        omega
      · exact h a b hab

theorem indexed_foldl_put : ∀ {l : List Row} {s : FeedStore pedersen}, s.Indexed →
    (∀ r ∈ l, IndexedRow r) → (l.foldl put s).Indexed
  | [], _, h, _ => h
  | r :: l, s, h, hl => by
      obtain ⟨hr, hl⟩ := List.forall_mem_cons.mp hl
      show (l.foldl put (s.put r)).Indexed
      exact indexed_foldl_put (indexed_put h hr) hl

theorem indexed_clear (h : s.Indexed) (r : Range) : (s.clear r).Indexed := by
  intro a b hab
  exact h a b (isSome_of_filter_key (fun k : Int × Int => !inRange r k.1) hab)

theorem events_metaSets : ∀ (writes : List (String × String)) (s : FeedStore pedersen),
    (s.metaSets writes).events = s.events
  | [], _ => rfl
  | w :: writes, s => events_metaSets writes (s.metaSet w.1 w.2)

theorem notesRegistry_metaSets : ∀ (writes : List (String × String)) (s : FeedStore pedersen),
    (s.metaSets writes).notesRegistry = s.notesRegistry
  | [], _ => rfl
  | w :: writes, s => notesRegistry_metaSets writes (s.metaSet w.1 w.2)

theorem notesRegistry_foldl_put : ∀ (l : List Row) (s : FeedStore pedersen),
    (l.foldl put s).notesRegistry = s.notesRegistry
  | [], _ => rfl
  | r :: l, s => by
      rw [List.foldl_cons, notesRegistry_foldl_put l]
      cases r <;> rfl

theorem notesRegistry_replaceRange {r : Range} {blocks : List (BlockLine × Bool)}
    {writes : List (String × String)} {bump : Bool} :
    (s.replaceRange r blocks writes bump).notesRegistry = s.notesRegistry := by
  have hwritten : ((blocks.foldl (fun s b => s.applyBlockLine b.1 (if b.2 then 1 else 0))
      (s.clear r)).metaSets writes).notesRegistry = s.notesRegistry := by
    rw [notesRegistry_metaSets, foldl_applyBlockLine, notesRegistry_foldl_put]
    rfl
  cases bump <;> exact hwritten

theorem indexed_replaceRange {r : Range} {blocks : List (BlockLine × Bool)}
    {writes : List (String × String)} {bump : Bool} (h : s.Indexed)
    (hb : ∀ b ∈ blocks, ∀ e ∈ b.1.events, e.eventIndex < 2 ^ 63) :
    (s.replaceRange r blocks writes bump).Indexed := by
  have hrows : ∀ row ∈ Row.ofBlocks blocks, IndexedRow row := by
    intro row hrow
    obtain ⟨b, hmem, hrow⟩ := Row.mem_ofBlocks.mp hrow
    rw [Row.ofBlock, List.mem_cons, List.mem_append, List.mem_map, List.mem_map] at hrow
    rcases hrow with rfl | ⟨d, -, rfl⟩ | ⟨e, he, rfl⟩
    · trivial
    · trivial
    · exact hb b hmem e he
  have hfold := indexed_foldl_put (indexed_clear h r) hrows
  have hevents : (s.replaceRange r blocks writes bump).events =
      ((Row.ofBlocks blocks).foldl put (s.clear r)).events := by
    rw [← events_metaSets writes (List.foldl _ _ _), ← foldl_applyBlockLine]
    cases bump <;> rfl
  intro a b hab
  rw [hevents] at hab
  exact hfold a b hab

end FeedStore

namespace MemStore

variable {pedersen : Felt → Felt → Felt} {s s' : MemStore pedersen}

theorem notes_metaSets : ∀ (writes : List (String × String)) (s : MemStore pedersen),
    (s.metaSets writes).notes = s.notes
  | [], _ => rfl
  | w :: writes, s => notes_metaSets writes (s.metaSet w.1 w.2)

theorem notes_foldl_put : ∀ (l : List Row) (s : MemStore pedersen),
    (l.foldl put s).notes = s.notes
  | [], _ => rfl
  | r :: l, s => by
      rw [List.foldl_cons, notes_foldl_put l]
      cases r <;> rfl

theorem notes_replaceRange {r : Range} {blocks : List (BlockLine × Bool)}
    {writes : List (String × String)} {bump : Bool}
    (hs : s.replaceRange r blocks writes bump = .ok s') : s'.notes = s.notes := by
  obtain ⟨c, hc, hs⟩ := Result.bind_eq_ok.mp hs
  have hwritten : ((blocks.foldl (fun s b => s.applyBlockLine b.1 b.2) c).metaSets writes).notes =
      s.notes := by
    rw [notes_metaSets, foldl_applyBlockLine, notes_foldl_put, (frame_clearRange hc).2]
  obtain rfl := Result.pure_eq_ok.mp hs
  cases bump <;> exact hwritten

end MemStore

/-- On a generation both stores read, the bump writes one text. -/
theorem nextGeneration_eq {value : Option String} (h : GenerationReads value) :
    MemStore.nextGeneration value = FeedStore.nextGeneration value := by
  cases value with
  | none => rfl
  | some text =>
      obtain ⟨hread, hroom⟩ := h
      have hlt : ((Text.parseU64 text).getD 0 + 1) % 2 ^ 64 = (Text.parseU64 text).getD 0 + 1 :=
        Nat.mod_eq_of_lt (by omega)
      show (((Text.parseU64 text).getD 0 + 1) % 2 ^ 64).repr = ite _ _ _
      rw [if_pos hroom, hlt, hread]
      rfl

/-! ## Twins -/

section

variable {pedersen : Felt → Felt → Felt} {m : MemStore pedersen} {f : FeedStore pedersen}

/-- An in-memory store and a SQLite store with the same content. -/
structure Twin (m : MemStore pedersen) (f : FeedStore pedersen) : Prop where
  memGood : m.Good
  feedGood : f.Good
  indexed : f.Indexed
  rows : m.rows = f.rows
  metas : ∀ key : String, m.metas[key]? = f.metas[key]?
  notes : NotesTwin m.notes f.notesRegistry

theorem Twin.new (pedersen : Felt → Felt → Felt) :
    Twin (MemStore.new pedersen) (FeedStore.new pedersen) where
  memGood := MemStore.good_new
  feedGood := FeedStore.good_new
  indexed i j h := by simp [FeedStore.new] at h
  rows := (MemStore.fresh_new pedersen).rows.trans (FeedStore.fresh_new pedersen).rows.symm
  metas key := by simp [MemStore.new, FeedStore.new]
  notes := NotesTwin.empty

theorem Twin.withNotes (h : Twin m f) {a : ExtTreeMap Key NoteRow}
    {b : ExtTreeMap Felt FeedStore.NoteRecord} (hn : NotesTwin a b) :
    Twin { m with notes := a } { f with notesRegistry := b } :=
  ⟨⟨h.memGood.blocks, h.memGood.events, h.memGood.storage, h.memGood.canonical⟩,
    ⟨h.feedGood.blocks, h.feedGood.events, h.feedGood.storage⟩, h.indexed, h.rows, h.metas, hn⟩

theorem Twin.metaSet (h : Twin m f) (key value : String) :
    Twin (m.metaSet key value) (f.metaSet key value) := by
  refine ⟨MemStore.good_metaSet h.memGood key value, FeedStore.good_metaSet h.feedGood key value,
    h.indexed, h.rows, fun key' => ?_, h.notes⟩
  simp only [MemStore.metaSet, FeedStore.metaSet, getElem?_insert_eq, h.metas]

theorem Twin.resetMirror (h : Twin m f) : Twin m.resetMirror f.resetMirror := by
  have hfresh := Twin.new pedersen
  refine ⟨⟨hfresh.memGood.blocks, hfresh.memGood.events, hfresh.memGood.storage,
    hfresh.memGood.canonical⟩, ⟨hfresh.feedGood.blocks, hfresh.feedGood.events,
    hfresh.feedGood.storage⟩, hfresh.indexed, hfresh.rows, fun key => ?_, NotesTwin.empty⟩
  have herase : ∀ (keys : List String) (t : ExtTreeMap String String),
      (keys.foldl (fun t key => t.erase key) t)[key]? = if keys.contains key then none else t[key]? := by
    intro keys
    induction keys with
    | nil => exact fun t => rfl
    | cons k keys ih =>
        intro t
        rw [List.foldl_cons, ih, getElem?_erase_eq]
        by_cases hk : key = k
        · simp [hk]
        · simp [hk]
  simp only [MemStore.resetMirror, FeedStore.resetMirror]
  rw [herase, getElem?_filter_key _ fun key : String => !resetKeys.contains key, h.metas]
  cases resetKeys.contains key <;> rfl

theorem Twin.installSnapshot (h : Twin m f) {slots : List SnapSlot}
    (hw : ∀ x ∈ slots, x.w < 2 ^ 63) (writes : List (String × String)) :
    Twin (m.installSnapshot slots writes) (f.installSnapshot slots writes) := by
  obtain ⟨hmr, hmg⟩ := @MemStore.installSnapshot_spec pedersen m slots writes h.memGood
    fun x hx => lt_trans (hw x hx) (by decide)
  obtain ⟨hfr, hfg⟩ := @LawfulStore.rows_installSnapshot (FeedStore pedersen) _ f slots writes
    h.feedGood hw
  refine ⟨hmg, hfg, ?_, hmr.trans (h.rows ▸ hfr.symm), fun key => ?_, ?_⟩
  · intro i j hij
    rw [FeedStore.installSnapshot, FeedStore.events_metaSets] at hij
    exact h.indexed i j hij
  · have hm := LawfulStore.metaGet_installSnapshot m slots writes key
    have hf := LawfulStore.metaGet_installSnapshot f slots writes key
    exact hm.trans ((congrArg (metaAfter writes key) (h.metas key)).trans hf.symm)
  · rw [MemStore.installSnapshot, MemStore.notes_metaSets, MemStore.foldl_insertSlot,
      MemStore.notes_foldl_put, FeedStore.installSnapshot, FeedStore.notesRegistry_metaSets]
    exact h.notes

theorem Twin.replaceRange (h : Twin m f) {r : Range} {blocks : List (BlockLine × Bool)}
    {writes : List (String × String)} {bump : Bool} {m' : MemStore pedersen} (hr : r.Addressable)
    (hb : ∀ b ∈ blocks, b.1.number < 2 ^ 63 ∧ b.1.Bounded ∧ ∀ e ∈ b.1.events, e.eventIndex < 2 ^ 63)
    (hgen : bump = true → GenerationReads (metaAfter writes "tail_generation" m.metas["tail_generation"]?))
    (hm : m.replaceRange r blocks writes bump = .ok m') :
    Twin m' (f.replaceRange r blocks writes bump) := by
  have hfits : MemStore.FitsRange r ∧ FeedStore.FitsRange r := by
    cases r with
    | inclusive first last => exact ⟨trivial, lt_of_le_of_lt hr.1 hr.2, hr.2⟩
    | above floor =>
        simp only [Range.Addressable] at hr
        exact ⟨by simp only [MemStore.FitsRange]; omega, hr⟩
  obtain ⟨hmr, hmg⟩ := MemStore.replaceRange_spec h.memGood hfits.1
    (fun b hmem => lt_trans (hb b hmem).1 (by decide)) hm
  obtain ⟨hfr, hfg⟩ := @FeedStore.replaceRange_spec pedersen f r blocks writes bump h.feedGood
    hfits.2 fun b hmem => ⟨(hb b hmem).1, (hb b hmem).2.1⟩
  refine ⟨hmg, hfg, FeedStore.indexed_replaceRange h.indexed fun b hmem => (hb b hmem).2.2,
    hmr.trans (h.rows ▸ hfr.symm), fun key => ?_, ?_⟩
  · by_cases hkey : key = "tail_generation"
    · subst hkey
      rw [MemStore.generation_replaceRange hm, FeedStore.generation_replaceRange, ← h.metas]
      cases bump with
      | false => rfl
      | true => rw [nextGeneration_eq (hgen rfl)]
    · rw [MemStore.metas_replaceRange hkey hm, FeedStore.metas_replaceRange hkey, h.metas]
  · rw [MemStore.notes_replaceRange hm, FeedStore.notesRegistry_replaceRange]
    exact h.notes

theorem Twin.upsertNote (h : Twin m f) {n : NoteRow} (hindex : n.index < 2 ^ 63)
    (hblock : n.block < 2 ^ 63) (hamount : n.amount < 2 ^ 128) :
    Twin (m.upsertNote n) (f.upsertNote n) := by
  have hamount' : (Text.parseU128 n.amount.repr).getD 0 = n.amount := by
    rw [Text.parseU128, Text.parseUnsigned_repr hamount]
    rfl
  have hblock' : toU64 (toI64 n.block) = n.block := toU64_toI64 (lt_trans hblock (by decide))
  have hrow := h.notes.row n.noteId
  rw [MemStore.upsertNote, FeedStore.upsertNote]
  cases hr : f.notesRegistry[n.noteId]? with
  | none =>
      rw [hr] at hrow
      simp only [hrow, Option.map_none]
      refine h.withNotes (h.notes.insert ?_ ?_)
      · simp only [FeedStore.noteOf, hamount', hblock', toU64_toI64 (lt_trans hindex (by decide))]
        cases n with
        | mk noteId owner sender token index nullifier amount block spent => cases spent <;> rfl
      · simp only [toI64_of_lt hindex]
        omega
  | some r =>
      rw [hr] at hrow
      simp only [hrow, Option.map_some]
      refine h.withNotes (h.notes.insert ?_ (h.notes.index n.noteId r hr))
      simp only [FeedStore.noteOf, hamount', hblock']

theorem Twin.setNoteSpent (h : Twin m f) (noteId : Felt) (spent : Bool) :
    Twin (m.setNoteSpent noteId spent) (f.setNoteSpent noteId spent) := by
  have hrow := h.notes.row noteId
  rw [MemStore.setNoteSpent, FeedStore.setNoteSpent]
  cases hr : f.notesRegistry[noteId]? with
  | none =>
      rw [hr] at hrow
      simp only [hrow, Option.map_none]
      exact h
  | some r =>
      rw [hr] at hrow
      simp only [hrow, Option.map_some]
      refine h.withNotes (h.notes.insert ?_ (h.notes.index noteId r hr))
      cases spent <;> rfl

/-! ## Reads of twins -/

theorem Twin.metaU64_eq (h : Twin m f) (key : String) : metaU64 m key = metaU64 f key :=
  congrArg (·.bind Text.parseU64) (h.metas key)

theorem Twin.isEmpty_eq (h : Twin m f) : m.isEmpty = f.isEmpty := by
  rw [Bool.eq_iff_iff, MemStore.isEmpty_iff h.memGood, FeedStore.isEmpty_iff h.feedGood, h.rows,
    h.metas]

theorem Twin.readSlotAsOf_eq (h : Twin m f) (k : Felt) {bound : Nat} (hb : bound < 2 ^ 63) :
    m.readSlotAsOf k bound = f.readSlotAsOf k bound := by
  rw [MemStore.readSlotAsOf_eq, FeedStore.readSlotAsOf_eq k h.feedGood hb, h.rows]

theorem Twin.blockHashes_eq (h : Twin m f) {r : Range} (hr : r.Addressable) :
    m.blockHashes r = f.blockHashes r := by
  have hfits : MemStore.FitsRange r ∧ FeedStore.FitsRange r ∧ r.Proper := by
    cases r with
    | inclusive first last => exact ⟨trivial, ⟨lt_of_le_of_lt hr.1 hr.2, hr.2⟩, hr.1⟩
    | above floor =>
        simp only [Range.Addressable] at hr
        exact ⟨by simp only [MemStore.FitsRange]; omega, hr, trivial⟩
  obtain ⟨l, hl⟩ := LawfulStore.blockHashes_ok m hfits.2.2
  obtain ⟨l', hl'⟩ := LawfulStore.blockHashes_ok f hfits.2.2
  refine hl.trans (Eq.trans (congrArg Except.ok ?_) hl'.symm)
  refine Lists.eq_of_ascending (fun e => e.1) (MemStore.blockHashes_ascending hl)
    (FeedStore.blockHashes_ascending h.feedGood hl') fun e => ?_
  rw [← Prod.eta e, MemStore.mem_blockHashes h.memGood hfits.1 hl,
    FeedStore.mem_blockHashes h.feedGood hfits.2.1 hl', h.rows]

/-- Equal rows give equal event queries, where the map does not refuse the range. -/
theorem eventRows_eq_of_rows (hrows : m.rows = f.rows) (hgood : f.Good) (hindexed : f.Indexed)
    {first last : Nat} (hquiet : ¬ (last < first ∧ m.eventsRoot)) (hfirst : first < 2 ^ 63)
    (hlast : last < 2 ^ 63) : m.eventRows first last = f.eventRows first last := by
  have hindex : ∀ n i rec, m.rows.events n i = some rec → i < 2 ^ 64 := by
    intro n i rec hrec
    rw [hrows] at hrec
    simp only [FeedStore.rows] at hrec
    split at hrec
    · assumption
    · cases hrec
  obtain ⟨l, hl, hmem, hasc⟩ := MemStore.eventRows_spec hquiet hindex
  obtain ⟨l', hl', hmem', hasc'⟩ := @FeedStore.eventRows_spec pedersen f first last
    hgood hindexed ⟨hfirst, hlast⟩
  rw [hl, hl']
  refine congrArg Except.ok (Lists.eq_of_ascending eventOrder hasc hasc' fun e => ?_)
  rw [hmem, hmem', hrows]

theorem Twin.view_eq (h : Twin m f) (block : Nat) : view m block = view f block := by
  simp only [view, checkBoundAboveBasis, historyFloor, h.metaU64_eq]

theorem Twin.getEvents_eq (h : Twin m f) {v : View} {fromBlock toBlock : BlockId}
    (hbound : v.bound < 2 ^ 63) (hfrom : fromBlock.num 0 < 2 ^ 63)
    (hle : fromBlock.num 0 ≤ toBlock.num v.bound)
    (hagree : fromBlock.num 0 < v.historyFloor ∨ fromBlock.num 0 ≤ v.bound ∨
      m.eventsRoot = false)
    (filters : List (List Felt)) :
    v.getEvents m filters fromBlock toBlock = v.getEvents f filters fromBlock toBlock := by
  by_cases hfloor : v.historyFloor ≤ fromBlock.num 0
  · rw [View.getEvents_of_le hfloor, View.getEvents_of_le hfloor]
    have hquiet : ¬ (min (toBlock.num v.bound) v.bound < fromBlock.num 0 ∧ m.eventsRoot) := by
      rintro ⟨hlt, hroot⟩
      rcases hagree with hbelow | hin | hnone
      · exact absurd hbelow (Nat.not_lt.mpr hfloor)
      · exact absurd hlt (Nat.not_lt.mpr (le_min hle hin))
      · exact absurd hroot (by rw [hnone]; decide)
    have hrows := eventRows_eq_of_rows h.rows h.feedGood h.indexed hquiet hfrom
      (lt_of_le_of_lt (min_le_right _ _) hbound)
    exact congrArg (· >>= _) hrows
  · -- both refuse, with the view's own floor
    simp only [View.getEvents]
    rw [if_pos (Nat.not_le.mp hfloor), if_pos (Nat.not_le.mp hfloor)]

/-! ## Runs of twins -/

/-- An operation on twins is answered alike and leaves twins. -/
theorem Twin.exec (h : Twin m f) {op : StoreOp} (haddr : op.Addressable) (hagree : Agrees m op) :
    SameResult (exec m op).1 (exec f op).1 ∧ Twin (exec m op).2 (exec f op).2 := by
  cases op with
  | metaGet key => exact ⟨.answer .text (h.metas key), h⟩
  | metaSet key value => exact ⟨.of_eq rfl, h.metaSet key value⟩
  | isEmpty => exact ⟨.answer .flag h.isEmpty_eq, h⟩
  | blockHash number =>
      have hm : ConsumerStore.blockHash m number = ConsumerStore.blockHash f number := by
        rw [LawfulStore.blockHash_eq m number (lt_trans haddr (by decide)),
          LawfulStore.blockHash_eq f number haddr]
        exact congrArg (fun r : Rows => (r.blocks number).map (·.hash)) h.rows
      exact ⟨.answer .hash hm, h⟩
  | blockHashes range =>
      exact ⟨.result .hashes (h.blockHashes_eq haddr), h⟩
  | readSlotAsOf slot bound =>
      exact ⟨.answer (fun r => .slots [r]) (h.readSlotAsOf_eq slot haddr), h⟩
  | fullSlotSetAsOf block =>
      refine ⟨fun e => ?_, h⟩
      rw [← Prod.eta e]
      refine (MemStore.mem_fullSlotSetAsOf m block e.1 e.2).trans ?_
      rw [h.readSlotAsOf_eq e.1 haddr]
      exact (FeedStore.mem_fullSlotSetAsOf f block e.1 e.2).symm
  | storageRootAt block =>
      exact ⟨.of_eq rfl, ⟨h.memGood.blocks, h.memGood.events, h.memGood.storage,
        h.memGood.canonical⟩, h.feedGood, h.indexed, h.rows, h.metas, h.notes⟩
  | view block => exact ⟨.result .view (h.view_eq block), h⟩
  | readSlotsWithBlock v slots =>
      have hm : v.readSlotsWithBlock m slots = v.readSlotsWithBlock f slots :=
        List.map_congr_left fun slot _ => h.readSlotAsOf_eq slot haddr
      exact ⟨.answer .slots hm, h⟩
  | getEvents v filters fromBlock toBlock =>
      obtain ⟨hbound, hfrom, -, hle⟩ := haddr
      exact ⟨.result .events (h.getEvents_eq hbound hfrom hle hagree filters), h⟩
  | resetMirror => exact ⟨.of_eq rfl, h.resetMirror⟩
  | installSnapshot slots writes => exact ⟨.of_eq rfl, h.installSnapshot haddr writes⟩
  | replaceRange range blocks writes bump =>
      -- an addressable range is proper, so neither store panics
      have hproper : range.Proper := by
        cases range with
        | inclusive first last => exact haddr.1.1
        | above floor => trivial
      obtain ⟨m', hm'⟩ := LawfulStore.replaceRange_ok m blocks writes bump hproper
      have hgen : bump = true →
          GenerationReads (metaAfter writes "tail_generation" m.metas["tail_generation"]?) := by
        rintro rfl
        exact hagree
      have htwin := h.replaceRange haddr.1 haddr.2 hgen hm'
      simp only [Consumer.exec, hm']
      exact ⟨.of_eq rfl, htwin⟩
  | tailGeneration =>
      have hm : m.tailGeneration = f.tailGeneration := by
        rw [MemStore.tailGeneration, FeedStore.tailGeneration, h.metas]
      exact ⟨.answer .number hm, h⟩
  | notes owner => exact ⟨.answer .notes (h.notes.sorted_eq owner), h⟩
  | upsertNote n => exact ⟨.of_eq rfl, h.upsertNote haddr.1 haddr.2.1 haddr.2.2⟩
  | setNoteSpent noteId spent => exact ⟨.of_eq rfl, h.setNoteSpent noteId spent⟩
  | deleteNote noteId => exact ⟨.of_eq rfl, h.withNotes (h.notes.erase noteId)⟩
  | deleteOwnerNotes owner =>
      exact ⟨.answer .number (h.notes.deleted_eq owner),
        h.withNotes (h.notes.filter_owner owner)⟩

theorem Twin.answers : ∀ {ops : List StoreOp} {m : MemStore pedersen} {f : FeedStore pedersen},
    Twin m f → (∀ op ∈ ops, op.Addressable) → AgreesAll m ops →
    List.Forall₂ SameResult (answers m ops) (answers f ops)
  | [], _, _, _, _, _ => .nil
  | op :: ops, m, f, h, haddr, hagree => by
      obtain ⟨hop, hops⟩ := List.forall_mem_cons.mp haddr
      obtain ⟨hsame, htwin⟩ := h.exec hop hagree.1
      exact .cons hsame (Twin.answers htwin hops hagree.2)

end

/-- **One behaviour.** Every sequence of operations whose event queries start
below the floor, or at or below their view's bound, or find no event stored yet,
and whose generations both stores read, is answered alike by a fresh in-memory
store and a fresh SQLite store. -/
theorem memStore_answers_feedStore (pedersen : Felt → Felt → Felt) (ops : List StoreOp)
    (haddr : ∀ op ∈ ops, op.Addressable) (hagree : AgreesAll (MemStore.new pedersen) ops) :
    List.Forall₂ SameResult (answers (MemStore.new pedersen) ops)
      (answers (FeedStore.new pedersen) ops) :=
  (Twin.new pedersen).answers haddr hagree

namespace Diverging

def hash (a b : Felt) : Felt := a + 2 * b

/-- Block 4 with a slot and an event. -/
def block : BlockLine := ⟨4, 11, 10, 0, [(1, 5)], [⟨0, 0, 12, [7], [8]⟩], none, none⟩

def stored : StoreOp := .replaceRange (.inclusive 4 4) [(block, true)] [("tail_generation", "41")] true

/-- A query above the bound while there are no events, a stored block that bumps the
generation it writes, and queries at and below the bound. -/
def alike : List StoreOp :=
  [.view 9, .getEvents ⟨9, 0⟩ [] (.number 11) (.number 12), stored, .tailGeneration,
    .getEvents ⟨9, 0⟩ [] (.number 1) .other, .getEvents ⟨9, 3⟩ [] (.number 2) (.number 20)]

/-- Block 4 is stored, and a view at block 5 is asked for the events of the blocks 7 to 9. -/
def aboveBound : List StoreOp :=
  [.replaceRange (.inclusive 4 4) [(block, true)] [] false, .view 5,
    .getEvents ⟨5, 0⟩ [] (.number 7) (.number 9)]

theorem block_bounded : block.Bounded :=
  ⟨by decide, by decide, by simp [block, EventLine.Bounded]⟩

theorem addressable_alike : ∀ op ∈ alike, op.Addressable := by
  simp [alike, stored, StoreOp.Addressable, Range.Addressable, BlockId.num, block_bounded]
  simp [block]

theorem agreesAll_alike : AgreesAll (MemStore.new hash) alike := by
  have hreads : GenerationReads (some "41") := ⟨by decide, by decide⟩
  refine ⟨trivial, Or.inr (Or.inr rfl), ?_, trivial, Or.inr (Or.inl ?_), Or.inl ?_, trivial⟩
  · show GenerationReads (metaAfter [("tail_generation", "41")] "tail_generation" none)
    simpa [metaAfter] using hreads
  · decide
  · decide

theorem addressable_aboveBound : ∀ op ∈ aboveBound, op.Addressable := by
  simp [aboveBound, StoreOp.Addressable, Range.Addressable, BlockId.num, block_bounded]
  simp [block]

end Diverging

theorem memStore_answers_feedStore_alike :
    List.Forall₂ SameResult (answers (MemStore.new Diverging.hash) Diverging.alike)
      (answers (FeedStore.new Diverging.hash) Diverging.alike) :=
  memStore_answers_feedStore Diverging.hash Diverging.alike Diverging.addressable_alike
    Diverging.agreesAll_alike

/-- With an event stored, the query of a view above its bound panics in memory and is empty
in SQLite. -/
theorem memStore_panics_above_bound :
    ¬ ∀ (pedersen : Felt → Felt → Felt) (ops : List StoreOp), (∀ op ∈ ops, op.Addressable) →
      List.Forall₂ SameResult (answers (MemStore.new pedersen) ops)
        (answers (FeedStore.new pedersen) ops) := by
  intro hall
  have hsame := hall Diverging.hash Diverging.aboveBound Diverging.addressable_aboveBound
  have hmem : answers (MemStore.new Diverging.hash) Diverging.aboveBound =
      [.ok .done, .ok (.view ⟨5, 0⟩), .error .panicked] := by
    rfl
  have hfeed : answers (FeedStore.new Diverging.hash) Diverging.aboveBound =
      [.ok .done, .ok (.view ⟨5, 0⟩), .ok (.events [])] := by
    rfl
  rw [hmem, hfeed] at hsame
  cases hsame with
  | cons _ hrest =>
      cases hrest with
      | cons _ hrest =>
          cases hrest with
          | cons hquery _ => exact hquery

end Strk20.Consumer
