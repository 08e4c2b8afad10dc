import Strk20.Consumer.Discover
import Strk20.Consumer.ColdStart
import Strk20.Consumer.FeedStore

/-!
# A store shared by owners

What the rewind rests on: the note registry is apart from the mirror, a block
hash is read where it was written, and the tail generation counts.
`SharedStore` is a lawful store that says so, with `Room` for how far it can
count.
-/

namespace Strk20.Consumer

open Feed

section

variable {S : Type} [LawfulStore S]

/-- Nothing but the note registry differs. -/
structure SameMirror (s s' : S) : Prop where
  metas : ∀ key, metaGet s' key = metaGet s key
  rows : LawfulStore.rows s' = LawfulStore.rows s
  slotSet : ConsumerStore.fullSlotSetAsOf s' = ConsumerStore.fullSlotSetAsOf s
  good : LawfulStore.Good s → LawfulStore.Good s'

theorem SameMirror.refl (s : S) : SameMirror s s := ⟨fun _ => rfl, rfl, rfl, id⟩

/-- The generation as it is stored. -/
def generation (s : S) : Nat := (metaU64 s "tail_generation").getD 0

/-- The counter is a plain `u64`, or was never bumped. -/
def Counted (s : S) : Prop :=
  metaGet s "tail_generation" = none ∨
    ∃ n < 2 ^ 64, metaGet s "tail_generation" = some n.repr

theorem Counted.metaGet_eq {s : S} (h : Counted s) (hsome : (metaGet s "tail_generation").isSome) :
    metaGet s "tail_generation" = some (generation s).repr := by
  rcases h with hnone | ⟨n, hn, heq⟩
  · rw [hnone] at hsome
    cases hsome
  · rw [generation, metaU64, heq, Option.bind_some, Text.parseU64_repr hn]
    rfl

end

/-- A range between numbers the store can address. -/
def Range.Fits (S : Type) [LawfulStore S] : Range → Prop
  | inclusive first last => LawfulStore.Fits S first ∧ LawfulStore.Fits S last
  | above floor => LawfulStore.Fits S floor

class SharedStore (S : Type) extends LawfulStore S where
  slotSet_metaSet : ∀ (s : S) (k v : String), fullSlotSetAsOf (metaSet s k v) = fullSlotSetAsOf s
  blockHash_good : ∀ {s : S} {n : Nat}, Good s → n < 2 ^ 64 →
    blockHash s n = ((rows s).blocks n).map (·.hash)
  fits_le : ∀ {m n : Nat}, m ≤ n → Fits n → Fits m
  fitsRange_inclusive : ∀ {first last : Nat}, Fits first → Fits last →
    FitsRange (.inclusive first last)
  fitsRange_above : ∀ {floor : Nat}, Fits floor → floor + 1 < 2 ^ 64 → FitsRange (.above floor)
  good_replaceRange : ∀ {s s' : S} {r : Range} {blocks : List (BlockLine × Bool)}
    {writes : List (String × String)} {bump : Bool}, Good s → r.Fits S →
    (∀ b ∈ blocks, Fits b.1.number ∧ b.1.Bounded) →
    replaceRange s r blocks writes bump = .ok s' → Good s'
  Room : Nat → Prop
  room_lt : ∀ n, Room n → n + 1 < 2 ^ 64
  tailGeneration_eq : ∀ s : S, tailGeneration s = generation s
  bump_replaceRange : ∀ {s s' : S} {r : Range} {blocks : List (BlockLine × Bool)}
    {writes : List (String × String)} {bump : Bool}, Counted s → Room (generation s) →
    metaAfter writes "tail_generation" (metaGet s "tail_generation") =
      metaGet s "tail_generation" →
    replaceRange s r blocks writes bump = .ok s' →
    metaGet s' "tail_generation" =
      if bump then some (generation s + 1).repr else metaGet s "tail_generation"
  upsertNote_mirror : ∀ (s : S) (n : NoteRow), SameMirror s (upsertNote s n)
  setNoteSpent_mirror : ∀ (s : S) (id : Felt) (spent : Bool), SameMirror s (setNoteSpent s id spent)
  deleteNote_mirror : ∀ (s : S) (id : Felt), SameMirror s (deleteNote s id)
  deleteOwnerNotes_mirror : ∀ (s : S) (owner : Felt), SameMirror s (deleteOwnerNotes s owner).2

namespace MemStore

variable {pedersen : Felt → Felt → Felt}

theorem sameMirror_notes (s : MemStore pedersen) (notes : Std.ExtTreeMap Key NoteRow) :
    SameMirror s { s with notes := notes } :=
  ⟨fun _ => rfl, rfl, rfl, fun h => ⟨h.blocks, h.events, h.storage, h.canonical⟩⟩

/-- A counter with room is bumped to the next number. -/
theorem nextGeneration_counted {s : MemStore pedersen} (hroom : generation s + 1 < 2 ^ 64) :
    nextGeneration (metaGet s "tail_generation") = (generation s + 1).repr := by
  rw [nextGeneration]
  exact congrArg Nat.repr (Nat.mod_eq_of_lt hroom)

instance : SharedStore (MemStore pedersen) where
  slotSet_metaSet _ _ _ := rfl
  blockHash_good _ _ := rfl
  fits_le hle hn := lt_of_le_of_lt hle hn
  fitsRange_inclusive _ _ := trivial
  fitsRange_above _ h := h
  good_replaceRange h _ hb hs := by
    obtain ⟨c, -, -, hgood⟩ := replaceRange_steps h (fun b hmem => (hb b hmem).1) hs
    exact hgood
  Room n := n + 1 < 2 ^ 64
  room_lt _ h := h
  tailGeneration_eq _ := rfl
  bump_replaceRange {s s' r blocks writes bump} _ hroom hkeep hs := by
    have hgen := generation_replaceRange hs
    have hkeep' : metaAfter writes "tail_generation" s.metas["tail_generation"]? =
        s.metas["tail_generation"]? := hkeep
    rw [hkeep'] at hgen
    refine hgen.trans ?_
    cases bump with
    | false => rfl
    | true => exact congrArg some (nextGeneration_counted hroom)
  upsertNote_mirror s n := by
    show SameMirror s (s.upsertNote n)
    rw [upsertNote]
    split
    · exact sameMirror_notes s _
    · exact sameMirror_notes s _
  setNoteSpent_mirror s id spent := by
    show SameMirror s (s.setNoteSpent id spent)
    rw [setNoteSpent]
    split
    · exact sameMirror_notes s _
    · exact SameMirror.refl s
  deleteNote_mirror s _ := sameMirror_notes s _
  deleteOwnerNotes_mirror s _ := sameMirror_notes s _

end MemStore

namespace FeedStore

variable {pedersen : Felt → Felt → Felt}

theorem sameMirror_notes (s : FeedStore pedersen) (notes : Std.ExtTreeMap Felt NoteRecord) :
    SameMirror s { s with notesRegistry := notes } :=
  ⟨fun _ => rfl, rfl, rfl, fun h => ⟨h.blocks, h.events, h.storage⟩⟩

theorem nextGeneration_counted {s : FeedStore pedersen} (hc : Counted s)
    (hroom : generation s + 1 < 2 ^ 63) :
    nextGeneration (metaGet s "tail_generation") = (generation s + 1).repr := by
  cases hm : metaGet s "tail_generation" with
  | none =>
      rw [generation, metaU64, hm]
      rfl
  | some text =>
      have htext := hc.metaGet_eq (by rw [hm]; rfl)
      rw [hm] at htext
      rw [Option.some.inj htext, nextGeneration, castInteger_repr (by omega), if_pos (by omega)]
      rfl

/-- A number that has gone through the sign is no row's. -/
theorem blockHash_of_good {s : FeedStore pedersen} {n : Nat} (h : s.Good) (hn : n < 2 ^ 64) :
    s.blockHash n = (s.rows.blocks n).map (·.hash) := by
  by_cases hlt : n < 2 ^ 63
  · exact LawfulStore.blockHash_eq s n hlt
  · have hnone : ∀ i : Int, ¬ (0 ≤ i ∧ i < 2 ^ 63) → s.blocks[i]? = none := by
      intro i hi
      by_contra hne
      exact hi (h.blocks i (Option.isSome_iff_ne_none.mpr hne))
    have hneg : toI64 n < 0 := by
      unfold toI64
      rw [Nat.mod_eq_of_lt hn]
      simp only
      rw [if_neg (by omega)]
      omega
    show (s.blocks[toI64 n]?).map (·.hash) = ((s.blocks[(n : Int)]?).map blockRecOf).map (·.hash)
    rw [hnone (toI64 n) (by omega), hnone n (by omega)]
    rfl

instance : SharedStore (FeedStore pedersen) where
  slotSet_metaSet _ _ _ := rfl
  blockHash_good h hn := blockHash_of_good h hn
  fits_le hle hn := lt_of_le_of_lt hle hn
  fitsRange_inclusive hfirst hlast := ⟨hfirst, hlast⟩
  fitsRange_above h _ := h
  good_replaceRange {s s' r blocks writes bump} h hr hb hs := by
    have hfits : FitsRange r := by
      cases r with
      | inclusive first last => exact hr
      | above floor => exact hr
    exact (LawfulStore.rows_replaceRange h hfits hb hs).2
  Room n := n + 1 < 2 ^ 63
  room_lt _ h := lt_trans h (by decide)
  tailGeneration_eq _ := rfl
  bump_replaceRange {s s' r blocks writes bump} hc hroom hkeep hs := by
    obtain rfl := Except.ok.inj hs
    have hgen := @generation_replaceRange pedersen s r blocks writes bump
    have hkeep' : metaAfter writes "tail_generation" s.metas["tail_generation"]? =
        s.metas["tail_generation"]? := hkeep
    rw [hkeep'] at hgen
    refine hgen.trans ?_
    cases bump with
    | false => rfl
    | true => exact congrArg some (nextGeneration_counted hc hroom)
  upsertNote_mirror s n := by
    show SameMirror s (s.upsertNote n)
    rw [upsertNote]
    split
    · exact sameMirror_notes s _
    · exact sameMirror_notes s _
  setNoteSpent_mirror s id spent := by
    show SameMirror s (s.setNoteSpent id spent)
    rw [setNoteSpent]
    split
    · exact sameMirror_notes s _
    · exact SameMirror.refl s
  deleteNote_mirror s _ := sameMirror_notes s _
  deleteOwnerNotes_mirror s _ := sameMirror_notes s _

end FeedStore

end Strk20.Consumer
