import Strk20.Consumer.Roots

/-!
# Event queries (`mem.rs`, `store.rs`)

`get_events` of a view over the in-memory store is the plain filter of the stored events,
and what the SQLite view answers, exactly when the query starts below the floor (it is
refused) or at or below its clamped end, or the map of events has no root. Any other query
hands `BTreeMap::range` a turned-around range, which panics.
-/

namespace Strk20.Consumer

open Feed Versioned Tables
open Std (ExtTreeMap)

/-- Every nonempty filter position holds the event's key there. -/
def KeysMatch (filters : List (List Felt)) (keys : List Felt) : Prop :=
  ∀ (i : Nat) (allowed : List Felt), filters[i]? = some allowed → allowed ≠ [] →
    ∃ k, keys[i]? = some k ∧ k ∈ allowed

theorem matchesKeys_iff (filters : List (List Felt)) (keys : List Felt) :
    matchesKeys filters keys = true ↔ KeysMatch filters keys := by
  unfold matchesKeys KeysMatch
  rw [List.all_eq_true]
  constructor
  · intro hall i allowed hi hne
    have hpos := hall (allowed, i) (List.mem_zipIdx_iff_getElem?.mpr hi)
    cases hk : keys[i]? with
    | none => simp [hk, hne] at hpos
    | some k =>
        simp only [hk, Bool.or_eq_true, List.isEmpty_iff, hne, false_or] at hpos
        exact ⟨k, rfl, List.contains_iff_mem.mp hpos⟩
  · intro hall e he
    rw [Bool.or_eq_true, List.isEmpty_iff]
    by_cases hne : e.1 = []
    · exact Or.inl hne
    · obtain ⟨k, hk, hmem⟩ := hall e.2 e.1 (List.mem_zipIdx_iff_getElem?.mp he) hne
      simp only [hk]
      exact Or.inr (List.contains_iff_mem.mpr hmem)

section

variable {pedersen : Felt → Felt → Felt} {m : MemStore pedersen}

/-- The answer of an event query is the plain filter of the stored events: never a panic, a
refusal exactly below the floor, otherwise the events of the range whose block is there
and whose keys match, in order; and a SQLite store of the same rows answers the same. -/
structure AnswersPlainly (m : MemStore pedersen) (v : View) (filters : List (List Felt))
    (fromBlock toBlock : BlockId) : Prop where
  quiet : v.getEvents m filters fromBlock toBlock ≠ .error .panicked
  refuses : (∃ e, v.getEvents m filters fromBlock toBlock = .error e) ↔
    fromBlock.num 0 < v.historyFloor
  events : ∀ l, v.getEvents m filters fromBlock toBlock = .ok l →
    (∀ e, e ∈ l ↔ EventAt m.rows (fromBlock.num 0) (min (toBlock.num v.bound) v.bound) e ∧
      KeysMatch filters e.keys) ∧ l.Pairwise EventBefore
  client : ∀ f : FeedStore pedersen, f.Good → f.Indexed → m.rows = f.rows →
    v.getEvents f filters fromBlock toBlock = v.getEvents m filters fromBlock toBlock

theorem getEvents_below {S : Type} [ConsumerStore S] {v : View} {fromBlock : BlockId}
    (h : fromBlock.num 0 < v.historyFloor) (s : S) (filters : List (List Felt))
    (toBlock : BlockId) : ∃ text, v.getEvents s filters fromBlock toBlock = .error (.bail text) :=
  ⟨_, if_pos h⟩

/-- A query above the floor that does not panic. -/
theorem getEvents_quiet {v : View} {fromBlock toBlock : BlockId}
    (hfloor : v.historyFloor ≤ fromBlock.num 0)
    (hquiet : ¬ (min (toBlock.num v.bound) v.bound < fromBlock.num 0 ∧ m.eventsRoot))
    (filters : List (List Felt)) :
    ∃ rows, m.eventRows (fromBlock.num 0) (min (toBlock.num v.bound) v.bound) = .ok rows ∧
      v.getEvents m filters fromBlock toBlock =
        .ok (rows.filter fun e => matchesKeys filters e.keys) := by
  obtain ⟨rows, hrows⟩ : ∃ rows, m.eventRows (fromBlock.num 0)
      (min (toBlock.num v.bound) v.bound) = .ok rows := ⟨_, if_neg hquiet⟩
  refine ⟨rows, hrows, ?_⟩
  have hquery : ConsumerStore.eventRows m (fromBlock.num 0) (min (toBlock.num v.bound) v.bound) =
      .ok rows := hrows
  rw [View.getEvents_of_le hfloor, hquery]
  rfl

/-- **Event queries agree with the plain filter** exactly when they start below the floor,
start at or below their clamped end, or find a map of events without a root. -/
theorem getEvents_plain_iff (m : MemStore pedersen) (v : View) (filters : List (List Felt))
    (fromBlock toBlock : BlockId) (hbound : v.bound < 2 ^ 63) (hfrom : fromBlock.num 0 < 2 ^ 63) :
    AnswersPlainly m v filters fromBlock toBlock ↔
      fromBlock.num 0 < v.historyFloor ∨
        fromBlock.num 0 ≤ min (toBlock.num v.bound) v.bound ∨ m.eventsRoot = false := by
  constructor
  · intro h
    by_contra hnot
    rw [not_or, not_or, Nat.not_lt, Nat.not_le, Bool.not_eq_false] at hnot
    obtain ⟨hfloor, hinverted, hroot⟩ := hnot
    apply h.quiet
    rw [MemStore.getEvents_panics]
    simp [Roots.panics, MemStore.roots, hfloor, hinverted, hroot]
  · intro hcond
    by_cases hfloor : fromBlock.num 0 < v.historyFloor
    · obtain ⟨text, htext⟩ := getEvents_below hfloor m filters toBlock
      refine ⟨?_, ⟨fun _ => hfloor, fun _ => ⟨_, htext⟩⟩, ?_, ?_⟩
      · rw [htext]
        intro heq
        cases heq
      · intro l hl
        rw [htext] at hl
        cases hl
      · -- both refuse, with the view's own floor
        intro f _ _ _
        rw [View.getEvents, View.getEvents, if_pos hfloor, if_pos hfloor]
    · have hle := Nat.not_lt.mp hfloor
      have hquiet : ¬ (min (toBlock.num v.bound) v.bound < fromBlock.num 0 ∧ m.eventsRoot) := by
        rintro ⟨hinverted, hroot⟩
        rcases hcond.resolve_left hfloor with hproper | hnone
        · exact absurd hinverted (Nat.not_lt.mpr hproper)
        · exact absurd hroot (by rw [hnone]; decide)
      obtain ⟨rows, hrows, hok⟩ := getEvents_quiet hle hquiet filters
      refine ⟨?_, ⟨?_, fun hlt => absurd hlt hfloor⟩, ?_, ?_⟩
      · rw [hok]
        intro heq
        cases heq
      · rintro ⟨e, he⟩
        rw [hok] at he
        cases he
      · intro l hl
        rw [hok, Except.ok.injEq] at hl
        subst hl
        refine ⟨fun e => ?_, (MemStore.eventRows_before hrows).sublist List.filter_sublist⟩
        rw [List.mem_filter, MemStore.mem_eventRows hrows, matchesKeys_iff]
      · intro f hgood hindexed hsame
        have hclient := eventRows_eq_of_rows hsame hgood hindexed hquiet hfrom
          (lt_of_le_of_lt (min_le_right _ _) hbound)
        rw [View.getEvents_of_le hle, View.getEvents_of_le hle]
        exact congrArg (· >>= _) hclient.symm

end

/-- The mirror that stored the events of block 4. -/
def oneEvent : MemStore Diverging.hash :=
  (exec (MemStore.new Diverging.hash)
    (.replaceRange (.inclusive 4 4) [(Diverging.block, true)] [] false)).2

/-- The events of the blocks 3 to 9 with the key 7. -/
theorem getEvents_plain_iff_oneEvent :
    AnswersPlainly oneEvent ⟨9, 3⟩ [[7]] (.number 3) .other :=
  (getEvents_plain_iff _ ⟨9, 3⟩ _ _ _ (by decide) (by decide)).mpr (Or.inr (Or.inl (by decide)))

/-- The events of the blocks 7 to 3, asked of a view at block 9: a panic. -/
theorem getEvents_inverted_panics :
    (View.mk 9 0).getEvents oneEvent [] (.number 7) (.number 3) = .error .panicked ∧
      ¬ AnswersPlainly oneEvent ⟨9, 0⟩ [] (.number 7) (.number 3) := by
  have hpanics : (View.mk 9 0).getEvents oneEvent [] (.number 7) (.number 3) =
      .error .panicked := rfl
  exact ⟨hpanics, fun h => h.quiet hpanics⟩

end Strk20.Consumer
