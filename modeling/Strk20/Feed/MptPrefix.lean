import Strk20.Feed.MptRoot

/-!
# Subtrees of a slot set by prefix (`mpt.rs`)

`entriesWithPrefix` cuts a run out of the sorted entries and `subtreeHashAt` hashes
it. The run is the entries under the prefix, and the hash the Patricia root below it.
-/

namespace Strk20.Lists

/-- Between two split points lies what passes the one test and fails the other. -/
theorem slice_partitionPoint {α : Type} {p q : α → Bool} {xs : List α} (hp : Partitioned p xs)
    (hq : Partitioned q xs) (hpq : ∀ x ∈ xs, p x = true → q x = true) :
    (xs.take (partitionPoint q xs)).drop (partitionPoint p xs) = xs.filter fun x => q x && !p x := by
  induction xs with
  | nil => rfl
  | cons x xs ih =>
      obtain ⟨hpx, hpxs⟩ := List.pairwise_cons.mp hp
      obtain ⟨hqx, hqxs⟩ := List.pairwise_cons.mp hq
      obtain ⟨hx, hxs⟩ := List.forall_mem_cons.mp hpq
      by_cases hpass : p x = true
      · have hcut : ∀ r : α → Bool, r x = true →
            partitionPoint r (x :: xs) = partitionPoint r xs + 1 := by
          intro r hr
          simp [partitionPoint, hr]
        rw [hcut p hpass, hcut q (hx hpass), List.take_succ_cons, List.drop_succ_cons,
          ih hpxs hqxs hxs]
        simp [hpass]
      · have hzero : partitionPoint p (x :: xs) = 0 := by simp [partitionPoint, hpass]
        rw [hzero, List.drop_zero, take_partitionPoint hq]
        refine List.filter_congr fun y hy => ?_
        have hy' : p y = false := by
          rcases List.mem_cons.mp hy with rfl | hy
          · simpa using hpass
          · have := mt (hpx y hy) hpass
            simpa using this
        simp [hy']

end Strk20.Lists

namespace Strk20.Patricia

/-- The root of a subtree with a slot is not that of the empty one. -/
theorem root_ne_zero {V : Type} [Zero V] [DecidableEq V] {H : Hashing V} {h : Nat}
    {f : List Bool → V} (hnz : ∀ b, NodeAt H h f b → H.hash b ≠ 0)
    (hslot : ∃ k : List Bool, k.length = h ∧ f k ≠ 0) : root H h f ≠ 0 := by
  obtain ⟨k, hk, hne⟩ := hslot
  intro hroot
  cases h with
  | zero =>
      rw [root_zero] at hroot
      rw [List.length_eq_zero_iff.mp hk] at hne
      exact hne hroot
  | succ h => exact hne (root_eq_zero_inv hnz hroot k hk)

end Strk20.Patricia

namespace Strk20.Feed.Mpt

open BitPath Strk20.Lists Patricia

theorem le_take : ∀ {a b : List Bool} (d : Nat), le a b = true → le (a.take d) (b.take d) = true
  | _, _, 0, _ => by simp
  | [], _, _ + 1, _ => by simp [le]
  | _ :: _, [], _ + 1, h => by simp [le] at h
  | x :: a, y :: b, d + 1, h => by
      by_cases hxy : x = y
      · subst hxy
        simp only [le, if_true] at h
        simpa [le] using le_take d h
      · cases x <;> cases y <;> simp_all [le]

/-- The run of entries that is cut out is the entries under the prefix. -/
theorem entriesWithPrefix_eq_filter {sorted : List (List Bool × Felt)} (hsorted : BitSorted sorted)
    (pre : List Bool) :
    entriesWithPrefix sorted pre = sorted.filter fun e => pre.isPrefixOf e.1 := by
  have hhi : Partitioned (fun e : List Bool × Felt => le (e.1.take pre.length) pre) sorted :=
    hsorted.imp fun {a b} hab hb => BitPath.le_trans (le_take pre.length hab.1) hb
  have hlo : Partitioned (fun e : List Bool × Felt => !le pre (e.1.take pre.length)) sorted := by
    refine hsorted.imp fun {a b} hab hb => ?_
    rw [Bool.not_eq_true'] at hb ⊢
    cases hle : le pre (a.1.take pre.length) with
    | false => rfl
    | true =>
        rw [BitPath.le_trans hle (le_take pre.length hab.1)] at hb
        cases hb
  have hsub : ∀ e ∈ sorted, (!le pre (e.1.take pre.length)) = true →
      le (e.1.take pre.length) pre = true := by
    intro e _ he
    have htotal := BitPath.le_total pre (e.1.take pre.length)
    rw [Bool.not_eq_true'] at he
    rw [he, Bool.false_or] at htotal
    exact htotal
  unfold entriesWithPrefix
  simp only
  rw [slice_partitionPoint hlo hhi hsub]
  refine List.filter_congr fun e he => ?_
  rw [Bool.eq_iff_iff, Bool.not_not, Bool.and_eq_true, List.isPrefixOf_iff_prefix,
    List.prefix_iff_eq_take]
  constructor
  · rintro ⟨hle, hge⟩
    exact BitPath.le_antisymm hge hle
  · intro heq
    rw [← heq]
    exact ⟨le_refl pre, le_refl pre⟩

theorem entriesWithPrefix_nil {sorted : List (List Bool × Felt)} (hsorted : BitSorted sorted) :
    entriesWithPrefix sorted [] = sorted := by
  rw [entriesWithPrefix_eq_filter hsorted]
  exact List.filter_eq_self.mpr fun e _ => rfl

theorem assoc_suffixes_filter (pre k : List Bool) (es : List (List Bool × Felt)) :
    assoc (suffixes pre.length (es.filter fun e => pre.isPrefixOf e.1)) k = assoc es (pre ++ k) := by
  induction es with
  | nil => rfl
  | cons e es ih =>
      unfold suffixes at ih ⊢
      by_cases hpre : pre <+: e.1
      · obtain ⟨t, ht⟩ := hpre
        have hkeep : pre.isPrefixOf e.1 = true :=
          List.isPrefixOf_iff_prefix.mpr ⟨t, ht⟩
        have hkey : (k = e.1.drop pre.length) ↔ (pre ++ k = e.1) := by
          rw [← ht, List.drop_left, List.append_cancel_left_eq]
        rw [List.filter_cons, if_pos hkeep, List.map_cons, assoc_cons, assoc_cons, ih]
        simp only [hkey]
      · have hskip : ¬ pre.isPrefixOf e.1 = true := fun h =>
          hpre (List.isPrefixOf_iff_prefix.mp h)
        rw [List.filter_cons, if_neg hskip, ih, assoc_cons, if_neg]
        intro heq
        exact hpre ⟨k, heq⟩

section

variable (pedersen : Felt → Felt → Felt) {entries : List (Felt × Felt)}

theorem mem_bitEntries_length {e : List Bool × Felt} (he : e ∈ bitEntries entries) :
    e.1.length = TREE_HEIGHT ∧ e.2 ≠ 0 := by
  obtain ⟨k, -, hnz, hk⟩ := mem_of_mem_bitEntries (v := e.2) he
  rw [hk]
  exact ⟨length_keyBits k, hnz⟩

/-- The hash at a prefix of any entry list, as the root of its sorted form below it. -/
theorem subtreeHashAt_eq_root_assoc {pre : List Bool} (hpre : pre.length ≤ TREE_HEIGHT) :
    subtreeHashAt pedersen (bitEntries entries) pre =
      root (feltHashing pedersen) (TREE_HEIGHT - pre.length)
        (below (assoc (bitEntries entries)) pre) := by
  have hrun := entriesWithPrefix_eq_filter (bitEntries_sorted entries) pre
  have hsorted : BitSorted (suffixes pre.length
      ((bitEntries entries).filter fun e => pre.isPrefixOf e.1)) := by
    unfold BitSorted suffixes
    rw [List.pairwise_map, List.pairwise_filter]
    refine (bitEntries_sorted entries).imp fun {a b} hab ha hb => ?_
    obtain ⟨s, hs⟩ := List.isPrefixOf_iff_prefix.mp ha
    obtain ⟨t, ht⟩ := List.isPrefixOf_iff_prefix.mp hb
    rw [← hs, ← ht, le_append_left_iff] at hab
    rw [← hs, ← ht, List.drop_left, List.drop_left]
    exact ⟨hab.1, fun heq => hab.2 (congrArg (pre ++ ·) heq)⟩
  have hsub := subtree_eq_summary pedersen (TREE_HEIGHT - pre.length) pre.length
    ((bitEntries entries).filter fun e => pre.isPrefixOf e.1)
    (fun e he => by
      obtain ⟨hl, hnz⟩ := mem_bitEntries_length (List.mem_of_mem_filter he)
      exact ⟨by omega, hnz⟩) hsorted
  have hroot : subtreeHashAt pedersen (bitEntries entries) pre =
      root (feltHashing pedersen) (TREE_HEIGHT - pre.length) (assoc (suffixes pre.length
        ((bitEntries entries).filter fun e => pre.isPrefixOf e.1))) := by
    unfold subtreeHashAt root
    simp only [hrun, hsub]
    cases summary (feltHashing pedersen) (TREE_HEIGHT - pre.length) (assoc (suffixes pre.length
        ((bitEntries entries).filter fun e => pre.isPrefixOf e.1))) with
    | none => rfl
    | some n => exact resolve_eq pedersen n
  rw [hroot]
  refine root_congr fun k _ => ?_
  rw [assoc_suffixes_filter, below_apply]

/-- **The hash at a prefix is the root below it.** -/
theorem subtreeHashAt_eq_root (h : SlotSet entries) {pre : List Bool}
    (hpre : pre.length ≤ TREE_HEIGHT) :
    subtreeHashAt pedersen (bitEntries entries) pre =
      root (feltHashing pedersen) (TREE_HEIGHT - pre.length) (below (slotFn entries) pre) := by
  rw [subtreeHashAt_eq_root_assoc pedersen hpre]
  refine root_congr fun k hk => ?_
  rw [below_apply, below_apply, assoc_bitEntries h]
  rw [List.length_append, hk]
  omega

end

end Strk20.Feed.Mpt
