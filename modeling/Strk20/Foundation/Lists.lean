import Mathlib.Data.List.Basic
import Mathlib.Data.List.Lookmap
import Mathlib.Data.List.Perm.Basic

/-!
# Sorted slices and association lists

Small facts about lists that sorted tables are read with: on a list where
`p` never comes back once it has failed, a binary-searched split point is the
split by `p` (`take_partitionPoint`, `drop_partitionPoint`), an ascending list
is its members (`eq_of_ascending`), and the slot function of an association
list (`assoc`).
-/

namespace Strk20.Lists

universe u v

variable {α : Type u} {β : Type v}

/-- `slice::partition_point`: the index of the first element that fails `p`. -/
def partitionPoint (p : α → Bool) (xs : List α) : Nat := (xs.takeWhile p).length

/-- `p` never comes back once it has failed. -/
def Partitioned (p : α → Bool) (xs : List α) : Prop :=
  xs.Pairwise fun a b => p b = true → p a = true

theorem take_partitionPoint {p : α → Bool} : ∀ {xs : List α}, Partitioned p xs →
    xs.take (partitionPoint p xs) = xs.filter p
  | [], _ => rfl
  | x :: xs, h => by
      obtain ⟨hx, hxs⟩ := List.pairwise_cons.mp h
      by_cases hp : p x = true
      · have ih := take_partitionPoint hxs
        simp only [partitionPoint] at ih
        simp [partitionPoint, hp, ih]
      · have hnone : xs.filter p = [] :=
          List.filter_eq_nil_iff.mpr fun y hy hpy => hp (hx y hy hpy)
        simp [partitionPoint, hp, hnone]

theorem drop_partitionPoint {p : α → Bool} : ∀ {xs : List α}, Partitioned p xs →
    xs.drop (partitionPoint p xs) = xs.filter fun x => !p x
  | [], _ => rfl
  | x :: xs, h => by
      obtain ⟨hx, hxs⟩ := List.pairwise_cons.mp h
      by_cases hp : p x = true
      · have ih := drop_partitionPoint hxs
        simp only [partitionPoint] at ih
        simp [partitionPoint, hp, ih]
      · have hall : xs.filter (fun x => !p x) = xs :=
          List.filter_eq_self.mpr fun y hy => by
            have := mt (hx y hy) hp
            simpa using this
        simp [partitionPoint, hp, hall]

/-- Lists that ascend by a measure are equal when they have the same members. -/
theorem eq_of_ascending (f : α → Nat) {xs ys : List α} (hx : xs.Pairwise fun a b => f a < f b)
    (hy : ys.Pairwise fun a b => f a < f b) (h : ∀ a, a ∈ xs ↔ a ∈ ys) : xs = ys := by
  have hne : ∀ {l : List α}, (l.Pairwise fun a b => f a < f b) → l.Nodup := fun hl =>
    hl.imp fun hab heq => absurd (congrArg f heq) (Nat.ne_of_lt hab)
  refine List.Perm.eq_of_pairwise (fun a b _ _ hab hba => ?_) hx hy
    ((List.perm_ext_iff_of_nodup (hne hx) (hne hy)).mpr h)
  exact absurd hab (Nat.lt_asymm hba)

section Assoc

variable [DecidableEq α] [Zero β]

/-- The value an association list gives a key, `0` when it has none. -/
def assoc (es : List (α × β)) (k : α) : β := (es.lookup k).getD 0

@[simp] theorem assoc_nil (k : α) : assoc ([] : List (α × β)) k = 0 := rfl

theorem assoc_cons (e : α × β) (es : List (α × β)) (k : α) :
    assoc (e :: es) k = if k = e.1 then e.2 else assoc es k := by
  obtain ⟨a, b⟩ := e
  by_cases h : k = a
  · simp [assoc, h]
  · simp [assoc, List.lookup_cons, h, beq_eq_false_iff_ne.mpr h]

/-- With distinct keys, an entry is what its key reads. -/
theorem assoc_of_mem {k : α} {v : β} : ∀ {es : List (α × β)},
    (es.map Prod.fst).Nodup → (k, v) ∈ es → assoc es k = v
  | [], _, h => absurd h (by simp)
  | e :: es, hnd, h => by
      rw [List.map_cons, List.nodup_cons] at hnd
      rw [assoc_cons]
      rcases List.mem_cons.mp h with rfl | hmem
      · simp
      · have hne : k ≠ e.1 := by
          rintro rfl
          exact hnd.1 (List.mem_map.mpr ⟨_, hmem, rfl⟩)
        rw [if_neg hne]
        exact assoc_of_mem hnd.2 hmem

/-- A nonzero read is an entry. -/
theorem mem_of_assoc_ne_zero {k : α} : ∀ {es : List (α × β)},
    assoc es k ≠ 0 → (k, assoc es k) ∈ es
  | [], h => absurd rfl h
  | e :: es, h => by
      rw [assoc_cons] at h ⊢
      by_cases hk : k = e.1
      · rw [if_pos hk]
        exact List.mem_cons.mpr (Or.inl (by rw [hk]))
      · rw [if_neg hk] at h ⊢
        exact List.mem_cons_of_mem _ (mem_of_assoc_ne_zero h)

theorem assoc_eq_zero_of_not_mem {k : α} {es : List (α × β)}
    (h : k ∉ es.map Prod.fst) : assoc es k = 0 := by
  by_contra hne
  exact h (List.mem_map.mpr ⟨_, mem_of_assoc_ne_zero hne, rfl⟩)

/-- Two association lists with distinct keys and the same nonzero entries read
alike. -/
theorem assoc_congr_of_mem_iff {es fs : List (α × β)}
    (hes : (es.map Prod.fst).Nodup) (hfs : (fs.map Prod.fst).Nodup)
    (h : ∀ k v, v ≠ 0 → ((k, v) ∈ es ↔ (k, v) ∈ fs)) (k : α) :
    assoc es k = assoc fs k := by
  by_cases h0 : assoc es k = 0
  · by_contra hne
    have hf0 : assoc fs k ≠ 0 := fun hf => hne (h0.trans hf.symm)
    have hmem := (h k _ hf0).mpr (mem_of_assoc_ne_zero hf0)
    exact hne (assoc_of_mem hes hmem)
  · have hmem := (h k _ h0).mp (mem_of_assoc_ne_zero h0)
    exact (assoc_of_mem hfs hmem).symm

end Assoc

end Strk20.Lists
