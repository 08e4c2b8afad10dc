import Mathlib.Data.List.Basic

/-!
# Rows with a key and a unique tag

A table with a primary key and a second unique column, as a partial function. To
put a row displaces every row with its key or its tag; to cut takes rows away by
key. The question here is when rows that were put and cut again have left no
trace under rows that are put later.
-/

namespace Strk20.Displace

universe u v w

variable {κ : Type u} {τ : Type v} {ε : Type w} [DecidableEq κ] [DecidableEq τ]

section

variable (tag : ε → τ)

/-- A row goes in; rows with its key or its tag go. -/
def put (f : κ → Option ε) (x : κ × ε) : κ → Option ε := fun k =>
  if k = x.1 then some x.2 else (f k).filter fun e => decide (tag e ≠ tag x.2)

def putAll (f : κ → Option ε) (xs : List (κ × ε)) : κ → Option ε := xs.foldl (put tag) f

/-- Whether some row of the list displaces the row `e` under `k`. -/
def Displaced (xs : List (κ × ε)) (k : κ) (e : ε) : Prop :=
  ∃ x ∈ xs, x.1 = k ∨ tag x.2 = tag e

end

/-- Only rows whose key is kept stay. -/
def cut (keep : κ → Bool) (f : κ → Option ε) : κ → Option ε := fun k =>
  if keep k then f k else none

variable {tag : ε → τ} {f g : κ → Option ε}

omit [DecidableEq κ] [DecidableEq τ] in
theorem displaced_cons {x : κ × ε} {xs : List (κ × ε)} {k : κ} {e : ε} :
    Displaced tag (x :: xs) k e ↔ (x.1 = k ∨ tag x.2 = tag e) ∨ Displaced tag xs k e := by
  unfold Displaced
  simp only [List.mem_cons, exists_eq_or_imp]

/-- A row that nothing displaces is there afterwards exactly if it was there. -/
theorem putAll_of_not_displaced {xs : List (κ × ε)} {k : κ} {e : ε}
    (h : ¬ Displaced tag xs k e) : putAll tag f xs k = some e ↔ f k = some e := by
  induction xs generalizing f with
  | nil => exact Iff.rfl
  | cons x xs ih =>
      rw [displaced_cons, not_or] at h
      obtain ⟨hx, hxs⟩ := h
      rw [not_or] at hx
      obtain ⟨hkey, htag⟩ := hx
      show putAll tag (put tag f x) xs k = some e ↔ f k = some e
      rw [ih hxs, put, if_neg fun hk => hkey hk.symm, Option.filter_eq_some_iff]
      simp only [ne_eq, decide_eq_true_eq, and_iff_left_iff_imp]
      exact fun _ heq => htag heq.symm

/-- Two tables that differ only in rows that will be displaced come out the same. -/
theorem putAll_congr {xs : List (κ × ε)}
    (h : ∀ k e, ¬ Displaced tag xs k e → (f k = some e ↔ g k = some e)) :
    putAll tag f xs = putAll tag g xs := by
  induction xs generalizing f g with
  | nil =>
      funext k
      refine Option.ext fun e => h k e ?_
      rintro ⟨x, hx, -⟩
      cases hx
  | cons x xs ih =>
      show putAll tag (put tag f x) xs = putAll tag (put tag g x) xs
      refine ih fun k e hxs => ?_
      unfold put
      by_cases hk : k = x.1
      · rw [if_pos hk, if_pos hk]
      · rw [if_neg hk, if_neg hk, Option.filter_eq_some_iff, Option.filter_eq_some_iff]
        refine and_congr_left fun htag => h k e ?_
        rw [displaced_cons, not_or, not_or]
        exact ⟨⟨fun heq => hk heq.symm, fun heq => of_decide_eq_true htag heq.symm⟩, hxs⟩

/-- Tables come out the same exactly if they differ only in displaced rows. -/
theorem putAll_eq_iff {xs : List (κ × ε)} :
    putAll tag f xs = putAll tag g xs ↔
      ∀ k e, ¬ Displaced tag xs k e → (f k = some e ↔ g k = some e) := by
  refine ⟨fun heq k e h => ?_, putAll_congr⟩
  rw [← putAll_of_not_displaced h, heq, putAll_of_not_displaced h]

/-- Off the keys of the list, a row is there afterwards exactly if it was there and
shares no tag with the list. -/
theorem putAll_off_keys {xs : List (κ × ε)} {k : κ} (hkeys : ∀ x ∈ xs, x.1 ≠ k) (e : ε) :
    putAll tag f xs k = some e ↔ (∀ x ∈ xs, tag x.2 ≠ tag e) ∧ f k = some e := by
  induction xs generalizing f with
  | nil => simp [putAll]
  | cons x xs ih =>
      have hrest := ih (f := put tag f x) fun y hy => hkeys y (List.mem_cons_of_mem x hy)
      show putAll tag (put tag f x) xs k = some e ↔ _
      rw [hrest, put, if_neg (hkeys x List.mem_cons_self).symm, Option.filter_eq_some_iff]
      simp only [List.mem_cons, forall_eq_or_imp, ne_eq, decide_eq_true_eq]
      constructor
      · rintro ⟨hxs, hf, hx⟩
        exact ⟨⟨fun heq => hx heq.symm, hxs⟩, hf⟩
      · rintro ⟨⟨hx, hxs⟩, hf⟩
        exact ⟨hxs, hf, fun heq => hx heq.symm⟩

/-- Rows put under keys that are then cut leave a table without the rows they displaced. -/
theorem cut_putAll {keep : κ → Bool} {xs : List (κ × ε)} (hxs : ∀ x ∈ xs, keep x.1 = false)
    (k : κ) (e : ε) :
    cut keep (putAll tag f xs) k = some e ↔
      keep k = true ∧ (∀ x ∈ xs, tag x.2 ≠ tag e) ∧ f k = some e := by
  unfold cut
  cases hk : keep k with
  | false => simp
  | true =>
      have hkeys : ∀ x ∈ xs, x.1 ≠ k := by
        rintro x hx rfl
        rw [hxs x hx] at hk
        cases hk
      simp only [if_true, true_and]
      exact putAll_off_keys hkeys e

/-- **Rows that were put and cut again leave no trace** exactly if every row that no
later one displaces has a kept key and shares no tag with them. -/
theorem putAll_cut_putAll_iff {keep : κ → Bool} {xs ys : List (κ × ε)}
    (hxs : ∀ x ∈ xs, keep x.1 = false) :
    putAll tag (cut keep (putAll tag f xs)) ys = putAll tag f ys ↔
      ∀ k e, f k = some e → ¬ Displaced tag ys k e →
        keep k = true ∧ ∀ x ∈ xs, tag x.2 ≠ tag e := by
  rw [putAll_eq_iff]
  constructor
  · intro h k e hf hys
    obtain ⟨hk, htags, -⟩ := (cut_putAll hxs k e).mp ((h k e hys).mpr hf)
    exact ⟨hk, htags⟩
  · intro h k e hys
    rw [cut_putAll hxs]
    refine ⟨fun hcut => hcut.2.2, fun hf => ?_⟩
    obtain ⟨hk, htags⟩ := h k e hf hys
    exact ⟨hk, htags, hf⟩

end Strk20.Displace
