import Std.Data.ExtTreeMap.Lemmas

/-!
# Ordered tables

Ordered maps with a lawful comparison, read through `t[k]?`. The library
states its update lemmas up to the comparison; the forms below are up to
equality of keys, which is how a table with a primary key is used.
-/

namespace Strk20.Tables

open Std (ExtTreeMap TransCmp LawfulEqCmp)

universe u v

variable {α : Type u} {β : Type v} {cmp : α → α → Ordering} [TransCmp cmp] [LawfulEqCmp cmp]

theorem getElem?_insert_eq [DecidableEq α] (t : ExtTreeMap α β cmp) (k a : α) (v : β) :
    (t.insert k v)[a]? = if a = k then some v else t[a]? := by
  rw [ExtTreeMap.getElem?_insert]
  by_cases h : a = k
  · rw [if_pos h, if_pos (by rw [h]; exact Std.ReflCmp.compare_self)]
  · rw [if_neg h, if_neg fun hc => h (LawfulEqCmp.eq_of_compare hc).symm]

theorem getElem?_erase_eq [DecidableEq α] (t : ExtTreeMap α β cmp) (k a : α) :
    (t.erase k)[a]? = if a = k then none else t[a]? := by
  rw [ExtTreeMap.getElem?_erase]
  by_cases h : a = k
  · rw [if_pos h, if_pos (by rw [h]; exact Std.ReflCmp.compare_self)]
  · rw [if_neg h, if_neg fun hc => h (LawfulEqCmp.eq_of_compare hc).symm]

omit [LawfulEqCmp cmp] in
theorem contains_eq_isSome (t : ExtTreeMap α β cmp) (k : α) :
    t.contains k = (t[k]?).isSome := by
  rw [Bool.eq_iff_iff, ExtTreeMap.contains_iff_mem, ExtTreeMap.mem_iff_isSome_getElem?]

omit [LawfulEqCmp cmp] in
theorem contains_eq_false_iff (t : ExtTreeMap α β cmp) (k : α) :
    t.contains k = false ↔ t[k]? = none := by
  rw [contains_eq_isSome, Option.isSome_eq_false_iff, Option.isNone_iff_eq_none]

omit [LawfulEqCmp cmp] in
/-- Keys of a table appear once in its listing. -/
theorem toList_keys_ne (t : ExtTreeMap α β cmp) :
    t.toList.Pairwise fun a b => a.1 ≠ b.1 :=
  ExtTreeMap.distinct_keys_toList.imp fun {a b} h heq =>
    h (by rw [heq]; exact Std.ReflCmp.compare_self)

/-- A key survives a filter by its key or not at all. -/
theorem getElem?_filter_key (t : ExtTreeMap α β cmp) (p : α → Bool) (a : α) :
    (t.filter fun k _ => p k)[a]? = if p a then t[a]? else none := by
  rw [ExtTreeMap.getElem?_filter']
  cases t[a]? with
  | none => simp
  | some b => cases p a <;> simp

theorem isSome_of_filter_key {t : ExtTreeMap α β cmp} (p : α → Bool) {a : α}
    (h : (t.filter fun k _ => p k)[a]?.isSome) : t[a]?.isSome := by
  rw [getElem?_filter_key] at h
  split at h
  · exact h
  · cases h

/-- Tables that agree on the keys of a predicate list the same rows there. -/
theorem toList_filter_congr {t t' : ExtTreeMap α β cmp} (p : α → Bool)
    (h : ∀ a, p a = true → t[a]? = t'[a]?) :
    (t.toList.filter fun e => p e.1) = t'.toList.filter fun e => p e.1 := by
  have heq : (t.filter fun k _ => p k) = t'.filter fun k _ => p k := by
    refine ExtTreeMap.ext_getElem? fun a => ?_
    rw [getElem?_filter_key, getElem?_filter_key]
    split
    · exact h a ‹_›
    · rfl
  have hlist := congrArg ExtTreeMap.toList heq
  rwa [ExtTreeMap.toList_filter, ExtTreeMap.toList_filter] at hlist

/-- A row that is replaced keeps its place in the listing. -/
theorem toList_insert_of_split [DecidableEq α] {t : ExtTreeMap α β cmp} {a b : List (α × β)}
    {k : α} {v₀ : β} (h : t.toList = a ++ (k, v₀) :: b) (v : β) :
    (t.insert k v).toList = a ++ (k, v) :: b := by
  have hk : t[k]? = some v₀ := by
    rw [← ExtTreeMap.mem_toList_iff_getElem?_eq_some, h]
    simp
  have hmap : t.insert k v = t.map fun k' v' => if k' = k then v else v' := by
    refine ExtTreeMap.ext_getElem? fun x => ?_
    rw [getElem?_insert_eq, ExtTreeMap.getElem?_map]
    by_cases hx : x = k
    · subst hx
      rw [hk]
      simp
    · cases t[x]? <;> simp [hx]
  have hkeys := toList_keys_ne t
  rw [h, List.pairwise_append, List.pairwise_cons] at hkeys
  obtain ⟨-, ⟨hafter, -⟩, hbefore⟩ := hkeys
  have hkeep : ∀ xs : List (α × β), (∀ e ∈ xs, e.1 ≠ k) →
      xs.map (fun e => (e.1, if e.1 = k then v else e.2)) = xs := by
    intro xs hxs
    refine (List.map_congr_left fun e he => ?_).trans (List.map_id xs)
    rw [if_neg (hxs e he)]
    rfl
  rw [hmap, ExtTreeMap.toList_map, h, List.map_append, List.map_cons,
    hkeep a fun e he => hbefore e he (k, v₀) List.mem_cons_self,
    hkeep b fun e he => (hafter e he).symm, if_pos rfl]

omit [LawfulEqCmp cmp] in
theorem cmp_self_ne_lt (a : α) : cmp a a ≠ .lt := by
  have heq : cmp a a = .eq := Std.ReflCmp.compare_self
  rw [heq]
  exact nofun

/-- A row whose key is above all others comes last in the listing. -/
theorem toList_insert_last [DecidableEq α] {t : ExtTreeMap α β cmp} {k : α} (v : β)
    (h : ∀ e ∈ t.toList, cmp e.1 k = .lt) : (t.insert k v).toList = t.toList ++ [(k, v)] := by
  have hord : (t.toList ++ [(k, v)]).Pairwise fun a b => cmp a.1 b.1 = .lt := by
    rw [List.pairwise_append]
    refine ⟨ExtTreeMap.ordered_keys_toList, List.pairwise_singleton _ _, fun a ha b hb => ?_⟩
    rw [List.mem_singleton.mp hb]
    exact h a ha
  have hne : ∀ {l : List (α × β)}, (l.Pairwise fun a b => cmp a.1 b.1 = .lt) → l.Nodup := by
    intro l hl
    refine hl.imp fun {a b} hab heq => ?_
    rw [heq] at hab
    exact cmp_self_ne_lt b.1 hab
  refine List.Perm.eq_of_pairwise (fun a b _ _ hab hba => ?_) ExtTreeMap.ordered_keys_toList hord
    ((List.perm_ext_iff_of_nodup (hne ExtTreeMap.ordered_keys_toList) (hne hord)).mpr fun e => ?_)
  · exact absurd (TransCmp.lt_trans hab hba) (cmp_self_ne_lt a.1)
  · rw [List.mem_append, List.mem_singleton, ExtTreeMap.mem_toList_iff_getElem?_eq_some (k := e.1) (v := e.2),
      ExtTreeMap.mem_toList_iff_getElem?_eq_some (k := e.1) (v := e.2), getElem?_insert_eq]
    have hfresh : t[k]? = none := by
      cases hk : t[k]? with
      | none => rfl
      | some w =>
          exact absurd (h (k, w) (ExtTreeMap.mem_toList_iff_getElem?_eq_some.mpr hk)) (cmp_self_ne_lt k)
    by_cases hek : e.1 = k
    · rw [if_pos hek, hek, hfresh]
      constructor
      · intro hv
        exact Or.inr (Prod.ext hek (Option.some.inj hv).symm)
      · rintro (hv | rfl)
        · cases hv
        · rfl
    · rw [if_neg hek]
      refine ⟨Or.inl, ?_⟩
      rintro (hv | rfl)
      · exact hv
      · exact absurd rfl hek

omit [LawfulEqCmp cmp] in
/-- The last row of the listing has the greatest key. -/
theorem le_getLast {t : ExtTreeMap α β cmp} {e last : α × β} (hlast : t.toList.getLast? = some last)
    (he : e ∈ t.toList) : e = last ∨ cmp e.1 last.1 = .lt := by
  obtain ⟨pre, hpre⟩ := List.getLast?_eq_some_iff.mp hlast
  have hord : t.toList.Pairwise fun a b => cmp a.1 b.1 = .lt := ExtTreeMap.ordered_keys_toList
  rw [hpre] at hord he
  rcases List.mem_append.mp he with he | he
  · exact Or.inr ((List.pairwise_append.mp hord).2.2 e he last (List.mem_singleton_self last))
  · exact Or.inl (List.mem_singleton.mp he)

/-- Without its first row, the listing is the rest. -/
theorem toList_erase_head [DecidableEq α] {t : ExtTreeMap α β cmp} {k : α} {v : β}
    {rest : List (α × β)} (h : t.toList = (k, v) :: rest) : (t.erase k).toList = rest := by
  have hfilter : t.erase k = t.filter fun a _ => decide (a ≠ k) := by
    refine ExtTreeMap.ext_getElem? fun a => ?_
    rw [getElem?_erase_eq, getElem?_filter_key t fun a => decide (a ≠ k)]
    by_cases ha : a = k
    · simp [ha]
    · simp [ha]
  have hkeys := toList_keys_ne t
  rw [h, List.pairwise_cons] at hkeys
  rw [hfilter, ExtTreeMap.toList_filter, h, List.filter_cons_of_neg (by simp), List.filter_eq_self]
  exact fun e he => decide_eq_true (hkeys.1 e he).symm

omit [LawfulEqCmp cmp] in
theorem isEmpty_iff_getElem? (t : ExtTreeMap α β cmp) :
    t.isEmpty = true ↔ ∀ a : α, t[a]? = none := by
  rw [ExtTreeMap.isEmpty_iff, ExtTreeMap.eq_empty_iff_forall_contains]
  simp only [contains_eq_false_iff]

/-! ## Many insertions -/

/-- Rows written one after the other. -/
def insertAll (t : ExtTreeMap α β cmp) (es : List (α × β)) : ExtTreeMap α β cmp :=
  es.foldl (fun t e => t.insert e.1 e.2) t

theorem getElem?_insertAll_of_not_mem [DecidableEq α] {es : List (α × β)} {k : α}
    (h : k ∉ es.map Prod.fst) (t : ExtTreeMap α β cmp) : (insertAll t es)[k]? = t[k]? := by
  induction es generalizing t with
  | nil => rfl
  | cons e es ih =>
      rw [List.map_cons, List.mem_cons, not_or] at h
      show (insertAll (t.insert e.1 e.2) es)[k]? = t[k]?
      rw [ih h.2, getElem?_insert_eq, if_neg h.1]

theorem getElem?_insertAll_of_mem [DecidableEq α] {es : List (α × β)} {e : α × β} (hmem : e ∈ es)
    (hnodup : (es.map Prod.fst).Nodup) (t : ExtTreeMap α β cmp) :
    (insertAll t es)[e.1]? = some e.2 := by
  induction es generalizing t with
  | nil => cases hmem
  | cons e' es ih =>
      rw [List.map_cons, List.nodup_cons] at hnodup
      show (insertAll (t.insert e'.1 e'.2) es)[e.1]? = some e.2
      rcases List.mem_cons.mp hmem with rfl | hmem
      · rw [getElem?_insertAll_of_not_mem hnodup.1, getElem?_insert_eq, if_pos rfl]
      · exact ih hmem hnodup.2 _

/-- The last value that a list of rows gives a key. -/
def lastUnder {α : Type u} {β : Type v} [DecidableEq α] (es : List (α × β)) (k : α) : Option β :=
  ((es.filter fun e => e.1 = k).getLast?).map Prod.snd

theorem lastUnder_cons {α : Type u} {β : Type v} [DecidableEq α] (e : α × β) (es : List (α × β))
    (k : α) :
    lastUnder (e :: es) k = (lastUnder es k).or (if e.1 = k then some e.2 else none) := by
  unfold lastUnder
  by_cases hk : e.1 = k
  · rw [List.filter_cons_of_pos (by simpa using hk), List.getLast?_cons, if_pos hk]
    cases (es.filter fun e => e.1 = k).getLast? <;> rfl
  · rw [List.filter_cons_of_neg (by simpa using hk), if_neg hk, Option.or_none]

theorem lastUnder_eq_none_iff {α : Type u} {β : Type v} [DecidableEq α] {es : List (α × β)} {k : α} :
    lastUnder es k = none ↔ k ∉ es.map Prod.fst := by
  unfold lastUnder
  rw [Option.map_eq_none_iff, List.getLast?_eq_none_iff, List.filter_eq_nil_iff, List.mem_map]
  simp only [decide_eq_true_eq, not_exists, not_and]

/-- Rows under renamed keys. -/
theorem lastUnder_map {α : Type u} {β : Type v} {γ : Type u} [DecidableEq α] [DecidableEq γ]
    {f : α → γ} (hf : Function.Injective f) (es : List (α × β)) (k : α) :
    lastUnder (es.map fun e => (f e.1, e.2)) (f k) = lastUnder es k := by
  induction es with
  | nil => rfl
  | cons e es ih =>
      rw [List.map_cons, lastUnder_cons, lastUnder_cons, ih]
      by_cases hk : e.1 = k
      · rw [if_pos hk, if_pos (congrArg f hk)]
      · rw [if_neg hk, if_neg fun heq => hk (hf heq)]

/-- What many insertions leave under a key: the last row for it, else what was there. -/
theorem getElem?_insertAll [DecidableEq α] (t : ExtTreeMap α β cmp) (es : List (α × β)) (k : α) :
    (insertAll t es)[k]? = (lastUnder es k).or t[k]? := by
  induction es generalizing t with
  | nil => rfl
  | cons e es ih =>
      show (insertAll (t.insert e.1 e.2) es)[k]? = _
      rw [ih, lastUnder_cons, Option.or_assoc, getElem?_insert_eq]
      by_cases hk : e.1 = k
      · rw [if_pos hk, if_pos hk.symm, Option.some_or]
      · rw [if_neg hk, if_neg fun heq => hk heq.symm, Option.none_or]

/-- Rows that were written before others leave no trace exactly if each is written over
or was there already. -/
theorem insertAll_insertAll_eq_iff [DecidableEq α] (t : ExtTreeMap α β cmp) (es es' : List (α × β)) :
    insertAll (insertAll t es) es' = insertAll t es' ↔
      ∀ k v, lastUnder es k = some v → lastUnder es' k = none → t[k]? = some v := by
  constructor
  · intro heq k v hv hnone
    have hk := congrArg (fun t : ExtTreeMap α β cmp => t[k]?) heq
    simp only [getElem?_insertAll, hnone, hv, Option.none_or, Option.some_or] at hk
    exact hk.symm
  · intro h
    refine ExtTreeMap.ext_getElem? fun k => ?_
    rw [getElem?_insertAll, getElem?_insertAll, getElem?_insertAll]
    cases hlater : lastUnder es' k with
    | some v => rfl
    | none =>
        cases hv : lastUnder es k with
        | none => rfl
        | some v => rw [h k v hv hlater, Option.none_or, Option.some_or, Option.none_or]

/-- A table is its listing, written again. -/
theorem insertAll_toList [DecidableEq α] (t : ExtTreeMap α β cmp) : insertAll ∅ t.toList = t := by
  have hnodup : (t.toList.map Prod.fst).Nodup := List.pairwise_map.mpr (toList_keys_ne t)
  refine ExtTreeMap.ext_getElem? fun k => ?_
  cases hk : t[k]? with
  | some n =>
      exact getElem?_insertAll_of_mem (ExtTreeMap.mem_toList_iff_getElem?_eq_some.mpr hk) hnodup ∅
  | none =>
      rw [getElem?_insertAll_of_not_mem]
      · simp
      · intro hmem
        obtain ⟨e, he, rfl⟩ := List.mem_map.mp hmem
        rw [ExtTreeMap.mem_toList_iff_getElem?_eq_some.mp he] at hk
        cases hk

/-- Rows of which only the later ones are written again come out the same exactly if
the earlier ones stand already. -/
theorem insertAll_drop_iff [DecidableEq α] {es : List (α × β)} (hnodup : (es.map Prod.fst).Nodup)
    {t t' : ExtTreeMap α β cmp} (hoff : ∀ k, k ∉ es.map Prod.fst → t'[k]? = t[k]?) (n : Nat) :
    insertAll t' (es.drop n) = insertAll t es ↔ ∀ e ∈ es.take n, t'[e.1]? = some e.2 := by
  have hsplit : (es.take n).map Prod.fst ++ (es.drop n).map Prod.fst = es.map Prod.fst := by
    rw [← List.map_append, List.take_append_drop]
  rw [← hsplit] at hnodup
  obtain ⟨-, hdrop, hdisjoint⟩ := List.nodup_append.mp hnodup
  rw [hsplit] at hnodup
  constructor
  · intro heq e he
    have hlater : e.1 ∉ (es.drop n).map Prod.fst := fun hmem =>
      hdisjoint _ (List.mem_map_of_mem he) _ hmem rfl
    rw [← getElem?_insertAll_of_not_mem hlater t', heq,
      getElem?_insertAll_of_mem (List.mem_of_mem_take he) hnodup]
  · intro hearlier
    refine ExtTreeMap.ext_getElem? fun k => ?_
    by_cases hk : k ∈ es.map Prod.fst
    · obtain ⟨e, he, rfl⟩ := List.mem_map.mp hk
      rw [getElem?_insertAll_of_mem he hnodup]
      rw [← List.take_append_drop n es, List.mem_append] at he
      rcases he with he | he
      · have hlater : e.1 ∉ (es.drop n).map Prod.fst := fun hmem =>
          hdisjoint _ (List.mem_map_of_mem he) _ hmem rfl
        rw [getElem?_insertAll_of_not_mem hlater]
        exact hearlier e he
      · exact getElem?_insertAll_of_mem he hdrop t'
    · have hlater : k ∉ (es.drop n).map Prod.fst := by
        intro hmem
        rw [← hsplit] at hk
        exact hk (List.mem_append_right _ hmem)
      rw [getElem?_insertAll_of_not_mem hlater, getElem?_insertAll_of_not_mem hk, hoff k hk]

end Strk20.Tables
