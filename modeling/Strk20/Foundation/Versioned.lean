import Mathlib
import Strk20.Foundation.Tables

/-!
# Versioned tables

A table of values under a key and a version: history is kept, and a read asks
for the latest version of a key at or below a bound. The rows are ordered by
key and then by version, so the latest version is the last row of a range.
-/

namespace Strk20.Versioned

open Std (ExtTreeMap TransCmp LawfulEqCmp TransOrd LawfulEqOrd)
open Tables

universe u v w

section Order

variable {K : Type u} {N : Type v} [Ord K] [Ord N]

/-- Lexicographic order of a pair of keys. -/
def pairCmp (a b : K × N) : Ordering :=
  compareLex (compareOn Prod.fst) (compareOn Prod.snd) a b

instance instTransCmpPairCmp [TransOrd K] [TransOrd N] :
    TransCmp (pairCmp : K × N → K × N → Ordering) :=
  inferInstanceAs (TransCmp (compareLex (compareOn Prod.fst) (compareOn Prod.snd)))

theorem pairCmp_eq_eq [LawfulEqOrd K] [LawfulEqOrd N] {a b : K × N} :
    pairCmp a b = .eq ↔ a = b := by
  rw [pairCmp, compareLex, Ordering.then_eq_eq, compareOn, compareOn,
    LawfulEqCmp.compare_eq_iff_eq, LawfulEqCmp.compare_eq_iff_eq, Prod.ext_iff]

instance instLawfulEqCmpPairCmp [LawfulEqOrd K] [LawfulEqOrd N] :
    LawfulEqCmp (pairCmp : K × N → K × N → Ordering) where
  compare_self := pairCmp_eq_eq.mpr rfl
  eq_of_compare := pairCmp_eq_eq.mp

theorem pairCmp_same_fst [LawfulEqOrd K] {k : K} {m n : N} :
    pairCmp (k, m) (k, n) = compare m n := by
  have hself : compare k k = .eq := LawfulEqCmp.compare_eq_iff_eq.mpr rfl
  rw [pairCmp, compareLex, compareOn, compareOn, hself]
  rfl

/-- Smaller by the first key, or by the second under one first key. -/
theorem pairCmp_eq_lt {K : Type u} {N : Type v} [LinearOrder K] [LinearOrder N] {a b : K × N} :
    pairCmp a b = .lt ↔ a.1 < b.1 ∨ (a.1 = b.1 ∧ a.2 < b.2) := by
  rw [pairCmp, compareLex, Ordering.then_eq_lt, compareOn, compareOn, compare_lt_iff_lt,
    compare_lt_iff_lt, compare_eq_iff_eq]

end Order

/-- Values under a key and a version. -/
abbrev Table (K : Type u) (N : Type v) (V : Type w) [Ord K] [Ord N] :=
  ExtTreeMap (K × N) V pairCmp

section Reads

variable {K : Type u} {N : Type v} {V : Type w} [Ord K] [TransOrd K] [LawfulEqOrd K]
  [DecidableEq K] [LinearOrder N] [TransOrd N] [LawfulEqOrd N]

/-- The rows of one key at or below a version, ascending. -/
def history (t : Table K N V) (k : K) (bound : N) : List ((K × N) × V) :=
  t.toList.filter fun e => e.1.1 = k ∧ e.1.2 ≤ bound

/-- The latest value of a key at or below a version, and its version. -/
def asOf (t : Table K N V) (k : K) (bound : N) : Option (V × N) :=
  (history t k bound).getLast?.map fun e => (e.2, e.1.2)

theorem mem_history {t : Table K N V} {k : K} {bound : N} {e : (K × N) × V} :
    e ∈ history t k bound ↔ e.1.1 = k ∧ e.1.2 ≤ bound ∧ t[e.1]? = some e.2 := by
  rw [history, List.mem_filter, decide_eq_true_eq,
    ExtTreeMap.mem_toList_iff_getElem?_eq_some (k := e.1) (v := e.2), and_comm, and_assoc]

theorem history_ascending (t : Table K N V) (k : K) (bound : N) :
    (history t k bound).Pairwise fun a b => a.1.2 < b.1.2 := by
  have hord : t.toList.Pairwise fun a b => pairCmp a.1 b.1 = .lt :=
    ExtTreeMap.ordered_keys_toList
  have hkeep : (history t k bound).Pairwise fun a b => pairCmp a.1 b.1 = .lt :=
    hord.sublist List.filter_sublist
  refine hkeep.imp_of_mem fun {a b} ha hb hlt => ?_
  have hk : a.1.1 = b.1.1 := (mem_history.mp ha).1.trans (mem_history.mp hb).1.symm
  rw [← Prod.eta a.1, ← Prod.eta b.1, hk, pairCmp_same_fst] at hlt
  exact compare_lt_iff_lt.mp hlt

theorem asOf_eq_some_iff {t : Table K N V} {k : K} {bound n : N} {v : V} :
    asOf t k bound = some (v, n) ↔
      n ≤ bound ∧ t[(k, n)]? = some v ∧ ∀ m ≤ bound, t[(k, m)]?.isSome → m ≤ n := by
  have hasc := history_ascending t k bound
  constructor
  · intro h
    obtain ⟨e, he, hval⟩ := Option.map_eq_some_iff.mp h
    obtain ⟨rfl, rfl⟩ := Prod.mk.inj hval
    obtain ⟨hk, hn, hv⟩ := mem_history.mp (List.mem_of_getLast? he)
    refine ⟨hn, by rwa [← hk], fun m hm hsome => ?_⟩
    obtain ⟨v', hv'⟩ := Option.isSome_iff_exists.mp hsome
    have hmem : ((k, m), v') ∈ history t k bound := mem_history.mpr ⟨rfl, hm, hv'⟩
    obtain ⟨ys, hys⟩ := List.getLast?_eq_some_iff.mp he
    rw [hys] at hmem hasc
    rcases List.mem_append.mp hmem with hmem | hmem
    · exact le_of_lt ((List.pairwise_append.mp hasc).2.2 _ hmem e (by simp))
    · exact le_of_eq (congrArg (·.1.2) (List.mem_singleton.mp hmem))
  · rintro ⟨hn, hv, hmax⟩
    have hmem : ((k, n), v) ∈ history t k bound := mem_history.mpr ⟨rfl, hn, hv⟩
    obtain ⟨ys, e, hys⟩ : ∃ ys e, history t k bound = ys ++ [e] :=
      ⟨_, _, (List.dropLast_append_getLast (List.ne_nil_of_mem hmem)).symm⟩
    have he : (history t k bound).getLast? = some e := by rw [hys]; simp
    obtain ⟨hk, hb, hve⟩ := mem_history.mp (List.mem_of_getLast? he)
    have hle : e.1.2 ≤ n := hmax e.1.2 hb (by rw [← hk, Prod.eta, hve]; rfl)
    have heq : e = ((k, n), v) := by
      rw [hys] at hmem hasc
      rcases List.mem_append.mp hmem with hmem | hmem
      · exact absurd ((List.pairwise_append.mp hasc).2.2 _ hmem e (by simp)) (not_lt.mpr hle)
      · exact (List.mem_singleton.mp hmem).symm
    rw [asOf, he, heq]
    rfl

theorem asOf_eq_none_iff {t : Table K N V} {k : K} {bound : N} :
    asOf t k bound = none ↔ ∀ m ≤ bound, t[(k, m)]? = none := by
  rw [asOf, Option.map_eq_none_iff, List.getLast?_eq_none_iff, List.eq_nil_iff_forall_not_mem]
  constructor
  · intro h m hm
    by_contra hne
    obtain ⟨v, hv⟩ := Option.ne_none_iff_exists'.mp hne
    exact h ((k, m), v) (mem_history.mpr ⟨rfl, hm, hv⟩)
  · intro h e he
    obtain ⟨hk, hb, hv⟩ := mem_history.mp he
    rw [← Prod.eta e.1, hk, h _ hb] at hv
    cases hv

/-- The rows that are the latest of their key as of a version:
`block = (SELECT MAX(block) .. WHERE slot = s.slot AND block <= ?1)`. -/
def latestRows (t : Table K N V) (bound : N) : List ((K × N) × V) :=
  t.toList.filter fun e => (asOf t e.1.1 bound).map Prod.snd = some e.1.2

theorem mem_latestRows {t : Table K N V} {bound : N} {e : (K × N) × V} :
    e ∈ latestRows t bound ↔ asOf t e.1.1 bound = some (e.2, e.1.2) := by
  rw [latestRows, List.mem_filter, decide_eq_true_eq,
    ExtTreeMap.mem_toList_iff_getElem?_eq_some (k := e.1) (v := e.2)]
  constructor
  · rintro ⟨hv, hmap⟩
    obtain ⟨⟨v, n⟩, has, hn⟩ := Option.map_eq_some_iff.mp hmap
    obtain rfl : n = e.1.2 := hn
    obtain ⟨-, hv', -⟩ := asOf_eq_some_iff.mp has
    rw [Prod.eta, hv, Option.some.injEq] at hv'
    rw [has, hv']
  · intro h
    obtain ⟨-, hv, -⟩ := asOf_eq_some_iff.mp h
    exact ⟨hv, by rw [h]; rfl⟩

/-- No key is listed twice. -/
theorem latestRows_keys (t : Table K N V) (bound : N) :
    (latestRows t bound).Pairwise fun a b => a.1.1 ≠ b.1.1 := by
  have hdist : (latestRows t bound).Pairwise fun a b => a.1 ≠ b.1 :=
    (toList_keys_ne t).sublist List.filter_sublist
  refine hdist.imp_of_mem fun {a b} ha hb hne heq => hne ?_
  have ha' := mem_latestRows.mp ha
  have hb' := mem_latestRows.mp hb
  rw [heq, hb', Option.some.injEq, Prod.mk.injEq] at ha'
  exact Prod.ext heq ha'.2.symm

end Reads

/-! ## The keys of a table -/

theorem mem_destutter'_ne {α : Type u} [DecidableEq α] : ∀ {xs : List α} {a x : α},
    x ∈ xs.destutter' (· ≠ ·) a ↔ x ∈ a :: xs
  | [], a, x => by simp
  | b :: xs, a, x => by
      by_cases h : a = b
      · rw [List.destutter'_cons_neg _ (by simpa using h), mem_destutter'_ne]
        simp [h]
      · rw [List.destutter'_cons_pos _ h, List.mem_cons, mem_destutter'_ne]
        simp

theorem mem_destutter_ne {α : Type u} [DecidableEq α] {xs : List α} {x : α} :
    x ∈ xs.destutter (· ≠ ·) ↔ x ∈ xs := by
  cases xs with
  | nil => simp
  | cons a xs => exact mem_destutter'_ne

section Keys

variable {K : Type u} {N : Type v} {V : Type w} [Ord K] [TransOrd K] [LawfulEqOrd K]
  [DecidableEq K] [Ord N] [TransOrd N] [LawfulEqOrd N]

/-- The keys of a table, each once. -/
def keysOf (t : Table K N V) : List K := (t.keys.map Prod.fst).destutter (· ≠ ·)

theorem mem_keysOf {t : Table K N V} {k : K} : k ∈ keysOf t ↔ ∃ n : N, (t[(k, n)]?).isSome := by
  rw [keysOf, mem_destutter_ne, List.mem_map]
  constructor
  · rintro ⟨p, hp, rfl⟩
    exact ⟨p.2, ExtTreeMap.mem_iff_isSome_getElem?.mp (ExtTreeMap.mem_keys.mp hp)⟩
  · rintro ⟨n, hn⟩
    exact ⟨(k, n), ExtTreeMap.mem_keys.mpr (ExtTreeMap.mem_iff_isSome_getElem?.mpr hn), rfl⟩

omit [LawfulEqOrd N] in
/-- The keys of a table ascend. -/
theorem keysOf_ascending (t : Table K N V) :
    (keysOf t).Pairwise fun a b => compare a b = .lt := by
  have hle : (t.keys.map Prod.fst).Pairwise fun a b => compare a b ≠ .gt := by
    rw [List.pairwise_map]
    refine ExtTreeMap.ordered_keys.imp fun {a b} hlt hgt => ?_
    rw [pairCmp, compareLex, compareOn, hgt] at hlt
    cases hlt
  have hchain : (keysOf t).IsChain fun a b => compare a b = .lt := by
    have hsub := (hle.sublist (List.destutter_sublist (· ≠ ·) _)).isChain
    have hne := List.isChain_destutter (· ≠ ·) (t.keys.map Prod.fst)
    refine List.isChain_iff_getElem.mpr fun i hi => ?_
    cases hc : compare (keysOf t)[i] (keysOf t)[i + 1] with
    | lt => rfl
    | eq => exact absurd (LawfulEqCmp.eq_of_compare hc) (hne.getElem i hi)
    | gt => exact absurd hc (hsub.getElem i hi)
  have : IsTrans K fun a b => compare a b = .lt := ⟨fun _ _ _ hab hbc => TransCmp.lt_trans hab hbc⟩
  exact List.isChain_iff_pairwise.mp hchain

end Keys

end Strk20.Versioned
