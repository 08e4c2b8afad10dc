import Strk20.Feed.TrieNode

/-!
# The node operations keep the invariant

`update` writes one slot, `build` makes a tree from a sorted slot list, and
`decodeNode` reads back what `encode` wrote. An absent tree is `none`, so the
results are stated for `Option Node` through `Node.getRoot` and `Node.WfRoot`.
-/

namespace Strk20.Feed.Trie

open BitPath Strk20.Lists Bytes Mpt Patricia
open Std (ExtTreeMap)

namespace Node

variable {pedersen : Felt → Felt → Felt}

/-- The slot function of a possibly empty tree. -/
def getRoot : Option Node → List Bool → Felt
  | none, _ => 0
  | some n, ks => n.get ks

@[simp] theorem getRoot_none (ks : List Bool) : getRoot none ks = 0 := rfl

@[simp] theorem getRoot_some (n : Node) (ks : List Bool) : getRoot (some n) ks = n.get ks := rfl

def WfRoot (pedersen : Felt → Felt → Felt) (pre : List Bool) (root : Option Node) : Prop :=
  ∀ n ∈ root, Wf pedersen pre n

theorem wfRoot_none (pre : List Bool) : WfRoot pedersen pre none := by
  simp [WfRoot]

theorem wfRoot_some {pre : List Bool} {n : Node} :
    WfRoot pedersen pre (some n) ↔ Wf pedersen pre n := by
  simp [WfRoot]

/-! ## `update` -/

/-- The branch with `c` on side `b` and `o` on the other. -/
def branchAt (pedersen : Felt → Felt → Felt) (d : Nat) (b : Bool) (c o : Node) : Node :=
  if b then branchOf pedersen d o c else branchOf pedersen d c o

/-- The branch once side `b` has become `side`: a side that vanished leaves the
other in the branch's place. -/
def withSide (pedersen : Felt → Felt → Felt) (d : Nat) (b : Bool) (o : Node) :
    Option Node → Node
  | some c => branchAt pedersen d b c o
  | none => o

/-- Two nodes whose keys part at the end of `q` meet in a branch there. -/
theorem Wf.branchAt {pre q : List Bool} {b : Bool} {c o : Node} (hpre : pre <+: q)
    (hq : q.length < 251) (hc : Wf pedersen (q ++ [b]) c) (ho : Wf pedersen (q ++ [!b]) o) :
    Wf pedersen pre (branchAt pedersen q.length b c o) := by
  cases b with
  | false => exact .branch hpre hq hc ho
  | true => exact .branch hpre hq ho hc

theorem get_branchAt (d : Nat) (b : Bool) (c o : Node) (ks : List Bool) :
    (branchAt pedersen d b c o).get ks = if bitAt ks d = b then c.get ks else o.get ks := by
  cases b <;> cases hbit : bitAt ks d <;> simp [branchAt, branchOf, get, hbit]

section Equations

variable {n : Node} {key : Key} {value : Felt} {start : Nat}

/-- The key leaves the node's edge: a new leaf next to the node, or nothing to
remove. -/
theorem update_of_split {split : Nat} (hs : findSplit n.key key start n.depth = some split) :
    n.update pedersen key value start =
      some (if value = 0 then n else
        branchAt pedersen split (bit key split) (.leaf key value) n) := by
  rw [update.eq_def]
  by_cases hv : value = 0
  · simp [hs, hv]
  · cases hb : bit key split <;> simp [hs, hv, hb, branchAt]

theorem update_leaf {k : Key} {v : Felt} (hs : findSplit k key start 251 = none) :
    (leaf k v).update pedersen key value start =
      if value = 0 then none else some (.leaf key value) := by
  rw [update.eq_def]
  by_cases hv : value = 0 <;> simp [hs, hv]

/-- The key runs through a branch: its side is updated. -/
theorem update_branchAt {d : Nat} (c o : Node)
    (hs : findSplit (branchAt pedersen d (bit key d) c o).key key start d = none) :
    (branchAt pedersen d (bit key d) c o).update pedersen key value start =
      some (withSide pedersen d (bit key d) o (c.update pedersen key value (d + 1))) := by
  cases hb : bit key d with
  | true =>
      rw [hb] at hs
      simp only [branchAt, if_true, branchOf, key_branch] at hs ⊢
      rw [update.eq_def]
      simp only [key_branch, depth_branch, hs, hb, if_true]
      cases c.update pedersen key value (d + 1) <;> rfl
  | false =>
      rw [hb] at hs
      simp only [branchAt, Bool.false_eq_true, if_false, branchOf, key_branch] at hs ⊢
      rw [update.eq_def]
      simp only [key_branch, depth_branch, hs, hb, Bool.false_eq_true, if_false]
      cases c.update pedersen key value (d + 1) <;> rfl

end Equations

/-- `root` covers `pre` and is `f` with the slot `key` written. -/
def Wrote (pedersen : Felt → Felt → Felt) (pre : List Bool) (key : Key) (value : Felt)
    (f : List Bool → Felt) (root : Option Node) : Prop :=
  WfRoot pedersen pre root ∧
    ∀ ks, ks.length = 251 → getRoot root ks = if ks = kbits key then value else f ks

theorem agree_on_pre {pre : List Bool} {n : Node} {key : Key} (h : Wf pedersen pre n)
    (hpre : pre <+: kbits key) :
    (kbits n.key).take pre.length = (kbits key).take pre.length := by
  rw [take_eq_of_pre h.key_pre, take_eq_of_pre hpre]

/-- Splitting an edge: the key leaves the node's path at `split`, where the
node and a new leaf become siblings. -/
theorem wf_of_split {pre : List Bool} {n : Node} {key : Key} {split : Nat}
    (h : Wf pedersen pre n) (hpre : pre <+: kbits key)
    (hs : findSplit n.key key pre.length n.depth = some split) :
    ∃ q, q.length = split ∧ pre <+: q ∧ q.length < 251 ∧
      Wf pedersen (q ++ [!bit key q.length]) n ∧ q ++ [bit key q.length] <+: kbits key := by
  have hd := h.depth_le
  obtain ⟨h₁, h₂, htake, hne⟩ := findSplit_some hd.2 (agree_on_pre h hpre) hs
  have hlen : ((kbits key).take split).length = split := by simp; omega
  have hsnoc : ∀ k : Key, (kbits k).take split = (kbits key).take split →
      (kbits key).take split ++ [bit k split] <+: kbits k := by
    intro k hkt
    have hp : (kbits key).take split <+: kbits k := hkt ▸ List.take_prefix _ _
    have := prefix_snoc hp (by simp; omega)
    rwa [hlen, bitAt_kbits k (by omega)] at this
  have hflip : bit n.key split = !bit key split := by
    cases hb : bit key split <;> simp_all
  refine ⟨(kbits key).take split, hlen, ?_, by omega, ?_, ?_⟩
  · exact List.prefix_of_prefix_length_le hpre (List.take_prefix _ _) (by omega)
  · rw [hlen, ← hflip]
    exact h.lower (hsnoc n.key htake) (by simp; omega)
  · rw [hlen]
    exact hsnoc key rfl

/-- A node on the other side of the key's bit has no slot on the key's side. -/
theorem get_other_side {q ks : List Bool} {b : Bool} {o : Node}
    (ho : Wf pedersen (q ++ [!b]) o) (hb : bitAt ks q.length = b) : o.get ks = 0 := by
  refine ho.get_eq_zero fun hp => ?_
  rw [bitAt_of_pre hp] at hb
  exact absurd hb (by simp)

theorem ne_kbits_of_bitAt {key : Key} {d : Nat} {ks : List Bool} (hd : d < 251)
    (h : bitAt ks d ≠ bit key d) : ks ≠ kbits key := by
  rintro rfl
  exact h (bitAt_kbits key hd)

theorem wrote_split {pre : List Bool} {n : Node} {key : Key} {value : Felt} {split : Nat}
    (h : Wf pedersen pre n) (hk : key.val < 2 ^ 251) (hpre : pre <+: kbits key)
    (hs : findSplit n.key key pre.length n.depth = some split) :
    Wrote pedersen pre key value n.get (n.update pedersen key value pre.length) := by
  obtain ⟨q, rfl, hpq, hq, hn, hkey⟩ := wf_of_split h hpre hs
  rw [update_of_split hs]
  by_cases hv : value = 0
  · -- a key off the node's path reads zero there already
    have hzero : n.get (kbits key) = 0 := get_other_side hn (bitAt_kbits key hq)
    rw [if_pos hv]
    refine ⟨wfRoot_some.mpr h, fun ks _ => ?_⟩
    by_cases hks : ks = kbits key
    · simp [hks, hzero, hv]
    · simp [hks]
  · rw [if_neg hv]
    refine ⟨wfRoot_some.mpr (.branchAt hpq hq (.leaf hv hk hkey) hn), fun ks _ => ?_⟩
    rw [getRoot_some, get_branchAt]
    by_cases hb : bitAt ks q.length = bit key q.length
    · rw [if_pos hb, get, get_other_side hn hb]
    · rw [if_neg hb, if_neg (ne_kbits_of_bitAt hq hb)]

/-- Once the key's side of a branch is written, so is the branch. -/
theorem wrote_side {pre q : List Bool} {key : Key} {value : Felt} {c o : Node}
    {side : Option Node} (hpq : pre <+: q) (hq : q.length < 251)
    (ho : Wf pedersen (q ++ [!bit key q.length]) o)
    (hside : Wrote pedersen (q ++ [bit key q.length]) key value c.get side) :
    Wrote pedersen pre key value (branchAt pedersen q.length (bit key q.length) c o).get
      (some (withSide pedersen q.length (bit key q.length) o side)) := by
  obtain ⟨hwf, hget⟩ := hside
  cases side with
  | some c' =>
      refine ⟨wfRoot_some.mpr (.branchAt hpq hq (wfRoot_some.mp hwf) ho), fun ks hks => ?_⟩
      rw [getRoot_some, withSide, get_branchAt, get_branchAt]
      by_cases hb : bitAt ks q.length = bit key q.length
      · simp only [if_pos hb]
        exact hget ks hks
      · simp only [if_neg hb, if_neg (ne_kbits_of_bitAt hq hb)]
  | none =>
      refine ⟨wfRoot_some.mpr (ho.mono (hpq.trans (List.prefix_append _ _))), fun ks hks => ?_⟩
      rw [getRoot_some, withSide, get_branchAt]
      by_cases hb : bitAt ks q.length = bit key q.length
      · -- the side is empty: both the written slot and the rest of it are zero
        rw [if_pos hb, ← hget ks hks, getRoot_none, get_other_side ho hb]
      · rw [if_neg hb, if_neg (ne_kbits_of_bitAt hq hb)]

/-- **One slot write.** The result covers the same prefix and differs from the
node exactly in the written slot. -/
theorem update_spec {pre : List Bool} {n : Node} {key : Key} (value : Felt)
    (h : Wf pedersen pre n) (hk : key.val < 2 ^ 251) (hpre : pre <+: kbits key) :
    Wrote pedersen pre key value n.get (n.update pedersen key value pre.length) := by
  induction h with
  | @leaf pre key' value' hv' hk' hpre' =>
      have hwf : Wf pedersen pre (.leaf key' value') := .leaf hv' hk' hpre'
      cases hs : findSplit key' key pre.length 251 with
      | some split => exact wrote_split hwf hk hpre hs
      | none =>
          -- no split before depth 251: it is the key's own leaf
          have htake := findSplit_none hwf.depth_le.1 (Nat.le_refl _) (agree_on_pre hwf hpre) hs
          have hkey : kbits key' = kbits key := by
            simpa [List.take_of_length_le] using htake
          obtain rfl := kbits_inj hk' hk hkey
          rw [update_leaf hs]
          by_cases hv : value = 0
          · rw [if_pos hv]
            refine ⟨wfRoot_none _, fun ks _ => ?_⟩
            by_cases hks : ks = kbits key' <;> simp [hks, hv, get]
          · rw [if_neg hv]
            refine ⟨wfRoot_some.mpr (.leaf hv hk hpre), fun ks _ => ?_⟩
            by_cases hks : ks = kbits key' <;> simp [hks, get]
  | @branch pre q left right hpq hq hl hr ihl ihr =>
      have hwf : Wf pedersen pre (branchOf pedersen q.length left right) := .branch hpq hq hl hr
      change Wrote pedersen pre key value (branchOf pedersen q.length left right).get
        ((branchOf pedersen q.length left right).update pedersen key value pre.length)
      cases hs : findSplit left.key key pre.length q.length with
      | some split => exact wrote_split hwf hk hpre hs
      | none =>
          have hql : q <+: kbits left.key := (List.prefix_append _ _).trans hl.key_pre
          have htake : (kbits left.key).take q.length = (kbits key).take q.length :=
            findSplit_none hpq.length_le (Nat.le_of_lt hq)
              (agree_on_pre (hl.mono (hpq.trans (List.prefix_append _ _))) hpre) hs
          rw [take_eq_of_pre hql] at htake
          have hqk : q <+: kbits key := htake ▸ List.take_prefix _ _
          have hnext := prefix_snoc hqk (by simpa using hq)
          rw [bitAt_kbits key hq] at hnext
          cases hb : bit key q.length with
          | true =>
              rw [hb] at hnext
              have ih := ihr hnext
              rw [← hb, List.length_append, List.length_singleton] at ih
              have hside := wrote_side (o := left) hpq hq (by rw [hb]; exact hl) ih
              rw [← update_branchAt right left (by rw [hb]; exact hs), hb] at hside
              exact hside
          | false =>
              rw [hb] at hnext
              have ih := ihl hnext
              rw [← hb, List.length_append, List.length_singleton] at ih
              have hside := wrote_side (o := right) hpq hq (by rw [hb]; exact hr) ih
              rw [← update_branchAt left right (by rw [hb]; exact hs), hb] at hside
              exact hside

/-! ## `build` -/

/-- The slots of an entry list, by bits. -/
def entryBits (es : List (Key × Felt)) : List (List Bool × Felt) :=
  es.map fun e => (kbits e.1, e.2)

theorem assoc_entryBits_filter {d : Nat} (hd : d < 251) (b : Bool) {ks : List Bool}
    (hb : bitAt ks d = b) : ∀ es : List (Key × Felt),
    assoc (entryBits (es.filter fun e => bit e.1 d == b)) ks = assoc (entryBits es) ks
  | [] => rfl
  | e :: es => by
      have ih := assoc_entryBits_filter hd b hb es
      by_cases he : bit e.1 d = b
      · have hf : (e :: es).filter (fun e => bit e.1 d == b) =
            e :: es.filter fun e => bit e.1 d == b := by simp [he]
        rw [hf]
        simp only [entryBits, List.map_cons, assoc_cons] at ih ⊢
        rw [ih]
      · have hf : (e :: es).filter (fun e => bit e.1 d == b) =
            es.filter fun e => bit e.1 d == b := by simp [he]
        have hne : ks ≠ kbits e.1 := ne_kbits_of_bitAt hd (by rw [hb]; exact Ne.symm he)
        rw [hf, ih]
        simp only [entryBits, List.map_cons, assoc_cons, if_neg hne]

/-- What `build` is called with: nonempty, sorted, zero-free, below `pre`. -/
structure Buildable (pre : List Bool) (es : List (Key × Felt)) : Prop where
  sorted : es.Pairwise fun a b => a.1.val < b.1.val
  slot : ∀ e ∈ es, e.2 ≠ 0 ∧ e.1.val < 2 ^ 251 ∧ pre <+: kbits e.1

theorem Buildable.filter {pre q : List Bool} {es : List (Key × Felt)} (h : Buildable pre es)
    (p : Key × Felt → Bool) (hq : ∀ e ∈ es, p e = true → q <+: kbits e.1) :
    Buildable q (es.filter p) where
  sorted := h.sorted.filter p
  slot := fun e he => by
    obtain ⟨hmem, hp⟩ := List.mem_filter.mp he
    exact ⟨(h.slot e hmem).1, (h.slot e hmem).2.1, hq e hmem hp⟩

theorem kbits_le {a b : Key} (h : a.val ≤ b.val) (hb : b.val < 2 ^ 251) :
    le (kbits a) (kbits b) = true :=
  le_bitsOf h hb

/-- A sorted list splits where its first and last key part: they share every
bit before, the first continues with `false`, the last with `true`, and so
does every key between them with one of the two. -/
theorem Buildable.split {pre : List Bool} {first last : Key × Felt} {es : List (Key × Felt)}
    (h : Buildable pre es) (hf : first ∈ es) (hl : last ∈ es)
    (hbounds : ∀ e ∈ es, first.1.val ≤ e.1.val ∧ e.1.val ≤ last.1.val)
    (hlt : first.1.val < last.1.val) :
    ∃ q, findSplit first.1 last.1 pre.length 251 = some q.length ∧ pre <+: q ∧ q.length < 251 ∧
      bit first.1 q.length = false ∧ bit last.1 q.length = true ∧
      ∀ e ∈ es, q ++ [bit e.1 q.length] <+: kbits e.1 := by
  obtain ⟨-, hfk, hfp⟩ := h.slot first hf
  obtain ⟨-, hlk, hlp⟩ := h.slot last hl
  have hagree : (kbits first.1).take pre.length = (kbits last.1).take pre.length := by
    rw [take_eq_of_pre hfp, take_eq_of_pre hlp]
  have hpre : pre.length ≤ 251 := by simpa using hfp.length_le
  cases hs : findSplit first.1 last.1 pre.length 251 with
  | none =>
      have htake := findSplit_none hpre (Nat.le_refl _) hagree hs
      have heq : kbits first.1 = kbits last.1 := by
        simpa [List.take_of_length_le] using htake
      exact absurd (congrArg Fin.val (kbits_inj hfk hlk heq)) (Nat.ne_of_lt hlt)
  | some d =>
      obtain ⟨h₁, h₂, htake, hne⟩ := findSplit_some (Nat.le_refl _) hagree hs
      have hlen : ((kbits first.1).take d).length = d := by simp; omega
      have hqf : (kbits first.1).take d <+: kbits first.1 := List.take_prefix _ _
      have hql : (kbits first.1).take d <+: kbits last.1 := by
        rw [htake]
        exact List.take_prefix _ _
      have hall : ∀ e ∈ es, (kbits first.1).take d ++ [bit e.1 d] <+: kbits e.1 := by
        intro e he
        have hp : (kbits first.1).take d <+: kbits e.1 :=
          prefix_of_between hqf hql (by simp) (kbits_le (hbounds e he).1 (h.slot e he).2.1)
            (kbits_le (hbounds e he).2 hlk)
        have := prefix_snoc hp (by simp; omega)
        rwa [hlen, bitAt_kbits e.1 (by omega)] at this
      -- the first key is not above the last one at the bit where they part
      have hbits : bit first.1 d = false ∧ bit last.1 d = true := by
        obtain ⟨s, hs⟩ := hall first hf
        obtain ⟨t, ht⟩ := hall last hl
        have hle := kbits_le (Nat.le_of_lt hlt) hlk
        rw [← hs, ← ht, List.append_assoc, List.append_assoc, le_append_left_iff] at hle
        cases hbf : bit first.1 d <;> cases hbl : bit last.1 d <;>
          simp_all [BitPath.le]
      refine ⟨(kbits first.1).take d, by rw [hlen], ?_, by omega, ?_, ?_, ?_⟩
      · exact List.prefix_of_prefix_length_le hfp hqf (by omega)
      · rw [hlen]; exact hbits.1
      · rw [hlen]; exact hbits.2
      · rw [hlen]; exact hall

theorem partitioned_not_bit {pre q : List Bool} {es : List (Key × Felt)} (h : Buildable pre es)
    (hq : ∀ e ∈ es, q ++ [bit e.1 q.length] <+: kbits e.1) :
    Partitioned (fun e : Key × Felt => !bit e.1 q.length) es := by
  refine h.sorted.imp_of_mem fun {a b} ha hb hab hb0 => ?_
  obtain ⟨s, hs⟩ := hq a ha
  obtain ⟨t, ht⟩ := hq b hb
  have hle := kbits_le (Nat.le_of_lt hab) (h.slot b hb).2.1
  rw [← hs, ← ht, List.append_assoc, List.append_assoc, le_append_left_iff] at hle
  cases hba : bit a.1 q.length <;> cases hbb : bit b.1 q.length <;> simp_all [BitPath.le]

/-- **Building from scratch.** `build` never panics on a sorted slot list, and
the tree holds exactly its slots. -/
theorem build_spec : ∀ (fuel : Nat) {pre : List Bool} {es : List (Key × Felt)},
    Buildable pre es → es ≠ [] → 251 ≤ pre.length + fuel →
      ∃ n, build pedersen fuel es pre.length = some n ∧ Wf pedersen pre n ∧
        ∀ ks, ks.length = 251 → n.get ks = assoc (entryBits es) ks
  | _, _, [], _, hne, _ => absurd rfl hne
  | fuel, pre, [(key, value)], h, _, _ => by
      obtain ⟨hv, hk, hp⟩ := h.slot (key, value) (by simp)
      refine ⟨.leaf key value, by cases fuel <;> rfl, .leaf hv hk hp, fun ks _ => ?_⟩
      simp [get, entryBits, assoc_cons]
  | 0, pre, e₁ :: e₂ :: es, h, _, hfuel => by
      -- no bits are left below `pre`, so the two keys would be equal
      obtain ⟨-, hk₁, hp₁⟩ := h.slot e₁ (by simp)
      obtain ⟨-, hk₂, hp₂⟩ := h.slot e₂ (by simp)
      have hlt := (List.pairwise_cons.mp h.sorted).1 e₂ (by simp)
      have h₁ := hp₁.eq_of_length_le (by simpa using hfuel)
      have h₂ := hp₂.eq_of_length_le (by simpa using hfuel)
      exact absurd (congrArg Fin.val (kbits_inj hk₁ hk₂ (h₁.symm.trans h₂))) (Nat.ne_of_lt hlt)
  | fuel + 1, pre, e₁ :: e₂ :: es, h, _, hfuel => by
      set last := (e₂ :: es).getLast (by simp) with hlast
      have hlmem : last ∈ e₂ :: es := List.getLast_mem _
      have hlt : e₁.1.val < last.1.val := (List.pairwise_cons.mp h.sorted).1 last hlmem
      have hbounds : ∀ e ∈ e₁ :: e₂ :: es, e₁.1.val ≤ e.1.val ∧ e.1.val ≤ last.1.val := by
        intro e he
        constructor
        · rcases List.mem_cons.mp he with rfl | he
          · exact Nat.le_refl _
          · exact Nat.le_of_lt ((List.pairwise_cons.mp h.sorted).1 e he)
        · have hsort : (e₁ :: e₂ :: es).Pairwise fun a b => a.1.val ≤ b.1.val :=
            h.sorted.imp fun hab => Nat.le_of_lt hab
          have := hsort.rel_getLast he
          simpa [hlast] using this
      obtain ⟨q, hs, hpq, hq, hbf, hbl, hall⟩ :=
        h.split (List.mem_cons_self (a := e₁)) (List.mem_cons_of_mem _ hlmem) hbounds hlt
      have hpart := partitioned_not_bit h hall
      have htake := take_partitionPoint hpart
      have hdrop := drop_partitionPoint hpart
      have hside : ∀ b : Bool, Buildable (q ++ [b])
          ((e₁ :: e₂ :: es).filter fun e => bit e.1 q.length == b) := fun b =>
        h.filter _ fun e he hb => by
          have := hall e he
          rwa [beq_iff_eq.mp hb] at this
      have hlen : ∀ b : Bool, (q ++ [b]).length = q.length + 1 := by simp
      have hple := hpq.length_le
      obtain ⟨l, hbl', hwl, hgl⟩ := build_spec fuel (hside false)
        (List.ne_nil_of_mem (List.mem_filter.mpr ⟨List.mem_cons_self, by simp [hbf]⟩))
        (by rw [hlen]; omega)
      obtain ⟨r, hbr', hwr, hgr⟩ := build_spec fuel (hside true)
        (List.ne_nil_of_mem (List.mem_filter.mpr
          ⟨List.mem_cons_of_mem _ hlmem, by simp [hbl]⟩))
        (by rw [hlen]; omega)
      refine ⟨branchOf pedersen q.length l r, ?_, .branch hpq hq hwl hwr, fun ks hks => ?_⟩
      · have hfl : (e₁ :: e₂ :: es).filter (fun e => !bit e.1 q.length) =
            (e₁ :: e₂ :: es).filter fun e => bit e.1 q.length == false := by simp
        have hfr : (e₁ :: e₂ :: es).filter (fun e => !!bit e.1 q.length) =
            (e₁ :: e₂ :: es).filter fun e => bit e.1 q.length == true := by simp
        rw [hlen] at hbl' hbr'
        simp only [build, ← hlast, hs, htake, hdrop]
        rw [hfl, hfr, hbl', hbr']
      · show (if bitAt ks q.length then r.get ks else l.get ks) = _
        cases hb : bitAt ks q.length with
        | true =>
            rw [if_pos rfl, hgr ks hks, assoc_entryBits_filter hq true hb]
        | false =>
            rw [if_neg (by decide), hgl ks hks, assoc_entryBits_filter hq false hb]

end Node

end Strk20.Feed.Trie
