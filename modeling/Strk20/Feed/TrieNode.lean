import Strk20.Feed.MptRoot
import Strk20.Feed.Trie

/-!
# What a cached node stands for

`Node.get` reads a node as a slot function. `Node.Wf pre n` is the invariant
of a node that covers the keys beginning with `pre`: every leaf value is
nonzero, a branch sits where its two children's keys part, and the cached hash
of every branch is the hash of its children.

- `hashAt_eq_root`: on a well-formed node the cached hash is the Patricia root
  of the slot function below `pre`.
- `update_spec`, `build_spec`, `decodeNode_encode`: each operation keeps the
  invariant and does to the slot function what its name says.
-/

namespace Strk20.Feed.Trie

open BitPath Strk20.Lists Bytes Mpt Patricia
open Std (ExtTreeMap)

/-! ## Keys as bit lists -/

/-- The 251 bits the tree reads of a key. -/
def kbits (k : Key) : List Bool := bitsOf 251 k.val

@[simp] theorem length_kbits (k : Key) : (kbits k).length = 251 := by simp [kbits]

theorem kbits_inj {a b : Key} (ha : a.val < 2 ^ 251) (hb : b.val < 2 ^ 251)
    (h : kbits a = kbits b) : a = b :=
  Fin.ext (bitsOf_inj ha hb h)

theorem kbits_toBytesBe (f : Felt) : kbits (toBytesBe f) = keyBits f := by
  rw [keyBits_eq_bitsOf]
  rfl

theorem bitAt_kbits {d : Nat} (k : Key) (hd : d < 251) : bitAt (kbits k) d = bit k d := by
  have h := getElem?_bitsOf 251 d k.val hd
  simp [bitAt, kbits, bit, List.getD_eq_getElem?_getD, h]

theorem bitAt_append_cons (q k : List Bool) (b : Bool) : bitAt (q ++ b :: k) q.length = b := by
  simp [bitAt, List.getD_eq_getElem?_getD]

theorem bitAt_of_pre {q ks : List Bool} {b : Bool} (h : q ++ [b] <+: ks) :
    bitAt ks q.length = b := by
  obtain ⟨t, rfl⟩ := h
  rw [List.append_assoc]
  exact bitAt_append_cons q t b

/-- A prefix of a longer list continues with the list's next bit. -/
theorem prefix_snoc {q ks : List Bool} (h : q <+: ks) (hlt : q.length < ks.length) :
    q ++ [bitAt ks q.length] <+: ks := by
  obtain ⟨t, rfl⟩ := h
  cases t with
  | nil => simp at hlt
  | cons b t =>
      rw [bitAt_append_cons]
      exact ⟨t, by simp⟩

theorem take_eq_of_pre {q ks : List Bool} (h : q <+: ks) : ks.take q.length = q := by
  obtain ⟨t, rfl⟩ := h
  simp

theorem range'_map_bit (k : Key) {start stop : Nat} (h : stop ≤ 251) :
    (List.range' start (stop - start)).map (bit k) = ((kbits k).take stop).drop start := by
  refine List.ext_getElem? fun i => ?_
  by_cases hi : i < stop - start
  · have hb := getElem?_bitsOf 251 (start + i) k.val (by omega)
    have hlt : start + i < stop := by omega
    simp only [List.getElem?_map, List.getElem?_range' hi, List.getElem?_drop,
      List.getElem?_take_of_lt hlt, kbits, hb, Option.map_some, Nat.one_mul, bit]
  · have h₁ : stop - start ≤ i := by omega
    simp [h₁]
    omega

theorem path_eq (k : Key) {start stop : Nat} (h : stop ≤ 251) :
    path k start stop = bitsToFelt (((kbits k).take stop).drop start) := by
  rw [path, range'_map_bit k h]

/-! ## The first differing bit -/

theorem take_succ_eq {a b : List Bool} {d : Nat} (ha : d < a.length) (hb : d < b.length)
    (h : a.take d = b.take d) (hbit : bitAt a d = bitAt b d) :
    a.take (d + 1) = b.take (d + 1) := by
  have h₁ : ∀ l : List Bool, d < l.length → l.take (d + 1) = l.take d ++ [bitAt l d] := by
    intro l hl
    rw [List.take_succ_eq_append_getElem hl, bitAt, List.getD_eq_getElem l false hl]
  rw [h₁ a ha, h₁ b hb, h, hbit]

/-- Keys that agree on a range agree on every prefix up to its end. -/
theorem take_eq_of_agree {a b : Key} {start : Nat} :
    ∀ (stop : Nat), stop ≤ 251 → (kbits a).take start = (kbits b).take start →
      (∀ d, start ≤ d → d < stop → bit a d = bit b d) → start ≤ stop →
      (kbits a).take stop = (kbits b).take stop
  | 0, _, _, _, _ => by simp
  | stop + 1, hstop, hstart, hagree, hle => by
      by_cases hs : start = stop + 1
      · rw [← hs]
        exact hstart
      · have ih := take_eq_of_agree stop (by omega) hstart
          (fun d h₁ h₂ => hagree d h₁ (by omega)) (by omega)
        refine take_succ_eq (by simp; omega) (by simp; omega) ih ?_
        rw [bitAt_kbits a (by omega), bitAt_kbits b (by omega)]
        exact hagree stop (by omega) (by omega)

theorem findSplit_none {a b : Key} {start stop : Nat} (hle : start ≤ stop) (hstop : stop ≤ 251)
    (hpre : (kbits a).take start = (kbits b).take start)
    (h : findSplit a b start stop = none) : (kbits a).take stop = (kbits b).take stop := by
  refine take_eq_of_agree _ hstop hpre (fun d h₁ h₂ => ?_) hle
  have := List.find?_eq_none.mp h d (by simp [List.mem_range'_1]; omega)
  simpa using this

theorem findSplit_some {a b : Key} {start stop d : Nat} (hstop : stop ≤ 251)
    (hpre : (kbits a).take start = (kbits b).take start)
    (h : findSplit a b start stop = some d) :
    start ≤ d ∧ d < stop ∧ (kbits a).take d = (kbits b).take d ∧ bit a d ≠ bit b d := by
  obtain ⟨hd, as, bs, hsplit, hagree⟩ := List.find?_eq_some_iff_append.mp h
  have hmem : d ∈ List.range' start (stop - start) := by simp [hsplit]
  have hrange : start ≤ d ∧ d < stop := by
    have := List.mem_range'_1.mp hmem
    omega
  refine ⟨hrange.1, hrange.2, ?_, by simpa using hd⟩
  refine take_eq_of_agree _ (by omega) hpre (fun i h₁ h₂ => ?_) hrange.1
  -- every position before `d` stands in the part the search has passed
  have hi : i ∈ List.range' start (stop - start) := by simp [List.mem_range'_1]; omega
  have hsorted : (List.range' start (stop - start)).Pairwise (· < ·) := List.pairwise_lt_range'
  rw [hsplit] at hi hsorted
  rcases List.mem_append.mp hi with hin | hin
  · simpa using hagree i hin
  · have := List.pairwise_append.mp hsorted
    rcases List.mem_cons.mp hin with rfl | hin
    · omega
    · have := (List.pairwise_cons.mp this.2.1).1 i hin
      omega

namespace Node

@[simp] theorem key_leaf (k : Key) (v : Felt) : (leaf k v).key = k := rfl

@[simp] theorem key_branch (k : Key) (d : Nat) (h : Felt) (l r : Node) :
    (branch k d h l r).key = k := rfl

@[simp] theorem depth_leaf (k : Key) (v : Felt) : (leaf k v).depth = 251 := rfl

@[simp] theorem depth_branch (k : Key) (d : Nat) (h : Felt) (l r : Node) :
    (branch k d h l r).depth = d := rfl

/-- A node as a slot function. -/
def get : Node → List Bool → Felt
  | .leaf key value, ks => if ks = kbits key then value else 0
  | .branch _ depth _ left right, ks => if bitAt ks depth then right.get ks else left.get ks

/-- The invariant of a node below the prefix `pre`. -/
inductive Wf (pedersen : Felt → Felt → Felt) : List Bool → Node → Prop
  | leaf {pre : List Bool} {key : Key} {value : Felt} (hv : value ≠ 0)
      (hk : key.val < 2 ^ 251) (hpre : pre <+: kbits key) : Wf pedersen pre (.leaf key value)
  | branch {pre q : List Bool} {left right : Node} (hpre : pre <+: q) (hq : q.length < 251)
      (hl : Wf pedersen (q ++ [false]) left) (hr : Wf pedersen (q ++ [true]) right) :
      Wf pedersen pre (.branch left.key q.length
        (binaryHash pedersen (left.hashAt pedersen (q.length + 1))
          (right.hashAt pedersen (q.length + 1))) left right)

variable {pedersen : Felt → Felt → Felt}

theorem Wf.key_pre {pre : List Bool} {n : Node} (h : Wf pedersen pre n) :
    pre <+: kbits n.key := by
  induction h with
  | leaf hv hk hpre => exact hpre
  | branch hpre hq hl hr ihl ihr =>
      exact (hpre.trans (List.prefix_append _ _)).trans ihl

theorem Wf.mono {pre pre' : List Bool} {n : Node} (h : Wf pedersen pre n)
    (hp : pre' <+: pre) : Wf pedersen pre' n := by
  cases h with
  | leaf hv hk hpre => exact .leaf hv hk (hp.trans hpre)
  | branch hpre hq hl hr => exact .branch (hp.trans hpre) hq hl hr

theorem Wf.depth_le {pre : List Bool} {n : Node} (h : Wf pedersen pre n) :
    pre.length ≤ n.depth ∧ n.depth ≤ 251 := by
  cases h with
  | leaf hv hk hpre => exact ⟨by simpa using hpre.length_le, Nat.le_refl _⟩
  | branch hpre hq hl hr => exact ⟨hpre.length_le, Nat.le_of_lt hq⟩

/-- A node may be hung below any prefix of its key that ends above its tip. -/
theorem Wf.lower {pre p : List Bool} {n : Node} (h : Wf pedersen pre n)
    (hp : p <+: kbits n.key) (hlen : p.length ≤ n.depth) : Wf pedersen p n := by
  cases h with
  | leaf hv hk hpre => exact .leaf hv hk hp
  | branch hpre hq hl hr =>
      refine .branch ?_ hq hl hr
      have hq' := (List.prefix_append _ _).trans hl.key_pre
      exact List.prefix_of_prefix_length_le hp hq' hlen

/-- A node has no slot outside its prefix. -/
theorem Wf.get_eq_zero {pre : List Bool} {n : Node} (h : Wf pedersen pre n) :
    ∀ {ks : List Bool}, ¬ pre <+: ks → n.get ks = 0 := by
  induction h with
  | leaf hv hk hpre =>
      intro ks hks
      have hne : ks ≠ kbits _ := fun heq => hks (heq ▸ hpre)
      simp [get, hne]
  | branch hpre hq hl hr ihl ihr =>
      intro ks hks
      have hchild : ∀ b : Bool, ¬ _ ++ [b] <+: ks := fun b hb =>
        hks (hpre.trans ((List.prefix_append _ _).trans hb))
      simp [get, ihl (hchild false), ihr (hchild true)]

/-- The bits on the edge above a node hung at depth `start`. -/
def edgeBits (n : Node) (start : Nat) : List Bool := ((kbits n.key).take n.depth).drop start

theorem length_edgeBits {n : Node} (start : Nat) (h : n.depth ≤ 251) :
    (n.edgeBits start).length = n.depth - start := by
  simp [edgeBits, Nat.min_eq_left h]

theorem hashAt_eq_resolve {n : Node} {start : Nat} (hs : start ≤ n.depth) (hd : n.depth ≤ 251) :
    n.hashAt pedersen start = (feltHashing pedersen).resolve ⟨n.edgeBits start, n.bottom⟩ := by
  have hlen := length_edgeBits (n := n) start hd
  by_cases heq : start = n.depth
  · have hnil : n.edgeBits start = [] := List.length_eq_zero_iff.mp (by omega)
    rw [hashAt, if_pos heq, Hashing.resolve, if_pos hnil]
  · have hne : n.edgeBits start ≠ [] := by
      intro h0
      rw [h0, List.length_nil] at hlen
      omega
    rw [hashAt, if_neg heq, path_eq n.key hd, Hashing.resolve, if_neg hne]
    show _ = edgeHash pedersen n.bottom (bitsToFelt (n.edgeBits start)) (n.edgeBits start).length
    rw [hlen, edgeBits]

/-- The subtree a node summarises: its edge over its bottom hash. -/
theorem Wf.summary_eq {pre : List Bool} {n : Node} (h : Wf pedersen pre n) :
    summary (feltHashing pedersen) (251 - pre.length) (Patricia.below n.get pre) =
      some ⟨n.edgeBits pre.length, n.bottom⟩ := by
  induction h with
  | @leaf pre key value hv hk hpre =>
      obtain ⟨t, ht⟩ := hpre
      have hlen : t.length = 251 - pre.length := by
        have := congrArg List.length ht
        simp at this
        omega
      have hval : Patricia.below (Node.leaf key value).get pre t = value := by
        simp [Patricia.below, get, ht]
      have hs := summary_single (H := feltHashing pedersen) (k := t)
        (f := Patricia.below (Node.leaf key value).get pre) (by rw [hval]; exact hv)
        (fun k' _ hne => by
          have : pre ++ k' ≠ kbits key := by
            rw [← ht]
            exact fun h => hne (List.append_cancel_left h)
          simp [Patricia.below, get, this])
      have hedge : (Node.leaf key value).edgeBits pre.length = t := by
        simp only [edgeBits, depth_leaf, key_leaf]
        rw [List.take_of_length_le (by simp), ← ht, List.drop_left]
      rw [← hlen, hs, hval, hedge]
      rfl
  | @branch pre q left right hpre hq hl hr ihl ihr =>
      have hwf : Wf pedersen q (.branch left.key q.length _ left right) :=
        .branch (List.prefix_refl q) hq hl hr
      obtain ⟨p, rfl⟩ := hpre
      generalize hb : binaryHash pedersen (left.hashAt pedersen ((pre ++ p).length + 1))
        (right.hashAt pedersen ((pre ++ p).length + 1)) = hash at hwf ⊢
      set n : Node := .branch left.key (pre ++ p).length hash left right with hn
      obtain ⟨h', hh'⟩ : ∃ h', 251 - (pre ++ p).length = h' + 1 :=
        ⟨251 - (pre ++ p).length - 1, by omega⟩
      have hheight : 251 - pre.length = p.length + (h' + 1) := by
        simp at hh' hq ⊢
        omega
      -- the edge: every slot of the node lies under the branch's own prefix
      have hout : ∀ k, k.length = p.length + (h' + 1) → ¬ p <+: k → Patricia.below n.get pre k = 0 := by
        intro k _ hnp
        refine hwf.get_eq_zero fun hpk => hnp ?_
        obtain ⟨t, ht⟩ := hpk
        exact ⟨t, List.append_cancel_left (by rw [← ht, List.append_assoc])⟩
      -- below the branch the two children are the two halves
      have hchild : ∀ (b : Bool) (c : Node), (∀ k, n.get ((pre ++ p) ++ b :: k) =
            c.get ((pre ++ p) ++ b :: k)) → Wf pedersen ((pre ++ p) ++ [b]) c →
          summary (feltHashing pedersen) (251 - ((pre ++ p) ++ [b]).length)
            (Patricia.below c.get ((pre ++ p) ++ [b])) =
              some ⟨c.edgeBits ((pre ++ p) ++ [b]).length, c.bottom⟩ →
          summary (feltHashing pedersen) h' (fun k => Patricia.below n.get (pre ++ p) (b :: k)) =
            some ⟨c.edgeBits ((pre ++ p).length + 1), c.bottom⟩ := by
        intro b c hget _ ih
        have hlen : ((pre ++ p) ++ [b]).length = (pre ++ p).length + 1 := by simp; omega
        rw [hlen, show 251 - ((pre ++ p).length + 1) = h' by omega] at ih
        rw [← ih]
        refine summary_congr fun k _ => ?_
        show n.get ((pre ++ p) ++ b :: k) = c.get ((pre ++ p ++ [b]) ++ k)
        rw [hget k, List.append_assoc _ [b] k]
        rfl
      have hleft := hchild false left
        (fun k => by simp only [hn, get, bitAt_append_cons]; simp) hl ihl
      have hright := hchild true right
        (fun k => by simp only [hn, get, bitAt_append_cons]; simp) hr ihr
      have hld : (pre ++ p).length + 1 ≤ left.depth ∧ left.depth ≤ 251 := by
        simpa [Nat.add_assoc] using hl.depth_le
      have hrd : (pre ++ p).length + 1 ≤ right.depth ∧ right.depth ≤ 251 := by
        simpa [Nat.add_assoc] using hr.depth_le
      have hbin := summary_binary hleft hright
      rw [← hashAt_eq_resolve hld.1 hld.2, ← hashAt_eq_resolve hrd.1 hrd.2] at hbin
      have hedge : n.edgeBits pre.length = p := by
        have hkey : (pre ++ p) <+: kbits left.key :=
          (List.prefix_append _ _).trans hl.key_pre
        simp only [edgeBits, hn, depth_branch, key_branch, take_eq_of_pre hkey, List.drop_left]
      have hbelow : Patricia.below (Patricia.below n.get pre) p = Patricia.below n.get (pre ++ p) :=
        (below_append _ _ _).symm
      rw [hheight, summary_of_prefix hout, hbelow, hbin, hedge]
      simp [Summary.extend, hn, bottom, feltHashing, ← hb]

/-- **Cached hashes are right.** -/
theorem Wf.hashAt_eq_root {pre : List Bool} {n : Node} (h : Wf pedersen pre n) :
    n.hashAt pedersen pre.length =
      root (feltHashing pedersen) (251 - pre.length) (Patricia.below n.get pre) := by
  rw [hashAt_eq_resolve h.depth_le.1 h.depth_le.2, root, h.summary_eq]

end Node

end Strk20.Feed.Trie
