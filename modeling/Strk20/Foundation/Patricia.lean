import Mathlib.Data.List.Basic
import Mathlib.Data.Set.Function
import Mathlib.Algebra.Group.Basic

/-!
# Merkle-Patricia roots of finite-height slot functions

The abstract side of a binary Patricia trie. A trie of height `h` is read as
a *slot function* `List Bool → V`: only keys of length `h` matter and the
value `0` means absent. Nothing here knows how a program stores the trie.

- `summary H h f` is the subtree of `f` written as one (possibly empty) edge
  over a bottom hash, or `none` when `f` is zero everywhere.
- `root H h f` is the hash a parent stores for that subtree.
- `NodeAt H h f b` says that the node body `b` occurs in the trie of `f`.
- `CollisionFreeOn` is collision resistance on a given set of bodies. A hash
  into a finite field has collisions somewhere, so the assumption always names
  the bodies it is about.

`root_binary_inv` and `root_edge_inv` are the inversion rules a proof walk
uses: a body of the trie that hashes to the root of a subtree IS the top of
that subtree.
-/

namespace Strk20.Patricia

universe u

variable {V : Type u}

/-- How a trie hashes its two kinds of inner nodes. -/
structure Hashing (V : Type u) where
  binary : V → V → V
  edge : V → List Bool → V

/-- A subtree summarised as an edge (of length zero when it starts with a
binary node or is a leaf) over a bottom hash. -/
structure Summary (V : Type u) where
  path : List Bool
  bottom : V
deriving DecidableEq

/-- What a node hash is computed from. -/
inductive Body (V : Type u) where
  | binary (left right : V)
  | edge (child : V) (path : List Bool)
deriving DecidableEq

def Hashing.hash (H : Hashing V) : Body V → V
  | .binary l r => H.binary l r
  | .edge c p => H.edge c p

def Hashing.resolve (H : Hashing V) (n : Summary V) : V :=
  if n.path = [] then n.bottom else H.edge n.bottom n.path

/-- Two sibling subtrees become one: a lone child extends its edge by the bit
that leads to it, two children meet in a binary node. -/
def join (H : Hashing V) : Option (Summary V) → Option (Summary V) → Option (Summary V)
  | none, none => none
  | some l, none => some ⟨false :: l.path, l.bottom⟩
  | none, some r => some ⟨true :: r.path, r.bottom⟩
  | some l, some r => some ⟨[], H.binary (H.resolve l) (H.resolve r)⟩

theorem join_eq_none {H : Hashing V} {a b : Option (Summary V)} :
    join H a b = none ↔ a = none ∧ b = none := by
  cases a <;> cases b <;> simp [join]

/-- Prepend a path to a summary. -/
def Summary.extend (p : List Bool) (n : Summary V) : Summary V := ⟨p ++ n.path, n.bottom⟩

@[simp] theorem Summary.extend_nil (n : Summary V) : n.extend [] = n := rfl

@[simp] theorem Summary.extend_path (p : List Bool) (n : Summary V) :
    (n.extend p).path = p ++ n.path := rfl

@[simp] theorem Summary.extend_bottom (p : List Bool) (n : Summary V) :
    (n.extend p).bottom = n.bottom := rfl

/-- The slot function seen below the prefix `p`. -/
def below (f : List Bool → V) (p : List Bool) : List Bool → V :=
  fun k => f (p ++ k)

@[simp] theorem below_nil (f : List Bool → V) : below f [] = f := rfl

theorem below_append (f : List Bool → V) (p q : List Bool) :
    below f (p ++ q) = below (below f p) q := by
  funext k
  simp [below]

theorem below_apply (f : List Bool → V) (p k : List Bool) :
    below f p k = f (p ++ k) := rfl

variable [Zero V] [DecidableEq V]

/-- The subtree of height `h` under slot function `f`. -/
def summary (H : Hashing V) : Nat → (List Bool → V) → Option (Summary V)
  | 0, f => if f [] = 0 then none else some ⟨[], f []⟩
  | h + 1, f =>
      join H (summary H h fun k => f (false :: k)) (summary H h fun k => f (true :: k))

/-- The hash a parent stores for the subtree, `0` for the empty one. -/
def root (H : Hashing V) (h : Nat) (f : List Bool → V) : V :=
  match summary H h f with
  | none => 0
  | some n => H.resolve n

variable {H : Hashing V}

theorem root_of_summary {h : Nat} {f : List Bool → V} {n : Summary V}
    (hn : summary H h f = some n) : root H h f = H.resolve n := by
  unfold root
  rw [hn]

/-! ## The summary depends only on keys of the trie's height -/

theorem summary_congr : ∀ {h : Nat} {f g : List Bool → V},
    (∀ k, k.length = h → f k = g k) → summary H h f = summary H h g
  | 0, f, g, hfg => by
      simp only [summary, hfg [] rfl]
  | h + 1, f, g, hfg => by
      have hl := summary_congr (h := h)
        (f := fun k => f (false :: k)) (g := fun k => g (false :: k))
        (fun k hk => hfg _ (by simp [hk]))
      have hr := summary_congr (h := h)
        (f := fun k => f (true :: k)) (g := fun k => g (true :: k))
        (fun k hk => hfg _ (by simp [hk]))
      simp only [summary, hl, hr]

/-- The empty subtree is exactly the zero slot function. -/
theorem summary_eq_none_iff : ∀ {h : Nat} {f : List Bool → V},
    summary H h f = none ↔ ∀ k, k.length = h → f k = 0
  | 0, f => by
      simp only [summary, ite_eq_left_iff, reduceCtorEq, imp_false, not_not]
      constructor
      · intro h0 k hk
        rw [List.length_eq_zero_iff.mp hk]
        exact h0
      · intro hall
        exact hall [] rfl
  | h + 1, f => by
      rw [summary, join_eq_none, summary_eq_none_iff, summary_eq_none_iff]
      constructor
      · rintro ⟨hl, hr⟩ k hk
        cases k with
        | nil => simp at hk
        | cons b k =>
            have hk' : k.length = h := by simpa using hk
            cases b
            · exact hl k hk'
            · exact hr k hk'
      · intro hall
        exact ⟨fun k hk => hall _ (by simp [hk]), fun k hk => hall _ (by simp [hk])⟩

/-- A nonempty subtree has a slot. -/
theorem occupied_of_summary {h : Nat} {f : List Bool → V} {n : Summary V}
    (hn : summary H h f = some n) : ∃ k, k.length = h ∧ f k ≠ 0 := by
  by_contra hnone
  have : summary H h f = none := summary_eq_none_iff.mpr fun k hk => by
    by_contra hne
    exact hnone ⟨k, hk, hne⟩
  rw [hn] at this
  exact absurd this (by simp)

theorem root_eq_zero_of_forall {h : Nat} {f : List Bool → V}
    (hf : ∀ k, k.length = h → f k = 0) : root H h f = 0 := by
  simp [root, summary_eq_none_iff.mpr hf]

theorem root_congr {h : Nat} {f g : List Bool → V}
    (hfg : ∀ k, k.length = h → f k = g k) : root H h f = root H h g := by
  simp only [root, summary_congr hfg]

/-- At height zero the root is the value itself. -/
@[simp] theorem root_zero (f : List Bool → V) : root H 0 f = f [] := by
  by_cases h0 : f [] = 0
  · simp [root, summary, h0]
  · simp [root, summary, h0, Hashing.resolve]

/-! ## Shape of a summary -/

/-- A slot function that is zero outside the prefix `p` has the summary of
what lies below `p`, with `p` prepended. -/
theorem summary_of_prefix : ∀ {p : List Bool} {h : Nat} {f : List Bool → V},
    (∀ k, k.length = p.length + h → ¬ p <+: k → f k = 0) →
    summary H (p.length + h) f = (summary H h (below f p)).map (Summary.extend p)
  | [], h, f, _ => by
      simp only [List.length_nil, Nat.zero_add, below_nil]
      cases summary H h f <;> rfl
  | b :: p, h, f, hout => by
      have hlen : (b :: p).length + h = (p.length + h) + 1 := by simp; omega
      rw [hlen, summary]
      -- the sibling of the branch `p` continues into is empty
      have hside : ∀ c : Bool, c ≠ b →
          summary H (p.length + h) (fun k => f (c :: k)) = none := by
        intro c hc
        refine summary_eq_none_iff.mpr fun k hk => hout _ (by simp [hk]; omega) ?_
        intro hpre
        exact hc (List.cons_prefix_cons.mp hpre).1.symm
      have hin : summary H (p.length + h) (fun k => f (b :: k)) =
          (summary H h (below f (b :: p))).map (Summary.extend p) := by
        refine summary_of_prefix fun k hk hnp => hout _ (by simp [hk]; omega) ?_
        intro hpre
        exact hnp (List.cons_prefix_cons.mp hpre).2
      cases b with
      | false =>
          rw [hin, hside true (by decide)]
          cases summary H h (below f (false :: p)) <;> rfl
      | true =>
          rw [hin, hside false (by decide)]
          cases summary H h (below f (true :: p)) <;> rfl

/-- A trie with one slot is one edge over its value. -/
theorem summary_single {k : List Bool} {f : List Bool → V} (hk : f k ≠ 0)
    (hout : ∀ k', k'.length = k.length → k' ≠ k → f k' = 0) :
    summary H k.length f = some ⟨k, f k⟩ := by
  have hpre := summary_of_prefix (H := H) (p := k) (h := 0) (f := f) (by
    intro k' hk' hnp
    refine hout k' (by simpa using hk') ?_
    rintro rfl
    exact hnp (List.prefix_refl _))
  simp only [Nat.add_zero] at hpre
  rw [hpre]
  simp [summary, below, hk, Summary.extend]

/-- Both halves of a slot function are inhabited: the top node is binary. -/
theorem summary_binary {h : Nat} {f : List Bool → V} {l r : Summary V}
    (hl : summary H h (fun k => f (false :: k)) = some l)
    (hr : summary H h (fun k => f (true :: k)) = some r) :
    summary H (h + 1) f = some ⟨[], H.binary (H.resolve l) (H.resolve r)⟩ := by
  simp [summary, hl, hr, join]

/-- The path of a summary fits into the height, every slot lies under it, and
the subtree below it is again a summary with an empty path. -/
theorem summary_path_spec : ∀ {h : Nat} {f : List Bool → V} {n : Summary V},
    summary H h f = some n →
      ∃ h', h = n.path.length + h' ∧
        (∀ k, k.length = h → ¬ n.path <+: k → f k = 0) ∧
        summary H h' (below f n.path) = some ⟨[], n.bottom⟩
  | 0, f, n, hn => by
      by_cases h0 : f [] = 0
      · simp [summary, h0] at hn
      · simp only [summary, if_neg h0, Option.some.injEq] at hn
        subst hn
        exact ⟨0, by simp, fun k _ hk => absurd List.nil_prefix hk,
          by simp [summary, h0]⟩
  | h + 1, f, n, hn => by
      cases hl : summary H h (fun k => f (false :: k)) with
      | none =>
          cases hr : summary H h (fun k => f (true :: k)) with
          | none => simp [summary, hl, hr, join] at hn
          -- one side is empty: the path goes on through the other
          | some r =>
              simp only [summary, hl, hr, join, Option.some.injEq] at hn
              subst hn
              obtain ⟨h', hlen, hout, hbelow⟩ := summary_path_spec hr
              refine ⟨h', by simp; omega, ?_, hbelow⟩
              intro k hk hnp
              cases k with
              | nil => simp at hk
              | cons b k =>
                  have hk' : k.length = h := by simpa using hk
                  cases b with
                  | false => exact summary_eq_none_iff.mp hl k hk'
                  | true =>
                      exact hout k hk' fun hp =>
                        hnp (List.cons_prefix_cons.mpr ⟨rfl, hp⟩)
      | some l =>
          cases hr : summary H h (fun k => f (true :: k)) with
          | none =>
              simp only [summary, hl, hr, join, Option.some.injEq] at hn
              subst hn
              obtain ⟨h', hlen, hout, hbelow⟩ := summary_path_spec hl
              refine ⟨h', by simp; omega, ?_, hbelow⟩
              intro k hk hnp
              cases k with
              | nil => simp at hk
              | cons b k =>
                  have hk' : k.length = h := by simpa using hk
                  cases b with
                  | true => exact summary_eq_none_iff.mp hr k hk'
                  | false =>
                      exact hout k hk' fun hp =>
                        hnp (List.cons_prefix_cons.mpr ⟨rfl, hp⟩)
          | some r =>
              -- entries on both sides: the path ends here
              have hn' := hn
              simp only [summary, hl, hr, join, Option.some.injEq] at hn'
              subst hn'
              exact ⟨h + 1, by simp, fun k _ hk => absurd List.nil_prefix hk,
                by simpa using hn⟩

/-- A nonempty subtree without an edge on top is a leaf or has both children. -/
theorem summary_nil_path {h : Nat} {f : List Bool → V} {v : V}
    (hn : summary H (h + 1) f = some ⟨[], v⟩) :
    ∃ l r, summary H h (fun k => f (false :: k)) = some l ∧
      summary H h (fun k => f (true :: k)) = some r ∧
      v = H.binary (H.resolve l) (H.resolve r) := by
  cases hl : summary H h (fun k => f (false :: k)) with
  | none =>
      cases hr : summary H h (fun k => f (true :: k)) <;>
        simp [summary, hl, hr, join] at hn
  | some l =>
      cases hr : summary H h (fun k => f (true :: k)) with
      | none => simp [summary, hl, hr, join] at hn
      | some r =>
          simp only [summary, hl, hr, join, Option.some.injEq, Summary.mk.injEq,
            true_and] at hn
          exact ⟨l, r, rfl, rfl, hn.symm⟩

/-! ## The nodes of a trie

Positions that are not nodes (the inside of an edge) contribute no body. -/

/-- The body `b` occurs as a node of the trie of height `h` under `f`. -/
inductive NodeAt (H : Hashing V) : Nat → (List Bool → V) → Body V → Prop
  | binary {h : Nat} {f : List Bool → V} {l r : Summary V}
      (hl : summary H h (fun k => f (false :: k)) = some l)
      (hr : summary H h (fun k => f (true :: k)) = some r) :
      NodeAt H (h + 1) f (.binary (H.resolve l) (H.resolve r))
  | edge {h : Nat} {f : List Bool → V} {n : Summary V}
      (hn : summary H h f = some n) (hp : n.path ≠ []) :
      NodeAt H h f (.edge n.bottom n.path)
  | left {h : Nat} {f : List Bool → V} {l r : Summary V} {b : Body V}
      (hl : summary H h (fun k => f (false :: k)) = some l)
      (hr : summary H h (fun k => f (true :: k)) = some r)
      (hb : NodeAt H h (fun k => f (false :: k)) b) : NodeAt H (h + 1) f b
  | right {h : Nat} {f : List Bool → V} {l r : Summary V} {b : Body V}
      (hl : summary H h (fun k => f (false :: k)) = some l)
      (hr : summary H h (fun k => f (true :: k)) = some r)
      (hb : NodeAt H h (fun k => f (true :: k)) b) : NodeAt H (h + 1) f b
  | under {h : Nat} {f : List Bool → V} {n : Summary V} {b : Body V}
      (hn : summary H (n.path.length + h) f = some n) (hp : n.path ≠ [])
      (hb : NodeAt H h (below f n.path) b) : NodeAt H (n.path.length + h) f b

/-- The set of node bodies of a trie. -/
def nodes (H : Hashing V) (h : Nat) (f : List Bool → V) : Set (Body V) :=
  {b | NodeAt H h f b}

/-- Leaves are values, not nodes. -/
theorem nodeAt_pos {h : Nat} {f : List Bool → V} {b : Body V} (hb : NodeAt H h f b) : 0 < h := by
  cases hb with
  | binary hl hr => exact Nat.succ_pos _
  | edge hn hp =>
      obtain ⟨h', hlen, -, -⟩ := summary_path_spec hn
      have := List.length_pos_iff.mpr hp
      omega
  | left hl hr hb => exact Nat.succ_pos _
  | right hl hr hb => exact Nat.succ_pos _
  | under hn hp hb =>
      have := List.length_pos_iff.mpr hp
      omega

/-- No edge of a trie is longer than the trie is high. -/
theorem nodeAt_path_length {h : Nat} {f : List Bool → V} {b : Body V} (hb : NodeAt H h f b) :
    ∀ {c : V} {p : List Bool}, b = .edge c p → p.length ≤ h := by
  induction hb with
  | binary hl hr =>
      intro c p heq
      cases heq
  | edge hn hp =>
      intro c p heq
      obtain ⟨h', hlen, -, -⟩ := summary_path_spec hn
      cases heq
      omega
  | left hl hr hb ih =>
      intro c p heq
      exact Nat.le_succ_of_le (ih heq)
  | right hl hr hb ih =>
      intro c p heq
      exact Nat.le_succ_of_le (ih heq)
  | under hn hp hb ih =>
      intro c p heq
      exact Nat.le_add_left_of_le (ih heq)

/-- The empty trie has no node. -/
theorem not_nodeAt_of_zero {h : Nat} {f : List Bool → V} (hf : ∀ k, k.length = h → f k = 0)
    {b : Body V} : ¬ NodeAt H h f b := by
  intro hb
  have hnone := summary_eq_none_iff (H := H).mpr hf
  cases hb with
  | binary hl hr =>
      rw [summary_binary hl hr] at hnone
      cases hnone
  | edge hn hp =>
      rw [hn] at hnone
      cases hnone
  | left hl hr hb =>
      rw [summary_binary hl hr] at hnone
      cases hnone
  | right hl hr hb =>
      rw [summary_binary hl hr] at hnone
      cases hnone
  | under hn hp hb =>
      rw [hn] at hnone
      cases hnone

/-- A trie with one slot has one node, the edge to it. -/
theorem nodeAt_single {k : List Bool} {f : List Bool → V} (hk : f k ≠ 0)
    (hout : ∀ k', k'.length = k.length → k' ≠ k → f k' = 0) {b : Body V}
    (hb : NodeAt H k.length f b) : b = .edge (f k) k := by
  have hs := summary_single (H := H) hk hout
  generalize hh : k.length = h at hb hs
  cases hb with
  | binary hl hr =>
      rw [summary_binary hl hr, Option.some.injEq, Summary.mk.injEq] at hs
      rw [← hs.1] at hh
      exact absurd hh (by simp)
  | edge hn hp =>
      rw [hn, Option.some.injEq] at hs
      rw [hs]
  | left hl hr hb =>
      rw [summary_binary hl hr, Option.some.injEq, Summary.mk.injEq] at hs
      rw [← hs.1] at hh
      exact absurd hh (by simp)
  | right hl hr hb =>
      rw [summary_binary hl hr, Option.some.injEq, Summary.mk.injEq] at hs
      rw [← hs.1] at hh
      exact absurd hh (by simp)
  | @under h' _ n _ hn hp hb =>
      rw [hn, Option.some.injEq] at hs
      subst hs
      have hpos := nodeAt_pos hb
      simp only at hh
      omega

/-- Below a prefix, a trie with one slot has at most the edge to it. -/
theorem nodeAt_below_single {f : List Bool → V} {key pre : List Bool} {v : V}
    (hkey : f key = v) (hv : v ≠ 0) (hout : ∀ k, k.length = key.length → k ≠ key → f k = 0)
    (hpre : pre.length ≤ key.length) {b : Body V}
    (hb : NodeAt H (key.length - pre.length) (below f pre) b) :
    ∃ t, pre ++ t = key ∧ t ≠ [] ∧ b = .edge v t := by
  by_cases hon : pre <+: key
  · obtain ⟨t, rfl⟩ := hon
    have hlen : (pre ++ t).length - pre.length = t.length := by
      rw [List.length_append]
      omega
    rw [hlen] at hb
    have hslot : below f pre t = v := hkey
    refine ⟨t, rfl, ?_, ?_⟩
    · rintro rfl
      exact absurd (nodeAt_pos hb) (lt_irrefl 0)
    · rw [← hslot]
      refine nodeAt_single (by rw [hslot]; exact hv) ?_ hb
      intro k hk hne
      refine hout (pre ++ k) (by rw [List.length_append, List.length_append, hk]) ?_
      intro heq
      exact hne (List.append_cancel_left heq)
  · refine absurd hb (not_nodeAt_of_zero fun k hk => hout (pre ++ k) ?_ ?_)
    · rw [List.length_append, hk]
      omega
    · intro heq
      exact hon ⟨k, heq⟩

/-- No two different bodies of `S` share a hash, and none hashes to the empty
subtree's `0`. -/
structure CollisionFreeOn (H : Hashing V) (S : Set (Body V)) : Prop where
  inj : Set.InjOn H.hash S
  ne_zero : ∀ b ∈ S, H.hash b ≠ 0

omit [DecidableEq V] in
theorem CollisionFreeOn.mono {S T : Set (Body V)} (hT : CollisionFreeOn H T)
    (hST : S ⊆ T) : CollisionFreeOn H S :=
  ⟨hT.inj.mono hST, fun b hb => hT.ne_zero b (hST hb)⟩

/-- The node on top of a nonempty subtree, and what its hash is. -/
theorem exists_top {h : Nat} {f : List Bool → V} {n : Summary V}
    (hn : summary H (h + 1) f = some n) :
    ∃ b, NodeAt H (h + 1) f b ∧ H.hash b = root H (h + 1) f := by
  by_cases hp : n.path = []
  · obtain ⟨path, bottom⟩ := n
    simp only at hp
    subst hp
    obtain ⟨l, r, hl, hr, rfl⟩ := summary_nil_path hn
    exact ⟨_, .binary hl hr, by simp [root, hn, Hashing.hash, Hashing.resolve]⟩
  · exact ⟨_, .edge hn hp, by simp [root, hn, Hashing.hash, Hashing.resolve, hp]⟩

/-- A zero root of positive height is the empty subtree, once no node hashes
to zero. -/
theorem root_eq_zero_inv {h : Nat} {f : List Bool → V}
    (hnz : ∀ b, NodeAt H (h + 1) f b → H.hash b ≠ 0)
    (hroot : root H (h + 1) f = 0) : ∀ k, k.length = h + 1 → f k = 0 := by
  cases hn : summary H (h + 1) f with
  | none => exact summary_eq_none_iff.mp hn
  | some n =>
      obtain ⟨b, hb, hhash⟩ := exists_top hn
      exact absurd (hhash.trans hroot) (hnz b hb)

/-- The body `b` collides with no node of the trie. -/
def NoCollision (H : Hashing V) (h : Nat) (f : List Bool → V) (b : Body V) : Prop :=
  ∀ b', NodeAt H h f b' → H.hash b' = H.hash b → b' = b

/-- A binary body that hashes to a nonzero root is the trie's top node: its
two halves are the roots of the two halves of the slot function. -/
theorem root_binary_inv {h : Nat} {f : List Bool → V} {l r : V}
    (hcf : NoCollision H (h + 1) f (.binary l r))
    (hroot : root H (h + 1) f = H.binary l r) (hnz : root H (h + 1) f ≠ 0) :
    l = root H h (fun k => f (false :: k)) ∧ r = root H h (fun k => f (true :: k)) ∧
      (∀ c b, NodeAt H h (fun k => f (c :: k)) b → NodeAt H (h + 1) f b) ∧
      ∀ c, ∃ k, k.length = h ∧ f (c :: k) ≠ 0 := by
  cases hn : summary H (h + 1) f with
  | none => exact absurd (by simp [root, hn]) hnz
  | some n =>
      by_cases hp : n.path = []
      · obtain ⟨path, bottom⟩ := n
        simp only at hp
        subst hp
        obtain ⟨sl, sr, hl, hr, hbot⟩ := summary_nil_path hn
        have htop := hcf _ (.binary hl hr) (by
          rw [show H.hash (.binary l r) = root H (h + 1) f from hroot.symm]
          simp [root, hn, Hashing.hash, Hashing.resolve, hbot])
        obtain ⟨rfl, rfl⟩ := Body.binary.inj htop
        refine ⟨by simp [root, hl], by simp [root, hr], ?_, ?_⟩
        · intro c b hb
          cases c with
          | false => exact .left hl hr hb
          | true => exact .right hl hr hb
        · intro c
          cases c with
          | false => exact occupied_of_summary hl
          | true => exact occupied_of_summary hr
      · have htop := hcf _ (.edge hn hp) (by
          rw [show H.hash (.binary l r) = root H (h + 1) f from hroot.symm]
          simp [root, hn, Hashing.hash, Hashing.resolve, hp])
        exact absurd htop (by simp)

/-- An edge body that hashes to a nonzero root is the trie's top node: its
child is the root below its path, and no slot lies outside the path. -/
theorem root_edge_inv {h : Nat} {f : List Bool → V} {c : V} {p : List Bool}
    (hcf : NoCollision H (h + 1) f (.edge c p))
    (hroot : root H (h + 1) f = H.edge c p) (hnz : root H (h + 1) f ≠ 0) :
    ∃ h', h + 1 = p.length + h' ∧ c = root H h' (below f p) ∧ p ≠ [] ∧
      (∀ k, k.length = h + 1 → ¬ p <+: k → f k = 0) ∧
      (∀ b, NodeAt H h' (below f p) b → NodeAt H (h + 1) f b) ∧
      ∃ k, k.length = h' ∧ below f p k ≠ 0 := by
  cases hn : summary H (h + 1) f with
  | none => exact absurd (by simp [root, hn]) hnz
  | some n =>
      by_cases hp : n.path = []
      · obtain ⟨path, bottom⟩ := n
        simp only at hp
        subst hp
        obtain ⟨sl, sr, hl, hr, hbot⟩ := summary_nil_path hn
        have htop := hcf _ (.binary hl hr) (by
          rw [show H.hash (.edge c p) = root H (h + 1) f from hroot.symm]
          simp [root, hn, Hashing.hash, Hashing.resolve, hbot])
        exact absurd htop (by simp)
      · have htop := hcf _ (.edge hn hp) (by
          rw [show H.hash (.edge c p) = root H (h + 1) f from hroot.symm]
          simp [root, hn, Hashing.hash, Hashing.resolve, hp])
        obtain ⟨rfl, rfl⟩ := Body.edge.inj htop
        obtain ⟨h', hlen, hout, hbelow⟩ := summary_path_spec hn
        refine ⟨h', hlen, by simp [root, hbelow, Hashing.resolve], hp, hout, ?_,
          occupied_of_summary hbelow⟩
        intro b hb
        rw [hlen] at hn ⊢
        exact .under hn hp hb

/-! ## A root determines its slot function -/

theorem noCollision_of_collisionFreeOn {S : Set (Body V)} (hS : CollisionFreeOn H S)
    {h : Nat} {f : List Bool → V} {b : Body V} (hsub : nodes H h f ⊆ S) (hb : b ∈ S) :
    NoCollision H h f b :=
  fun _ hb' heq => hS.inj (hsub hb') hb heq

/-- **Injectivity of the root.** Two slot functions of one height with the same
root agree on every key, when the hash is collision-free on their nodes. -/
theorem root_inj {S : Set (Body V)} (hS : CollisionFreeOn H S) :
    ∀ {h : Nat} {f g : List Bool → V}, nodes H h f ⊆ S → nodes H h g ⊆ S →
      root H h f = root H h g → ∀ k, k.length = h → f k = g k := by
  intro h
  induction h using Nat.strong_induction_on with
  | _ h ih =>
      intro f g hf hg heq k hk
      cases h with
      | zero =>
          rw [List.length_eq_zero_iff.mp hk]
          simpa using heq
      | succ h =>
          by_cases hz : root H (h + 1) f = 0
          · -- both tries are empty
            have hfz := root_eq_zero_inv (fun b hb => hS.ne_zero b (hf hb)) hz k hk
            have hgz := root_eq_zero_inv (fun b hb => hS.ne_zero b (hg hb))
              (heq.symm.trans hz) k hk
            rw [hfz, hgz]
          · cases hn : summary H (h + 1) g with
            | none => exact absurd (heq.trans (by simp [root, hn])) hz
            | some n =>
                -- the top node of `g` is also the top node of `f`
                obtain ⟨b, hb, hhash⟩ := exists_top hn
                have hcfF := noCollision_of_collisionFreeOn hS hf (hg hb)
                have hcfG := noCollision_of_collisionFreeOn hS hg (hg hb)
                have hgz : root H (h + 1) g ≠ 0 := heq ▸ hz
                cases b with
                | binary l r =>
                    obtain ⟨hfl, hfr, hfN, -⟩ :=
                      root_binary_inv hcfF (heq.trans hhash.symm) hz
                    obtain ⟨hgl, hgr, hgN, -⟩ :=
                      root_binary_inv hcfG hhash.symm hgz
                    cases k with
                    | nil => simp at hk
                    | cons c k =>
                        have hk' : k.length = h := by simpa using hk
                        cases c with
                        | false =>
                            exact ih h (Nat.lt_succ_self h) (fun b hb => hf (hfN false b hb))
                              (fun b hb => hg (hgN false b hb)) (hfl.symm.trans hgl) k hk'
                        | true =>
                            exact ih h (Nat.lt_succ_self h) (fun b hb => hf (hfN true b hb))
                              (fun b hb => hg (hgN true b hb)) (hfr.symm.trans hgr) k hk'
                | edge c p =>
                    obtain ⟨h₁, hlen₁, hfc, hp, hfout, hfU, -⟩ :=
                      root_edge_inv hcfF (heq.trans hhash.symm) hz
                    obtain ⟨h₂, hlen₂, hgc, -, hgout, hgU, -⟩ :=
                      root_edge_inv hcfG hhash.symm hgz
                    obtain rfl : h₁ = h₂ := by omega
                    by_cases hpk : p <+: k
                    · obtain ⟨t, rfl⟩ := hpk
                      have hpos : 0 < p.length := List.length_pos_iff.mpr hp
                      exact ih h₁ (by omega) (fun b hb => hf (hfU b hb))
                        (fun b hb => hg (hgU b hb)) (hfc.symm.trans hgc) t
                        (by simp at hk; omega)
                    · rw [hfout k hk hpk, hgout k hk hpk]

end Strk20.Patricia
