import Mathlib.Data.List.Pairwise
import Strk20.Foundation.Json
import Strk20.Feed.MptPrefix
import Strk20.Feed.StorageProof

/-!
# Generated storage proofs (`e2e-tests/src/storage_proof.rs`)

`nodesFor` computes the node set a storage-proof endpoint returns from the slot set
alone. It walks down by slices of the sorted entries, an edge being what the first and
the last key of a slice share; `verifyStorageProof` walks down by hashes and key bits.

- `emit_spec`: what one round of the generator emits is the top node of the subtree
  it stands at.
- `nodesAlong_spec`: the nodes emitted on the way to a key are all the verifier asks for.
- `nodesFor_complete`: a generated set proves what the slots say of every key asked for.
-/

namespace Strk20.Feed.Mpt

open BitPath Strk20.Lists Patricia Tables Result
open Std (ExtTreeMap)
open Json (asStr asU64)

/-! ## Proof nodes as JSON -/

/-- The `json!` value of a proof node. -/
def ProofNode.toJson (n : ProofNode) : Json :=
  .obj [("node_hash", .str n.nodeHash), ("node", match n.node with
    | .edge path length child =>
        .obj [("path", .str path), ("length", .num length), ("child", .str child)]
    | .binary left right => .obj [("left", .str left), ("right", .str right)])]

/-- `ProofNodeBody` is untagged: the first variant whose fields are there. -/
def ProofNodeBody.fromValue (v : Json) : Option ProofNodeBody :=
  (do
    let left ← (v.get "left").bind asStr
    let right ← (v.get "right").bind asStr
    some (.binary left right)) <|>
  (do
    let path ← (v.get "path").bind asStr
    let length ← (v.get "length").bind asU64
    let child ← (v.get "child").bind asStr
    some (.edge path length child))

def ProofNode.fromValue (v : Json) : Option ProofNode := do
  let nodeHash ← (v.get "node_hash").bind asStr
  let node ← (v.get "node").bind ProofNodeBody.fromValue
  some ⟨nodeHash, node⟩

section Model

variable (pedersen : Felt → Felt → Felt)

/-- The `while` loop that finds where two keys part. `fuel` is the number of bits from
`e` on. -/
def edgeEnd (first last : List Bool) : Nat → Nat → Nat
  | 0, e => e
  | fuel + 1, e => if bitAt first e = bitAt last e then edgeEnd first last fuel (e + 1) else e

/-- A node of the proof, and the prefix the loop goes on with unless it breaks. -/
structure Emitted where
  nodeHash : Felt
  node : ProofNodeBody
  next : Option (List Bool)

/-- The body of the loop at `pre`; `none` when it breaks before a node. -/
def emit (sorted : List (List Bool × Felt)) (path pre : List Bool) : Option Emitted :=
  match entriesWithPrefix sorted pre with
  | [] => none
  | e :: es =>
      if pre.length = TREE_HEIGHT then none
      else
        let nodeHash := subtreeHashAt pedersen sorted pre
        let first := e.1
        let last := ((e :: es).getLast (List.cons_ne_nil e es)).1
        let stop := edgeEnd first last (TREE_HEIGHT - pre.length) pre.length
        if pre.length < stop then
          let edge := (first.take stop).drop pre.length
          let child := subtreeHashAt pedersen sorted (first.take stop)
          -- a key that leaves the edge is proven absent by it
          some ⟨nodeHash, .edge (feltHex (bitsToFelt edge)) edge.length (feltHex child),
            if (path.take stop).drop pre.length ≠ edge then none else some (first.take stop)⟩
        else
          let left := subtreeHashAt pedersen sorted (pre ++ [false])
          let right := subtreeHashAt pedersen sorted (pre ++ [true])
          some ⟨nodeHash, .binary (feltHex left) (feltHex right),
            some (pre ++ [bitAt path pre.length])⟩

/-- The loop for one key. `none` when the fuel does not suffice. -/
def nodesAlong (sorted : List (List Bool × Felt)) (path : List Bool) :
    Nat → List Bool → ExtTreeMap Key ProofNode → Option (ExtTreeMap Key ProofNode)
  | 0, _, _ => none
  | fuel + 1, pre, out =>
      match emit pedersen sorted path pre with
      | none => some out
      | some emitted =>
          let out := out.insert (toBytesBe emitted.nodeHash)
            ⟨feltHex emitted.nodeHash, emitted.node⟩
          match emitted.next with
          | none => some out
          | some pre => nodesAlong sorted path fuel pre out

/-- Every node on the way to each of `keys`, once, in the order of the hashes. A round
that goes on lengthens the prefix, so a key takes at most `TREE_HEIGHT + 1` of them. -/
def nodesFor (entries : List (Felt × Felt)) (keys : List Felt) : Option (List Json) := do
  let out ← keys.foldlM (fun out key =>
    nodesAlong pedersen (bitEntries entries) (keyBits key) (TREE_HEIGHT + 1) [] out) ∅
  some (out.toList.map fun e => e.2.toJson)

/-! ## Where an edge ends -/

theorem edgeEnd_run {first last q : List Bool} : ∀ {e fuel : Nat}, q <+: first.drop e →
    q <+: last.drop e →
      edgeEnd first last (q.length + fuel) e = edgeEnd first last fuel (e + q.length) := by
  induction q with
  | nil =>
      intro e fuel _ _
      rw [List.length_nil, Nat.zero_add, Nat.add_zero]
  | cons b q ih =>
      rintro e fuel ⟨s, hs⟩ ⟨t, ht⟩
      have hbit : ∀ {bits u : List Bool}, b :: q ++ u = bits.drop e →
          bitAt bits e = b ∧ q <+: bits.drop (e + 1) := by
        intro bits u hu
        have hlt : e < bits.length := by
          by_contra hge
          rw [List.drop_eq_nil_of_le (Nat.le_of_not_lt hge)] at hu
          cases hu
        rw [drop_eq_bitAt_cons hlt, List.cons_append, List.cons.injEq] at hu
        exact ⟨hu.1.symm, u, hu.2⟩
      obtain ⟨hfirst, hpre⟩ := hbit hs
      obtain ⟨hlast, hpre'⟩ := hbit ht
      have hlen : (b :: q).length + fuel = (q.length + fuel) + 1 := by
        rw [List.length_cons]
        omega
      rw [hlen, edgeEnd, if_pos (hfirst.trans hlast.symm), ih hpre hpre', List.length_cons,
        Nat.add_assoc, Nat.add_comm 1]

theorem edgeEnd_stop {first last : List Bool} {e fuel : Nat}
    (h : bitAt first e ≠ bitAt last e) : edgeEnd first last fuel e = e := by
  cases fuel with
  | zero => rfl
  | succ fuel => rw [edgeEnd, if_neg h]

theorem bitAt_append (q t : List Bool) (b : Bool) : bitAt (q ++ b :: t) q.length = b := by
  rw [bitAt, List.getD_eq_getElem?_getD, List.getElem?_append_right (Nat.le_refl _), Nat.sub_self]
  rfl

section Slice

variable {entries : List (Felt × Felt)} {pre : List Bool}

theorem mem_entriesWithPrefix {e : List Bool × Felt} :
    e ∈ entriesWithPrefix (bitEntries entries) pre ↔ e ∈ bitEntries entries ∧ pre <+: e.1 := by
  rw [entriesWithPrefix_eq_filter (bitEntries_sorted entries), List.mem_filter,
    List.isPrefixOf_iff_prefix]

theorem entriesWithPrefix_sorted (entries : List (Felt × Felt)) (pre : List Bool) :
    BitSorted (entriesWithPrefix (bitEntries entries) pre) := by
  rw [entriesWithPrefix_eq_filter (bitEntries_sorted entries)]
  exact (bitEntries_sorted entries).sublist List.filter_sublist

/-- The slice under a prefix is the occupied slots below it. -/
theorem mem_slice_iff (hset : SlotSet entries) (hpre : pre.length ≤ TREE_HEIGHT) {k : List Bool}
    (hk : k.length = TREE_HEIGHT - pre.length) :
    (∃ v, (pre ++ k, v) ∈ entriesWithPrefix (bitEntries entries) pre) ↔
      below (slotFn entries) pre k ≠ 0 := by
  have hlen : (pre ++ k).length = TREE_HEIGHT := by
    rw [List.length_append]
    omega
  have hnodup : ((bitEntries entries).map Prod.fst).Nodup :=
    List.pairwise_map.mpr ((bitEntries_sorted entries).imp fun h => h.2)
  rw [below_apply, ← assoc_bitEntries hset hlen]
  constructor
  · rintro ⟨v, hv⟩
    have hmem := (mem_entriesWithPrefix.mp hv).1
    rw [assoc_of_mem hnodup hmem]
    exact (mem_bitEntries_length hmem).2
  · intro hne
    exact ⟨_, mem_entriesWithPrefix.mpr ⟨mem_of_assoc_ne_zero hne, List.prefix_append _ _⟩⟩

/-- An entry of the slice is a prefix and an occupied slot below it. -/
theorem slice_split (hset : SlotSet entries) (hpre : pre.length ≤ TREE_HEIGHT)
    {e : List Bool × Felt} (he : e ∈ entriesWithPrefix (bitEntries entries) pre) :
    ∃ k, e.1 = pre ++ k ∧ k.length = TREE_HEIGHT - pre.length ∧
      below (slotFn entries) pre k ≠ 0 := by
  obtain ⟨hmem, k, hk⟩ := mem_entriesWithPrefix.mp he
  have hlen := (mem_bitEntries_length hmem).1
  rw [← hk, List.length_append] at hlen
  have hkl : k.length = TREE_HEIGHT - pre.length := by omega
  refine ⟨k, hk.symm, hkl, (mem_slice_iff hset hpre hkl).mp ⟨e.2, ?_⟩⟩
  rw [hk]
  exact he

theorem slice_eq_nil_iff (hset : SlotSet entries) (hpre : pre.length ≤ TREE_HEIGHT) :
    entriesWithPrefix (bitEntries entries) pre = [] ↔
      summary (feltHashing pedersen) (TREE_HEIGHT - pre.length) (below (slotFn entries) pre) =
        none := by
  rw [summary_eq_none_iff]
  constructor
  · intro hnil k hk
    by_contra hne
    obtain ⟨v, hv⟩ := (mem_slice_iff hset hpre hk).mpr hne
    rw [hnil] at hv
    cases hv
  · intro hzero
    refine List.eq_nil_iff_forall_not_mem.mpr fun e he => ?_
    obtain ⟨k, -, hk, hne⟩ := slice_split hset hpre he
    exact hne (hzero k hk)

/-- The first and the last key of a slice part where the summary's path ends: all slots
lie under the path, and below its end both sides are occupied. -/
theorem edgeEnd_slice (hset : SlotSet entries) (hpre : pre.length ≤ TREE_HEIGHT)
    {e : List Bool × Felt} {es : List (List Bool × Felt)}
    (hslice : entriesWithPrefix (bitEntries entries) pre = e :: es) {n : SubNode}
    (hn : summary (feltHashing pedersen) (TREE_HEIGHT - pre.length) (below (slotFn entries) pre) =
      some n) :
    edgeEnd e.1 ((e :: es).getLast (List.cons_ne_nil e es)).1 (TREE_HEIGHT - pre.length)
        pre.length = pre.length + n.path.length ∧
      e.1.take (pre.length + n.path.length) = pre ++ n.path := by
  set l := (e :: es).getLast (List.cons_ne_nil e es) with hl
  obtain ⟨h', hh', hout, hbelow⟩ := summary_path_spec hn
  have hunder : ∀ x ∈ e :: es, ∃ t, x.1 = pre ++ n.path ++ t ∧ t.length = h' := by
    intro x hx
    rw [← hslice] at hx
    obtain ⟨k, hk, hlen, hne⟩ := slice_split hset hpre hx
    by_cases hp : n.path <+: k
    · obtain ⟨t, rfl⟩ := hp
      refine ⟨t, by rw [hk, List.append_assoc], ?_⟩
      rw [List.length_append] at hlen
      omega
    · exact absurd (hout k hlen hp) hne
  obtain ⟨t, ht, htlen⟩ := hunder e List.mem_cons_self
  obtain ⟨u, hu, hulen⟩ := hunder l (List.getLast_mem _)
  have hdrop : ∀ v : List Bool, (pre ++ n.path ++ v).drop pre.length = n.path ++ v := by
    intro v
    rw [List.append_assoc, List.drop_left]
  refine ⟨?_, ?_⟩
  · rw [hh', edgeEnd_run]
    rotate_left
    · rw [ht, hdrop]
      exact List.prefix_append _ _
    · rw [hu, hdrop]
      exact List.prefix_append _ _
    cases h' with
    | zero => rfl
    | succ h =>
        -- the first key takes the left side, the last one the right side
        obtain ⟨sl, sr, hleft, hright, -⟩ := summary_nil_path hbelow
        obtain ⟨kl, hkl, hnl⟩ := occupied_of_summary hleft
        obtain ⟨kr, hkr, hnr⟩ := occupied_of_summary hright
        have hmem : ∀ (b : Bool) (k : List Bool), k.length = h →
            below (below (slotFn entries) pre) n.path (b :: k) ≠ 0 →
              ∃ v, (pre ++ n.path ++ b :: k, v) ∈ e :: es := by
          intro b k hk hne
          have hlen : (n.path ++ b :: k).length = TREE_HEIGHT - pre.length := by
            rw [List.length_append, List.length_cons]
            omega
          obtain ⟨v, hv⟩ := (mem_slice_iff hset hpre hlen).mpr hne
          rw [hslice, ← List.append_assoc] at hv
          exact ⟨v, hv⟩
        have hsorted : BitSorted (entriesWithPrefix (bitEntries entries) pre) :=
          entriesWithPrefix_sorted entries pre
        rw [hslice] at hsorted
        have hle : (e :: es).Pairwise fun a b => le a.1 b.1 = true := hsorted.imp fun h => h.1
        have : Std.Refl fun a b : List Bool × Felt => le a.1 b.1 = true := ⟨fun a => le_refl a.1⟩
        obtain ⟨vl, hvl⟩ := hmem false kl hkl hnl
        obtain ⟨vr, hvr⟩ := hmem true kr hkr hnr
        have hfirst := hle.rel_head hvl
        have hlast := hle.rel_getLast hvr
        rw [List.head_cons, ht, le_append_left_iff] at hfirst
        rw [← hl, hu, le_append_left_iff] at hlast
        apply edgeEnd_stop
        rw [ht, hu, ← List.length_append]
        cases t with
        | nil => cases htlen
        | cons a t =>
            cases u with
            | nil => cases hulen
            | cons b u =>
                rw [bitAt_append, bitAt_append]
                cases a <;> cases b <;> simp_all [le]
  · rw [ht, ← List.length_append, List.take_left]

end Slice

/-! ## What a round emits -/

/-- The text of a node body. -/
def bodyText : Body Felt → ProofNodeBody
  | .binary l r => .binary (feltHex l) (feltHex r)
  | .edge c p => .edge (feltHex (bitsToFelt p)) p.length (feltHex c)

def proofNode (b : Body Felt) : ProofNode :=
  ⟨feltHex ((feltHashing pedersen).hash b), bodyText b⟩

/-- Everything a round of the generator can do at the prefix `pre` of a trie: nothing at
an empty subtree or a leaf, else its top node. -/
inductive EmitSpec (f : List Bool → Felt) (path pre : List Bool) : Option Emitted → Prop
  | empty (hnone : summary (feltHashing pedersen) (TREE_HEIGHT - pre.length) (below f pre) = none) :
      EmitSpec f path pre none
  | leaf (hleaf : pre.length = TREE_HEIGHT) : EmitSpec f path pre none
  | edge {n : SubNode} (hn : summary (feltHashing pedersen) (TREE_HEIGHT - pre.length)
        (below f pre) = some n) (hp : n.path ≠ []) :
      EmitSpec f path pre (some ⟨(feltHashing pedersen).hash (.edge n.bottom n.path),
        bodyText (.edge n.bottom n.path),
        if n.path <+: path.drop pre.length then some (pre ++ n.path) else none⟩)
  | binary {h : Nat} {l r : SubNode} (hh : TREE_HEIGHT - pre.length = h + 1)
      (hl : summary (feltHashing pedersen) h (fun k => below f pre (false :: k)) = some l)
      (hr : summary (feltHashing pedersen) h (fun k => below f pre (true :: k)) = some r) :
      EmitSpec f path pre (some ⟨(feltHashing pedersen).hash
          (.binary ((feltHashing pedersen).resolve l) ((feltHashing pedersen).resolve r)),
        bodyText (.binary ((feltHashing pedersen).resolve l) ((feltHashing pedersen).resolve r)),
        some (pre ++ [bitAt path pre.length])⟩)

theorem emit_spec {entries : List (Felt × Felt)} (hset : SlotSet entries) (path : List Bool)
    {pre : List Bool} (hpre : pre.length ≤ TREE_HEIGHT) :
    EmitSpec pedersen (slotFn entries) path pre
      (emit pedersen (bitEntries entries) path pre) := by
  unfold emit
  cases hslice : entriesWithPrefix (bitEntries entries) pre with
  | nil => exact .empty ((slice_eq_nil_iff pedersen hset hpre).mp hslice)
  | cons e es =>
      simp only
      by_cases hleaf : pre.length = TREE_HEIGHT
      · rw [if_pos hleaf]
        exact .leaf hleaf
      rw [if_neg hleaf]
      cases hn : summary (feltHashing pedersen) (TREE_HEIGHT - pre.length)
          (below (slotFn entries) pre) with
      | none =>
          rw [(slice_eq_nil_iff pedersen hset hpre).mpr hn] at hslice
          cases hslice
      | some n =>
          obtain ⟨hstop, htake⟩ := edgeEnd_slice pedersen hset hpre hslice hn
          obtain ⟨h', hh', -, hbelow⟩ := summary_path_spec hn
          rw [hstop, htake, List.drop_left, subtreeHashAt_eq_root pedersen hset hpre,
            root_of_summary hn]
          -- an empty path: both sides hold an entry, and the node is a binary one
          by_cases hp : n.path = []
          · have hlt : ¬ pre.length < pre.length + n.path.length := by
              rw [hp, List.length_nil]
              omega
            have hside : ∀ b : Bool, subtreeHashAt pedersen (bitEntries entries) (pre ++ [b]) =
                root (feltHashing pedersen) (TREE_HEIGHT - pre.length - 1)
                  fun k => below (slotFn entries) pre (b :: k) := by
              intro b
              rw [subtreeHashAt_eq_root pedersen hset (by
                rw [List.length_append, List.length_singleton]
                omega), List.length_append, List.length_singleton, Nat.sub_add_eq, below_append]
              rfl
            obtain ⟨h, hh⟩ : ∃ h, TREE_HEIGHT - pre.length = h + 1 :=
              ⟨TREE_HEIGHT - pre.length - 1, by omega⟩
            obtain ⟨q, bottom⟩ := n
            obtain rfl : q = [] := hp
            rw [hh] at hn
            obtain ⟨l, r, hl, hr, rfl⟩ := summary_nil_path hn
            rw [if_neg hlt, hside, hside, hh, Nat.add_sub_cancel, root_of_summary hl,
              root_of_summary hr]
            exact .binary hh hl hr
          · -- all entries below share `n.path`: an edge down to where they part
            have hlt : pre.length < pre.length + n.path.length :=
              Nat.lt_add_of_pos_right (List.length_pos_iff.mpr hp)
            have hend : (pre ++ n.path).length ≤ TREE_HEIGHT := by
              rw [List.length_append]
              omega
            have hchild : subtreeHashAt pedersen (bitEntries entries) (pre ++ n.path) =
                n.bottom := by
              have hheight : TREE_HEIGHT - (pre ++ n.path).length = h' := by
                rw [List.length_append]
                omega
              rw [subtreeHashAt_eq_root pedersen hset hend, hheight, below_append,
                root_of_summary hbelow]
              rfl
            have hon : ((path.take (pre.length + n.path.length)).drop pre.length ≠ n.path) ↔
                ¬ n.path <+: path.drop pre.length := by
              rw [List.drop_take, Nat.add_sub_cancel_left, List.prefix_iff_eq_take, ne_comm]
            have hspec : EmitSpec pedersen (slotFn entries) path pre _ := .edge hn hp
            rw [if_pos hlt, hchild, Hashing.resolve, if_neg hp]
            simp only [hon, ite_not]
            exact hspec

/-! ## The nodes the generator collects -/

section Collected

variable {pedersen} {entries : List (Felt × Felt)} {out out' : ExtTreeMap Key ProofNode}

/-- The table holds nodes of the trie only, each under its hash. -/
def TrieNodes (pedersen : Felt → Felt → Felt) (entries : List (Felt × Felt))
    (out : ExtTreeMap Key ProofNode) : Prop :=
  ∀ (k : Key) (n : ProofNode), out[k]? = some n →
    ∃ b ∈ Patricia.nodes (feltHashing pedersen) TREE_HEIGHT (slotFn entries),
      k = toBytesBe ((feltHashing pedersen).hash b) ∧ n = proofNode pedersen b

/-- Every node of the one table is in the other. -/
def Extends (out out' : ExtTreeMap Key ProofNode) : Prop :=
  ∀ (k : Key) (n : ProofNode), out[k]? = some n → out'[k]? = some n

theorem TrieNodes.empty : TrieNodes pedersen entries ∅ := by
  intro k n hn
  simp at hn

theorem Extends.trans {out'' : ExtTreeMap Key ProofNode} (h : Extends out out')
    (h' : Extends out' out'') : Extends out out'' :=
  fun k n hn => h' k n (h k n hn)

variable (hcf : CollisionFreeOn (feltHashing pedersen)
  (Patricia.nodes (feltHashing pedersen) TREE_HEIGHT (slotFn entries)))
include hcf

/-- One more node of the trie overwrites none: a node already under its hash is the
same node. -/
theorem TrieNodes.insert (h : TrieNodes pedersen entries out) {b : Body Felt}
    (hb : b ∈ Patricia.nodes (feltHashing pedersen) TREE_HEIGHT (slotFn entries)) :
    TrieNodes pedersen entries
        (out.insert (toBytesBe ((feltHashing pedersen).hash b)) (proofNode pedersen b)) ∧
      Extends out (out.insert (toBytesBe ((feltHashing pedersen).hash b)) (proofNode pedersen b)) := by
  constructor
  · intro k n hn
    rw [getElem?_insert_eq] at hn
    split at hn
    · exact ⟨b, hb, ‹_›, (Option.some.inj hn).symm⟩
    · exact h k n hn
  · intro k n hn
    rw [getElem?_insert_eq]
    split
    · rename_i hk
      obtain ⟨b', hb', hk', rfl⟩ := h k n hn
      rw [hk, toBytesBe_inj] at hk'
      rw [hcf.inj hb hb' hk']
    · exact hn

end Collected

/-! ## The verifier's round on the generator's node -/

section Rounds

variable (P : FeltParser) {pedersen} {entries : List (Felt × Felt)}
  {table : ExtTreeMap Key ProofNode} {key cur : Felt} {depth : Nat}

theorem round_edge {c : Felt} {p : List Bool} (hcur : cur ≠ 0)
    (hhash : (feltHashing pedersen).hash (.edge c p) = cur)
    (hnode : table[toBytesBe cur]? = some (proofNode pedersen (.edge c p))) (hp : p ≠ [])
    (hlen : depth + p.length ≤ TREE_HEIGHT) :
    round P pedersen table key cur depth = .ok (if p <+: (keyBits key).drop depth then
      .descend c (depth + p.length) else .done .nonMember) := by
  have hpos := List.length_pos_iff.mpr hp
  have hval : (bitsToFelt p).val = ofBits p := bitsToFelt_val (by omega)
  have hfit : fitsInBits (toBytesBe (bitsToFelt p)) p.length = true := by
    rw [fitsInBits_iff, toBytesBe_val, hval]
    exact ofBits_lt p
  have hhash' : edgeHash pedersen c (bitsToFelt p) p.length = cur := hhash
  have hbits : bitsOf p.length (toBytesBe (bitsToFelt p)).val = p := by
    rw [toBytesBe_val, hval, bitsOf_ofBits]
  have hdiv := diverged_eq_false_iff (toBytesBe (bitsToFelt p)) key hlen
  rw [hbits] at hdiv
  unfold round
  rw [if_neg hcur, hnode]
  show edgeRound P pedersen key cur depth (feltHex (bitsToFelt p)) p.length (feltHex c) = _
  unfold edgeRound
  rw [feltFromHex_feltHex, feltFromHex_feltHex]
  simp only [bind, Except.bind]
  rw [if_neg (by omega : ¬ p.length = 0), if_neg (by omega : ¬ p.length > TREE_HEIGHT - depth),
    hfit, if_neg (by decide), if_neg (not_not.mpr hhash')]
  by_cases hon : p <+: (keyBits key).drop depth
  · rw [if_pos hon, hdiv.mpr hon]
    rfl
  · rw [if_neg hon, Bool.eq_true_of_not_eq_false (mt hdiv.mp hon)]
    rfl

theorem round_binary {l r : Felt} (hcur : cur ≠ 0)
    (hhash : (feltHashing pedersen).hash (.binary l r) = cur)
    (hnode : table[toBytesBe cur]? = some (proofNode pedersen (.binary l r))) :
    round P pedersen table key cur depth =
      .ok (.descend (if keyBit (toBytesBe key) depth then r else l) (depth + 1)) := by
  have hhash' : binaryHash pedersen l r = cur := hhash
  unfold round
  rw [if_neg hcur, hnode]
  show binaryRound P pedersen key cur depth (feltHex l) (feltHex r) = _
  unfold binaryRound
  rw [feltFromHex_feltHex, feltFromHex_feltHex]
  simp only [bind, Except.bind]
  rw [if_neg (not_not.mpr hhash')]
  rfl

/-- A trie's node spells itself. -/
theorem proofNode_body {b : Body Felt}
    (hb : b ∈ Patricia.nodes (feltHashing pedersen) TREE_HEIGHT (slotFn entries)) :
    (proofNode pedersen b).body P = some b := by
  cases b with
  | binary l r => simp [proofNode, bodyText, ProofNode.body, P.fromHex_feltHex]
  | edge c p =>
      have hlen : p.length ≤ TREE_HEIGHT := nodeAt_path_length hb rfl
      have hval : (bitsToFelt p).val = ofBits p := bitsToFelt_val hlen
      have hfit : fitsInBits (toBytesBe (bitsToFelt p)) p.length = true := by
        rw [fitsInBits_iff, toBytesBe_val, hval]
        exact ofBits_lt p
      have hbits : bitsOf p.length (bitsToFelt p).val = p := by
        rw [hval, bitsOf_ofBits]
      simp [proofNode, bodyText, ProofNode.body, P.fromHex_feltHex, hlen, hfit, hbits]

theorem TrieNodes.proofHashing (hcf : CollisionFreeOn (feltHashing pedersen)
      (Patricia.nodes (feltHashing pedersen) TREE_HEIGHT (slotFn entries)))
    (h : TrieNodes pedersen entries table) :
    ProofHashing P pedersen entries (table.toList.map Prod.snd) := by
  refine hcf.mono ?_
  rintro b (hb | ⟨n, hn, hnb⟩)
  · exact hb
  · obtain ⟨e, he, rfl⟩ := List.mem_map.mp hn
    obtain ⟨b', hb', -, heq⟩ := h e.1 e.2 (ExtTreeMap.mem_toList_iff_getElem?_eq_some.mp he)
    rw [heq, proofNode_body P hb', Option.some.injEq] at hnb
    rwa [← hnb]

theorem mem_values {k : Key} {n : ProofNode} (h : table[k]? = some n) :
    n ∈ table.toList.map Prod.snd :=
  List.mem_map.mpr ⟨(k, n), ExtTreeMap.mem_toList_iff_getElem?_eq_some.mpr h, rfl⟩

theorem take_keyBits_succ (key : Felt) {depth : Nat} (h : depth < TREE_HEIGHT) :
    (keyBits key).take depth ++ [bitAt (keyBits key) depth] = (keyBits key).take (depth + 1) := by
  have hlt : depth < (keyBits key).length := by
    rw [length_keyBits]
    exact h
  rw [List.take_add_one, List.getElem?_eq_getElem hlt, bitAt, List.getD_eq_getElem _ _ hlt]
  rfl

/-- The table `out'` keeps the nodes of `out` and has what the verifier asks for from
`cur` on, whatever other nodes come with it. -/
structure Serves (P : FeltParser) (pedersen : Felt → Felt → Felt) (entries : List (Felt × Felt))
    (key : Felt) (fuel : Nat) (cur : Felt) (depth : Nat) (out out' : ExtTreeMap Key ProofNode) :
    Prop where
  nodes : TrieNodes pedersen entries out'
  kept : Extends out out'
  answer : ∀ table, Extends out' table →
    ∃ outcome, walk P pedersen table key fuel cur depth = some (.ok outcome)

section Step

variable {b : Body Felt} {fuel : Nat} {out : ExtTreeMap Key ProofNode}
  (hcf : CollisionFreeOn (feltHashing pedersen)
    (Patricia.nodes (feltHashing pedersen) TREE_HEIGHT (slotFn entries)))
  (hat : AtSubtree pedersen entries key cur depth) (hdepth : depth < TREE_HEIGHT)
  (hout : TrieNodes pedersen entries out)
  (hb : b ∈ Patricia.nodes (feltHashing pedersen) TREE_HEIGHT (slotFn entries))

theorem getElem?_insert_proofNode :
    (out.insert (toBytesBe ((feltHashing pedersen).hash b))
      (proofNode pedersen b))[toBytesBe ((feltHashing pedersen).hash b)]? =
        some (proofNode pedersen b) := by
  rw [getElem?_insert_eq, if_pos rfl]

include hcf hdepth hout hb

/-- The node on which the verifier ends. -/
theorem serves_last {verdict : ProofOutcome} (hround : ∀ table : ExtTreeMap Key ProofNode,
      table[toBytesBe ((feltHashing pedersen).hash b)]? = some (proofNode pedersen b) →
      round P pedersen table key cur depth = .ok (.done verdict)) :
    Serves P pedersen entries key (fuel + 1) cur depth out
      (out.insert (toBytesBe ((feltHashing pedersen).hash b)) (proofNode pedersen b)) := by
  obtain ⟨hin, hext⟩ := hout.insert hcf hb
  refine ⟨hin, hext, fun table hsub => ⟨verdict, ?_⟩⟩
  rw [walk_succ P pedersen hdepth, hround table (hsub _ _ getElem?_insert_proofNode)]

include hat

/-- A node from which both walks go on. -/
theorem serves_next {cur' : Felt} {depth' : Nat} (hround : ∀ table : ExtTreeMap Key ProofNode,
      table[toBytesBe ((feltHashing pedersen).hash b)]? = some (proofNode pedersen b) →
      round P pedersen table key cur depth = .ok (.descend cur' depth')) :
    TrieNodes pedersen entries
        (out.insert (toBytesBe ((feltHashing pedersen).hash b)) (proofNode pedersen b)) ∧
      AtSubtree pedersen entries key cur' depth' ∧
      ∀ out', Serves P pedersen entries key fuel cur' depth'
          (out.insert (toBytesBe ((feltHashing pedersen).hash b)) (proofNode pedersen b)) out' →
        Serves P pedersen entries key (fuel + 1) cur depth out out' := by
  obtain ⟨hin, hext⟩ := hout.insert hcf hb
  refine ⟨hin, ?_, fun out' hrest => ⟨hrest.nodes, hext.trans hrest.kept, fun table hsub => ?_⟩⟩
  · exact hat.round (hin.proofHashing P hcf) (fun k n => mem_values) hdepth
      (round_spec P pedersen hdepth (hround _ getElem?_insert_proofNode))
  · rw [walk_succ P pedersen hdepth,
      hround table (hsub _ _ (hrest.kept _ _ getElem?_insert_proofNode))]
    exact hrest.answer table hsub

end Step

/-- The generator's loop for one key, started where the verifier stands: it ends, and
serves the verifier. The induction is on the fuel; both walks take the same step, since
`AtSubtree` says at which subtree they are. -/
theorem nodesAlong_spec (hset : SlotSet entries) (hcf : CollisionFreeOn (feltHashing pedersen)
      (Patricia.nodes (feltHashing pedersen) TREE_HEIGHT (slotFn entries))) {fuel : Nat} :
    ∀ {cur : Felt} {depth : Nat} {out : ExtTreeMap Key ProofNode},
      AtSubtree pedersen entries key cur depth → TREE_HEIGHT < depth + fuel →
      TrieNodes pedersen entries out →
      ∃ out', nodesAlong pedersen (bitEntries entries) (keyBits key) fuel
          ((keyBits key).take depth) out = some out' ∧
        Serves P pedersen entries key fuel cur depth out out' := by
  induction fuel with
  | zero =>
      intro cur depth out hat hfuel _
      -- the fuel outlasts the depth
      have := hat.depth_le
      omega
  | succ fuel ih =>
      intro cur depth out hat hfuel hout
      have hlen : ((keyBits key).take depth).length = depth := by
        rw [List.length_take, length_keyBits]
        exact Nat.min_eq_left hat.depth_le
      have hspec := emit_spec pedersen hset (keyBits key) (hlen.le.trans hat.depth_le)
      have hroot := hat.root_eq
      rw [nodesAlong]
      generalize emit pedersen (bitEntries entries) (keyBits key) ((keyBits key).take depth) =
        emitted at hspec ⊢
      cases hspec with
      | empty hnone =>
          refine ⟨out, rfl, hout, fun k n hn => hn, fun table _ => ?_⟩
          rw [hlen] at hnone
          -- nothing is left below: the verifier ends here whatever else the table holds
          by_cases hdepth : depth < TREE_HEIGHT
          · have hzero : cur = 0 := by
              rw [hroot, root, hnone]
            have hround : round P pedersen table key cur depth = .ok (.done .nonMember) := by
              rw [round, if_pos hzero]
            exact ⟨.nonMember, by rw [walk_succ P pedersen hdepth, hround]⟩
          · exact ⟨_, walk_done P pedersen (Nat.le_of_not_lt hdepth)⟩
      | leaf hleaf =>
          refine ⟨out, rfl, hout, fun k n hn => hn, fun table _ => ?_⟩
          rw [hlen] at hleaf
          exact ⟨_, walk_done P pedersen hleaf.ge⟩
      | @edge n hn hp =>
          rw [hlen] at hn
          obtain ⟨h', hh', -, -⟩ := summary_path_spec hn
          have hpos := List.length_pos_iff.mpr hp
          have hb := hat.nodeAt _ (.edge hn hp)
          have hcur : (feltHashing pedersen).hash (.edge n.bottom n.path) = cur := by
            rw [hroot, root_of_summary hn, Hashing.resolve, if_neg hp]
            rfl
          have hne := hcf.ne_zero _ hb
          have hround : ∀ table : ExtTreeMap Key ProofNode, table[toBytesBe
              ((feltHashing pedersen).hash (.edge n.bottom n.path))]? =
                some (proofNode pedersen (.edge n.bottom n.path)) →
              round P pedersen table key cur depth = .ok (if n.path <+: (keyBits key).drop depth
                then .descend n.bottom (depth + n.path.length) else .done .nonMember) := by
            intro table htable
            rw [hcur] at htable hne
            exact round_edge P hne hcur htable hp (by omega)
          rw [hlen]
          -- on the edge both walks go on below it; beside it both end
          by_cases hon : n.path <+: (keyBits key).drop depth
          · simp only [if_pos hon] at hround ⊢
            obtain ⟨hin, hat', hstep⟩ := serves_next P hcf hat (by omega) hout hb hround
            obtain ⟨out', hrun, hserves⟩ := ih hat' (by omega) hin
            have hpre : (keyBits key).take depth ++ n.path =
                (keyBits key).take (depth + n.path.length) := by
              rw [List.take_add, List.prefix_iff_eq_take.mp hon, List.length_take]
              simp
            rw [hpre]
            exact ⟨out', hrun, hstep out' hserves⟩
          · simp only [if_neg hon] at hround ⊢
            exact ⟨_, rfl, serves_last P hcf (by omega) hout hb hround⟩
      | @binary h l r hh hl hr =>
          rw [hlen] at hh
          have hb := hat.nodeAt (.binary ((feltHashing pedersen).resolve l)
            ((feltHashing pedersen).resolve r)) (by rw [hh]; exact .binary hl hr)
          have hcur : (feltHashing pedersen).hash (.binary ((feltHashing pedersen).resolve l)
              ((feltHashing pedersen).resolve r)) = cur := by
            rw [hroot, hh, root_of_summary (summary_binary hl hr)]
            rfl
          have hne := hcf.ne_zero _ hb
          obtain ⟨hin, hat', hstep⟩ := serves_next P hcf hat (by omega) hout hb (by
            intro table htable
            rw [hcur] at htable hne
            exact round_binary P hne hcur htable)
          obtain ⟨out', hrun, hserves⟩ := ih hat' (by omega) hin
          rw [hlen, take_keyBits_succ key (by omega)]
          exact ⟨out', hrun, hstep out' hserves⟩

/-! ## All keys -/

/-- The loop over the keys. -/
theorem nodesAlong_keys (hset : SlotSet entries) (hcf : CollisionFreeOn (feltHashing pedersen)
      (Patricia.nodes (feltHashing pedersen) TREE_HEIGHT (slotFn entries))) (keys : List Felt) :
    ∀ {out : ExtTreeMap Key ProofNode}, TrieNodes pedersen entries out →
      ∃ out', keys.foldlM (fun out key => nodesAlong pedersen (bitEntries entries) (keyBits key)
          (TREE_HEIGHT + 1) [] out) out = some out' ∧
        TrieNodes pedersen entries out' ∧ Extends out out' ∧
        ∀ key ∈ keys, ∀ table, Extends out' table → ∃ outcome, walk P pedersen table key
          (TREE_HEIGHT + 1) (storageRoot pedersen entries) 0 = some (.ok outcome) := by
  induction keys with
  | nil =>
      intro out hout
      exact ⟨out, rfl, hout, fun k n hn => hn, fun key hkey => absurd hkey List.not_mem_nil⟩
  | cons key keys ih =>
      intro out hout
      obtain ⟨out₁, hrun, hserves⟩ := nodesAlong_spec P hset hcf (atSubtree_root hset key)
        (by omega : TREE_HEIGHT < 0 + (TREE_HEIGHT + 1)) hout
      obtain ⟨out', hrest, hnodes, hext, hall⟩ := ih hserves.nodes
      refine ⟨out', ?_, hnodes, hserves.kept.trans hext, ?_⟩
      · rw [List.take_zero] at hrun
        rw [List.foldlM_cons, hrun]
        exact hrest
      · intro key' hkey' table hsub
        rcases List.mem_cons.mp hkey' with rfl | hkey'
        · exact hserves.answer table (hext.trans hsub)
        · exact hall key' hkey' table hsub

/-- Nodes under their own hashes, no hash twice: the verifier's table is filled. -/
theorem foldlM_byHash {es : List (Key × ProofNode)} (hnodup : (es.map Prod.fst).Nodup)
    (hes : ∀ e ∈ es, ∃ h, e.1 = toBytesBe h ∧ e.2.nodeHash = feltHex h) :
    ∀ {t : ExtTreeMap Key ProofNode}, (∀ e ∈ es, t[e.1]? = none) →
      (es.map Prod.snd).foldlM (fun table n => do
        let h ← feltFromHex P n.nodeHash
        if table.contains (toBytesBe h) then
          throw (.malformed ("proof ambiguous: node " ++ feltHex h ++ " is listed twice"))
        else pure (table.insert (toBytesBe h) n)) t = Except.ok (insertAll t es) := by
  induction es with
  | nil =>
      intro t _
      rfl
  | cons e es ih =>
      intro t hfree
      rw [List.map_cons, List.nodup_cons] at hnodup
      obtain ⟨⟨h, hkey, hhash⟩, hes⟩ := List.forall_mem_cons.mp hes
      obtain ⟨hnone, hfree⟩ := List.forall_mem_cons.mp hfree
      have hcontains : t.contains (toBytesBe h) = false := by
        rw [contains_eq_false_iff, ← hkey]
        exact hnone
      rw [List.map_cons, List.foldlM_cons]
      refine bind_eq_ok.mpr ⟨t.insert e.1 e.2, ?_, ih hnodup.2 hes fun e' he' => ?_⟩
      · refine bind_eq_ok.mpr ⟨h, by rw [hhash, feltFromHex_feltHex], ?_⟩
        rw [hcontains, hkey]
        rfl
      · rw [getElem?_insert_eq, if_neg]
        · exact hfree e' he'
        · intro heq
          exact hnodup.1 (heq ▸ List.mem_map_of_mem he')

theorem TrieNodes.byHash_values (h : TrieNodes pedersen entries table) :
    byHash P (table.toList.map Prod.snd) = .ok table := by
  have hall := foldlM_byHash P (List.pairwise_map.mpr (toList_keys_ne table)) (fun e he => by
    obtain ⟨b, -, hk, hn⟩ := h e.1 e.2 (ExtTreeMap.mem_toList_iff_getElem?_eq_some.mp he)
    exact ⟨_, hk, by rw [hn]; rfl⟩) (t := ∅) (fun e _ => by simp)
  rw [insertAll_toList] at hall
  exact hall

/-- A proof node's JSON reads back as the node. -/
theorem ProofNode.fromValue_toJson {n : ProofNode}
    (h : ∀ path length child, n.node = .edge path length child → length < 2 ^ 64) :
    ProofNode.fromValue n.toJson = some n := by
  obtain ⟨nodeHash, node⟩ := n
  cases node with
  | binary left right => rfl
  | edge path length child =>
      have hlength : asU64 (.num length) = some length := if_pos (h path length child rfl)
      show ((asU64 (.num length)).bind fun length => some (ProofNodeBody.edge path length child)).bind
        _ = _
      rw [hlength]
      rfl

theorem TrieNodes.mapM_fromValue (h : TrieNodes pedersen entries table) :
    (table.toList.map fun e => e.2.toJson).mapM ProofNode.fromValue =
      some (table.toList.map Prod.snd) := by
  have hread : ∀ e ∈ table.toList, ProofNode.fromValue e.2.toJson = some e.2 := by
    intro e he
    obtain ⟨b, hb, -, hn⟩ := h e.1 e.2 (ExtTreeMap.mem_toList_iff_getElem?_eq_some.mp he)
    refine ProofNode.fromValue_toJson fun path length child hnode => ?_
    rw [hn] at hnode
    cases b with
    | binary l r => cases hnode
    | edge c p =>
        have hlen : p.length ≤ TREE_HEIGHT := nodeAt_path_length hb rfl
        have heq : p.length = length := (ProofNodeBody.edge.inj hnode).2.1
        rw [← heq]
        exact Nat.lt_of_le_of_lt hlen (by decide)
  generalize table.toList = es at hread ⊢
  induction es with
  | nil => rfl
  | cons e es ih =>
      obtain ⟨he, hes⟩ := List.forall_mem_cons.mp hread
      rw [List.map_cons, List.mapM_cons, he, ih hes]
      rfl

/-- **Completeness of generated proofs.** For a slot set with distinct keys below `2^251`
whose trie nodes have distinct, nonzero hashes: the generator ends for every key list, its
values read back as proof nodes, and with them the verifier answers for every key of
the list: its value if it has a nonzero one, else that it is absent. -/
theorem nodesFor_complete (hset : SlotSet entries) (hcf : CollisionFreeOn (feltHashing pedersen)
      (Patricia.nodes (feltHashing pedersen) TREE_HEIGHT (slotFn entries))) (keys : List Felt)
    (hkeys : ∀ key ∈ keys, key.val < 2 ^ 251) :
    ∃ values nodes, nodesFor pedersen entries keys = some values ∧
      values.mapM ProofNode.fromValue = some nodes ∧
      ∀ key ∈ keys,
        (∀ v, v ≠ 0 → (key, v) ∈ entries →
          verifyStorageProof P pedersen (storageRoot pedersen entries) nodes key =
            .ok (.member v)) ∧
        ((∀ v, (key, v) ∈ entries → v = 0) →
          verifyStorageProof P pedersen (storageRoot pedersen entries) nodes key =
            .ok .nonMember) := by
  obtain ⟨out, hrun, hnodes, -, hanswer⟩ := nodesAlong_keys P hset hcf keys .empty
  have hfor : nodesFor pedersen entries keys = some (out.toList.map fun e => e.2.toJson) := by
    rw [nodesFor, hrun]
    rfl
  refine ⟨_, _, hfor, hnodes.mapM_fromValue, fun key hkey => ?_⟩
  have hlt := hkeys key hkey
  obtain ⟨outcome, hok⟩ : ∃ outcome, verifyStorageProof P pedersen (storageRoot pedersen entries)
      (out.toList.map Prod.snd) key = .ok outcome := by
    obtain ⟨outcome, hwalk⟩ := hanswer key hkey out fun k n hn => hn
    obtain ⟨r, hr⟩ := walk_terminates P pedersen out key TREE_HEIGHT (storageRoot pedersen entries) 0
      (by omega)
    have heq : r = .ok outcome := Option.some.inj ((hr 1).symm.trans hwalk)
    refine ⟨outcome, ?_⟩
    rw [verifyStorageProof, (isTrieKey_iff key).mpr hlt, if_neg (by decide), hnodes.byHash_values P]
    show (walk P pedersen out key TREE_HEIGHT (storageRoot pedersen entries) 0).get _ = _
    have hwalk' : walk P pedersen out key TREE_HEIGHT (storageRoot pedersen entries) 0 = some r :=
      hr 0
    rw [Option.get_of_eq_some _ hwalk', heq]
  obtain ⟨-, htruth⟩ := verifyStorageProof_truthful P pedersen hset (hnodes.proofHashing P hcf) hok
  rw [hok]
  cases outcome with
  | member w =>
      obtain ⟨hw, hslot⟩ := htruth
      rw [slotFn_keyBits hlt] at hslot
      constructor
      · intro v hv hmem
        rw [← hslot, (slotValue_eq_iff hset hv).mpr hmem]
      · intro hzero
        exact absurd (hzero w ((slotValue_eq_iff hset hw).mp hslot)) hw
  | nonMember =>
      have hslot : slotFn entries (keyBits key) = 0 := htruth
      rw [slotFn_keyBits hlt] at hslot
      constructor
      · intro v hv hmem
        rw [(slotValue_eq_iff hset hv).mpr hmem] at hslot
        exact absurd hslot hv
      · intro _
        rfl

end Rounds

end Model

/-- The nodes for a key of a two-slot trie and for one that is not there. -/
theorem nodesFor_complete_two : ∃ values nodes,
    nodesFor twoPedersen twoSlots [1, 2] = some values ∧
      values.mapM ProofNode.fromValue = some nodes ∧
      verifyStorageProof hexParser twoPedersen (storageRoot twoPedersen twoSlots) nodes 1 =
        .ok (.member 5) ∧
      verifyStorageProof hexParser twoPedersen (storageRoot twoPedersen twoSlots) nodes 2 =
        .ok .nonMember := by
  have hkeys : ∀ key ∈ ([1, 2] : List Felt), key.val < 2 ^ 251 := by
    intro key hkey
    rcases List.mem_pair.mp hkey with rfl | rfl <;> decide
  obtain ⟨values, nodes, hfor, hread, hall⟩ := nodesFor_complete hexParser slotSet_twoSlots
    (slotBodies_collisionFree.mono nodes_twoSlots) [1, 2] hkeys
  refine ⟨values, nodes, hfor, hread, ?_, ?_⟩
  · exact (hall 1 (by decide)).1 5 (by decide) (by decide)
  · apply (hall 2 (by decide)).2
    intro v hmem
    rcases List.mem_pair.mp hmem with heq | heq
    · exact absurd (Prod.mk.inj heq).1 (by decide)
    · exact absurd (Prod.mk.inj heq).1 (by decide)

end Strk20.Feed.Mpt
