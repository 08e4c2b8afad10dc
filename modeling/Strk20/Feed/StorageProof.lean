import Std.Data.ExtTreeMap
import Strk20.Foundation.Tables
import Strk20.Foundation.Result
import Strk20.Feed.MptRoot

/-!
# The storage-proof walk (`mpt.rs`)

`verifyStorageProof` walks an untrusted node list from a root towards one key.
The source's `while` loop is `walk`, which runs on fuel; `walk_isSome` shows
that 251 rounds are always enough, because every accepted node moves the walk
down, and the verifier takes its result from there.

- `walk_sound`: along the walk, the current hash is the root of the honest
  subtree under the key bits read so far.
- `verifyStorageProof_sound`: an accepted proof tells the truth about the key,
  whatever the node list.
-/

namespace Strk20.Feed.Mpt

open BitPath Strk20.Lists Patricia Tables Result
open Std (ExtTreeMap)

inductive ProofNodeBody where
  | binary (left right : String)
  | edge (path : String) (length : Nat) (child : String)
deriving DecidableEq

structure ProofNode where
  nodeHash : String
  node : ProofNodeBody
deriving DecidableEq

inductive ProofOutcome where
  | member (value : Felt)
  | nonMember
deriving DecidableEq

section Model

variable (P : FeltParser) (pedersen : Felt → Felt → Felt)

/-- The proof nodes by their claimed hash; a hash listed twice is an error. -/
def byHash (nodes : List ProofNode) : Except FeedError (ExtTreeMap Key ProofNode) :=
  nodes.foldlM (fun table n => do
    let h ← feltFromHex P n.nodeHash
    if table.contains (toBytesBe h) then
      throw (.malformed ("proof ambiguous: node " ++ feltHex h ++ " is listed twice"))
    else pure (table.insert (toBytesBe h) n)) ∅

/-- The comparison loop of an edge: some path bit differs from the key's. -/
def diverged (path key : Key) (len depth : Nat) : Bool :=
  (List.range len).any fun i => path.val.testBit (len - 1 - i) != keyBit key (depth + i)

/-- Where one round of the loop leads: a verdict, or the next hash and depth. -/
inductive Round where
  | done (outcome : ProofOutcome)
  | descend (cur : Felt) (depth : Nat)

/-- The loop body's arm for a binary node. -/
def binaryRound (key cur : Felt) (depth : Nat) (left right : String) : Except FeedError Round := do
  let l ← feltFromHex P left
  let r ← feltFromHex P right
  if binaryHash pedersen l r ≠ cur then
    throw (.malformed ("binary node hash mismatch at depth " ++ toString depth))
  else
    pure (.descend (if keyBit (toBytesBe key) depth then r else l) (depth + 1))

/-- The loop body's arm for an edge. -/
def edgeRound (key cur : Felt) (depth : Nat) (path : String) (length : Nat) (child : String) :
    Except FeedError Round := do
  let pathFelt ← feltFromHex P path
  let childFelt ← feltFromHex P child
  if length = 0 then
    throw (.malformed ("zero-length edge at depth " ++ toString depth))
  else if length > TREE_HEIGHT - depth then
    throw (.malformed ("edge of length " ++ toString length ++ " at depth " ++
      toString depth ++ " overruns tree height"))
  else if !fitsInBits (toBytesBe pathFelt) length then
    throw (.malformed ("edge path at depth " ++ toString depth ++
      " has bits above its length " ++ toString length))
  else if edgeHash pedersen childFelt pathFelt length ≠ cur then
    throw (.malformed ("edge node hash mismatch at depth " ++ toString depth))
  else if diverged (toBytesBe pathFelt) (toBytesBe key) length depth then
    pure (.done .nonMember)
  else pure (.descend childFelt (depth + length))

/-- The body of the loop, for `depth < TREE_HEIGHT`. -/
def round (table : ExtTreeMap Key ProofNode) (key cur : Felt) (depth : Nat) :
    Except FeedError Round :=
  if cur = 0 then .ok (.done .nonMember)
  else
    match table[toBytesBe cur]? with
    | none => .error (.malformed ("proof incomplete: node " ++ feltHex cur ++
        " not present (depth " ++ toString depth ++ ")"))
    | some node =>
        match node.node with
        | .binary left right => binaryRound P pedersen key cur depth left right
        | .edge path length child => edgeRound P pedersen key cur depth path length child

/-- The loop. `none` when the fuel does not suffice. -/
def walk (table : ExtTreeMap Key ProofNode) (key : Felt) :
    Nat → Felt → Nat → Option (Except FeedError ProofOutcome)
  | 0, cur, depth => if TREE_HEIGHT ≤ depth then some (.ok (.member cur)) else none
  | fuel + 1, cur, depth =>
      if TREE_HEIGHT ≤ depth then some (.ok (.member cur))
      else
        match round P pedersen table key cur depth with
        | .error e => some (.error e)
        | .ok (.done outcome) => some (.ok outcome)
        | .ok (.descend cur depth) => walk table key fuel cur depth

/-! ## What a round can do -/

/-- The node body a proof node spells, when it spells one: an edge path fits
its length and the tree. -/
def ProofNode.body (n : ProofNode) : Option (Body Felt) :=
  match n.node with
  | .binary left right => do
      let l ← P.fromHex left
      let r ← P.fromHex right
      some (.binary l r)
  | .edge path length child => do
      let pathFelt ← P.fromHex path
      let childFelt ← P.fromHex child
      if length ≤ TREE_HEIGHT && fitsInBits (toBytesBe pathFelt) length then
        some (.edge childFelt (bitsOf length pathFelt.val))
      else none

/-- An edge that does not diverge continues with the key's own bits. -/
theorem diverged_eq_false_iff (path : Key) (key : Felt) {len depth : Nat}
    (h : depth + len ≤ TREE_HEIGHT) :
    diverged path (toBytesBe key) len depth = false ↔
      bitsOf len path.val <+: (keyBits key).drop depth := by
  have hkey : ∀ i, i < len → ((keyBits key).drop depth)[i]? =
      some (keyBit (toBytesBe key) (depth + i)) := by
    intro i hi
    rw [List.getElem?_drop, keyBits, List.getElem?_map, List.getElem?_range (by omega)]
    rfl
  rw [diverged, List.any_eq_false, List.prefix_iff_eq_take, length_bitsOf]
  constructor
  · intro hall
    refine List.ext_getElem? fun i => ?_
    by_cases hi : i < len
    · have := hall i (List.mem_range.mpr hi)
      rw [List.getElem?_take_of_lt hi, hkey i hi, getElem?_bitsOf len i _ hi]
      simpa using this
    · have h₁ : len ≤ i := by omega
      rw [List.getElem?_eq_none (by simpa using h₁), List.getElem?_eq_none (by simp; omega)]
  · intro heq i hi
    have hi' := List.mem_range.mp hi
    have := congrArg (fun l => l[i]?) heq
    simp only [getElem?_bitsOf len i _ hi', List.getElem?_take_of_lt hi', hkey i hi',
      Option.some.injEq] at this
    simpa using this

theorem bitsToFelt_bitsOf {f : Felt} {len : Nat} (hlen : len ≤ TREE_HEIGHT)
    (hf : f.val < 2 ^ len) : bitsToFelt (bitsOf len f.val) = f := by
  apply Fin.ext
  rw [bitsToFelt_val (by simpa using hlen), ofBits_bitsOf, Nat.mod_eq_of_lt hf]

theorem feltFromHex_ok {s : String} {f : Felt} (h : feltFromHex P s = .ok f) :
    P.fromHex s = some f := by
  unfold feltFromHex at h
  split at h
  · rename_i g hg
    rw [hg, Except.ok.inj h]
  · simp at h

/-- Everything a successful round can do. The node it reads spells a body that
hashes to the current hash; a binary node is left towards the key's bit, an
edge is followed if the key runs along it. -/
inductive RoundSpec (table : ExtTreeMap Key ProofNode) (key cur : Felt) (depth : Nat) :
    Round → Prop
  | empty (hcur : cur = 0) : RoundSpec table key cur depth (.done .nonMember)
  | binary {node : ProofNode} {l r : Felt} (hcur : cur ≠ 0)
      (hnode : table[toBytesBe cur]? = some node) (hbody : node.body P = some (.binary l r))
      (hhash : (feltHashing pedersen).hash (.binary l r) = cur) :
      RoundSpec table key cur depth
        (.descend (if keyBit (toBytesBe key) depth then r else l) (depth + 1))
  | edge {node : ProofNode} {child : Felt} {path : List Bool} (hcur : cur ≠ 0)
      (hnode : table[toBytesBe cur]? = some node) (hbody : node.body P = some (.edge child path))
      (hhash : (feltHashing pedersen).hash (.edge child path) = cur) (hpos : path ≠ [])
      (hlen : depth + path.length ≤ TREE_HEIGHT) (hpath : path <+: (keyBits key).drop depth) :
      RoundSpec table key cur depth (.descend child (depth + path.length))
  | off {node : ProofNode} {child : Felt} {path : List Bool} (hcur : cur ≠ 0)
      (hnode : table[toBytesBe cur]? = some node) (hbody : node.body P = some (.edge child path))
      (hhash : (feltHashing pedersen).hash (.edge child path) = cur)
      (hlen : depth + path.length ≤ TREE_HEIGHT) (hpath : ¬ path <+: (keyBits key).drop depth) :
      RoundSpec table key cur depth (.done .nonMember)

theorem binaryRound_spec {key cur : Felt} {depth : Nat} {left right : String} {res : Round}
    (h : binaryRound P pedersen key cur depth left right = .ok res) :
    ∃ l r, P.fromHex left = some l ∧ P.fromHex right = some r ∧ binaryHash pedersen l r = cur ∧
      res = .descend (if keyBit (toBytesBe key) depth then r else l) (depth + 1) := by
  obtain ⟨l, hl, h⟩ := bind_eq_ok.mp h
  obtain ⟨r, hr, h⟩ := bind_eq_ok.mp h
  obtain ⟨hhash, h⟩ := ite_throw_eq_ok.mp h
  exact ⟨l, r, feltFromHex_ok P hl, feltFromHex_ok P hr, by simpa using hhash,
    (pure_eq_ok.mp h).symm⟩

theorem edgeRound_spec {key cur : Felt} {depth length : Nat} {path child : String} {res : Round}
    (h : edgeRound P pedersen key cur depth path length child = .ok res) :
    ∃ p c, P.fromHex path = some p ∧ P.fromHex child = some c ∧ length ≠ 0 ∧
      length ≤ TREE_HEIGHT - depth ∧ p.val < 2 ^ length ∧ edgeHash pedersen c p length = cur ∧
      res = if diverged (toBytesBe p) (toBytesBe key) length depth then .done .nonMember
        else .descend c (depth + length) := by
  obtain ⟨p, hp, h⟩ := bind_eq_ok.mp h
  obtain ⟨c, hc, h⟩ := bind_eq_ok.mp h
  obtain ⟨hzero, h⟩ := ite_throw_eq_ok.mp h
  obtain ⟨hlong, h⟩ := ite_throw_eq_ok.mp h
  obtain ⟨hfit, h⟩ := ite_throw_eq_ok.mp h
  obtain ⟨hhash, h⟩ := ite_throw_eq_ok.mp h
  refine ⟨p, c, feltFromHex_ok P hp, feltFromHex_ok P hc, hzero, by omega, ?_, by simpa using hhash,
    ?_⟩
  · exact (fitsInBits_iff (toBytesBe p) length).mp (by simpa using hfit)
  · split at h <;> rename_i hd
    · rw [if_pos hd, pure_eq_ok.mp h]
    · rw [if_neg hd, pure_eq_ok.mp h]

theorem round_spec {table : ExtTreeMap Key ProofNode} {key cur : Felt} {depth : Nat} {res : Round}
    (hdepth : depth < TREE_HEIGHT) (h : round P pedersen table key cur depth = .ok res) :
    RoundSpec P pedersen table key cur depth res := by
  unfold round at h
  by_cases hcur : cur = 0
  · rw [if_pos hcur] at h
    rw [← Except.ok.inj h]
    exact .empty hcur
  rw [if_neg hcur] at h
  cases hnode : table[toBytesBe cur]? with
  | none => simp [hnode] at h
  | some node =>
      simp only [hnode] at h
      cases hb : node.node with
      | binary left right =>
          simp only [hb] at h
          obtain ⟨l, r, hl, hr, hhash, rfl⟩ := binaryRound_spec P pedersen h
          exact .binary hcur hnode (by simp [ProofNode.body, hb, hl, hr]) hhash
      | edge path length child =>
          simp only [hb] at h
          obtain ⟨p, c, hp, hc, hzero, hlong, hfit, hhash, rfl⟩ := edgeRound_spec P pedersen h
          have hle : length ≤ TREE_HEIGHT := by omega
          have hlen : depth + (bitsOf length p.val).length ≤ TREE_HEIGHT := by
            rw [length_bitsOf]
            omega
          have hbody : node.body P = some (.edge c (bitsOf length p.val)) := by
            have hfit' : fitsInBits (toBytesBe p) length = true := (fitsInBits_iff _ _).mpr hfit
            simp [ProofNode.body, hb, hp, hc, hfit', hle]
          have hhash' : (feltHashing pedersen).hash (.edge c (bitsOf length p.val)) = cur := by
            simpa [Hashing.hash, feltHashing, bitsToFelt_bitsOf hle hfit] using hhash
          have hdiv := diverged_eq_false_iff (toBytesBe p) key (by rwa [length_bitsOf] at hlen)
          cases hd : diverged (toBytesBe p) (toBytesBe key) length depth with
          | true =>
              refine .off hcur hnode hbody hhash' hlen fun hpre => ?_
              rw [hdiv.mpr hpre] at hd
              exact absurd hd (by simp)
          | false =>
              have hne : bitsOf length p.val ≠ [] := fun hnil => hzero (by
                simpa using congrArg List.length hnil)
              have hspec := RoundSpec.edge hcur hnode hbody hhash' hne hlen (hdiv.mp hd)
              rwa [length_bitsOf] at hspec

/-! ## Termination -/

/-- A round that does not end the walk moves it down, inside the tree. -/
theorem RoundSpec.descends {table : ExtTreeMap Key ProofNode} {key cur cur' : Felt}
    {depth depth' : Nat} (hdepth : depth < TREE_HEIGHT)
    (h : RoundSpec P pedersen table key cur depth (.descend cur' depth')) :
    depth < depth' ∧ depth' ≤ TREE_HEIGHT := by
  cases h with
  | binary => omega
  | edge hcur hnode hbody hhash hpos hlen hpath =>
      have := List.length_pos_iff.mpr hpos
      omega

theorem walk_done {table : ExtTreeMap Key ProofNode} {key cur : Felt} {fuel depth : Nat}
    (h : TREE_HEIGHT ≤ depth) :
    walk P pedersen table key fuel cur depth = some (.ok (.member cur)) := by
  cases fuel <;> rw [walk, if_pos h]

theorem walk_succ {table : ExtTreeMap Key ProofNode} {key cur : Felt} {fuel depth : Nat}
    (h : depth < TREE_HEIGHT) :
    walk P pedersen table key (fuel + 1) cur depth =
      match round P pedersen table key cur depth with
      | .error e => some (.error e)
      | .ok (.done outcome) => some (.ok outcome)
      | .ok (.descend cur depth) => walk P pedersen table key fuel cur depth := by
  rw [walk, if_neg (by omega)]

/-- As many rounds as there are levels left are enough, and more change
nothing. -/
theorem walk_terminates (table : ExtTreeMap Key ProofNode) (key : Felt) :
    ∀ (fuel : Nat) (cur : Felt) (depth : Nat), TREE_HEIGHT ≤ depth + fuel →
      ∃ r, ∀ more, walk P pedersen table key (fuel + more) cur depth = some r
  | 0, cur, depth, h => ⟨_, fun more => walk_done P pedersen (by omega)⟩
  | fuel + 1, cur, depth, h => by
      by_cases hd : TREE_HEIGHT ≤ depth
      · exact ⟨_, fun more => walk_done P pedersen hd⟩
      · have hlt : depth < TREE_HEIGHT := by omega
        have hfuel : ∀ more, fuel + 1 + more = (fuel + more) + 1 := by omega
        cases hr : round P pedersen table key cur depth with
        | error e =>
            refine ⟨.error e, fun more => ?_⟩
            rw [hfuel, walk_succ P pedersen hlt, hr]
        | ok res =>
            cases res with
            | done outcome =>
                refine ⟨.ok outcome, fun more => ?_⟩
                rw [hfuel, walk_succ P pedersen hlt, hr]
            | descend cur' depth' =>
                have hdown := (round_spec P pedersen hlt hr).descends P pedersen hlt
                obtain ⟨r, hrest⟩ := walk_terminates table key fuel cur' depth' (by omega)
                refine ⟨r, fun more => ?_⟩
                rw [hfuel, walk_succ P pedersen hlt, hr]
                exact hrest more

theorem walk_isSome (table : ExtTreeMap Key ProofNode) (key cur : Felt) :
    (walk P pedersen table key TREE_HEIGHT cur 0).isSome := by
  obtain ⟨r, hr⟩ := walk_terminates P pedersen table key TREE_HEIGHT cur 0 (by omega)
  exact Option.isSome_iff_exists.mpr ⟨r, hr 0⟩

def verifyStorageProof (root : Felt) (nodes : List ProofNode) (key : Felt) :
    Except FeedError ProofOutcome :=
  if !isTrieKey key then
    .error (.malformed ("trie key " ++ feltHex key ++
      " is not below 2^251 and would alias another key"))
  else do
    let table ← byHash P nodes
    (walk P pedersen table key TREE_HEIGHT root 0).get (walk_isSome P pedersen table key root)

/-! ## Soundness -/

/-- The bodies an untrusted node list spells. -/
def proofBodies (nodes : List ProofNode) : Set (Body Felt) :=
  {b | ∃ n ∈ nodes, n.body P = some b}

theorem byHash_mem {nodes : List ProofNode} {table : ExtTreeMap Key ProofNode}
    (h : byHash P nodes = .ok table) {k : Key} {n : ProofNode} (hn : table[k]? = some n) :
    n ∈ nodes := by
  have hinv : ∀ (k : Key) (n : ProofNode), table[k]? = some n → n ∈ nodes := by
    refine foldlM_ok_inv (I := fun t => ∀ (k : Key) (n : ProofNode), t[k]? = some n → n ∈ nodes)
      h (fun k n hkn => by simp at hkn) fun s a s' ha hs hstep => ?_
    obtain ⟨f, -, hstep⟩ := bind_eq_ok.mp hstep
    obtain ⟨-, hstep⟩ := ite_throw_eq_ok.mp hstep
    rw [← pure_eq_ok.mp hstep]
    intro k n hkn
    rw [getElem?_insert_eq] at hkn
    split at hkn
    · rwa [← Option.some.inj hkn]
    · exact hs k n hkn
  exact hinv k n hn

/-- The walk stands at the root of the honest subtree under the key bits read
so far. A leaf it reaches is not the empty one. -/
structure AtSubtree (entries : List (Felt × Felt)) (key cur : Felt) (depth : Nat) : Prop where
  depth_le : depth ≤ TREE_HEIGHT
  root_eq : cur = root (feltHashing pedersen) (TREE_HEIGHT - depth)
    (below (slotFn entries) ((keyBits key).take depth))
  nodeAt : ∀ b, NodeAt (feltHashing pedersen) (TREE_HEIGHT - depth)
    (below (slotFn entries) ((keyBits key).take depth)) b →
      NodeAt (feltHashing pedersen) TREE_HEIGHT (slotFn entries) b
  leaf : depth = TREE_HEIGHT → cur ≠ 0

section Sound

variable {P pedersen} {entries : List (Felt × Felt)} {nodes : List ProofNode}
  {table : ExtTreeMap Key ProofNode} {key cur cur' : Felt} {depth depth' : Nat}

/-- What the walk takes for granted: the hash is collision-free on the nodes of
the honest trie together with the bodies the proof brings. -/
def ProofHashing (P : FeltParser) (pedersen : Felt → Felt → Felt) (entries : List (Felt × Felt))
    (nodes : List ProofNode) : Prop :=
  CollisionFreeOn (feltHashing pedersen)
    (Patricia.nodes (feltHashing pedersen) TREE_HEIGHT (slotFn entries) ∪ proofBodies P nodes)

theorem keyBits_split (key : Felt) (depth : Nat) :
    (keyBits key).take depth ++ (keyBits key).drop depth = keyBits key :=
  List.take_append_drop _ _

theorem AtSubtree.noCollision (hS : ProofHashing P pedersen entries nodes)
    (htable : ∀ (k : Key) n, table[k]? = some n → n ∈ nodes)
    (h : AtSubtree pedersen entries key cur depth) {node : ProofNode} {b : Body Felt} {k : Key}
    (hnode : table[k]? = some node) (hbody : node.body P = some b) :
    NoCollision (feltHashing pedersen) (TREE_HEIGHT - depth)
      (below (slotFn entries) ((keyBits key).take depth)) b :=
  noCollision_of_collisionFreeOn hS (fun b hb => Or.inl (h.nodeAt b hb))
    (Or.inr ⟨node, htable _ _ hnode, hbody⟩)

/-- One round keeps the walk on the honest trie, and a verdict of absence is
right. The cases are those of `RoundSpec`; each uses the inversion rule for
the node it read. -/
theorem AtSubtree.round (hS : ProofHashing P pedersen entries nodes)
    (htable : ∀ (k : Key) n, table[k]? = some n → n ∈ nodes) (hdepth : depth < TREE_HEIGHT)
    (h : AtSubtree pedersen entries key cur depth) {res : Round}
    (hround : RoundSpec P pedersen table key cur depth res) :
    match res with
    | .done (.member _) => False
    | .done .nonMember => slotFn entries (keyBits key) = 0
    | .descend cur' depth' => AtSubtree pedersen entries key cur' depth' := by
  obtain ⟨height, hheight⟩ : ∃ height, TREE_HEIGHT - depth = height + 1 :=
    ⟨TREE_HEIGHT - depth - 1, by omega⟩
  set f := below (slotFn entries) ((keyBits key).take depth) with hf
  have hfkey : f ((keyBits key).drop depth) = slotFn entries (keyBits key) := by
    rw [hf, below_apply, keyBits_split]
  have hlen : ((keyBits key).drop depth).length = height + 1 := by simp [hheight]
  have hroot := h.root_eq
  have hnodeAt := h.nodeAt
  rw [← hf, hheight] at hroot hnodeAt
  cases hround with
  | empty hcur =>
      rw [← hfkey]
      exact root_eq_zero_inv (fun b hb => hS.ne_zero b (Or.inl (hnodeAt b hb)))
        (hroot.symm.trans hcur) _ hlen
  | @binary node l r hcur hnode hbody hhash =>
      have hcf := h.noCollision hS htable hnode hbody
      rw [← hf, hheight] at hcf
      obtain ⟨hl, hr, hsub, hocc⟩ := root_binary_inv hcf (hroot.symm.trans hhash.symm)
        (hroot ▸ hcur)
      -- the key's next bit chooses the child
      have hbit : (keyBits key).drop depth =
          keyBit (toBytesBe key) depth :: (keyBits key).drop (depth + 1) := by
        rw [drop_eq_bitAt_cons (by simpa using hdepth)]
        congr 1
        simp [bitAt, keyBits, List.getD_eq_getElem?_getD, hdepth]
      have htake : (keyBits key).take (depth + 1) =
          (keyBits key).take depth ++ [keyBit (toBytesBe key) depth] := by
        rw [List.take_add_one, ← List.head?_drop, hbit]
        rfl
      have hnext : below (slotFn entries) ((keyBits key).take (depth + 1)) =
          fun k => f (keyBit (toBytesBe key) depth :: k) := by
        rw [htake, below_append]
        rfl
      have hh : TREE_HEIGHT - (depth + 1) = height := by omega
      have hchild : (if keyBit (toBytesBe key) depth then r else l) =
          root (feltHashing pedersen) height
            fun k => f (keyBit (toBytesBe key) depth :: k) := by
        cases keyBit (toBytesBe key) depth with
        | true => exact hr
        | false => exact hl
      refine ⟨by omega, ?_, ?_, ?_⟩
      · rw [hh, hnext]
        exact hchild
      · rw [hh, hnext]
        exact fun b hb => hnodeAt b (hsub _ b hb)
      · intro hend
        obtain rfl : height = 0 := by omega
        obtain ⟨k, hk, hne⟩ := hocc (keyBit (toBytesBe key) depth)
        rw [List.length_eq_zero_iff.mp hk] at hne
        rwa [hchild, root_zero]
  | @edge node child path hcur hnode hbody hhash hpos hpl hpath =>
      have hcf := h.noCollision hS htable hnode hbody
      rw [← hf, hheight] at hcf
      obtain ⟨h', hh', hc, -, hout, hsub, hocc⟩ := root_edge_inv hcf
        (hroot.symm.trans hhash.symm) (hroot ▸ hcur)
      have htake : (keyBits key).take (depth + path.length) = (keyBits key).take depth ++ path := by
        rw [List.take_add, List.prefix_iff_eq_take.mp hpath, List.length_take]
        congr 1
        simp
      have hnext : below (slotFn entries) ((keyBits key).take (depth + path.length)) =
          below f path := by
        rw [htake, below_append]
      have hh : TREE_HEIGHT - (depth + path.length) = h' := by omega
      refine ⟨hpl, ?_, ?_, ?_⟩
      · rw [hh, hnext]
        exact hc
      · rw [hh, hnext]
        exact fun b hb => hnodeAt b (hsub b hb)
      · intro hend
        obtain rfl : h' = 0 := by omega
        obtain ⟨k, hk, hne⟩ := hocc
        rw [List.length_eq_zero_iff.mp hk] at hne
        rwa [hc, root_zero]
  | @off node child path hcur hnode hbody hhash hpl hpath =>
      have hcf := h.noCollision hS htable hnode hbody
      rw [← hf, hheight] at hcf
      obtain ⟨h', hh', hc, -, hout, -, -⟩ := root_edge_inv hcf (hroot.symm.trans hhash.symm)
        (hroot ▸ hcur)
      rw [← hfkey]
      exact hout _ hlen hpath

/-- A verdict about `key` that the slots bear out. -/
def Truthful (entries : List (Felt × Felt)) (key : Felt) : ProofOutcome → Prop
  | .member v => v ≠ 0 ∧ slotFn entries (keyBits key) = v
  | .nonMember => slotFn entries (keyBits key) = 0

theorem AtSubtree.member (h : AtSubtree pedersen entries key cur depth)
    (hd : TREE_HEIGHT ≤ depth) : Truthful entries key (.member cur) := by
  obtain rfl : depth = TREE_HEIGHT := Nat.le_antisymm h.depth_le hd
  have hroot := h.root_eq
  rw [Nat.sub_self, root_zero, below_apply, List.append_nil,
    List.take_of_length_le (by simp)] at hroot
  exact ⟨h.leaf rfl, hroot.symm⟩

/-- The whole walk: by induction on the fuel, with `AtSubtree` as the loop
invariant. -/
theorem walk_sound (hS : ProofHashing P pedersen entries nodes)
    (htable : ∀ (k : Key) n, table[k]? = some n → n ∈ nodes) :
    ∀ {fuel : Nat} {cur : Felt} {depth : Nat} {outcome : ProofOutcome},
      AtSubtree pedersen entries key cur depth →
      walk P pedersen table key fuel cur depth = some (.ok outcome) →
      Truthful entries key outcome
  | fuel, cur, depth, outcome, h, hw => by
      by_cases hd : TREE_HEIGHT ≤ depth
      · rw [walk_done P pedersen hd] at hw
        rw [← Except.ok.inj (Option.some.inj hw)]
        exact h.member hd
      have hlt : depth < TREE_HEIGHT := by omega
      cases fuel with
      | zero => simp [walk, hd] at hw
      | succ fuel =>
          rw [walk_succ P pedersen hlt] at hw
          cases hr : round P pedersen table key cur depth with
          | error e => simp [hr] at hw
          | ok res =>
              have hstep := h.round hS htable hlt (round_spec P pedersen hlt hr)
              rw [hr] at hw
              cases res with
              | descend cur' depth' => exact walk_sound hS htable hstep hw
              | done verdict =>
                  rw [← Except.ok.inj (Option.some.inj hw)]
                  cases verdict with
                  | member v => exact hstep.elim
                  | nonMember => exact hstep

/-- The walk starts at the root of the trie. -/
theorem atSubtree_root (h : SlotSet entries) (key : Felt) :
    AtSubtree pedersen entries key (storageRoot pedersen entries) 0 where
  depth_le := Nat.zero_le _
  root_eq := storageRoot_eq_root pedersen h
  nodeAt := fun b hb => hb
  leaf := fun h0 => absurd h0 (by decide)

end Sound

/-- What an accepted proof says of the key is what the trie says of it. -/
theorem verifyStorageProof_truthful {entries : List (Felt × Felt)} (hset : SlotSet entries)
    {nodes : List ProofNode} {key : Felt} (hS : ProofHashing P pedersen entries nodes)
    {outcome : ProofOutcome} (hv : verifyStorageProof P pedersen (storageRoot pedersen entries)
      nodes key = .ok outcome) : key.val < 2 ^ 251 ∧ Truthful entries key outcome := by
  obtain ⟨hkey, hv⟩ := ite_error_eq_ok.mp hv
  obtain ⟨table, htable, hv⟩ := bind_eq_ok.mp hv
  refine ⟨(isTrieKey_iff key).mp (by simpa using hkey), ?_⟩
  have hwalk : walk P pedersen table key TREE_HEIGHT (storageRoot pedersen entries) 0 =
      some (.ok outcome) := by
    rw [← hv, Option.some_get]
  exact walk_sound hS (fun k n => byHash_mem P htable) (atSubtree_root hset key) hwalk

end Model

/-! ## A one-slot trie -/

/-- The Pedersen hash on the one pair the trie of slot `1 ↦ 5` needs. -/
def onePedersen (a b : Felt) : Felt :=
  if a = 5 ∧ b = 1 then 0x7c5bc1cc68b7bc8ca2f632de98297e6da9594fa23ede872dd2abeafde353b42 else 0

def oneNode : ProofNode :=
  ⟨"0x7c5bc1cc68b7bc8ca2f632de98297e6da9594fa23ede872dd2abeafde353c3d", .edge "0x1" 251 "0x5"⟩

theorem slotSet_single {k v : Felt} (hk : k.val < 2 ^ 251) : SlotSet [(k, v)] := by
  refine ⟨fun e he => ?_, ?_⟩
  · rw [List.mem_singleton.mp he]
    exact hk
  · exact (List.nodup_singleton k).sublist (List.filter_sublist.map Prod.fst)

theorem slotFn_single {k v : Felt} (hk : k.val < 2 ^ 251) {bits : List Bool}
    (hbits : bits.length = TREE_HEIGHT) : slotFn [(k, v)] bits = if bits = keyBits k then v else 0 := by
  have hiff : bitsToFelt bits = k ↔ bits = keyBits k := by
    constructor
    · rintro rfl
      exact (keyBits_bitsToFelt hbits).symm
    · rintro rfl
      exact bitsToFelt_keyBits hk
  by_cases hv : v = 0
  · simp [slotFn, slotValue, hv]
  · simp [slotFn, slotValue, hv, assoc_cons, hiff]

/-- One slot: the whole trie is an edge. -/
theorem summary_slot {pedersen : Felt → Felt → Felt} {k v : Felt} (hk : k.val < 2 ^ 251)
    (hv : v ≠ 0) :
    summary (feltHashing pedersen) TREE_HEIGHT (slotFn [(k, v)]) = some ⟨keyBits k, v⟩ := by
  have hslot : slotFn [(k, v)] (keyBits k) = v := by
    rw [slotFn_single hk (length_keyBits k), if_pos rfl]
  have hsingle := summary_single (H := feltHashing pedersen) (k := keyBits k)
    (f := slotFn [(k, v)]) (by rw [hslot]; exact hv) (by
      intro bits hlen hne
      rw [slotFn_single hk (hlen.trans (length_keyBits k)), if_neg hne])
  rw [length_keyBits, hslot] at hsingle
  exact hsingle

theorem keyBits_ne_nil (k : Felt) : keyBits k ≠ [] := by
  intro h
  have hlen := length_keyBits k
  rw [h] at hlen
  exact absurd hlen (by decide)

theorem edge_keyBits {pedersen : Felt → Felt → Felt} {k v : Felt} (hk : k.val < 2 ^ 251) :
    (feltHashing pedersen).edge v (keyBits k) = edgeHash pedersen v k TREE_HEIGHT := by
  show edgeHash pedersen v (bitsToFelt (keyBits k)) (keyBits k).length = _
  rw [bitsToFelt_keyBits hk, length_keyBits]

theorem storageRoot_single {pedersen : Felt → Felt → Felt} {k v : Felt} (hk : k.val < 2 ^ 251)
    (hv : v ≠ 0) : storageRoot pedersen [(k, v)] = edgeHash pedersen v k TREE_HEIGHT := by
  rw [storageRoot_eq_root pedersen (slotSet_single hk), root_of_summary (summary_slot hk hv),
    ← edge_keyBits hk]
  exact if_neg (keyBits_ne_nil k)

/-- The Pedersen hash on the two pairs that two slots need, one on either side. -/
def twoPedersen (a b : Felt) : Felt :=
  if a = 5 ∧ b = 1 then 0x7c5bc1cc68b7bc8ca2f632de98297e6da9594fa23ede872dd2abeafde353b42
  else if a = 0x7c5bc1cc68b7bc8ca2f632de98297e6da9594fa23ede872dd2abeafde353c3c ∧
      b = 0x7c5bc1cc68b7bc8ca2f632de98297e6da9594fa23ede872dd2abeafde353c3c then
    0x723d3dfdbc9a585574e57d71ddd995271fa8ca30a3250a9d3e0df4d66623cd7
  else 0

/-- Slot `1` in the other half. -/
def highSlot : Felt :=
  0x400000000000000000000000000000000000000000000000000000000000001

def twoSlots : List (Felt × Felt) := [(1, 5), (highSlot, 5)]

/-- `n` zeros and a one. -/
def lastBit (n : Nat) : List Bool := List.replicate n false ++ [true]

theorem ofBits_lastBit (n : Nat) : ofBits (lastBit n) = 1 := by
  induction n with
  | zero => rfl
  | succ n ih =>
      unfold lastBit at ih ⊢
      rw [List.replicate_succ, List.cons_append, ofBits_cons, ih]
      simp

theorem bitsToFelt_lastBit (n : Nat) : bitsToFelt (lastBit n) = 1 := by
  unfold bitsToFelt
  rw [ofBits_lastBit]
  rfl

theorem length_lastBit (n : Nat) : (lastBit n).length = n + 1 := by
  simp [lastBit]

theorem lastBit_ne_nil (n : Nat) : lastBit n ≠ [] := by
  simp [lastBit]

/-- A nonempty end of the path is such a path again. -/
theorem suffix_lastBit {p t : List Bool} {n : Nat} (h : p ++ t = lastBit n) (ht : t ≠ []) :
    ∃ m ≤ n, t = lastBit m := by
  induction n generalizing p with
  | zero =>
      cases p with
      | nil => exact ⟨0, le_rfl, h⟩
      | cons b p =>
          have hrest : p ++ t = [] := (List.cons.inj h).2
          exact absurd (List.append_eq_nil_iff.mp hrest).2 ht
  | succ n ih =>
      cases p with
      | nil => exact ⟨n + 1, le_rfl, h⟩
      | cons b p =>
          have hrest : p ++ t = lastBit n := (List.cons.inj h).2
          obtain ⟨m, hm, heq⟩ := ih hrest
          exact ⟨m, Nat.le_succ_of_le hm, heq⟩

theorem keyBits_one : keyBits 1 = lastBit 250 := by
  rw [← bitsToFelt_lastBit 250]
  exact keyBits_bitsToFelt (length_lastBit 250)

theorem keyBits_high : keyBits highSlot = true :: lastBit 249 := by
  have hlen : (true :: lastBit 249).length = TREE_HEIGHT := by
    rw [List.length_cons, length_lastBit]
    rfl
  have hhigh : bitsToFelt (true :: lastBit 249) = highSlot := by
    unfold bitsToFelt
    rw [ofBits_cons, ofBits_lastBit, length_lastBit]
    decide
  rw [← hhigh]
  exact keyBits_bitsToFelt hlen

theorem highSlot_lt : highSlot.val < 2 ^ 251 := by decide

theorem slotSet_twoSlots : SlotSet twoSlots := by
  have hne : (1 : Felt) ≠ highSlot := by decide
  refine ⟨?_, ?_⟩
  · intro e he
    simp only [twoSlots, List.mem_cons, List.not_mem_nil, or_false] at he
    rcases he with rfl | rfl
    · decide
    · exact highSlot_lt
  · refine List.Nodup.sublist (List.filter_sublist.map Prod.fst) ?_
    simp [twoSlots, hne]

theorem slotFn_twoSlots {c : Bool} {k : List Bool} (hk : k.length = 250) :
    slotFn twoSlots (c :: k) = if k = lastBit 249 then 5 else 0 := by
  have hlen : (c :: k).length = TREE_HEIGHT := by
    rw [List.length_cons, hk]
    rfl
  have hone : bitsToFelt (c :: k) = 1 ↔ c :: k = lastBit 250 := by
    rw [← bitsToFelt_lastBit 250]
    exact ⟨bitsToFelt_inj hlen (length_lastBit 250), fun h => by rw [h]⟩
  have hhigh : bitsToFelt (c :: k) = highSlot ↔ c :: k = true :: lastBit 249 := by
    rw [← bitsToFelt_keyBits highSlot_lt, keyBits_high]
    refine ⟨bitsToFelt_inj hlen ?_, fun h => by rw [h]⟩
    rw [List.length_cons, length_lastBit]
    rfl
  -- the two keys differ in their first bit only
  have hlast : lastBit 250 = false :: lastBit 249 := rfl
  rw [hlast, List.cons.injEq] at hone
  rw [List.cons.injEq] at hhigh
  unfold slotFn slotValue twoSlots
  have hfive : (5 : Felt) ≠ 0 := by decide
  by_cases h : k = lastBit 249
  · rw [if_pos h]
    cases c with
    | false =>
        rw [hone.mpr ⟨rfl, h⟩]
        simp [assoc_cons, hfive]
    | true =>
        have hne : highSlot ≠ 1 := by decide
        rw [hhigh.mpr ⟨rfl, h⟩]
        simp [assoc_cons, hfive, hne]
  · rw [if_neg h]
    have h₁ : bitsToFelt (c :: k) ≠ 1 := fun heq => h (hone.mp heq).2
    have h₂ : bitsToFelt (c :: k) ≠ highSlot := fun heq => h (hhigh.mp heq).2
    simp [assoc_cons, hfive, h₁, h₂]

/-- Edges to either slot, and the binary node over both. -/
def slotBodies : Set (Body Felt) :=
  {b | (∃ n ≤ 250, b = .edge 5 (lastBit n)) ∨
    b = .binary 0x7c5bc1cc68b7bc8ca2f632de98297e6da9594fa23ede872dd2abeafde353c3c
      0x7c5bc1cc68b7bc8ca2f632de98297e6da9594fa23ede872dd2abeafde353c3c}

theorem edge_lastBit {n : Nat} :
    (feltHashing twoPedersen).edge 5 (lastBit n) =
      0x7c5bc1cc68b7bc8ca2f632de98297e6da9594fa23ede872dd2abeafde353b42 +
        Fin.ofNat STARK_PRIME (n + 1) := by
  show edgeHash twoPedersen 5 (bitsToFelt (lastBit n)) (lastBit n).length = _
  rw [bitsToFelt_lastBit, length_lastBit]
  rfl

/-- Below its first bit the trie has one slot. -/
theorem twoSlots_half {c : Bool} {pre : List Bool} (hpre : pre.length ≤ 250) {b : Body Felt}
    (hb : NodeAt (feltHashing twoPedersen) (250 - pre.length)
      (below (fun k => slotFn twoSlots (c :: k)) pre) b) :
    ∃ n ≤ 249, b = .edge 5 (lastBit n) := by
  have hlen : (lastBit 249).length = 250 := length_lastBit 249
  have hslot := slotFn_twoSlots (c := c) hlen
  rw [if_pos rfl] at hslot
  rw [← hlen] at hpre hb
  obtain ⟨t, ht, hne, rfl⟩ := nodeAt_below_single
    (f := fun k => slotFn twoSlots (c :: k)) hslot (by decide)
    (fun k hk hne => by rw [slotFn_twoSlots (hk.trans hlen), if_neg hne]) hpre hb
  obtain ⟨m, hm, rfl⟩ := suffix_lastBit ht hne
  exact ⟨m, hm, rfl⟩

theorem summary_twoSlots (c : Bool) :
    summary (feltHashing twoPedersen) 250 (fun k => slotFn twoSlots (c :: k)) =
      some ⟨lastBit 249, 5⟩ := by
  have hlen : (lastBit 249).length = 250 := length_lastBit 249
  have hslot := slotFn_twoSlots (c := c) hlen
  rw [if_pos rfl] at hslot
  have hsingle := summary_single (H := feltHashing twoPedersen) (k := lastBit 249)
    (f := fun k => slotFn twoSlots (c :: k)) (by rw [hslot]; decide)
    (fun k hk hne => by rw [slotFn_twoSlots (hk.trans hlen), if_neg hne])
  rw [hlen, hslot] at hsingle
  exact hsingle

theorem resolve_half : (feltHashing twoPedersen).resolve ⟨lastBit 249, 5⟩ =
    0x7c5bc1cc68b7bc8ca2f632de98297e6da9594fa23ede872dd2abeafde353c3c := by
  unfold Hashing.resolve
  rw [if_neg (lastBit_ne_nil 249), edge_lastBit]
  decide

/-- The bodies of the trie: the edges and the binary node over them. -/
theorem nodes_twoSlots : Patricia.nodes (feltHashing twoPedersen) TREE_HEIGHT (slotFn twoSlots) ⊆
    slotBodies := by
  intro b hb
  -- either half is one edge; over them is the binary node, of empty path
  have hhalf : ∀ c : Bool, NodeAt (feltHashing twoPedersen) 250
      (fun k => slotFn twoSlots (c :: k)) b → b ∈ slotBodies := by
    intro c hc
    obtain ⟨n, hn, rfl⟩ := @twoSlots_half c [] (Nat.zero_le _) b hc
    exact Or.inl ⟨n, Nat.le_succ_of_le hn, rfl⟩
  have htop := summary_binary (summary_twoSlots false) (summary_twoSlots true)
  change NodeAt (feltHashing twoPedersen) (250 + 1) (slotFn twoSlots) b at hb
  generalize hheight : 250 + 1 = h at hb
  cases hb with
  | binary hl hr =>
      obtain rfl := Nat.succ.inj hheight
      rw [summary_twoSlots false] at hl
      rw [summary_twoSlots true] at hr
      obtain rfl := Option.some.inj hl
      obtain rfl := Option.some.inj hr
      rw [resolve_half]
      exact Or.inr rfl
  | edge hn hp =>
      rw [← hheight, htop] at hn
      obtain rfl := Option.some.inj hn
      exact absurd rfl hp
  | left hl hr hb =>
      obtain rfl := Nat.succ.inj hheight
      exact hhalf false hb
  | right hl hr hb =>
      obtain rfl := Nat.succ.inj hheight
      exact hhalf true hb
  | under hn hp hb =>
      rw [← hheight, htop] at hn
      obtain rfl := Option.some.inj hn
      exact absurd rfl hp

theorem slotBodies_collisionFree : CollisionFreeOn (feltHashing twoPedersen) slotBodies := by
  -- the edges hash to 251 consecutive numbers that do not wrap; the binary node lies below them
  have hedge : ∀ n ≤ 250, (0x7c5bc1cc68b7bc8ca2f632de98297e6da9594fa23ede872dd2abeafde353b42 : Felt) +
      Fin.ofNat STARK_PRIME (n + 1) ≠ 0 ∧
      (0x7c5bc1cc68b7bc8ca2f632de98297e6da9594fa23ede872dd2abeafde353b42 : Felt) +
        Fin.ofNat STARK_PRIME (n + 1) ≠
          0x723d3dfdbc9a585574e57d71ddd995271fa8ca30a3250a9d3e0df4d66623cd7 := by
    intro n hn
    have hval : ((0x7c5bc1cc68b7bc8ca2f632de98297e6da9594fa23ede872dd2abeafde353b42 : Felt) +
        Fin.ofNat STARK_PRIME (n + 1)).val =
          0x7c5bc1cc68b7bc8ca2f632de98297e6da9594fa23ede872dd2abeafde353b42 + (n + 1) := by
      have hprime : STARK_PRIME =
          0x800000000000011000000000000000000000000000000000000000000000001 := by decide
      have hbase : (0x7c5bc1cc68b7bc8ca2f632de98297e6da9594fa23ede872dd2abeafde353b42 : Felt).val =
          0x7c5bc1cc68b7bc8ca2f632de98297e6da9594fa23ede872dd2abeafde353b42 := by decide
      have hstep : (n + 1) % STARK_PRIME = n + 1 := Nat.mod_eq_of_lt (by omega)
      rw [Fin.val_add, Fin.val_ofNat, hstep, hbase]
      exact Nat.mod_eq_of_lt (by omega)
    have hbinary : (0x723d3dfdbc9a585574e57d71ddd995271fa8ca30a3250a9d3e0df4d66623cd7 : Felt).val =
        0x723d3dfdbc9a585574e57d71ddd995271fa8ca30a3250a9d3e0df4d66623cd7 := by decide
    constructor
    · intro h
      have hzero := congrArg Fin.val h
      rw [hval, Fin.val_zero] at hzero
      omega
    · intro h
      have hbelow := congrArg Fin.val h
      rw [hval, hbinary] at hbelow
      omega
  have hbinary : (feltHashing twoPedersen).hash
      (.binary 0x7c5bc1cc68b7bc8ca2f632de98297e6da9594fa23ede872dd2abeafde353c3c
        0x7c5bc1cc68b7bc8ca2f632de98297e6da9594fa23ede872dd2abeafde353c3c) =
      0x723d3dfdbc9a585574e57d71ddd995271fa8ca30a3250a9d3e0df4d66623cd7 := by
    decide
  have hhash : ∀ n, (feltHashing twoPedersen).hash (.edge 5 (lastBit n)) = _ := fun n =>
    edge_lastBit (n := n)
  constructor
  · rintro a (⟨n, hn, rfl⟩ | rfl) b (⟨m, hm, rfl⟩ | rfl) heq
    · rw [hhash, hhash] at heq
      have hsame := congrArg Fin.val (add_left_cancel heq)
      have hprime : 251 < STARK_PRIME := by decide
      rw [Fin.val_ofNat, Fin.val_ofNat, Nat.mod_eq_of_lt (by omega), Nat.mod_eq_of_lt (by omega)]
        at hsame
      rw [Nat.succ.inj hsame]
    · rw [hhash, hbinary] at heq
      exact absurd heq (hedge n hn).2
    · rw [hhash, hbinary] at heq
      exact absurd heq.symm (hedge m hm).2
    · rfl
  · rintro b (⟨n, hn, rfl⟩ | rfl)
    · rw [hhash]
      exact (hedge n hn).1
    · rw [hbinary]
      decide

/-- The slots are in bit order already. -/
theorem bitEntries_twoSlots : bitEntries twoSlots = [(keyBits 1, 5), (keyBits highSlot, 5)] := by
  have hfilter : (twoSlots.filter fun e => e.2 ≠ 0) = twoSlots := by decide
  have hle : le (keyBits 1) (keyBits highSlot) = true := by
    rw [keyBits_one, keyBits_high]
    rfl
  have hne : keyBits 1 ≠ keyBits highSlot := by decide
  unfold bitEntries
  rw [hfilter]
  have hsorted : [(keyBits 1, (5 : Felt)), (keyBits highSlot, 5)].Pairwise
      fun a b => le a.1 b.1 = true := List.pairwise_pair.mpr hle
  have hmap : twoSlots.map (fun e => (keyBits e.1, e.2)) =
      [(keyBits 1, 5), (keyBits highSlot, 5)] := rfl
  rw [hmap]
  dsimp only
  rw [List.mergeSort_of_pairwise hsorted]
  exact List.destutter_of_isChain _ _ (List.isChain_pair.mpr hne)

theorem storageRoot_twoSlots : storageRoot twoPedersen twoSlots =
    0x723d3dfdbc9a585574e57d71ddd995271fa8ca30a3250a9d3e0df4d66623cd7 := by
  have htop := summary_binary (summary_twoSlots false) (summary_twoSlots true)
  rw [resolve_half] at htop
  exact ((storageRoot_eq_root twoPedersen slotSet_twoSlots).trans
    (root_of_summary htop)).trans (by decide)

end Strk20.Feed.Mpt
