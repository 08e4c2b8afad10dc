import Strk20.Feed.MptPrefix
import Strk20.Feed.StorageProof
import Strk20.Indexer.Ingest

/-!
# Structural enumeration of the chain's slots (`trie_walk.rs`)

The walk compares the chain's trie, revealed node by node, with the mirror's slots
prefix by prefix: equal hashes prune, a leaf that differs is reported. Below an edge
of the chain it goes straight to the child, so what the mirror holds beside the edge
is never looked at.

- `Walked`: what is reported, and what the pending prefixes still cover.
- `Walked.rounds`: a finished walk has nothing pending.
-/

namespace Strk20.Indexer.TrieWalk

open Feed Feed.Mpt BitPath Patricia Strk20.Lists Tables Result
open Std (ExtTreeMap)

/-- Crafted keys per `getStorageProof`. -/
def KEYS_PER_REQUEST : Nat := 64

/-- A walk that has not closed by here is reported, never looped. -/
def MAX_ROUNDS : Nat := 300

def BINDING_ATTEMPTS : Nat := 2

structure SlotDiff where
  block : Nat
  chainRoot : Felt
  localRoot : Felt
  missing : List (Felt × Felt)
  divergent : List (Felt × Felt × Felt)
  extra : List Felt
  chainLeaves : Nat
  localLeaves : Nat
  proofCalls : Nat
  rounds : Nat
deriving DecidableEq

def SlotDiff.isClean (diff : SlotDiff) : Bool :=
  diff.missing.isEmpty && diff.divergent.isEmpty && diff.extra.isEmpty

/-- The endpoints as the walk asks them: moment, block and keys; the nodes are those
of `contracts_storage_proofs[0]`, none where that is missing. -/
structure ProofClient where
  getBlock : Nat → BlockRef → Except Failure BlockHeader
  getStorageProof : Nat → Nat → List Felt → Except Failure (StorageProof × List ProofNode)

/-- The chain's nodes by hash. -/
abbrev Nodes := ExtTreeMap Key ProofNodeBody

/-- A prefix, and the chain's child hash for it. -/
abbrev Item := List Bool × Felt

section

variable (P : FeltParser) (pedersen : Felt → Felt → Felt)

/-! ## The walk -/

/-- `bound_proof`: believed once its block hash is the header's, asked twice at most. -/
def boundProof (c : ProofClient) (block : Nat) :
    Nat → Nat → Except Failure ((StorageProof × List ProofNode) × Nat)
  | 0, _ => .error .proofUnbound
  | attempts + 1, moment => do
      let answer ← c.getStorageProof moment block []
      let header ← c.getBlock moment (.number block)
      let chainHash ← parseFelt P header.blockHash
      match answer.1.blockHash with
      | none => throw .proofUnbound
      | some text => do
          let claimed ← parseFelt P text
          if claimed = chainHash then pure (answer, moment + 1)
          else boundProof c block attempts (moment + 1)

/-- `felt_from_hex`, its error among the walk's. -/
def nodeFelt (s : String) : Except Failure Felt := (feltFromHex P s).mapError .feed

/-- New nodes; one that is known stays as it is. -/
def absorb (nodes : Nodes) (raw : List ProofNode) : Except Failure Nodes :=
  raw.foldlM (fun nodes n => do
    let h ← nodeFelt P n.nodeHash
    pure (nodes.insertIfNew (toBytesBe h) n.node)) nodes

/-- The low bits of an edge's path, the highest first. -/
def edgeBits (path : String) (length : Nat) : Except Failure (List Bool) := do
  let f ← nodeFelt P path
  if TREE_HEIGHT < length then
    throw (.other ("edge length " ++ length.repr ++ " exceeds tree height"))
  else pure ((List.range length).map fun i => (toBytesBe f).val.testBit (length - 1 - i))

/-- One item of the queue: the report, the items pushed (the last pushed first), and
the item again where no node explains it. -/
def visit (sorted : List (List Bool × Felt)) (nodes : Nodes) (diff : SlotDiff) (item : Item) :
    Except Failure (SlotDiff × List Item × List Item) :=
  let pre := item.1
  let chainHash := item.2
  let localHash := subtreeHashAt pedersen sorted pre
  if localHash = chainHash then
    .ok ({ diff with chainLeaves := diff.chainLeaves + (entriesWithPrefix sorted pre).length },
      [], [])
  else if chainHash = 0 then
    .ok ({ diff with
      extra := diff.extra ++ (entriesWithPrefix sorted pre).map fun e => bitsToFelt e.1 }, [], [])
  else if pre.length = TREE_HEIGHT then
    -- at full depth the child hash is the leaf's value
    if localHash = 0 then
      .ok ({ diff with
        chainLeaves := diff.chainLeaves + 1
        missing := diff.missing ++ [(bitsToFelt pre, chainHash)] }, [], [])
    else
      .ok ({ diff with
        chainLeaves := diff.chainLeaves + 1
        divergent := diff.divergent ++ [(bitsToFelt pre, localHash, chainHash)] }, [], [])
  else
    match nodes[toBytesBe chainHash]? with
    | some (.binary left right) => do
        let l ← nodeFelt P left
        let r ← nodeFelt P right
        pure (diff, [(pre ++ [true], r), (pre ++ [false], l)], [])
    | some (.edge path length child) => do
        let child ← nodeFelt P child
        let bits ← edgeBits P path length
        if TREE_HEIGHT < (pre ++ bits).length then
          throw (.other ("edge at block " ++ diff.block.repr ++ " overruns the tree height"))
        else pure (diff, [(pre ++ bits, child)], [])
    | none => pure (diff, [], [(pre, chainHash)])

/-- The queue of one round. `none` when the fuel does not suffice: an edge without
bits leads nowhere, and a queue of such never empties. -/
def drain (sorted : List (List Bool × Felt)) (nodes : Nodes) :
    Nat → List Item → SlotDiff → List Item → Option (Except Failure (SlotDiff × List Item))
  | _, [], diff, unexplained => some (.ok (diff, unexplained))
  | 0, _ :: _, _, _ => none
  | fuel + 1, item :: queue, diff, unexplained =>
      match visit P pedersen sorted nodes diff item with
      | .error e => some (.error e)
      | .ok (diff, pushed, more) =>
          drain sorted nodes fuel (pushed ++ queue) diff (unexplained ++ more)

/-- A prefix padded to a key below it. -/
def craftedKey (pre : List Bool) : Felt :=
  bitsToFelt (pre ++ List.replicate (TREE_HEIGHT - pre.length) false)

/-- The requests of one round. -/
def reveal (c : ProofClient) (block : Nat) :
    List (List Felt) → Nat → Nodes → SlotDiff → Except Failure (Nat × Nodes × SlotDiff)
  | [], moment, nodes, diff => .ok (moment, nodes, diff)
  | chunk :: chunks, moment, nodes, diff => do
      let answer ← c.getStorageProof moment block chunk
      let nodes ← absorb P nodes answer.2
      reveal c block chunks (moment + 1) nodes { diff with proofCalls := diff.proofCalls + 1 }

def notClosedMessage (block unexplained proofCalls : Nat) : String :=
  "trie walk did not close in " ++ MAX_ROUNDS.repr ++ " rounds at block " ++ block.repr ++ " (" ++
    unexplained.repr ++ " unexplained subtrees left, " ++ proofCalls.repr ++
    " proof calls spent). Reporting rather than looping."

def stalledMessage (block unexplained calls : Nat) : String :=
  "trie walk stalled at block " ++ block.repr ++ ": " ++ unexplained.repr ++
    " subtrees are unexplained and a round of " ++ calls.repr ++
    " proof calls taught the walk nothing new. The endpoint is answering with proofs that do " ++
    "not cover the keys asked for; this is a provider fault, not a mirror fault."

/-- The rounds, `left` of them at most. -/
def walkRounds (c : ProofClient) (block fuel : Nat) (sorted : List (List Bool × Felt)) :
    Nat → Nat → Nodes → List Item → SlotDiff → Option (Except Failure SlotDiff)
  | _, _, _, [], diff => some (.ok diff)
  | 0, _, _, frontier@(_ :: _), diff =>
      some (.error (.other (notClosedMessage block frontier.length diff.proofCalls)))
  | left + 1, moment, nodes, frontier@(_ :: _), diff =>
      -- the frontier is popped from its end
      match drain P pedersen sorted nodes fuel frontier.reverse
          { diff with rounds := diff.rounds + 1 } [] with
      | none => none
      | some (.error e) => some (.error e)
      | some (.ok (diff, unexplained)) =>
          if unexplained.isEmpty then some (.ok diff)
          else
            let chunks := (unexplained.map fun item => craftedKey item.1).toChunks KEYS_PER_REQUEST
            match reveal P c block chunks moment nodes diff with
            | .error e => some (.error e)
            | .ok (moment, revealed, diff) =>
                if revealed.size = nodes.size then
                  some (.error (.other (stalledMessage block unexplained.length chunks.length)))
                else walkRounds c block fuel sorted left moment revealed unexplained diff

/-- `missing.sort()`. -/
def sortMissing (l : List (Felt × Felt)) : List (Felt × Felt) :=
  l.mergeSort fun a b => a.1 < b.1 || (a.1 == b.1 && a.2 ≤ b.2)

/-- `divergent.sort()`. -/
def sortDivergent (l : List (Felt × Felt × Felt)) : List (Felt × Felt × Felt) :=
  l.mergeSort fun a b => a.1 < b.1 || (a.1 == b.1 && (a.2.1 < b.2.1 ||
    (a.2.1 == b.2.1 && a.2.2 ≤ b.2.2)))

def SlotDiff.sort (diff : SlotDiff) : SlotDiff :=
  { diff with
    missing := sortMissing diff.missing
    divergent := sortDivergent diff.divergent
    extra := diff.extra.mergeSort fun a b => a ≤ b }

/-- What the walk starts from: the chain's root, nodes and moment. -/
def seed (c : ProofClient) (block : Nat) : Except Failure (Felt × Nodes × Nat) := do
  let (bound, moment) ← boundProof P c block BINDING_ATTEMPTS 0
  match bound.1.contractLeavesData.head? with
  | none => throw (.other ("proof for block " ++ block.repr ++ " has no contract leaf"))
  | some leaf => do
      let chainRoot ← parseFelt P leaf.storageRoot
      let nodes ← absorb P ∅ bound.2
      pure (chainRoot, nodes, moment)

/-- `enumerate_missing_slots`; `set` is `full_slot_set_as_of(block)`. -/
def enumerateMissingSlots (c : ProofClient) (set : List (Felt × Felt)) (block fuel : Nat) :
    Option (Except Failure SlotDiff) :=
  let entries := bitEntries set
  let localRoot := storageRoot pedersen set
  match seed P c block with
  | .error e => some (.error e)
  | .ok (chainRoot, nodes, moment) =>
      let diff : SlotDiff := ⟨block, chainRoot, localRoot, [], [], [], 0, entries.length, 1, 0⟩
      if chainRoot = localRoot then some (.ok { diff with chainLeaves := entries.length })
      else
        (walkRounds P pedersen c block fuel entries MAX_ROUNDS moment nodes [([], chainRoot)]
          diff).map fun result => result.map SlotDiff.sort

end

/-! ## The two tries -/

section

variable (P : FeltParser) (pedersen : Felt → Felt → Felt)

/-- Node bodies of the subtrees below every prefix, the inside of edges included. -/
def subtreeBodies (f : List Bool → Felt) : Set (Body Felt) :=
  {b | ∃ pre : List Bool, pre.length ≤ TREE_HEIGHT ∧
    NodeAt (feltHashing pedersen) (TREE_HEIGHT - pre.length) (below f pre) b}

/-- The node hash is collision-free and non-zero on what the walk compares. -/
def WalkHashing (chain mirror : List (Felt × Felt)) : Prop :=
  CollisionFreeOn (feltHashing pedersen)
    (subtreeBodies pedersen (slotFn chain) ∪ subtreeBodies pedersen (slotFn mirror))

/-- A text that spells a node of the chain's trie. -/
def TrueBody (chain : List (Felt × Felt)) (h : Felt) (text : ProofNodeBody) : Prop :=
  ∃ b, ProofNode.body P ⟨"", text⟩ = some b ∧
    NodeAt (feltHashing pedersen) TREE_HEIGHT (slotFn chain) b ∧ (feltHashing pedersen).hash b = h

/-- Nodes listed under their hashes. -/
def TrueNode (chain : List (Felt × Felt)) (n : ProofNode) : Prop :=
  ∃ h, P.fromHex n.nodeHash = some h ∧ TrueBody P pedersen chain h n.node

/-- Every answer about the block lists nodes of the chain's trie only, and a bound one
names its root. -/
structure AnswersFrom (c : ProofClient) (block : Nat) (chain : List (Felt × Felt)) : Prop where
  nodes : ∀ (moment : Nat) (keys : List Felt) (proof : StorageProof) (raw : List ProofNode),
    c.getStorageProof moment block keys = .ok (proof, raw) →
      ∀ n ∈ raw, TrueNode P pedersen chain n
  root : ∀ (moment : Nat) (keys : List Felt) (proof : StorageProof) (raw : List ProofNode)
    (leaf : ContractLeafData), c.getStorageProof moment block keys = .ok (proof, raw) →
      proof.contractLeavesData.head? = some leaf →
        P.fromHex leaf.storageRoot = some (storageRoot pedersen chain)

/-- The nodes known so far. -/
def NodesTrue (chain : List (Felt × Felt)) (nodes : Nodes) : Prop :=
  ∀ (k : Key) (text : ProofNodeBody), nodes[k]? = some text →
    ∃ h, toBytesBe h = k ∧ TrueBody P pedersen chain h text

/-- A pending prefix: its hash is the chain's root below it, and the chain has a slot
there. -/
structure AtPrefix (f : List Bool → Felt) (item : Item) : Prop where
  len : item.1.length ≤ TREE_HEIGHT
  hash : item.2 = root (feltHashing pedersen) (TREE_HEIGHT - item.1.length) (below f item.1)
  occupied : ∃ k : List Bool, k.length = TREE_HEIGHT - item.1.length ∧ below f item.1 k ≠ 0

/-- Keys reported so far. -/
def SlotDiff.reported (diff : SlotDiff) : List Felt :=
  diff.missing.map Prod.fst ++ diff.divergent.map Prod.fst

/-- What is reported is right, and what is not is under a pending prefix, each key in
one place. -/
structure Walked (f g : List Bool → Felt) (pending : List Item) (diff : SlotDiff) : Prop where
  placed : ∀ item ∈ pending, AtPrefix pedersen f item
  missing : ∀ e ∈ diff.missing, e.1.val < 2 ^ 251 ∧ e.2 ≠ 0 ∧ f (keyBits e.1) = e.2 ∧
    g (keyBits e.1) = 0
  divergent : ∀ e ∈ diff.divergent, e.1.val < 2 ^ 251 ∧ e.2.1 ≠ 0 ∧ e.2.2 ≠ 0 ∧ e.2.1 ≠ e.2.2 ∧
    g (keyBits e.1) = e.2.1 ∧ f (keyBits e.1) = e.2.2
  complete : ∀ k : List Bool, k.length = TREE_HEIGHT → f k ≠ 0 → f k ≠ g k →
    bitsToFelt k ∈ diff.reported ∨ ∃ item ∈ pending, item.1 <+: k
  once : ∀ k : List Bool, k.length = TREE_HEIGHT →
    diff.reported.count (bitsToFelt k) + pending.countP (fun item => item.1.isPrefixOf k) ≤ 1
  extra : diff.extra = []

variable {P pedersen} {f g : List Bool → Felt} {pending rest : List Item} {diff diff' : SlotDiff}
  {item : Item}

/-- The same report; rounds, calls and leaves do not count. -/
structure SameReport (diff diff' : SlotDiff) : Prop where
  missing : diff'.missing = diff.missing
  divergent : diff'.divergent = diff.divergent
  extra : diff'.extra = diff.extra

theorem Walked.congr (h : Walked pedersen f g pending diff) (hsame : SameReport diff diff') :
    Walked pedersen f g pending diff' := by
  have hreported : diff'.reported = diff.reported := by
    unfold SlotDiff.reported
    rw [hsame.missing, hsame.divergent]
  refine ⟨h.placed, ?_, ?_, ?_, ?_, ?_⟩
  · rw [hsame.missing]
    exact h.missing
  · rw [hsame.divergent]
    exact h.divergent
  · rw [hreported]
    exact h.complete
  · rw [hreported]
    exact h.once
  · rw [hsame.extra]
    exact h.extra

theorem Walked.perm {pending' : List Item} (h : Walked pedersen f g pending diff)
    (hperm : pending.Perm pending') : Walked pedersen f g pending' diff := by
  refine ⟨fun item hitem => h.placed item (hperm.mem_iff.mpr hitem), h.missing, h.divergent,
    ?_, ?_, h.extra⟩
  · intro k hk hf hne
    rcases h.complete k hk hf hne with hin | ⟨item, hitem, hpre⟩
    · exact Or.inl hin
    · exact Or.inr ⟨item, hperm.mem_iff.mp hitem, hpre⟩
  · intro k hk
    rw [← hperm.countP_eq]
    exact h.once k hk

/-- A pending prefix gives way to longer ones that cover its slots. -/
theorem Walked.replace {items : List Item} (h : Walked pedersen f g (item :: rest) diff)
    (hitems : ∀ i ∈ items, AtPrefix pedersen f i)
    (hcover : ∀ k : List Bool, k.length = TREE_HEIGHT → f k ≠ 0 → f k ≠ g k → item.1 <+: k →
      ∃ i ∈ items, i.1 <+: k)
    (hsplit : ∀ k : List Bool, items.countP (fun i => i.1.isPrefixOf k) ≤
      if item.1.isPrefixOf k then 1 else 0) :
    Walked pedersen f g (items ++ rest) diff := by
  refine ⟨?_, h.missing, h.divergent, ?_, ?_, h.extra⟩
  · intro i hi
    rcases List.mem_append.mp hi with hi | hi
    · exact hitems i hi
    · exact h.placed i (List.mem_cons_of_mem _ hi)
  · intro k hk hf hne
    rcases h.complete k hk hf hne with hin | ⟨i, hi, hpre⟩
    · exact Or.inl hin
    · rcases List.mem_cons.mp hi with rfl | hi
      · obtain ⟨i, hi, hpre⟩ := hcover k hk hf hne hpre
        exact Or.inr ⟨i, List.mem_append_left _ hi, hpre⟩
      · exact Or.inr ⟨i, List.mem_append_right _ hi, hpre⟩
  · intro k hk
    have honce := h.once k hk
    have hle := hsplit k
    rw [List.countP_cons] at honce
    rw [List.countP_append]
    omega

/-! ## One item -/

section

variable {chain mirror : List (Felt × Felt)}

theorem mem_subtreeBodies_of_nodeAt {b : Body Felt}
    (hb : NodeAt (feltHashing pedersen) TREE_HEIGHT (slotFn chain) b) :
    b ∈ subtreeBodies pedersen (slotFn chain) ∪ subtreeBodies pedersen (slotFn mirror) :=
  Or.inl ⟨[], Nat.zero_le _, hb⟩

/-- A node of the chain collides with no node below a prefix. -/
theorem WalkHashing.noCollision (hS : WalkHashing pedersen chain mirror) {pre : List Bool} {n : Nat}
    (hpre : pre.length ≤ TREE_HEIGHT) (hn : TREE_HEIGHT - pre.length = n) {b : Body Felt}
    (hb : NodeAt (feltHashing pedersen) TREE_HEIGHT (slotFn chain) b) :
    NoCollision (feltHashing pedersen) n (below (slotFn chain) pre) b := by
  subst hn
  exact fun b' hb' heq => hS.inj (Or.inl ⟨pre, hpre, hb'⟩) (mem_subtreeBodies_of_nodeAt hb) heq

theorem AtPrefix.ne_zero (hS : WalkHashing pedersen chain mirror)
    (h : AtPrefix pedersen (slotFn chain) item) : item.2 ≠ 0 := by
  rw [h.hash]
  exact root_ne_zero (fun b hb => hS.ne_zero b (Or.inl ⟨item.1, h.len, hb⟩)) h.occupied

/-- Equal hashes are equal slots. -/
theorem AtPrefix.agree (hS : WalkHashing pedersen chain mirror) (hmirror : SlotSet mirror)
    (h : AtPrefix pedersen (slotFn chain) item)
    (heq : subtreeHashAt pedersen (bitEntries mirror) item.1 = item.2) {k : List Bool}
    (hk : k.length = TREE_HEIGHT) (hpre : item.1 <+: k) : slotFn chain k = slotFn mirror k := by
  obtain ⟨t, rfl⟩ := hpre
  rw [subtreeHashAt_eq_root pedersen hmirror h.len, h.hash] at heq
  have hlen : t.length = TREE_HEIGHT - item.1.length := by
    rw [List.length_append] at hk
    omega
  exact root_inj hS (fun b hb => Or.inl ⟨item.1, h.len, hb⟩)
    (fun b hb => Or.inr ⟨item.1, h.len, hb⟩) heq.symm t hlen

/-- Both children of a binary node are pending prefixes again. -/
theorem AtPrefix.binary (hS : WalkHashing pedersen chain mirror)
    (h : AtPrefix pedersen (slotFn chain) item) (hlt : item.1.length ≠ TREE_HEIGHT) {l r : Felt}
    (hin : NodeAt (feltHashing pedersen) TREE_HEIGHT (slotFn chain) (.binary l r))
    (hhash : (feltHashing pedersen).hash (.binary l r) = item.2) :
    AtPrefix pedersen (slotFn chain) (item.1 ++ [false], l) ∧
      AtPrefix pedersen (slotFn chain) (item.1 ++ [true], r) := by
  have hlen := h.len
  obtain ⟨n, hn⟩ : ∃ n, TREE_HEIGHT - item.1.length = n + 1 :=
    Nat.exists_eq_succ_of_ne_zero (by omega)
  have hroot := h.hash
  have hnz := h.ne_zero hS
  rw [hn] at hroot
  rw [hroot] at hnz
  obtain ⟨hl, hr, -, hboth⟩ := root_binary_inv (hS.noCollision h.len hn hin)
    (hroot.symm.trans hhash.symm) hnz
  have hchild : ∀ c : Bool, (fun k => below (slotFn chain) item.1 (c :: k)) =
      below (slotFn chain) (item.1 ++ [c]) := by
    intro c
    funext k
    simp [below]
  have hheight : ∀ c : Bool, TREE_HEIGHT - (item.1 ++ [c]).length = n := by
    intro c
    rw [List.length_append, List.length_singleton]
    omega
  have hat : ∀ (c : Bool) (v : Felt),
      v = root (feltHashing pedersen) n (fun k => below (slotFn chain) item.1 (c :: k)) →
        AtPrefix pedersen (slotFn chain) (item.1 ++ [c], v) := by
    intro c v hv
    refine ⟨?_, ?_, ?_⟩
    · show (item.1 ++ [c]).length ≤ TREE_HEIGHT
      rw [List.length_append, List.length_singleton]
      omega
    · show v = root _ (TREE_HEIGHT - (item.1 ++ [c]).length) (below _ (item.1 ++ [c]))
      rw [hheight, ← hchild, hv]
    · obtain ⟨k, hk, hne⟩ := hboth c
      refine ⟨k, ?_, ?_⟩
      · show k.length = TREE_HEIGHT - (item.1 ++ [c]).length
        rw [hheight, hk]
      · show below _ (item.1 ++ [c]) k ≠ 0
        rw [← hchild]
        exact hne
  exact ⟨hat false l hl, hat true r hr⟩

/-- The child of an edge is a pending prefix again, and covers the chain's slots. -/
theorem AtPrefix.edge (hS : WalkHashing pedersen chain mirror)
    (h : AtPrefix pedersen (slotFn chain) item) (hlt : item.1.length ≠ TREE_HEIGHT) {c : Felt}
    {path : List Bool}
    (hin : NodeAt (feltHashing pedersen) TREE_HEIGHT (slotFn chain) (.edge c path))
    (hhash : (feltHashing pedersen).hash (.edge c path) = item.2) :
    AtPrefix pedersen (slotFn chain) (item.1 ++ path, c) ∧
      ∀ k : List Bool, k.length = TREE_HEIGHT → slotFn chain k ≠ 0 → item.1 <+: k →
        (item.1 ++ path) <+: k := by
  have hlen := h.len
  obtain ⟨n, hn⟩ : ∃ n, TREE_HEIGHT - item.1.length = n + 1 :=
    Nat.exists_eq_succ_of_ne_zero (by omega)
  have hroot := h.hash
  have hnz := h.ne_zero hS
  rw [hn] at hroot
  rw [hroot] at hnz
  obtain ⟨n', hsum, hc, -, hout, -, hslot⟩ := root_edge_inv (hS.noCollision h.len hn hin)
    (hroot.symm.trans hhash.symm) hnz
  have hheight : TREE_HEIGHT - (item.1 ++ path).length = n' := by
    rw [List.length_append]
    omega
  refine ⟨⟨?_, ?_, ?_⟩, ?_⟩
  · show (item.1 ++ path).length ≤ TREE_HEIGHT
    rw [List.length_append]
    omega
  · show c = root _ (TREE_HEIGHT - (item.1 ++ path).length) (below _ (item.1 ++ path))
    rw [hheight, below_append, hc]
  · show ∃ k : List Bool, k.length = TREE_HEIGHT - (item.1 ++ path).length ∧
      below _ (item.1 ++ path) k ≠ 0
    rw [hheight, below_append]
    exact hslot
  · rintro k hk hne ⟨t, rfl⟩
    have ht : t.length = n + 1 := by
      rw [List.length_append] at hk
      omega
    by_cases hpath : path <+: t
    · obtain ⟨u, rfl⟩ := hpath
      exact ⟨u, List.append_assoc _ _ _⟩
    · exact absurd (hout t ht hpath) hne

/-- At full depth the hash is the chain's value. -/
theorem AtPrefix.leaf (h : AtPrefix pedersen (slotFn chain) item)
    (hfull : item.1.length = TREE_HEIGHT) : item.2 = slotFn chain item.1 := by
  have hroot := h.hash
  rw [hfull, Nat.sub_self, root_zero, below_apply, List.append_nil] at hroot
  exact hroot

theorem subtreeHashAt_leaf (pedersen : Felt → Felt → Felt)
    (hmirror : SlotSet mirror) {pre : List Bool}
    (hfull : pre.length = TREE_HEIGHT) :
    subtreeHashAt pedersen (bitEntries mirror) pre = slotFn mirror pre := by
  rw [subtreeHashAt_eq_root pedersen hmirror (Nat.le_of_eq hfull), hfull, Nat.sub_self, root_zero,
    below_apply, List.append_nil]

theorem isPrefixOf_full {a b : List Bool} (ha : a.length = TREE_HEIGHT) (hb : b.length = TREE_HEIGHT) :
    a.isPrefixOf b = true ↔ a = b := by
  rw [List.isPrefixOf_iff_prefix]
  constructor
  · exact fun h => h.eq_of_length (ha.trans hb.symm)
  · rintro rfl
    exact List.prefix_refl a

/-- A pending leaf moves to the report. -/
theorem Walked.report (h : Walked pedersen f g (item :: rest) diff)
    (hfull : item.1.length = TREE_HEIGHT)
    (hmissing : ∀ e ∈ diff'.missing, e.1.val < 2 ^ 251 ∧ e.2 ≠ 0 ∧ f (keyBits e.1) = e.2 ∧
      g (keyBits e.1) = 0)
    (hdivergent : ∀ e ∈ diff'.divergent, e.1.val < 2 ^ 251 ∧ e.2.1 ≠ 0 ∧ e.2.2 ≠ 0 ∧
      e.2.1 ≠ e.2.2 ∧ g (keyBits e.1) = e.2.1 ∧ f (keyBits e.1) = e.2.2)
    (hcount : ∀ a, diff'.reported.count a =
      diff.reported.count a + if a = bitsToFelt item.1 then 1 else 0)
    (hextra : diff'.extra = diff.extra) : Walked pedersen f g rest diff' := by
  refine ⟨fun i hi => h.placed i (List.mem_cons_of_mem _ hi), hmissing, hdivergent, ?_, ?_, ?_⟩
  · intro k hk hf hne
    rw [← List.count_pos_iff, hcount]
    rcases h.complete k hk hf hne with hin | ⟨i, hi, hpre⟩
    · have := List.count_pos_iff.mpr hin
      exact Or.inl (by omega)
    · rcases List.mem_cons.mp hi with rfl | hi
      · have heq : i.1 = k := hpre.eq_of_length (hfull.trans hk.symm)
        rw [heq, if_pos rfl]
        exact Or.inl (Nat.succ_pos _)
      · exact Or.inr ⟨i, hi, hpre⟩
  · intro k hk
    have honce := h.once k hk
    rw [List.countP_cons] at honce
    rw [hcount]
    have hiff : bitsToFelt k = bitsToFelt item.1 ↔ item.1.isPrefixOf k = true := by
      rw [isPrefixOf_full hfull hk]
      exact ⟨fun heq => (bitsToFelt_inj hk hfull heq).symm, fun heq => by rw [heq]⟩
    by_cases hhere : bitsToFelt k = bitsToFelt item.1
    · rw [if_pos (hiff.mp hhere)] at honce
      rw [if_pos hhere]
      omega
    · rw [if_neg hhere]
      omega
  · rw [hextra]
    exact h.extra

theorem nodeFelt_ok {s : String} {v : Felt} (h : nodeFelt P s = .ok v) : P.fromHex s = some v := by
  unfold nodeFelt feltFromHex at h
  cases hs : P.fromHex s with
  | none =>
      rw [hs] at h
      cases h
  | some w =>
      rw [hs] at h
      rw [Except.ok.inj h]

theorem edgeBits_ok {path : String} {length : Nat} {bits : List Bool}
    (h : edgeBits P path length = .ok bits) :
    ∃ v, P.fromHex path = some v ∧ length ≤ TREE_HEIGHT ∧ bits = bitsOf length v.val := by
  unfold edgeBits at h
  obtain ⟨v, hv, h⟩ := bind_eq_ok.mp h
  obtain ⟨hlen, h⟩ := ite_throw_eq_ok.mp h
  obtain rfl := pure_eq_ok.mp h
  refine ⟨v, nodeFelt_ok hv, Nat.le_of_not_lt hlen, ?_⟩
  rw [bitsOf_eq_map]
  rfl

/-- The body a listed binary node spells. -/
theorem trueBody_binary {left right : String} {l r v : Felt}
    (h : TrueBody P pedersen chain v (.binary left right)) (hl : P.fromHex left = some l)
    (hr : P.fromHex right = some r) :
    NodeAt (feltHashing pedersen) TREE_HEIGHT (slotFn chain) (.binary l r) ∧
      (feltHashing pedersen).hash (.binary l r) = v := by
  obtain ⟨b, hb, hin, hhash⟩ := h
  unfold ProofNode.body at hb
  simp only [hl, hr, Option.bind_eq_bind, Option.bind_some, Option.some.injEq] at hb
  subst hb
  exact ⟨hin, hhash⟩

theorem trueBody_edge {path child : String} {length : Nat} {c w v : Felt}
    (h : TrueBody P pedersen chain v (.edge path length child)) (hp : P.fromHex path = some w)
    (hc : P.fromHex child = some c) :
    NodeAt (feltHashing pedersen) TREE_HEIGHT (slotFn chain) (.edge c (bitsOf length w.val)) ∧
      (feltHashing pedersen).hash (.edge c (bitsOf length w.val)) = v := by
  obtain ⟨b, hb, hin, hhash⟩ := h
  unfold ProofNode.body at hb
  simp only [hp, hc, Option.bind_eq_bind, Option.bind_some] at hb
  split at hb
  · obtain rfl := Option.some.inj hb
    exact ⟨hin, hhash⟩
  · cases hb

/-- **One item.** Its prefix is pruned, reported, or gives way to longer ones. -/
theorem Walked.visit (hS : WalkHashing pedersen chain mirror) (hmirror : SlotSet mirror)
    {nodes : Nodes} (hnodes : NodesTrue P pedersen chain nodes) {pushed more : List Item}
    (h : Walked pedersen (slotFn chain) (slotFn mirror) (item :: rest) diff)
    (hok : visit P pedersen (bitEntries mirror) nodes diff item = .ok (diff', pushed, more)) :
    Walked pedersen (slotFn chain) (slotFn mirror) (pushed ++ more ++ rest) diff' := by
  have hitem := h.placed item List.mem_cons_self
  have hnz := hitem.ne_zero hS
  unfold TrieWalk.visit at hok
  simp only at hok
  split at hok
  · rename_i heq
    obtain ⟨rfl, rfl, rfl⟩ : _ ∧ _ ∧ _ := by simpa using hok
    refine (h.replace (fun i hi => absurd hi List.not_mem_nil) ?_ ?_).congr
      ⟨rfl, rfl, rfl⟩
    · intro k hk _ hne hpre
      exact absurd (hitem.agree hS hmirror heq hk hpre) hne
    · intro k
      exact Nat.zero_le _
  · rename_i hdiffer
    split at hok
    · -- a leaf of the chain
      rename_i hfull
      have hchain := hitem.leaf hfull
      have hlocal := subtreeHashAt_leaf pedersen hmirror hfull
      have hkey := keyBits_bitsToFelt hfull
      have hlt := bitsToFelt_lt hfull
      rw [hlocal] at hok hdiffer
      split at hok
      · rename_i hzero
        obtain ⟨rfl, rfl, rfl⟩ : _ ∧ _ ∧ _ := by simpa using hok
        refine h.report hfull ?_ h.divergent ?_ rfl
        · intro e he
          rcases List.mem_append.mp he with he | he
          · exact h.missing e he
          · rw [List.mem_singleton.mp he]
            refine ⟨hlt, hnz, ?_, ?_⟩
            · rw [hkey, ← hchain]
            · rw [hkey, hzero]
        · intro a
          unfold SlotDiff.reported
          simp only [List.map_append, List.map_cons, List.map_nil, List.count_append,
            List.count_singleton, beq_iff_eq, eq_comm (a := bitsToFelt item.1)]
          omega
      · rename_i hsome
        obtain ⟨rfl, rfl, rfl⟩ : _ ∧ _ ∧ _ := by simpa using hok
        refine h.report hfull h.missing ?_ ?_ rfl
        · intro e he
          rcases List.mem_append.mp he with he | he
          · exact h.divergent e he
          · rw [List.mem_singleton.mp he]
            refine ⟨hlt, hsome, hnz, hdiffer, ?_, ?_⟩
            · rw [hkey]
            · rw [hkey, ← hchain]
        · intro a
          unfold SlotDiff.reported
          simp only [List.map_append, List.map_cons, List.map_nil, List.count_append,
            List.count_singleton, beq_iff_eq, eq_comm (a := bitsToFelt item.1)]
          omega
    · rename_i hlt
      split at hok
      · -- a binary node
        rename_i left right hget
        obtain ⟨v, hv, htrue⟩ := hnodes _ _ hget
        obtain rfl := toBytesBe_inj.mp hv
        obtain ⟨l, hl, hok⟩ := bind_eq_ok.mp hok
        obtain ⟨r, hr, hok⟩ := bind_eq_ok.mp hok
        obtain ⟨rfl, rfl, rfl⟩ : _ ∧ _ ∧ _ := by simpa using pure_eq_ok.mp hok
        obtain ⟨hin, hhash⟩ := trueBody_binary htrue (nodeFelt_ok hl) (nodeFelt_ok hr)
        obtain ⟨hleft, hright⟩ := hitem.binary hS hlt hin hhash
        rw [List.append_nil]
        refine h.replace ?_ ?_ ?_
        · intro i hi
          simp only [List.mem_cons, List.not_mem_nil, or_false] at hi
          rcases hi with rfl | rfl
          · exact hright
          · exact hleft
        · rintro k hk _ _ ⟨t, rfl⟩
          cases t with
          | nil =>
              rw [List.append_nil] at hk
              exact absurd hk hlt
          | cons b t =>
              cases b with
              | false => exact ⟨(item.1 ++ [false], l), by simp, t, by simp⟩
              | true => exact ⟨(item.1 ++ [true], r), by simp, t, by simp⟩
        · intro k
          by_cases hpre : item.1 <+: k
          · obtain ⟨t, rfl⟩ := hpre
            cases t with
            | nil =>
                have hnone : ∀ b : Bool, ¬ (item.1 ++ [b]) <+: item.1 := by
                  intro b hb
                  have hle := hb.length_le
                  rw [List.length_append, List.length_singleton] at hle
                  omega
                simp [List.isPrefixOf_iff_prefix, hnone]
            | cons b t => cases b <;> simp [List.isPrefixOf_iff_prefix]
          · have hnone : ∀ b : Bool, ¬ (item.1 ++ [b]) <+: k := fun b hb =>
              hpre ((List.prefix_append _ _).trans hb)
            simp [List.isPrefixOf_iff_prefix, hnone]
      · -- an edge
        rename_i path length child hget
        obtain ⟨v, hv, htrue⟩ := hnodes _ _ hget
        obtain rfl := toBytesBe_inj.mp hv
        obtain ⟨c, hc, hok⟩ := bind_eq_ok.mp hok
        obtain ⟨bits, hbits, hok⟩ := bind_eq_ok.mp hok
        obtain ⟨-, hok⟩ := ite_throw_eq_ok.mp hok
        obtain ⟨rfl, rfl, rfl⟩ : _ ∧ _ ∧ _ := by simpa using pure_eq_ok.mp hok
        obtain ⟨w, hw, -, rfl⟩ := edgeBits_ok hbits
        obtain ⟨hin, hhash⟩ := trueBody_edge htrue hw (nodeFelt_ok hc)
        obtain ⟨hat, hcover⟩ := hitem.edge hS hlt hin hhash
        rw [List.append_nil]
        refine h.replace ?_ ?_ ?_
        · intro i hi
          rw [List.mem_singleton.mp hi]
          exact hat
        · intro k hk hne _ hpre
          exact ⟨_, List.mem_singleton_self _, hcover k hk hne hpre⟩
        · intro k
          by_cases hpre : item.1 <+: k
          · simp only [List.isPrefixOf_iff_prefix.mpr hpre, if_true]
            exact List.countP_le_length
          · have hnone : ¬ (item.1 ++ bitsOf length w.val) <+: k := fun hb =>
              hpre ((List.prefix_append _ _).trans hb)
            simp [List.isPrefixOf_iff_prefix, hnone]
      · obtain ⟨rfl, rfl, rfl⟩ : _ ∧ _ ∧ _ := by simpa using pure_eq_ok.mp hok
        exact h

/-! ## The run -/

/-- **One round.** -/
theorem Walked.drain (hS : WalkHashing pedersen chain mirror) (hmirror : SlotSet mirror)
    {nodes : Nodes} (hnodes : NodesTrue P pedersen chain nodes) {fuel : Nat}
    {queue unexplained left : List Item}
    (h : Walked pedersen (slotFn chain) (slotFn mirror) (queue ++ unexplained) diff)
    (hok : drain P pedersen (bitEntries mirror) nodes fuel queue diff unexplained =
      some (.ok (diff', left))) :
    Walked pedersen (slotFn chain) (slotFn mirror) left diff' := by
  induction fuel generalizing queue diff unexplained with
  | zero =>
      cases queue with
      | nil =>
          obtain ⟨rfl, rfl⟩ : _ ∧ _ := by simpa [TrieWalk.drain] using hok
          exact h
      | cons item queue => cases hok
  | succ fuel ih =>
      cases queue with
      | nil =>
          obtain ⟨rfl, rfl⟩ : _ ∧ _ := by simpa [TrieWalk.drain] using hok
          exact h
      | cons item queue =>
          rw [TrieWalk.drain] at hok
          cases hvisit : TrieWalk.visit P pedersen (bitEntries mirror) nodes diff item with
          | error e =>
              rw [hvisit] at hok
              cases hok
          | ok result =>
              obtain ⟨diff₁, pushed, more⟩ := result
              rw [hvisit] at hok
              have hperm : (pushed ++ more ++ (queue ++ unexplained)).Perm
                  ((pushed ++ queue) ++ (unexplained ++ more)) := by
                rw [List.append_assoc, List.append_assoc]
                refine List.Perm.append_left pushed ?_
                rw [← List.append_assoc queue]
                exact List.perm_append_comm
              exact ih (Walked.perm (h.visit hS hmirror hnodes hvisit) hperm) hok

/-- A bound proof is an answer of the endpoint. -/
theorem boundProof_ok {c : ProofClient} {block attempts moment moment' : Nat}
    {answer : StorageProof × List ProofNode}
    (h : boundProof P c block attempts moment = .ok (answer, moment')) :
    ∃ m, c.getStorageProof m block [] = .ok answer := by
  induction attempts generalizing moment with
  | zero => cases h
  | succ attempts ih =>
      rw [boundProof] at h
      obtain ⟨answer₁, hanswer, h⟩ := bind_eq_ok.mp h
      obtain ⟨header, -, h⟩ := bind_eq_ok.mp h
      obtain ⟨chainHash, -, h⟩ := bind_eq_ok.mp h
      split at h
      · cases h
      · obtain ⟨claimed, -, h⟩ := bind_eq_ok.mp h
        split at h
        · obtain ⟨rfl, -⟩ := Prod.mk.inj (pure_eq_ok.mp h)
          exact ⟨moment, hanswer⟩
        · exact ih h

theorem nodesTrue_absorb {nodes nodes' : Nodes} {raw : List ProofNode}
    (hnodes : NodesTrue P pedersen chain nodes) (hraw : ∀ n ∈ raw, TrueNode P pedersen chain n)
    (hok : absorb P nodes raw = .ok nodes') : NodesTrue P pedersen chain nodes' := by
  refine foldlM_ok_inv hok hnodes ?_
  intro nodes n nodes' hn hnodes hstep
  obtain ⟨v, hv, hstep⟩ := bind_eq_ok.mp hstep
  obtain rfl := pure_eq_ok.mp hstep
  obtain ⟨w, hw, htrue⟩ := hraw n hn
  obtain rfl := Option.some.inj ((nodeFelt_ok hv).symm.trans hw)
  intro k text hk
  rw [ExtTreeMap.getElem?_insertIfNew] at hk
  split at hk
  · rename_i hnew
    obtain rfl := Option.some.inj hk
    exact ⟨v, (Std.LawfulEqCmp.eq_of_compare hnew.1), htrue⟩
  · exact hnodes k text hk

theorem nodesTrue_reveal {c : ProofClient} {block : Nat} (hc : AnswersFrom P pedersen c block chain)
    {chunks : List (List Felt)} {moment moment' : Nat} {nodes nodes' : Nodes}
    (hnodes : NodesTrue P pedersen chain nodes)
    (hok : reveal P c block chunks moment nodes diff = .ok (moment', nodes', diff')) :
    NodesTrue P pedersen chain nodes' ∧ SameReport diff diff' := by
  induction chunks generalizing moment nodes diff with
  | nil =>
      obtain ⟨-, rfl, rfl⟩ : _ ∧ _ ∧ _ := by simpa [reveal] using hok
      exact ⟨hnodes, rfl, rfl, rfl⟩
  | cons chunk chunks ih =>
      obtain ⟨⟨proof, raw⟩, hanswer, hok⟩ := bind_eq_ok.mp hok
      obtain ⟨nodes₁, habsorb, hok⟩ := bind_eq_ok.mp hok
      obtain ⟨htrue, hsame⟩ := ih
        (nodesTrue_absorb hnodes (hc.nodes moment chunk proof raw hanswer) habsorb) hok
      exact ⟨htrue, hsame.missing, hsame.divergent, hsame.extra⟩

/-- **All rounds.** A walk that closes has no prefix pending. -/
theorem Walked.rounds (hS : WalkHashing pedersen chain mirror) (hmirror : SlotSet mirror)
    {c : ProofClient} {block fuel left moment : Nat} (hc : AnswersFrom P pedersen c block chain)
    {nodes : Nodes} (hnodes : NodesTrue P pedersen chain nodes) {frontier : List Item}
    (h : Walked pedersen (slotFn chain) (slotFn mirror) frontier diff)
    (hok : walkRounds P pedersen c block fuel (bitEntries mirror) left moment nodes frontier diff =
      some (.ok diff')) :
    Walked pedersen (slotFn chain) (slotFn mirror) [] diff' := by
  induction left generalizing moment nodes frontier diff with
  | zero =>
      cases frontier with
      | nil =>
          obtain rfl : diff = diff' := by simpa [walkRounds] using hok
          exact h
      | cons item frontier =>
          rw [walkRounds] at hok
          cases Option.some.inj hok
  | succ left ih =>
      cases frontier with
      | nil =>
          obtain rfl : diff = diff' := by simpa [walkRounds] using hok
          exact h
      | cons item frontier =>
          rw [walkRounds] at hok
          have hstart : Walked pedersen (slotFn chain) (slotFn mirror)
              ((item :: frontier).reverse ++ []) { diff with rounds := diff.rounds + 1 } := by
            rw [List.append_nil]
            have hcounted : SameReport diff { diff with rounds := diff.rounds + 1 } :=
              ⟨rfl, rfl, rfl⟩
            exact (h.congr hcounted).perm (List.reverse_perm _).symm
          cases hdrain : TrieWalk.drain P pedersen (bitEntries mirror) nodes fuel
              (item :: frontier).reverse { diff with rounds := diff.rounds + 1 } [] with
          | none =>
              rw [hdrain] at hok
              cases hok
          | some result =>
              rw [hdrain] at hok
              cases result with
              | error e => cases Option.some.inj hok
              | ok result =>
                  obtain ⟨diff₁, unexplained⟩ := result
                  have hround := hstart.drain hS hmirror hnodes hdrain
                  simp only at hok
                  split at hok
                  · -- all explained: the walk has closed
                    rename_i hempty
                    rw [List.isEmpty_iff.mp hempty] at hround
                    obtain rfl : diff₁ = diff' := by simpa using hok
                    exact hround
                  · -- the rest needs nodes that the next request reveals
                    cases hreveal : reveal P c block
                        ((unexplained.map fun item => craftedKey item.1).toChunks KEYS_PER_REQUEST)
                        moment nodes diff₁ with
                    | error e =>
                        rw [hreveal] at hok
                        cases Option.some.inj hok
                    | ok revealed =>
                        obtain ⟨moment₁, nodes₁, diff₂⟩ := revealed
                        rw [hreveal] at hok
                        obtain ⟨hnodes₁, hsame⟩ := nodesTrue_reveal hc hnodes hreveal
                        simp only at hok
                        split at hok
                        · cases Option.some.inj hok
                        · exact ih hnodes₁ (hround.congr hsame) hok

end

end

end Strk20.Indexer.TrieWalk
