import Strk20.Indexer.TrieWalk

/-!
# When the trie walk ends (`trie_walk.rs`)

Every descent lengthens the prefix, except along an edge of length zero: the
walk accepts one, and comes back to the prefix it was at with another hash. A
queue is therefore drained exactly when no item it comes to leads back to
itself along such edges; the rounds are bounded anyway.

- `drain_ends_iff`: one queue.
- `walk_ends_iff`: the whole walk, with the bounds on rounds and prefixes.
-/

namespace Strk20.Indexer.TrieWalk

open Feed Feed.Mpt BitPath Result
open Std (ExtTreeMap)
open Relation (ReflTransGen TransGen)

section

variable (P : FeltParser) (pedersen : Felt → Felt → Felt) (sorted : List (List Bool × Felt))
  (nodes : Nodes)

/-! ## One item -/

/-- From the hash `h`, not pruned below `pre`, an edge of length zero leads to `h'`. -/
structure ZeroStep (pre : List Bool) (h h' : Felt) : Prop where
  differs : subtreeHashAt pedersen sorted pre ≠ h
  nonzero : h ≠ 0
  inner : pre.length ≠ TREE_HEIGHT
  edge : ∃ path child f, nodes[toBytesBe h]? = some (.edge path 0 child) ∧
    nodeFelt P path = .ok f ∧ nodeFelt P child = .ok h'

/-- Edges of length zero lead from the item back to it. -/
def Looping (item : Item) : Prop :=
  TransGen (ZeroStep P pedersen sorted nodes item.1) item.2 item.2

/-- What the visit of an item does to the queue, whatever was reported before. -/
structure Visited (item : Item) (pushed more : List Item) : Prop where
  visits : ∀ diff, ∃ diff', visit P pedersen sorted nodes diff item = .ok (diff', pushed, more) ∧
    diff'.rounds = diff.rounds
  unexplained : ∀ i ∈ more, i = item
  deeper : (∀ i ∈ pushed, item.1.length < i.1.length ∧ i.1.length ≤ TREE_HEIGHT) ∨
    ∃ h', ZeroStep P pedersen sorted nodes item.1 item.2 h' ∧ pushed = [(item.1, h')]

/-- One turn of the queue loop: an item is popped, its children are pushed. -/
def Turn (queue queue' : List Item) : Prop :=
  ∃ item rest pushed, queue = item :: rest ∧ queue' = pushed ++ rest ∧
    ∀ diff, ∃ diff' more, visit P pedersen sorted nodes diff item = .ok (diff', pushed, more)

/-- No item the loop comes to leads back to itself. -/
def LoopFree (queue : List Item) : Prop :=
  ∀ item rest, ReflTransGen (Turn P pedersen sorted nodes) queue (item :: rest) →
    ¬ Looping P pedersen sorted nodes item

variable {P pedersen sorted nodes}

theorem edgeBits_length {path : String} {length : Nat} {bits : List Bool}
    (h : edgeBits P path length = .ok bits) : bits.length = length := by
  obtain ⟨v, -, h⟩ := bind_eq_ok.mp h
  obtain ⟨-, h⟩ := ite_throw_eq_ok.mp h
  obtain rfl := pure_eq_ok.mp h
  rw [List.length_map, List.length_range]

theorem ZeroStep.visit_eq {pre : List Bool} {h h' : Felt}
    (hz : ZeroStep P pedersen sorted nodes pre h h') (hpre : pre.length ≤ TREE_HEIGHT)
    (diff : SlotDiff) :
    visit P pedersen sorted nodes diff (pre, h) = .ok (diff, [(pre, h')], []) := by
  obtain ⟨path, child, f, hget, hf, hc⟩ := hz.edge
  have hbits : edgeBits P path 0 = .ok [] := by
    rw [edgeBits, hf]
    rfl
  have hfits : ¬ TREE_HEIGHT < pre.length := by omega
  unfold visit
  simp only [if_neg hz.differs, if_neg hz.nonzero, if_neg hz.inner, hget, hc, hbits, bind,
    Except.bind, List.append_nil, if_neg hfits, pure, Except.pure]

/-- An item that is pruned or reported. -/
theorem visit_settled {item : Item} (h : subtreeHashAt pedersen sorted item.1 = item.2 ∨
    item.2 = 0 ∨ item.1.length = TREE_HEIGHT) (diff : SlotDiff) :
    ∃ diff', visit P pedersen sorted nodes diff item = .ok (diff', [], []) ∧
      diff'.rounds = diff.rounds := by
  unfold visit
  simp only
  split
  · exact ⟨_, rfl, rfl⟩
  · split
    · exact ⟨_, rfl, rfl⟩
    · split
      · split
        · exact ⟨_, rfl, rfl⟩
        · exact ⟨_, rfl, rfl⟩
      · rename_i heq hzero hfull
        rcases h with h | h | h
        · exact absurd h heq
        · exact absurd h hzero
        · exact absurd h hfull

/-- The visit of an item with a binary node. -/
theorem visit_binary {item : Item} {left right : String}
    (heq : subtreeHashAt pedersen sorted item.1 ≠ item.2) (hzero : item.2 ≠ 0)
    (hfull : item.1.length ≠ TREE_HEIGHT)
    (hget : nodes[toBytesBe item.2]? = some (.binary left right)) (diff : SlotDiff) :
    visit P pedersen sorted nodes diff item = (do
      let l ← nodeFelt P left
      let r ← nodeFelt P right
      pure (diff, [(item.1 ++ [true], r), (item.1 ++ [false], l)], [])) := by
  unfold visit
  simp only [if_neg heq, if_neg hzero, if_neg hfull, hget]

/-- The visit of an item with an edge. -/
theorem visit_edge {item : Item} {path child : String} {length : Nat}
    (heq : subtreeHashAt pedersen sorted item.1 ≠ item.2) (hzero : item.2 ≠ 0)
    (hfull : item.1.length ≠ TREE_HEIGHT)
    (hget : nodes[toBytesBe item.2]? = some (.edge path length child)) (diff : SlotDiff) :
    visit P pedersen sorted nodes diff item = (do
      let child ← nodeFelt P child
      let bits ← edgeBits P path length
      if TREE_HEIGHT < (item.1 ++ bits).length then
        throw (.other ("edge at block " ++ diff.block.repr ++ " overruns the tree height"))
      else pure (diff, [(item.1 ++ bits, child)], [])) := by
  unfold visit
  simp only [if_neg heq, if_neg hzero, if_neg hfull, hget]

theorem visited_binary {item : Item} {left right : String} {l r : Felt}
    (hlen : item.1.length ≤ TREE_HEIGHT) (hfull : item.1.length ≠ TREE_HEIGHT)
    (hl : nodeFelt P left = .ok l) (hr : nodeFelt P right = .ok r)
    (h : ∀ diff, visit P pedersen sorted nodes diff item = (do
      let l ← nodeFelt P left
      let r ← nodeFelt P right
      pure (diff, [(item.1 ++ [true], r), (item.1 ++ [false], l)], []))) :
    Visited P pedersen sorted nodes item [(item.1 ++ [true], r), (item.1 ++ [false], l)] [] := by
  refine ⟨fun diff => ⟨diff, ?_, rfl⟩, fun _ hi => absurd hi List.not_mem_nil, Or.inl ?_⟩
  · rw [h diff, hl, hr]
    rfl
  · intro i hi
    rcases List.mem_pair.mp hi with rfl | rfl
    · simp only [List.length_append, List.length_singleton]
      omega
    · simp only [List.length_append, List.length_singleton]
      omega

theorem visited_edge {item : Item} {path child : String} {length : Nat} {c f : Felt}
    {bits : List Bool} (hdiffers : subtreeHashAt pedersen sorted item.1 ≠ item.2)
    (hzero : item.2 ≠ 0) (hfull : item.1.length ≠ TREE_HEIGHT)
    (hget : nodes[toBytesBe item.2]? = some (.edge path length child))
    (hc : nodeFelt P child = .ok c) (hf : nodeFelt P path = .ok f)
    (hbits : edgeBits P path length = .ok bits)
    (hfits : (item.1 ++ bits).length ≤ TREE_HEIGHT) :
    Visited P pedersen sorted nodes item [(item.1 ++ bits, c)] [] := by
  refine ⟨fun diff => ⟨diff, ?_, rfl⟩, fun _ hi => absurd hi List.not_mem_nil, ?_⟩
  · rw [visit_edge hdiffers hzero hfull hget diff, hc, hbits]
    simp only [bind, Except.bind, if_neg (Nat.not_lt.mpr hfits), pure, Except.pure]
  · have hlength := edgeBits_length hbits
    cases bits with
    | nil =>
        rw [List.length_nil] at hlength
        subst hlength
        rw [List.append_nil]
        exact Or.inr ⟨c, ⟨hdiffers, hzero, hfull, path, child, f, hget, hf, hc⟩, rfl⟩
    | cons b bits =>
        refine Or.inl fun i hi => ?_
        rw [List.mem_singleton.mp hi]
        refine ⟨?_, hfits⟩
        simp only [List.length_append, List.length_cons]
        omega

/-- A visit fails whatever was reported before, or it does one thing to the queue. -/
theorem visit_cases {item : Item} (hlen : item.1.length ≤ TREE_HEIGHT) :
    (∀ diff, ∃ e, visit P pedersen sorted nodes diff item = .error e) ∨
      ∃ pushed more, Visited P pedersen sorted nodes item pushed more := by
  by_cases hsettled : subtreeHashAt pedersen sorted item.1 = item.2 ∨ item.2 = 0 ∨
      item.1.length = TREE_HEIGHT
  · exact Or.inr ⟨[], [], visit_settled hsettled, fun _ hi => absurd hi List.not_mem_nil,
      Or.inl fun _ hi => absurd hi List.not_mem_nil⟩
  rw [not_or, not_or] at hsettled
  obtain ⟨hdiffers, hzero, hfull⟩ := hsettled
  cases hget : nodes[toBytesBe item.2]? with
  | none =>
      -- an unknown node waits for the next round
      refine Or.inr ⟨[], [item], fun diff => ⟨diff, ?_, rfl⟩, fun i hi => List.mem_singleton.mp hi,
        Or.inl fun _ hi => absurd hi List.not_mem_nil⟩
      unfold visit
      simp only [if_neg hdiffers, if_neg hzero, if_neg hfull, hget]
      rfl
  | some node =>
      cases node with
      | binary left right =>
          have hvisit := visit_binary (P := P) hdiffers hzero hfull hget
          cases hl : nodeFelt P left with
          | error e =>
              refine Or.inl fun diff => ⟨e, ?_⟩
              rw [hvisit diff, hl]
              rfl
          | ok l =>
              cases hr : nodeFelt P right with
              | error e =>
                  refine Or.inl fun diff => ⟨e, ?_⟩
                  rw [hvisit diff, hl, hr]
                  rfl
              | ok r => exact Or.inr ⟨_, _, visited_binary hlen hfull hl hr hvisit⟩
      | edge path length child =>
          have hvisit := visit_edge (P := P) hdiffers hzero hfull hget
          cases hc : nodeFelt P child with
          | error e =>
              refine Or.inl fun diff => ⟨e, ?_⟩
              rw [hvisit diff, hc]
              rfl
          | ok c =>
              cases hbits : edgeBits P path length with
              | error e =>
                  refine Or.inl fun diff => ⟨e, ?_⟩
                  rw [hvisit diff, hc, hbits]
                  rfl
              | ok bits =>
                  obtain ⟨f, hf, -⟩ := bind_eq_ok.mp hbits
                  by_cases hfits : TREE_HEIGHT < (item.1 ++ bits).length
                  · refine Or.inl fun diff => ⟨.other ("edge at block " ++ diff.block.repr ++
                      " overruns the tree height"), ?_⟩
                    rw [hvisit diff, hc, hbits]
                    simp only [bind, Except.bind, if_pos hfits]
                    rfl
                  · exact Or.inr ⟨_, _, visited_edge hdiffers hzero hfull hget hc hf hbits
                      (Nat.le_of_not_lt hfits)⟩

/-! ## The queue -/

theorem drain_mono {fuel : Nat} {queue unexplained : List Item} {diff : SlotDiff}
    {result : Except Failure (SlotDiff × List Item)}
    (h : drain P pedersen sorted nodes fuel queue diff unexplained = some result) (more : Nat) :
    drain P pedersen sorted nodes (fuel + more) queue diff unexplained = some result := by
  induction fuel generalizing queue diff unexplained with
  | zero =>
      cases queue with
      | nil =>
          rw [drain] at h ⊢
          exact h
      | cons item rest => cases h
  | succ fuel ih =>
      cases queue with
      | nil =>
          rw [drain] at h ⊢
          exact h
      | cons item rest =>
          rw [Nat.succ_add]
          rw [drain] at h ⊢
          cases hv : visit P pedersen sorted nodes diff item with
          | error e =>
              rw [hv] at h
              exact h
          | ok r =>
              obtain ⟨diff', pushed, unread⟩ := r
              rw [hv] at h
              exact ih h

/-- The result does not depend on the fuel it took. -/
theorem drain_unique {fuel fuel' : Nat} {queue unexplained : List Item} {diff : SlotDiff}
    {r r' : Except Failure (SlotDiff × List Item)}
    (h : drain P pedersen sorted nodes fuel queue diff unexplained = some r)
    (h' : drain P pedersen sorted nodes fuel' queue diff unexplained = some r') : r = r' := by
  have hr := drain_mono h fuel'
  have hr' := drain_mono h' fuel
  rw [Nat.add_comm, hr, Option.some.injEq] at hr'
  exact hr'

theorem drain_turn {fuel : Nat} {queue queue' unexplained : List Item} {diff : SlotDiff}
    {result : Except Failure (SlotDiff × List Item)}
    (hturn : Turn P pedersen sorted nodes queue queue')
    (h : drain P pedersen sorted nodes fuel queue diff unexplained = some result) :
    ∃ fuel' diff' unexplained', fuel' < fuel ∧
      drain P pedersen sorted nodes fuel' queue' diff' unexplained' = some result := by
  obtain ⟨item, rest, pushed, rfl, rfl, hvisit⟩ := hturn
  cases fuel with
  | zero => cases h
  | succ fuel =>
      obtain ⟨diff', more, hv⟩ := hvisit diff
      rw [drain, hv] at h
      exact ⟨fuel, diff', unexplained ++ more, Nat.lt_succ_self fuel, h⟩

theorem drain_reach {queue queue' : List Item}
    (hreach : ReflTransGen (Turn P pedersen sorted nodes) queue queue') :
    ∀ {fuel : Nat} {unexplained : List Item} {diff : SlotDiff}
      {result : Except Failure (SlotDiff × List Item)},
      drain P pedersen sorted nodes fuel queue diff unexplained = some result →
      ∃ fuel' diff' unexplained', fuel' ≤ fuel ∧
        drain P pedersen sorted nodes fuel' queue' diff' unexplained' = some result := by
  induction hreach with
  | refl =>
      intro fuel unexplained diff result h
      exact ⟨fuel, diff, unexplained, Nat.le_refl fuel, h⟩
  | tail _ hturn ih =>
      intro fuel unexplained diff result h
      obtain ⟨fuel₁, diff₁, un₁, hle, h₁⟩ := ih h
      obtain ⟨fuel₂, diff₂, un₂, hlt, h₂⟩ := drain_turn hturn h₁
      exact ⟨fuel₂, diff₂, un₂, by omega, h₂⟩

theorem ZeroStep.turn {pre : List Bool} {h h' : Felt}
    (hz : ZeroStep P pedersen sorted nodes pre h h') (hpre : pre.length ≤ TREE_HEIGHT)
    (rest : List Item) :
    Turn P pedersen sorted nodes ((pre, h) :: rest) ((pre, h') :: rest) :=
  ⟨(pre, h), rest, [(pre, h')], rfl, rfl, fun diff => ⟨diff, [], hz.visit_eq hpre diff⟩⟩

/-- A queue whose top leads back to itself is never drained. -/
theorem drain_looping {item : Item} (hlen : item.1.length ≤ TREE_HEIGHT)
    (hloop : Looping P pedersen sorted nodes item) (rest : List Item) (fuel : Nat)
    (diff : SlotDiff) (unexplained : List Item) :
    drain P pedersen sorted nodes fuel (item :: rest) diff unexplained = none := by
  -- once around costs fuel, so the least fuel that suffices does not exist
  induction fuel using Nat.strong_induction_on generalizing diff unexplained with
  | _ fuel ih =>
      by_contra hne
      obtain ⟨result, hresult⟩ := Option.ne_none_iff_exists'.mp hne
      have hround : ∀ {h h' : Felt}, TransGen (ZeroStep P pedersen sorted nodes item.1) h h' →
          ∃ queue, Turn P pedersen sorted nodes ((item.1, h) :: rest) queue ∧
            ReflTransGen (Turn P pedersen sorted nodes) queue ((item.1, h') :: rest) := by
        intro h h' hpath
        induction hpath with
        | single hz => exact ⟨_, hz.turn hlen rest, ReflTransGen.refl⟩
        | tail _ hz ih =>
            obtain ⟨queue, hfirst, hrest⟩ := ih
            exact ⟨queue, hfirst, hrest.tail (hz.turn hlen rest)⟩
      obtain ⟨queue, hfirst, hrest⟩ := hround hloop
      obtain ⟨fuel₁, diff₁, un₁, hlt, h₁⟩ := drain_turn hfirst hresult
      obtain ⟨fuel₂, diff₂, un₂, hle, h₂⟩ := drain_reach hrest h₁
      have hnone := ih fuel₂ (by omega) diff₂ un₂
      rw [hnone] at h₂
      cases h₂

theorem Visited.turn {item : Item} {pushed more : List Item}
    (h : Visited P pedersen sorted nodes item pushed more) (rest : List Item) :
    Turn P pedersen sorted nodes (item :: rest) (pushed ++ rest) := by
  refine ⟨item, rest, pushed, rfl, rfl, fun diff => ?_⟩
  obtain ⟨diff', hv, -⟩ := h.visits diff
  exact ⟨diff', more, hv⟩

theorem turn_cases {item : Item} {rest queue : List Item} (hlen : item.1.length ≤ TREE_HEIGHT)
    (h : Turn P pedersen sorted nodes (item :: rest) queue) :
    ∃ pushed more, queue = pushed ++ rest ∧ Visited P pedersen sorted nodes item pushed more := by
  obtain ⟨item', rest', pushed, hqueue, rfl, hvisit⟩ := h
  rw [List.cons.injEq] at hqueue
  obtain ⟨rfl, rfl⟩ := hqueue
  obtain ⟨diff', more, hv⟩ := hvisit ⟨0, 0, 0, [], [], [], 0, 0, 0, 0⟩
  rcases visit_cases hlen with herr | ⟨pushed', more', hvisited⟩
  · obtain ⟨e, he⟩ := herr ⟨0, 0, 0, [], [], [], 0, 0, 0, 0⟩
    rw [he] at hv
    cases hv
  · obtain ⟨diff'', hv', -⟩ := hvisited.visits ⟨0, 0, 0, [], [], [], 0, 0, 0, 0⟩
    rw [hv, Except.ok.injEq, Prod.mk.injEq, Prod.mk.injEq] at hv'
    obtain ⟨-, rfl, rfl⟩ := hv'
    exact ⟨pushed, more, rfl, hvisited⟩

theorem Visited.bounded {item : Item} {pushed more : List Item}
    (h : Visited P pedersen sorted nodes item pushed more) (hlen : item.1.length ≤ TREE_HEIGHT) :
    ∀ i ∈ pushed, i.1.length ≤ TREE_HEIGHT := by
  intro i hi
  rcases h.deeper with hdeeper | ⟨h', -, rfl⟩
  · exact (hdeeper i hi).2
  · rw [List.mem_singleton.mp hi]
    exact hlen

/-- No prefix of the queue is longer than a key. -/
def Bounded (queue : List Item) : Prop := ∀ i ∈ queue, i.1.length ≤ TREE_HEIGHT

theorem Bounded.turn {queue queue' : List Item} (h : Bounded queue)
    (hturn : Turn P pedersen sorted nodes queue queue') : Bounded queue' := by
  cases queue with
  | nil =>
      obtain ⟨item, rest, pushed, hnil, -, -⟩ := hturn
      cases hnil
  | cons item rest =>
      obtain ⟨hitem, hrest⟩ := List.forall_mem_cons.mp h
      obtain ⟨pushed, more, rfl, hvisited⟩ := turn_cases hitem hturn
      intro i hi
      rcases List.mem_append.mp hi with hi | hi
      · exact hvisited.bounded hitem i hi
      · exact hrest i hi

theorem Bounded.reach {queue queue' : List Item} (h : Bounded queue)
    (hreach : ReflTransGen (Turn P pedersen sorted nodes) queue queue') : Bounded queue' := by
  induction hreach with
  | refl => exact h
  | tail _ hturn ih => exact ih.turn hturn

theorem LoopFree.reach {queue queue' : List Item} (h : LoopFree P pedersen sorted nodes queue)
    (hreach : ReflTransGen (Turn P pedersen sorted nodes) queue queue') :
    LoopFree P pedersen sorted nodes queue' :=
  fun item rest hrest => h item rest (hreach.trans hrest)

variable (P pedersen sorted nodes) in
/-- With enough fuel the loop fails, or gets from one queue to the other. -/
def Drains (queue rest : List Item) : Prop :=
  ∀ diff unexplained, ∃ n,
    (∃ e, drain P pedersen sorted nodes n queue diff unexplained = some (.error e)) ∨
      ReflTransGen (Turn P pedersen sorted nodes) queue rest ∧
        ∃ diff' unexplained', ∀ fuel, drain P pedersen sorted nodes (n + fuel) queue diff unexplained =
          drain P pedersen sorted nodes fuel rest diff' unexplained'

theorem Drains.refl (queue : List Item) : Drains P pedersen sorted nodes queue queue :=
  fun diff unexplained => ⟨0, Or.inr ⟨ReflTransGen.refl, diff, unexplained, fun fuel => by
    rw [Nat.zero_add]⟩⟩

theorem Drains.trans {a b c : List Item} (h : Drains P pedersen sorted nodes a b)
    (h' : ReflTransGen (Turn P pedersen sorted nodes) a b → Drains P pedersen sorted nodes b c) :
    Drains P pedersen sorted nodes a c := by
  intro diff unexplained
  obtain ⟨n, herr | ⟨hreach, diff₁, un₁, hn⟩⟩ := h diff unexplained
  · exact ⟨n, Or.inl herr⟩
  · obtain ⟨m, ⟨e, he⟩ | ⟨hreach', diff₂, un₂, hm⟩⟩ := h' hreach diff₁ un₁
    · refine ⟨n + m, Or.inl ⟨e, ?_⟩⟩
      rw [hn, he]
    · refine ⟨n + m, Or.inr ⟨hreach.trans hreach', diff₂, un₂, fun fuel => ?_⟩⟩
      rw [Nat.add_assoc, hn, hm]

theorem Visited.drains {item : Item} {pushed more : List Item}
    (h : Visited P pedersen sorted nodes item pushed more) (rest : List Item) :
    Drains P pedersen sorted nodes (item :: rest) (pushed ++ rest) := by
  intro diff unexplained
  obtain ⟨diff', hv, -⟩ := h.visits diff
  refine ⟨1, Or.inr ⟨ReflTransGen.single (h.turn rest), diff', unexplained ++ more,
    fun fuel => ?_⟩⟩
  rw [Nat.add_comm, drain, hv]

theorem drains_list {items : List Item}
    (h : ∀ i ∈ items, ∀ rest, LoopFree P pedersen sorted nodes (i :: rest) →
      Drains P pedersen sorted nodes (i :: rest) rest) (rest : List Item)
    (hfree : LoopFree P pedersen sorted nodes (items ++ rest)) :
    Drains P pedersen sorted nodes (items ++ rest) rest := by
  induction items with
  | nil => exact Drains.refl rest
  | cons item items ih =>
      obtain ⟨hitem, hitems⟩ := List.forall_mem_cons.mp h
      exact (hitem (items ++ rest) hfree).trans fun hreach => ih hitems (hfree.reach hreach)

/-- Hashes known by node are at most as many as the nodes. -/
theorem length_le_size {seen : List Felt} (hnodup : seen.Nodup)
    (hmem : ∀ h ∈ seen, toBytesBe h ∈ nodes) : seen.length ≤ nodes.size := by
  have hinj : (seen.map toBytesBe).Nodup :=
    hnodup.map_on fun a _ b _ heq => toBytesBe_inj.mp heq
  have hsub : seen.map toBytesBe ⊆ nodes.keys := by
    intro k hk
    obtain ⟨h, hh, rfl⟩ := List.mem_map.mp hk
    exact ExtTreeMap.mem_keys.mpr (hmem h hh)
  have hle := (hinj.subperm hsub).length_le
  rwa [List.length_map, ExtTreeMap.length_keys] at hle

/-- **One item.** By induction on the bits left below the prefix, and on the nodes not yet seen
along edges of length zero. -/
theorem drains_item : ∀ (height left : Nat) (item : Item) (rest : List Item) (seen : List Felt),
    item.1.length + height = TREE_HEIGHT → seen.Nodup →
    (∀ h ∈ seen, toBytesBe h ∈ nodes ∧
      TransGen (ZeroStep P pedersen sorted nodes item.1) h item.2) →
    nodes.size ≤ seen.length + left → LoopFree P pedersen sorted nodes (item :: rest) →
    Drains P pedersen sorted nodes (item :: rest) rest := by
  intro height
  induction height using Nat.strong_induction_on with
  | _ height ihHeight =>
      intro left
      induction left using Nat.strong_induction_on with
      | _ left ihLeft =>
          intro item rest seen hheight hnodup hseen hleft hfree
          have hlen : item.1.length ≤ TREE_HEIGHT := by omega
          rcases visit_cases hlen with herr | ⟨pushed, more, hvisited⟩
          · intro diff unexplained
            obtain ⟨e, he⟩ := herr diff
            refine ⟨1, Or.inl ⟨e, ?_⟩⟩
            rw [drain, he]
          have hfree' := hfree.reach (ReflTransGen.single (hvisited.turn rest))
          refine (hvisited.drains rest).trans fun _ => ?_
          rcases hvisited.deeper with hdeeper | ⟨h', hzero, rfl⟩
          · refine drains_list (fun i hi rest' hfree'' => ?_) rest hfree'
            obtain ⟨hlt, hle⟩ := hdeeper i hi
            exact ihHeight (TREE_HEIGHT - i.1.length) (by omega) nodes.size i rest' [] (by omega)
              List.nodup_nil (fun h hh => absurd hh List.not_mem_nil) (by simp) hfree''
          · -- the hash left behind is new, for otherwise the item would lead back to itself
            have hnew : item.2 ∉ seen := fun hmem =>
              hfree item rest ReflTransGen.refl (hseen item.2 hmem).2
            obtain ⟨path, child, f, hget, -, -⟩ := hzero.edge
            have hknown : toBytesBe item.2 ∈ nodes :=
              ExtTreeMap.mem_iff_isSome_getElem?.mpr (by rw [hget]; rfl)
            have hnodup' : (item.2 :: seen).Nodup := List.nodup_cons.mpr ⟨hnew, hnodup⟩
            have hcard := length_le_size hnodup' (List.forall_mem_cons.mpr
              ⟨hknown, fun h hh => (hseen h hh).1⟩)
            rw [List.length_cons] at hcard
            refine ihLeft (left - 1) (by omega) (item.1, h') rest (item.2 :: seen) hheight hnodup'
              ?_ (by rw [List.length_cons]; omega) hfree'
            refine List.forall_mem_cons.mpr ⟨⟨hknown, TransGen.single hzero⟩, fun h hh => ?_⟩
            exact ⟨(hseen h hh).1, (hseen h hh).2.tail hzero⟩

/-- **One queue.** It is drained, or the walk fails on the way, exactly when no item the loop
comes to leads back to itself. -/
theorem drain_ends_iff {queue : List Item} (hbounded : Bounded queue) (diff : SlotDiff)
    (unexplained : List Item) :
    (∃ fuel result, drain P pedersen sorted nodes fuel queue diff unexplained = some result) ↔
      LoopFree P pedersen sorted nodes queue := by
  constructor
  · rintro ⟨fuel, result, h⟩ item rest hreach hloop
    obtain ⟨fuel', diff', un', -, h'⟩ := drain_reach hreach h
    have hlen := (hbounded.reach hreach) item List.mem_cons_self
    rw [drain_looping hlen hloop] at h'
    cases h'
  · intro hfree
    have hdrains : Drains P pedersen sorted nodes (queue ++ []) [] := by
      refine drains_list (fun i hi rest hfree' => ?_) [] (by rwa [List.append_nil])
      have hlen := hbounded i hi
      exact drains_item (TREE_HEIGHT - i.1.length) nodes.size i rest [] (by omega) List.nodup_nil
        (fun h hh => absurd hh List.not_mem_nil) (by simp) hfree'
    rw [List.append_nil] at hdrains
    obtain ⟨n, ⟨e, he⟩ | ⟨-, diff', un', hn⟩⟩ := hdrains diff unexplained
    · exact ⟨n, .error e, he⟩
    · refine ⟨n + 0, .ok (diff', un'), ?_⟩
      rw [hn 0, drain]

theorem drain_kept {fuel : Nat} {queue unexplained left : List Item} {diff diff' : SlotDiff}
    (hqueue : Bounded queue) (hun : Bounded unexplained)
    (h : drain P pedersen sorted nodes fuel queue diff unexplained = some (.ok (diff', left))) :
    Bounded left ∧ diff'.rounds = diff.rounds := by
  induction fuel generalizing queue diff unexplained with
  | zero =>
      cases queue with
      | nil =>
          obtain ⟨rfl, rfl⟩ : _ ∧ _ := by simpa [drain] using h
          exact ⟨hun, rfl⟩
      | cons item rest => cases h
  | succ fuel ih =>
      cases queue with
      | nil =>
          obtain ⟨rfl, rfl⟩ : _ ∧ _ := by simpa [drain] using h
          exact ⟨hun, rfl⟩
      | cons item rest =>
          obtain ⟨hitem, hrest⟩ := List.forall_mem_cons.mp hqueue
          rw [drain] at h
          rcases @visit_cases P pedersen sorted nodes item hitem with herr | ⟨pushed, more, hvisited⟩
          · obtain ⟨e, he⟩ := herr diff
            rw [he] at h
            cases h
          · obtain ⟨diff₁, hv, hrounds⟩ := hvisited.visits diff
            rw [hv] at h
            have hpushed : Bounded (pushed ++ rest) := by
              intro i hi
              rcases List.mem_append.mp hi with hi | hi
              · exact hvisited.bounded hitem i hi
              · exact hrest i hi
            have hmore : Bounded (unexplained ++ more) := by
              intro i hi
              rcases List.mem_append.mp hi with hi | hi
              · exact hun i hi
              · rw [hvisited.unexplained i hi]
                exact hitem
            obtain ⟨hleft, hsame⟩ := ih hpushed hmore h
            exact ⟨hleft, hsame.trans hrounds⟩

theorem reveal_rounds {c : ProofClient} {block : Nat} {chunks : List (List Felt)}
    {moment moment' : Nat} {nodes nodes' : Nodes} {diff diff' : SlotDiff}
    (h : reveal P c block chunks moment nodes diff = .ok (moment', nodes', diff')) :
    diff'.rounds = diff.rounds := by
  induction chunks generalizing moment nodes diff with
  | nil =>
      obtain ⟨-, -, rfl⟩ : _ ∧ _ ∧ _ := by simpa [reveal] using h
      rfl
  | cons chunk chunks ih =>
      obtain ⟨answer, -, h⟩ := bind_eq_ok.mp h
      obtain ⟨nodes₁, -, h⟩ := bind_eq_ok.mp h
      exact (ih h).trans rfl

end

/-! ## The rounds -/

section

variable (P : FeltParser) (pedersen : Felt → Felt → Felt) (c : ProofClient)
  (set : List (Felt × Felt)) (block : Nat)

/-- The requests of a round that left items unexplained. -/
def requests (unexplained : List Item) : List (List Felt) :=
  (unexplained.map fun item => craftedKey item.1).toChunks KEYS_PER_REQUEST

/-- What the walk has at the start of a round: the rounds left, the moment, the nodes known, the
frontier and the report. -/
inductive RoundAt : Nat → Nat → Nodes → List Item → SlotDiff → Prop
  | start {chainRoot : Felt} {nodes : Nodes} {moment : Nat} :
      seed P c block = .ok (chainRoot, nodes, moment) → chainRoot ≠ storageRoot pedersen set →
      RoundAt MAX_ROUNDS moment nodes [([], chainRoot)]
        ⟨block, chainRoot, storageRoot pedersen set, [], [], [], 0, (bitEntries set).length, 1, 0⟩
  | next {left moment moment' fuel : Nat} {nodes revealed : Nodes} {frontier unexplained : List Item}
      {diff diff₁ diff₂ : SlotDiff} :
      RoundAt (left + 1) moment nodes frontier diff →
      drain P pedersen (bitEntries set) nodes fuel frontier.reverse
        { diff with rounds := diff.rounds + 1 } [] = some (.ok (diff₁, unexplained)) →
      unexplained ≠ [] →
      reveal P c block (requests unexplained) moment nodes diff₁ = .ok (moment', revealed, diff₂) →
      revealed.size ≠ nodes.size →
      RoundAt left moment' revealed unexplained diff₂

variable {P pedersen c set block}

theorem RoundAt.kept {left moment : Nat} {nodes : Nodes} {frontier : List Item} {diff : SlotDiff}
    (h : RoundAt P pedersen c set block left moment nodes frontier diff) :
    Bounded frontier ∧ frontier ≠ [] ∧ diff.rounds + left = MAX_ROUNDS := by
  induction h with
  | start _ _ =>
      refine ⟨fun i hi => ?_, List.cons_ne_nil _ _, Nat.zero_add _⟩
      rw [List.mem_singleton.mp hi]
      exact Nat.zero_le _
  | next _ hdrain hne hreveal _ ih =>
      obtain ⟨hbounded, -, hrounds⟩ := ih
      have hreverse : Bounded (List.reverse _) := fun i hi => hbounded i (List.mem_reverse.mp hi)
      obtain ⟨hleft, hsame⟩ := drain_kept hreverse
        (fun i hi => absurd hi List.not_mem_nil) hdrain
      have hkept := reveal_rounds hreveal
      refine ⟨hleft, hne, ?_⟩
      simp only at hsame
      omega

section

variable {fuel moment : Nat} {nodes : Nodes} {frontier unexplained : List Item}
  {diff diff₁ : SlotDiff} (left : Nat)

theorem walkRounds_endless (hne : frontier ≠ [])
    (hdrain : drain P pedersen (bitEntries set) nodes fuel frontier.reverse
      { diff with rounds := diff.rounds + 1 } [] = none) :
    walkRounds P pedersen c block fuel (bitEntries set) (left + 1) moment nodes frontier diff =
      none := by
  cases frontier with
  | nil => exact absurd rfl hne
  | cons item rest => rw [walkRounds, hdrain]

theorem walkRounds_failed {e : Failure} (hne : frontier ≠ [])
    (hdrain : drain P pedersen (bitEntries set) nodes fuel frontier.reverse
      { diff with rounds := diff.rounds + 1 } [] = some (.error e)) :
    walkRounds P pedersen c block fuel (bitEntries set) (left + 1) moment nodes frontier diff =
      some (.error e) := by
  cases frontier with
  | nil => exact absurd rfl hne
  | cons item rest => rw [walkRounds, hdrain]

/-- A round that explains everything closes the walk. -/
theorem walkRounds_closed (hne : frontier ≠ [])
    (hdrain : drain P pedersen (bitEntries set) nodes fuel frontier.reverse
      { diff with rounds := diff.rounds + 1 } [] = some (.ok (diff₁, []))) :
    walkRounds P pedersen c block fuel (bitEntries set) (left + 1) moment nodes frontier diff =
      some (.ok diff₁) := by
  cases frontier with
  | nil => exact absurd rfl hne
  | cons item rest =>
      rw [walkRounds, hdrain]
      rfl

theorem walkRounds_unanswered {e : Failure} (hne : frontier ≠ []) (hun : unexplained ≠ [])
    (hdrain : drain P pedersen (bitEntries set) nodes fuel frontier.reverse
      { diff with rounds := diff.rounds + 1 } [] = some (.ok (diff₁, unexplained)))
    (hreveal : reveal P c block (requests unexplained) moment nodes diff₁ = .error e) :
    walkRounds P pedersen c block fuel (bitEntries set) (left + 1) moment nodes frontier diff =
      some (.error e) := by
  cases frontier with
  | nil => exact absurd rfl hne
  | cons item rest =>
      unfold requests at hreveal
      rw [walkRounds, hdrain]
      simp only [List.isEmpty_iff, if_neg hun, hreveal]

/-- A round that teaches nothing stops the walk, one that does is followed by another. -/
theorem walkRounds_answered {moment' : Nat} {revealed : Nodes} {diff₂ : SlotDiff}
    (hne : frontier ≠ []) (hun : unexplained ≠ [])
    (hdrain : drain P pedersen (bitEntries set) nodes fuel frontier.reverse
      { diff with rounds := diff.rounds + 1 } [] = some (.ok (diff₁, unexplained)))
    (hreveal : reveal P c block (requests unexplained) moment nodes diff₁ =
      .ok (moment', revealed, diff₂)) :
    walkRounds P pedersen c block fuel (bitEntries set) (left + 1) moment nodes frontier diff =
      if revealed.size = nodes.size then
        some (.error (.other (stalledMessage block unexplained.length
          (requests unexplained).length)))
      else
        walkRounds P pedersen c block fuel (bitEntries set) left moment' revealed unexplained
          diff₂ := by
  cases frontier with
  | nil => exact absurd rfl hne
  | cons item rest =>
      unfold requests at hreveal ⊢
      rw [walkRounds, hdrain]
      simp only [List.isEmpty_iff, if_neg hun, hreveal]

end

/-- A walk that returns has finished every round it started. -/
theorem RoundAt.returns {left moment fuel : Nat} {nodes : Nodes} {frontier : List Item}
    {diff : SlotDiff} (h : RoundAt P pedersen c set block left moment nodes frontier diff)
    (hreturns : enumerateMissingSlots P pedersen c set block fuel ≠ none) :
    walkRounds P pedersen c block fuel (bitEntries set) left moment nodes frontier diff ≠ none := by
  induction h with
  | start hseed hne =>
      intro hnone
      apply hreturns
      unfold enumerateMissingSlots
      simp only [hseed, if_neg hne, hnone, Option.map_none]
  | next hround hdrain hne hreveal hsize ih =>
      obtain ⟨-, hfrontier, -⟩ := hround.kept
      intro hnone
      apply ih
      cases hown : drain P pedersen (bitEntries set) _ fuel (List.reverse _) _ [] with
      | none => exact walkRounds_endless _ hfrontier hown
      | some result =>
          obtain rfl := drain_unique hown hdrain
          rw [walkRounds_answered _ hfrontier hne hown hreveal, if_neg hsize]
          exact hnone

/-- **All rounds.** -/
theorem RoundAt.ends
    (hfree : ∀ {left moment : Nat} {nodes : Nodes} {frontier : List Item} {diff : SlotDiff},
      RoundAt P pedersen c set block (left + 1) moment nodes frontier diff →
        LoopFree P pedersen (bitEntries set) nodes frontier.reverse)
    {left moment : Nat} {nodes : Nodes} {frontier : List Item} {diff : SlotDiff}
    (h : RoundAt P pedersen c set block left moment nodes frontier diff) :
    ∃ result fuel₀, ∀ fuel, fuel₀ ≤ fuel →
      walkRounds P pedersen c block fuel (bitEntries set) left moment nodes frontier diff =
        some result := by
  obtain ⟨hbounded, hne, -⟩ := h.kept
  induction left generalizing moment nodes frontier diff with
  | zero =>
      cases frontier with
      | nil => exact absurd rfl hne
      | cons item rest => exact ⟨_, 0, fun fuel _ => by rw [walkRounds]⟩
  | succ left ih =>
      have hreverse : Bounded frontier.reverse := fun i hi => hbounded i (List.mem_reverse.mp hi)
      obtain ⟨n, result, hn⟩ := (drain_ends_iff hreverse { diff with rounds := diff.rounds + 1 }
        []).mpr (hfree h)
      have hdrain : ∀ fuel, n ≤ fuel → drain P pedersen (bitEntries set) nodes fuel
          frontier.reverse { diff with rounds := diff.rounds + 1 } [] = some result := by
        intro fuel hle
        have hmono := drain_mono hn (fuel - n)
        rwa [Nat.add_sub_of_le hle] at hmono
      cases result with
      | error e => exact ⟨.error e, n, fun fuel hle => walkRounds_failed left hne (hdrain fuel hle)⟩
      | ok result =>
          obtain ⟨diff₁, unexplained⟩ := result
          by_cases hun : unexplained = []
          · subst hun
            exact ⟨.ok diff₁, n, fun fuel hle => walkRounds_closed left hne (hdrain fuel hle)⟩
          cases hreveal : reveal P c block (requests unexplained) moment nodes diff₁ with
          | error e =>
              exact ⟨.error e, n, fun fuel hle =>
                walkRounds_unanswered left hne hun (hdrain fuel hle) hreveal⟩
          | ok answer =>
              obtain ⟨moment', revealed, diff₂⟩ := answer
              have hround := fun fuel hle =>
                walkRounds_answered left hne hun (hdrain fuel hle) hreveal
              by_cases hsize : revealed.size = nodes.size
              · refine ⟨.error (.other (stalledMessage block unexplained.length
                  (requests unexplained).length)), n, fun fuel hle => ?_⟩
                rw [hround fuel hle, if_pos hsize]
              · have hnext := RoundAt.next h hn hun hreveal hsize
                obtain ⟨hbounded', hne', -⟩ := hnext.kept
                obtain ⟨result, m, hm⟩ := ih hnext hbounded' hne'
                refine ⟨result, n + m, fun fuel hle => ?_⟩
                rw [hround fuel (by omega), if_neg hsize]
                exact hm fuel (by omega)

theorem walkRounds_rounds {fuel left moment : Nat} {nodes : Nodes} {frontier : List Item}
    {diff result : SlotDiff} (hbounded : Bounded frontier)
    (h : walkRounds P pedersen c block fuel (bitEntries set) left moment nodes frontier diff =
      some (.ok result)) : result.rounds ≤ diff.rounds + left := by
  induction left generalizing moment nodes frontier diff with
  | zero =>
      cases frontier with
      | nil =>
          obtain rfl : diff = result := by simpa [walkRounds] using h
          exact Nat.le_refl _
      | cons item rest =>
          rw [walkRounds] at h
          cases Option.some.inj h
  | succ left ih =>
      by_cases hne : frontier = []
      · subst hne
        obtain rfl : diff = result := by simpa [walkRounds] using h
        omega
      have hreverse : Bounded frontier.reverse := fun i hi => hbounded i (List.mem_reverse.mp hi)
      cases hdrain : drain P pedersen (bitEntries set) nodes fuel frontier.reverse
          { diff with rounds := diff.rounds + 1 } [] with
      | none =>
          rw [walkRounds_endless left hne hdrain] at h
          cases h
      | some drained =>
          cases drained with
          | error e =>
              rw [walkRounds_failed left hne hdrain] at h
              cases Option.some.inj h
          | ok drained =>
              obtain ⟨diff₁, unexplained⟩ := drained
              obtain ⟨hleft, hsame⟩ := drain_kept hreverse
                (fun i hi => absurd hi List.not_mem_nil) hdrain
              have hone : diff₁.rounds = diff.rounds + 1 := hsame
              by_cases hun : unexplained = []
              · subst hun
                rw [walkRounds_closed left hne hdrain] at h
                cases h
                omega
              cases hreveal : reveal P c block (requests unexplained) moment nodes diff₁ with
              | error e =>
                  rw [walkRounds_unanswered left hne hun hdrain hreveal] at h
                  cases Option.some.inj h
              | ok answer =>
                  obtain ⟨moment', revealed, diff₂⟩ := answer
                  have hkept := reveal_rounds hreveal
                  rw [walkRounds_answered left hne hun hdrain hreveal] at h
                  split at h
                  · cases Option.some.inj h
                  · have hle := ih hleft h
                    omega

variable (P pedersen c set block)

/-- The walk ends, within its bounds. -/
structure WalkEnds : Prop where
  returns : ∃ result fuel₀, ∀ fuel, fuel₀ ≤ fuel →
    enumerateMissingSlots P pedersen c set block fuel = some result
  rounds : ∀ {fuel : Nat} {diff : SlotDiff},
    enumerateMissingSlots P pedersen c set block fuel = some (.ok diff) → diff.rounds ≤ MAX_ROUNDS
  started : ∀ {left moment : Nat} {nodes : Nodes} {frontier : List Item} {diff : SlotDiff},
    RoundAt P pedersen c set block left moment nodes frontier diff → diff.rounds ≤ MAX_ROUNDS
  prefixes : ∀ {left moment : Nat} {nodes : Nodes} {frontier : List Item} {diff : SlotDiff},
    RoundAt P pedersen c set block left moment nodes frontier diff →
      ∀ queue, ReflTransGen (Turn P pedersen (bitEntries set) nodes) frontier.reverse queue →
        ∀ i ∈ queue, i.1.length ≤ TREE_HEIGHT

/-- In every round the walk runs, no item it comes to leads back to itself along edges of length
zero. -/
def NoZeroLoop : Prop :=
  ∀ {left moment : Nat} {nodes : Nodes} {frontier : List Item} {diff : SlotDiff},
    RoundAt P pedersen c set block (left + 1) moment nodes frontier diff →
      LoopFree P pedersen (bitEntries set) nodes frontier.reverse

/-- **The walk ends** for a mirror and a provider exactly when it comes to no loop of edges of
length zero. -/
theorem walk_ends_iff : WalkEnds P pedersen c set block ↔ NoZeroLoop P pedersen c set block := by
  have hreverse : ∀ {left moment : Nat} {nodes : Nodes} {frontier : List Item} {diff : SlotDiff},
      RoundAt P pedersen c set block left moment nodes frontier diff →
        Bounded frontier.reverse :=
    fun h i hi => h.kept.1 i (List.mem_reverse.mp hi)
  constructor
  · intro h left moment nodes frontier diff hround
    obtain ⟨result, fuel, hfuel⟩ := h.returns
    have hreturns : enumerateMissingSlots P pedersen c set block fuel ≠ none := by
      rw [hfuel fuel (Nat.le_refl fuel)]
      exact Option.some_ne_none result
    refine (drain_ends_iff (hreverse hround) { diff with rounds := diff.rounds + 1 } []).mp ?_
    cases hdrain : drain P pedersen (bitEntries set) nodes fuel frontier.reverse
        { diff with rounds := diff.rounds + 1 } [] with
    | none => exact absurd (walkRounds_endless left hround.kept.2.1 hdrain) (hround.returns hreturns)
    | some drained => exact ⟨fuel, drained, hdrain⟩
  · intro hfree
    refine ⟨?_, ?_, ?_, fun hround queue hreach => (hreverse hround).reach hreach⟩
    · unfold enumerateMissingSlots
      cases hseed : seed P c block with
      | error e => exact ⟨.error e, 0, fun _ _ => rfl⟩
      | ok seeded =>
          obtain ⟨chainRoot, nodes, moment⟩ := seeded
          simp only
          split
          · exact ⟨_, 0, fun _ _ => rfl⟩
          · rename_i hne
            obtain ⟨result, n, hn⟩ := RoundAt.ends hfree (RoundAt.start hseed hne)
            refine ⟨result.map SlotDiff.sort, n, fun fuel hle => ?_⟩
            rw [hn fuel hle]
            rfl
    · intro fuel diff h
      unfold enumerateMissingSlots at h
      cases hseed : seed P c block with
      | error e =>
          rw [hseed] at h
          cases Option.some.inj h
      | ok seeded =>
          obtain ⟨chainRoot, nodes, moment⟩ := seeded
          rw [hseed] at h
          simp only at h
          split at h
          · cases h
            exact Nat.zero_le _
          · rename_i hne
            obtain ⟨result, hwalk, hsort⟩ := Option.map_eq_some_iff.mp h
            cases result with
            | error e => cases hsort
            | ok unsorted =>
                have hle := walkRounds_rounds (RoundAt.start hseed hne).kept.1 hwalk
                cases hsort
                exact hle.trans (Nat.le_of_eq (Nat.zero_add _))
    · intro left moment nodes frontier diff hround
      have hsum := hround.kept.2.2
      omega

variable {P pedersen c set block}

/-! ## Providers without edges of length zero -/

/-- No node is an edge of length zero. -/
def Positive (nodes : Nodes) : Prop :=
  ∀ (k : Key) (path child : String), nodes[k]? ≠ some (.edge path 0 child)

theorem Positive.loopFree {nodes : Nodes} (h : Positive nodes) (queue : List Item) :
    LoopFree P pedersen (bitEntries set) nodes queue := by
  intro item rest _ hloop
  obtain ⟨h', hzero, -⟩ := TransGen.head'_iff.mp hloop
  obtain ⟨path, child, f, hget, -, -⟩ := hzero.edge
  exact h _ path child hget

theorem Positive.absorb {nodes nodes' : Nodes} {raw : List ProofNode} (h : Positive nodes)
    (hraw : ∀ n ∈ raw, ∀ path child, n.node ≠ .edge path 0 child)
    (hok : absorb P nodes raw = .ok nodes') : Positive nodes' := by
  refine foldlM_ok_inv hok h ?_
  intro nodes n nodes' hn hnodes hstep
  obtain ⟨v, -, hstep⟩ := bind_eq_ok.mp hstep
  obtain rfl := pure_eq_ok.mp hstep
  intro k path child hk
  rw [ExtTreeMap.getElem?_insertIfNew] at hk
  split at hk
  · exact hraw n hn path child (Option.some.inj hk)
  · exact hnodes k path child hk

theorem Positive.reveal (hc : ∀ moment keys proof raw,
      c.getStorageProof moment block keys = .ok (proof, raw) →
        ∀ n ∈ raw, ∀ path child, n.node ≠ .edge path 0 child)
    {chunks : List (List Felt)} {moment moment' : Nat} {nodes nodes' : Nodes}
    {diff diff' : SlotDiff} (h : Positive nodes)
    (hok : reveal P c block chunks moment nodes diff = .ok (moment', nodes', diff')) :
    Positive nodes' := by
  induction chunks generalizing moment nodes diff with
  | nil =>
      obtain ⟨-, rfl, -⟩ : _ ∧ _ ∧ _ := by simpa [TrieWalk.reveal] using hok
      exact h
  | cons chunk chunks ih =>
      obtain ⟨⟨proof, raw⟩, hanswer, hok⟩ := bind_eq_ok.mp hok
      obtain ⟨nodes₁, habsorb, hok⟩ := bind_eq_ok.mp hok
      exact ih (h.absorb (hc moment chunk proof raw hanswer) habsorb) hok

/-- A provider that lists no edge of length zero leads the walk into no loop. -/
theorem noZeroLoop_of_positive (hc : ∀ moment keys proof raw,
      c.getStorageProof moment block keys = .ok (proof, raw) →
        ∀ n ∈ raw, ∀ path child, n.node ≠ .edge path 0 child) :
    NoZeroLoop P pedersen c set block := by
  have hpositive : ∀ {left moment : Nat} {nodes : Nodes} {frontier : List Item} {diff : SlotDiff},
      RoundAt P pedersen c set block left moment nodes frontier diff → Positive nodes := by
    intro left moment nodes frontier diff hround
    induction hround with
    | start hseed _ =>
        rw [seed] at hseed
        obtain ⟨⟨⟨proof, raw⟩, moment'⟩, hbound, hseed⟩ := bind_eq_ok.mp hseed
        obtain ⟨m, hanswer⟩ := boundProof_ok hbound
        simp only at hseed
        split at hseed
        · cases hseed
        · obtain ⟨root, -, hseed⟩ := bind_eq_ok.mp hseed
          obtain ⟨nodes₁, habsorb, hseed⟩ := bind_eq_ok.mp hseed
          cases pure_eq_ok.mp hseed
          have hempty : Positive ∅ := fun k path child hk => by simp at hk
          exact hempty.absorb (hc m [] proof raw hanswer) habsorb
    | next _ _ _ hreveal _ ih => exact Positive.reveal hc ih hreveal
  intro left moment nodes frontier diff hround
  exact (hpositive hround).loopFree _

end

/-! ## A provider that makes it spin -/

/-- A bound root, and one node: an edge of length zero from the root to itself. -/
def zeroEdgeClient : ProofClient where
  getBlock _ _ := .ok ⟨7, "0x77", "0x76", 0, none, none, []⟩
  getStorageProof _ _ _ :=
    .ok (⟨[⟨"0x1", "0x5"⟩], some "0x77"⟩, [⟨"0x5", .edge "0x0" 0 "0x5"⟩])

theorem seed_zeroEdge : seed hexParser zeroEdgeClient 7 =
    .ok (5, (∅ : Nodes).insertIfNew (toBytesBe 5) (.edge "0x0" 0 "0x5"), 1) := by
  rfl

theorem bitEntries_nil : bitEntries [] = [] := by
  simp [bitEntries]

theorem zeroEdge_looping : Looping hexParser (fun a b => a + b) (bitEntries [])
    ((∅ : Nodes).insertIfNew (toBytesBe 5) (.edge "0x0" 0 "0x5")) ([], 5) := by
  rw [bitEntries_nil]
  refine TransGen.single ⟨by decide, by decide, by decide, "0x0", "0x5", 0, ?_, rfl, rfl⟩
  rw [ExtTreeMap.getElem?_insertIfNew,
    if_pos ⟨Std.ReflCmp.compare_self, ExtTreeMap.not_mem_empty⟩]

/-- On an empty mirror the walk pops the root and pushes it again, whatever the fuel. -/
theorem zero_edge_spins :
    (∀ fuel, enumerateMissingSlots hexParser (fun a b => a + b) zeroEdgeClient [] 7 fuel = none) ∧
      ¬ WalkEnds hexParser (fun a b => a + b) zeroEdgeClient [] 7 := by
  have hne : (5 : Felt) ≠ storageRoot (fun a b => a + b) [] := by
    rw [storageRoot, bitEntries_nil]
    decide
  have hround : RoundAt hexParser (fun a b => a + b) zeroEdgeClient [] 7 (299 + 1) 1 _ _ _ :=
    RoundAt.start seed_zeroEdge hne
  have hspins : ∀ fuel,
      enumerateMissingSlots hexParser (fun a b => a + b) zeroEdgeClient [] 7 fuel = none := by
    intro fuel
    by_contra hreturns
    exact hround.returns hreturns (walkRounds_endless 299 hround.kept.2.1
      (drain_looping (Nat.zero_le _) zeroEdge_looping [] fuel _ []))
  refine ⟨hspins, fun h => ?_⟩
  obtain ⟨result, fuel, hfuel⟩ := h.returns
  have hreturned := hfuel fuel (Nat.le_refl fuel)
  rw [hspins fuel] at hreturned
  cases hreturned

end Strk20.Indexer.TrieWalk
