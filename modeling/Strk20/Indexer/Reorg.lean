import Strk20.Indexer.Frontier

/-!
# Reorgs between cycles (`ingest.rs`)

A mirror follows a chain that is another one at every cycle. Its rows are all of one
chain, and a cycle leaves them on the chain it reads if they are there already or if it
notices the reorg: then it rolls back to a row of the chain, and rows below that are on
the chain too, because chains that share a block share what is below. It notices by
the recorded head alone, which a cycle that stopped early has not moved.
-/

namespace Strk20.Indexer

open Feed Tables
open Effect (Triple)
open Consumer (toI64 toU64 toI64_of_lt)
open Std (ExtTreeMap)

section

variable {L : Ledger}

/-- Rows of one chain, a frontier that is a height, and no epoch that was cut. -/
structure OneChain (L : Ledger) (d : Database) : Prop where
  chain : ∃ D : Chain L, D.Holds d
  frontier : ∀ f, d.ingestCursor = some f → 0 ≤ f ∧ f < 2 ^ 63
  epochs : d.epochs = ∅

/-- A cycle on the chain `C` is safe where it starts if every row is on the chain; or if
the recorded head is not, and the rows that are recorded as final are. -/
def Safe (C : Chain L) (d : Database) : Prop :=
  C.Holds d ∨ (d.recordedHead ≠ none ∧ ¬ C.HasHead d ∧
    ∀ (k : Int) (r : BlockRec), d.blocks[k]? = some r → r.status = 1 → k ≤ d.finalUpto →
      C.Has k r.hash)

variable {C : Chain L} {d d₁ : Database}

/-- Rows below a row of both chains are on both. -/
theorem holds_below {D : Chain L} (hD : D.Holds d) {a : Nat} (ha : a ≤ C.height) (haD : a ≤ D.height)
    (hash : D.hash a = C.hash a) {k : Int} {r : BlockRec} (hr : d.blocks[k]? = some r)
    (hk : k ≤ a) : C.Has k r.hash := by
  obtain ⟨n, hn, rfl, hrhash⟩ := hD k r hr
  refine ⟨n, by omega, rfl, ?_⟩
  rw [hrhash]
  exact Chain.hash_eq_of_le haD ha hash (by omega)

/-- A safe cycle rolls back to a block that the chain of the rows and its own share. -/
theorem stopsAt_shared {D : Chain L} (hD : D.Holds d) (hepochs : d.epochs = ∅) (hsafe : Safe C d)
    {ancestor : Nat} (hstop : StopsAt C d ancestor) :
    ancestor ≤ C.height ∧ ancestor ≤ D.height ∧ D.hash ancestor = C.hash ancestor := by
  have hlt := D.height_lt
  rcases hstop with hfloor | ⟨head, b, hb, rfl, hwhy⟩
  · have hzero : ancestor = 0 := by
      rw [hfloor]
      unfold Database.epochFloor Database.lastEpoch
      rw [hepochs]
      rfl
    subst hzero
    exact ⟨Nat.zero_le _, Nat.zero_le _, D.hash_zero.trans C.hash_zero.symm⟩
  · obtain ⟨e, he, rfl⟩ := List.mem_map.mp hb
    have hrow : d.blocks[e.1]? = some e.2 :=
      ExtTreeMap.mem_toList_iff_getElem?_eq_some.mp (List.mem_filter.mp he).1
    obtain ⟨n, hn, hkey, hhash⟩ := hD e.1 e.2 hrow
    have hnumber : (Database.rowToBlock e.1 e.2).number = n := by
      show toU64 e.1 = n
      rw [hkey]
      unfold toU64
      omega
    rw [hnumber] at hwhy ⊢
    have hon : C.Has e.1 e.2.hash := by
      rcases hwhy with ⟨hfinal, hupto⟩ | ⟨hle, hsame⟩
      · rcases hsafe with hholds | ⟨-, -, hfinals⟩
        · exact hholds e.1 e.2 hrow
        · refine hfinals e.1 e.2 hrow (eq_of_beq hfinal) ?_
          rw [hnumber] at hupto
          omega
      · exact ⟨n, hle, hkey, hsame⟩
    obtain ⟨m, hm, hkey', hhash'⟩ := hon
    have hmn : m = n := by omega
    subst hmn
    exact ⟨hm, hn, hhash.symm.trans hhash'⟩

/-- Where a safe cycle rolls back to, the rows that stay are on the chain. -/
theorem stopsAt_holds (hd : OneChain L d) (hsafe : Safe C d) {ancestor : Nat}
    (hstop : StopsAt C d ancestor) : ancestor < 2 ^ 63 ∧
      ∀ (k : Int) (r : BlockRec), d.blocks[k]? = some r → k ≤ ancestor → C.Has k r.hash := by
  obtain ⟨D, hD⟩ := hd.chain
  have hlt := D.height_lt
  obtain ⟨hC, hle, hhash⟩ := stopsAt_shared hD hd.epochs hsafe hstop
  exact ⟨by omega, fun k r hr hk => holds_below hD hC hle hhash hr hk⟩

variable {P : FeltParser} {rpc : RpcClient} {cfg : ChainConfig} {chunkSize : Nat}

/-- A safe cycle ingests onto rows of its chain. -/
theorem safe_ready (hd : OneChain L d) (hsafe : Safe C d) {reorg : Option Nat} {latest : BlockHeader}
    (hprepared : Prepared C P rpc d reorg d₁ latest) : Ready C (rolledBack reorg d₁) := by
  have hpromoted := hprepared.promoted
  cases reorg with
  | none =>
      refine ⟨hpromoted.holds ?_, fun f hf => hd.frontier f (hpromoted.ingestCursor ▸ hf)⟩
      rcases hsafe with hholds | ⟨hrecorded, hoff, -⟩
      · exact hholds
      · rcases hprepared.decided with hnone | hon
        · exact absurd hnone hrecorded
        · exact absurd hon hoff
  | some ancestor =>
      obtain ⟨hlt, hbelow⟩ := stopsAt_holds hd hsafe hprepared.decided
      constructor
      · intro k r hr
        have hget : (if k ≤ toI64 ancestor then d₁.blocks[k]? else none) = some r :=
          (getElem?_rollbackAbove d₁ ancestor k).symm.trans hr
        split at hget
        · rename_i hk
          rw [toI64_of_lt hlt] at hk
          obtain ⟨r₀, hr₀, hhash⟩ := hpromoted.row hget
          rw [← hhash]
          exact hbelow k r₀ hr₀ hk
        · cases hget
      · intro f hf
        have hcursor : d₁.ingestCursor.map (min · (toI64 ancestor)) = some f :=
          (ingestCursor_rollbackAbove d₁ ancestor).symm.trans hf
        obtain ⟨g, hg, rfl⟩ := Option.map_eq_some_iff.mp hcursor
        have hrange := hd.frontier g (hpromoted.ingestCursor ▸ hg)
        rw [toI64_of_lt hlt]
        omega

theorem epochs_rolledBack (reorg : Option Nat) (d : Database) :
    (rolledBack reorg d).epochs = d.epochs := by
  cases reorg with
  | none => rfl
  | some ancestor => exact epochs_rollbackAbove d ancestor

/-- Rows of the chain that a cycle reads, and the rest of what runs keep. -/
structure Followed (C : Chain L) (d : Database) : Prop where
  holds : C.Holds d
  frontier : ∀ f, d.ingestCursor = some f → 0 ≤ f ∧ f < 2 ^ 63
  epochs : d.epochs = ∅

namespace Followed

theorem oneChain (h : Followed C d) : OneChain L d := ⟨⟨C, h.holds⟩, h.frontier, h.epochs⟩

theorem ingested {p₀ p : List Nat} {start n : Nat} (hepochs : d₁.epochs = ∅)
    (hing : Ingested C d₁ p₀ start n d p) : Followed C d :=
  ⟨hing.holds, fun f hf => ⟨(hing.frontier f hf).1, (hing.frontier f hf).2.2⟩,
    hing.epochs.trans hepochs⟩

theorem promoted (h : Followed C d) (hd : Promoted d d₁) : Followed C d₁ :=
  ⟨hd.holds h.holds, fun f hf => h.frontier f (hd.ingestCursor ▸ hf), hd.epochs.trans h.epochs⟩

theorem recording {number : Nat} {hash : Felt} (h : Followed C d)
    (hrec : Recording number hash d d₁) : Followed C d₁ := by
  cases hrec with
  | number => exact ⟨h.holds, h.frontier, h.epochs⟩
  | hash => exact ⟨h.holds, h.frontier, h.epochs⟩

theorem recorded {number : Nat} {hash : Felt} (h : Followed C d)
    (hrec : Recorded number hash d d₁) : Followed C d₁ := by
  have hhead : Followed C (withHead number hash d) := ⟨h.holds, h.frontier, h.epochs⟩
  rcases hrec with rfl | ⟨upto, rfl⟩
  · exact hhead
  · exact hhead.promoted (Promoted.promoteL1 _ upto)

end Followed

theorem OneChain.promoted (h : OneChain L d) (hd : Promoted d d₁) : OneChain L d₁ := by
  obtain ⟨D, hD⟩ := h.chain
  exact ⟨⟨D, hd.holds hD⟩, fun f hf => h.frontier f (hd.ingestCursor ▸ hf), hd.epochs.trans h.epochs⟩

theorem Chain.AtTip.isLatest (htip : C.AtTip rpc) {latest : BlockHeader} (h : IsLatest rpc latest) :
    latest.blockNumber = C.height := by
  rcases h with ⟨t, ht⟩ | ⟨t, data, ht, rfl⟩
  · exact htip.header t latest ht
  · exact htip.data t data ht

/-- A safe cycle that ends leaves rows of its chain; one that stops, rows of some chain. -/
theorem safe_cycle (htruthful : C.Truthful P cfg chunkSize rpc) (htip : C.AtTip rpc)
    {p : List Nat} (hd : OneChain L d) (hsafe : Safe C d) :
    Triple (On (Is d p)) (runCycle P rpc cfg chunkSize)
      (fun o => On fun d' _ => o.headNumber = C.height ∧ Followed C d') (On fun d' _ => OneChain L d') := by
  have hcycle : Triple (On (Is d p)) (runCycle P rpc cfg chunkSize)
      (fun o => On (CycleDone C P rpc cfg d p o)) (On (CycleState C P rpc cfg d p)) :=
    runCycle_triple htruthful fun _ _ _ hprepared => safe_ready hd hsafe hprepared
  have hepochs : ∀ reorg d₁ latest, Prepared C P rpc d reorg d₁ latest →
      (rolledBack reorg d₁).epochs = ∅ := by
    intro reorg d₁ latest hprepared
    rw [epochs_rolledBack, hprepared.promoted.epochs, hd.epochs]
  refine (hcycle.weaken (fun _ h => h) ?_).relax ?_
  · rintro o s ⟨reorg, d₁, d₂, latest, hprepared, hnumber, hing, hrec⟩
    exact ⟨hnumber.trans (htip.isLatest hprepared.isLatest),
      (Followed.ingested (hepochs _ _ _ hprepared) hing).recorded hrec⟩
  · intro s hs
    cases hs with
    | polled hpromoted => exact hd.promoted hpromoted
    | ingesting hprepared hing => exact (Followed.ingested (hepochs _ _ _ hprepared) hing).oneChain
    | recording hprepared hing hrec =>
        exact ((Followed.ingested (hepochs _ _ _ hprepared) hing).recording hrec).oneChain
    | recorded hprepared hing hrec =>
        exact ((Followed.ingested (hepochs _ _ _ hprepared) hing).recorded hrec).oneChain

/-! ## Runs -/

/-- Runs of cycles, each on its own chain and cut off wherever its budget ends. Every
cycle is safe where it starts. -/
inductive SafeRun (L : Ledger) (P : FeltParser) (cfg : ChainConfig) (chunkSize : Nat) : Host → Prop
  | fresh {h : Host} (hd : h.database = Database.new) : SafeRun L P cfg chunkSize h
  | cycle {h : Host} {C : Chain L} {rpc : RpcClient} (budget : Nat)
      (hrun : SafeRun L P cfg chunkSize h) (htruthful : C.Truthful P cfg chunkSize rpc)
      (htip : C.AtTip rpc) (hsafe : Safe C h.database) :
      SafeRun L P cfg chunkSize
        (Effect.final (runCycle P rpc cfg chunkSize { h with budget := budget }))

theorem safeRun_oneChain {h : Host} (hrun : SafeRun L P cfg chunkSize h) (D : Chain L) :
    OneChain L h.database := by
  induction hrun with
  | fresh hd =>
      rw [hd]
      refine ⟨⟨D, fun k r hr => ?_⟩, fun f hf => ?_, rfl⟩
      · simp [Database.new] at hr
      · cases hf
  | cycle budget hrun htruthful htip hsafe ih =>
      refine Triple.final ((safe_cycle htruthful htip ih hsafe).weaken (fun _ h => h) ?_) ⟨rfl, rfl⟩
      rintro o s ⟨-, hfollowed⟩
      exact hfollowed.oneChain

/-- **After a cycle that ends, every row up to the frontier is on its chain**, up to the
header it took for the latest, in runs whose cycles are all safe where they start. -/
theorem cycle_followed {h h' : Host} {o : CycleOutcome} {budget : Nat}
    (hrun : SafeRun L P cfg chunkSize h) (htruthful : C.Truthful P cfg chunkSize rpc)
    (htip : C.AtTip rpc) (hsafe : Safe C h.database)
    (hok : runCycle P rpc cfg chunkSize { h with budget := budget } = .ok o h') :
    ∀ f n b, h'.database.cursor = some f → n ≤ f → h'.database.block n = some b →
      n ≤ o.headNumber ∧ o.headNumber = C.height ∧ b.hash = C.hash n := by
  obtain ⟨hhead, hfollowed⟩ :=
    (safe_cycle (p := h.passed) htruthful htip (safeRun_oneChain hrun C) hsafe).ok
      (s := { h with budget := budget }) ⟨rfl, rfl⟩ hok
  intro f n b hf hn hb
  obtain ⟨g, hg, rfl⟩ := Option.map_eq_some_iff.mp hf
  obtain ⟨hlow, hhigh⟩ := hfollowed.frontier g hg
  have hlt : n < 2 ^ 63 := by
    unfold toU64 at hn
    omega
  obtain ⟨r, hr, rfl⟩ := Option.map_eq_some_iff.mp hb
  rw [toI64_of_lt hlt] at hr
  obtain ⟨m, hm, hkey, hhash⟩ := hfollowed.holds n r hr
  have hmn : m = n := by omega
  subst hmn
  rw [hhead]
  exact ⟨hm, rfl, hhash⟩

end

/-! ## A cycle that stopped before it recorded its head -/

def beforeFork : Chain Chain.digits := Chain.short 1 1 [1] Chain.one_lt_ten Chain.one_lt_ten

def afterFork : Chain Chain.digits := Chain.short 2 2 [1, 2] Chain.two_lt_ten Chain.two_lt_ten

/-- Whether a cycle that ended has noticed a reorg. -/
def noticed (r : EStateM.Result Failure Host CycleOutcome) : Bool :=
  match r with
  | .ok o _ => o.reorged
  | .error _ _ => false

/-- A first cycle stores block 1 and stops there. -/
def brokenOff : Host :=
  Effect.final (runCycle hexParser (beforeFork.served poolAtOne.pool) poolAtOne 1024
    { freshHost with budget := 2 })

def resumed : EStateM.Result Failure Host CycleOutcome :=
  runCycle hexParser (afterFork.served poolAtOne.pool) poolAtOne 1024 { brokenOff with budget := 100 }

/-- Block 1 was replaced before the next cycle, which had no recorded head to notice it
by: the row of the old block stays, below the frontier. -/
theorem cycle_followed_stale :
    beforeFork.Truthful hexParser poolAtOne 1024 (beforeFork.served poolAtOne.pool) ∧
    afterFork.Truthful hexParser poolAtOne 1024 (afterFork.served poolAtOne.pool) ∧
    ∃ o h' b, runCycle hexParser (afterFork.served poolAtOne.pool) poolAtOne 1024
        { brokenOff with budget := 100 } = .ok o h' ∧
      h'.database.cursor = some 2 ∧ h'.database.block 1 = some b ∧ b.hash ≠ afterFork.hash 1 := by
  have hrun : Effect.returns resumed = true ∧ (Effect.final resumed).database.cursor = some 2 ∧
      ((Effect.final resumed).database.block 1).map BlockRow.hash = some (beforeFork.hash 1) ∧
        beforeFork.hash 1 ≠ afterFork.hash 1 := by
    decide +kernel
  refine ⟨Chain.served_truthful _ _ _, Chain.served_truthful _ _ _, ?_⟩
  obtain ⟨hreturns, hcursor, hrow, hne⟩ := hrun
  cases hresumed : resumed with
  | error e h' =>
      rw [hresumed] at hreturns
      cases hreturns
  | ok o h' =>
      rw [hresumed] at hcursor hrow
      obtain ⟨b, hb, hhash⟩ := Option.map_eq_some_iff.mp hrow
      exact ⟨o, h', b, hresumed, hcursor, hb, hhash ▸ hne⟩

/-- The same first cycle, run to its end. -/
def forked : EStateM.Result Failure Host CycleOutcome :=
  runCycle hexParser (beforeFork.served poolAtOne.pool) poolAtOne 1024 { freshHost with budget := 100 }

/-- It records the head of a chain that is given up, and nothing as final but block 0. -/
theorem forked_records : Effect.returns forked = true ∧
    (Effect.final forked).database.recordedHead = some (1, feltHex (beforeFork.hash 1)) ∧
    (Effect.final forked).database.finalUpto = 0 ∧
    ((Effect.final forked).database.blocks.toList.all fun e => decide (0 < e.1)) = true ∧
    ((List.range 3).all fun n =>
      decide ((1, feltHex (beforeFork.hash 1)) ≠ (n, feltHex (afterFork.hash n)))) = true := by
  decide +kernel

theorem forked_safe : Safe afterFork (Effect.final forked).database := by
  obtain ⟨-, hrecorded, hfinal, hrows, hgone⟩ := forked_records
  refine Or.inr ⟨?_, ?_, fun k r hr _ hk => ?_⟩
  · rw [hrecorded]
    exact Option.some_ne_none _
  · rintro ⟨n, hn, hhead⟩
    rw [hrecorded] at hhead
    have hrange : n ∈ List.range 3 := List.mem_range.mpr (Nat.lt_succ_of_le hn)
    exact of_decide_eq_true (List.all_eq_true.mp hgone n hrange) (Option.some.inj hhead)
  · have hmem := ExtTreeMap.mem_toList_iff_getElem?_eq_some.mpr hr
    have hpos : 0 < k := of_decide_eq_true (List.all_eq_true.mp hrows _ hmem)
    rw [hfinal] at hk
    omega

/-- The next cycle notices that block 1 was replaced, and follows the new chain. -/
theorem cycle_followed_reorg : ∃ o h',
    runCycle hexParser (afterFork.served poolAtOne.pool) poolAtOne 1024
      { Effect.final forked with budget := 100 } = .ok o h' ∧ o.reorged = true ∧
    ∀ f n b, h'.database.cursor = some f → n ≤ f → h'.database.block n = some b →
      n ≤ o.headNumber ∧ o.headNumber = afterFork.height ∧ b.hash = afterFork.hash n := by
  have hreorged : noticed (runCycle hexParser (afterFork.served poolAtOne.pool) poolAtOne 1024
      { Effect.final forked with budget := 100 }) = true := by
    decide +kernel
  have hfirst : SafeRun Chain.digits hexParser poolAtOne 1024 (Effect.final forked) := by
    refine SafeRun.cycle 100 (SafeRun.fresh rfl) (Chain.served_truthful _ _ _)
      (Chain.served_atTip _) (Or.inl fun k r hr => ?_)
    simp [freshHost, Database.new] at hr
  cases hrun : runCycle hexParser (afterFork.served poolAtOne.pool) poolAtOne 1024
      { Effect.final forked with budget := 100 } with
  | error e h' =>
      rw [hrun] at hreorged
      cases hreorged
  | ok o h' =>
      rw [hrun] at hreorged
      exact ⟨o, h', rfl, hreorged, cycle_followed hfirst (Chain.served_truthful _ _ _)
        (Chain.served_atTip _) forked_safe hrun⟩

end Strk20.Indexer
