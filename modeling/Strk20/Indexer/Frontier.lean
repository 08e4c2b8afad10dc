import Strk20.Indexer.Cycle

/-!
# The scan frontier (`ingest.rs`, `db.rs`)

The invariant of a mirror of one chain: up to the frontier no block with pool events
lacks a row, and of the blocks that the tail has passed none that touches the pool.
Cycles keep it wherever they stop. A repair advances the frontier to the block it
stores, so it keeps the invariant if what lies below that block is there already or
repaired before.
-/

namespace Strk20.Indexer

open Feed Tables
open Effect (Triple)
open Consumer (toI64 toU64 toI64_of_lt)
open Std (ExtTreeMap)

/-- A row with this number. -/
def Database.Stores (d : Database) (n : Nat) : Prop := (d.blocks[(n : Int)]?).isSome

section

variable {L : Ledger} (C : Chain L) (cfg : ChainConfig)

/-- Blocks from the pool's genesis up to the frontier, and blocks that the tail has
passed, are examined. -/
structure Examined (d : Database) (p : List Nat) : Prop where
  ready : Ready C d
  events : ∀ f, d.ingestCursor = some f → ∀ n : Nat, cfg.genesisBlock ≤ n → (n : Int) ≤ f →
    C.events.emitted n ≠ [] → d.Stores n
  passed : ∀ n ∈ p, C.touches n = true → d.Stores n
  epochs : d.epochs = ∅

variable {C cfg}

namespace Examined

variable {d d' : Database} {p : List Nat}

/-- Rows that are marked final are the same rows. -/
theorem promoted (h : Examined C cfg d p) (hd : Promoted d d') : Examined C cfg d' p where
  ready := ⟨hd.holds h.ready.holds, fun f hf => h.ready.frontier f (hd.ingestCursor ▸ hf)⟩
  events := by
    intro f hf n hgenesis hn hne
    unfold Database.Stores
    rw [hd.isSome]
    exact h.events f (hd.ingestCursor ▸ hf) n hgenesis hn hne
  passed := by
    intro n hn ht
    unfold Database.Stores
    rw [hd.isSome]
    exact h.passed n hn ht
  epochs := hd.epochs.trans h.epochs

theorem epochFloor_eq (h : Examined C cfg d p) : d.epochFloor = 0 := by
  unfold Database.epochFloor Database.lastEpoch
  rw [h.epochs]
  rfl

/-- A walk over rows of the chain ends at a height of the chain. -/
theorem stopsAt_lt (h : Examined C cfg d p) {ancestor : Nat} (hstop : StopsAt C d ancestor) :
    ancestor < 2 ^ 63 := by
  have hlt := C.height_lt
  rcases hstop with hfloor | ⟨head, b, hb, rfl, -⟩
  · rw [h.epochFloor_eq] at hfloor
    omega
  · obtain ⟨e, he, rfl⟩ := List.mem_map.mp hb
    obtain ⟨n, hn, hkey, -⟩ := h.ready.holds e.1 e.2
      (ExtTreeMap.mem_toList_iff_getElem?_eq_some.mp (List.mem_filter.mp he).1)
    show toU64 e.1 < 2 ^ 63
    rw [hkey]
    unfold toU64
    omega

end Examined

theorem getElem?_rollbackAbove (d : Database) (ancestor : Nat) (k : Int) :
    (d.rollbackAbove ancestor).blocks[k]? = if k ≤ toI64 ancestor then d.blocks[k]? else none := by
  have hdelete := Database.sameBut_deleteBlocks (d.tombstone ancestor) fun n _ => toI64 ancestor < n
  show ((d.tombstone ancestor).deleteBlocks _).blocks[k]? = _
  rw [hdelete.blocks, Database.getElem?_clearBlocks]
  show (d.blocks[k]?).filter _ = _
  by_cases hk : k ≤ toI64 ancestor
  · rw [if_pos hk]
    cases d.blocks[k]? with
    | none => rfl
    | some r => simp [Option.filter, Int.not_lt.mpr hk]
  · rw [if_neg hk]
    cases d.blocks[k]? with
    | none => rfl
    | some r => simp [Option.filter, Int.not_le.mp hk]

theorem ingestCursor_rollbackAbove (d : Database) (ancestor : Nat) :
    (d.rollbackAbove ancestor).ingestCursor = d.ingestCursor.map (min · (toI64 ancestor)) := by
  have hdelete := Database.sameBut_deleteBlocks (d.tombstone ancestor) fun n _ => toI64 ancestor < n
  show ((d.tombstone ancestor).deleteBlocks _).ingestCursor.map _ = _
  rw [hdelete.ingestCursor]
  rfl

theorem epochs_rollbackAbove (d : Database) (ancestor : Nat) :
    (d.rollbackAbove ancestor).epochs = d.epochs := by
  have hdelete := Database.sameBut_deleteBlocks (d.tombstone ancestor) fun n _ => toI64 ancestor < n
  exact hdelete.epochs

namespace Examined

variable {d d' : Database} {p : List Nat}

/-- A rollback takes the frontier and the passed blocks down with the rows. -/
theorem rollbackAbove (h : Examined C cfg d p) {ancestor : Nat} (hlt : ancestor < 2 ^ 63) :
    Examined C cfg (d.rollbackAbove ancestor) (p.filter fun n => n ≤ ancestor) := by
  have hkeep : ∀ n : Nat, n ≤ ancestor → d.Stores n → (d.rollbackAbove ancestor).Stores n := by
    intro n hn hs
    unfold Database.Stores
    rw [getElem?_rollbackAbove, toI64_of_lt hlt, if_pos (by omega)]
    exact hs
  have hcursor : ∀ f, (d.rollbackAbove ancestor).ingestCursor = some f →
      ∃ g, d.ingestCursor = some g ∧ f = min g ancestor := by
    intro f hf
    rw [ingestCursor_rollbackAbove, toI64_of_lt hlt] at hf
    obtain ⟨g, hg, hmin⟩ := Option.map_eq_some_iff.mp hf
    exact ⟨g, hg, hmin.symm⟩
  refine ⟨⟨fun k r hr => ?_, fun f hf => ?_⟩, fun f hf n hgenesis hn hne => ?_, fun n hn ht => ?_, ?_⟩
  · rw [getElem?_rollbackAbove] at hr
    split at hr
    · exact h.ready.holds k r hr
    · cases hr
  · obtain ⟨g, hg, rfl⟩ := hcursor f hf
    have := h.ready.frontier g hg
    omega
  · obtain ⟨g, hg, rfl⟩ := hcursor f hf
    exact hkeep n (by omega) (h.events g hg n hgenesis (by omega) hne)
  · obtain ⟨hmem, hle⟩ := List.mem_filter.mp hn
    exact hkeep n (of_decide_eq_true hle) (h.passed n hmem ht)
  · rw [epochs_rollbackAbove]
    exact h.epochs

/-- What a cycle has decided on, applied. -/
theorem rolledBack {P : FeltParser} {rpc : RpcClient} {reorg : Option Nat} {latest : BlockHeader}
    (h : Examined C cfg d p) (hprepared : Prepared C P rpc d reorg d' latest) :
    Examined C cfg (rolledBack reorg d') (unpassed reorg p) := by
  have hpromoted := h.promoted hprepared.promoted
  cases reorg with
  | none => exact hpromoted
  | some ancestor => exact hpromoted.rollbackAbove (h.stopsAt_lt hprepared.decided)

/-- Ingest from the frontier on examines what it leaves behind. -/
theorem ingested {d₀ : Database} {p₀ : List Nat} {n : Nat} (h : Examined C cfg d₀ p₀)
    (hzero : cfg.genesisBlock = 0 → C.events.emitted 0 = [])
    (hing : Ingested C d₀ p₀ (firstUnseen cfg d₀) n d p) :
    Examined C cfg d p := by
  refine ⟨⟨hing.holds, fun f hf => ?_⟩, fun f hf m hgenesis hm hne => ?_, fun m hm ht => ?_,
    hing.epochs.trans h.epochs⟩
  · have := hing.frontier f hf
    omega
  · have hfrontier := hing.frontier f hf
    by_cases hstart : firstUnseen cfg d₀ ≤ m
    · exact hing.examined m hstart (by omega) hne
    · refine hing.kept _ ?_
      unfold firstUnseen scanFrontier Database.cursor at hstart
      cases hc : d₀.ingestCursor with
      | some g =>
          have hg := h.ready.frontier g hc
          rw [hc] at hstart
          simp only [Option.map_some, toU64] at hstart
          exact h.events g hc m hgenesis (by omega) hne
      | none =>
          -- before the first scan only block 0 can be passed over
          rw [hc] at hstart
          simp only [Option.map_none] at hstart
          have hgen : cfg.genesisBlock = 0 := by omega
          rw [show m = 0 by omega] at hne
          exact absurd (hzero hgen) hne
  · rcases hing.passed m hm with hold | hrow
    · exact hing.kept _ (h.passed m hold ht)
    · exact hrow ht

end Examined

/-! ## Recording the head -/

/-- Metas and seen heads say nothing about rows. -/
theorem Examined.recording {d d' : Database} {p : List Nat} {number : Nat} {hash : Felt}
    (h : Examined C cfg d p) (hrec : Recording number hash d d') : Examined C cfg d' p := by
  cases hrec with
  | number => exact ⟨⟨h.ready.holds, h.ready.frontier⟩, h.events, h.passed, h.epochs⟩
  | hash => exact ⟨⟨h.ready.holds, h.ready.frontier⟩, h.events, h.passed, h.epochs⟩

theorem Examined.recorded {d d' : Database} {p : List Nat} {number : Nat} {hash : Felt}
    (h : Examined C cfg d p) (hrec : Recorded number hash d d') : Examined C cfg d' p := by
  have hhead : Examined C cfg (withHead number hash d) p :=
    ⟨⟨h.ready.holds, h.ready.frontier⟩, h.events, h.passed, h.epochs⟩
  rcases hrec with rfl | ⟨upto, rfl⟩
  · exact hhead
  · exact hhead.promoted (Promoted.promoteL1 _ upto)

variable {P : FeltParser} {rpc : RpcClient} {chunkSize : Nat}

/-- A cycle keeps the invariant, whether it ends or stops. -/
theorem cycle_examined (htruthful : C.Truthful P cfg chunkSize rpc)
    (hzero : cfg.genesisBlock = 0 → C.events.emitted 0 = []) :
    Triple (On (Examined C cfg)) (runCycle P rpc cfg chunkSize) (fun _ => On (Examined C cfg))
      (On (Examined C cfg)) := by
  refine on_fixed fun d₀ p₀ h => ?_
  have hcycle : Triple (On (Is d₀ p₀)) (runCycle P rpc cfg chunkSize)
      (fun o => On (CycleDone C P rpc cfg d₀ p₀ o)) (On (CycleState C P rpc cfg d₀ p₀)) :=
    runCycle_triple htruthful fun _ _ _ hprepared => (h.rolledBack hprepared).ready
  refine (hcycle.weaken (fun _ h => h) ?_).relax ?_
  · rintro o s ⟨reorg, d₁, d, latest, hprepared, -, hing, hrec⟩
    exact ((h.rolledBack hprepared).ingested hzero hing).recorded hrec
  · intro s hs
    cases hs with
    | polled hpromoted => exact h.promoted hpromoted
    | ingesting hprepared hing => exact (h.rolledBack hprepared).ingested hzero hing
    | recording hprepared hing hrec =>
        exact ((h.rolledBack hprepared).ingested hzero hing).recording hrec
    | recorded hprepared hing hrec =>
        exact ((h.rolledBack hprepared).ingested hzero hing).recorded hrec

/-! ## Repairs -/

/-- Below a block that is repaired, every block with pool events is stored or has been
repaired before. -/
def CoveredBelow (C : Chain L) (cfg : ChainConfig) (d : Database) (before : List Nat) (b : Nat) :
    Prop :=
  ∀ n, cfg.genesisBlock ≤ n → n < b → C.events.emitted n ≠ [] → d.Stores n ∨ n ∈ before

/-- A repair of `d₀` under way, with the blocks that are done. -/
structure Repairing (C : Chain L) (cfg : ChainConfig) (d₀ : Database) (before : List Nat)
    (d : Database) (p : List Nat) : Prop where
  examined : Examined C cfg d p
  kept : ∀ n, d₀.Stores n → d.Stores n
  done : ∀ n ∈ before, d.Stores n

namespace Repairing

variable {d₀ d d' : Database} {before : List Nat} {p : List Nat} {b : Nat}

theorem noteStable : NoteStable (Repairing C cfg d₀ before) := by
  intro d p key value _ h
  have he := h.examined
  exact ⟨⟨⟨he.ready.holds, he.ready.frontier⟩, he.events, he.passed, he.epochs⟩, h.kept, h.done⟩

theorem insert (h : Repairing C cfg d₀ before d p) (hins : Inserted C b d d')
    (hcovered : CoveredBelow C cfg d₀ before b) : Repairing C cfg d₀ (before ++ [b]) d' p := by
  have hkept : ∀ n, d.Stores n → d'.Stores n := fun n hn => hins.kept n hn
  obtain ⟨r, hr⟩ := Option.isSome_iff_exists.mp hins.has
  obtain ⟨m, hm, hkey, -⟩ := hins.holds b r hr
  have hlt := C.height_lt
  refine ⟨⟨⟨hins.holds, fun f hf => ?_⟩, fun f hf n hgenesis hn hne => ?_, fun n hn ht => ?_,
    hins.epochs.trans h.examined.epochs⟩, fun n hn => hkept n (h.kept n hn), fun n hn => ?_⟩
  · rw [hins.cursor] at hf
    have hval := Option.some.inj hf
    cases hc : d.ingestCursor with
    | none =>
        rw [hc] at hval
        simp only at hval
        omega
    | some g =>
        have := h.examined.ready.frontier g hc
        rw [hc] at hval
        simp only at hval
        omega
  · -- up to the old frontier nothing is new; above it the repair's own rule counts
    by_cases hold : ∃ g, d.ingestCursor = some g ∧ (n : Int) ≤ g
    · obtain ⟨g, hg, hng⟩ := hold
      exact hkept n (h.examined.events g hg n hgenesis hng hne)
    · have hnb : n ≤ b := by
        rw [hins.cursor] at hf
        have hval := Option.some.inj hf
        cases hc : d.ingestCursor with
        | none =>
            rw [hc] at hval
            simp only at hval
            omega
        | some g =>
            have hng : ¬ (n : Int) ≤ g := fun hle => hold ⟨g, hc, hle⟩
            rw [hc] at hval
            simp only at hval
            omega
      rcases Nat.lt_or_eq_of_le hnb with hlt' | rfl
      · rcases hcovered n hgenesis hlt' hne with hs | hmem
        · exact hkept n (h.kept n hs)
        · exact hkept n (h.done n hmem)
      · exact hins.has
  · exact hkept n (h.examined.passed n hn ht)
  · rcases List.mem_append.mp hn with hmem | hmem
    · exact hkept n (h.done n hmem)
    · rw [List.mem_singleton.mp hmem]
      exact hins.has

end Repairing

section

variable {d₀ : Database}

theorem repairing_examined {before : List Nat} :
    ∀ h, On (Repairing C cfg d₀ before) h → On (Examined C cfg) h :=
  fun _ h => h.examined

theorem reingestBlocks_examined (htruthful : C.Truthful P cfg chunkSize rpc) (blocks : List Nat) :
    ∀ before, (∀ pre b post, blocks = pre ++ b :: post →
        CoveredBelow C cfg d₀ (before ++ pre) b) →
      Triple (On (Repairing C cfg d₀ before)) (reingestBlocks P rpc cfg chunkSize blocks)
        (fun _ => On (Examined C cfg)) (On (Examined C cfg)) := by
  induction blocks with
  | nil => exact fun before _ => Triple.pure repairing_examined
  | cons b blocks ih =>
      intro before hcovered
      have hb : CoveredBelow C cfg d₀ before b := by
        have hhere := hcovered [] b blocks rfl
        rwa [List.append_nil] at hhere
      have hrest := ih (before ++ [b]) fun pre b' post heq => by
        rw [List.append_assoc]
        exact hcovered (b :: pre) b' post (by rw [heq]; rfl)
      unfold reingestBlocks at hrest ⊢
      exact Triple.bind ((ingestBlock_triple htruthful Repairing.noteStable
        (fun d p h => h.examined.ready.holds) (fun d d' p h hins => h.insert hins hb) none).relax
          repairing_examined) fun _ => hrest

/-- Blocks of a rescan that are stored on the way. -/
def rescanned (C : Chain L) (first n : Nat) : List Nat :=
  (List.range' first (n - first)).filter fun m => C.touches m

theorem rescanned_succ {first n : Nat} (hn : first ≤ n) :
    rescanned C first (n + 1) = rescanned C first n ++ if C.touches n = true then [n] else [] := by
  unfold rescanned
  rw [show n + 1 - first = (n - first) + 1 by omega, List.range'_concat, Nat.one_mul,
    show first + (n - first) = n by omega, List.filter_append, List.filter_singleton]
  cases C.touches n with
  | false => rfl
  | true => rfl

theorem rescanRange_examined (htruthful : C.Truthful P cfg chunkSize rpc) {first last : Nat}
    (hcovered : ∀ b, first ≤ b → b ≤ last → C.touches b = true →
      CoveredBelow C cfg d₀ (rescanned C first b) b) :
    Triple (On (Repairing C cfg d₀ [])) (rescanRange P rpc cfg chunkSize first last)
      (fun _ => On (Examined C cfg)) (On (Examined C cfg)) := by
  have hloop : ∀ k n, first ≤ n → n + k ≤ max first (last + 1) →
      Triple (On (Repairing C cfg d₀ (rescanned C first n)))
        ((List.range' n k).forM fun number => rescanBlock P rpc cfg chunkSize number)
        (fun _ => On (Examined C cfg)) (On (Examined C cfg)) := by
    intro k
    induction k with
    | zero => exact fun n _ _ => Triple.pure repairing_examined
    | succ k ih =>
        intro n hfirst hlast
        have hrest := ih (n + 1) (by omega) (by omega)
        rw [List.range'_succ]
        refine Triple.bind (y := rescanBlock P rpc cfg chunkSize n)
          (M := fun _ => On (Repairing C cfg d₀ (rescanned C first (n + 1)))) ?_ fun _ => hrest
        rw [rescanned_succ hfirst]
        unfold rescanBlock
        refine ask_then repairing_examined ?_
        rintro update ⟨t, ht⟩
        rw [htruthful.update t n update ht]
        refine Triple.ite (fun htouches => ?_) fun hquiet => ?_
        · refine ask_then repairing_examined ?_
          rintro header ⟨t', ht'⟩
          rw [if_pos htouches]
          exact (storeBlock_triple Repairing.noteStable (fun d p h => h.examined.ready.holds)
            (htruthful.header _ _ _ ht')
            (fun d d' p h hins => h.insert hins (hcovered n hfirst (by omega) htouches))
            update none).relax repairing_examined
        · rw [if_neg hquiet, List.append_nil]
          exact Triple.pure fun _ h => h
  unfold rescanRange
  refine (hloop (last + 1 - first) first (le_refl _) (by omega)).weaken (fun h hQ => ?_)
    fun _ _ h => h
  unfold rescanned
  rw [Nat.sub_self]
  exact hQ

end

/-! ## Runs -/

/-- What a mirror does to its rows: it follows the chain, or repairs. -/
inductive Work where
  | cycle
  | reingest (blocks : List Nat)
  | rescan (first last : Nat)

def Work.run (P : FeltParser) (rpc : RpcClient) (cfg : ChainConfig) (chunkSize : Nat) :
    Work → Indexing PUnit
  | cycle => do
      let _ ← runCycle P rpc cfg chunkSize
      pure PUnit.unit
  | reingest blocks => reingestBlocks P rpc cfg chunkSize blocks
  | rescan first last => rescanRange P rpc cfg chunkSize first last

/-- A repair leaves no block with pool events below one that it stores: such a block is
stored already, or the repair stores it first. -/
def Work.Sound (C : Chain L) (cfg : ChainConfig) (d : Database) : Work → Prop
  | cycle => True
  | reingest blocks => ∀ pre b post, blocks = pre ++ b :: post → CoveredBelow C cfg d pre b
  | rescan first last => ∀ b, first ≤ b → b ≤ last → C.touches b = true →
      CoveredBelow C cfg d (rescanned C first b) b

theorem work_examined (htruthful : C.Truthful P cfg chunkSize rpc)
    (hzero : cfg.genesisBlock = 0 → C.events.emitted 0 = []) {w : Work} {d₀ : Database}
    {p₀ : List Nat} (h : Examined C cfg d₀ p₀) (hsound : w.Sound C cfg d₀) :
    Triple (On (Is d₀ p₀)) (w.run P rpc cfg chunkSize) (fun _ => On (Examined C cfg))
      (On (Examined C cfg)) := by
  have hstart : ∀ s, On (Is d₀ p₀) s → On (Examined C cfg) s := by
    rintro ⟨d, caches, moment, budget, p⟩ ⟨rfl, rfl⟩
    exact h
  have hrepair : ∀ s, On (Is d₀ p₀) s → On (Repairing C cfg d₀ []) s := by
    rintro ⟨d, caches, moment, budget, p⟩ ⟨rfl, rfl⟩
    exact ⟨h, fun _ hn => hn, fun n hn => absurd hn List.not_mem_nil⟩
  cases w with
  | cycle =>
      exact Triple.bind ((cycle_examined htruthful hzero).weaken hstart fun _ _ h => h) fun _ =>
        Triple.pure fun _ h => h
  | reingest blocks =>
      exact (reingestBlocks_examined htruthful blocks [] hsound).weaken hrepair fun _ _ h => h
  | rescan first last =>
      exact (rescanRange_examined htruthful hsound).weaken hrepair fun _ _ h => h

/-- Runs over one chain: any works in any order, each with its own endpoints and cut off
wherever its budget ends, whose repairs are sound. -/
inductive MirrorRun (C : Chain L) (P : FeltParser) (cfg : ChainConfig) (chunkSize : Nat) :
    Host → Prop
  | fresh {h : Host} (hd : h.database = Database.new) (hp : h.passed = []) :
      MirrorRun C P cfg chunkSize h
  | work {h : Host} {rpc : RpcClient} {w : Work} (budget : Nat)
      (hrun : MirrorRun C P cfg chunkSize h) (htruthful : C.Truthful P cfg chunkSize rpc)
      (hsound : w.Sound C cfg h.database) :
      MirrorRun C P cfg chunkSize
        (Effect.final (w.run P rpc cfg chunkSize { h with budget := budget }))

theorem mirrorRun_examined (hzero : cfg.genesisBlock = 0 → C.events.emitted 0 = []) {h : Host}
    (hrun : MirrorRun C P cfg chunkSize h) : Examined C cfg h.database h.passed := by
  induction hrun with
  | fresh hd hp =>
      rw [hd, hp]
      refine ⟨⟨fun k r hr => ?_, fun f hf => ?_⟩, fun f hf => ?_, fun n hn => ?_, rfl⟩
      · simp [Database.new] at hr
      · cases hf
      · cases hf
      · cases hn
  | work budget hrun htruthful hsound ih =>
      exact Triple.final (work_examined htruthful hzero ih hsound) ⟨rfl, rfl⟩

theorem Examined.block_isSome {d : Database} {p : List Nat} (h : Examined C cfg d p) {n : Nat}
    (hn : d.Stores n) : (d.block n).isSome = true := by
  obtain ⟨r, hr⟩ := Option.isSome_iff_exists.mp hn
  obtain ⟨m, hm, hkey, -⟩ := h.ready.holds n r hr
  have hlt := C.height_lt
  unfold Database.block
  rw [toI64_of_lt (by omega), hr]
  rfl

/-- **The frontier passes no unexamined block.** In every state of a run with sound
repairs, blocks with pool events from the pool's genesis up to the frontier are stored,
and so are the blocks that the tail has passed and that touch the pool. -/
theorem frontier_examined (hzero : cfg.genesisBlock = 0 → C.events.emitted 0 = []) {h : Host}
    (hrun : MirrorRun C P cfg chunkSize h) :
    (∀ f n, h.database.cursor = some f → cfg.genesisBlock ≤ n → n ≤ f → C.events.emitted n ≠ [] →
      (h.database.block n).isSome = true) ∧
    ∀ n ∈ h.passed, C.touches n = true → (h.database.block n).isSome = true := by
  have hexamined := mirrorRun_examined hzero hrun
  refine ⟨fun f n hf hgenesis hn hne => ?_, fun n hn ht => ?_⟩
  · obtain ⟨g, hg, rfl⟩ := Option.map_eq_some_iff.mp hf
    have hrange := hexamined.ready.frontier g hg
    refine hexamined.block_isSome (hexamined.events g hg n hgenesis ?_ hne)
    unfold toU64 at hn
    omega
  · exact hexamined.block_isSome (hexamined.passed n hn ht)

end

/-! ## A repair above the frontier -/

/-- A pool at block 1 of a chain with two eventful blocks. -/
def poolAtOne : ChainConfig := ⟨"SN_TEST", Fin.ofNat STARK_PRIME 7, 1, 4, ∅⟩

def eventfulPair : Chain Chain.digits := Chain.short 0 2 [1, 2] Chain.zero_lt_ten Chain.two_lt_ten

/-- A process on an empty database. -/
def freshHost : Host := ⟨Database.new, Db.opened, 0, 0, []⟩

def repairedHost (blocks : List Nat) : Host :=
  Effect.final ((Work.reingest blocks).run hexParser (eventfulPair.served poolAtOne.pool) poolAtOne 1024
    { freshHost with budget := 100 })

/-- Block 2 is repaired on an empty database: the frontier is past block 1, which has an
event and no row. -/
theorem frontier_jump :
    eventfulPair.Truthful hexParser poolAtOne 1024 (eventfulPair.served poolAtOne.pool) ∧
    ∃ f n, (repairedHost [2]).database.cursor = some f ∧ poolAtOne.genesisBlock ≤ n ∧ n ≤ f ∧
      eventfulPair.events.emitted n ≠ [] ∧ ¬ ((repairedHost [2]).database.block n).isSome = true := by
  refine ⟨Chain.served_truthful _ _ _, 2, 1, ?_⟩
  decide +kernel

/-- In order, the two repairs are sound. -/
theorem frontier_examined_pair :
    (∀ f n, (repairedHost [1, 2]).database.cursor = some f → poolAtOne.genesisBlock ≤ n → n ≤ f →
      eventfulPair.events.emitted n ≠ [] →
        ((repairedHost [1, 2]).database.block n).isSome = true) ∧
    ∀ n ∈ (repairedHost [1, 2]).passed, eventfulPair.touches n = true →
      ((repairedHost [1, 2]).database.block n).isSome = true := by
  refine frontier_examined (C := eventfulPair)
    (fun hzero => by cases hzero) (MirrorRun.work 100 (MirrorRun.fresh rfl rfl)
      (Chain.served_truthful _ _ _) ?_)
  intro pre b post heq n hgenesis hn _
  have hone : 1 ≤ n := hgenesis
  right
  rcases pre with _ | ⟨x, pre⟩
  · obtain ⟨rfl, -⟩ := List.cons.inj heq
    omega
  · obtain ⟨rfl, hrest⟩ := List.cons.inj heq
    rcases pre with _ | ⟨y, pre⟩
    · obtain ⟨rfl, -⟩ := List.cons.inj hrest
      rw [show n = 1 by omega]
      exact List.mem_singleton_self 1
    · obtain ⟨rfl, hrest'⟩ := List.cons.inj hrest
      exact absurd hrest' (by simp)

end Strk20.Indexer
