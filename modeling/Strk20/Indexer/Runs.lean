import Strk20.Indexer.Passes

/-!
# Runs of the publisher (`main.rs`)

Rounds of the two loops and repairs by the operator, in any order, each with endpoints of
its own and cut off wherever its writes end, with restarts between them. What a run does
to database and directory is a path of steps, if what each round may count on is granted.
`recut-epochs`, which rewrites what is published, is no part of a run.
-/

namespace Strk20.Indexer

open Feed Tables
open Effect (Triple)
open Consumer (toI64 toU64 toI64_of_lt)
open Std (ExtTreeMap)
open Relation (ReflTransGen)

/-! ## Commands and runs -/

inductive Command where
  | pass (a : Attempt) (head : Option BlockHeader)
  | backfill (a : Attempt)
  | reingest (blocks : List Nat)
  | rescan (first last : Nat)

def Command.run (P : FeltParser) (Z : Zstd) (pedersen : Felt → Felt → Felt) (rpc : RpcClient)
    (cfg : ChainConfig) (chunkSize : Nat) : Command → Publishing PUnit
  | pass a head => runPass P Z pedersen rpc cfg chunkSize a head
  | backfill a => do
      let _ ← backfillPass P Z pedersen rpc cfg chunkSize a
      pure PUnit.unit
  | reingest blocks => onHost (reingestBlocks P rpc cfg chunkSize blocks)
  | rescan first last => onHost (rescanRange P rpc cfg chunkSize first last)

/-- The publisher with writes left. -/
def Publisher.granted (s : Publisher) (budget : Nat) : Publisher :=
  { s with host := { s.host with budget := budget } }

section

variable (P : FeltParser) (Z : Zstd) (pedersen : Felt → Felt → Felt) (cfg : ChainConfig)
variable (chunkSize : Nat)

/-- Runs whose commands are all `Ok` where they start. A restart keeps what is stored. -/
inductive LoopRun (Ok : Publisher → RpcClient → Command → Prop) (s : Publisher) : Publisher → Prop
  | refl : LoopRun Ok s s
  | restart {t u : Publisher} (h : LoopRun Ok s t) (hsite : u.site = t.site) : LoopRun Ok s u
  | command {t : Publisher} (rpc : RpcClient) (c : Command) (budget : Nat) (h : LoopRun Ok s t)
      (hok : Ok (t.granted budget) rpc c) :
      LoopRun Ok s (Effect.final (c.run P Z pedersen rpc cfg chunkSize (t.granted budget)))

variable (L : Ledger) (B : Anchor → Prop) (low : Database → Int) (K : Database → Prop)

/-- What makes a command go by steps. -/
inductive Permitted (s : Publisher) (rpc : RpcClient) : Command → Prop
  | pass {K' : Database → Prop} {a : Attempt} {head : Option BlockHeader}
      (hok : PassOk L P cfg chunkSize B K K' rpc)
      (hcycle : ∀ p, Triple (On (Is s.host.database p)) (runCycleAnnounced P rpc cfg chunkSize head)
        (fun _ => On fun d _ => K' d) (On fun d _ => K d))
      (habove : RepairsAbove P pedersen cfg low a (passDue P Z pedersen rpc cfg chunkSize head) s) :
      Permitted s rpc (.pass a head)
  | backfill {K' : Database → Prop} {a : Attempt} (hok : PassOk L P cfg chunkSize B K K' rpc)
      (hcycle : ∀ p, Triple (On (Is s.host.database p)) (runCycle P rpc cfg chunkSize)
        (fun _ => On fun d _ => K' d) (On fun d _ => K d))
      (habove : RepairsAbove P pedersen cfg low a (backfillDue P Z pedersen rpc cfg chunkSize) s) :
      Permitted s rpc (.backfill a)
  | reingest {blocks : List Nat} (hnames : Names L P rpc)
      (habove : ∀ number ∈ blocks, low s.host.database < (number : Nat))
      (hrows : ∀ p, Triple (On (Is s.host.database p)) (reingestBlocks P rpc cfg chunkSize blocks)
        (fun _ => On fun d _ => K d) (On fun d _ => K d)) : Permitted s rpc (.reingest blocks)
  | rescan {first last : Nat} (hnames : Names L P rpc) (habove : low s.host.database < first)
      (hrows : ∀ p, Triple (On (Is s.host.database p)) (rescanRange P rpc cfg chunkSize first last)
        (fun _ => On fun d _ => K d) (On fun d _ => K d)) : Permitted s rpc (.rescan first last)

end

section

variable {L : Ledger} {P : FeltParser} {Z : Zstd} {pedersen : Felt → Felt → Felt}
variable {cfg : ChainConfig} {chunkSize : Nat} {B : Anchor → Prop} {low : Database → Int}
variable {K : Database → Prop} {x y : Site} {rpc : RpcClient} {s : Publisher}

/-- A repair is one step. -/
theorem repair_path {r : Indexing PUnit}
    (hkeeps : ∀ p, Triple (On (Is x.database p)) r
      (fun _ => On (Keeps L (low x.database) x.database.settledUpto x.database))
      (On (Keeps L (low x.database) x.database.settledUpto x.database)))
    (hrows : ∀ p, Triple (On (Is x.database p)) r (fun _ => On fun d _ => K d) (On fun d _ => K d)) :
    Triple (Sited (· = x)) (onHost r) (fun _ => Sited (SitePath L P Z pedersen cfg B low K x))
      (Sited (SitePath L P Z pedersen cfg B low K x)) := by
  have hafter : ∀ d, Kept L (low x.database) x.database.settledUpto x.database d ∧ K d →
      SitePath L P Z pedersen cfg B low K x ⟨d, x.dir⟩ := by
    rintro d ⟨hkept, hd⟩
    exact ReflTransGen.single (SiteStep.repair hd hkept)
  refine onHost_triple (on_fixed fun d p hd => ?_)
  subst hd
  refine (((hkeeps p).both (hrows p)).weaken (fun h hh => ⟨hh, hh⟩) fun _ h hd => ?_).relax
    fun h hd => ?_
  · exact hafter _ hd
  · exact hafter _ hd

/-- **A command goes by steps**, wherever it stops. -/
theorem Permitted.path {c : Command}
    (h : Permitted P Z pedersen cfg chunkSize L B low K s rpc c) (hs : Sound L s.host.database) :
    Triple (· = s) (c.run P Z pedersen rpc cfg chunkSize)
      (fun _ => Sited (SitePath L P Z pedersen cfg B low K s.site))
      (Sited (SitePath L P Z pedersen cfg B low K s.site)) := by
  have hstart : ∀ (n : Int) p h, On (Is s.host.database p) h →
      On (Keeps L n s.host.database.settledUpto s.host.database) h := by
    rintro n p h ⟨hd, -⟩
    show Kept L n s.host.database.settledUpto s.host.database h.database
    rw [hd]
    exact Kept.start hs.steady.frontier hs.steady.numbered hs.steady.linked
  have hsite : ∀ t : Publisher, t = s → Sited (· = s.site) t := fun t ht => congrArg Publisher.site ht
  cases h with
  | pass hok hcycle habove => exact runPass_path hok hs hcycle habove
  | backfill hok hcycle habove =>
      exact Triple.bind (backfillPass_path hok hs hcycle habove) fun _ => Triple.pure fun _ h => h
  | reingest hnames habove hrows =>
      refine Triple.entails hsite (repair_path (fun p => ?_) hrows)
      exact (reingestBlocks_keeps hnames habove).weaken (hstart _ p) fun _ _ h => h
  | rescan hnames habove hrows =>
      refine Triple.entails hsite (repair_path (fun p => ?_) hrows)
      exact (rescanRange_keeps hnames habove _).weaken (hstart _ p) fun _ _ h => h

theorem SitePath.known (hK : OfBlocks K) (h : SitePath L P Z pedersen cfg B low K x y)
    (hx : K x.database) : K y.database := by
  induction h with
  | refl => exact hx
  | tail _ hstep ih =>
      cases hstep with
      | cut h => exact hK _ _ h.sameMirror.blocks ih
      | ingest h _ => exact h
      | repair h _ => exact h

/-- **A run is a path of steps**, if its commands are permitted where they start. -/
theorem loopRun_path {Ok : Publisher → RpcClient → Command → Prop} {t : Publisher}
    (hK : OfBlocks K)
    (hpermitted : ∀ u rpc c, Ok u rpc c → Sound L u.host.database → K u.host.database →
      Permitted P Z pedersen cfg chunkSize L B low K u rpc c)
    (hs : Sound L s.host.database) (hKs : K s.host.database)
    (h : LoopRun P Z pedersen cfg chunkSize Ok s t) :
    SitePath L P Z pedersen cfg B low K s.site t.site := by
  induction h with
  | refl => exact ReflTransGen.refl
  | restart h hsite ih =>
      rw [hsite]
      exact ih
  | @command t rpc c budget h hok ih =>
      have hsound : Sound L (t.granted budget).host.database := SitePath.sound ih hs
      have hknown : K (t.granted budget).host.database := SitePath.known hK ih hKs
      have hpath : SitePath L P Z pedersen cfg B low K t.site
          (Effect.final (c.run P Z pedersen rpc cfg chunkSize (t.granted budget))).site :=
        Triple.final ((hpermitted _ _ _ hok hsound hknown).path hsound) (s := t.granted budget) rfl
      exact ReflTransGen.trans ih hpath

/-! ## Any answers that keep to what hashes commit to -/

theorem triple_trivial {α : Type} {Q : Host → Prop} {r : Indexing α} :
    Triple Q r (fun _ => On fun _ _ => True) (On fun _ _ => True) := by
  intro h _
  cases r h with
  | ok a h' => exact trivial
  | error e h' => exact trivial

/-- What a command repairs is above `low`, where it comes to repair it. -/
def Command.Above (P : FeltParser) (Z : Zstd) (pedersen : Felt → Felt → Felt) (cfg : ChainConfig)
    (chunkSize : Nat) (low : Database → Int) (s : Publisher) (rpc : RpcClient) : Command → Prop
  | pass a head => RepairsAbove P pedersen cfg low a (passDue P Z pedersen rpc cfg chunkSize head) s
  | backfill a => RepairsAbove P pedersen cfg low a (backfillDue P Z pedersen rpc cfg chunkSize) s
  | reingest blocks => ∀ number ∈ blocks, low s.host.database < (number : Nat)
  | rescan first _ => low s.host.database < (first : Nat)

theorem permitted_named {c : Command} (hnames : Names L P rpc)
    (hB : ∀ anchor, Vouched P rpc anchor → B anchor)
    (habove : c.Above P Z pedersen cfg chunkSize low s rpc) :
    Permitted P Z pedersen cfg chunkSize L B low (fun _ => True) s rpc c := by
  have hok : PassOk L P cfg chunkSize B (fun _ => True) (fun _ => True) rpc :=
    ⟨hnames, hB, fun _ _ _ h => h, fun _ h => h, fun _ => triple_trivial⟩
  cases c with
  | pass a head => exact Permitted.pass hok (fun _ => triple_trivial) habove
  | backfill a => exact Permitted.backfill hok (fun _ => triple_trivial) habove
  | reingest blocks => exact Permitted.reingest hnames habove fun _ => triple_trivial
  | rescan first last => exact Permitted.rescan hnames habove fun _ => triple_trivial

/-- Every repair is above nothing at all. -/
theorem Command.above_all (P : FeltParser) (Z : Zstd) (pedersen : Felt → Felt → Felt)
    (cfg : ChainConfig) (chunkSize : Nat) (s : Publisher) (rpc : RpcClient) (c : Command) :
    c.Above P Z pedersen cfg chunkSize (fun _ => -1) s rpc := by
  have habove : ∀ n : Nat, (-1 : Int) < n := fun n => by omega
  cases c with
  | pass a head => exact fun _ _ _ _ _ number _ => habove number
  | backfill a => exact fun _ _ _ _ _ number _ => habove number
  | reingest blocks => exact fun number _ => habove number
  | rescan first last => exact habove first

end

/-! ## Cycles on a chain of their own -/

section

variable {L : Ledger} {C : Chain L} {d d₁ : Database}
variable {P : FeltParser} {rpc : RpcClient} {cfg : ChainConfig} {chunkSize : Nat}

/-- Where a cycle on `C` may start: every row is on the chain, or the recorded head is not
and every row up to the final height is. -/
def SafeAt (C : Chain L) (d : Database) : Prop :=
  C.Holds d ∨ (d.recordedHead ≠ none ∧ ¬ C.HasHead d ∧
    ∀ (k : Int) (r : BlockRec), d.blocks[k]? = some r → k ≤ d.finalUpto → C.Has k r.hash)

/-- Rows of one chain, whichever it is. -/
def OnSome (L : Ledger) (d : Database) : Prop := ∃ D : Chain L, D.Holds d

theorem ofBlocks_holds (C : Chain L) : OfBlocks C.Holds := by
  intro d d' hblocks hd k r hr
  rw [hblocks] at hr
  exact hd k r hr

theorem ofBlocks_onSome : OfBlocks (OnSome L) := by
  rintro d d' hblocks ⟨D, hD⟩
  exact ⟨D, ofBlocks_holds D _ _ hblocks hD⟩

theorem Sound.floor (h : Sound L d) : d.epochFloor ≤ d.finalUpto ∧ d.epochFloor < 2 ^ 63 := by
  have hsettled := h.settled
  have hlt := h.steady.floor
  unfold Database.settledUpto at hsettled
  refine ⟨?_, by omega⟩
  unfold Database.epochFloor
  cases hlast : d.lastEpoch with
  | none => exact Nat.zero_le _
  | some e =>
      rw [hlast] at hsettled
      exact Int.ofNat_le.mp hsettled

/-- Where the cycle rolls back to, the rows that stay are on its chain. -/
theorem stopsAt_below (hd : OnSome L d) (hs : Sound L d) (hsafe : SafeAt C d) {ancestor : Nat}
    (hstop : StopsAt C d ancestor) : ancestor < 2 ^ 63 ∧
      ∀ (k : Int) (r : BlockRec), d.blocks[k]? = some r → k ≤ ancestor → C.Has k r.hash := by
  obtain ⟨D, hD⟩ := hd
  obtain ⟨hfloor, hfloorlt⟩ := hs.floor
  have hlt := D.height_lt
  have hfinal : ancestor ≤ d.finalUpto →
      ∀ (k : Int) (r : BlockRec), d.blocks[k]? = some r → k ≤ ancestor → C.Has k r.hash := by
    intro hle k r hr hk
    rcases hsafe with hholds | ⟨-, -, hfinals⟩
    · exact hholds k r hr
    · exact hfinals k r hr (by omega)
  rcases hstop with hfloored | ⟨head, b, hb, rfl, hwhy⟩
  · exact ⟨by omega, hfinal (by omega)⟩
  · obtain ⟨e, he, rfl⟩ := List.mem_map.mp hb
    have hrow : d.blocks[e.1]? = some e.2 :=
      ExtTreeMap.mem_toList_iff_getElem?_eq_some.mp (List.mem_filter.mp he).1
    obtain ⟨n, hn, hkey, hhash⟩ := hD e.1 e.2 hrow
    have hnumber : (Database.rowToBlock e.1 e.2).number = n := by
      show toU64 e.1 = n
      rw [hkey]
      unfold toU64
      omega
    rw [hnumber] at hwhy hfinal ⊢
    refine ⟨by omega, fun k r hr hk => ?_⟩
    rcases hwhy with ⟨-, hupto⟩ | ⟨hle, hsame⟩
    · rw [hnumber] at hupto
      exact hfinal hupto k r hr hk
    · exact holds_below hD hle hn (hhash.symm.trans hsame) hr hk

/-- A safe cycle ingests onto rows of its chain. -/
theorem safeAt_ready (hd : OnSome L d) (hs : Sound L d) (hsafe : SafeAt C d) {reorg : Option Nat}
    (hdecided : Decided C d reorg) (hpromoted : Promoted d d₁) : Ready C (rolledBack reorg d₁) := by
  obtain ⟨hnonneg, -, hlt⟩ := hs.steady.frontier
  have hcursor : ∀ f, d₁.ingestCursor = some f → 0 ≤ f ∧ f < 2 ^ 63 := by
    intro f hf
    rw [hpromoted.ingestCursor] at hf
    unfold Database.frontier at hnonneg hlt
    rw [hf, Option.getD_some] at hnonneg hlt
    omega
  cases reorg with
  | none =>
      refine ⟨hpromoted.holds ?_, hcursor⟩
      rcases hsafe with hholds | ⟨hrecorded, hoff, -⟩
      · exact hholds
      · rcases hdecided with hnone | hon
        · exact absurd hnone hrecorded
        · exact absurd hon hoff
  | some ancestor =>
      obtain ⟨hbound, hbelow⟩ := stopsAt_below hd hs hsafe hdecided
      constructor
      · intro k r hr
        have hget : (if k ≤ toI64 ancestor then d₁.blocks[k]? else none) = some r :=
          (getElem?_rollbackAbove d₁ ancestor k).symm.trans hr
        split at hget
        · rename_i hk
          rw [Consumer.toI64_of_lt hbound] at hk
          obtain ⟨r₀, hr₀, hhash⟩ := hpromoted.row hget
          rw [← hhash]
          exact hbelow k r₀ hr₀ hk
        · cases hget
      · intro f hf
        have hcursor' : d₁.ingestCursor.map (min · (toI64 ancestor)) = some f :=
          (ingestCursor_rollbackAbove d₁ ancestor).symm.trans hf
        obtain ⟨g, hg, rfl⟩ := Option.map_eq_some_iff.mp hcursor'
        have hrange := hcursor g hg
        rw [Consumer.toI64_of_lt hbound]
        omega

/-- The header to ingest up to is one of the chain's. -/
theorem acquireHead_describes (htruthful : C.Truthful P cfg chunkSize rpc)
    {Q : Database → List Nat → Prop} (target : BlockRef) :
    Triple (On Q) (acquireHead rpc target)
      (fun r h => (C.Describes P r.1 ∧ Supplied P cfg C r.1.blockNumber r.2) ∧ On Q h) (On Q) := by
  have hheader : ∀ t ref h, rpc.getBlock t ref = .ok h →
      C.Describes P h ∧ Supplied P cfg C h.blockNumber none :=
    fun t ref h ht => ⟨htruthful.header t ref h ht, fun _ heq => by cases heq⟩
  have hasked : ∀ ref, Triple (On Q)
      (do
        let header ← ask fun t => rpc.getBlock t ref
        pure (header, none))
      (fun r h => (C.Describes P r.1 ∧ Supplied P cfg C r.1.blockNumber r.2) ∧ On Q h) (On Q) := by
    intro ref
    refine ask_then (fun _ h => h) ?_
    rintro header ⟨t, ht⟩
    exact Triple.pure fun _ h => ⟨hheader t ref header ht, h⟩
  unfold acquireHead
  refine ask_then (fun _ h => h) ?_
  rintro found ⟨t, ht⟩
  cases found with
  | some data =>
      refine Triple.pure fun _ h => ⟨⟨htruthful.dataHeader _ _ _ ht, ?_⟩, h⟩
      rintro data' heq
      cases heq
      exact ⟨htruthful.dataUpdate _ _ _ ht, htruthful.dataEvents _ _ _ ht⟩
  | none =>
      cases target with
      | number number =>
          refine Triple.bind (findBlock_triple number) fun found => Triple.of_and fun hfound => ?_
          cases found with
          | none => exact hasked .latest
          | some header =>
              obtain ⟨t', ht'⟩ := hfound header rfl
              refine ensure_then (fun _ h => h) fun _ => ?_
              exact Triple.pure fun _ h => ⟨hheader t' _ header ht', h⟩
      | _ => exact hasked _

/-- **A safe cycle leaves rows of its chain**, whatever is announced, and rows of some
chain wherever it stops. -/
theorem cycle_follows (htruthful : C.Truthful P cfg chunkSize rpc) (hd : OnSome L d)
    (hs : Sound L d) (hsafe : SafeAt C d) (target : BlockRef) {announced : Option BlockHeader}
    (hannounced : ∀ h, announced = some h → C.Describes P h) (p : List Nat) :
    Triple (On (Is d p)) (runCycleBound P rpc cfg chunkSize target announced)
      (fun _ => On fun d' _ => C.Holds d') (On fun d' _ => OnSome L d') := by
  have hsome : ∀ d', Promoted d d' → OnSome L d' := by
    intro d' hpromoted
    obtain ⟨D, hD⟩ := hd
    exact ⟨D, hpromoted.holds hD⟩
  have hstart : ∀ h, On (Is d p) h → On (fun d' _ => OnSome L d') h := by
    rintro h ⟨hh, -⟩
    show OnSome L h.database
    rw [hh]
    exact hd
  unfold runCycleBound
  refine Triple.bind ((acquireHead_describes htruthful target).relax hstart) fun r => ?_
  obtain ⟨latest, supplied⟩ := r
  refine Triple.of_and fun hhead => ?_
  obtain ⟨hlatest, hsupplied⟩ := hhead
  simp only
  refine ask_then hstart fun l1 _ => ?_
  -- an announced head decides the reorg before the head is checked
  have hfound : Triple (On (Is d p)) (announcedReorg P rpc announced)
      (fun r h => (announced ≠ none → Decided C d r) ∧ On (Is d p) h) (On (Is d p)) := by
    unfold announcedReorg
    cases announced with
    | none => exact Triple.pure fun _ h => ⟨fun hne => absurd rfl hne, h⟩
    | some head =>
        exact (detectReorg_triple htruthful (hannounced head rfl)).weaken (fun _ h => h)
          fun _ _ h => ⟨fun _ => h.1, h.2⟩
  refine Triple.bind (hfound.relax hstart) fun found => Triple.of_and fun hearly => ?_
  refine Triple.bind ((checkAnnounced_keeps announced latest).relax hstart) fun _ => ?_
  -- without one the polled head decides it
  have hreorg : Triple (On (Is d p)) (cycleReorg P rpc announced latest found)
      (fun r h => Decided C d r ∧ On (Is d p) h) (On (Is d p)) := by
    unfold cycleReorg
    cases announced with
    | none => exact detectReorg_triple htruthful hlatest
    | some head => exact Triple.pure fun _ h => ⟨hearly (by simp), h⟩
  refine Triple.bind (hreorg.relax hstart) fun reorg => Triple.of_and fun hdecided => ?_
  have hcheck : Triple (On (Is d p)) (checkHead latest reorg) (fun _ => On (Is d p)) (On (Is d p)) := by
    unfold checkHead
    refine readDb_then ?_
    exact ensure_triple.weaken (fun _ h => h) fun _ _ h => h.2
  refine Triple.bind (hcheck.relax hstart) fun _ => ?_
  refine Triple.bind ((pollFinality_triple l1 latest).relax fun h hh => hsome _ hh.1)
    fun finalHeight => ?_
  -- so far blocks have been promoted at most; from here rows change
  refine on_fixed ?_
  rintro d₁ p₁ ⟨hpromoted, rfl⟩
  have hpolled : ∀ h, On (Is d₁ p₁) h → On (fun d' _ => OnSome L d') h := by
    rintro h ⟨hh, -⟩
    show OnSome L h.database
    rw [hh]
    exact hsome d₁ hpromoted
  refine readDb_then (lift_then hpolled fun latestHash hhash => ?_)
  obtain ⟨f, hf, rfl⟩ := parseFelt_of_normalizeHex hhash
  rw [hlatest.hash] at hf
  cases hf
  refine Triple.bind ((rollBack_triple reorg).relax hpolled) fun _ => ?_
  refine Triple.bind ((ingestUpTo_triple htruthful hlatest hsupplied
    (safeAt_ready hd hs hsafe hdecided hpromoted)).relax ?_) fun ingested => ?_
  · rintro h ⟨n, hing⟩
    exact ⟨C, hing.holds⟩
  have hrecording : ∀ {number : Nat} {hash : Felt} {d₂ d₃ : Database}, C.Holds d₂ →
      (d₃ = d₂ ∨ Recording number hash d₂ d₃ ∨ Recorded number hash d₂ d₃) → C.Holds d₃ := by
    rintro number hash d₂ d₃ hholds (rfl | hrec | rfl | ⟨upto, rfl⟩)
    · exact hholds
    · cases hrec with
      | number => exact hholds
      | hash => exact hholds
    · exact hholds
    · exact (Promoted.promoteL1 _ upto).holds hholds
  refine Triple.bind ((recordHead_triple hlatest finalHeight _).relax ?_) fun _ => ?_
  · rintro h ⟨d₂, hing, hrec⟩
    exact ⟨C, hrecording hing.holds hrec⟩
  · refine Triple.pure ?_
    rintro h ⟨d₂, hing, hrec⟩
    exact hrecording hing.holds (Or.inr (Or.inr hrec))

/-- Repairs with answers about the chain keep rows of the chain. -/
theorem reingestBlocks_holds (htruthful : C.Truthful P cfg chunkSize rpc) (blocks : List Nat) :
    Triple (On fun d _ => C.Holds d) (reingestBlocks P rpc cfg chunkSize blocks)
      (fun _ => On fun d _ => C.Holds d) (On fun d _ => C.Holds d) :=
  Triple.forM fun _ _ => ingestBlock_triple htruthful (fun _ _ _ _ _ h => h) (fun _ _ h => h)
    (fun _ _ _ _ hins => hins.holds) none

theorem rescanRange_holds (htruthful : C.Truthful P cfg chunkSize rpc) (first last : Nat) :
    Triple (On fun d _ => C.Holds d) (rescanRange P rpc cfg chunkSize first last)
      (fun _ => On fun d _ => C.Holds d) (On fun d _ => C.Holds d) := by
  refine Triple.forM fun number _ => ?_
  unfold rescanBlock
  refine ask_then (fun _ h => h) fun update _ => ?_
  refine Triple.ite (fun _ => ?_) fun _ => Triple.pure fun _ h => h
  refine ask_then (fun _ h => h) ?_
  rintro header ⟨t, ht⟩
  exact storeBlock_triple (fun _ _ _ _ _ h => h) (fun _ _ h => h) (htruthful.header _ _ _ ht)
    (fun _ _ _ _ hins => hins.holds) update none

/-- What a command on the chain `C` starts from: a cycle is safe, a repair finds rows of
the chain. -/
def Command.Starts (C : Chain L) (P : FeltParser) (d : Database) : Command → Prop
  | pass _ head => SafeAt C d ∧ ∀ h, head = some h → C.Describes P h
  | backfill _ => SafeAt C d
  | reingest _ => C.Holds d
  | rescan _ _ => C.Holds d

theorem permitted_chain {B : Anchor → Prop} {Z : Zstd} {pedersen : Felt → Felt → Felt}
    {low : Database → Int} {s : Publisher} {c : Command}
    (hnames : Names L P rpc) (hB : ∀ anchor, Vouched P rpc anchor → B anchor)
    (htruthful : C.Truthful P cfg chunkSize rpc) (hstarts : c.Starts C P s.host.database)
    (habove : c.Above P Z pedersen cfg chunkSize low s rpc) (hs : Sound L s.host.database)
    (hd : OnSome L s.host.database) :
    Permitted P Z pedersen cfg chunkSize L B low (OnSome L) s rpc c := by
  have hok : PassOk L P cfg chunkSize B (OnSome L) C.Holds rpc :=
    ⟨hnames, hB, ofBlocks_holds C, fun d hd => ⟨C, hd⟩, reingestBlocks_holds htruthful⟩
  -- a repair stays on `C` and so on some chain
  have hrepair : ∀ {r : Indexing PUnit}, C.Holds s.host.database → Triple (On fun d _ => C.Holds d) r
      (fun _ => On fun d _ => C.Holds d) (On fun d _ => C.Holds d) →
      ∀ p, Triple (On (Is s.host.database p)) r
        (fun _ => On fun d _ => OnSome L d) (On fun d _ => OnSome L d) := by
    intro r hholds hr p
    refine (hr.weaken ?_ fun _ _ h => ⟨C, h⟩).relax fun _ h => ⟨C, h⟩
    rintro h ⟨hh, -⟩
    show C.Holds h.database
    rw [hh]
    exact hholds
  cases c with
  | pass a head =>
      obtain ⟨hsafe, hhead⟩ := hstarts
      exact Permitted.pass hok (cycle_follows htruthful hd hs hsafe _ hhead) habove
  | backfill a =>
      exact Permitted.backfill hok
        (cycle_follows htruthful hd hs hstarts _ fun _ heq => by cases heq) habove
  | reingest blocks =>
      exact Permitted.reingest hnames habove
        (hrepair hstarts (reingestBlocks_holds htruthful blocks))
  | rescan first last =>
      exact Permitted.rescan hnames habove
        (hrepair hstarts (rescanRange_holds htruthful first last))

end

/-! ## A first backfill, and one that repairs -/

/-- An endpoint whose whole chain is final on L1. -/
def Chain.settled {L : Ledger} (C : Chain L) (pool : Felt) : RpcClient :=
  { C.served pool with
    getBlock := fun t ref =>
      match ref with
      | .l1Accepted => .ok (C.header C.height)
      | _ => (C.served pool).getBlock t ref }

theorem Chain.settled_truthful {L : Ledger} {C : Chain L} (P : FeltParser) (cfg : ChainConfig)
    (chunkSize : Nat) : C.Truthful P cfg chunkSize (C.settled cfg.pool) := by
  have hserved := Chain.served_truthful (C := C) P cfg chunkSize
  refine ⟨?_, ?_, hserved.update, hserved.events, hserved.dataHeader, hserved.dataUpdate,
    hserved.dataEvents⟩
  · intro t ref h hanswer
    cases ref with
    | l1Accepted =>
        cases hanswer
        exact Chain.describes_header P (le_refl _)
    | number n => exact hserved.header t (.number n) h hanswer
    | latest => exact hserved.header t .latest h hanswer
  · intro t n h hanswer
    exact hserved.number t n h hanswer

/-- Sums in place of hashes. -/
def sumHash (a b : Felt) : Felt := a + 2 * b

/-- Slot 1 of the pool, from the block on that writes it. -/
def slotFrom (written n : Nat) : List (Felt × Felt) := if written ≤ n then [(1, 5)] else []

/-- A proof that names its block and the root of that slot. -/
def Chain.slotProof {L : Ledger} (C : Chain L) (written n : Nat) : StorageProof :=
  ⟨[⟨"0x9", feltHex (Mpt.storageRoot sumHash (slotFrom written n))⟩], some (feltHex (C.hash n))⟩

/-- An endpoint that knows of the slot: in its updates, and with proofs for every block. -/
def Chain.attesting {L : Ledger} (C : Chain L) (pool : Felt) (written : Nat) : RpcClient :=
  { C.settled pool with
    getStateUpdate := fun _ n => .ok ⟨none, if C.touches n then
      [⟨feltHex pool, if n = written then [("0x1", "0x5")] else []⟩] else [], [], []⟩
    getStorageProof := fun _ n => .ok (C.slotProof written n) }

theorem Chain.attesting_truthful {L : Ledger} {C : Chain L} (P : FeltParser) (cfg : ChainConfig)
    (chunkSize written : Nat) : C.Truthful P cfg chunkSize (C.attesting cfg.pool written) := by
  have hsettled := Chain.settled_truthful (C := C) P cfg chunkSize
  refine ⟨hsettled.header, hsettled.number, ?_, hsettled.events, hsettled.dataHeader,
    hsettled.dataUpdate, hsettled.dataEvents⟩
  intro t n u hanswer
  obtain rfl := Except.ok.inj hanswer
  unfold touchesPool normalizeHex parseFelt
  cases C.touches n with
  | false => simp
  | true => simp [P.fromHex_feltHex, Except.map]

/-- The same endpoint as a recovery asks it: the nodes of its trie, its reads, its updates. -/
def Chain.walked {L : Ledger} (C : Chain L) (pool : Felt) (written : Nat) : Attempt where
  proofs :=
    { getBlock := (C.settled pool).getBlock
      getStorageProof := fun _ n _ => .ok (C.slotProof written n,
        if written ≤ n then [⟨feltHex (Mpt.storageRoot sumHash [(1, 5)]), .edge "0x1" 251 "0x5"⟩]
        else []) }
  storage :=
    { getStorageAt := fun _ slot n => .ok (if slot = 1 ∧ written ≤ n then 5 else 0)
      getStateUpdate := (C.attesting pool written).getStateUpdate }
  fuel := 9
  deadline := none
  now := 0

/-- No endpoint that proves storage or reads it as of a block. -/
def unserved : Attempt where
  proofs := ⟨fun _ _ => .error .blockNotFound, fun _ _ _ => .error .proofUnavailable⟩
  storage := ⟨fun _ _ _ => .error .blockNotFound, fun _ _ => .error .blockNotFound⟩
  fuel := 0
  deadline := none
  now := 0

/-- A process on an empty database and an empty directory. -/
def unpublished : Publisher := ⟨freshHost, emptyDir, none⟩

theorem five_lt_ten : 5 < 10 := by decide

theorem six_lt_ten : 6 < 10 := by decide

/-- A chain that is past the end of the first epoch. -/
def pastEpoch : Chain Chain.digits := Chain.short 0 5 [2, 5] Chain.zero_lt_ten five_lt_ten

/-- The same chain, one block later. -/
def grownEpoch : Chain Chain.digits := Chain.short 0 6 [2, 5] Chain.zero_lt_ten six_lt_ten

theorem pastEpoch_names : Names Chain.digits hexParser (pastEpoch.settled poolAtOne.pool) := by
  refine (Chain.settled_truthful (C := pastEpoch) hexParser poolAtOne 1024).names ?_
  show 5 + 1 < 2 ^ 63
  norm_num

theorem grownEpoch_names :
    Names Chain.digits hexParser (grownEpoch.attesting poolAtOne.pool 5) := by
  refine (Chain.attesting_truthful (C := grownEpoch) hexParser poolAtOne 1024 5).names ?_
  show 6 + 1 < 2 ^ 63
  norm_num

/-- The endpoint leaves out what the blocks write, and proves nothing. -/
def backfilled (s : Publisher) : Publisher :=
  Effect.final ((Command.backfill unserved).run hexParser plainZstd sumHash
    (pastEpoch.settled poolAtOne.pool) poolAtOne 1024 (s.granted 100))

theorem backfilled_run {Ok : Publisher → RpcClient → Command → Prop} {s t : Publisher}
    (h : LoopRun hexParser plainZstd sumHash poolAtOne 1024 Ok s t)
    (hok : Ok (t.granted 100) (pastEpoch.settled poolAtOne.pool) (.backfill unserved)) :
    LoopRun hexParser plainZstd sumHash poolAtOne 1024 Ok s (backfilled t) :=
  LoopRun.command (pastEpoch.settled poolAtOne.pool) (.backfill unserved) 100 h hok

/-- The endpoint has the slot that block 5 writes. -/
def repaired (s : Publisher) : Publisher :=
  Effect.final ((Command.backfill (grownEpoch.walked poolAtOne.pool 5)).run hexParser plainZstd
    sumHash (grownEpoch.attesting poolAtOne.pool 5) poolAtOne 1024 (s.granted 100))

theorem repaired_run {Ok : Publisher → RpcClient → Command → Prop} {s t : Publisher}
    (h : LoopRun hexParser plainZstd sumHash poolAtOne 1024 Ok s t)
    (hok : Ok (t.granted 100) (grownEpoch.attesting poolAtOne.pool 5)
      (.backfill (grownEpoch.walked poolAtOne.pool 5))) :
    LoopRun hexParser plainZstd sumHash poolAtOne 1024 Ok s (repaired t) :=
  LoopRun.command (grownEpoch.attesting poolAtOne.pool 5)
    (.backfill (grownEpoch.walked poolAtOne.pool 5)) 100 h hok

/-- Without a proof there is nothing to attribute. -/
theorem unserved_above {low : Database → Int} {s : Publisher} {rpc : RpcClient} :
    (Command.backfill unserved).Above hexParser plainZstd sumHash poolAtOne 1024 low s rpc := by
  intro x t blocks _ hblocks
  have hnone : attributedBlocks hexParser sumHash poolAtOne unserved t.host.database x.block =
      some (.error .proofUnavailable) := rfl
  rw [hnone] at hblocks
  cases hblocks

/-- What a pass names for repair where it comes to that, and the end of the published
range there. -/
def repairNamed (a : Attempt) (due : EStateM.Result Failure Publisher (Option Divergence)) :
    Option (Option (List Nat) × Int) :=
  match due with
  | .ok (some x) t =>
      (attributedBlocks hexParser sumHash poolAtOne a t.host.database x.block).map fun blocks =>
        (blocks.toOption, t.host.database.settledUpto)
  | _ => none

theorem repairsAbove_of_named {a : Attempt} {due : Publishing (Option Divergence)} {s : Publisher}
    {blocks : List Nat} {upto : Int} (h : repairNamed a (due s) = some (some blocks, upto))
    (habove : ∀ number ∈ blocks, upto < (number : Nat)) :
    RepairsAbove hexParser sumHash poolAtOne Database.settledUpto a due s := by
  intro x t blocks' hdue hblocks
  rw [hdue] at h
  simp only [repairNamed, hblocks, Option.map_some, Option.some.injEq, Prod.mk.injEq] at h
  obtain ⟨hsame, hupto⟩ := h
  rw [Option.some.inj hsame, hupto]
  exact habove

/-- Epoch 0 is published up to block 3. The walk finds the slot that the first backfill was
not told of, and names block 5. -/
theorem repaired_named : repairNamed (grownEpoch.walked poolAtOne.pool 5)
    (backfillDue hexParser plainZstd sumHash (grownEpoch.attesting poolAtOne.pool 5) poolAtOne 1024
      ((backfilled unpublished).granted 100)) = some (some [5], 3) := by
  decide +kernel

theorem repaired_above : (Command.backfill (grownEpoch.walked poolAtOne.pool 5)).Above hexParser
    plainZstd sumHash poolAtOne 1024 Database.settledUpto ((backfilled unpublished).granted 100)
      (grownEpoch.attesting poolAtOne.pool 5) := by
  refine repairsAbove_of_named repaired_named fun number hnumber => ?_
  rw [List.mem_singleton.mp hnumber]
  norm_num

end Strk20.Indexer
