import Strk20.Indexer.Publication

/-!
# Passes of the loop, and runs (`main.rs`)

A pass is an ingest phase, writes of the cutter, and at times a repair. `SiteStep` puts
the three together: what ingest and repair leave alone is all that is said of them here,
with a property `K` of the rows for results that need to know more. Runs are passes, the
operator's repairs and restarts in any order, each cut off anywhere.
-/

namespace Strk20.Indexer

open Feed Tables
open Effect (Triple lift)
open Consumer (toI64 toU64)
open Std (ExtTreeMap)
open Relation (ReflTransGen)

/-! ## Steps of a site -/

section

variable (L : Ledger) (P : FeltParser) (Z : Zstd) (pedersen : Felt → Felt → Felt)
variable (cfg : ChainConfig) (B : Anchor → Prop) (low : Database → Int) (K : Database → Prop)

/-- `low` is what repairs leave alone. -/
inductive SiteStep (s : Site) : Site → Prop
  | cut {s' : Site} (h : CutStep P Z pedersen cfg B s s') : SiteStep s s'
  | ingest {d : Database} (hK : K d)
      (h : Kept L s.database.settledUpto s.database.settledUpto s.database d) :
      SiteStep s { s with database := d }
  | repair {d : Database} (hK : K d)
      (h : Kept L (low s.database) s.database.settledUpto s.database d) :
      SiteStep s { s with database := d }

abbrev SitePath (s : Site) : Site → Prop :=
  ReflTransGen (SiteStep L P Z pedersen cfg B low K) s

end

/-- What every step takes for granted. -/
structure Sound (L : Ledger) (d : Database) : Prop where
  steady : Steady L d
  columns : d.Columns64
  settled : d.settledUpto ≤ d.finalUpto

section

variable {L : Ledger} {P : FeltParser} {Z : Zstd} {pedersen : Felt → Felt → Felt}
variable {cfg : ChainConfig} {B : Anchor → Prop} {low : Database → Int} {K : Database → Prop}
variable {s s' : Site}

theorem settledUpto_congr {d d' : Database} (h : d'.epochs = d.epochs) :
    d'.settledUpto = d.settledUpto := by
  unfold Database.settledUpto Database.lastEpoch
  rw [h]

/-- Epoch rows change by a new one at the end only. -/
theorem CutStep.epochs_cases (h : CutStep P Z pedersen cfg B s s') :
    s'.database.epochs = s.database.epochs ∨
      ∃ payload anchor cutAt, nextEpoch cfg s.database < 2 ^ 63 ∧
        nextPayload cfg s.database = some payload ∧
        s.dir.epochs[nextEpoch cfg s.database]? = some (Z.compress payload) ∧
        (cfg.epochRange (nextEpoch cfg s.database)).2 ≤ s.database.finalUpto ∧
        ((cfg.epochRange (nextEpoch cfg s.database)).2 : Int) ≤ s.database.frontier ∧
        (∀ a, anchor = some a → B a ∧ a.block = (cfg.epochRange (nextEpoch cfg s.database)).2) ∧
        s' = { s with
          database := s.database.insertEpoch (nextEpoch cfg s.database)
            (cutRec Z cfg (nextEpoch cfg s.database) s.database.lastHash payload anchor cutAt) } := by
  cases h with
  | epochRow cutAt hlt hcut hfile hfinal hscanned hanchor =>
      exact Or.inr ⟨_, _, cutAt, hlt, hcut, hfile, hfinal, hscanned, hanchor, rfl⟩
  | _ => exact Or.inl rfl

theorem settledUpto_insertEpoch {d : Database} (hcols : d.Columns64)
    (hidx : nextEpoch cfg d < 2 ^ 63) (r : EpochRec) :
    (d.insertEpoch (nextEpoch cfg d) r).settledUpto = toU64 r.toBlock := by
  unfold Database.settledUpto
  rw [lastEpoch_insertEpoch hcols hidx]

theorem CutStep.sound (h : CutStep P Z pedersen cfg B s s') (hs : Sound L s.database) :
    Sound L s'.database := by
  have hmirror := h.sameMirror
  obtain ⟨hnonneg, hsettled, hlt⟩ := hs.steady.frontier
  have hends : s'.database.settledUpto ≤ s.database.frontier ∧
      s'.database.settledUpto ≤ s.database.finalUpto := by
    rcases h.epochs_cases with hsame | ⟨payload, anchor, cutAt, hidx, -, -, hfinal, hscanned, -, rfl⟩
    · rw [settledUpto_congr hsame]
      exact ⟨hsettled, hs.settled⟩
    · have hend : toU64 (toI64 (cfg.epochRange (nextEpoch cfg s.database)).2) =
          (cfg.epochRange (nextEpoch cfg s.database)).2 := Consumer.toU64_toI64 (by omega)
      have hrow := settledUpto_insertEpoch hs.columns hidx (cutRec Z cfg
        (nextEpoch cfg s.database) s.database.lastHash payload anchor cutAt)
      simp only [cutRec, hend] at hrow ⊢
      rw [hrow]
      exact ⟨hscanned, by exact_mod_cast hfinal⟩
  refine ⟨⟨?_, hmirror.numberedBy hs.steady.numbered, hmirror.linked hs.steady.linked⟩,
    h.columns64 hs.columns, ?_⟩
  · rw [hmirror.frontier]
    exact ⟨hnonneg, hends.1, hlt⟩
  · rw [hmirror.finalUpto]
    exact hends.2

theorem Kept.sound {n m : Int} {d₀ d : Database} (h : Kept L n m d₀ d) (hm : d₀.settledUpto ≤ m)
    (hd₀ : Sound L d₀) : Sound L d := by
  obtain ⟨hnonneg, hlow, hlt⟩ := h.frontier
  have hsame := settledUpto_congr h.epochs
  have hfinal := h.final
  have hsettled := hd₀.settled
  refine ⟨⟨⟨hnonneg, ?_, hlt⟩, h.numbered, h.linked⟩, ⟨?_, ?_⟩, ?_⟩
  · rw [hsame]
    exact le_trans hm hlow
  · rw [h.epochs]
    exact hd₀.columns.epochs
  · rw [h.snapshots]
    exact hd₀.columns.snapshots
  · rw [hsame]
    omega

theorem SiteStep.sound (h : SiteStep L P Z pedersen cfg B low K s s') (hs : Sound L s.database) :
    Sound L s'.database := by
  cases h with
  | cut h => exact h.sound hs
  | ingest _ h => exact h.sound (le_refl _) hs
  | repair _ h => exact h.sound (le_refl _) hs

theorem SitePath.sound (h : SitePath L P Z pedersen cfg B low K s s') (hs : Sound L s.database) :
    Sound L s'.database := by
  induction h with
  | refl => exact hs
  | tail _ hstep ih => exact hstep.sound ih

/-! ## The recovery -/

/-- What the recovery does to a site, its repair apart: it notes and it cuts. -/
structure Recovers (J : Site → Prop) (P : FeltParser) (Z : Zstd) (pedersen : Felt → Felt → Felt)
    (rpc : RpcClient) (cfg : ChainConfig) (l1Accepted : Nat) : Prop where
  note : ∀ key value, key ∈ PUBLISH_KEYS → KeepsSite J (writeDb fun d => d.metaSet key value)
  cut : KeepsSite J (cutOnce P Z pedersen rpc cfg l1Accepted)

/-- The repair of what the walk names on a database, where it is called. -/
def RepairKeeps (J : Site → Prop) (P : FeltParser) (pedersen : Felt → Felt → Felt)
    (rpc : RpcClient) (cfg : ChainConfig) (chunkSize : Nat) (a : Attempt) (t : Publisher)
    (block : Nat) : Prop :=
  ∀ blocks, attributedBlocks P pedersen cfg a t.host.database block = some (.ok blocks) →
    Triple (Sited (· = t.site)) (onHost (reingestBlocks P rpc cfg chunkSize blocks))
      (fun _ => Sited J) (Sited J)

/-- A deadline leaves what has been written by then. -/
theorem withDeadline_triple {J J' : Site → Prop} {α : Type} {p : Publishing α}
    (deadline : Option Nat) (h : Triple (Sited J) p (fun _ => Sited J') (Sited J')) :
    Triple (Sited J) (withDeadline deadline p) (fun _ => Sited J') (Sited J') := by
  intro s hs
  unfold withDeadline
  cases deadline with
  | none =>
      have hrun := h s hs
      unfold attempt
      cases hp : p s with
      | ok a s' =>
          rw [hp] at hrun
          exact hrun
      | error e s' =>
          rw [hp] at hrun
          exact hrun
  | some writes =>
      exact Triple.final h (s := { s with
        host := { s.host with budget := min writes s.host.budget } }) hs

namespace Recovers

variable {J : Site → Prop} {rpc : RpcClient} {chunkSize : Nat} {a : Attempt} {l1Accepted : Nat}
variable {t : Publisher} (h : Recovers J P Z pedersen rpc cfg l1Accepted)
include h

theorem recordOutcome (x : Divergence) (detail : String) : KeepsSite J (recordOutcome x detail) :=
  h.note _ _ (by decide)

theorem logAndRecord (x : Divergence) (detail : String) : KeepsSite J (logAndRecord x detail) :=
  KeepsSite.attempt (h.recordOutcome x detail) fun _ => keepsSite_pure _

theorem beginAttempt (x : Divergence) : KeepsSite J (beginAttempt x) := by
  unfold Indexer.beginAttempt
  refine KeepsSite.bind (h.note _ _ (by decide)) fun _ => ?_
  refine KeepsSite.bind (h.note _ _ (by decide)) fun _ => ?_
  exact KeepsSite.bind (h.note _ _ (by decide)) fun _ => h.note _ _ (by decide)

theorem shouldLogRepeat (now interval : Nat) : KeepsSite J (shouldLogRepeat now interval) := by
  unfold Indexer.shouldLogRepeat
  refine keepsSite_viewDb fun x hx => KeepsSite.of_site ?_ hx
  refine Triple.ite (fun _ => ?_) fun _ => keepsSite_pure _
  exact KeepsSite.bind (h.note _ _ (by decide)) fun _ => keepsSite_pure _

omit h in
theorem reorgInFlight : KeepsSite J (reorgInFlight P rpc) := by
  unfold Indexer.reorgInFlight
  refine keepsSite_viewDb fun x hx => KeepsSite.of_site ?_ hx
  simp only [id]
  split
  · rename_i head stored _ _
    refine keepsSite_of (φ := fun _ => True) (onHost_quiet fun Q => ?_)
    exact (headGone_keeps head stored).weaken (fun _ h => h) fun _ _ h => ⟨trivial, h⟩
  · exact keepsSite_pure _

omit h in
theorem runClosure {block : Nat}
    (hrepair : RepairKeeps J P pedersen rpc cfg chunkSize a t block) (ht : J t.site) :
    Triple (· = t) (runClosure P pedersen rpc cfg chunkSize a block) (fun _ => Sited J) (Sited J) := by
  unfold Indexer.runClosure
  refine Triple.entails (fun s hs => congrArg Publisher.site hs) (viewDb_then ?_)
  simp only [id]
  cases hblocks : attributedBlocks P pedersen cfg a t.site.database block with
  | none => exact KeepsSite.of_site (keepsSite_pure _) ht
  | some r =>
      cases r with
      | error e => exact KeepsSite.of_site (keepsSite_pure _) ht
      | ok blocks =>
          refine Triple.bind (withDeadline_triple a.deadline (hrepair blocks hblocks)) fun r => ?_
          rcases r with - | e | u
          · exact keepsSite_pure _
          · exact keepsSite_pure _
          · exact keepsSite_pure _

theorem retryCut : KeepsSite J (retryCut P Z pedersen rpc cfg l1Accepted) := by
  unfold Indexer.retryCut
  refine KeepsSite.bind h.cut fun r => ?_
  cases r with
  | ok n => exact keepsSite_pure _
  | error e =>
      cases e
      case rootMismatch => exact KeepsSite.bind (h.logAndRecord _ _) fun _ => keepsSite_pure _
      -- any other failure is only noted, under the divergence on record
      all_goals
        refine keepsSite_viewDb fun x hx => KeepsSite.of_site ?_ hx
        split
        · exact keepsSite_pure _
        · exact KeepsSite.bind (h.logAndRecord _ _) fun _ => keepsSite_pure _

theorem recover (x : Divergence) (ht : J t.site)
    (hrepair : ∀ u, attempt (Indexer.beginAttempt x) t = .ok (.ok PUnit.unit) u → J u.site →
      RepairKeeps J P pedersen rpc cfg chunkSize a u x.block) :
    Triple (· = t) (recover P Z pedersen rpc cfg chunkSize a x l1Accepted) (fun _ => Sited J)
      (Sited J) := by
  unfold Indexer.recover
  refine attempt_ran (h.beginAttempt x) ht (fun _ u hbegun hu => ?_) fun e u hu => ?_
  · refine Triple.bind (runClosure (hrepair u hbegun hu) hu) fun r => ?_
    have hlogged : ∀ detail, KeepsSite J (do
        Indexer.logAndRecord x detail
        pure 0) := fun detail => KeepsSite.bind (h.logAndRecord x detail) fun _ => keepsSite_pure _
    cases r with
    | none => exact hlogged _
    | some r =>
        cases r with
        | ok blocks => exact h.retryCut
        | error e =>
            cases e with
            | proofUnavailable => exact hlogged _
            | _ => exact hlogged _
  · exact Triple.at_state (keepsSite_pure _) hu

/-- Whatever happens to the cut and its one attempt. The repair is looked at where the
attempt comes to it. -/
theorem cutEpochsWithRecovery (ht : J t.site)
    (hrepair : ∀ x u, closureDue P Z pedersen rpc cfg l1Accepted t = .ok (some x) u → J u.site →
      RepairKeeps J P pedersen rpc cfg chunkSize a u x.block) :
    Triple (· = t) (cutEpochsWithRecovery P Z pedersen rpc cfg chunkSize a l1Accepted)
      (fun _ => Sited J) (Sited J) := by
  unfold Indexer.cutEpochsWithRecovery
  refine Triple.bind_ran h.cut ht fun r u hcut hu => ?_
  cases r with
  | ok n => exact Triple.at_state (keepsSite_pure _) hu
  | error e =>
      cases e with
      | rootMismatch block localRoot chainRoot =>
          refine attempt_ran reorgInFlight hu (fun gone v hgone hv => ?_) fun e v hv => ?_
          · cases gone with
            -- a block that has left the chain is the reorg path's to handle
            | true => exact Triple.at_state (keepsSite_pure _) hv
            | false =>
                refine viewDb_ran ?_
                simp only [id]
                cases hdecided : v.host.database.decideRecovery ⟨block, localRoot, chainRoot⟩ with
                | skip recorded same =>
                    exact Triple.at_state
                      (KeepsSite.attempt (h.shouldLogRepeat _ _) fun _ => keepsSite_pure _) hv
                | attempt =>
                    refine h.recover _ hv fun w hbegun hw => hrepair _ w ?_ hw
                    -- `closureDue` takes the same steps up to here
                    have hview : viewDb id v = .ok v.host.database v := rfl
                    unfold closureDue
                    rw [Effect.bind_of_ok hcut]
                    simp only
                    rw [Effect.bind_of_ok hgone]
                    simp only
                    rw [Effect.bind_of_ok hview]
                    simp only [hdecided]
                    rw [Effect.bind_of_ok hbegun]
                    rfl
          · exact Triple.at_state (keepsSite_pure _) hv
      | _ => exact Triple.at_state (keepsSite_pure _) hu

end Recovers

end

/-! ## Passes go by steps -/

/-- Within a pass: `K'` is what its ingest phase has made sure of. -/
structure InPass (L : Ledger) (P : FeltParser) (Z : Zstd) (pedersen : Felt → Felt → Felt)
    (cfg : ChainConfig) (B : Anchor → Prop) (low : Database → Int) (K K' : Database → Prop)
    (x : Site) (l1Accepted : Nat) (y : Site) : Prop where
  path : SitePath L P Z pedersen cfg B low K x y
  rows : K' y.database
  final : l1Accepted ≤ y.database.finalUpto

/-- A property of the block rows. -/
def OfBlocks (K : Database → Prop) : Prop := ∀ d d' : Database, d'.blocks = d.blocks → K d → K d'

/-- What a pass may count on: endpoints that keep to what hashes commit to, proofs that
`B` covers, and repairs that keep `K'`. -/
structure PassOk (L : Ledger) (P : FeltParser) (cfg : ChainConfig) (chunkSize : Nat)
    (B : Anchor → Prop) (K K' : Database → Prop) (rpc : RpcClient) : Prop where
  names : Names L P rpc
  vouched : ∀ anchor, Vouched P rpc anchor → B anchor
  ofBlocks : OfBlocks K'
  known : ∀ d, K' d → K d
  repairs : ∀ blocks, Triple (On fun d _ => K' d) (reingestBlocks P rpc cfg chunkSize blocks)
    (fun _ => On fun d _ => K' d) (On fun d _ => K' d)

/-- Where a pass comes to a repair, `due` says where, the blocks that it names there are
above `low`. -/
def RepairsAbove (P : FeltParser) (pedersen : Felt → Felt → Felt) (cfg : ChainConfig)
    (low : Database → Int) (a : Attempt) (due : Publishing (Option Divergence)) (s : Publisher) :
    Prop :=
  ∀ x t blocks, due s = .ok (some x) t →
    attributedBlocks P pedersen cfg a t.host.database x.block = some (.ok blocks) →
      ∀ number ∈ blocks, low t.host.database < (number : Nat)

section

variable {L : Ledger} {P : FeltParser} {Z : Zstd} {pedersen : Felt → Felt → Felt}
variable {cfg : ChainConfig} {B : Anchor → Prop} {low : Database → Int} {K K' : Database → Prop}
variable {x y y' : Site} {l1Accepted : Nat} {rpc : RpcClient} {chunkSize : Nat} {a : Attempt}

theorem InPass.cut (hK' : OfBlocks K') (h : InPass L P Z pedersen cfg B low K K' x l1Accepted y)
    (hstep : CutStep P Z pedersen cfg B y y') :
    InPass L P Z pedersen cfg B low K K' x l1Accepted y' := by
  have hmirror := hstep.sameMirror
  refine ⟨ReflTransGen.tail h.path (SiteStep.cut hstep), hK' _ _ hmirror.blocks h.rows, ?_⟩
  rw [hmirror.finalUpto]
  exact h.final

/-- What the cutter's steps keep, a program that goes by them keeps. -/
theorem keepsSite_closed {J : Site → Prop} {α : Type} {p : Publishing α}
    (hJ : ∀ y y', J y → CutStep P Z pedersen cfg B y y' → J y')
    (h : ∀ y, J y → KeepsSite (CutPath P Z pedersen cfg B y) p) : KeepsSite J p := by
  have hpath : ∀ y y', J y → CutPath P Z pedersen cfg B y y' → J y' := by
    intro y y' hy hpath
    induction hpath with
    | refl => exact hy
    | tail _ hstep ih => exact hJ _ _ ih hstep
  refine sited_fixed fun y hy => ?_
  refine ((h y hy).of_site ReflTransGen.refl |>.weaken (fun _ h => h) ?_).relax ?_
  · exact fun _ s hs => hpath y s.site hy hs
  · exact fun s hs => hpath y s.site hy hs

section

variable (hok : PassOk L P cfg chunkSize B K K' rpc) (hx : Sound L x.database)
include hok

theorem inPass_closed {α : Type} {p : Publishing α}
    (h : ∀ y, InPass L P Z pedersen cfg B low K K' x l1Accepted y →
      KeepsSite (CutPath P Z pedersen cfg B y) p) :
    KeepsSite (InPass L P Z pedersen cfg B low K K' x l1Accepted) p :=
  keepsSite_closed (fun _ _ hy hstep => hy.cut hok.ofBlocks hstep) h

include hx

theorem cutOnce_inPass :
    KeepsSite (InPass L P Z pedersen cfg B low K K' x l1Accepted)
      (cutOnce P Z pedersen rpc cfg l1Accepted) := by
  refine inPass_closed hok fun y hy => ?_
  have hsound := SitePath.sound hy.path hx
  obtain ⟨hnonneg, -, hlt⟩ := hsound.steady.frontier
  have hcut : ∀ z, CutPath P Z pedersen cfg B y z → KeepsSite (CutPath P Z pedersen cfg B y)
      (cutReadyEpochs P Z pedersen rpc cfg l1Accepted (z.database.cursor.getD 0)) := by
    intro z hz
    have hmirror := CutPath.sameMirror hz
    have hcursor : ((z.database.cursor.getD 0 : Nat) : Int) = y.database.frontier := by
      rw [← hmirror.frontier] at hnonneg hlt ⊢
      unfold Database.frontier Database.cursor at *
      cases hc : z.database.ingestCursor with
      | none => rfl
      | some f =>
          rw [hc] at hnonneg hlt
          simp only [Option.getD_some, Option.map_some] at hnonneg hlt ⊢
          unfold toU64
          omega
    exact cutReadyEpochs_stays hok.vouched hsound.columns hy.final hcursor.le (by omega)
  unfold cutOnce
  refine keepsSite_viewDb fun z hz => ?_
  exact ((hcut z hz).caught).of_site hz

theorem recovers_inPass :
    Recovers (InPass L P Z pedersen cfg B low K K' x l1Accepted) P Z pedersen rpc cfg l1Accepted where
  note := fun _ value hkey => inPass_closed hok fun _ _ => metaSet_stays value hkey
  cut := cutOnce_inPass hok hx

/-- A repair above `low` is one step. -/
theorem repair_inPass (hy : InPass L P Z pedersen cfg B low K K' x l1Accepted y)
    {blocks : List Nat} (habove : ∀ number ∈ blocks, low y.database < (number : Nat)) :
    Triple (Sited (· = y)) (onHost (reingestBlocks P rpc cfg chunkSize blocks))
      (fun _ => Sited (InPass L P Z pedersen cfg B low K K' x l1Accepted))
      (Sited (InPass L P Z pedersen cfg B low K K' x l1Accepted)) := by
  have hsound := SitePath.sound hy.path hx
  have hkeeps : Triple (On (Keeps L (low y.database) y.database.settledUpto y.database))
      (reingestBlocks P rpc cfg chunkSize blocks)
      (fun _ => On (Keeps L (low y.database) y.database.settledUpto y.database))
      (On (Keeps L (low y.database) y.database.settledUpto y.database)) :=
    reingestBlocks_keeps hok.names habove
  have hboth := hkeeps.both (hok.repairs blocks)
  have hafter : ∀ d, Kept L (low y.database) y.database.settledUpto y.database d ∧ K' d →
      InPass L P Z pedersen cfg B low K K' x l1Accepted ⟨d, y.dir⟩ := by
    rintro d ⟨hkept, hd⟩
    exact ⟨ReflTransGen.tail hy.path (SiteStep.repair (hok.known d hd) hkept), hd,
      le_trans hy.final hkept.final⟩
  refine onHost_triple ((hboth.weaken (fun h hd => ?_) fun _ h hd => hafter _ hd).relax
    fun h hd => hafter _ hd)
  have hd : h.database = y.database := hd
  show Kept L (low y.database) y.database.settledUpto y.database h.database ∧ K' h.database
  rw [hd]
  exact ⟨Kept.start hsound.steady.frontier hsound.steady.numbered hsound.steady.linked, hy.rows⟩

/-- The cut of a pass with its recovery, if what it repairs is above `low`. -/
theorem recovery_inPass {t : Publisher}
    (ht : InPass L P Z pedersen cfg B low K K' x l1Accepted t.site)
    (habove : RepairsAbove P pedersen cfg low a (closureDue P Z pedersen rpc cfg l1Accepted) t) :
    Triple (· = t) (cutEpochsWithRecovery P Z pedersen rpc cfg chunkSize a l1Accepted)
      (fun _ => Sited (InPass L P Z pedersen cfg B low K K' x l1Accepted))
      (Sited (InPass L P Z pedersen cfg B low K K' x l1Accepted)) :=
  (recovers_inPass hok hx).cutEpochsWithRecovery ht fun z u hdue hu blocks hblocks =>
    repair_inPass hok hx hu (habove z u blocks hdue hblocks)

end

/-- The ingest phase of a pass is one step. -/
theorem cycle_inPass (hok : PassOk L P cfg chunkSize B K K' rpc)
    (hx : Sound L x.database) {target : BlockRef} {announced : Option BlockHeader}
    (hcycle : ∀ p, Triple (On (Is x.database p)) (runCycleBound P rpc cfg chunkSize target announced)
      (fun _ => On fun d _ => K' d) (On fun d _ => K d)) :
    Triple (Sited (· = x)) (onHost (runCycleBound P rpc cfg chunkSize target announced))
      (fun o => Sited (InPass L P Z pedersen cfg B low K K' x o.l1Accepted))
      (Sited (SitePath L P Z pedersen cfg B low K x)) := by
  refine onHost_triple (on_fixed fun d p hd => ?_)
  subst hd
  refine (((runCycleBound_keeps hok.names target announced hx.steady).both (hcycle p)).weaken (fun h hd => ⟨hd, hd⟩) ?_).relax ?_
  · rintro o h ⟨⟨hkept, hfinal⟩, hd⟩
    exact ⟨ReflTransGen.single (SiteStep.ingest (hok.known _ hd) hkept), hd, hfinal⟩
  · rintro h ⟨hkept, hd⟩
    exact ReflTransGen.single (SiteStep.ingest hd hkept)

/-- What is done after the ingest phase. -/
theorem afterCycle_path {α : Type} {p : Publishing α} {J : Publisher → Prop}
    (hp : Triple J p (fun _ => Sited (InPass L P Z pedersen cfg B low K K' x l1Accepted))
      (Sited (InPass L P Z pedersen cfg B low K K' x l1Accepted))) :
    Triple J p (fun _ => Sited (SitePath L P Z pedersen cfg B low K x))
      (Sited (SitePath L P Z pedersen cfg B low K x)) :=
  (hp.weaken (fun _ hs => hs) fun _ _ h => h.path).relax fun _ h => h.path

section

variable {s : Publisher} (hok : PassOk L P cfg chunkSize B K K' rpc)
variable (hs : Sound L s.host.database)
include hok hs

/-- **A pass goes by steps**, wherever it stops. -/
theorem runPass_path {head : Option BlockHeader}
    (hcycle : ∀ p, Triple (On (Is s.host.database p)) (runCycleAnnounced P rpc cfg chunkSize head)
      (fun _ => On fun d _ => K' d) (On fun d _ => K d))
    (habove : RepairsAbove P pedersen cfg low a (passDue P Z pedersen rpc cfg chunkSize head) s) :
    Triple (· = s) (runPass P Z pedersen rpc cfg chunkSize a head)
      (fun _ => Sited (SitePath L P Z pedersen cfg B low K s.site))
      (Sited (SitePath L P Z pedersen cfg B low K s.site)) := by
  have hx : Sound L s.site.database := hs
  have hingest : Triple (Sited (· = s.site)) (onHost (runCycleAnnounced P rpc cfg chunkSize head))
      (fun o => Sited (InPass L P Z pedersen cfg B low K K' s.site o.l1Accepted))
      (Sited (SitePath L P Z pedersen cfg B low K s.site)) := cycle_inPass hok hx hcycle
  unfold runPass
  refine attempt_ran hingest rfl (fun o t hran ht => ?_) fun e t ht => ?_
  · have hregen : KeepsSite (InPass L P Z pedersen cfg B low K K' s.site o.l1Accepted)
        (regenHead P cfg) := inPass_closed hok fun _ _ => regenHead_stays
    have hanchors : KeepsSite (InPass L P Z pedersen cfg B low K K' s.site o.l1Accepted)
        (writeAnchors cfg) := inPass_closed hok fun _ _ => writeAnchors_stays
    refine afterCycle_path (?_ : Triple _ _
      (fun _ => Sited (InPass L P Z pedersen cfg B low K K' s.site o.l1Accepted)) _)
    refine Triple.bind_ran (keepsSite_onlyIf _ hregen) ht fun _ u hhead hu => ?_
    refine Triple.bind_ran (keepsSite_onlyIf _ hanchors) hu fun _ v hlog hv => ?_
    refine Triple.bind (recovery_inPass hok hx hv fun z w blocks hdue => ?_) fun n =>
      keepsSite_onlyIf _ hregen
    -- `passDue` has come through the same ingest, head and log
    refine habove z w blocks ?_
    unfold passDue
    rw [Effect.bind_of_ok hran]
    simp only
    rw [Effect.bind_of_ok hhead, Effect.bind_of_ok hlog]
    exact hdue
  · -- a failed ingest ends the pass
    exact Triple.at_state (Triple.pure fun _ h => h) ht

theorem backfillPass_path
    (hcycle : ∀ p, Triple (On (Is s.host.database p)) (runCycle P rpc cfg chunkSize)
      (fun _ => On fun d _ => K' d) (On fun d _ => K d))
    (habove : RepairsAbove P pedersen cfg low a (backfillDue P Z pedersen rpc cfg chunkSize) s) :
    Triple (· = s) (backfillPass P Z pedersen rpc cfg chunkSize a)
      (fun _ => Sited (SitePath L P Z pedersen cfg B low K s.site))
      (Sited (SitePath L P Z pedersen cfg B low K s.site)) := by
  have hx : Sound L s.site.database := hs
  have hingest : Triple (Sited (· = s.site)) (onHost (runCycle P rpc cfg chunkSize))
      (fun o => Sited (InPass L P Z pedersen cfg B low K K' s.site o.l1Accepted))
      (Sited (SitePath L P Z pedersen cfg B low K s.site)) := cycle_inPass hok hx hcycle
  unfold backfillPass
  refine Triple.bind_ran hingest rfl fun o t hran ht => ?_
  have hregen : KeepsSite (InPass L P Z pedersen cfg B low K K' s.site o.l1Accepted)
      (regenHead P cfg) := inPass_closed hok fun _ _ => regenHead_stays
  refine afterCycle_path (?_ : Triple _ _
    (fun _ => Sited (InPass L P Z pedersen cfg B low K K' s.site o.l1Accepted)) _)
  refine Triple.bind (recovery_inPass hok hx ht fun z w blocks hdue => ?_) fun n => ?_
  · refine habove z w blocks ?_
    unfold backfillDue
    rw [Effect.bind_of_ok hran]
    exact hdue
  · refine keepsSite_viewDb fun y hy => KeepsSite.of_site ?_ hy
    exact KeepsSite.bind hregen fun _ => keepsSite_pure _

end

end

end Strk20.Indexer
