import Strk20.Indexer.Daemon
import Strk20.Indexer.Settled

/-!
# Publication, one write at a time (`cutter.rs`)

What a publisher has stored is a site: its database and its directory. `CutStep` lists
the writes that the cutter can do to a site, each with what has to be the case where it
is done. The cutter's functions go from site to site by such steps alone, wherever they
stop, so what every step keeps is kept by all of them.
-/

namespace Strk20.Indexer

open Feed Feed.Codec Tables
open Effect (Triple lift)
open Consumer (toI64 toU64)
open Std (ExtTreeMap)
open Relation (ReflTransGen)

/-! ## Publishers and their sites -/

def Publisher.site (s : Publisher) : Site := ⟨s.host.database, s.dir⟩

/-- A predicate on what is stored. -/
def Sited (J : Site → Prop) : Publisher → Prop := fun s => J s.site

section

variable {α β : Type} {J J' E : Site → Prop} {x : Site} {post : β → Publisher → Prop}
variable {exc : Publisher → Prop}

theorem sited_fixed {p : Publishing β} (h : ∀ x, J x → Triple (Sited (· = x)) p post exc) :
    Triple (Sited J) p post exc :=
  fun s hs => h s.site hs s rfl

/-- The process works on the database and leaves the directory. -/
theorem onHost_triple {y : Indexing α} {R : α → Site → Prop}
    (h : Triple (On fun d _ => d = x.database) y (fun a => On fun d _ => R a ⟨d, x.dir⟩)
      (On fun d _ => E ⟨d, x.dir⟩)) :
    Triple (Sited (· = x)) (onHost y) (fun a => Sited (R a)) (Sited E) := by
  rintro s rfl
  have hrun := h s.host rfl
  unfold onHost
  cases hy : y s.host with
  | ok a host =>
      rw [hy] at hrun
      exact hrun
  | error e host =>
      rw [hy] at hrun
      exact hrun

/-- Something that only reads. -/
theorem onHost_quiet {y : Indexing α} {φ : α → Prop}
    (h : ∀ Q, Triple (On Q) y (fun a h => φ a ∧ On Q h) (On Q)) :
    Triple (Sited J) (onHost y) (fun a s => φ a ∧ Sited J s) (Sited J) := by
  refine sited_fixed fun x hx => ?_
  have hquiet : Triple (Sited (· = x)) (onHost y) (fun a => Sited fun x' => φ a ∧ x' = x)
      (Sited (· = x)) := by
    refine onHost_triple ?_
    refine ((h fun d _ => d = x.database).weaken (fun _ h => h) ?_).relax ?_
    · rintro a host ⟨ha, hd⟩
      have hd : host.database = x.database := hd
      exact ⟨ha, by rw [hd]⟩
    · intro host hd
      have hd : host.database = x.database := hd
      show (⟨host.database, x.dir⟩ : Site) = x
      rw [hd]
  refine (hquiet.weaken (fun _ h => h) ?_).relax ?_
  · rintro a s ⟨ha, hs⟩
    refine ⟨ha, ?_⟩
    show J s.site
    rw [hs]
    exact hx
  · intro s hs
    have hs : s.site = x := hs
    show J s.site
    rw [hs]
    exact hx

theorem ask_quiet (answer : Nat → Except Failure α) :
    Triple (Sited J) (onHost (ask answer)) (fun a s => (∃ t, answer t = .ok a) ∧ Sited J s)
      (Sited J) :=
  onHost_quiet fun _ => ask_triple answer

theorem writeDb_triple {f : Database → Database}
    (h : ∀ x, J x → J' { x with database := f x.database }) :
    Triple (Sited J) (writeDb f) (fun _ => Sited J') (Sited J) := by
  refine sited_fixed fun x hx => ?_
  refine ((onHost_triple (R := fun _ => J') (E := (· = x)) ?_).weaken (fun _ h => h)
    fun _ _ h => h).relax ?_
  · refine (write_triple (R := fun d _ => d = f x.database) ?_).weaken (fun _ h => h) ?_ |>.relax ?_
    · rintro d p rfl
      rfl
    · intro _ host hd
      have hd : host.database = f x.database := hd
      show J' ⟨host.database, x.dir⟩
      rw [hd]
      exact h x hx
    · intro host hd
      have hd : host.database = x.database := hd
      show (⟨host.database, x.dir⟩ : Site) = x
      rw [hd]
  · intro s hs
    have hs : s.site = x := hs
    show J s.site
    rw [hs]
    exact hx

theorem publish_triple {f : Publisher → Publisher} (h : ∀ s, J s.site → J' (f s).site)
    (hhost : ∀ s, (f s).host = s.host) :
    Triple (Sited J) (publish f) (fun _ => Sited J') (Sited J) := by
  intro s hs
  unfold publish
  cases s.host.budget with
  | zero => exact hs
  | succ n =>
      show J' ⟨s.host.database, (f s).dir⟩
      rw [← hhost s]
      exact h s hs

theorem putDir_triple {f : FeedDir → FeedDir} (h : ∀ x, J x → J' { x with dir := f x.dir }) :
    Triple (Sited J) (putDir f) (fun _ => Sited J') (Sited J) :=
  publish_triple (fun s hs => h s.site hs) fun _ => rfl

theorem viewDb_then {g : Database → α} {p : α → Publishing β}
    (h : Triple (Sited (· = x)) (p (g x.database)) post exc) :
    Triple (Sited (· = x)) (viewDb g >>= p) post exc := by
  rintro s rfl
  have hview : viewDb g s = .ok (g s.host.database) s := rfl
  rw [Effect.bind_of_ok hview]
  exact h s rfl

theorem lift_sited {r : Except Failure α} :
    Triple (Sited J) (lift r : Publishing α) (fun a s => r = .ok a ∧ Sited J s) (Sited J) :=
  Triple.lift (fun _ _ hr hs => ⟨hr, hs⟩) fun _ hs => hs

theorem viewDb_ran {g : Database → α} {p : α → Publishing β} {s : Publisher}
    (h : Triple (· = s) (p (g s.host.database)) post exc) :
    Triple (· = s) (viewDb g >>= p) post exc := by
  rintro t rfl
  have hview : viewDb g t = .ok (g t.host.database) t := rfl
  rw [Effect.bind_of_ok hview]
  exact h t rfl

/-- Both ways out of a call that is caught. -/
theorem attempt_then {pre fail : Publisher → Prop} {mid : α → Publisher → Prop}
    {y : Publishing α} {p : Except Failure α → Publishing β} (hy : Triple pre y mid fail)
    (hok : ∀ a, Triple (mid a) (p (.ok a)) post exc)
    (herror : ∀ e, Triple fail (p (.error e)) post exc) : Triple pre (attempt y >>= p) post exc := by
  intro s hs
  have hrun := hy s hs
  cases hys : y s with
  | ok a s' =>
      rw [hys] at hrun
      have hattempt : attempt y s = .ok (.ok a) s' := by
        unfold attempt
        rw [hys]
      rw [Effect.bind_of_ok hattempt]
      exact hok a s' hrun
  | error e s' =>
      rw [hys] at hrun
      have hattempt : attempt y s = .ok (.error e) s' := by
        unfold attempt
        rw [hys]
      rw [Effect.bind_of_ok hattempt]
      exact herror e s' hrun

/-- The same from a known state. -/
theorem attempt_ran {pre fail : Publisher → Prop} {mid : α → Publisher → Prop} {y : Publishing α}
    {p : Except Failure α → Publishing β} {s : Publisher} (hy : Triple pre y mid fail) (hs : pre s)
    (hok : ∀ a t, attempt y s = .ok (.ok a) t → mid a t → Triple (· = t) (p (.ok a)) post exc)
    (herror : ∀ e t, fail t → Triple (· = t) (p (.error e)) post exc) :
    Triple (· = s) (attempt y >>= p) post exc := by
  rintro t rfl
  cases hyt : y t with
  | ok a u =>
      have hattempt : attempt y t = .ok (.ok a) u := by
        unfold attempt
        rw [hyt]
      rw [Effect.bind_of_ok hattempt]
      exact hok a u hattempt (hy.ok hs hyt) u rfl
  | error e u =>
      have hattempt : attempt y t = .ok (.error e) u := by
        unfold attempt
        rw [hyt]
      rw [Effect.bind_of_ok hattempt]
      exact herror e u (hy.error hs hyt) u rfl

end

/-! ## Writes of the cutter -/

/-- Metas that the cutter and the recovery write. -/
def PUBLISH_KEYS : List String :=
  ["verify_root_failed", "anchor_probe_frontier", PROBE_EPOCH_KEY, PROBE_ATTEMPTS_KEY,
    DIVERGENCE_KEY, ATTEMPTS_KEY, REASON_KEY, LOGGED_AT_KEY]

/-- Content hash that the next epoch is chained to. -/
def Database.lastHash (d : Database) : Option Key := d.lastEpoch.map fun e => e.2.1

section

variable (P : FeltParser) (Z : Zstd) (pedersen : Felt → Felt → Felt) (cfg : ChainConfig)
variable (B : Anchor → Prop)

/-- What the next epoch is encoded to. -/
def nextPayload (d : Database) : Option ByteArray :=
  encodeEpoch (buildEpoch cfg d (nextEpoch cfg d) d.lastHash)

/-- A snapshot that may be published: of the newest epoch, which has none yet, with the
latch down, and grounded in an anchor of its own block or in one above. -/
structure Grounded (d : Database) (snap : Snapshot) (anchor : Option Anchor) : Prop where
  newest : ∃ contentHash,
    d.lastEpoch = some (snap.header.epoch, contentHash, snap.header.block) ∧
      snap = buildSnapshot pedersen cfg d snap.header.epoch contentHash snap.header.block
  fresh : ∀ s ∈ d.snapshotRows, s.e ≠ snap.header.epoch
  unlatched : d.metaGet "verify_root_failed" ≠ some "1"
  rooted : ∀ a, anchor = some a → B a ∧ a.block = snap.header.block ∧
    a.storageRoot = snap.header.storageRoot
  reached : anchor = none → reachable d snap.header.block = true

/-- One write of the cutter. `B` is what proofs vouch for. -/
inductive CutStep (s : Site) : Site → Prop
  | note (key value : String) (hkey : key ∈ PUBLISH_KEYS) :
      CutStep s { s with database := s.database.metaSet key value }
  | anchor (a : Anchor) (ha : B a) : CutStep s { s with database := s.database.insertAnchor a }
  | pruneAnchors : CutStep s { s with database := s.database.pruneAnchors }
  | layout : CutStep s (Write.layout.apply cfg s)
  | manifest : CutStep s (Write.manifest.apply cfg s)
  | head {payload : ByteArray}
      (hhead : ∃ head, buildHead cfg s.database P = .ok head ∧ encodeHead head = some payload) :
      CutStep s { s with dir := { s.dir with head := some payload } }
  | epochFile {payload : ByteArray} (hcut : nextPayload cfg s.database = some payload) :
      CutStep s { s with
        dir := { s.dir with
          epochs := s.dir.epochs.insert (nextEpoch cfg s.database) (Z.compress payload) } }
  | epochRow {payload : ByteArray} {anchor : Option Anchor} (cutAt : Nat)
      (hlt : nextEpoch cfg s.database < 2 ^ 63) (hcut : nextPayload cfg s.database = some payload)
      (hfile : s.dir.epochs[nextEpoch cfg s.database]? = some (Z.compress payload))
      (hfinal : (cfg.epochRange (nextEpoch cfg s.database)).2 ≤ s.database.finalUpto)
      (hscanned : ((cfg.epochRange (nextEpoch cfg s.database)).2 : Int) ≤ s.database.frontier)
      (hanchor : ∀ a, anchor = some a → B a ∧ a.block = (cfg.epochRange (nextEpoch cfg s.database)).2) :
      CutStep s { s with
        database := s.database.insertEpoch (nextEpoch cfg s.database)
          (cutRec Z cfg (nextEpoch cfg s.database) s.database.lastHash payload anchor cutAt) }
  | snapshotFile {snap : Snapshot} {anchor : Option Anchor}
      (hgrounded : Grounded pedersen cfg B s.database snap anchor) :
      CutStep s { s with
        dir := { s.dir with
          snapshots := s.dir.snapshots.insert (snapshotEntry Z snap anchor).file
            (Z.compress (Snapshot.encode snap)) } }
  | snapshotRow {snap : Snapshot} {anchor : Option Anchor}
      (hgrounded : Grounded pedersen cfg B s.database snap anchor)
      (hfile : s.dir.snapshots[(snapshotEntry Z snap anchor).file]? =
        some (Z.compress (Snapshot.encode snap))) :
      CutStep s { s with database := s.database.insertSnapshot P (snapshotEntry Z snap anchor) }
  | dropFile {old : SnapshotEntry} {rest : List SnapshotEntry}
      (hrows : s.database.snapshotRows = old :: rest) (hkeep : SNAPSHOT_KEEP ≤ rest.length) :
      CutStep s { s with dir := { s.dir with snapshots := s.dir.snapshots.erase old.file } }
  | dropRow {old : SnapshotEntry} {rest : List SnapshotEntry}
      (hrows : s.database.snapshotRows = old :: rest) (hkeep : SNAPSHOT_KEEP ≤ rest.length) :
      CutStep s { s with database := s.database.deleteSnapshot old.e }

/-- Sites that such writes lead to. -/
abbrev CutPath (s : Site) : Site → Prop := ReflTransGen (CutStep P Z pedersen cfg B) s

end

/-! ### What they leave alone -/

/-- The mirror is the same: published rows, anchors and the cutter's metas apart. -/
structure SameMirror (d d' : Database) : Prop where
  blocks : d'.blocks = d.blocks
  storageLog : d'.storageLog = d.storageLog
  events : d'.events = d.events
  classHistory : d'.classHistory = d.classHistory
  ingestCursor : d'.ingestCursor = d.ingestCursor
  seenHeads : d'.seenHeads = d.seenHeads
  metas : ∀ key, key ∉ PUBLISH_KEYS → d'.metaGet key = d.metaGet key

namespace SameMirror

variable {d d' d'' : Database}

theorem refl (d : Database) : SameMirror d d := ⟨rfl, rfl, rfl, rfl, rfl, rfl, fun _ _ => rfl⟩

theorem trans (h : SameMirror d d') (h' : SameMirror d' d'') : SameMirror d d'' :=
  ⟨h'.blocks.trans h.blocks, h'.storageLog.trans h.storageLog, h'.events.trans h.events,
    h'.classHistory.trans h.classHistory, h'.ingestCursor.trans h.ingestCursor,
    h'.seenHeads.trans h.seenHeads, fun key hkey => (h'.metas key hkey).trans (h.metas key hkey)⟩

theorem finalUpto (h : SameMirror d d') : d'.finalUpto = d.finalUpto := by
  unfold Database.finalUpto Database.metaU64
  rw [h.metas _ (by decide)]

theorem frontier (h : SameMirror d d') : d'.frontier = d.frontier := by
  unfold Database.frontier
  rw [h.ingestCursor]

theorem numberedBy {L : Ledger} (h : SameMirror d d') (hd : d.NumberedBy L) : d'.NumberedBy L := by
  intro k r hr
  rw [h.blocks] at hr
  exact hd k r hr

theorem linked (h : SameMirror d d') (hd : d.Linked) : d'.Linked := by
  refine ⟨fun slot n hs => ?_, fun n i hs => ?_⟩
  · rw [h.storageLog] at hs
    rw [h.blocks]
    exact hd.storage slot n hs
  · unfold Database.eventRec at hs
    rw [h.events] at hs
    rw [h.blocks]
    exact hd.events n i hs

end SameMirror

section

variable {P : FeltParser} {Z : Zstd} {pedersen : Felt → Felt → Felt} {cfg : ChainConfig}
variable {B : Anchor → Prop} {s s' : Site}

theorem CutStep.sameMirror (h : CutStep P Z pedersen cfg B s s') :
    SameMirror s.database s'.database := by
  cases h with
  | note key value hkey =>
      refine ⟨rfl, rfl, rfl, rfl, rfl, rfl, fun key' hkey' => ?_⟩
      rw [metaGet_metaSet, if_neg]
      rintro rfl
      exact hkey' hkey
  | _ => exact ⟨rfl, rfl, rfl, rfl, rfl, rfl, fun _ _ => rfl⟩

theorem CutPath.sameMirror (h : CutPath P Z pedersen cfg B s s') :
    SameMirror s.database s'.database := by
  induction h with
  | refl => exact SameMirror.refl _
  | tail _ hstep ih => exact ih.trans hstep.sameMirror

end

/-! ## Proofs -/

/-- An answer that names the hash of the block it is for, as a header does. -/
structure BoundProof (P : FeltParser) (rpc : RpcClient) (block : Nat) (hash : Felt)
    (proof : StorageProof) : Prop where
  answered : ∃ t, rpc.getStorageProof t block = .ok proof
  claimed : ∃ text, proof.blockHash = some text ∧ parseFelt P text = .ok hash
  header : ∃ t header, rpc.getBlock t (.number block) = .ok header ∧
    parseFelt P header.blockHash = .ok hash

/-- An anchor read off such an answer. -/
def Vouched (P : FeltParser) (rpc : RpcClient) (a : Anchor) : Prop :=
  a.block < 2 ^ 64 ∧ ∃ proof leaf, BoundProof P rpc a.block a.blockHash proof ∧
    proof.contractLeavesData.head? = some leaf ∧ parseFelt P leaf.storageRoot = .ok a.storageRoot ∧
      parseFelt P leaf.classHash = .ok a.classHash

section

variable {P : FeltParser} {pedersen : Felt → Felt → Felt} {rpc : RpcClient} {J : Site → Prop}

theorem anchorBlockHash_bound {block : Nat} {hash f : Felt} {proof : StorageProof}
    (h : BoundProof P rpc block hash proof) (hf : anchorBlockHash P proof = .ok f) : f = hash := by
  obtain ⟨text, htext, hparse⟩ := h.claimed
  unfold anchorBlockHash at hf
  rw [htext] at hf
  exact Except.ok.inj (hf.symm.trans hparse)

theorem boundProof_triple (block attempts : Nat) :
    Triple (Sited J) (boundProofLoop P rpc block attempts)
      (fun proof s => (∃ hash, BoundProof P rpc block hash proof) ∧ Sited J s) (Sited J) := by
  induction attempts with
  | zero => exact Triple.throw fun _ h => h
  | succ attempts ih =>
      unfold boundProofLoop
      refine Triple.bind (ask_quiet _) fun proof => Triple.of_and fun hproof => ?_
      refine Triple.bind (ask_quiet _) fun header => Triple.of_and ?_
      rintro ⟨t, hheader⟩
      refine Triple.bind lift_sited fun chainHash => Triple.of_and fun hchain => ?_
      cases hhash : proof.blockHash with
      | none => exact Triple.throw fun _ h => h
      | some text =>
          refine Triple.bind lift_sited fun claimed => Triple.of_and fun hclaimed => ?_
          refine Triple.ite (fun hsame => Triple.pure fun _ h => ⟨?_, h⟩) fun _ => ih
          exact ⟨chainHash, hproof, ⟨text, hhash, hsame ▸ hclaimed⟩, t, header, hheader, hchain⟩

theorem storageRootAt_quiet (block : Nat) :
    Triple (Sited J) (onHost (storageRootAt pedersen block)) (fun _ => Sited J) (Sited J) := by
  have h : Triple (Sited J) (onHost (storageRootAt pedersen block))
      (fun _ s => True ∧ Sited J s) (Sited J) := by
    refine onHost_quiet fun Q host hQ => ?_
    unfold storageRootAt
    generalize host.caches.storageRootAt pedersen host.database block = r
    obtain ⟨r | r, caches⟩ := r
    · exact hQ
    · exact ⟨trivial, hQ⟩
  exact h.weaken (fun _ h => h) fun _ _ h => h.2

/-- A root that agrees with a proof bound to the block. -/
theorem verifyRoot_triple {block : Nat} (hlt : block < 2 ^ 64) :
    Triple (Sited J) (verifyRoot P pedersen rpc block)
      (fun a s => (Vouched P rpc a ∧ a.block = block) ∧ Sited J s) (Sited J) := by
  unfold verifyRoot
  refine Triple.bind (storageRootAt_quiet block) fun localRoot => ?_
  refine Triple.bind (boundProof_triple block _) fun proof => Triple.of_and ?_
  rintro ⟨hash, hbound⟩
  cases hleaf : proof.contractLeavesData.head? with
  | none => exact Triple.throw fun _ h => h
  | some leaf =>
      refine Triple.bind lift_sited fun remoteRoot => Triple.of_and fun hremote => ?_
      refine Triple.bind lift_sited fun classHash => Triple.of_and fun hclass => ?_
      refine Triple.ite (fun _ => Triple.throw fun _ h => h) fun _ => ?_
      refine Triple.bind lift_sited fun blockHash => Triple.of_and fun hhash => ?_
      refine Triple.pure fun _ h => ⟨⟨⟨hlt, proof, leaf, ?_, hleaf, hremote, hclass⟩, rfl⟩, h⟩
      rw [anchorBlockHash_bound hbound hhash]
      exact hbound

theorem verifyRootAtTarget_triple {frontier : Nat} (hlt : frontier < 2 ^ 64) :
    Triple (Sited J) (verifyRootAtTarget P pedersen rpc frontier)
      (fun o s => (∀ a, o = .verified a → Vouched P rpc a) ∧ Sited J s) (Sited J) := by
  have hrest : ∀ head : Nat, Triple (Sited J)
      (attempt (verifyRoot P pedersen rpc (min frontier head)) >>= verifyOutcome)
      (fun o s => (∀ a, o = .verified a → Vouched P rpc a) ∧ Sited J s) (Sited J) := by
    intro head
    refine attempt_then (verifyRoot_triple (by omega)) (fun a => Triple.of_and fun ha => ?_) fun e => ?_
    · refine Triple.pure fun _ h => ⟨fun a' heq => ?_, h⟩
      cases heq
      exact ha.1
    · have hunavailable : ∀ s, Sited J s →
          (∀ a, VerifyOutcome.unavailable = .verified a → Vouched P rpc a) ∧ Sited J s :=
        fun _ h => ⟨fun _ heq => (by cases heq), h⟩
      unfold verifyOutcome
      cases e with
      | proofUnavailable => exact Triple.pure hunavailable
      | _ => exact Triple.throw fun _ h => h
  unfold verifyRootAtTarget
  refine attempt_then (ask_quiet _) (fun header => Triple.of_and fun _ => ?_) fun e => ?_
  · exact hrest header.blockNumber
  · exact hrest frontier

theorem epochAnchor_triple {last : Nat} (hlt : last < 2 ^ 64) :
    Triple (Sited J) (epochAnchor P rpc last)
      (fun r s => (∀ a, r = some a → Vouched P rpc a ∧ a.block = last) ∧ Sited J s) (Sited J) := by
  have hnone : ∀ s, Sited J s →
      (∀ a, (none : Option Anchor) = some a → Vouched P rpc a ∧ a.block = last) ∧ Sited J s :=
    fun _ h => ⟨fun _ heq => (by cases heq), h⟩
  unfold epochAnchor
  refine attempt_then (boundProof_triple last _) (fun proof => Triple.of_and ?_) fun e => ?_
  · rintro ⟨hash, hbound⟩
    simp only
    cases hleaf : proof.contractLeavesData.head? with
    | none => exact Triple.pure hnone
    | some leaf =>
        refine Triple.bind lift_sited fun blockHash => Triple.of_and fun hhash => ?_
        refine Triple.bind lift_sited fun storageRoot => Triple.of_and fun hroot => ?_
        refine Triple.bind lift_sited fun classHash => Triple.of_and fun hclass => ?_
        refine Triple.pure fun _ h => ⟨fun a heq => ?_, h⟩
        cases heq
        refine ⟨⟨hlt, proof, leaf, ?_, hleaf, hroot, hclass⟩, rfl⟩
        rw [anchorBlockHash_bound hbound hhash]
        exact hbound
  · cases e with
    | proofUnbound => exact Triple.throw fun _ h => h
    | _ => exact Triple.pure hnone

end

/-! ## Programs that keep a property of the site -/

/-- Wherever it starts and wherever it stops. -/
def KeepsSite (J : Site → Prop) {α : Type} (p : Publishing α) : Prop :=
  Triple (Sited J) p (fun _ => Sited J) (Sited J)

section

variable {J : Site → Prop} {x : Site} {α β : Type}

theorem keepsSite_pure (a : α) : KeepsSite J (pure a : Publishing α) := Triple.pure fun _ h => h

theorem keepsSite_throw (e : Failure) : KeepsSite J (throw e : Publishing α) :=
  Triple.throw fun _ h => h

theorem KeepsSite.bind {p : Publishing α} {f : α → Publishing β} (hp : KeepsSite J p)
    (hf : ∀ a, KeepsSite J (f a)) : KeepsSite J (p >>= f) := Triple.bind hp hf

theorem keepsSite_of {φ : α → Prop} {p : Publishing α}
    (h : Triple (Sited J) p (fun a s => φ a ∧ Sited J s) (Sited J)) : KeepsSite J p :=
  h.weaken (fun _ h => h) fun _ _ h => h.2

theorem keepsSite_lift (r : Except Failure α) : KeepsSite J (lift r : Publishing α) :=
  keepsSite_of lift_sited

/-- What depends on what is stored now. -/
theorem keepsSite_viewDb {g : Database → α} {p : α → Publishing β}
    (h : ∀ x, J x → Triple (Sited (· = x)) (p (g x.database)) (fun _ => Sited J) (Sited J)) :
    KeepsSite J (viewDb g >>= p) :=
  sited_fixed fun x hx => viewDb_then (h x hx)

theorem KeepsSite.of_site {p : Publishing α} (h : KeepsSite J p) (hx : J x) :
    Triple (Sited (· = x)) p (fun _ => Sited J) (Sited J) := by
  refine Triple.weaken h (fun s hs => ?_) fun _ _ h => h
  have hs : s.site = x := hs
  show J s.site
  rw [hs]
  exact hx

/-- A call that is caught. -/
theorem KeepsSite.attempt {p : Publishing α} {f : Except Failure α → Publishing β}
    (hp : KeepsSite J p) (hf : ∀ r, KeepsSite J (f r)) : KeepsSite J (attempt p >>= f) :=
  attempt_then hp (fun a => hf (.ok a)) fun e => hf (.error e)

theorem KeepsSite.caught {p : Publishing α} (hp : KeepsSite J p) :
    KeepsSite J (Indexer.attempt p) := by
  have hbound : KeepsSite J (Indexer.attempt p >>= pure) := hp.attempt fun r => keepsSite_pure r
  rwa [bind_pure] at hbound

theorem keepsSite_forM {xs : List α} {f : α → Publishing PUnit} (h : ∀ a ∈ xs, KeepsSite J (f a)) :
    KeepsSite J (xs.forM f) := Triple.forM h

theorem keepsSite_onlyIf {p : Publishing PUnit} (c : Bool) (h : KeepsSite J p) :
    KeepsSite J (onlyIf c p) :=
  Triple.ite (fun _ => h) fun _ => keepsSite_pure _

variable {cfg : ChainConfig}

/-- The directory gets its genesis file. -/
theorem ensureLayout_keeps (hlayout : ∀ x, J x → J (Write.layout.apply cfg x)) :
    KeepsSite J (ensureLayout cfg) := by
  unfold ensureLayout
  refine Triple.get fun t => ?_
  cases hgenesis : t.dir.genesis with
  | some g => exact Triple.pure fun _ h => h.2
  | none =>
      have hhere : ∀ s, s = t ∧ Sited J s → Sited (fun x => x = t.site ∧ J x) s := by
        rintro s ⟨rfl, hs⟩
        exact ⟨rfl, hs⟩
      refine Triple.entails hhere ((putDir_triple ?_).relax fun _ h => h.2)
      rintro x ⟨rfl, hx⟩
      have hstep := hlayout t.site hx
      simp only [Write.apply, Publisher.site, hgenesis, Option.getD_none] at hstep
      exact hstep

theorem writeAnchors_keeps (hlayout : ∀ x, J x → J (Write.layout.apply cfg x)) :
    KeepsSite J (writeAnchors cfg) := by
  have hpublish : ∀ anchors : Option (List Anchor),
      KeepsSite J (publish fun s => { s with anchors := anchors }) :=
    fun _ => publish_triple (fun _ h => h) fun _ => rfl
  unfold writeAnchors
  have hview : KeepsSite J (viewDb Database.anchorRows) := fun _ h => h
  refine KeepsSite.bind hview fun records => Triple.ite (fun _ => ?_) fun _ => ?_
  · exact Triple.read fun t => Triple.ite (fun _ => hpublish none) fun _ => keepsSite_pure _
  · refine KeepsSite.bind (ensureLayout_keeps hlayout) fun _ => ?_
    exact KeepsSite.bind (keepsSite_lift _) fun _ => hpublish (some records)

theorem recordAnchor_keeps (hlayout : ∀ x, J x → J (Write.layout.apply cfg x)) {a : Anchor}
    (hanchor : ∀ x, J x → J { x with database := x.database.insertAnchor a })
    (hprune : ∀ x, J x → J { x with database := x.database.pruneAnchors }) :
    KeepsSite J (recordAnchor cfg a) := by
  unfold recordAnchor
  refine Triple.ite (fun _ => keepsSite_pure _) fun _ => ?_
  refine KeepsSite.bind (writeDb_triple hanchor) fun _ => ?_
  exact KeepsSite.bind (writeDb_triple hprune) fun _ => writeAnchors_keeps hlayout

theorem rewriteManifest_keeps (hmanifest : ∀ x, J x → J (Write.manifest.apply cfg x)) :
    KeepsSite J (rewriteManifest cfg) := by
  unfold rewriteManifest
  refine keepsSite_viewDb fun x hx => (putDir_triple ?_).relax fun s hs => ?_
  · rintro y rfl
    exact hmanifest y hx
  · have hs : s.site = x := hs
    show J s.site
    rw [hs]
    exact hx

end

/-! ## The cutter goes by steps -/

section

variable {P : FeltParser} {Z : Zstd} {pedersen : Felt → Felt → Felt} {cfg : ChainConfig}
variable {B : Anchor → Prop} {rpc : RpcClient} {x₀ : Site}

theorem metaSet_stays {key : String} (value : String) (hkey : key ∈ PUBLISH_KEYS) :
    KeepsSite (CutPath P Z pedersen cfg B x₀) (writeDb fun d => d.metaSet key value) :=
  writeDb_triple fun _ hx => ReflTransGen.tail hx (CutStep.note key value hkey)

theorem layout_stays : KeepsSite (CutPath P Z pedersen cfg B x₀) (ensureLayout cfg) :=
  ensureLayout_keeps fun _ hx => ReflTransGen.tail hx CutStep.layout

theorem manifest_stays : KeepsSite (CutPath P Z pedersen cfg B x₀) (rewriteManifest cfg) :=
  rewriteManifest_keeps fun _ hx => ReflTransGen.tail hx CutStep.manifest

theorem writeAnchors_stays : KeepsSite (CutPath P Z pedersen cfg B x₀) (writeAnchors cfg) :=
  writeAnchors_keeps fun _ hx => ReflTransGen.tail hx CutStep.layout

theorem anchor_stays {a : Anchor} (ha : B a) :
    KeepsSite (CutPath P Z pedersen cfg B x₀) (recordAnchor cfg a) :=
  recordAnchor_keeps (fun _ hx => ReflTransGen.tail hx CutStep.layout)
    (fun _ hx => ReflTransGen.tail hx (CutStep.anchor a ha))
    fun _ hx => ReflTransGen.tail hx CutStep.pruneAnchors

theorem clearDivergence_stays : KeepsSite (CutPath P Z pedersen cfg B x₀) clearDivergence := by
  refine keepsSite_forM fun key hkey => metaSet_stays "" ?_
  revert key
  decide

theorem regenHead_stays : KeepsSite (CutPath P Z pedersen cfg B x₀) (regenHead P cfg) := by
  unfold regenHead
  refine KeepsSite.bind layout_stays fun _ => ?_
  refine keepsSite_viewDb fun x hx => ?_
  have hleave : ∀ s, Sited (· = x) s → Sited (CutPath P Z pedersen cfg B x₀) s := by
    intro s hs
    have hs : s.site = x := hs
    show CutPath P Z pedersen cfg B x₀ s.site
    rw [hs]
    exact hx
  refine Triple.bind (lift_sited.relax hleave) fun head => Triple.of_and fun hhead => ?_
  refine Triple.bind (lift_sited.relax hleave) fun payload => Triple.of_and fun hpayload => ?_
  have hencode : encodeHead head = some payload := by
    unfold encoded at hpayload
    split at hpayload
    · rename_i bytes hbytes
      rw [hbytes, Except.ok.inj hpayload]
    · cases hpayload
  refine Triple.bind (M := fun _ => Sited (CutPath P Z pedersen cfg B x₀)) ?_
    fun _ => manifest_stays
  refine (putDir_triple ?_).relax hleave
  rintro y rfl
  exact ReflTransGen.tail hx (CutStep.head ⟨head, hhead, hencode⟩)

theorem verifyAndCapture_stays (hB : ∀ a, Vouched P rpc a → B a) {frontier : Nat}
    (hlt : frontier < 2 ^ 63) :
    KeepsSite (CutPath P Z pedersen cfg B x₀) (verifyAndCapture P pedersen rpc cfg frontier) := by
  have hprobed : KeepsSite (CutPath P Z pedersen cfg B x₀)
      (writeDb fun d => d.metaSet "anchor_probe_frontier" frontier.repr) :=
    metaSet_stays _ (by decide)
  unfold verifyAndCapture
  refine Triple.ite (fun _ => keepsSite_pure _) fun _ => ?_
  refine keepsSite_viewDb fun x hx => KeepsSite.of_site (Triple.ite (fun _ => keepsSite_pure _) fun _ => ?_) hx
  refine attempt_then (verifyRootAtTarget_triple (by omega)) (fun o => Triple.of_and fun ho => ?_)
    fun e => ?_
  · cases o with
    | unavailable => exact hprobed
    | verified anchor =>
        have hanchor := hB anchor (ho anchor rfl)
        refine KeepsSite.bind (metaSet_stays "" (by decide)) fun _ => ?_
        refine KeepsSite.bind clearDivergence_stays fun _ => ?_
        exact KeepsSite.bind (anchor_stays hanchor) fun _ => hprobed
  · cases e with
    | rootMismatch block localRoot chainRoot =>
        exact KeepsSite.bind (metaSet_stays "1" (by decide)) fun _ => keepsSite_throw _
    | proofUnbound => exact keepsSite_throw _
    | _ => exact keepsSite_pure _

/-! ### Epochs -/

theorem CutStep.columns64 {s s' : Site} (h : CutStep P Z pedersen cfg B s s')
    (hcols : s.database.Columns64) : s'.database.Columns64 := by
  cases h with
  | epochRow =>
      refine ⟨fun k r hk => ?_, hcols.snapshots⟩
      unfold Database.insertEpoch at hk
      rw [getElem?_insert_eq] at hk
      split at hk
      · rename_i hkey
        rw [hkey]
        exact toI64_bounds _
      · exact hcols.epochs k r hk
  | snapshotRow =>
      refine ⟨hcols.epochs, fun k r hk => ?_⟩
      unfold Database.insertSnapshot at hk
      rw [getElem?_insert_eq] at hk
      split at hk
      · rename_i hkey
        rw [hkey]
        exact toI64_bounds _
      · exact hcols.snapshots k r hk
  | dropRow =>
      refine ⟨hcols.epochs, fun k r hk => ?_⟩
      unfold Database.deleteSnapshot at hk
      rw [getElem?_erase_eq] at hk
      split at hk
      · cases hk
      · exact hcols.snapshots k r hk
  | _ => exact ⟨hcols.epochs, hcols.snapshots⟩

theorem CutPath.columns64 {s s' : Site} (h : CutPath P Z pedersen cfg B s s')
    (hcols : s.database.Columns64) : s'.database.Columns64 := by
  induction h with
  | refl => exact hcols
  | tail _ hstep ih => exact hstep.columns64 ih

/-- The next epoch's row comes last. -/
theorem toList_insertEpoch {d : Database} (hcols : d.Columns64) (hlt : nextEpoch cfg d < 2 ^ 63)
    (r : EpochRec) : (d.insertEpoch (nextEpoch cfg d) r).epochs.toList =
      d.epochs.toList ++ [((nextEpoch cfg d : Int), r)] := by
  unfold Database.insertEpoch
  rw [Consumer.toI64_of_lt hlt]
  refine toList_insert_last r fun e he => compare_lt_iff_lt.mpr ?_
  unfold nextEpoch Database.lastEpoch at hlt ⊢
  cases hlast : d.epochs.toList.getLast? with
  | none =>
      rw [List.getLast?_eq_none_iff.mp hlast] at he
      cases he
  | some last =>
      rw [hlast] at hlt
      simp only [Option.map_some] at hlt ⊢
      have hmem : last ∈ d.epochs.toList := List.mem_of_getLast? hlast
      have hbounds := hcols.epochs last.1 last.2 (ExtTreeMap.mem_toList_iff_getElem?_eq_some.mp hmem)
      unfold toU64 at hlt ⊢
      rcases le_getLast hlast he with rfl | hless
      · omega
      · have := compare_lt_iff_lt.mp hless
        omega

theorem lastEpoch_insertEpoch {d : Database} (hcols : d.Columns64) (hlt : nextEpoch cfg d < 2 ^ 63)
    (r : EpochRec) : (d.insertEpoch (nextEpoch cfg d) r).lastEpoch =
      some (nextEpoch cfg d, r.contentHash, toU64 r.toBlock) := by
  unfold Database.lastEpoch
  rw [toList_insertEpoch hcols hlt, List.getLast?_append, List.getLast?_singleton, Option.some_or,
    Option.map_some]
  have hkey : toU64 (nextEpoch cfg d : Int) = nextEpoch cfg d := by
    unfold toU64
    omega
  rw [hkey]

theorem nextEpoch_insertEpoch {d : Database} (hcols : d.Columns64) (hlt : nextEpoch cfg d < 2 ^ 63)
    (r : EpochRec) : nextEpoch cfg (d.insertEpoch (nextEpoch cfg d) r) = nextEpoch cfg d + 1 := by
  rw [nextEpoch, lastEpoch_insertEpoch hcols hlt]

/-- A file for the next epoch is there, and the database has got anchors at most since. -/
def Filed (x₀ : Site) (P : FeltParser) (Z : Zstd) (pedersen : Felt → Felt → Felt) (cfg : ChainConfig)
    (B : Anchor → Prop) (d : Database) (payload : ByteArray) (x : Site) : Prop :=
  CutPath P Z pedersen cfg B x₀ x ∧ x.dir.epochs[nextEpoch cfg d]? = some (Z.compress payload) ∧
    ∃ anchors, x.database = { d with anchors := anchors }

theorem recordAnchor_filed {d : Database} {payload : ByteArray} {a : Anchor} (ha : B a) :
    Triple (Sited (Filed x₀ P Z pedersen cfg B d payload)) (recordAnchor cfg a)
      (fun _ => Sited (Filed x₀ P Z pedersen cfg B d payload))
      (Sited (Filed x₀ P Z pedersen cfg B d payload)) := by
  refine recordAnchor_keeps ?_ ?_ ?_
  · rintro x ⟨hx, hfile, anchors, hd⟩
    exact ⟨ReflTransGen.tail hx CutStep.layout, hfile, anchors, hd⟩
  · rintro x ⟨hx, hfile, anchors, hd⟩
    exact ⟨ReflTransGen.tail hx (CutStep.anchor a ha), hfile, _, by
      show x.database.insertAnchor a = _
      rw [hd]
      rfl⟩
  · rintro x ⟨hx, hfile, anchors, hd⟩
    exact ⟨ReflTransGen.tail hx CutStep.pruneAnchors, hfile, _, by
      show x.database.pruneAnchors = _
      rw [hd]
      rfl⟩

/-- Where the next epoch is `idx`. -/
def UpNext (x₀ : Site) (P : FeltParser) (Z : Zstd) (pedersen : Felt → Felt → Felt)
    (cfg : ChainConfig) (B : Anchor → Prop) (idx : Nat) (x : Site) : Prop :=
  CutPath P Z pedersen cfg B x₀ x ∧ nextEpoch cfg x.database = idx

/-- One round of the cut: the file, the anchor, the row. -/
theorem cutEpoch_steps (hB : ∀ a, Vouched P rpc a → B a) (hcols : x₀.database.Columns64) {idx : Nat}
    (hlt : idx < 2 ^ 63) (hfit : (cfg.epochRange idx).2 < 2 ^ 64)
    (hfinal : (cfg.epochRange idx).2 ≤ x₀.database.finalUpto)
    (hscanned : ((cfg.epochRange idx).2 : Int) ≤ x₀.database.frontier) :
    Triple (Sited (UpNext x₀ P Z pedersen cfg B idx)) (cutEpoch P Z rpc cfg idx)
      (fun _ => Sited (UpNext x₀ P Z pedersen cfg B (idx + 1)))
      (Sited (CutPath P Z pedersen cfg B x₀)) := by
  refine sited_fixed ?_
  rintro x ⟨hx, rfl⟩
  have hleave : ∀ s, Sited (· = x) s → Sited (CutPath P Z pedersen cfg B x₀) s := by
    intro s hs
    have hs : s.site = x := hs
    show CutPath P Z pedersen cfg B x₀ s.site
    rw [hs]
    exact hx
  have hmirror := CutPath.sameMirror hx
  unfold cutEpoch
  refine viewDb_then ?_
  refine Triple.bind (lift_sited.relax hleave) fun payload => Triple.of_and fun hpayload => ?_
  have hcut : nextPayload cfg x.database = some payload := by
    unfold encoded at hpayload
    split at hpayload
    · rename_i bytes hbytes
      rw [← Except.ok.inj hpayload]
      exact hbytes
    · cases hpayload
  -- the file lands first
  refine Triple.bind (M := fun _ => Sited (Filed x₀ P Z pedersen cfg B x.database payload)) ?_ fun _ => ?_
  · refine (putDir_triple ?_).relax hleave
    rintro y rfl
    refine ⟨ReflTransGen.tail hx (CutStep.epochFile hcut), ?_, _, rfl⟩
    rw [getElem?_insert_eq, if_pos rfl]
  have hfiled : ∀ s, Sited (Filed x₀ P Z pedersen cfg B x.database payload) s →
      Sited (CutPath P Z pedersen cfg B x₀) s := fun _ h => h.1
  refine Triple.bind ((epochAnchor_triple hfit).relax hfiled) fun anchor => Triple.of_and fun hanchor => ?_
  have hrow : Triple (Sited (Filed x₀ P Z pedersen cfg B x.database payload))
      (do
        let d' ← viewDb id
        writeDb fun d => d.insertEpoch (nextEpoch cfg x.database)
          (cutRec Z cfg (nextEpoch cfg x.database) x.database.lastHash payload anchor (cutAt d')))
      (fun _ => Sited (UpNext x₀ P Z pedersen cfg B (nextEpoch cfg x.database + 1)))
      (Sited (CutPath P Z pedersen cfg B x₀)) := by
    refine sited_fixed ?_
    rintro y ⟨hy, hfile, anchors, hd⟩
    have hnext : nextEpoch cfg y.database = nextEpoch cfg x.database := by
      rw [hd]
      rfl
    have hhash : y.database.lastHash = x.database.lastHash := by
      rw [hd]
      rfl
    have hpayload' : nextPayload cfg y.database = some payload := by
      rw [← hcut, hd]
      rfl
    -- between file and row only anchors have been recorded
    have hsame := CutPath.sameMirror hy
    have hlanded : ∀ cutAt, UpNext x₀ P Z pedersen cfg B (nextEpoch cfg y.database + 1)
        { y with
          database := y.database.insertEpoch (nextEpoch cfg y.database)
            (cutRec Z cfg (nextEpoch cfg y.database) y.database.lastHash payload anchor cutAt) } := by
      intro cutAt
      rw [← hnext] at hfile hfinal hscanned hanchor hlt
      refine ⟨ReflTransGen.tail hy (CutStep.epochRow cutAt hlt hpayload' hfile ?_ ?_ ?_),
        nextEpoch_insertEpoch (CutPath.columns64 hy hcols) hlt _⟩
      · rw [hsame.finalUpto]
        exact hfinal
      · rw [hsame.frontier]
        exact hscanned
      · intro a ha
        exact ⟨hB a (hanchor a ha).1, (hanchor a ha).2⟩
    rw [← hnext, ← hhash]
    refine viewDb_then ?_
    refine (writeDb_triple ?_).relax fun s hs => ?_
    · rintro z rfl
      exact hlanded _
    · have hs : s.site = y := hs
      show CutPath P Z pedersen cfg B x₀ s.site
      rw [hs]
      exact hy
  refine Triple.bind (M := fun _ => Sited (Filed x₀ P Z pedersen cfg B x.database payload)) ?_
    fun _ => hrow
  refine (Triple.forM fun a ha => recordAnchor_filed ?_).relax hfiled
  exact hB a (hanchor a (Option.mem_toList.mp ha)).1

/-- Rounds of the cut, from the next epoch on. -/
theorem cutEpochs_steps (hB : ∀ a, Vouched P rpc a → B a) (hcols : x₀.database.Columns64) {k : Nat} :
    ∀ idx, (∀ i, idx ≤ i → i < idx + k → i < 2 ^ 63 ∧ (cfg.epochRange i).2 < 2 ^ 64 ∧
        (cfg.epochRange i).2 ≤ x₀.database.finalUpto ∧
        ((cfg.epochRange i).2 : Int) ≤ x₀.database.frontier) →
      Triple (Sited (UpNext x₀ P Z pedersen cfg B idx))
        ((List.range' idx k).forM fun i => cutEpoch P Z rpc cfg i)
        (fun _ => Sited (CutPath P Z pedersen cfg B x₀)) (Sited (CutPath P Z pedersen cfg B x₀)) := by
  induction k with
  | zero => exact fun idx _ => Triple.pure fun _ h => h.1
  | succ k ih =>
      intro idx hready
      obtain ⟨hlt, hfit, hfinal, hscanned⟩ := hready idx (le_refl _) (by omega)
      rw [List.range'_succ]
      refine Triple.bind (cutEpoch_steps hB hcols hlt hfit hfinal hscanned) fun _ => ?_
      exact ih (idx + 1) fun i hi hik => hready i (by omega) (by omega)

/-- Epochs that are ready end at or below the height. -/
theorem mem_readyEpochs {upto next i : Nat} (h : i ∈ readyEpochs cfg upto next) :
    (cfg.epochRange i).2 ≤ upto ∧ i ≤ upto := by
  unfold readyEpochs at h
  obtain ⟨hlow, hhigh⟩ := List.mem_range'_1.mp h
  have hlt : i < (upto + 1) / cfg.epochSize := by omega
  have hsize : 0 < cfg.epochSize := by
    by_contra hzero
    rw [Nat.eq_zero_of_not_pos hzero, Nat.div_zero] at hlt
    omega
  have hmul : (i + 1) * cfg.epochSize ≤ upto + 1 := (Nat.le_div_iff_mul_le hsize).mp hlt
  have hle : i + 1 ≤ (i + 1) * cfg.epochSize := Nat.le_mul_of_pos_right _ hsize
  refine ⟨?_, by omega⟩
  show (i + 1) * cfg.epochSize - 1 ≤ upto
  omega

/-! ### Snapshots -/

/-- Only the count of probes has been written since. -/
def Probed (x₀ : Site) (P : FeltParser) (Z : Zstd) (pedersen : Felt → Felt → Felt)
    (cfg : ChainConfig) (B : Anchor → Prop) (d : Database) (x : Site) : Prop :=
  CutPath P Z pedersen cfg B x₀ x ∧ ∃ metas, x.database = { d with metas := metas } ∧
    x.database.metaGet "verify_root_failed" = d.metaGet "verify_root_failed"

theorem metaSet_probed {d : Database} {key : String} (value : String)
    (hkey : key = PROBE_EPOCH_KEY ∨ key = PROBE_ATTEMPTS_KEY) :
    Triple (Sited (Probed x₀ P Z pedersen cfg B d)) (writeDb fun d => d.metaSet key value)
      (fun _ => Sited (Probed x₀ P Z pedersen cfg B d)) (Sited (Probed x₀ P Z pedersen cfg B d)) := by
  refine writeDb_triple ?_
  rintro x ⟨hx, metas, hd, hlatch⟩
  have hlisted : key ∈ PUBLISH_KEYS ∧ "verify_root_failed" ≠ key := by
    rcases hkey with rfl | rfl
    · decide
    · decide
  refine ⟨ReflTransGen.tail hx (CutStep.note key value hlisted.1),
    x.database.metas.insert key value, ?_, ?_⟩
  · show x.database.metaSet key value = _
    rw [Database.metaSet, hd]
  · show (x.database.metaSet key value).metaGet _ = _
    rw [metaGet_metaSet, if_neg hlisted.2]
    exact hlatch

theorem basisLeaf_triple {J : Site → Prop} (basis : Nat) :
    Triple (Sited J) (basisLeaf P rpc basis)
      (fun got s => ((∃ hash, BoundProof P rpc basis hash got.2) ∧
        got.2.contractLeavesData.head? = some got.1) ∧ Sited J s) (Sited J) := by
  unfold basisLeaf
  refine Triple.bind (boundProof_triple basis _) fun proof => Triple.of_and fun hbound => ?_
  cases hleaf : proof.contractLeavesData.head? with
  | none => exact Triple.throw fun _ h => h
  | some leaf => exact Triple.pure fun _ h => ⟨⟨hbound, hleaf⟩, h⟩

/-- What a basis proof is, if there is one. -/
def Basis (P : FeltParser) (rpc : RpcClient) (basis : Nat)
    (got : Option (ContractLeafData × StorageProof)) : Prop :=
  ∀ leaf proof, got = some (leaf, proof) →
    (∃ hash, BoundProof P rpc basis hash proof) ∧ proof.contractLeavesData.head? = some leaf

theorem basisProof_triple {d : Database} (epoch basis spent : Nat) :
    Triple (Sited (Probed x₀ P Z pedersen cfg B d)) (basisProof P rpc epoch basis spent)
      (fun got s => Basis P rpc basis got ∧ Sited (Probed x₀ P Z pedersen cfg B d) s)
      (Sited (Probed x₀ P Z pedersen cfg B d)) := by
  have hnone : Basis P rpc basis none := fun _ _ heq => by cases heq
  unfold basisProof
  refine Triple.ite (fun _ => Triple.pure fun _ h => ⟨hnone, h⟩) fun _ => ?_
  refine attempt_then (basisLeaf_triple basis) (fun got => Triple.of_and fun hgot => ?_) fun e => ?_
  · refine Triple.pure fun _ h => ⟨fun leaf proof heq => ?_, h⟩
    cases heq
    exact hgot
  · have hspent : Triple (Sited (Probed x₀ P Z pedersen cfg B d))
        (do
          writeDb fun d => d.metaSet PROBE_EPOCH_KEY epoch.repr
          writeDb fun d => d.metaSet PROBE_ATTEMPTS_KEY (spent + 1).repr
          pure none)
        (fun got s => Basis P rpc basis got ∧ Sited (Probed x₀ P Z pedersen cfg B d) s)
        (Sited (Probed x₀ P Z pedersen cfg B d)) := by
      refine Triple.bind (metaSet_probed _ (Or.inl rfl)) fun _ => ?_
      refine Triple.bind (metaSet_probed _ (Or.inr rfl)) fun _ => ?_
      exact Triple.pure fun _ h => ⟨hnone, h⟩
    cases e with
    | proofUnbound => exact Triple.throw fun _ h => h
    | _ => exact hspent

/-- The anchor of a basis proof agrees with the slot set. -/
theorem groundSnapshot_triple {d : Database} {basis : Nat} {localRoot : Felt}
    {got : Option (ContractLeafData × StorageProof)} (hgot : Basis P rpc basis got)
    (hlt : basis < 2 ^ 64) :
    Triple (Sited (Probed x₀ P Z pedersen cfg B d)) (groundSnapshot P basis localRoot got)
      (fun r s => (∀ a, r = some a → Vouched P rpc a ∧ a.block = basis ∧ a.storageRoot = localRoot) ∧
        Sited (Probed x₀ P Z pedersen cfg B d) s)
      (Sited (CutPath P Z pedersen cfg B x₀)) := by
  have hleave : ∀ s, Sited (Probed x₀ P Z pedersen cfg B d) s →
      Sited (CutPath P Z pedersen cfg B x₀) s := fun _ h => h.1
  unfold groundSnapshot
  cases got with
  | none => exact Triple.pure fun _ h => ⟨fun _ heq => (by cases heq), h⟩
  | some got =>
      obtain ⟨leaf, proof⟩ := got
      obtain ⟨⟨hash, hbound⟩, hleaf⟩ := hgot leaf proof rfl
      refine Triple.bind (lift_sited.relax hleave) fun chainRoot => Triple.of_and fun hroot => ?_
      refine Triple.ite (fun _ => ?_) fun hsame => ?_
      · have hlatch : KeepsSite (CutPath P Z pedersen cfg B x₀)
            (writeDb fun d => d.metaSet "verify_root_failed" "1") := metaSet_stays "1" (by decide)
        exact Triple.bind (Triple.weaken hlatch hleave fun _ _ h => h) fun _ => Triple.throw fun _ h => h
      · refine Triple.bind (lift_sited.relax hleave) fun blockHash => Triple.of_and fun hhash => ?_
        refine Triple.bind (lift_sited.relax hleave) fun classHash => Triple.of_and fun hclass => ?_
        refine Triple.pure fun _ h => ⟨fun a heq => ?_, h⟩
        cases heq
        refine ⟨⟨hlt, proof, leaf, ?_, hleaf, hroot, hclass⟩, rfl, not_not.mp hsame⟩
        rw [anchorBlockHash_bound hbound hhash]
        exact hbound

/-- Without its oldest row. -/
theorem snapshotRows_deleteSnapshot {d : Database} (hcols : d.Columns64) {old : SnapshotEntry}
    {rest : List SnapshotEntry} (h : d.snapshotRows = old :: rest) :
    (d.deleteSnapshot old.e).snapshotRows = rest := by
  unfold Database.snapshotRows at h
  obtain ⟨e, tl, hlist, rfl, rfl⟩ := List.map_eq_cons_iff.mp h
  obtain ⟨k, r⟩ := e
  have hmem : (k, r) ∈ d.snapshots.toList := by
    rw [hlist]
    exact List.mem_cons_self
  obtain ⟨hlow, hhigh⟩ := hcols.snapshots k r (ExtTreeMap.mem_toList_iff_getElem?_eq_some.mp hmem)
  have hkey : toI64 (snapshotEntryOf k r).e = k := toI64_toU64 hlow hhigh
  unfold Database.snapshotRows Database.deleteSnapshot
  rw [hkey, toList_erase_head hlist]

/-- Pruning takes away from the oldest on, and leaves as many as are to be kept. -/
theorem pruneSnapshots_stays (hcols : x₀.database.Columns64) :
    KeepsSite (CutPath P Z pedersen cfg B x₀) pruneSnapshots := by
  have hround : ∀ (olds kept : List SnapshotEntry), SNAPSHOT_KEEP ≤ kept.length →
      Triple (Sited fun x => CutPath P Z pedersen cfg B x₀ x ∧ x.database.snapshotRows = olds ++ kept)
        (olds.forM fun old => do
          putDir fun dir => { dir with snapshots := dir.snapshots.erase old.file }
          writeDb fun d => d.deleteSnapshot old.e)
        (fun _ => Sited (CutPath P Z pedersen cfg B x₀)) (Sited (CutPath P Z pedersen cfg B x₀)) := by
    intro olds kept hkept
    induction olds with
    | nil => exact Triple.pure fun _ h => h.1
    | cons old olds ih =>
        have hkeep : SNAPSHOT_KEEP ≤ (olds ++ kept).length := by
          rw [List.length_append]
          omega
        refine Triple.bind (M := fun _ => Sited fun x => CutPath P Z pedersen cfg B x₀ x ∧
          x.database.snapshotRows = olds ++ kept) ?_ fun _ => ih
        refine Triple.bind (M := fun _ => Sited fun x => CutPath P Z pedersen cfg B x₀ x ∧
          x.database.snapshotRows = old :: (olds ++ kept)) ?_ fun _ => ?_
        · refine (putDir_triple ?_).relax fun _ h => h.1
          rintro x ⟨hx, hrows⟩
          exact ⟨ReflTransGen.tail hx (CutStep.dropFile hrows hkeep), hrows⟩
        · refine (writeDb_triple ?_).relax fun _ h => h.1
          rintro x ⟨hx, hrows⟩
          exact ⟨ReflTransGen.tail hx (CutStep.dropRow hrows hkeep),
            snapshotRows_deleteSnapshot (CutPath.columns64 hx hcols) hrows⟩
  unfold pruneSnapshots
  refine keepsSite_viewDb fun x hx => ?_
  simp only [id]
  by_cases hmany : SNAPSHOT_KEEP ≤ x.database.snapshotRows.length
  · refine (hround _ (x.database.snapshotRows.drop (x.database.snapshotRows.length - SNAPSHOT_KEEP))
      ?_).weaken (fun s hs => ?_) fun _ _ h => h
    · rw [List.length_drop]
      omega
    · have hs : s.site = x := hs
      show CutPath P Z pedersen cfg B x₀ s.site ∧ s.site.database.snapshotRows = _
      rw [hs, List.take_append_drop]
      exact ⟨hx, rfl⟩
  · rw [show x.database.snapshotRows.length - SNAPSHOT_KEEP = 0 by omega, List.take_zero]
    exact KeepsSite.of_site (keepsSite_pure _) hx

/-- A grounded snapshot is published: its file, its row, and the manifest. -/
theorem publishSnapshot_steps (hcols : x₀.database.Columns64) {snap : Snapshot}
    {anchor : Option Anchor} :
    Triple (Sited fun x => CutPath P Z pedersen cfg B x₀ x ∧
        Grounded pedersen cfg B x.database snap anchor)
      (publishSnapshot P Z cfg snap anchor)
      (fun _ => Sited (CutPath P Z pedersen cfg B x₀)) (Sited (CutPath P Z pedersen cfg B x₀)) := by
  have hlayout : Triple (Sited fun x => CutPath P Z pedersen cfg B x₀ x ∧
        Grounded pedersen cfg B x.database snap anchor) (ensureLayout cfg)
      (fun _ => Sited fun x => CutPath P Z pedersen cfg B x₀ x ∧
        Grounded pedersen cfg B x.database snap anchor) (Sited (CutPath P Z pedersen cfg B x₀)) :=
    (ensureLayout_keeps fun x hx => ⟨ReflTransGen.tail hx.1 CutStep.layout, hx.2⟩).relax
      fun _ h => h.1
  unfold publishSnapshot
  refine Triple.bind hlayout fun _ => ?_
  refine Triple.bind (M := fun _ => Sited fun x => (CutPath P Z pedersen cfg B x₀ x ∧
    Grounded pedersen cfg B x.database snap anchor) ∧
      x.dir.snapshots[(snapshotEntry Z snap anchor).file]? =
        some (Z.compress (Snapshot.encode snap))) ?_ fun _ => ?_
  · refine (putDir_triple ?_).relax fun _ h => h.1
    rintro x ⟨hx, hgrounded⟩
    refine ⟨⟨ReflTransGen.tail hx (CutStep.snapshotFile hgrounded), hgrounded⟩, ?_⟩
    rw [getElem?_insert_eq, if_pos rfl]
  refine Triple.bind (M := fun _ => Sited (CutPath P Z pedersen cfg B x₀)) ?_ fun _ => ?_
  · refine (writeDb_triple ?_).relax fun _ h => h.1.1
    rintro x ⟨⟨hx, hgrounded⟩, hfile⟩
    exact ReflTransGen.tail hx (CutStep.snapshotRow hgrounded hfile)
  · exact KeepsSite.bind (pruneSnapshots_stays hcols) fun _ => manifest_stays

theorem maybePublishSnapshot_stays (hB : ∀ a, Vouched P rpc a → B a)
    (hcols : x₀.database.Columns64) :
    KeepsSite (CutPath P Z pedersen cfg B x₀) (maybePublishSnapshot P Z pedersen rpc cfg) := by
  unfold maybePublishSnapshot
  refine keepsSite_viewDb fun x hx => ?_
  simp only [id]
  cases hlast : x.database.lastEpoch with
  | none => exact KeepsSite.of_site (keepsSite_pure _) hx
  | some e =>
      obtain ⟨epoch, contentHash, basis⟩ := e
      have hbasis : basis < 2 ^ 64 := by
        unfold Database.lastEpoch at hlast
        obtain ⟨last, -, heq⟩ := Option.map_eq_some_iff.mp hlast
        cases heq
        exact toU64_lt _
      refine Triple.ite (fun _ => KeepsSite.of_site (keepsSite_pure _) hx) fun hgate => ?_
      rw [Bool.or_eq_true, not_or] at hgate
      obtain ⟨hfresh, hlatch⟩ := hgate
      have hleave : ∀ s, Sited (Probed x₀ P Z pedersen cfg B x.database) s →
          Sited (CutPath P Z pedersen cfg B x₀) s := fun _ h => h.1
      have hstart : ∀ s, Sited (· = x) s → Sited (Probed x₀ P Z pedersen cfg B x.database) s := by
        intro s hs
        have hs : s.site = x := hs
        show Probed x₀ P Z pedersen cfg B x.database s.site
        rw [hs]
        exact ⟨hx, _, rfl, rfl⟩
      refine Triple.entails hstart ?_
      refine Triple.bind ((basisProof_triple epoch basis _).relax hleave) fun got =>
        Triple.of_and fun hgot => ?_
      refine Triple.bind (groundSnapshot_triple hgot hbasis) fun anchor => Triple.of_and fun hanchor => ?_
      refine sited_fixed ?_
      rintro y ⟨hy, metas, hd, hsame⟩
      refine viewDb_then (Triple.ite (fun hground => ?_) fun _ => KeepsSite.of_site (keepsSite_pure _) hy)
      refine (publishSnapshot_steps hcols).weaken (fun s hs => ?_) fun _ _ h => h
      have hs : s.site = y := hs
      show CutPath P Z pedersen cfg B x₀ s.site ∧ Grounded pedersen cfg B s.site.database _ _
      rw [hs]
      refine ⟨hy, ⟨contentHash, ?_, ?_⟩, ?_, ?_, ?_, ?_⟩
      · rw [hd]
        exact hlast
      · rw [hd]
        rfl
      · intro s hs heq
        rw [hd] at hs
        exact hfresh (List.any_eq_true.mpr ⟨s, hs, beq_iff_eq.mpr heq⟩)
      · rw [hsame]
        simpa using hlatch
      · intro a ha
        obtain ⟨hvouched, hblock, hroot⟩ := hanchor a ha
        exact ⟨hB a hvouched, hblock, hroot⟩
      · rintro rfl
        have hreached : reachable y.database basis = true := by simpa using hground
        exact hreached

/-- **The cutter goes by steps.** Given a height that is final and a frontier that is
scanned, `cut_ready_epochs` does the listed writes and no other, wherever it stops. -/
theorem cutReadyEpochs_stays (hB : ∀ a, Vouched P rpc a → B a) (hcols : x₀.database.Columns64)
    {l1Accepted frontier : Nat} (hl1 : l1Accepted ≤ x₀.database.finalUpto)
    (hfrontier : (frontier : Int) ≤ x₀.database.frontier) (hlt : frontier < 2 ^ 63) :
    KeepsSite (CutPath P Z pedersen cfg B x₀)
      (cutReadyEpochs P Z pedersen rpc cfg l1Accepted frontier) := by
  unfold cutReadyEpochs
  refine KeepsSite.bind layout_stays fun _ => ?_
  refine KeepsSite.bind (verifyAndCapture_stays hB hlt) fun _ => ?_
  refine keepsSite_viewDb fun x hx => ?_
  have hrounds : Triple (Sited (· = x))
      ((readyEpochs cfg (min l1Accepted frontier) (nextEpoch cfg x.database)).forM fun idx =>
        cutEpoch P Z rpc cfg idx)
      (fun _ => Sited (CutPath P Z pedersen cfg B x₀)) (Sited (CutPath P Z pedersen cfg B x₀)) := by
    refine (cutEpochs_steps hB hcols (nextEpoch cfg x.database) fun i hlow hhigh => ?_).weaken
      (fun s hs => ?_) fun _ _ h => h
    · obtain ⟨hend, hle⟩ := mem_readyEpochs (List.mem_range'_1.mpr ⟨hlow, hhigh⟩)
      omega
    · have hs : s.site = x := hs
      show UpNext x₀ P Z pedersen cfg B (nextEpoch cfg x.database) s.site
      rw [hs]
      exact ⟨hx, rfl⟩
  refine Triple.bind hrounds fun _ => ?_
  refine KeepsSite.bind ?_ fun _ => ?_
  · exact keepsSite_onlyIf _ manifest_stays
  · exact KeepsSite.bind (maybePublishSnapshot_stays hB hcols) fun _ => keepsSite_pure _

end

end Strk20.Indexer
