import Strk20.Wasm.Engine
import Strk20.Consumer.Owners

/-!
# The verification gate

Over every sequence of calls on a new engine: the spendable entries answer only
behind an `apply` that nothing has put in question since, and then the store is
the one a proved root was compared with. What fails on the way leaves the store
alone.
-/

namespace Strk20.Wasm

open Feed Consumer Checkpoint Json Mpt
open Effect (lift Triple)

/-! ## What a discovery cannot write -/

section

variable {S : Type} [SharedStore S]

/-- The slots and the two entries a verification leaves. -/
structure Sealed (s₀ s : S) : Prop where
  slotSet : ConsumerStore.fullSlotSetAsOf s = ConsumerStore.fullSlotSetAsOf s₀
  verified : metaGet s "verified_checkpoint" = metaGet s₀ "verified_checkpoint"

theorem Sealed.refl (s : S) : Sealed s s := ⟨rfl, rfl⟩

variable {s₀ s s' : S} {owner : Felt}

theorem Sealed.frame (h : Sealed s₀ s) (hf : Frame owner s s') : Sealed s₀ s' :=
  ⟨hf.slotSet.trans h.slotSet, (hf.metas _ (not_mem_ownKeys owner (by decide))).trans h.verified⟩

theorem Sealed.metaSet (h : Sealed s₀ s) {key : String} (hkey : key ≠ "verified_checkpoint")
    (value : String) : Sealed s₀ (metaSet s key value) := by
  refine ⟨(SharedStore.slotSet_metaSet s key value).trans h.slotSet, ?_⟩
  rw [LawfulStore.metaGet_metaSet, if_neg hkey.symm]
  exact h.verified

/-- A program that breaks no seal, wherever it ends, and says nothing new about
the engine's runs. -/
def Keeps (Q : List (Pass S) → Prop) (s₀ : S) {α : Type} (x : EStateM Failure (Host S) α) : Prop :=
  Triple (fun h => Sealed s₀ h.store ∧ Q h.passes) x (fun _ h => Sealed s₀ h.store ∧ Q h.passes)
    fun h => Sealed s₀ h.store

variable {α β : Type} {Q : List (Pass S) → Prop}

theorem keeps_pure (a : α) : Keeps Q s₀ (pure a) := Triple.pure fun _ h => h

theorem keeps_throw (e : Failure) : Keeps Q s₀ (throw e : EStateM Failure (Host S) α) :=
  Triple.throw fun _ h => h.1

theorem keeps_lift (r : Except Failure α) : Keeps Q s₀ (lift r) :=
  Triple.lift (fun _ _ _ h => h) fun _ h => h.1

theorem keeps_bind {x : EStateM Failure (Host S) α} {f : α → EStateM Failure (Host S) β}
    (hx : Keeps Q s₀ x) (hf : ∀ a, Keeps Q s₀ (f a)) : Keeps Q s₀ (x >>= f) :=
  Triple.bind hx hf

theorem keeps_get {f : Host S → EStateM Failure (Host S) β} (hf : ∀ h, Keeps Q s₀ (f h)) :
    Keeps Q s₀ (get >>= f) :=
  Triple.get fun h => (hf h).weaken (fun _ hs => hs.2) fun _ _ hs => hs

theorem keeps_ite {c : Prop} [Decidable c] {x y : EStateM Failure (Host S) α}
    (hx : Keeps Q s₀ x) (hy : Keeps Q s₀ y) : Keeps Q s₀ (if c then x else y) :=
  Triple.ite (fun _ => hx) fun _ => hy

theorem keeps_metaSet {key : String} (hkey : key ≠ "verified_checkpoint") (value : String) :
    Keeps Q s₀ (write fun s => metaSet s key value) :=
  triple_write (fun _ _ h => ⟨h.1.metaSet hkey value, h.2⟩) fun _ h => h.1

/-- A key with a first word of its own. -/
theorem keeps_prefixed (p : String) {x value : String}
    (h : ¬ (p.toList <+: "verified_checkpoint".toList) ∧
      ¬ ("verified_checkpoint".toList <+: p.toList)) :
    Keeps Q s₀ (write fun s => metaSet s (p ++ x) value) := by
  have happ := append_ne x "" h
  rw [String.append_empty] at happ
  exact keeps_metaSet happ value

theorem keeps_mirror {f : S → S} (hf : ∀ s, SameMirror s (f s)) : Keeps Q s₀ (write f) := by
  refine triple_write (fun h _ hs => ⟨⟨?_, ?_⟩, hs.2⟩) fun _ h => h.1
  · exact (hf h.store).slotSet.trans hs.1.slotSet
  · exact ((hf h.store).metas _).trans hs.1.verified

theorem keeps_sdk {x value : String} : Keeps Q s₀ (write fun s =>
    metaSet s ("sdk_" ++ feltHex owner ++ x) value) := by
  rw [String.append_assoc]
  exact keeps_prefixed "sdk_" (by decide)

theorem keeps_fullResync (owner : Felt) : Keeps Q s₀ (fullResync owner) := by
  rw [fullResync]
  refine keeps_bind (Triple.forM fun kind _ => ?_) fun _ => keeps_bind keeps_sdk fun _ =>
    keeps_bind keeps_sdk fun _ => keeps_mirror fun s => SharedStore.deleteOwnerNotes_mirror s owner
  cases kind
  · exact keeps_bind (keeps_prefixed "cur_in_" (by decide)) fun _ =>
      keeps_bind (keeps_prefixed "ckpt_in_" (by decide)) fun _ =>
        keeps_prefixed "ckpt_at_in_" (by decide)
  · exact keeps_bind (keeps_prefixed "cur_out_" (by decide)) fun _ =>
      keeps_bind (keeps_prefixed "ckpt_out_" (by decide)) fun _ =>
        keeps_prefixed "ckpt_at_out_" (by decide)

/-- A discovery on a host with no runs behind it keeps to its frame. -/
theorem keeps_discoverState (core : DiscoveryCore S) (owner key : Felt) (outcome : ApplyOutcome)
    (verified : String) :
    Triple (fun h => Sealed s₀ h.store ∧ h.passes = [])
      (discoverState core owner key outcome verified)
      (fun _ h => Sealed s₀ h.store ∧ True) (fun h => Sealed s₀ h.store) := by
  rintro ⟨s, budget, passes⟩ ⟨hs, rfl⟩
  have htriple : Triple (During core owner s fun _ => False)
      (discoverState core owner key outcome verified) (fun _ => Completed core owner s)
      (fun h => Stopped core owner s h ∨ Completed core owner s h) :=
    triple_discoverState key outcome verified
  have hrun := htriple _ (during_start core owner s budget)
  split
  · rename_i heq
    rw [heq] at hrun
    exact ⟨hs.frame hrun.frame, trivial⟩
  · rename_i heq
    rw [heq] at hrun
    rcases hrun with hstopped | hdone
    · exact hs.frame hstopped.frame
    · exact hs.frame hdone.frame

theorem keeps_sdkNote (core : SdkCore S) (cp : TrustedCheckpoint) (incoming : DiscoveryCursor)
    (rewound : Bool) (n : NoteRow) : Keeps Q s₀ (sdkNote core cp incoming rewound n) := by
  rw [sdkNote]
  cases incoming.channels.lookup n.sender with
  | none => exact keeps_throw _
  | some channel =>
      refine keeps_get fun h => keeps_bind (keeps_prefixed "known_" (by decide)) fun _ => ?_
      refine keeps_bind ?_ fun _ => keeps_pure _
      rw [knownKey, String.append_assoc]
      exact keeps_prefixed "known_" (by decide)

theorem keeps_sdkNotes (core : SdkCore S) (cp : TrustedCheckpoint) (incoming : DiscoveryCursor)
    (rewound : Bool) : ∀ rows : List NoteRow, Keeps Q s₀ (sdkNotes core cp incoming rewound rows)
  | [] => keeps_pure []
  | n :: rest =>
      keeps_bind (keeps_sdkNote core cp incoming rewound n) fun _ =>
        keeps_bind (keeps_sdkNotes core cp incoming rewound rest) fun _ => keeps_pure _

theorem keeps_freshDiscover (core : SdkCore S) (owner key : Felt) (cp : TrustedCheckpoint)
    (stamp : String) :
    Triple (fun h => Sealed s₀ h.store ∧ h.passes = []) (freshDiscover core owner key cp stamp)
      (fun _ h => Sealed s₀ h.store ∧ True) (fun h => Sealed s₀ h.store) := by
  rw [freshDiscover]
  have hresync : Keeps (fun l => l = []) s₀ (resyncAbove owner cp) :=
    keeps_get fun h => keeps_ite (keeps_fullResync owner) (keeps_pure PUnit.unit)
  refine Triple.bind hresync fun _ => Triple.get fun h => ?_
  refine Triple.bind ((keeps_discoverState core.toDiscoveryCore owner key _ _).weaken
    (fun _ hs => hs.2) fun _ _ hs => hs) fun report => ?_
  show Keeps (fun _ => True) s₀ _
  refine keeps_get fun h => keeps_bind (keeps_lift _) fun incoming => keeps_get fun h => ?_
  refine keeps_bind (keeps_sdkNotes core cp incoming _ _) fun notes => ?_
  refine keeps_bind (keeps_prefixed "sdk_" (by decide)) fun _ => keeps_bind keeps_sdk fun _ => ?_
  exact keeps_bind keeps_sdk fun _ => keeps_pure _

theorem keeps_sdkDiscover (core : SdkCore S) (owner key : Felt) :
    Triple (fun h => Sealed s₀ h.store ∧ h.passes = []) (sdkDiscover core owner key)
      (fun _ h => Sealed s₀ h.store ∧ True) (fun h => Sealed s₀ h.store) := by
  rw [sdkDiscover]
  refine Triple.get fun h => Triple.bind (M := fun _ h => Sealed s₀ h.store ∧ h.passes = [])
    (Triple.lift (fun _ _ _ hs => hs.2) fun _ hs => hs.2.1) fun cp => ?_
  refine Triple.ite (fun _ => ?_) fun _ => keeps_freshDiscover core owner key cp _
  cases metaGet h.store (cacheKey owner) with
  | some report => exact Triple.pure fun _ hs => ⟨hs.1, trivial⟩
  | none => exact keeps_freshDiscover core owner key cp _

end

/-! ## Runs -/

section

variable {pedersen : Felt → Felt → Felt} (P : FeltParser) (J : JsonParser)
  (core : EngineCore pedersen)

/-- The calls of an engine with their answers, and the engine after them. -/
inductive Reached (genesis : Genesis) :
    List (Call × Except Failure Reply) → Engine pedersen → Prop where
  | new : Reached genesis [] (Engine.build genesis)
  | call {history : List (Call × Except Failure Reply)} {e : Engine pedersen} (c : Call) :
      Reached genesis history e →
      Reached genesis (history ++ [(c, (e.exec P J core c).1)]) (e.exec P J core c).2

/-- A call that puts the state in question: a new proof, or an `apply` that
failed. -/
def Call.Doubts : Call × Except Failure Reply → Prop
  | (.stageCheckpoint _ _, _) => True
  | (.apply _, .error _) => True
  | _ => False

/-- An `apply` succeeded, and nothing has put the state in question since. -/
def Passed (history : List (Call × Except Failure Reply)) : Prop :=
  ∃ before mode reply after, history = before ++ (.apply mode, .ok reply) :: after ∧
    ∀ x ∈ after, ¬ Call.Doubts x

/-- A call of the history staged a checkpoint with a proof of a root. -/
def Staged (history : List (Call × Except Failure Reply)) (cp : TrustedCheckpoint) (root : Felt) :
    Prop :=
  ∃ cpJson proof, (Call.stageCheckpoint cpJson proof, Except.ok Reply.done) ∈ history ∧
    core.sdk.readCheckpoint cpJson = .ok cp ∧
    verifyCheckpoint P J pedersen core.poseidonHashMany cp proof = .ok root

/-- The complete slot set at the checkpoint's block has the root that a staged proof gave
for it. -/
def Attested (history : List (Call × Except Failure Reply)) (s : MemStore pedersen) : Prop :=
  ∃ cp root, metaGet s "verified_checkpoint" = some (TrustedCheckpoint.toJson cp) ∧
    Staged P J core history cp root ∧
    storageRoot pedersen (ConsumerStore.fullSlotSetAsOf s cp.blockNumber) = root

/-- The calls behind the gate. -/
def Call.Gated : Call → Prop
  | .discover _ _ _ => True
  | .channels _ _ _ => True
  | .requirement _ _ _ _ => True
  | _ => False

structure GateInv (history : List (Call × Except Failure Reply)) (e : Engine pedersen) : Prop where
  pending : ∀ cp root, e.pending = some (cp, root) → Staged P J core history cp root
  passed : e.failed = false → metaGet e.store "verified_checkpoint" ≠ none → Passed history
  attested : metaGet e.store "verified_checkpoint" ≠ none → Attested P J core history e.store

variable {P J core} {history : List (Call × Except Failure Reply)} {e : Engine pedersen}
  {genesis : Genesis}

theorem Passed.append (h : Passed history) {x : Call × Except Failure Reply}
    (hx : ¬ Call.Doubts x) : Passed (history ++ [x]) := by
  obtain ⟨before, mode, reply, after, rfl, hafter⟩ := h
  refine ⟨before, mode, reply, after ++ [x], by simp, fun y hy => ?_⟩
  rcases List.mem_append.mp hy with hy | hy
  · exact hafter y hy
  · rw [List.mem_singleton.mp hy]
    exact hx

theorem Staged.append {cp : TrustedCheckpoint} {root : Felt} (h : Staged P J core history cp root)
    (x : Call × Except Failure Reply) : Staged P J core (history ++ [x]) cp root := by
  obtain ⟨cpJson, proof, hmem, hproved⟩ := h
  exact ⟨cpJson, proof, List.mem_append_left _ hmem, hproved⟩

theorem Attested.append {s : MemStore pedersen} (h : Attested P J core history s)
    (x : Call × Except Failure Reply) : Attested P J core (history ++ [x]) s := by
  obtain ⟨cp, root, hcp, hstaged, hroot⟩ := h
  exact ⟨cp, root, hcp, hstaged.append x, hroot⟩

theorem Attested.sealed {s s' : MemStore pedersen} (h : Attested P J core history s)
    (hs : Sealed s s') : Attested P J core history s' := by
  obtain ⟨cp, root, hcp, hstaged, hroot⟩ := h
  exact ⟨cp, root, hs.verified.trans hcp, hstaged, hs.slotSet.symm ▸ hroot⟩

theorem gateInv_new : GateInv P J core [] (Engine.build genesis) where
  pending _ _ h := by cases h
  passed _ h := absurd rfl h
  attested h := absurd rfl h

/-- A call that keeps the flag, the proof and the seal. -/
theorem GateInv.sealed {e' : Engine pedersen} (h : GateInv P J core history e)
    {x : Call × Except Failure Reply} (hx : ¬ Call.Doubts x) (hpending : e'.pending = e.pending)
    (hfailed : e'.failed = e.failed) (hs : Sealed e.store e'.store) :
    GateInv P J core (history ++ [x]) e' where
  pending cp root hp := (h.pending cp root (hpending ▸ hp)).append x
  passed hf hv := (h.passed (hfailed ▸ hf) (hs.verified ▸ hv)).append hx
  attested hv := ((h.attested (hs.verified ▸ hv)).sealed hs).append x

theorem proveCheckpoint_ok {cpJson proofJson : String} {cp : TrustedCheckpoint} {root : Felt}
    (h : e.proveCheckpoint P J core cpJson proofJson = .ok (cp, root)) :
    core.sdk.readCheckpoint cpJson = .ok cp ∧
      verifyCheckpoint P J pedersen core.poseidonHashMany cp proofJson = .ok root := by
  rw [Engine.proveCheckpoint] at h
  obtain ⟨cp', hread, h⟩ := Result.bind_eq_ok.mp h
  obtain ⟨pool, -, h⟩ := Result.bind_eq_ok.mp h
  obtain ⟨-, h⟩ := Result.ite_throw_eq_ok.mp h
  obtain ⟨root', hroot, h⟩ := Result.bind_eq_ok.mp h
  obtain ⟨rfl, rfl⟩ := Prod.mk.inj (Result.pure_eq_ok.mp h)
  exact ⟨Result.mapError_eq_ok.mp hread, liftFeed_eq_ok.mp hroot⟩

/-- What `apply` puts in place of the store. -/
theorem candidate_ok {coldStart : String} {outcome : ApplyOutcome} {cp : TrustedCheckpoint}
    {store : MemStore pedersen} (h : e.candidate P J core coldStart = .ok (outcome, cp, store)) :
    ∃ root, e.pending = some (cp, root) ∧
      metaGet store "verified_checkpoint" = some cp.toJson ∧
      storageRoot pedersen (ConsumerStore.fullSlotSetAsOf store cp.blockNumber) = root := by
  rw [Engine.candidate] at h
  cases hp : e.pending with
  | none =>
      rw [hp] at h
      cases h
  | some pending =>
      obtain ⟨cp', root⟩ := pending
      rw [hp] at h
      simp only at h
      cases hm : e.feed.manifest with
      | none =>
          rw [hm] at h
          cases h
      | some manifest =>
          rw [hm] at h
          simp only at h
          obtain ⟨_, -, h⟩ := Result.bind_eq_ok.mp h
          obtain ⟨mode, -, h⟩ := Result.bind_eq_ok.mp h
          split at h
          · cases h
          · rename_i outcome' folded hfold
            split at h
            · cases h
            · rename_i u verified hverify
              obtain ⟨text, -, h⟩ := Result.bind_eq_ok.mp h
              obtain ⟨-, hpair⟩ := Prod.mk.inj (Result.pure_eq_ok.mp h)
              obtain ⟨rfl, rfl⟩ := Prod.mk.inj hpair
              obtain ⟨-, hroot, rfl⟩ := (verifyState_ok P).mp hverify
              refine ⟨root, rfl, ?_, ?_⟩
              · simp [LawfulStore.metaGet_metaSet]
              · exact (MemStore.rootAt_ok hroot).1.symm

/-- A candidate that passed takes the store's place. -/
theorem apply_eq {coldStart : String} {outcome : ApplyOutcome} {cp : TrustedCheckpoint}
    {store : MemStore pedersen}
    (h : Engine.candidate P J core { e with failed := true } coldStart =
      .ok (outcome, cp, store)) :
    e.apply P J core coldStart = (.ok (.applied outcome cp.blockNumber),
      { e with
        store := store
        revision := (e.revision + 1) % 2 ^ 32
        failed := false
        feed := e.feed.clearApplied }) := by
  simp only [Engine.apply, h]

theorem GateInv.stageCheckpoint (h : GateInv P J core history e) (cpJson proofJson : String) :
    GateInv P J core
      (history ++ [(.stageCheckpoint cpJson proofJson, (e.stageCheckpoint P J core cpJson proofJson).1)])
      (e.stageCheckpoint P J core cpJson proofJson).2 := by
  simp only [Engine.stageCheckpoint]
  split
  · rename_i proved hproved
    refine ⟨fun cp root hp => ?_, fun hf => absurd hf (by simp), fun hv => (h.attested hv).append _⟩
    obtain ⟨hread, hverify⟩ := proveCheckpoint_ok (hproved.trans (by rw [Option.some.inj hp]))
    exact ⟨cpJson, proofJson, by simp, hread, hverify⟩
  · exact ⟨fun _ _ hp => (by cases hp), fun hf => absurd hf (by simp),
      fun hv => (h.attested hv).append _⟩

theorem GateInv.apply (h : GateInv P J core history e) (mode : String) :
    GateInv P J core (history ++ [(.apply mode, (e.apply P J core mode).1)])
      (e.apply P J core mode).2 := by
  simp only [Engine.apply]
  split
  · rename_i outcome cp store hok
    obtain ⟨root, hpending, hverified, hroot⟩ := candidate_ok hok
    have hstaged := (h.pending cp root hpending).append
      (.apply mode, .ok (.applied outcome cp.blockNumber))
    refine ⟨fun cp root hp => (h.pending cp root hp).append _,
      fun _ _ => ⟨history, mode, _, [], rfl, by simp⟩, fun _ => ?_⟩
    exact ⟨cp, root, hverified, hstaged, hroot⟩
  · exact ⟨fun cp root hp => (h.pending cp root hp).append _, fun hf => absurd hf (by simp),
      fun hv => (h.attested hv).append _⟩

theorem sealed_discover (e : Engine pedersen) (owner : String) (key : ByteArray) (budget : Nat) :
    Sealed e.store (e.discover P core owner key budget).2.store ∧
      (e.discover P core owner key budget).2.pending = e.pending ∧
      (e.discover P core owner key budget).2.failed = e.failed := by
  rw [Engine.discover]
  split
  · exact ⟨Sealed.refl _, rfl, rfl⟩
  · exact ⟨Sealed.refl _, rfl, rfl⟩
  · exact ⟨Sealed.refl _, rfl, rfl⟩
  · rename_i owner key _ _ _
    have hkeeps : Triple (fun h => Sealed e.store h.store ∧ h.passes = [])
        (sdkDiscover core.sdk owner key) (fun _ h => Sealed e.store h.store ∧ True)
        (fun h => Sealed e.store h.store) := keeps_sdkDiscover core.sdk owner key
    have hrun := hkeeps ⟨e.store, budget, []⟩ ⟨Sealed.refl _, rfl⟩
    split
    · rename_i heq
      rw [heq] at hrun
      exact ⟨hrun, rfl, rfl⟩
    · rename_i heq
      rw [heq] at hrun
      exact ⟨hrun.1, rfl, rfl⟩

theorem sealed_forgetOwner (e : Engine pedersen) (owner : String) (budget : Nat) :
    Sealed e.store (e.forgetOwner P owner budget).2.store ∧
      (e.forgetOwner P owner budget).2.pending = e.pending ∧
      (e.forgetOwner P owner budget).2.failed = e.failed := by
  simp only [Engine.forgetOwner]
  split
  · exact ⟨Sealed.refl _, rfl, rfl⟩
  · rename_i owner _
    have hkeeps : Keeps (fun _ => True) e.store (fullResync owner) := keeps_fullResync owner
    have hrun := hkeeps ⟨e.store, budget, []⟩ ⟨Sealed.refl _, trivial⟩
    split
    · rename_i heq
      rw [heq] at hrun
      exact ⟨hrun, rfl, rfl⟩
    · rename_i heq
      rw [heq] at hrun
      exact ⟨hrun.1, rfl, rfl⟩

/-- One call, whatever it is. -/
theorem GateInv.exec (h : GateInv P J core history e) (c : Call) :
    GateInv P J core (history ++ [(c, (e.exec P J core c).1)]) (e.exec P J core c).2 := by
  cases c with
  | stageManifest json =>
      simp only [Engine.exec]
      split
      · exact h.sealed id rfl rfl (Sealed.refl _)
      · exact h.sealed id rfl rfl (Sealed.refl _)
  | stageEpoch n payload => exact h.sealed id rfl rfl (Sealed.refl _)
  | stageSnapshot n zst payload => exact h.sealed id rfl rfl (Sealed.refl _)
  | stageHead payload etag => exact h.sealed id rfl rfl (Sealed.refl _)
  | stageCheckpoint cp proof => exact h.stageCheckpoint cp proof
  | apply mode => exact h.apply mode
  | discover owner key budget =>
      obtain ⟨hs, hpending, hfailed⟩ := @sealed_discover pedersen P core e owner key budget
      exact h.sealed id hpending hfailed hs
  | channels owner key recipients => exact h.sealed id rfl rfl (Sealed.refl _)
  | requirement owner key recipient token => exact h.sealed id rfl rfl (Sealed.refl _)
  | forgetOwner owner budget =>
      obtain ⟨hs, hpending, hfailed⟩ := @sealed_forgetOwner pedersen P e owner budget
      exact h.sealed id hpending hfailed hs
  | exportState => exact h.sealed id rfl rfl (Sealed.refl _)

theorem Reached.inv (h : Reached P J core genesis history e) : GateInv P J core history e := by
  induction h with
  | new => exact gateInv_new
  | call c _ ih => exact ih.exec c

/-! ## What a gated answer rests on -/

theorem checkpoint_ok {s : MemStore pedersen} {cp : TrustedCheckpoint}
    (h : checkpoint core.sdk s = .ok cp) : metaGet s "verified_checkpoint" ≠ none := by
  rw [checkpoint] at h
  obtain ⟨-, h⟩ := Result.ite_throw_eq_ok.mp h
  intro hnone
  rw [hnone] at h
  cases h

theorem checkGate_ok {u : Unit} (h : e.checkGate = .ok u) : e.failed = false := by
  rw [Engine.checkGate] at h
  exact Bool.eq_false_iff.mpr (Result.ite_error_eq_ok.mp h).1

theorem discover_gated {owner : String} {key : ByteArray} {budget : Nat} {reply : Reply}
    (h : (e.discover P core owner key budget).1 = .ok reply) :
    e.failed = false ∧ metaGet e.store "verified_checkpoint" ≠ none := by
  rw [Engine.discover] at h
  split at h
  · cases h
  · cases h
  · cases h
  · rename_i hgate _ _
    refine ⟨checkGate_ok hgate, ?_⟩
    split at h
    · cases h
    · rename_i report host hrun
      rw [sdkDiscover, Effect.get_bind] at hrun
      obtain ⟨cp, hcp, -⟩ := Effect.lift_bind_ok.mp hrun
      exact checkpoint_ok hcp

theorem channels_gated {owner : String} {key : ByteArray} {recipients : String} {reply : Reply}
    (h : e.channels P core owner key recipients = .ok reply) :
    e.failed = false ∧ metaGet e.store "verified_checkpoint" ≠ none := by
  rw [Engine.channels] at h
  obtain ⟨_, hgate, h⟩ := Result.bind_eq_ok.mp h
  obtain ⟨_, -, h⟩ := Result.bind_eq_ok.mp h
  obtain ⟨_, -, h⟩ := Result.bind_eq_ok.mp h
  obtain ⟨_, -, h⟩ := Result.bind_eq_ok.mp h
  obtain ⟨_, hsdk, -⟩ := Result.bind_eq_ok.mp h
  rw [sdkChannels] at hsdk
  obtain ⟨cp, hcp, -⟩ := Result.bind_eq_ok.mp hsdk
  exact ⟨checkGate_ok hgate, checkpoint_ok hcp⟩

theorem requirement_gated {owner : String} {key : ByteArray} {recipient token : String}
    {reply : Reply} (h : e.requirement P core owner key recipient token = .ok reply) :
    e.failed = false ∧ metaGet e.store "verified_checkpoint" ≠ none := by
  rw [Engine.requirement] at h
  obtain ⟨_, hgate, h⟩ := Result.bind_eq_ok.mp h
  obtain ⟨_, -, h⟩ := Result.bind_eq_ok.mp h
  obtain ⟨_, -, h⟩ := Result.bind_eq_ok.mp h
  obtain ⟨_, -, h⟩ := Result.bind_eq_ok.mp h
  obtain ⟨_, -, h⟩ := Result.bind_eq_ok.mp h
  obtain ⟨_, hsdk, -⟩ := Result.bind_eq_ok.mp h
  rw [sdkRequirement] at hsdk
  obtain ⟨cp, hcp, -⟩ := Result.bind_eq_ok.mp hsdk
  exact ⟨checkGate_ok hgate, checkpoint_ok hcp⟩

theorem gated_ok {c : Call} (hc : c.Gated) {reply : Reply}
    (h : (e.exec P J core c).1 = .ok reply) :
    e.failed = false ∧ metaGet e.store "verified_checkpoint" ≠ none := by
  cases c with
  | discover owner key budget => exact discover_gated h
  | channels owner key recipients => exact channels_gated h
  | requirement owner key recipient token => exact requirement_gated h
  | _ => exact hc.elim

/-- A gated call neither folds nor verifies. -/
theorem gated_sealed {c : Call} (hc : c.Gated) :
    Sealed e.store (e.exec P J core c).2.store := by
  cases c with
  | discover owner key budget => exact (sealed_discover e owner key budget).1
  | channels owner key recipients => exact Sealed.refl _
  | requirement owner key recipient token => exact Sealed.refl _
  | _ => exact hc.elim

/-- A new proof or an `apply` that fails leaves the store as it was. -/
theorem refused_store {c : Call} {err : Failure} (h : (e.exec P J core c).1 = .error err)
    (hc : Call.Doubts (c, .error err)) : (e.exec P J core c).2.store = e.store := by
  cases c with
  | stageCheckpoint cp proof =>
      simp only [Engine.exec, Engine.stageCheckpoint]
      split <;> rfl
  | apply mode =>
      simp only [Engine.exec, Engine.apply] at h ⊢
      split at h
      · cases h
      · rfl
  | _ => exact hc.elim

/-- Over every sequence of calls on a new engine, a spendable entry answers
only behind a passed `apply`, on a store whose slot set has the root that a call
of the sequence proved for its checkpoint; and a refused proof or `apply` leaves
the store alone. -/
theorem verification_gate (P : FeltParser) (J : JsonParser) (core : EngineCore pedersen)
    (genesis : Genesis) {history : List (Call × Except Failure Reply)} {e : Engine pedersen}
    (h : Reached P J core genesis history e) (c : Call) :
    (∀ reply, c.Gated → (e.exec P J core c).1 = .ok reply →
      Passed history ∧ Attested P J core history e.store ∧
        Attested P J core history (e.exec P J core c).2.store) ∧
    ∀ err, Call.Doubts (c, .error err) → (e.exec P J core c).1 = .error err →
      (e.exec P J core c).2.store = e.store := by
  refine ⟨fun reply hc hok => ?_, fun err hc herr => refused_store herr hc⟩
  obtain ⟨hfailed, hverified⟩ := gated_ok hc hok
  have hattested := h.inv.attested hverified
  exact ⟨h.inv.passed hfailed hverified, hattested, hattested.sealed (gated_sealed hc)⟩

end

/-! ## A pool with one slot, folded and queried -/

namespace OneSlot

open Consumer.OneSlot (pedersen poolRoot poseidonHashMany proofJson)

/-- The tail that writes slot 1 at block 4. -/
def file : Head :=
  ⟨⟨1, 4, 9, 0⟩, [⟨4, 9, 8, 0, [(1, 5)], [], none, some .l2⟩], ⟨1, 1, 0, 1⟩⟩

theorem file_wf : Codec.HeadWf file := by
  refine ⟨⟨by decide, by decide, by decide⟩, ⟨?_, List.IsChain.singleton _, ?_⟩, ?_, ⟨rfl, rfl, rfl⟩⟩
  · intro b hb
    rw [List.mem_singleton.mp hb]
    exact ⟨by decide, by decide, fun e he => by cases he⟩
  · intro b hb
    rw [List.mem_singleton.mp hb]
    exact ⟨List.IsChain.singleton _, List.IsChain.nil⟩
  · intro b hb
    rw [List.mem_singleton.mp hb]
    exact ⟨rfl, by decide⟩

/-- No engine run and no hash but those of the proof are reached. -/
def core : EngineCore pedersen where
  sdk :=
    { isComplete := fun _ => true
      syncIncomingState := fun _ _ _ _ cursor => .ok (cursor, [])
      syncOutgoingState := fun _ _ _ _ cursor => .ok cursor
      computeNullifier := fun _ _ _ _ => 0
      computeNoteId := fun _ _ _ => 0
      decryptPackedValue := fun _ _ _ _ => (0, 0)
      notesSlot := id
      nullifiersSlot := id
      toJson := fun _ => "\x7b\x7d"
      fromJson := fun _ => .ok .default
      readCheckpoint := fun _ => .ok Consumer.OneSlot.checkpoint
      displayFelt := feltHex
      publicKeySlot := id
      channelExistsSlot := id
      subchannelExistsSlot := id
      subchannelTokensSlots := fun x => (x, x)
      computeChannelKey := fun _ _ _ _ => 0
      computeChannelMarker := fun _ _ _ _ => 0
      computeSubchannelId := fun _ _ => 0
      computeSubchannelMarker := fun _ _ _ _ => 0
      decryptSubchannelToken := fun _ _ _ _ => 0
      renderDiscover := fun _ => "" }
  poseidonHashMany := poseidonHashMany
  readGenesis _ := .ok tailGenesis
  readManifest _ := .ok ⟨"SN_MAIN", [], none⟩
  writeManifest _ := .ok ""
  readRecipients _ := .ok none
  encodeBlob _ _ := .ok ByteArray.empty

/-- The engine before `apply`. -/
def ready : Engine pedersen where
  store := MemStore.new pedersen
  feed := ⟨some tailGenesis, some ⟨"SN_MAIN", [], none⟩, ∅, ∅,
    some (Codec.headBytes file, "etag"), ∅⟩
  genesis := tailGenesis
  pending := some (Consumer.OneSlot.checkpoint, poolRoot)
  failed := true
  revision := 0

theorem proveCheckpoint_eq (e : Engine pedersen) (he : e.genesis = tailGenesis) :
    e.proveCheckpoint hexParser Json.parser core "" proofJson.compact =
      .ok (Consumer.OneSlot.checkpoint, poolRoot) := by
  have hfelt : Engine.felt hexParser tailGenesis.pool = .ok 7 :=
    liftFeed_eq_ok.mpr (feltFromHex_feltHex hexParser 7)
  rw [Engine.proveCheckpoint, he]
  refine Result.bind_eq_ok.mpr ⟨Consumer.OneSlot.checkpoint, rfl, Result.bind_eq_ok.mpr
    ⟨7, hfelt, Result.ite_throw_eq_ok.mpr ⟨not_not.mpr ⟨rfl, rfl⟩, ?_⟩⟩⟩
  exact Result.bind_eq_ok.mpr
    ⟨poolRoot, liftFeed_eq_ok.mpr Consumer.OneSlot.verifyCheckpoint_eq, rfl⟩

/-- Three calls stage what `apply` needs. -/
theorem ready_reached : ∃ history, Reached hexParser Json.parser core tailGenesis history ready := by
  have h₀ : Reached hexParser Json.parser core tailGenesis [] (Engine.build tailGenesis) := .new
  have h₁ := h₀.call (.stageManifest "")
  have h₂ := h₁.call (.stageHead (Codec.headBytes file) "etag")
  have h₃ := h₂.call (.stageCheckpoint "" proofJson.compact)
  have heq : ∀ e : Engine pedersen, e.genesis = tailGenesis →
      (e.exec hexParser Json.parser core (.stageCheckpoint "" proofJson.compact)).2 =
        { e with failed := true, pending := some (Consumer.OneSlot.checkpoint, poolRoot) } := by
    intro e he
    simp only [Engine.exec, Engine.stageCheckpoint]
    rw [proveCheckpoint_eq _ (by exact he)]
  rw [heq _ rfl] at h₃
  exact ⟨_, h₃⟩

/-- The folded tail: one slot, and the metadata a verification reads. -/
structure Folded (s : MemStore pedersen) : Prop where
  slotSet : s.fullSlotSetAsOf 4 = [(1, 5)]
  metas : metaGet s "head_number" = some "4" ∧ metaGet s "chain_id" = some "SN_MAIN" ∧
    metaGet s "pool" = some (feltHex 7) ∧ metaGet s "snapshot_basis" = none

/-- A copy of a new store is a new store. -/
theorem fork_new : (MemStore.new pedersen).fork = MemStore.new pedersen := rfl

theorem apply_folds : ∃ out s, applyFeed hexParser Json.parser ready.feed.transport .epochs
    (MemStore.new pedersen) = .ok out s ∧ Folded s := by
  have hfresh := MemStore.fresh_new pedersen
  have he := Epochless.of_fresh hfresh
  obtain ⟨s, hw, he₁⟩ := he.write file_wf (by decide) "etag"
  have hetag : metaGet (pinned tailGenesis (MemStore.new pedersen)) "head_etag" = none := by
    rw [metaGet_pinned _ _ (by decide), hfresh.metas]
  obtain ⟨out, hout⟩ := applyFeed_tail (t := ready.feed.transport) rfl rfl (by rw [hetag]; rfl)
    (fun stored h => by rw [hfresh.metas] at h; cases h) he hw
  obtain ⟨hparse, -, stored, -, hrep⟩ := hw
  have hblocks : ∀ b ∈ file.blocks, LawfulStore.Fits (MemStore pedersen) b.number := by
    intro b hb
    rw [List.mem_singleton.mp hb]
    exact (by decide : 4 < 2 ^ 64)
  have hgood := good_pinned tailGenesis hfresh.good
  have hrange : LawfulStore.FitsRange (MemStore pedersen)
      (.above (lastEpochTo (pinned tailGenesis (MemStore.new pedersen)))) := by
    rw [he.floor]
    exact (by decide : 0 + 1 < 2 ^ 64)
  obtain ⟨hrows, hgood'⟩ := LawfulStore.rows_replaceRange hgood hrange
    (FeedWrite.tail_lines hparse hblocks).1 hrep
  have hslots : ∀ k n, (LawfulStore.rows s).slots k n =
      ((MemStore.new pedersen).put (.slot 1 4 5)).rows.slots k n := by
    intro k n
    rw [hrows, he.floor, rows_pinned, hfresh.rows, MemStore.rows_put]
    have hempty : (MemStore.new pedersen).rows = Rows.empty := hfresh.rows
    rw [hempty]
    simp [Rows.replace, Rows.putAll, Row.ofBlocks, Row.ofBlock, tailBlocks, file, Rows.put,
      Rows.clear, Rows.empty]
  have hnone : metaGet s "snapshot_basis" = none := by
    rw [LawfulStore.metaGet_replaceRange (by decide) hrep, metaGet_pinned _ _ (by decide),
      hfresh.metas]
    rfl
  refine ⟨out, s, hout, ?_, ?_, he₁.chainId, he₁.pool, hnone⟩
  · have hset : ((MemStore.new pedersen).put (.slot 1 4 5)).fullSlotSetAsOf 4 = [(1, 5)] := by
      decide
    rw [← hset]
    refine MemStore.fullSlotSetAsOf_congr hgood'
      (MemStore.good_put MemStore.good_new (by decide)) fun k => ?_
    rw [MemStore.readSlotAsOf_eq, MemStore.readSlotAsOf_eq]
    exact congrArg Prod.fst (latest_congr fun m _ => hslots k m)
  · rw [LawfulStore.metaGet_replaceRange (by decide) hrep]
    rfl

theorem verify_folded {s : MemStore pedersen} (h : Folded s) :
    ∃ s', verifyState hexParser Consumer.OneSlot.checkpoint poolRoot s = .ok () s' := by
  refine ⟨_, (verifyState_ok hexParser).mpr ⟨?_, ?_, rfl⟩⟩
  · obtain ⟨hhead, hchain, hpool, hbasis⟩ := h.metas
    have hget : ∀ key, key ≠ "verification_failed" →
        metaGet (metaSet s "verification_failed" "1") key = metaGet s key := fun key hkey => by
      rw [LawfulStore.metaGet_metaSet, if_neg hkey]
    rw [checkComparable, checkBoundAboveBasis, metaU64, metaU64, hget "snapshot_basis" (by decide),
      hget "head_number" (by decide), hget "chain_id" (by decide), hget "pool" (by decide), hhead,
      hchain, hpool, hbasis]
    simp only [feltFromHex_feltHex]
    decide
  · show liftFeed (s.trie.update pedersen (s.fullSlotSetAsOf 4)).1 = .ok poolRoot
    rw [h.slotSet, (Trie.CachedTrie.update_accepted s.trieValid (slotSet_single (by decide))).1,
      Consumer.OneSlot.storageRoot_eq]
    rfl

/-- The engine after `apply`. -/
theorem apply_ready : ∃ reply, (ready.apply hexParser Json.parser core "epochs").1 = .ok reply ∧
    (ready.apply hexParser Json.parser core "epochs").2.failed = false ∧
    ∃ text, metaGet (ready.apply hexParser Json.parser core "epochs").2.store
      "verified_checkpoint" = some text ∧
    metaGet (ready.apply hexParser Json.parser core "epochs").2.store
      "verification_failed" = some "0" := by
  obtain ⟨out, s, hfold, hfolded⟩ := apply_folds
  obtain ⟨s', hverify⟩ := verify_folded hfolded
  have hcandidate : Engine.candidate hexParser Json.parser core ready "epochs" =
      .ok (out, Consumer.OneSlot.checkpoint, metaSet s' "applied_manifest" "") := by
    have hfold' : applyFeed hexParser Json.parser ready.feed.transport .epochs ready.store.fork =
        .ok out s := by
      rw [show ready.store.fork = MemStore.new pedersen from fork_new]
      exact hfold
    have hbound : ready.checkSnapshotBound ⟨"SN_MAIN", [], none⟩ Consumer.OneSlot.checkpoint
        "epochs" = .ok () := by
      rw [Engine.checkSnapshotBound]
      split <;> rfl
    rw [Engine.candidate]
    refine Result.bind_eq_ok.mpr ⟨(), hbound, Result.bind_eq_ok.mpr ⟨.epochs, rfl, ?_⟩⟩
    rw [hfold']
    simp only
    rw [hverify]
    rfl
  obtain ⟨-, -, rfl⟩ := (verifyState_ok hexParser).mp hverify
  rw [apply_eq (e := ready) hcandidate]
  refine ⟨_, rfl, rfl, Consumer.OneSlot.checkpoint.toJson, ?_, ?_⟩
  · simp [LawfulStore.metaGet_metaSet]
  · simp [LawfulStore.metaGet_metaSet]

/-- A viewing key. -/
def key : ByteArray := ⟨(List.replicate 31 (0 : UInt8) ++ [1]).toArray⟩

theorem requirement_verified {e : Engine pedersen} (hfailed : e.failed = false) {text : String}
    (hverified : metaGet e.store "verified_checkpoint" = some text)
    (hflag : metaGet e.store "verification_failed" = some "0") :
    ∃ reply, e.requirement hexParser core (feltHex 7) key (feltHex 8) (feltHex 9) = .ok reply := by
  have hfelt : ∀ x : Felt, Engine.felt hexParser (feltHex x) = .ok x := fun x =>
    liftFeed_eq_ok.mpr (feltFromHex_feltHex hexParser x)
  have hkey : secret key = .ok 1 := by decide
  have hgate : e.checkGate = .ok () := by
    rw [Engine.checkGate, hfailed]
    rfl
  have hcheckpoint : checkpoint core.sdk e.store = .ok Consumer.OneSlot.checkpoint := by
    rw [checkpoint, hflag, hverified]
    rfl
  have hsdk : ∃ n, sdkRequirement core.sdk e.store 7 1 8 9 = .ok n := by
    rw [sdkRequirement, hcheckpoint]
    simp only [bind, Except.bind]
    split
    · exact ⟨0, rfl⟩
    · split
      · exact ⟨1, rfl⟩
      · split
        · exact ⟨2, rfl⟩
        · exact ⟨3, rfl⟩
  obtain ⟨n, hn⟩ := hsdk
  refine ⟨.requirement n, ?_⟩
  rw [Engine.requirement]
  refine Result.bind_eq_ok.mpr ⟨(), hgate, Result.bind_eq_ok.mpr ⟨7, hfelt 7,
    Result.bind_eq_ok.mpr ⟨1, hkey, Result.bind_eq_ok.mpr ⟨8, hfelt 8,
      Result.bind_eq_ok.mpr ⟨9, hfelt 9, Result.bind_eq_ok.mpr ⟨n, hn, rfl⟩⟩⟩⟩⟩⟩

end OneSlot

/-- The one-slot pool is staged, folded and asked what a transfer requires. -/
theorem verification_gate_requirement :
    ∃ (history : List (Call × Except Failure Reply)) (e : Engine Consumer.OneSlot.pedersen)
      (reply : Reply),
      (e.exec hexParser Json.parser OneSlot.core
        (.requirement (feltHex 7) OneSlot.key (feltHex 8) (feltHex 9))).1 = .ok reply ∧
      Passed history ∧ Attested hexParser Json.parser OneSlot.core history e.store := by
  obtain ⟨history, hready⟩ := OneSlot.ready_reached
  have happlied : Reached hexParser Json.parser OneSlot.core tailGenesis _
      (OneSlot.ready.apply hexParser Json.parser OneSlot.core "epochs").2 :=
    hready.call (.apply "epochs")
  obtain ⟨_, -, hfailed, text, hverified, hflag⟩ := OneSlot.apply_ready
  generalize (OneSlot.ready.apply hexParser Json.parser OneSlot.core "epochs").2 = e at *
  obtain ⟨reply, hreply⟩ := OneSlot.requirement_verified hfailed hverified hflag
  obtain ⟨hpassed, hattested, -⟩ := (verification_gate hexParser Json.parser OneSlot.core
    tailGenesis happlied (.requirement (feltHex 7) OneSlot.key (feltHex 8) (feltHex 9))).1
    reply trivial hreply
  exact ⟨_, _, reply, hreply, hpassed, hattested⟩

end Strk20.Wasm
