import Strk20.Consumer.Sdk

/-!
# What `sdk::discover` does to the outgoing cursor

A discovery that the cache does not answer saves the outgoing cursor it ran at the
checkpoint's block, from the cursor that was saved before unless a resync or a rewind
dropped it. `resumeCursor` tells that cursor from the state before.

- `triple_discoverState_outgoing`: `discover_state` of a verified host.
- `triple_freshDiscover`: the whole discovery (`Discovered`).
-/

namespace Strk20.Consumer

open Feed Checkpoint
open Effect (lift Triple)

section

variable {S : Type} [ConsumerStore S]

/-- The state at a block. -/
def slotsAt (s : S) (block : Nat) : Felt → Felt :=
  fun slot => (ConsumerStore.readSlotAsOf s slot block).1

/-! ## Where the outgoing scan starts -/

/-- The start of a live pass, from the saved texts. -/
def startFrom (core : DiscoveryCore S) (live ckpt : Option String) :
    Except Failure DiscoveryCursor :=
  match live.filter (· ≠ "") with
  | some json => decodeCursor core json
  | none =>
      match ckpt.filter (· ≠ "") with
      | some json => decodeCursor core json
      | none => .ok .default

theorem liveStart_eq (core : DiscoveryCore S) (s : S) (kind : Kind) (owner : Felt) :
    liveStart core s kind owner =
      startFrom core (metaGet s (keys kind owner).live) (metaGet s (keys kind owner).ckpt) := by
  unfold liveStart startFrom loadCursor
  cases (metaGet s (keys kind owner).live).filter (· ≠ "") with
  | some json => rfl
  | none =>
      cases (metaGet s (keys kind owner).ckpt).filter (· ≠ "") with
      | none => rfl
      | some json =>
          cases hc : decodeCursor core json with
          | error e => simp [hc, Except.map]
          | ok c => simp [hc, Except.map]

/-- The saved outgoing cursor a discovery at the checkpoint resumes from: none after a
resync, the checkpoint pass's one after a rewind. -/
def resumeCursor (core : SdkCore S) (s : S) (owner key : Felt) (cp : TrustedCheckpoint) :
    Except Failure DiscoveryCursor :=
  if cp.blockNumber < metaNumber s (cacheKey owner ++ "_block") ∨
      metaGet s (identityKey owner) ≠ some (fingerprint key) then .ok .default
  else startFrom core.toDiscoveryCore
    (if ownerGeneration s owner ≠ ConsumerStore.tailGeneration s then some ""
      else metaGet s (keys .outgoing owner).live)
    (metaGet s (keys .outgoing owner).ckpt)

end

section

variable {S : Type} [SharedStore S]

theorem slotsAt_congr {s s' : S}
    (h : ConsumerStore.fullSlotSetAsOf s' = ConsumerStore.fullSlotSetAsOf s) :
    slotsAt s' = slotsAt s := by
  funext block k
  have hiff : ∀ v, (v ≠ 0 ∧ slotsAt s' block k = v) ↔ (v ≠ 0 ∧ slotsAt s block k = v) := by
    intro v
    exact (LawfulStore.mem_fullSlotSetAsOf s' block k v).symm.trans
      ((iff_of_eq (by rw [h])).trans (LawfulStore.mem_fullSlotSetAsOf s block k v))
  by_cases hz : slotsAt s' block k = 0
  · by_contra hne
    have hnz : slotsAt s block k ≠ 0 := fun heq => hne (hz.trans heq.symm)
    exact hne ((hiff _).mpr ⟨hnz, rfl⟩).2
  · exact ((hiff _).mp ⟨hz, rfl⟩).2.symm

/-! ## What a discovery does to the outgoing cursor -/

/-- Keys a discovery reads and does not write. -/
def readKeys : List String := ["verification_failed", "verified_checkpoint", "tail_generation"]

/-- A discovery that started on `s₀`: the slots and the keys `fixed` are as they were, and
`live` and `ckpt` are the owner's outgoing cursors. -/
structure Outgoing (owner : Felt) (s₀ : S) (fixed : List String) (live ckpt : Option String)
    (h : Host S) : Prop where
  slotSet : ConsumerStore.fullSlotSetAsOf h.store = ConsumerStore.fullSlotSetAsOf s₀
  kept : ∀ k ∈ fixed, metaGet h.store k = metaGet s₀ k
  live : metaGet h.store (keys .outgoing owner).live = live
  ckpt : metaGet h.store (keys .outgoing owner).ckpt = ckpt

variable {owner : Felt} {s₀ : S} {fixed : List String} {live ckpt : Option String}

theorem Outgoing.mono {fixed' : List String} {h : Host S}
    (hout : Outgoing owner s₀ fixed live ckpt h) (hsub : ∀ k ∈ fixed', k ∈ fixed) :
    Outgoing owner s₀ fixed' live ckpt h :=
  ⟨hout.slotSet, fun k hk => hout.kept k (hsub k hk), hout.live, hout.ckpt⟩

/-- A write under a key that is not fixed. -/
theorem triple_outgoing_metaSet {key value : String} {live' ckpt' : Option String}
    (hfixed : key ∉ fixed)
    (hlive : live' = if (keys .outgoing owner).live = key then some value else live)
    (hckpt : ckpt' = if (keys .outgoing owner).ckpt = key then some value else ckpt) :
    Triple (Outgoing owner s₀ fixed live ckpt) (write fun s => metaSet s key value)
      (fun _ => Outgoing owner s₀ fixed live' ckpt') fun _ => True := by
  refine triple_write (fun h n hout => ⟨?_, ?_, ?_, ?_⟩) fun _ _ => trivial
  · exact (SharedStore.slotSet_metaSet _ _ _).trans hout.slotSet
  · intro k hk
    have hne : k ≠ key := fun heq => hfixed (heq ▸ hk)
    rw [LawfulStore.metaGet_metaSet, if_neg hne]
    exact hout.kept k hk
  · rw [LawfulStore.metaGet_metaSet, hlive, hout.live]
  · rw [LawfulStore.metaGet_metaSet, hckpt, hout.ckpt]

/-- A write to neither cursor. -/
theorem triple_outgoing_other {key value : String} (hfixed : key ∉ fixed)
    (hlive : key ≠ (keys .outgoing owner).live) (hckpt : key ≠ (keys .outgoing owner).ckpt) :
    Triple (Outgoing owner s₀ fixed live ckpt) (write fun s => metaSet s key value)
      (fun _ => Outgoing owner s₀ fixed live ckpt) fun _ => True :=
  triple_outgoing_metaSet hfixed (if_neg hlive.symm).symm (if_neg hckpt.symm).symm

theorem triple_outgoing_mirror {f : S → S} (hf : ∀ s, SameMirror s (f s)) :
    Triple (Outgoing owner s₀ fixed live ckpt) (write f)
      (fun _ => Outgoing owner s₀ fixed live ckpt) fun _ => True :=
  triple_write (fun h _ hout => ⟨(hf h.store).slotSet.trans hout.slotSet,
    fun k hk => ((hf h.store).metas k).trans (hout.kept k hk),
    ((hf h.store).metas _).trans hout.live, ((hf h.store).metas _).trans hout.ckpt⟩)
    fun _ _ => trivial

/-- Keys that no discovery of the owner writes before its stamp. -/
def heldKeys (owner : Felt) : List String := genKey owner :: readKeys

theorem readKeys_not_own (owner : Felt) {k : String} (hk : k ∈ readKeys) : k ∉ ownKeys owner := by
  simp only [readKeys, List.mem_cons, List.not_mem_nil, or_false] at hk
  rcases hk with rfl | rfl | rfl
  · exact not_mem_ownKeys owner (by decide)
  · exact not_mem_ownKeys owner (by decide)
  · exact tailGeneration_not_mem owner

theorem not_mem_heldKeys {key : String} (hown : key ∈ ownKeys owner) (hgen : key ≠ genKey owner) :
    key ∉ heldKeys owner := by
  intro hmem
  rcases List.mem_cons.mp hmem with heq | hread
  · exact hgen heq
  · exact readKeys_not_own owner hread hown

theorem sdk_ne_ckpt (x : String) (kind : Kind) (owner : Felt) :
    "sdk_" ++ feltHex owner ++ x ≠ (keys kind owner).ckpt := by
  rw [String.append_assoc]
  cases kind
  · exact append_ne (p := "sdk_") (q := "ckpt_in_") _ _ (by decide)
  · exact append_ne (p := "sdk_") (q := "ckpt_out_") _ _ (by decide)

theorem triple_outgoing_fullResync :
    Triple (Outgoing owner s₀ (heldKeys owner) live ckpt) (fullResync owner)
      (fun _ => Outgoing owner s₀ (heldKeys owner) (some "") (some "")) fun _ => True := by
  have hkind : ∀ {live ckpt : Option String} (kind : Kind),
      Triple (Outgoing owner s₀ (heldKeys owner) live ckpt) (do
          write fun s : S => metaSet s (keys kind owner).live ""
          write fun s => metaSet s (keys kind owner).ckpt ""
          write fun s => metaSet s (keys kind owner).ckptAt "")
        (fun _ => Outgoing owner s₀ (heldKeys owner) (if kind = .outgoing then some "" else live)
          (if kind = .outgoing then some "" else ckpt)) fun _ => True := by
    intro live ckpt kind
    refine Triple.bind (triple_outgoing_metaSet
      (not_mem_heldKeys (live_mem_ownKeys kind owner) (live_ne_genKey kind owner)) rfl rfl)
      fun _ => Triple.bind (triple_outgoing_metaSet
        (not_mem_heldKeys (ckpt_mem_ownKeys kind owner) (ckpt_ne_genKey kind owner)) rfl rfl)
        fun _ => triple_outgoing_metaSet
          (not_mem_heldKeys (ckptAt_mem_ownKeys kind owner) (ckptAt_ne_genKey kind owner)) ?_ ?_
    · rw [if_neg (ckptAt_ne_live kind .outgoing owner).symm,
        if_neg (ckpt_ne_live kind .outgoing owner).symm]
      cases kind with
      | incoming => rw [if_neg (by decide), if_neg fun heq => absurd (live_inj heq) (by decide)]
      | outgoing => rw [if_pos rfl, if_pos rfl]
    · have hat : (keys .outgoing owner).ckpt ≠ (keys kind owner).ckptAt := by
        cases kind <;> exact append_ne _ _ (by decide)
      rw [if_neg hat, if_neg (ckpt_ne_live .outgoing kind owner)]
      cases kind with
      | incoming =>
          have hne : (keys .outgoing owner).ckpt ≠ (keys .incoming owner).ckpt :=
            append_ne _ _ (by decide)
          rw [if_neg (by decide), if_neg hne]
      | outgoing => rw [if_pos rfl, if_pos rfl]
  rw [fullResync]
  refine Triple.bind (M := fun _ => Outgoing owner s₀ (heldKeys owner) (some "") (some ""))
    (Triple.bind (hkind .incoming) fun _ => Triple.bind (hkind .outgoing) fun _ =>
      Triple.pure fun _ hout => hout) fun _ => ?_
  refine Triple.bind (triple_outgoing_other (not_mem_heldKeys (by simp [ownKeys])
    (sdk_ne_genKey "_stamp" owner)) (sdk_ne_live "_stamp" .outgoing owner)
    (sdk_ne_ckpt "_stamp" .outgoing owner)) fun _ => ?_
  refine Triple.bind (triple_outgoing_other (not_mem_heldKeys (by simp [ownKeys])
    (sdk_ne_genKey "_block" owner)) (sdk_ne_live "_block" .outgoing owner)
    (sdk_ne_ckpt "_block" .outgoing owner)) fun _ => ?_
  exact triple_outgoing_mirror fun s => SharedStore.deleteOwnerNotes_mirror s owner

/-- Another viewing key leaves no cursor. -/
theorem triple_outgoing_checkIdentity (key : Felt) (ident : Option String) :
    Triple (fun h => Outgoing owner s₀ (heldKeys owner) live ckpt h ∧
        metaGet h.store (identityKey owner) = ident) (checkIdentity owner key)
      (fun _ => Outgoing owner s₀ (heldKeys owner)
        (if ident ≠ some (fingerprint key) then some "" else live)
        (if ident ≠ some (fingerprint key) then some "" else ckpt)) fun _ => True := by
  rw [checkIdentity]
  refine Triple.get fun t => ?_
  by_cases hident : metaGet t.store (identityKey owner) ≠ some (fingerprint key)
  · rw [if_pos hident]
    by_cases hne : ident ≠ some (fingerprint key)
    · rw [if_pos hne, if_pos hne]
      refine Triple.bind (triple_outgoing_fullResync.weaken (fun h hh => hh.2.1)
        fun _ _ hout => hout) fun _ => ?_
      refine triple_outgoing_other (not_mem_heldKeys (by simp [ownKeys])
        (ne_genKey (p := "key_") owner (by decide))) (identityKey_ne_live .outgoing owner) ?_
      exact append_ne (p := "key_") (q := "ckpt_out_") _ _ (by decide)
    · rintro h ⟨rfl, -, heq⟩
      exact absurd (heq ▸ hident) hne
  · rw [if_neg hident]
    refine Triple.pure ?_
    rintro h ⟨rfl, hout, heq⟩
    rw [if_neg (heq ▸ hident), if_neg (heq ▸ hident)]
    exact hout

theorem Outgoing.generation_eq {h : Host S} (hout : Outgoing owner s₀ fixed live ckpt h)
    (hmem : "tail_generation" ∈ fixed) :
    ConsumerStore.tailGeneration h.store = ConsumerStore.tailGeneration s₀ := by
  rw [SharedStore.tailGeneration_eq, SharedStore.tailGeneration_eq, generation, generation, metaU64,
    metaU64, hout.kept _ hmem]

theorem Outgoing.ownerGeneration_eq {h : Host S} (hout : Outgoing owner s₀ fixed live ckpt h)
    (hmem : genKey owner ∈ fixed) : ownerGeneration h.store owner = ownerGeneration s₀ owner := by
  rw [ownerGeneration, ownerGeneration, metaU64, metaU64, hout.kept _ hmem]

/-- Behind the mirror's generation, the live cursor is dropped. -/
theorem triple_outgoing_rewindLive (core : DiscoveryCore S) (head : Nat) :
    Triple (Outgoing owner s₀ (heldKeys owner) live ckpt)
      (rewindLive core owner (ConsumerStore.tailGeneration s₀) head)
      (fun _ => Outgoing owner s₀ (heldKeys owner)
        (if ownerGeneration s₀ owner ≠ ConsumerStore.tailGeneration s₀ then some "" else live) ckpt)
      fun _ => True := by
  rw [rewindLive]
  refine Triple.get fun t => ?_
  by_cases hne : ownerGeneration t.store owner ≠ ConsumerStore.tailGeneration s₀
  · rw [if_pos hne]
    have hin : Triple (Outgoing owner s₀ (heldKeys owner) live ckpt)
        (write fun s : S => metaSet s (keys .incoming owner).live "")
        (fun _ => Outgoing owner s₀ (heldKeys owner) live ckpt) fun _ => True :=
      triple_outgoing_other
        (not_mem_heldKeys (live_mem_ownKeys .incoming owner) (live_ne_genKey .incoming owner))
        (fun heq => absurd (live_inj heq) (by decide)) (ckpt_ne_live .outgoing .incoming owner).symm
    by_cases hbehind : ownerGeneration s₀ owner ≠ ConsumerStore.tailGeneration s₀
    · rw [if_pos hbehind]
      refine Triple.bind (hin.weaken (fun h hh => hh.2) fun _ _ hout => hout) fun _ => ?_
      refine Triple.bind (triple_outgoing_metaSet (not_mem_heldKeys
        (live_mem_ownKeys .outgoing owner) (live_ne_genKey .outgoing owner))
        (if_pos rfl).symm (if_neg (ckpt_ne_live .outgoing .outgoing owner)).symm) fun _ => ?_
      exact Triple.bind (triple_pruneMissingNotes triple_outgoing_mirror core owner head) fun _ =>
        Triple.pure fun _ hout => hout
    · rintro h ⟨rfl, hout⟩
      rw [hout.ownerGeneration_eq List.mem_cons_self] at hne
      exact absurd hne hbehind
  · rw [if_neg hne]
    refine Triple.pure ?_
    rintro h ⟨rfl, hout⟩
    rw [hout.ownerGeneration_eq List.mem_cons_self] at hne
    rw [if_neg hne]
    exact hout

theorem triple_outgoing_incomingPass (core : DiscoveryCore S) (key : Felt) (bound : Nat)
    (start : DiscoveryCursor) :
    Triple (Outgoing owner s₀ (heldKeys owner) live ckpt)
      (incomingPass core true owner key bound start (keys .incoming owner).live)
      (fun _ => Outgoing owner s₀ (heldKeys owner) live ckpt) fun _ => True := by
  rw [incomingPass]
  refine Triple.bind (M := fun _ => Outgoing owner s₀ (heldKeys owner) live ckpt)
    (fun h hout => ⟨hout.slotSet, hout.kept, hout.live, hout.ckpt⟩) fun _ => Triple.read fun t => ?_
  refine Triple.bind (Triple.lift (fun _ _ _ hout => hout) fun _ _ => trivial) fun r => ?_
  refine Triple.bind (triple_registerNotes triple_outgoing_mirror core owner key r.1 r.2)
    fun _ => ?_
  refine Triple.bind (triple_registerScannedNotes triple_outgoing_mirror core owner key r.1 bound)
    fun _ => ?_
  refine Triple.bind (triple_outgoing_other
    (not_mem_heldKeys (live_mem_ownKeys .incoming owner) (live_ne_genKey .incoming owner))
    (fun heq => absurd (live_inj heq) (by decide)) (ckpt_ne_live .outgoing .incoming owner).symm)
    fun _ => Triple.pure fun _ hout => hout

/-- The outgoing cursor `c` was run from the saved one over the state of `s₀`. -/
def Scanned (core : DiscoveryCore S) (owner key : Felt) (s₀ : S) (bound : Nat)
    (live ckpt : Option String) (c : DiscoveryCursor) : Prop :=
  ∃ start s, startFrom core live ckpt = .ok start ∧
    ConsumerStore.fullSlotSetAsOf s = ConsumerStore.fullSlotSetAsOf s₀ ∧
    runOutgoing core s bound owner key start = .ok c

theorem triple_outgoing_outgoingPass (core : DiscoveryCore S) (key : Felt) (bound : Nat)
    {start : DiscoveryCursor} (hstart : startFrom core live ckpt = .ok start) :
    Triple (Outgoing owner s₀ (heldKeys owner) live ckpt)
      (outgoingPass core true owner key bound start (keys .outgoing owner).live)
      (fun _ h => ∃ c, Scanned core owner key s₀ bound live ckpt c ∧
        Outgoing owner s₀ (heldKeys owner) (some (core.toJson c)) ckpt h) fun _ => True := by
  rw [outgoingPass]
  refine Triple.bind (M := fun _ => Outgoing owner s₀ (heldKeys owner) live ckpt)
    (fun h hout => ⟨hout.slotSet, hout.kept, hout.live, hout.ckpt⟩) fun _ => Triple.get fun t => ?_
  refine Triple.bind (M := fun c h => Scanned core owner key s₀ bound live ckpt c ∧
    Outgoing owner s₀ (heldKeys owner) live ckpt h) (Triple.lift ?_ fun _ _ => trivial) fun c => ?_
  · rintro c h hrun ⟨rfl, hout⟩
    exact ⟨⟨start, h.store, hstart, hout.slotSet, hrun⟩, hout⟩
  · refine Triple.of_and fun hscan => Triple.bind (triple_outgoing_metaSet (not_mem_heldKeys
      (live_mem_ownKeys .outgoing owner) (live_ne_genKey .outgoing owner)) (if_pos rfl).symm
      (if_neg (ckpt_ne_live .outgoing .outgoing owner)).symm) fun _ =>
      Triple.pure fun _ hout => ⟨c, hscan, hout⟩

/-- The read behind the stamp leaves the store. -/
theorem triple_readNotes_outgoing {Q : DiscoveryCursor → Prop} {toJson : DiscoveryCursor → String}
    (other : Felt) :
    Triple (fun h => ∃ c ckpt', Q c ∧
        Outgoing owner s₀ fixed (some (toJson c)) ckpt' h) (readNotes other)
      (fun _ h => ∃ c ckpt', Q c ∧ Outgoing owner s₀ fixed (some (toJson c)) ckpt' h)
      fun _ => True := by
  rintro h ⟨c, ckpt', hc, hout⟩
  rw [readNotes]
  cases h.budget with
  | zero => trivial
  | succ n => exact ⟨c, ckpt', hc, hout.slotSet, hout.kept, hout.live, hout.ckpt⟩

/-- What a verified discovery leaves: its outgoing cursor, run from the one that was saved
unless the key or the generation has changed. -/
theorem triple_discoverState_outgoing (core : DiscoveryCore S) (key : Felt)
    (outcome : ApplyOutcome) (ident : Option String) :
    Triple (fun h => Outgoing owner s₀ (heldKeys owner) live ckpt h ∧
        metaGet h.store (identityKey owner) = ident)
      (discoverState core owner key outcome "rpc-verified")
      (fun _ h => ∃ c ckpt', Scanned core owner key s₀ outcome.head
          (if ident ≠ some (fingerprint key) ∨
            ownerGeneration s₀ owner ≠ ConsumerStore.tailGeneration s₀ then some "" else live)
          (if ident ≠ some (fingerprint key) then some "" else ckpt) c ∧
        Outgoing owner s₀ readKeys (some (core.toJson c)) ckpt' h) fun _ => True := by
  set ckpt₁ := if ident ≠ some (fingerprint key) then some "" else ckpt with hckpt
  set live₂ := if ident ≠ some (fingerprint key) ∨
    ownerGeneration s₀ owner ≠ ConsumerStore.tailGeneration s₀ then some "" else live with hlive
  have hlive₂ : (if ownerGeneration s₀ owner ≠ ConsumerStore.tailGeneration s₀ then some ""
      else if ident ≠ some (fingerprint key) then some "" else live) = live₂ := by
    rw [hlive]
    by_cases hgen : ownerGeneration s₀ owner ≠ ConsumerStore.tailGeneration s₀
    · rw [if_pos hgen, if_pos (.inr hgen)]
    · rw [if_neg hgen]
      simp only [hgen, or_false]
  rw [discoverState]
  refine Triple.bind (M := fun _ h => ∃ c ckpt', Scanned core owner key s₀ outcome.head live₂ ckpt₁ c ∧
    Outgoing owner s₀ readKeys (some (core.toJson c)) ckpt' h) ?_ fun found =>
    Triple.bind (triple_readNotes_outgoing owner) fun notes => Triple.pure fun _ hout => hout
  rw [discoverStamped]
  refine Triple.bind (triple_outgoing_checkIdentity key ident) fun _ => Triple.get fun t => ?_
  refine Triple.bind (M := fun _ => Outgoing owner s₀ (heldKeys owner) live₂ ckpt₁) ?_
    fun rewound => ?_
  · rintro h ⟨rfl, hout⟩
    rw [hout.generation_eq (by simp [heldKeys, readKeys]), ← hlive₂]
    exact triple_outgoing_rewindLive core outcome.head h hout
  refine Triple.bind (M := fun _ => Outgoing owner s₀ (heldKeys owner) live₂ ckpt₁) ?_ fun _ => ?_
  · rw [checkpointPass, if_neg (by simp)]
    exact Triple.pure fun _ hout => hout
  refine Triple.read fun h₁ => Triple.bind (Triple.lift (fun _ _ _ hout => hout) fun _ _ => trivial)
    fun start => Triple.bind (triple_outgoing_incomingPass core key outcome.head start)
      fun inCursor => ?_
  refine Triple.get fun h₂ => Triple.bind (M := fun start h => startFrom core live₂ ckpt₁ = .ok start ∧
    Outgoing owner s₀ (heldKeys owner) live₂ ckpt₁ h) (Triple.lift ?_ fun _ _ => trivial)
    fun start => Triple.of_and fun hstart => ?_
  · rintro start h hstart ⟨rfl, hout⟩
    rw [liveStart_eq, hout.live, hout.ckpt] at hstart
    exact ⟨hstart, hout⟩
  refine Triple.bind (triple_outgoing_outgoingPass core key outcome.head hstart)
    fun outCursor => Triple.of_exists fun c => Triple.of_and fun hscan => ?_
  refine Triple.bind (triple_refreshSpent triple_outgoing_mirror core owner outcome.head)
    fun newlySpent => ?_
  -- the stamp is one of the keys held so far
  refine Triple.bind (M := fun _ => Outgoing owner s₀ readKeys (some (core.toJson c)) ckpt₁) ?_
    fun _ => Triple.pure fun _ hout => ⟨c, ckpt₁, hscan, hout⟩
  refine (triple_outgoing_other (fun hmem => readKeys_not_own owner hmem (by simp [ownKeys]))
    (live_ne_genKey .outgoing owner).symm (ckpt_ne_genKey .outgoing owner).symm).weaken
    (fun h hout => hout.mono fun k hk => List.mem_cons_of_mem _ hk) fun _ _ hout => hout

/-! ## A discovery at a checkpoint -/

theorem known_not_mem_readKeys (x : String) : "known_" ++ x ∉ readKeys := by
  intro hmem
  simp only [readKeys, List.mem_cons, List.not_mem_nil, or_false] at hmem
  rcases hmem with heq | heq | heq
  · exact append_ne (p := "known_") (q := "verification_failed") x "" (by decide) heq
  · exact append_ne (p := "known_") (q := "verified_checkpoint") x "" (by decide) heq
  · exact append_ne (p := "known_") (q := "tail_generation") x "" (by decide) heq

theorem sdk_not_mem_readKeys (x : String) : "sdk_" ++ x ∉ readKeys := by
  intro hmem
  simp only [readKeys, List.mem_cons, List.not_mem_nil, or_false] at hmem
  rcases hmem with heq | heq | heq
  · exact append_ne (p := "sdk_") (q := "verification_failed") x "" (by decide) heq
  · exact append_ne (p := "sdk_") (q := "verified_checkpoint") x "" (by decide) heq
  · exact append_ne (p := "sdk_") (q := "tail_generation") x "" (by decide) heq

theorem triple_outgoing_sdkNotes (core : SdkCore S) (cp : TrustedCheckpoint)
    (incoming : DiscoveryCursor) (rewound : Bool) (rows : List NoteRow) :
    Triple (Outgoing owner s₀ readKeys live ckpt) (sdkNotes core cp incoming rewound rows)
      (fun _ => Outgoing owner s₀ readKeys live ckpt) fun _ => True := by
  have hknown : ∀ x value : String, Triple (Outgoing owner s₀ readKeys live ckpt)
      (write fun s : S => metaSet s ("known_" ++ x) value)
      (fun _ => Outgoing owner s₀ readKeys live ckpt) fun _ => True := by
    intro x value
    exact triple_outgoing_other (known_not_mem_readKeys x)
      (append_ne (p := "known_") (q := "cur_out_") x _ (by decide))
      (append_ne (p := "known_") (q := "ckpt_out_") x _ (by decide))
  induction rows with
  | nil => exact Triple.pure fun _ hout => hout
  | cons n rest ih =>
      rw [sdkNotes]
      refine Triple.bind (M := fun _ => Outgoing owner s₀ readKeys live ckpt) ?_ fun note =>
        Triple.bind ih fun notes => Triple.pure fun _ hout => hout
      rw [sdkNote]
      cases incoming.channels.lookup n.sender with
      | none => exact Triple.throw fun _ _ => trivial
      | some channel =>
          refine Triple.read fun t => Triple.bind (hknown _ _) fun _ => ?_
          refine Triple.bind ?_ fun _ => Triple.pure fun _ hout => hout
          rw [knownKey, String.append_assoc]
          exact hknown _ _

omit [SharedStore S] in
theorem startFrom_dropped (core : DiscoveryCore S) :
    startFrom core (some "") (some "") = .ok .default := rfl

/-- The outgoing cursor of a discovery that was not answered from the cache. -/
def FreshCursor (core : SdkCore S) (owner key : Felt) (s : S) (cp : TrustedCheckpoint)
    (c : DiscoveryCursor) : Prop :=
  ∃ start s', resumeCursor core s owner key cp = .ok start ∧
    ConsumerStore.fullSlotSetAsOf s' = ConsumerStore.fullSlotSetAsOf s ∧
    runOutgoing core.toDiscoveryCore s' cp.blockNumber owner key start = .ok c

/-- Up to the report: the saved cursor is run from `resumeCursor`. -/
theorem triple_freshCursor (core : SdkCore S) (key : Felt) (s : S) (cp : TrustedCheckpoint) :
    Triple (fun h => h.store = s) (do
        resyncAbove owner cp
        discoverState core.toDiscoveryCore owner key (checkpointOutcome (← get).store cp)
          "rpc-verified")
      (fun _ h => ∃ c ckpt, FreshCursor core owner key s cp c ∧
        Outgoing owner s readKeys (some (core.toJson c)) ckpt h) fun _ => True := by
  have hstart : ∀ h : Host S, h.store = s → Outgoing owner s (heldKeys owner)
      (metaGet s (keys .outgoing owner).live) (metaGet s (keys .outgoing owner).ckpt) h := by
    rintro h rfl
    exact ⟨rfl, fun _ _ => rfl, rfl, rfl⟩
  by_cases hlow : cp.blockNumber < metaNumber s (cacheKey owner ++ "_block")
  · refine Triple.bind (M := fun _ => Outgoing owner s (heldKeys owner) (some "") (some "")) ?_
      fun _ => Triple.read fun t => ?_
    · rw [resyncAbove]
      refine Triple.get fun t => ?_
      by_cases ht : t.store = s
      · rw [ht, if_pos hlow]
        exact triple_outgoing_fullResync.weaken (fun h hh => hstart h hh.2) fun _ _ hout => hout
      · rintro h ⟨rfl, hs⟩
        exact absurd hs ht
    · have hany : ∀ ident : Option String, Triple (fun h : Host S =>
            Outgoing owner s (heldKeys owner) (some "") (some "") h ∧
              metaGet h.store (identityKey owner) = ident)
          (discoverState core.toDiscoveryCore owner key (checkpointOutcome t.store cp)
            "rpc-verified")
          (fun _ h => ∃ c ckpt, FreshCursor core owner key s cp c ∧
            Outgoing owner s readKeys (some (core.toJson c)) ckpt h) fun _ => True := by
        intro ident
        refine (triple_discoverState_outgoing core.toDiscoveryCore key
          (checkpointOutcome t.store cp) ident).weaken (fun _ hh => hh) ?_
        rintro _ h ⟨c, ckpt', ⟨start, s', hfrom, hslots, hrun⟩, hout⟩
        refine ⟨c, ckpt', ⟨start, s', ?_, hslots, hrun⟩, hout⟩
        rw [ite_self, ite_self, startFrom_dropped] at hfrom
        rw [resumeCursor, if_pos (.inl hlow), hfrom]
      exact (Triple.of_exists hany).weaken (fun h hout => ⟨_, hout, rfl⟩) fun _ _ hp => hp
  · refine Triple.bind (M := fun _ => fun h => h.store = s) ?_ fun _ => Triple.read fun t => ?_
    · rw [resyncAbove]
      refine Triple.get fun t => ?_
      by_cases ht : t.store = s
      · rw [ht, if_neg hlow]
        exact Triple.pure fun h hh => hh.2
      · rintro h ⟨rfl, hs⟩
        exact absurd hs ht
    · refine (triple_discoverState_outgoing core.toDiscoveryCore key (checkpointOutcome t.store cp)
        (metaGet s (identityKey owner))).weaken (fun h hs => ⟨hstart h hs, by rw [hs]⟩) ?_
      rintro _ h ⟨c, ckpt', ⟨start, s', hfrom, hslots, hrun⟩, hout⟩
      refine ⟨c, ckpt', ⟨start, s', ?_, hslots, hrun⟩, hout⟩
      rw [resumeCursor]
      by_cases hident : metaGet s (identityKey owner) ≠ some (fingerprint key)
      · rw [if_pos (.inl hident), if_pos hident, startFrom_dropped] at hfrom
        rw [if_pos (.inr hident), hfrom]
      · rw [if_neg (not_or.mpr ⟨hlow, hident⟩)]
        simpa only [hident, false_or, if_false] using hfrom

/-- What a discovery at a checkpoint leaves when the cache did not answer it. -/
structure Discovered (core : SdkCore S) (owner key : Felt) (s : S) (cp : TrustedCheckpoint)
    (stamp : String) (c : DiscoveryCursor) (s' : S) : Prop where
  cursor : FreshCursor core owner key s cp c
  live : metaGet s' (keys .outgoing owner).live = some (core.toJson c)
  stamp : metaGet s' (cacheKey owner ++ "_stamp") = some stamp
  slotSet : ConsumerStore.fullSlotSetAsOf s' = ConsumerStore.fullSlotSetAsOf s
  kept : ∀ k ∈ readKeys, metaGet s' k = metaGet s k

theorem triple_freshDiscover (core : SdkCore S) (key : Felt) (s : S) (cp : TrustedCheckpoint)
    (stamp : String) :
    Triple (fun h => h.store = s) (freshDiscover core owner key cp stamp)
      (fun _ h => ∃ c, Discovered core owner key s cp stamp c h.store) fun _ => True := by
  have hsplit : freshDiscover core owner key cp stamp = (do
      resyncAbove owner cp
      discoverState core.toDiscoveryCore owner key (checkpointOutcome (← get).store cp)
        "rpc-verified") >>= fun report => (do
      let incoming ← lift (sdkCursor core (← get).store .incoming owner)
      let notes ← sdkNotes core cp incoming report.tailRewound
        (ConsumerStore.notes (← get).store owner)
      let result := core.renderDiscover ⟨cp.blockNumber, cp.blockHash, notes, incoming,
        report.incomingComplete, report.outgoingComplete, report.historyFrom⟩
      write fun s => metaSet s (cacheKey owner) result
      write fun s => metaSet s (cacheKey owner ++ "_stamp") stamp
      write fun s => metaSet s (cacheKey owner ++ "_block") cp.blockNumber.repr
      pure result) := by
    rw [freshDiscover]
    simp only [bind_assoc]
  have hsdk : ∀ {live ckpt : Option String} (x value : String),
      Triple (Outgoing owner s readKeys live ckpt)
        (write fun s : S => metaSet s ("sdk_" ++ x) value)
        (fun _ => Outgoing owner s readKeys live ckpt) fun _ => True := by
    intro live ckpt x value
    exact triple_outgoing_other (sdk_not_mem_readKeys x)
      (append_ne (p := "sdk_") (q := "cur_out_") x _ (by decide))
      (append_ne (p := "sdk_") (q := "ckpt_out_") x _ (by decide))
  rw [hsplit]
  refine Triple.bind (triple_freshCursor core key s cp) fun report =>
    Triple.of_exists fun c => Triple.of_exists fun ckpt => Triple.of_and fun hfresh => ?_
  refine Triple.read fun t => Triple.bind (Triple.lift (fun _ _ _ hout => hout) fun _ _ => trivial)
    fun incoming => Triple.read fun t' => ?_
  refine Triple.bind (triple_outgoing_sdkNotes core cp incoming report.tailRewound _) fun notes => ?_
  refine Triple.bind (hsdk _ _) fun _ => ?_
  have hown : ∀ x value : String, Triple (Outgoing owner s readKeys (some (core.toJson c)) ckpt)
      (write fun s : S => metaSet s (cacheKey owner ++ x) value)
      (fun _ => Outgoing owner s readKeys (some (core.toJson c)) ckpt) fun _ => True := by
    intro x value
    rw [cacheKey, String.append_assoc]
    exact hsdk _ _
  have hstamped : Triple (fun _ : Host S => True)
      (write fun s : S => metaSet s (cacheKey owner ++ "_stamp") stamp)
      (fun _ h => metaGet h.store (cacheKey owner ++ "_stamp") = some stamp) fun _ => True := by
    refine triple_write (fun h n _ => ?_) fun _ _ => trivial
    rw [LawfulStore.metaGet_metaSet, if_pos rfl]
  -- the block is written under another key
  have hkeep : Triple (fun h : Host S => metaGet h.store (cacheKey owner ++ "_stamp") = some stamp)
      (write fun s : S => metaSet s (cacheKey owner ++ "_block") cp.blockNumber.repr)
      (fun _ h => metaGet h.store (cacheKey owner ++ "_stamp") = some stamp) fun _ => True := by
    refine triple_write (fun h n hstamp => ?_) fun _ _ => trivial
    have hne : cacheKey owner ++ "_stamp" ≠ cacheKey owner ++ "_block" := by
      intro heq
      exact absurd ((String.append_right_inj (cacheKey owner)).mp heq) (by decide)
    rw [LawfulStore.metaGet_metaSet, if_neg hne]
    exact hstamp
  refine Triple.bind (((hown "_stamp" stamp).and hstamped).weaken (fun _ hout => ⟨hout, trivial⟩)
    fun _ _ hout => hout) fun _ => Triple.bind ((hown "_block" _).and hkeep) fun _ => Triple.pure ?_
  rintro h ⟨hout, hstamp⟩
  exact ⟨c, hfresh, hout.live, hstamp, hout.slotSet, hout.kept⟩

theorem checkpoint_congr (core : SdkCore S) {s s' : S}
    (h : ∀ k ∈ readKeys, metaGet s' k = metaGet s k) : checkpoint core s' = checkpoint core s := by
  rw [checkpoint, checkpoint, h "verification_failed" (by decide),
    h "verified_checkpoint" (by decide)]

end

end Strk20.Consumer
