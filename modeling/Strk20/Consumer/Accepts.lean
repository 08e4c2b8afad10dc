import Strk20.Consumer.History

/-!
# When a call returns `Ok`

The converse of the inversion of a call: a feed that passes the checks one by
one is folded, whatever lawful store it meets. The one condition that no check
of the source names is that an epoch's range is not turned around.
-/

namespace Strk20.Consumer

open Feed Json Result
open Effect (lift)

section

variable {S : Type} (P : FeltParser) (J : JsonParser)

/-- The head step has nothing new, or a head that leaves no hole above the
floor. -/
def HeadReady [ConsumerStore S] (t : FeedTransport) (s : S) : Prop :=
  t.fetchHead (metaGet s "head_etag") = .ok none ∨
    ∃ payload etag head, t.fetchHead (metaGet s "head_etag") = .ok (some (payload, etag)) ∧
      Codec.parseHead P J payload = .ok head ∧
      head.header.tailFrom ≤ (lastEpochTo s + 1) % 2 ^ 64

/-- A feed that passes every check of a call. -/
structure Accepts [ConsumerStore S] (c : Call) (s : S) where
  genesis : Genesis
  manifest : Manifest
  feedPool : Felt
  prevHash : Option Key
  snapshot : Option Snapshot
  epochs : List AppliedEpoch
  genesis_ok : c.transport.fetchGenesis = .ok genesis
  pool_ok : ∀ stored ∈ metaGet s "pool", stored = genesis.pool
  chain_ok : ∀ stored ∈ metaGet (pinned genesis s) "chain_id", stored = genesis.chainId
  manifest_ok : c.transport.fetchManifest = .ok manifest
  agrees : manifest.chainId = genesis.chainId
  feedPool_ok : feltFromHex P genesis.pool = .ok feedPool
  available : c.mode = .snapshot → ConsumerStore.isEmpty (pinned genesis s) = true →
    manifest.snapshot ≠ none
  snapshot_ok : installed P J c.transport c.mode manifest genesis feedPool (pinned genesis s) =
    .ok snapshot
  prevHash_ok : storedHash (withSnapshot (pinned genesis s) snapshot) = .ok prevHash
  divergence_ok : checkDivergence manifest
    (metaU64 (withSnapshot (pinned genesis s) snapshot) "last_epoch_applied") prevHash = .ok ()
  epochs_ok : verifyEpochs P J c.transport genesis feedPool manifest.epochs
    (metaU64 (withSnapshot (pinned genesis s) snapshot) "last_epoch_applied") prevHash = .ok epochs
  proper : ∀ a ∈ epochs, a.entry.first ≤ a.entry.last
  head_ok : ∀ folded, Folds epochs (withSnapshot (pinned genesis s) snapshot) folded →
    HeadReady P J c.transport folded

section Steps

variable [ConsumerStore S] {t : FeedTransport} {s : S}

theorem fetchManifest_eq_ok {genesis : Genesis} {manifest : Manifest} :
    fetchManifest t genesis = .ok manifest ↔
      t.fetchManifest = .ok manifest ∧ manifest.chainId = genesis.chainId := by
  rw [fetchManifest]
  constructor
  · intro h
    obtain ⟨m, hm, h⟩ := bind_eq_ok.mp h
    obtain ⟨hagree, h⟩ := ite_throw_eq_ok.mp h
    obtain rfl := pure_eq_ok.mp h
    exact ⟨hm, not_not.mp hagree⟩
  · rintro ⟨hm, hagree⟩
    exact bind_eq_ok.mpr ⟨manifest, hm, ite_throw_eq_ok.mpr ⟨not_not.mpr hagree, rfl⟩⟩

theorem pinGenesis_eq {genesis : Genesis}
    (h : ∀ stored ∈ metaGet s "pool", stored = genesis.pool) :
    pinGenesis genesis s = .ok () (pinned genesis s) := by
  rw [pinGenesis, Effect.get_bind, pinned]
  cases hp : metaGet s "pool" with
  | none => rfl
  | some stored =>
      simp only
      rw [if_neg (not_not.mpr (h stored hp))]
      rfl

theorem checkChainId_eq {genesis : Genesis}
    (h : ∀ stored ∈ metaGet s "chain_id", stored = genesis.chainId) :
    checkChainId genesis s = .ok () s := by
  rw [checkChainId, Effect.get_bind]
  cases hp : metaGet s "chain_id" with
  | none => rfl
  | some stored =>
      simp only
      rw [if_neg (not_not.mpr (h stored hp))]
      rfl

theorem coldStart_eq {mode : ColdStart} {manifest : Manifest} {genesis : Genesis}
    {feedPool : Felt} {snap : Option Snapshot}
    (hsnap : installed P J t mode manifest genesis feedPool s = .ok snap)
    (havail : mode = .snapshot → ConsumerStore.isEmpty s = true → manifest.snapshot ≠ none) :
    coldStart P J t mode manifest genesis feedPool s = .ok () (withSnapshot s snap) := by
  rw [installed] at hsnap
  rw [coldStart, Effect.get_bind]
  split at hsnap
  · rename_i hc
    rw [if_pos hc]
    cases hm : manifest.snapshot with
    | none =>
        simp only [hm] at hsnap
        cases hsnap
        simp only
        rw [if_neg fun hmode => havail hmode hc.2 hm]
        rfl
    | some entry =>
        simp only [hm] at hsnap
        cases hf : fetchSnapshot P J t manifest entry genesis feedPool with
        | error e =>
            rw [hf] at hsnap
            cases hsnap
        | ok x =>
            rw [hf] at hsnap
            cases hsnap
            simp only [coldStartFromSnapshot]
            rw [Effect.bind_of_ok (Effect.lift_ok.mpr ⟨hf, rfl⟩)]
            rfl
  · rename_i hc
    cases hsnap
    rw [if_neg hc]
    rfl

end Steps

section Folding

variable [LawfulStore S] {t : FeedTransport}

theorem applyEpoch_of {genesis : Genesis} {feedPool : Felt} {entry : ManifestEpoch} {p : Progress}
    {payload : ByteArray} {epoch : Epoch} (s : S)
    (hfetch : fetchEpoch P J t genesis feedPool entry p.prevHash = .ok (payload, epoch))
    (hr : entry.first ≤ entry.last) :
    ∃ p' s', applyEpoch P J t genesis feedPool entry p s = .ok p' s' := by
  obtain ⟨stored, hstored⟩ := LawfulStore.blockHashes_ok s
    (r := .inclusive entry.first entry.last) hr
  obtain ⟨s', hs'⟩ := LawfulStore.replaceRange_ok s (r := .inclusive entry.first entry.last)
    (epoch.blocks.map fun b => (b, true)) (epochMeta entry payload)
    (epochContradiction stored epoch) hr
  rw [applyEpoch, Effect.bind_of_ok (Effect.lift_ok.mpr ⟨hfetch, rfl⟩)]
  simp only [Effect.get_bind]
  rw [Effect.bind_of_ok (Effect.lift_ok.mpr ⟨hstored, rfl⟩)]
  simp only [Effect.get_bind]
  rw [Effect.bind_of_ok (Effect.lift_ok.mpr ⟨hs', rfl⟩)]
  exact ⟨_, s', rfl⟩

/-- Every verified epoch is folded. -/
theorem applyEpochs_of {genesis : Genesis} {feedPool : Felt} : ∀ {entries : List ManifestEpoch}
    {p : Progress} {l : List AppliedEpoch} (s : S),
    verifyEpochs P J t genesis feedPool entries p.lastApplied p.prevHash = .ok l →
    (∀ a ∈ l, a.entry.first ≤ a.entry.last) →
    ∃ p' s', applyEpochs P J t genesis feedPool entries p s = .ok p' s'
  | [], p, l, s, _, _ => ⟨p, s, rfl⟩
  | entry :: rest, p, l, s, h, hproper => by
      rw [verifyEpochs] at h
      rw [applyEpochs]
      split at h
      · rename_i hskip
        rw [if_pos hskip]
        exact applyEpochs_of s h hproper
      · rename_i hskip
        rw [if_neg hskip]
        obtain ⟨⟨payload, epoch⟩, hfetch, h⟩ := bind_eq_ok.mp h
        obtain ⟨more, hmore, h⟩ := bind_eq_ok.mp h
        obtain rfl := pure_eq_ok.mp h
        obtain ⟨hfirst, hrest⟩ := List.forall_mem_cons.mp hproper
        obtain ⟨p₁, s₁, hone⟩ := applyEpoch_of P J s hfetch hfirst
        obtain ⟨payload', epoch', -, hfetch', -, hlast, hprev⟩ := applyEpoch_ok P J hone
        rw [hfetch, Except.ok.injEq, Prod.mk.injEq] at hfetch'
        rw [← hlast, hfetch'.1, ← hprev] at hmore
        rw [Effect.bind_of_ok hone]
        exact applyEpochs_of s₁ hmore hrest

/-- A head that is received and parsed is folded. -/
theorem syncHead_eq {s s' : S} (p : Progress) {payload : ByteArray} {etag : String} {head : Head}
    {stored : List (Nat × Felt)}
    (hfetch : t.fetchHead (metaGet s "head_etag") = .ok (some (payload, etag)))
    (hparse : Codec.parseHead P J payload = .ok head)
    (htail : head.header.tailFrom ≤ (lastEpochTo s + 1) % 2 ^ 64)
    (hstored : ConsumerStore.blockHashes s (.above (lastEpochTo s)) = .ok stored)
    (hrep : ConsumerStore.replaceRange s (.above (lastEpochTo s)) (tailBlocks head)
      (headMeta head.header etag) (headContradiction stored head) = .ok s') :
    ∃ out, syncHead P J t p s = .ok out s' := by
  have hhead : applyHead P J (lastEpochTo s) payload etag s =
      .ok (head, headContradiction stored head) s' := by
    rw [applyHead, Effect.bind_of_ok (Effect.lift_ok.mpr ⟨liftFeed_eq_ok.mpr hparse, rfl⟩),
      if_neg (Nat.not_lt.mpr htail)]
    simp only [Effect.get_bind]
    rw [Effect.bind_of_ok (Effect.lift_ok.mpr ⟨hstored, rfl⟩)]
    simp only [Effect.get_bind]
    rw [Effect.bind_of_ok (Effect.lift_ok.mpr ⟨hrep, rfl⟩)]
    rfl
  rw [syncHead, Effect.get_bind, Effect.get_bind,
    Effect.bind_of_ok (Effect.lift_ok.mpr ⟨hfetch, rfl⟩)]
  simp only
  rw [Effect.bind_of_ok hhead]
  exact ⟨_, rfl⟩

theorem syncHead_of {s : S} (p : Progress) (h : HeadReady P J t s) :
    ∃ out s', syncHead P J t p s = .ok out s' := by
  rcases h with hnone | ⟨payload, etag, head, hfetch, hparse, htail⟩
  · rw [syncHead, Effect.get_bind, Effect.get_bind,
      Effect.bind_of_ok (Effect.lift_ok.mpr ⟨hnone, rfl⟩)]
    exact ⟨_, s, rfl⟩
  · obtain ⟨stored, hstored⟩ := LawfulStore.blockHashes_ok s (r := .above (lastEpochTo s)) trivial
    obtain ⟨s', hs'⟩ := LawfulStore.replaceRange_ok s (r := .above (lastEpochTo s))
      (tailBlocks head) (headMeta head.header etag) (headContradiction stored head) trivial
    obtain ⟨out, hout⟩ := syncHead_eq P J p hfetch hparse htail hstored hs'
    exact ⟨out, s', hout⟩

/-- A feed that passes every check is folded. -/
theorem Accepts.succeeds {c : Call} {s : S} (A : Accepts P J c s) :
    ∃ out s', applyFeed P J c.transport c.mode s = .ok out s' := by
  have hman := fetchManifest_eq_ok.mpr ⟨A.manifest_ok, A.agrees⟩
  have hsync : ∃ p folded, syncEpochs P J c.transport A.genesis A.feedPool A.manifest
      (withSnapshot (pinned A.genesis s) A.snapshot) = .ok p folded ∧
      Folds A.epochs (withSnapshot (pinned A.genesis s) A.snapshot) folded := by
    rw [syncEpochs, Effect.get_bind, Effect.get_bind,
      Effect.bind_of_ok (Effect.lift_ok.mpr ⟨A.prevHash_ok, rfl⟩),
      Effect.bind_of_ok (Effect.lift_ok.mpr ⟨A.divergence_ok, rfl⟩)]
    obtain ⟨p, folded, hp⟩ := applyEpochs_of P J (p := ⟨_, A.prevHash, false, 0⟩)
      (withSnapshot (pinned A.genesis s) A.snapshot) A.epochs_ok A.proper
    obtain ⟨l, hl, hfold⟩ := applyEpochs_ok P J hp
    obtain rfl := Except.ok.inj (A.epochs_ok.symm.trans hl)
    exact ⟨p, folded, hp, hfold⟩
  obtain ⟨p, folded, hsync, hfolds⟩ := hsync
  rw [applyFeed, Effect.bind_of_ok (Effect.lift_ok.mpr ⟨A.genesis_ok, rfl⟩),
    Effect.bind_of_ok (pinGenesis_eq A.pool_ok), Effect.bind_of_ok (checkChainId_eq A.chain_ok),
    Effect.bind_of_ok (Effect.lift_ok.mpr ⟨hman, rfl⟩),
    Effect.bind_of_ok (Effect.lift_ok.mpr ⟨liftFeed_eq_ok.mpr A.feedPool_ok, rfl⟩),
    Effect.bind_of_ok (coldStart_eq P J A.snapshot_ok A.available), Effect.bind_of_ok hsync]
  exact syncHead_of P J p (A.head_ok folded hfolds)

end Folding

/-- What is folded is what was checked. -/
theorem Accepts.history_eq [ConsumerStore S] {c : Call} {s s' : S} (A : Accepts P J c s)
    (T : CallTrace P J c s s') : T.history = ⟨A.snapshot, A.epochs⟩ := by
  have hgen : T.genesis = A.genesis := Except.ok.inj (T.genesis_ok.symm.trans A.genesis_ok)
  have hman : T.manifest = A.manifest :=
    Except.ok.inj ((fetchManifest_eq_ok.mp T.manifest_ok).1.symm.trans A.manifest_ok)
  have hpool : T.feedPool = A.feedPool := by
    have h := T.feedPool_ok
    rw [hgen, A.feedPool_ok] at h
    exact (Except.ok.inj h).symm
  have hsnap : T.snapshot = A.snapshot := by
    have h := T.snapshot_ok
    rw [hgen, hman, hpool, A.snapshot_ok] at h
    exact (Except.ok.inj h).symm
  have hprev : T.prevHash = A.prevHash := by
    have h := T.prevHash_ok
    rw [hgen, hsnap, A.prevHash_ok] at h
    exact (Except.ok.inj h).symm
  have hepochs : T.epochs = A.epochs := by
    have h := T.epochs_ok
    rw [hgen, hman, hpool, hsnap, hprev, A.epochs_ok] at h
    exact (Except.ok.inj h).symm
  rw [CallTrace.history, hsnap, hepochs]

end

end Strk20.Consumer
