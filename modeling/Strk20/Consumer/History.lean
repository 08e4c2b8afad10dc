import Strk20.Consumer.Apply

/-!
# What a call of `apply_feed` does

The store writes of a successful call, pulled apart from its checks: the
genesis pin, at most one snapshot, a fold of verified epochs, at most one tail.
`CallTrace` is that reading of a call and `applyFeed_ok` says that every
successful call has one. `History` collects what a store was given over a run
of calls.
-/

namespace Strk20.Consumer

open Feed Json Result
open Effect (lift)

/-- An epoch as it was folded: its manifest entry, its payload, its content. -/
structure AppliedEpoch where
  entry : ManifestEpoch
  payload : ByteArray
  epoch : Epoch

/-- What a store was given: a snapshot first, if any, and epochs in order. -/
structure History where
  snapshot : Option Snapshot
  epochs : List AppliedEpoch

namespace History

def empty : History := ⟨none, []⟩

def append (h a : History) : History := ⟨h.snapshot.or a.snapshot, h.epochs ++ a.epochs⟩

end History

/-- One call: what the transport answers and how an empty mirror is filled. -/
structure Call where
  transport : FeedTransport
  mode : ColdStart

section

variable {S : Type} (P : FeltParser) (J : JsonParser)

section Spec

variable [ConsumerStore S] (t : FeedTransport)

/-- The epochs the loop folds, in order. They depend on the feed alone. -/
def verifyEpochs (genesis : Genesis) (feedPool : Felt) :
    List ManifestEpoch → Option Nat → Option Key → Except Failure (List AppliedEpoch)
  | [], _, _ => .ok []
  | entry :: rest, last, prev =>
      if skips last entry then verifyEpochs genesis feedPool rest last prev
      else do
        let (payload, epoch) ← fetchEpoch P J t genesis feedPool entry prev
        let more ← verifyEpochs genesis feedPool rest (some entry.e) (some (payloadSha256 payload))
        pure (⟨entry, payload, epoch⟩ :: more)

/-- The snapshot a call installs. -/
def installed (mode : ColdStart) (manifest : Manifest) (genesis : Genesis) (feedPool : Felt)
    (s : S) : Except Failure (Option Snapshot) :=
  if mode ≠ .epochs ∧ ConsumerStore.isEmpty s then
    match manifest.snapshot with
    | some entry => (fetchSnapshot P J t manifest entry genesis feedPool).map some
    | none => .ok none
  else .ok none

/-- The store after the snapshot step. -/
def withSnapshot (s : S) (snap : Option Snapshot) : S :=
  match snap with
  | none => s
  | some x => ConsumerStore.installSnapshot s x.slots (snapshotMeta x.header)

/-- The store after the genesis pin. -/
def pinned (genesis : Genesis) (s : S) : S :=
  match metaGet s "pool" with
  | none =>
      metaSet (metaSet (metaSet (metaSet s "pool" genesis.pool) "chain_id" genesis.chainId)
        "epoch_size" genesis.epochSize.repr) "genesis_block" genesis.genesisBlock.repr
  | some _ => s

/-- Epochs folded one after the other, each over its own range. -/
inductive Folds : List AppliedEpoch → S → S → Prop where
  | nil (s : S) : Folds [] s s
  | cons {a : AppliedEpoch} {rest : List AppliedEpoch} {s s₁ s' : S} {bump : Bool} :
      ConsumerStore.replaceRange s (.inclusive a.entry.first a.entry.last)
        (a.epoch.blocks.map fun b => (b, true)) (epochMeta a.entry a.payload) bump = .ok s₁ →
      Folds rest s₁ s' → Folds (a :: rest) s s'

/-- A head that was folded over the floor of the store. -/
structure HeadFold (s s' : S) (payload : ByteArray) (etag : String) (head : Head) : Prop where
  parsed : Codec.parseHead P J payload = .ok head
  tail : head.header.tailFrom ≤ (lastEpochTo s + 1) % 2 ^ 64
  replaced : ∃ bump, ConsumerStore.replaceRange s (.above (lastEpochTo s)) (tailBlocks head)
    (headMeta head.header etag) bump = .ok s'

/-- The head step: nothing new, or a folded head. -/
def HeadStep (s s' : S) : Prop :=
  (t.fetchHead (metaGet s "head_etag") = .ok none ∧ s' = s) ∨
    ∃ payload etag head, t.fetchHead (metaGet s "head_etag") = .ok (some (payload, etag)) ∧
      HeadFold P J s s' payload etag head

end Spec

/-- A successful call, step by step. -/
structure CallTrace [ConsumerStore S] (c : Call) (s s' : S) where
  genesis : Genesis
  manifest : Manifest
  feedPool : Felt
  prevHash : Option Key
  snapshot : Option Snapshot
  epochs : List AppliedEpoch
  folded : S
  genesis_ok : c.transport.fetchGenesis = .ok genesis
  pool_ok : ∀ stored ∈ metaGet s "pool", stored = genesis.pool
  manifest_ok : fetchManifest c.transport genesis = .ok manifest
  feedPool_ok : feltFromHex P genesis.pool = .ok feedPool
  snapshot_ok : installed P J c.transport c.mode manifest genesis feedPool (pinned genesis s) =
    .ok snapshot
  prevHash_ok : storedHash (withSnapshot (pinned genesis s) snapshot) = .ok prevHash
  divergence_ok : checkDivergence manifest
    (metaU64 (withSnapshot (pinned genesis s) snapshot) "last_epoch_applied") prevHash = .ok ()
  epochs_ok : verifyEpochs P J c.transport genesis feedPool manifest.epochs
    (metaU64 (withSnapshot (pinned genesis s) snapshot) "last_epoch_applied") prevHash = .ok epochs
  folds : Folds epochs (withSnapshot (pinned genesis s) snapshot) folded
  head : HeadStep P J c.transport folded s'

/-- What a call gave to the store. -/
def CallTrace.history [ConsumerStore S] {c : Call} {s s' : S} (T : CallTrace P J c s s') :
    History :=
  ⟨T.snapshot, T.epochs⟩

section Inversion

variable [ConsumerStore S] {t : FeedTransport} {s s' : S}

theorem pinGenesis_ok {genesis : Genesis} {u : Unit} (h : pinGenesis genesis s = .ok u s') :
    s' = pinned genesis s ∧ ∀ stored ∈ metaGet s "pool", stored = genesis.pool := by
  rw [pinGenesis, Effect.get_bind] at h
  rw [pinned]
  cases hp : metaGet s "pool" with
  | none =>
      simp only [hp] at h
      cases h
      exact ⟨rfl, by simp⟩
  | some stored =>
      simp only [hp] at h
      obtain ⟨hne, h⟩ := Effect.ite_throw_ok.mp h
      cases h
      exact ⟨rfl, by simpa using hne⟩

theorem checkChainId_ok {genesis : Genesis} {u : Unit} (h : checkChainId genesis s = .ok u s') :
    s' = s := by
  rw [checkChainId, Effect.get_bind] at h
  cases hp : metaGet s "chain_id" with
  | none =>
      simp only [hp] at h
      cases h
      rfl
  | some stored =>
      simp only [hp] at h
      obtain ⟨-, h⟩ := Effect.ite_throw_ok.mp h
      cases h
      rfl

theorem coldStart_ok {mode : ColdStart} {manifest : Manifest} {genesis : Genesis} {feedPool : Felt}
    {u : Unit} (h : coldStart P J t mode manifest genesis feedPool s = .ok u s') :
    ∃ snap, installed P J t mode manifest genesis feedPool s = .ok snap ∧
      s' = withSnapshot s snap := by
  rw [coldStart, Effect.get_bind] at h
  rw [installed]
  split at h
  · rename_i hc
    rw [if_pos hc]
    cases hm : manifest.snapshot with
    | some entry =>
        simp only [hm] at h
        rw [coldStartFromSnapshot] at h
        obtain ⟨snap, hfetch, h⟩ := Effect.lift_bind_ok.mp h
        cases h
        exact ⟨some snap, by simp only [hfetch]; rfl, rfl⟩
    | none =>
        simp only [hm] at h
        obtain ⟨-, h⟩ := Effect.ite_throw_ok.mp h
        cases h
        exact ⟨none, rfl, rfl⟩
  · rename_i hc
    rw [if_neg hc]
    cases h
    exact ⟨none, rfl, rfl⟩

theorem applyEpoch_ok {genesis : Genesis} {feedPool : Felt} {entry : ManifestEpoch}
    {p p' : Progress} (h : applyEpoch P J t genesis feedPool entry p s = .ok p' s') :
    ∃ payload epoch bump, fetchEpoch P J t genesis feedPool entry p.prevHash = .ok (payload, epoch) ∧
      ConsumerStore.replaceRange s (.inclusive entry.first entry.last)
        (epoch.blocks.map fun b => (b, true)) (epochMeta entry payload) bump = .ok s' ∧
      p'.lastApplied = some entry.e ∧ p'.prevHash = some (payloadSha256 payload) := by
  rw [applyEpoch] at h
  obtain ⟨⟨payload, epoch⟩, hfetch, h⟩ := Effect.lift_bind_ok.mp h
  simp only [Effect.get_bind] at h
  obtain ⟨stored, -, h⟩ := Effect.lift_bind_ok.mp h
  obtain ⟨s₁, hrep, h⟩ := Effect.lift_bind_ok.mp h
  cases h
  exact ⟨payload, epoch, _, hfetch, hrep, rfl, rfl⟩

theorem applyEpochs_ok {genesis : Genesis} {feedPool : Felt} {s' : S} :
    ∀ {entries : List ManifestEpoch} {p p' : Progress} {s : S},
      applyEpochs P J t genesis feedPool entries p s = .ok p' s' →
      ∃ l, verifyEpochs P J t genesis feedPool entries p.lastApplied p.prevHash = .ok l ∧
        Folds l s s'
  | [], p, p', s, h => by
      rw [applyEpochs, Effect.pure_apply] at h
      cases h
      exact ⟨[], rfl, .nil s'⟩
  | entry :: rest, p, p', s, h => by
      rw [applyEpochs] at h
      rw [verifyEpochs]
      split at h
      · rename_i hskip
        obtain ⟨l, hl, hfold⟩ := applyEpochs_ok h
        exact ⟨l, by rw [if_pos hskip]; exact hl, hfold⟩
      · rename_i hskip
        obtain ⟨p₁, s₁, hone, h⟩ := Effect.bind_ok.mp h
        obtain ⟨payload, epoch, bump, hfetch, hrep, hlast, hprev⟩ := applyEpoch_ok P J hone
        obtain ⟨l, hl, hfold⟩ := applyEpochs_ok h
        rw [hlast, hprev] at hl
        refine ⟨⟨entry, payload, epoch⟩ :: l, ?_, .cons hrep hfold⟩
        rw [if_neg hskip, hfetch]
        simp only [bind, Except.bind, hl, pure, Except.pure]

theorem applyHead_ok {floor : Nat} {payload : ByteArray} {etag : String} {r : Head × Bool}
    (h : applyHead P J floor payload etag s = .ok r s') :
    Codec.parseHead P J payload = .ok r.1 ∧ r.1.header.tailFrom ≤ (floor + 1) % 2 ^ 64 ∧
      ∃ bump, ConsumerStore.replaceRange s (.above floor) (tailBlocks r.1)
        (headMeta r.1.header etag) bump = .ok s' := by
  rw [applyHead] at h
  obtain ⟨head, hparse, h⟩ := Effect.lift_bind_ok.mp h
  obtain ⟨htail, h⟩ := Effect.ite_throw_ok.mp h
  simp only [Effect.get_bind] at h
  obtain ⟨stored, -, h⟩ := Effect.lift_bind_ok.mp h
  obtain ⟨s₁, hrep, h⟩ := Effect.lift_bind_ok.mp h
  cases h
  exact ⟨liftFeed_eq_ok.mp hparse, Nat.not_lt.mp htail, _, hrep⟩

theorem syncHead_ok {p : Progress} {out : ApplyOutcome} (h : syncHead P J t p s = .ok out s') :
    HeadStep P J t s s' := by
  rw [syncHead, Effect.get_bind, Effect.get_bind] at h
  obtain ⟨fetched, hfetch, h⟩ := Effect.lift_bind_ok.mp h
  match fetched, hfetch, h with
  | some (payload, etag), hfetch, h =>
      obtain ⟨r, s₁, hhead, h⟩ := Effect.bind_ok.mp h
      obtain ⟨hparse, htail, hrep⟩ := applyHead_ok P J hhead
      simp only [Effect.get_bind] at h
      cases h
      exact .inr ⟨payload, etag, r.1, hfetch, hparse, htail, hrep⟩
  | none, hfetch, h =>
      simp only [Effect.get_bind] at h
      cases h
      exact .inl ⟨hfetch, rfl⟩

/-- Every successful call has a trace. -/
theorem applyFeed_ok {c : Call} {out : ApplyOutcome}
    (h : applyFeed P J c.transport c.mode s = .ok out s') : Nonempty (CallTrace P J c s s') := by
  rw [applyFeed] at h
  obtain ⟨genesis, hgen, h⟩ := Effect.lift_bind_ok.mp h
  obtain ⟨_, s₁, hpin, h⟩ := Effect.bind_ok.mp h
  obtain ⟨rfl, hpool⟩ := pinGenesis_ok hpin
  obtain ⟨_, s₂, hchain, h⟩ := Effect.bind_ok.mp h
  obtain rfl := checkChainId_ok hchain
  obtain ⟨manifest, hman, h⟩ := Effect.lift_bind_ok.mp h
  obtain ⟨feedPool, hfelt, h⟩ := Effect.lift_bind_ok.mp h
  obtain ⟨_, s₂, hcold, h⟩ := Effect.bind_ok.mp h
  obtain ⟨snap, hsnap, rfl⟩ := coldStart_ok P J hcold
  obtain ⟨p, s₃, hsync, h⟩ := Effect.bind_ok.mp h
  rw [syncEpochs, Effect.get_bind, Effect.get_bind] at hsync
  obtain ⟨prev, hprev, hsync⟩ := Effect.lift_bind_ok.mp hsync
  obtain ⟨_, hdiv, hsync⟩ := Effect.lift_bind_ok.mp hsync
  obtain ⟨l, hl, hfold⟩ := applyEpochs_ok P J hsync
  exact ⟨⟨genesis, manifest, feedPool, prev, snap, l, s₃, hgen, hpool, hman,
    liftFeed_eq_ok.mp hfelt, hsnap, hprev, hdiv, hl, hfold, syncHead_ok P J h⟩⟩

end Inversion

/-! ## What was verified -/

section Verified

variable {t : FeedTransport}

/-- What a folded epoch satisfies: it is the payload its entry names, it
parses, and it belongs to this feed. -/
structure EpochFacts (genesis : Genesis) (feedPool : Felt) (prev : Option Key) (a : AppliedEpoch) :
    Prop where
  verified : Codec.Verified P J a.payload a.entry prev a.epoch
  chainId : a.epoch.header.chainId = genesis.chainId
  pool : a.epoch.header.pool = feedPool

theorem fetchEpoch_ok {genesis : Genesis} {feedPool : Felt} {entry : ManifestEpoch}
    {prev : Option Key} {payload : ByteArray} {epoch : Epoch}
    (h : fetchEpoch P J t genesis feedPool entry prev = .ok (payload, epoch)) :
    EpochFacts P J genesis feedPool prev ⟨entry, payload, epoch⟩ := by
  rw [fetchEpoch] at h
  obtain ⟨compressed, -, h⟩ := bind_eq_ok.mp h
  obtain ⟨bytes, -, h⟩ := bind_eq_ok.mp h
  obtain ⟨e, hverify, h⟩ := bind_eq_ok.mp h
  obtain ⟨_, hbind, h⟩ := bind_eq_ok.mp h
  have heq := pure_eq_ok.mp h
  obtain ⟨rfl, rfl⟩ := Prod.mk.inj heq
  have hb := Codec.verifyEpochBinding_eq_ok.mp (liftFeed_eq_ok.mp hbind)
  exact ⟨(Codec.verifyEpochAgainstManifest_eq_ok P J).mp (liftFeed_eq_ok.mp hverify), hb.1, hb.2⟩

/-- Verified epochs, each under the content hash of the one before. -/
def Chained (genesis : Genesis) (feedPool : Felt) : Option Key → List AppliedEpoch → Prop
  | _, [] => True
  | prev, a :: rest =>
      EpochFacts P J genesis feedPool prev a ∧
        Chained genesis feedPool (some (payloadSha256 a.payload)) rest

/-- The entries the loop does not skip. -/
def pending : Option Nat → List ManifestEpoch → List ManifestEpoch
  | _, [] => []
  | last, entry :: rest =>
      if skips last entry then pending last rest else entry :: pending (some entry.e) rest

theorem verifyEpochs_ok {genesis : Genesis} {feedPool : Felt} : ∀ {entries : List ManifestEpoch}
    {last : Option Nat} {prev : Option Key} {l : List AppliedEpoch},
    verifyEpochs P J t genesis feedPool entries last prev = .ok l →
      l.map (·.entry) = pending last entries ∧ Chained P J genesis feedPool prev l
  | [], last, prev, l, h => by
      rw [verifyEpochs, Except.ok.injEq] at h
      exact h ▸ ⟨rfl, trivial⟩
  | entry :: rest, last, prev, l, h => by
      rw [verifyEpochs] at h
      rw [pending]
      split at h
      · rename_i hskip
        rw [if_pos hskip]
        exact verifyEpochs_ok h
      · rename_i hskip
        rw [if_neg hskip]
        obtain ⟨⟨payload, epoch⟩, hfetch, h⟩ := bind_eq_ok.mp h
        obtain ⟨more, hmore, h⟩ := bind_eq_ok.mp h
        obtain rfl := pure_eq_ok.mp h
        obtain ⟨hmap, hchain⟩ := verifyEpochs_ok hmore
        exact ⟨by rw [List.map_cons, hmap], fetchEpoch_ok P J hfetch, hchain⟩

theorem Chained.mem {genesis : Genesis} {feedPool : Felt} : ∀ {l : List AppliedEpoch}
    {prev : Option Key}, Chained P J genesis feedPool prev l →
    ∀ a ∈ l, ∃ prev', EpochFacts P J genesis feedPool prev' a
  | [], _, _, a, ha => by cases ha
  | b :: l, prev, h, a, ha => by
      rcases List.mem_cons.mp ha with rfl | ha
      · exact ⟨prev, h.1⟩
      · exact Chained.mem h.2 a ha

/-- A snapshot the ladder let through: decoded against its manifest entry, and
ending where its epoch does. -/
structure SnapshotFacts (manifest : Manifest) (genesis : Genesis) (feedPool : Felt)
    (entry : ManifestSnapshot) (snap : Snapshot) : Prop where
  basis : ∃ basis, manifest.epoch entry.e = some basis ∧ ∃ payload zst,
    Snapshot.Decoded P J payload zst entry basis.hash ⟨genesis.chainId, feedPool⟩ snap
  aligned : snap.header.block + 1 = (snap.header.epoch + 1) * genesis.epochSize

theorem expectedEnd_eq_some {e size n : Nat} (h : expectedEnd e size = some n) :
    n + 1 = (e + 1) * size := by
  rw [expectedEnd] at h
  split at h
  · cases h
  split at h
  · cases h
  split at h
  · cases h
  · rename_i hpos
    cases h
    rw [Nat.add_mul, Nat.one_mul]
    omega

theorem fetchSnapshot_ok {manifest : Manifest} {entry : ManifestSnapshot} {genesis : Genesis}
    {feedPool : Felt} {snap : Snapshot}
    (h : fetchSnapshot P J t manifest entry genesis feedPool = .ok snap) :
    SnapshotFacts P J manifest genesis feedPool entry snap := by
  unfold fetchSnapshot at h
  split at h
  · cases h
  · rename_i basis hbasis
    obtain ⟨compressed, -, h⟩ := bind_eq_ok.mp h
    obtain ⟨x, hverify, h⟩ := bind_eq_ok.mp h
    rw [verifySnapshot] at hverify
    obtain ⟨_, -, hverify⟩ := bind_eq_ok.mp hverify
    obtain ⟨payload, -, hverify⟩ := bind_eq_ok.mp hverify
    have hdec := (Snapshot.decodeSnapshotPayload_eq_ok P J).mp (liftFeed_eq_ok.mp hverify)
    split at h
    · cases h
    · rename_i expected hexpected
      obtain ⟨hblock, h⟩ := ite_throw_eq_ok.mp h
      obtain rfl := pure_eq_ok.mp h
      refine ⟨⟨basis, hbasis, payload, _, hdec⟩, ?_⟩
      rw [not_not.mp hblock, hdec.epoch]
      exact expectedEnd_eq_some hexpected

theorem installed_ok [ConsumerStore S] {mode : ColdStart} {manifest : Manifest} {genesis : Genesis}
    {feedPool : Felt} {s : S} {snap : Snapshot}
    (h : installed P J t mode manifest genesis feedPool s = .ok (some snap)) :
    mode ≠ .epochs ∧ ConsumerStore.isEmpty s = true ∧ ∃ entry, manifest.snapshot = some entry ∧
      SnapshotFacts P J manifest genesis feedPool entry snap := by
  unfold installed at h
  split at h
  · rename_i hc
    cases hm : manifest.snapshot with
    | none =>
        rw [hm] at h
        cases h
    | some entry =>
        simp only [hm] at h
        cases hf : fetchSnapshot P J t manifest entry genesis feedPool with
        | error e =>
            rw [hf] at h
            cases h
        | ok x =>
            rw [hf] at h
            cases h
            exact ⟨hc.1, hc.2, entry, rfl, fetchSnapshot_ok P J hf⟩
  · cases h

end Verified

end

end Strk20.Consumer
