import Strk20.Consumer.Metadata

/-!
# A feed of one epoch

The smallest feed: one epoch that starts its chain, and at most one head. Any
lawful store takes it from empty.
-/

namespace Strk20.Consumer

open Feed Json Result

/-- An epoch that starts a chain, and a head above it. -/
structure SoloFeed where
  epoch : Epoch
  head : Option Head
  epochWf : Codec.EpochWf epoch
  headWf : ∀ h ∈ head, Codec.HeadWf h
  starts : epoch.header.prev = none
  proper : epoch.header.first ≤ epoch.header.last
  tail : ∀ h ∈ head, h.header.tailFrom ≤ (epoch.header.last + 1) % 2 ^ 64

namespace SoloFeed

def genesis (f : SoloFeed) (size : Nat) : Genesis :=
  ⟨f.epoch.header.chainId, feltHex f.epoch.header.pool, 0, size⟩

def payload (f : SoloFeed) : ByteArray := Codec.epochBytes f.epoch

def entry (f : SoloFeed) : ManifestEpoch :=
  ⟨f.epoch.header.epoch, f.epoch.header.first, f.epoch.header.last,
    hexEncode (payloadSha256 f.payload)⟩

def manifest (f : SoloFeed) : Manifest := ⟨f.epoch.header.chainId, [f.entry], none⟩

/-- The call that folds the feed; files are served uncompressed. -/
def call (f : SoloFeed) (size : Nat) : Call where
  mode := .epochs
  transport :=
    { fetchGenesis := .ok (f.genesis size)
      fetchManifest := .ok f.manifest
      fetchEpoch := fun _ => .ok f.payload
      fetchSnapshot := fun _ => .error (.transport "no snapshot")
      fetchHead := fun _ => .ok (f.head.map fun h => (Codec.headBytes h, "etag"))
      decompress := fun bytes _ _ => .ok bytes }

def applied (f : SoloFeed) : AppliedEpoch := ⟨f.entry, f.payload, f.epoch⟩

section

variable {S : Type} [LawfulStore S] (P : FeltParser) (J : JsonParser)

theorem fetchEpoch_eq (f : SoloFeed) (size : Nat) :
    fetchEpoch P J (f.call size).transport (f.genesis size) f.epoch.header.pool f.entry none =
      .ok (f.payload, f.epoch) := by
  have hverify : Codec.verifyEpochAgainstManifest P J f.payload f.entry none = .ok f.epoch :=
    (Codec.verifyEpochAgainstManifest_eq_ok P J).mpr
      ⟨rfl, Codec.parseEpoch_epochBytes P J f.epochWf, rfl, rfl, rfl, f.starts⟩
  have hbind : Codec.verifyEpochBinding f.epoch (f.genesis size).chainId f.epoch.header.pool =
      .ok () := Codec.verifyEpochBinding_eq_ok.mpr ⟨rfl, rfl⟩
  refine bind_eq_ok.mpr ⟨f.payload, rfl, bind_eq_ok.mpr ⟨f.payload, rfl, bind_eq_ok.mpr
    ⟨f.epoch, liftFeed_eq_ok.mpr hverify, bind_eq_ok.mpr ⟨(), liftFeed_eq_ok.mpr hbind, rfl⟩⟩⟩⟩

theorem headReady (f : SoloFeed) (size : Nat) {s folded : S}
    (hfold : Folds [f.applied] (pinned (f.genesis size) s) folded) :
    HeadReady P J (f.call size).transport folded := by
  have hfloor : lastEpochTo folded = f.epoch.header.last := by
    have hto := metaGet_folds_last hfold "last_epoch_to" (by decide)
      (f := fun a => a.entry.last.repr) (fun a old => by simp [metaAfter, epochMeta])
    rw [lastEpochTo, metaU64, hto]
    exact congrArg (·.getD 0) (Text.parseU64_repr f.epochWf.header.last)
  cases hh : f.head with
  | none => exact .inl (by simp [call, hh])
  | some head =>
      refine .inr ⟨Codec.headBytes head, "etag", head, by simp [call, hh],
        Codec.parseHead_headBytes P J (f.headWf head hh), ?_⟩
      rw [hfloor]
      exact f.tail head hh

/-- The checks of a call, passed by the feed on a fresh store. -/
def accepts (f : SoloFeed) (size : Nat) {s : S} (hs : Fresh s) : Accepts P J (f.call size) s where
  genesis := f.genesis size
  manifest := f.manifest
  feedPool := f.epoch.header.pool
  prevHash := none
  snapshot := none
  epochs := [f.applied]
  genesis_ok := rfl
  pool_ok stored h := by
    rw [hs.metas] at h
    cases h
  chain_ok stored h := by
    rw [pinned, hs.metas] at h
    simp only [LawfulStore.metaGet_metaSet] at h
    simpa using h.symm
  manifest_ok := rfl
  agrees := rfl
  feedPool_ok := feltFromHex_feltHex P _
  available hmode := by cases hmode
  snapshot_ok := by rw [installed, if_neg (by simp [call])]
  prevHash_ok := by
    rw [storedHash, withSnapshot, metaGet_pinned _ _ (by decide), hs.metas]
  divergence_ok := by
    rw [metaU64, withSnapshot, metaGet_pinned _ _ (by decide), hs.metas]
    rfl
  epochs_ok := by
    rw [metaU64, withSnapshot, metaGet_pinned _ _ (by decide), hs.metas]
    simp only [manifest, Option.bind_none, verifyEpochs, skips, fetchEpoch_eq]
    rfl
  proper a ha := by
    obtain rfl := List.mem_singleton.mp ha
    exact f.proper
  head_ok folded hfold := f.headReady P J size hfold

/-- A fresh store takes the feed, and is given its epoch. -/
theorem trace (f : SoloFeed) (size : Nat) {s : S} (hs : Fresh s) :
    ∃ out s', applyFeed P J (f.call size).transport (f.call size).mode s = .ok out s' ∧
      ∃ T : CallTrace P J (f.call size) s s', T.history = ⟨none, [f.applied]⟩ := by
  obtain ⟨out, s', hok⟩ := (f.accepts P J size hs).succeeds
  obtain ⟨T⟩ := applyFeed_ok P J hok
  exact ⟨out, s', hok, T, (f.accepts P J size hs).history_eq P J T⟩

end

end SoloFeed

end Strk20.Consumer
