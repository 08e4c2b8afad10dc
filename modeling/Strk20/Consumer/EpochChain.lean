import Strk20.Feed.StorageProof
import Strk20.Consumer.MemStore
import Strk20.Consumer.SoloFeed

/-!
# The chain of applied epochs

Every payload a run of calls applied links to the content hash of the one
before, and a feed that carries another history for the last epoch is refused
before anything is written.

Indices and ranges are the manifest's word: they come out gap-free exactly if
every call was offered the next index, aligned.
-/

namespace Strk20.Consumer

open Feed Json Result

namespace History

/-- Every payload links to the content hash of the one before; the first one
to the snapshot's basis, or to nothing. -/
def PrevLinks : Option Key → List AppliedEpoch → Prop
  | _, [] => True
  | prev, a :: rest => a.epoch.header.prev = prev ∧ PrevLinks (some (payloadSha256 a.payload)) rest

def Linked (h : History) : Prop :=
  match h.snapshot with
  | none => PrevLinks none h.epochs
  | some x => ∃ k, x.header.epochHash = hexEncode k ∧ PrevLinks (some k) h.epochs

/-- Consecutive indices with aligned ranges. -/
structure GapFree (size : Nat) (h : History) : Prop where
  consecutive : h.indices.IsChain fun a b => b = a + 1
  aligned : ∀ a ∈ h.epochs, a.entry.first = a.entry.e * size ∧
    a.entry.last + 1 = (a.entry.e + 1) * size

/-- The snapshot's basis is the last block of its epoch. -/
def SnapshotAligned (size : Nat) (h : History) : Prop :=
  ∀ x ∈ h.snapshot, x.header.block + 1 = (x.header.epoch + 1) * size

/-- The content hash after a list of epochs. -/
def hashAfter (prev : Option Key) (l : List AppliedEpoch) : Option Key :=
  (l.getLast?.map fun a => payloadSha256 a.payload).or prev

theorem prevLinks_append : ∀ {l m : List AppliedEpoch} {prev : Option Key}, PrevLinks prev l →
    PrevLinks (hashAfter prev l) m → PrevLinks prev (l ++ m)
  | [], m, prev, _, hm => hm
  | a :: l, m, prev, hl, hm => by
      refine ⟨hl.1, prevLinks_append hl.2 ?_⟩
      have hafter : hashAfter prev (a :: l) = hashAfter (some (payloadSha256 a.payload)) l := by
        cases hlast : l.getLast? <;> simp [hashAfter, List.getLast?_cons, hlast]
      rwa [hafter] at hm

end History

theorem Chained.prevLinks {P : FeltParser} {J : JsonParser} {genesis : Genesis} {feedPool : Felt} :
    ∀ {l : List AppliedEpoch} {prev : Option Key}, Chained P J genesis feedPool prev l →
      History.PrevLinks prev l
  | [], _, _ => trivial
  | _ :: _, _, h => ⟨h.1.verified.prev, Chained.prevLinks h.2⟩

section

variable {S : Type} [LawfulStore S] {P : FeltParser} {J : JsonParser} {c : Call} {s s' : S}
  {h : History}

/-! ## Links -/

/-- A chain that starts at the stored hash continues the history. -/
theorem History.Linked.append {genesis : Genesis} {feedPool : Felt} {prev : Option Key}
    {l : List AppliedEpoch} (hl : h.Linked) (hi : MetaInv s h) (hprev : storedHash s = .ok prev)
    (hc : Chained P J genesis feedPool prev l) : (h.append ⟨none, l⟩).Linked := by
  have hafter : ∀ k₀ : Option Key, (h.snapshot.map fun x => x.header.epochHash) =
      k₀.map hexEncode → prev = hashAfter k₀ h.epochs := by
    intro k₀ hk₀
    have hlast : h.hashes.getLast? = (hashAfter k₀ h.epochs).map hexEncode := by
      cases he : h.epochs.getLast? with
      | none =>
          rw [List.getLast?_eq_none_iff] at he
          simp only [hashes, entries, he, List.map_nil, List.append_nil, hk₀, hashAfter]
          cases k₀ <;> rfl
      | some a => simp [hashes, entries, List.getLast?_append, List.getLast?_map, he, hashAfter]
    rcases hi.storedHash_eq with ⟨hnone, hs⟩ | ⟨k, hk, hs⟩
    · rw [hs, Except.ok.injEq] at hprev
      rw [hnone, eq_comm, Option.map_eq_none_iff] at hlast
      rw [hlast, ← hprev]
    · rw [hs, Except.ok.injEq] at hprev
      rw [hk] at hlast
      obtain ⟨k', hk', heq⟩ := Option.map_eq_some_iff.mp hlast.symm
      rw [hk', ← hprev, hexEncode_inj heq]
  have hlinks := hc.prevLinks
  cases hsnap : h.snapshot with
  | none =>
      simp only [Linked, hsnap] at hl
      simp only [Linked, History.append, hsnap]
      rw [hafter none (by rw [hsnap]; rfl)] at hlinks
      exact prevLinks_append hl hlinks
  | some x =>
      simp only [Linked, hsnap] at hl
      obtain ⟨k, hk, hl⟩ := hl
      simp only [Linked, History.append, hsnap]
      rw [hafter (some k) (by rw [hsnap, Option.map_some, hk]; rfl)] at hlinks
      exact ⟨k, hk, prevLinks_append hl hlinks⟩

theorem CallTrace.linked (T : CallTrace P J c s s') (hi : MetaInv s h) (hl : h.Linked) :
    (h.append T.history).Linked := by
  have hsplit : h.append T.history = (h.append ⟨T.snapshot, []⟩).append ⟨none, T.epochs⟩ := by
    simp [History.append, CallTrace.history]
  have hi₁ := T.metaInv_snapshot hi
  have hl₁ : (h.append ⟨T.snapshot, []⟩).Linked := by
    cases hx : T.snapshot with
    | none => simpa [History.append] using hl
    | some x =>
        obtain ⟨hs, he⟩ := T.snapshot_fresh hi (by simp [hx])
        rw [hx] at hi₁
        have hhist : h.append ⟨some x, []⟩ = ⟨some x, []⟩ := by simp [History.append, hs, he]
        rw [hhist] at hi₁ ⊢
        obtain ⟨k, hk⟩ := hi₁.hashKey x.header.epochHash
          (by simp [History.hashes, History.entries])
        exact ⟨k, hk, trivial⟩
  rw [hsplit]
  exact hl₁.append hi₁ T.prevHash_ok T.chained

/-! ## Indices -/

/-- The entries a call would apply continue the index one by one, and their
ranges are aligned. -/
structure NextAligned (size : Nat) (last : Option Nat) (manifest : Manifest) : Prop where
  consecutive : (last.toList ++ (pending last manifest.epochs).map (·.e)).IsChain
    fun a b => b = a + 1
  aligned : ∀ entry ∈ pending last manifest.epochs, entry.first = entry.e * size ∧
    entry.last + 1 = (entry.e + 1) * size

theorem CallTrace.gapFree_iff (T : CallTrace P J c s s') (hi : MetaInv s h) (size : Nat) :
    (h.append T.history).GapFree size ↔
      h.GapFree size ∧ NextAligned size (baseIndex s c.mode T.manifest) T.manifest := by
  have hpend := T.pending_eq
  have hbase := (T.metaInv_snapshot hi).metaU64_index
  rw [T.baseIndex_eq] at hpend hbase
  have hidx : T.epochs.map (·.entry.e) =
      (pending (baseIndex s c.mode T.manifest) T.manifest.epochs).map (·.e) := by
    rw [← hpend, List.map_map]
    rfl
  have hchain : ((h.append T.history).indices.IsChain fun a b => b = a + 1) ↔
      (h.indices.IsChain fun a b => b = a + 1) ∧
        (((baseIndex s c.mode T.manifest).toList ++
          (pending (baseIndex s c.mode T.manifest) T.manifest.epochs).map (·.e)).IsChain
            fun a b => b = a + 1) := by
    have hsplit : (h.append T.history).indices =
        (h.append ⟨T.snapshot, []⟩).indices ++ T.epochs.map (·.entry.e) := by
      simp [History.indices, History.entries, History.append, CallTrace.history]
    have hfirst : ((h.append ⟨T.snapshot, []⟩).indices.IsChain fun a b => b = a + 1) ↔
        h.indices.IsChain fun a b => b = a + 1 := by
      cases hx : T.snapshot with
      | none => simp [History.append]
      | some x =>
          obtain ⟨hs, he⟩ := T.snapshot_fresh hi (by simp [hx])
          simp [History.indices, History.entries, History.append, hs, he]
    rw [hsplit, List.isChain_append, List.isChain_append, hfirst, ← hbase, hidx]
    refine and_congr_right fun _ => ?_
    cases baseIndex s c.mode T.manifest <;> simp
  constructor
  · rintro ⟨hcons, halign⟩
    obtain ⟨hh, hnext⟩ := hchain.mp hcons
    refine ⟨⟨hh, fun a ha => halign a (List.mem_append_left _ ha)⟩, hnext, fun entry hentry => ?_⟩
    rw [← hpend] at hentry
    obtain ⟨a, ha, rfl⟩ := List.mem_map.mp hentry
    exact halign a (List.mem_append_right _ ha)
  · rintro ⟨⟨hh, halign⟩, hnext, halign'⟩
    refine ⟨hchain.mpr ⟨hh, hnext⟩, fun a ha => ?_⟩
    rcases List.mem_append.mp ha with ha | ha
    · exact halign a ha
    · exact halign' a.entry (hpend ▸ List.mem_map_of_mem ha)

/-! ## A divergent feed is refused -/

theorem pinGenesis_pinned (genesis : Genesis) {p : String} (hp : metaGet s "pool" = some p) :
    (∃ e, pinGenesis genesis s = .error e s) ∨ pinGenesis genesis s = .ok () s := by
  rw [pinGenesis, Effect.get_bind]
  simp only [hp]
  split
  · exact .inl ⟨_, rfl⟩
  · exact .inr rfl

theorem checkChainId_same (genesis : Genesis) (s : S) :
    (∃ e, checkChainId genesis s = .error e s) ∨ checkChainId genesis s = .ok () s := by
  rw [checkChainId, Effect.get_bind]
  cases metaGet s "chain_id" with
  | none => exact .inr rfl
  | some stored =>
      simp only
      split
      · exact .inl ⟨_, rfl⟩
      · exact .inr rfl

/-- A manifest without the last applied epoch, or with another hash for it,
fails the call before a write. -/
theorem applyFeed_diverged (hi : MetaInv s h) {e : Nat} {text : String} {manifest : Manifest}
    (he : h.indices.getLast? = some e) (htext : h.hashes.getLast? = some text)
    (hm : c.transport.fetchManifest = .ok manifest)
    (hdiff : ∀ entry, manifest.epoch e = some entry → entry.hash ≠ text) :
    ∃ err, applyFeed P J c.transport c.mode s = .error err s := by
  have hne : h.indices ≠ [] := fun hnil => by
    rw [hnil] at he
    cases he
  obtain ⟨p, hp⟩ := hi.pinned hne
  have hempty : ConsumerStore.isEmpty s = false := by
    cases hb : ConsumerStore.isEmpty s with
    | false => rfl
    | true =>
        have hnone := LawfulStore.isEmpty_meta _ hb
        rw [hi.index, he] at hnone
        cases hnone
  -- the divergence check comes before the first write
  have hsync : ∀ genesis feedPool, ∃ err,
      syncEpochs P J c.transport genesis feedPool manifest s = .error err s := by
    intro genesis feedPool
    rcases hi.storedHash_eq with ⟨hnone, -⟩ | ⟨k, hk, hstored⟩
    · rw [hnone] at htext
      cases htext
    · rw [hk, Option.some.injEq] at htext
      have hdiv : ∃ err, checkDivergence manifest (some e) (some k) = .error err := by
        cases hentry : manifest.epoch e with
        | none =>
            simp only [checkDivergence, hentry]
            exact ⟨_, rfl⟩
        | some entry =>
            simp only [checkDivergence, hentry]
            exact ⟨_, if_neg fun heq => hdiff entry hentry (heq.trans htext)⟩
      obtain ⟨err, herr⟩ := hdiv
      refine ⟨err, ?_⟩
      rw [syncEpochs, Effect.get_bind, Effect.get_bind, hi.metaU64_index, he,
        Effect.bind_of_ok (Effect.lift_ok.mpr ⟨hstored, rfl⟩)]
      exact Effect.bind_of_error (Effect.lift_error.mpr ⟨herr, rfl⟩)
  -- every step on the way there either fails or leaves the store
  rw [applyFeed]
  cases hg : c.transport.fetchGenesis with
  | error err => exact ⟨err, Effect.bind_of_error (Effect.lift_error.mpr ⟨rfl, rfl⟩)⟩
  | ok genesis =>
      rw [Effect.bind_of_ok (Effect.lift_ok.mpr ⟨rfl, rfl⟩)]
      rcases pinGenesis_pinned genesis hp with ⟨err, herr⟩ | hok
      · exact ⟨err, Effect.bind_of_error herr⟩
      rw [Effect.bind_of_ok hok]
      rcases checkChainId_same genesis s with ⟨err, herr⟩ | hok
      · exact ⟨err, Effect.bind_of_error herr⟩
      rw [Effect.bind_of_ok hok]
      cases hf : fetchManifest c.transport genesis with
      | error err => exact ⟨err, Effect.bind_of_error (Effect.lift_error.mpr ⟨rfl, rfl⟩)⟩
      | ok m =>
          obtain rfl := Except.ok.inj (hm.symm.trans (fetchManifest_eq_ok.mp hf).1)
          rw [Effect.bind_of_ok (Effect.lift_ok.mpr ⟨rfl, rfl⟩)]
          cases hpool : (liftFeed (feltFromHex P genesis.pool) : Except Failure Felt) with
          | error err => exact ⟨err, Effect.bind_of_error (Effect.lift_error.mpr ⟨rfl, rfl⟩)⟩
          | ok feedPool =>
              rw [Effect.bind_of_ok (Effect.lift_ok.mpr ⟨rfl, rfl⟩)]
              have hcold : coldStart P J c.transport c.mode manifest genesis feedPool s = .ok () s := by
                rw [coldStart, Effect.get_bind, if_neg (by simp [hempty])]
                rfl
              obtain ⟨err, herr⟩ := hsync genesis feedPool
              rw [Effect.bind_of_ok hcold]
              exact ⟨err, Effect.bind_of_error herr⟩

/-! ## Runs -/

theorem RunWith.linked {Meets : S → Call → Prop} {s₀ : S} {calls : List Call}
    (hrun : RunWith P J Meets s₀ calls s h) (hf : Fresh s₀) : h.Linked := by
  induction hrun with
  | nil => exact trivial
  | snoc T hprev _ _ ih => exact T.linked (hprev.metaInv hf) ih

/-- The call's genesis document is `genesis`. -/
def SharesGenesis (genesis : Genesis) (_ : S) (c : Call) : Prop :=
  c.transport.fetchGenesis = .ok genesis

theorem RunWith.snapshotAligned {genesis : Genesis} {s₀ : S} {calls : List Call}
    (hrun : RunWith P J (SharesGenesis genesis) s₀ calls s h) :
    h.SnapshotAligned genesis.epochSize := by
  induction hrun with
  | nil => exact fun x hx => by cases hx
  | @snoc s s' calls h c out T _ _ hgen ih =>
      intro x hx
      cases hs : h.snapshot with
      | some y =>
          obtain rfl : y = x := by simpa [History.append, hs] using hx
          exact ih y hs
      | none =>
          have hx' : T.snapshot = some x := by
            simpa [History.append, CallTrace.history, hs] using hx
          have hinst := T.snapshot_ok
          rw [hx'] at hinst
          obtain ⟨-, -, entry, -, hfacts⟩ := installed_ok P J hinst
          have hgenesis : T.genesis = genesis := by
            have := T.genesis_ok.symm.trans hgen
            exact Except.ok.inj this
          exact hgenesis ▸ hfacts.aligned

/-- What a call's manifest offers on top of the store. -/
def OffersNext (genesis : Genesis) (s : S) (c : Call) : Prop :=
  SharesGenesis genesis s c ∧ ∀ manifest, c.transport.fetchManifest = .ok manifest →
    NextAligned genesis.epochSize (baseIndex s c.mode manifest) manifest

theorem RunWith.offersNext {genesis : Genesis} {s₀ : S} {calls : List Call}
    (hrun : RunWith P J (SharesGenesis genesis) s₀ calls s h) (hf : Fresh s₀)
    (hgap : h.GapFree genesis.epochSize) : RunWith P J (OffersNext genesis) s₀ calls s h := by
  induction hrun with
  | nil => exact .nil _
  | snoc T hprev hok hgen ih =>
      obtain ⟨hgap, hnext⟩ := (T.gapFree_iff (hprev.metaInv hf) _).mp hgap
      exact .snoc T (ih hgap) hok ⟨hgen, fun manifest hm => T.manifest_eq hm ▸ hnext⟩

theorem RunWith.gapFree {genesis : Genesis} {s₀ : S} {calls : List Call}
    (hrun : RunWith P J (OffersNext genesis) s₀ calls s h) (hf : Fresh s₀) :
    h.GapFree genesis.epochSize := by
  induction hrun with
  | nil => exact ⟨List.IsChain.nil, fun a ha => by cases ha⟩
  | snoc T hprev hok hmeets ih =>
      have hm := (fetchManifest_eq_ok.mp T.manifest_ok).1
      exact (T.gapFree_iff (hprev.metaInv hf) _).mpr ⟨ih, hmeets.2 _ hm⟩

/-- What the source keeps over every run of calls: payloads link, a snapshot is
aligned, a feed that dropped or changed the last applied epoch is refused with
nothing written. Indices and ranges are the manifest's to choose: they are
consecutive and aligned just as far as every call was offered them so. -/
theorem applied_epochs_chain (genesis : Genesis) {s₀ : S} {calls : List Call} (hf : Fresh s₀)
    (hrun : RunWith P J (SharesGenesis genesis) s₀ calls s h) :
    h.Linked ∧ h.SnapshotAligned genesis.epochSize ∧
      (∀ (c : Call) (manifest : Manifest) (e : Nat) (text : String),
        h.indices.getLast? = some e → h.hashes.getLast? = some text →
        c.transport.fetchManifest = .ok manifest →
        (∀ entry, manifest.epoch e = some entry → entry.hash ≠ text) →
        ∃ err, applyFeed P J c.transport c.mode s = .error err s) ∧
      (h.GapFree genesis.epochSize ↔ RunWith P J (OffersNext genesis) s₀ calls s h) :=
  ⟨hrun.linked hf, hrun.snapshotAligned,
    fun _ _ _ _ he htext hm hdiff => applyFeed_diverged (hrun.metaInv hf) he htext hm hdiff,
    hrun.offersNext hf, fun hnext => hnext.gapFree hf⟩

end

/-! ## Feeds of one empty epoch -/

/-- A feed of one empty epoch under any index and range. -/
def emptyFeed (e first last : Nat) (he : e < 2 ^ 64) (hlast : last < 2 ^ 64)
    (hr : first ≤ last) : SoloFeed where
  epoch := ⟨⟨"SN_MAIN", 7, e, first, last, none⟩, [], ⟨0, 0, 0, 1⟩⟩
  head := none
  epochWf :=
    { header := ⟨Codec.plainStr_literal (s := "SN_MAIN") (by decide), he,
        Nat.lt_of_le_of_lt hr hlast, hlast⟩
      blocks := ⟨fun b hb => (by cases hb), List.IsChain.nil, fun b hb => (by cases hb)⟩
      inside := fun b hb => (by cases hb)
      footer := ⟨rfl, rfl, rfl⟩ }
  headWf h hh := by cases hh
  starts := rfl
  proper := hr
  tail h hh := by cases hh

/-- Epoch 0 with its ten blocks. -/
def alignedFeed : SoloFeed := emptyFeed 0 0 9 (by decide) (by decide) (by decide)

/-- Epoch 5 with blocks 7 and 8. -/
def unalignedFeed : SoloFeed := emptyFeed 5 7 8 (by decide) (by decide) (by decide)

/-- Epoch 1, linked to the payload of epoch 0. -/
def secondEpoch : Epoch :=
  ⟨⟨"SN_MAIN", 7, 1, 10, 19, some (payloadSha256 alignedFeed.payload)⟩, [], ⟨0, 0, 0, 1⟩⟩

def secondApplied : AppliedEpoch :=
  ⟨⟨1, 10, 19, hexEncode (payloadSha256 (Codec.epochBytes secondEpoch))⟩,
    Codec.epochBytes secondEpoch, secondEpoch⟩

/-- The call once the aligned feed has grown by an epoch. -/
def grownCall : Call where
  mode := .epochs
  transport :=
    { fetchGenesis := .ok (alignedFeed.genesis 10)
      fetchManifest := .ok ⟨"SN_MAIN", [alignedFeed.entry, secondApplied.entry], none⟩
      fetchEpoch := fun e =>
        .ok (if e = 0 then alignedFeed.payload else secondApplied.payload)
      fetchSnapshot := fun _ => .error (.transport "no snapshot")
      fetchHead := fun _ => .ok none
      decompress := fun bytes _ _ => .ok bytes }

section

variable {S : Type} [LawfulStore S] {s s' : S} (P : FeltParser) (J : JsonParser)

theorem secondEpoch_wf : Codec.EpochWf secondEpoch where
  header := ⟨Codec.plainStr_literal (s := "SN_MAIN") (by decide), by decide, by decide, by decide⟩
  blocks := ⟨fun b hb => (by cases hb), List.IsChain.nil, fun b hb => (by cases hb)⟩
  inside b hb := by cases hb
  footer := ⟨rfl, rfl, rfl⟩

/-- Epoch 1 verifies over the hash of epoch 0. -/
theorem fetchEpoch_second :
    fetchEpoch P J grownCall.transport (alignedFeed.genesis 10) 7 secondApplied.entry
      (some (payloadSha256 alignedFeed.payload)) = .ok (secondApplied.payload, secondEpoch) := by
  have hverify : Codec.verifyEpochAgainstManifest P J secondApplied.payload secondApplied.entry
      (some (payloadSha256 alignedFeed.payload)) = .ok secondEpoch :=
    (Codec.verifyEpochAgainstManifest_eq_ok P J).mpr
      ⟨rfl, Codec.parseEpoch_epochBytes P J secondEpoch_wf, rfl, rfl, rfl, rfl⟩
  have hbind : Codec.verifyEpochBinding secondEpoch (alignedFeed.genesis 10).chainId 7 = .ok () :=
    Codec.verifyEpochBinding_eq_ok.mpr ⟨rfl, rfl⟩
  refine bind_eq_ok.mpr ⟨secondApplied.payload, rfl, bind_eq_ok.mpr ⟨secondApplied.payload, rfl,
    bind_eq_ok.mpr ⟨secondEpoch, liftFeed_eq_ok.mpr hverify, bind_eq_ok.mpr
      ⟨(), liftFeed_eq_ok.mpr hbind, rfl⟩⟩⟩⟩

/-- The genesis pin of the first call is still there. -/
theorem alignedFeed_pinned (hs : Fresh s) (T : CallTrace P J (alignedFeed.call 10) s s')
    (hT : T.history = ⟨none, [alignedFeed.applied]⟩) :
    metaGet s' "pool" = some (alignedFeed.genesis 10).pool ∧
      metaGet s' "chain_id" = some (alignedFeed.genesis 10).chainId := by
  have hgen : T.genesis = alignedFeed.genesis 10 := (Except.ok.inj T.genesis_ok).symm
  have hsnap : T.snapshot = none := congrArg History.snapshot hT
  have hkeep : ∀ key ∈ ["pool", "chain_id"],
      metaGet s' key = metaGet (pinned (alignedFeed.genesis 10) s) key := by
    intro key hkey
    have hfree : key ∉ "tail_generation" :: epochKeys ∧ key ∉ ["tail_generation", "head_etag",
        "head_number", "head_hash", "l1_accepted"] :=
      (by decide : ∀ key ∈ ["pool", "chain_id"], key ∉ "tail_generation" :: epochKeys ∧
        key ∉ ["tail_generation", "head_etag", "head_number", "head_hash", "l1_accepted"])
        key hkey
    rw [metaGet_headStep T.head hfree.2, metaGet_folds T.folds hfree.1, hsnap, hgen]
    rfl
  constructor
  · rw [hkeep _ (by decide), pinned, hs.metas]
    simp [LawfulStore.metaGet_metaSet]
  · rw [hkeep _ (by decide), pinned, hs.metas]
    simp [LawfulStore.metaGet_metaSet]

/-- The checks of the second call, on a mirror of epoch 0. -/
def grownAccepts (hi : MetaInv s ⟨none, [alignedFeed.applied]⟩)
    (hpool : metaGet s "pool" = some (alignedFeed.genesis 10).pool)
    (hchain : metaGet s "chain_id" = some (alignedFeed.genesis 10).chainId) :
    Accepts P J grownCall s where
  genesis := alignedFeed.genesis 10
  manifest := ⟨"SN_MAIN", [alignedFeed.entry, secondApplied.entry], none⟩
  feedPool := 7
  prevHash := some (payloadSha256 alignedFeed.payload)
  snapshot := none
  epochs := [secondApplied]
  genesis_ok := rfl
  pool_ok stored h := by
    rw [hpool] at h
    exact (Option.some.inj h).symm
  chain_ok stored h := by
    rw [pinned, hpool] at h
    rw [hchain] at h
    exact (Option.some.inj h).symm
  manifest_ok := rfl
  agrees := rfl
  feedPool_ok := feltFromHex_feltHex P alignedFeed.epoch.header.pool
  available hmode := by cases hmode
  snapshot_ok := by rw [installed, if_neg (by simp [grownCall])]
  prevHash_ok := by
    rw [storedHash, withSnapshot, metaGet_pinned _ _ (by decide), hi.hash]
    exact congrArg (Except.map some) (decodeStoredHash_hexEncode _)
  divergence_ok := by
    have hindex : metaU64 (withSnapshot (pinned (alignedFeed.genesis 10) s) none)
        "last_epoch_applied" = some 0 := by
      rw [metaU64, withSnapshot, metaGet_pinned _ _ (by decide)]
      exact hi.metaU64_index
    have hentry : (⟨"SN_MAIN", [alignedFeed.entry, secondApplied.entry], none⟩ : Manifest).epoch 0 =
        some alignedFeed.entry := List.find?_cons_of_pos rfl
    have hhash : alignedFeed.entry.hash = hexEncode (payloadSha256 alignedFeed.payload) := by
      rw [SoloFeed.entry]
    rw [hindex]
    simp only [checkDivergence, hentry]
    exact if_pos hhash
  epochs_ok := by
    have hindex : metaU64 (withSnapshot (pinned (alignedFeed.genesis 10) s) none)
        "last_epoch_applied" = some 0 := by
      rw [metaU64, withSnapshot, metaGet_pinned _ _ (by decide)]
      exact hi.metaU64_index
    have hskip : skips (some 0) alignedFeed.entry = true := rfl
    have hnew : skips (some 0) secondApplied.entry = false := rfl
    rw [hindex, verifyEpochs, if_pos hskip, verifyEpochs, hnew, fetchEpoch_second]
    rfl
  proper a ha := by
    obtain rfl := List.mem_singleton.mp ha
    exact (by decide : 10 ≤ 19)
  head_ok folded hfold := .inl rfl

theorem grownCall_trace (hi : MetaInv s ⟨none, [alignedFeed.applied]⟩)
    (hpool : metaGet s "pool" = some (alignedFeed.genesis 10).pool)
    (hchain : metaGet s "chain_id" = some (alignedFeed.genesis 10).chainId) :
    ∃ out s', applyFeed P J grownCall.transport grownCall.mode s = .ok out s' ∧
      ∃ T : CallTrace P J grownCall s s', T.history = ⟨none, [secondApplied]⟩ := by
  obtain ⟨out, s', hok⟩ := (grownAccepts P J hi hpool hchain).succeeds
  obtain ⟨T⟩ := applyFeed_ok P J hok
  exact ⟨out, s', hok, T, (grownAccepts P J hi hpool hchain).history_eq P J T⟩

end

/-- A mirror that takes epoch 0, and epoch 1 once the feed has grown. -/
theorem applied_epochs_chain_grown :
    ∃ (s : MemStore Mpt.onePedersen) (h : History),
      RunWith hexParser Json.parser (SharesGenesis (alignedFeed.genesis 10))
        (MemStore.new Mpt.onePedersen) [alignedFeed.call 10, grownCall] s h ∧
      h = ⟨none, [alignedFeed.applied, secondApplied]⟩ ∧ h.Linked ∧ h.GapFree 10 ∧
      RunWith hexParser Json.parser (OffersNext (alignedFeed.genesis 10))
        (MemStore.new Mpt.onePedersen) [alignedFeed.call 10, grownCall] s h := by
  have hfresh := MemStore.fresh_new Mpt.onePedersen
  obtain ⟨out, s₁, hok, T, hT⟩ := alignedFeed.trace hexParser Json.parser 10 hfresh
  have hfirst : History.empty.append T.history = ⟨none, [alignedFeed.applied]⟩ := by
    rw [hT]
    rfl
  have hrun₁ : RunWith hexParser Json.parser (SharesGenesis (alignedFeed.genesis 10))
      (MemStore.new Mpt.onePedersen) [alignedFeed.call 10] s₁ (History.empty.append T.history) :=
    RunWith.one T hok rfl
  have hmeta := hrun₁.metaInv hfresh
  rw [hfirst] at hmeta
  obtain ⟨hpool, hchain⟩ := alignedFeed_pinned _ _ hfresh T hT
  obtain ⟨out₂, s₂, hok₂, T₂, hT₂⟩ := grownCall_trace hexParser Json.parser hmeta hpool hchain
  have hrun := RunWith.snoc T₂ hrun₁ hok₂ rfl
  obtain ⟨hlinked, -, -, hiff⟩ := applied_epochs_chain (alignedFeed.genesis 10) hfresh hrun
  have hhist : (History.empty.append T.history).append T₂.history =
      ⟨none, [alignedFeed.applied, secondApplied]⟩ := by
    rw [hfirst, hT₂]
    rfl
  have hgap : (⟨none, [alignedFeed.applied, secondApplied]⟩ : History).GapFree 10 := by
    refine ⟨by simp [History.indices, History.entries]; rfl, fun a ha => ?_⟩
    rcases List.mem_cons.mp ha with rfl | ha
    · exact ⟨rfl, rfl⟩
    · obtain rfl := List.mem_singleton.mp ha
      exact ⟨rfl, rfl⟩
  rw [hhist] at hrun hlinked hiff
  exact ⟨s₂, _, hrun, rfl, hlinked, hgap, hiff.mp hgap⟩

/-- A fresh mirror takes the unaligned epoch. -/
theorem applied_epochs_unaligned :
    ¬ ∀ (genesis : Genesis) (calls : List Call) (s : MemStore Mpt.onePedersen) (h : History),
      RunWith hexParser Json.parser (SharesGenesis genesis) (MemStore.new Mpt.onePedersen)
        calls s h → h.GapFree genesis.epochSize := by
  intro hall
  obtain ⟨out, s, hok, T, hT⟩ := unalignedFeed.trace hexParser Json.parser 10
    (MemStore.fresh_new Mpt.onePedersen)
  have hgap := hall (unalignedFeed.genesis 10) [unalignedFeed.call 10] s _ (.one T hok rfl)
  have hfirst := (hgap.aligned unalignedFeed.applied (by rw [hT]; simp [History.append])).1
  exact absurd hfirst (by decide)

end Strk20.Consumer
