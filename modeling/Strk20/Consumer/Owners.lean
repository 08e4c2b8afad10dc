import Strk20.Consumer.Rewind
import Strk20.Consumer.FeedWrite

/-!
# Owners on one store

Writes of the feed and discoveries of any owners, in any order, each of which
may stop anywhere. An owner is pending from the first tail row it lost until
its next completed discovery: then its stamp is behind the generation, so its
next discovery starts over from the checkpoint. A discovery that fails at the read
behind its stamp has run both live passes and saved their cursors: it ends the
owner's wait as a completed one does.
-/

namespace Strk20.Consumer

open Feed Json
open Effect (Triple)
open FeedWrite (TailReplaced Kept feedKeys)

section

variable {S : Type} [SharedStore S]

/-- A store and its pending owners, reached by writes that meet a condition and
by discoveries. -/
inductive OwnersRun (P : FeltParser) (J : JsonParser) (Meets : S → FeedWrite → Prop) (s₀ : S) :
    S → (Felt → Prop) → Prop where
  | start : OwnersRun P J Meets s₀ s₀ fun _ => False
  | write {s s' : S} {pending : Felt → Prop} (w : FeedWrite) :
      OwnersRun P J Meets s₀ s pending → w.Applies P J s s' → Meets s w →
      OwnersRun P J Meets s₀ s' fun owner => pending owner ∨ TailReplaced s s'
  | completed {s : S} {pending : Felt → Prop} {host : Host S} {report : SyncReport}
      (core : DiscoveryCore S) (owner key : Felt) (outcome : ApplyOutcome) (verified : String)
      (budget : Nat) : OwnersRun P J Meets s₀ s pending →
      discoverState core owner key outcome verified ⟨s, budget, []⟩ = .ok report host →
      OwnersRun P J Meets s₀ host.store fun other => pending other ∧ other ≠ owner
  | failed {s : S} {pending : Felt → Prop} {host : Host S} {e : Failure}
      (core : DiscoveryCore S) (owner key : Felt) (outcome : ApplyOutcome) (verified : String)
      (budget : Nat) : OwnersRun P J Meets s₀ s pending →
      discoverStamped core owner key outcome verified ⟨s, budget, []⟩ = .error e host →
      OwnersRun P J Meets s₀ host.store pending
  | unread {s : S} {pending : Felt → Prop} {stamped host : Host S} {found : Discovery}
      {e : Failure} (core : DiscoveryCore S) (owner key : Felt) (outcome : ApplyOutcome)
      (verified : String) (budget : Nat) : OwnersRun P J Meets s₀ s pending →
      discoverStamped core owner key outcome verified ⟨s, budget, []⟩ = .ok found stamped →
      discoverState core owner key outcome verified ⟨s, budget, []⟩ = .error e host →
      OwnersRun P J Meets s₀ host.store fun other => pending other ∧ other ≠ owner

/-- No stamp is ahead of the generation, and a pending owner's is behind. -/
structure Stamped (s : S) (pending : Felt → Prop) : Prop where
  good : LawfulStore.Good s
  counted : Counted s
  stamps : ∀ owner, ownerGeneration s owner ≤ generation s
  behind : ∀ owner, pending owner → ownerGeneration s owner < generation s

variable {P : FeltParser} {J : JsonParser} {s s' s₀ : S} {pending : Felt → Prop}
  {core : DiscoveryCore S} {owner key : Felt} {outcome : ApplyOutcome} {verified : String}
  {budget : Nat} {host : Host S}

theorem genKey_not_mem_feedKeys (owner : Felt) : genKey owner ∉ feedKeys := by
  have hne : ∀ key ∈ feedKeys, ¬ (key.toList <+: "gen_".toList) ∧ ¬ ("gen_".toList <+: key.toList) := by
    decide
  intro hmem
  have happ := ne_genKey (x := "") owner (hne _ hmem)
  rw [String.append_empty] at happ
  exact happ rfl

theorem ownerGeneration_congr (h : metaGet s' (genKey owner) = metaGet s (genKey owner)) :
    ownerGeneration s' owner = ownerGeneration s owner := by
  rw [ownerGeneration, metaU64, h]
  rfl

theorem Stamped.of_fresh (h : Fresh s) : Stamped s fun _ => False where
  good := h.good
  counted := .inl (h.metas _)
  stamps owner := by
    rw [ownerGeneration, metaU64, h.metas]
    exact Nat.zero_le _
  behind _ h := h.elim

/-- A write of the feed leaves every stamp where it is, and counts up for what
it takes away. -/
theorem Stamped.write (hs : Stamped s pending) (hk : Kept s s') :
    Stamped s' fun owner => pending owner ∨ TailReplaced s s' := by
  have hstamp : ∀ owner, ownerGeneration s' owner = ownerGeneration s owner := fun owner =>
    ownerGeneration_congr (hk.metas _ (genKey_not_mem_feedKeys owner))
  refine ⟨hk.good, hk.counted, fun owner => ?_, fun owner hp => ?_⟩
  · rw [hstamp]
    exact le_trans (hs.stamps owner) hk.count
  · rw [hstamp]
    rcases hp with hp | hlost
    · exact lt_of_lt_of_le (hs.behind owner hp) hk.count
    · rw [hk.bumped hlost]
      exact Nat.lt_succ_of_le (hs.stamps owner)

theorem Frame.counted (hf : Frame owner s s') (hc : Counted s) : Counted s' := by
  rw [Counted, hf.metas _ (tailGeneration_not_mem owner)]
  exact hc

theorem Frame.ownerGeneration_eq (hf : Frame owner s s') {other : Felt} (h : other ≠ owner) :
    ownerGeneration s' other = ownerGeneration s other :=
  ownerGeneration_congr (hf.metas _ (genKey_not_mem h))

/-- A discovery that stopped before its stamp has stamped nobody. -/
theorem Stamped.failed (hs : Stamped s pending) (h : Stopped core owner s host) :
    Stamped host.store pending := by
  have hstamp : ∀ other, ownerGeneration host.store other = ownerGeneration s other := by
    intro other
    by_cases heq : other = owner
    · rw [heq]
      exact ownerGeneration_congr h.stamp
    · exact h.frame.ownerGeneration_eq heq
  refine ⟨h.frame.good hs.good, h.frame.counted hs.counted, fun other => ?_, fun other hp => ?_⟩
  · rw [hstamp, h.frame.generation_eq]
    exact hs.stamps other
  · rw [hstamp, h.frame.generation_eq]
    exact hs.behind other hp

theorem Counted.generation_lt (hc : Counted s) : generation s < 2 ^ 64 := by
  rcases hc with hnone | ⟨n, hn, hsome⟩
  · rw [generation, metaU64, hnone]
    exact Nat.two_pow_pos 64
  · rw [FeedWrite.generation_of_repr hn hsome]
    exact hn

/-- A completed discovery has stamped its owner with the generation. -/
theorem Stamped.completed (hs : Stamped s pending) (h : Completed core owner s host) :
    Stamped host.store fun other => pending other ∧ other ≠ owner := by
  have hself : ownerGeneration host.store owner = generation s := by
    rw [ownerGeneration, metaU64, h.stamp, SharedStore.tailGeneration_eq, Option.bind_some,
      Text.parseU64_repr hs.counted.generation_lt]
    rfl
  refine ⟨h.frame.good hs.good, h.frame.counted hs.counted, fun other => ?_, ?_⟩
  · rw [h.frame.generation_eq]
    by_cases heq : other = owner
    · rw [heq, hself]
    · rw [h.frame.ownerGeneration_eq heq]
      exact hs.stamps other
  · rintro other ⟨hp, hne⟩
    rw [h.frame.ownerGeneration_eq hne, h.frame.generation_eq]
    exact hs.behind other hp

theorem OwnersRun.stamped (hf : Fresh s₀)
    (h : OwnersRun P J (fun s w => w.Fits s) s₀ s pending) : Stamped s pending := by
  induction h with
  | start => exact Stamped.of_fresh hf
  | write w _ hw hfits ih => exact ih.write (Kept.of_applies hw hfits ih.good ih.counted)
  | completed core owner key outcome verified budget _ hok ih =>
      exact ih.completed ((triple_discoverState key outcome verified).ok
        (during_start core owner _ budget) hok)
  | failed core owner key outcome verified budget _ herr ih =>
      exact ih.failed ((triple_discoverStamped key outcome verified).error
        (during_start core owner _ budget) herr)
  | unread core owner key outcome verified budget _ hok herr ih =>
      have hdone := (triple_discoverStamped key outcome verified).ok
        (during_start core owner _ budget) hok
      rw [discoverState, Effect.bind_of_ok hok] at herr
      rcases Effect.bind_error.mp herr with herr | ⟨notes, h, -, herr⟩
      · exact ih.completed (triple_readNotes.error hdone herr)
      · cases herr

/-- Every call of `discover_state` is a step of the run, wherever it ends. -/
theorem OwnersRun.discover {Meets : S → FeedWrite → Prop} (h : OwnersRun P J Meets s₀ s pending)
    (core : DiscoveryCore S) (owner key : Felt) (outcome : ApplyOutcome) (verified : String)
    (budget : Nat) : ∃ pending', OwnersRun P J Meets s₀
      (Effect.final (discoverState core owner key outcome verified ⟨s, budget, []⟩)).store
      pending' := by
  cases hrun : discoverState core owner key outcome verified ⟨s, budget, []⟩ with
  | ok report host => exact ⟨_, .completed core owner key outcome verified budget h hrun⟩
  | error e host =>
      cases hstamped : discoverStamped core owner key outcome verified ⟨s, budget, []⟩ with
      | ok found stamped =>
          exact ⟨_, .unread core owner key outcome verified budget h hstamped hrun⟩
      | error e' stopped =>
          rw [discoverState, Effect.bind_of_error hstamped] at hrun
          obtain ⟨rfl, rfl⟩ := EStateM.Result.error.inj hrun
          exact ⟨_, .failed core owner key outcome verified budget h hstamped⟩

/-- A call of `apply_feed` is a chain of writes wherever it ends, and a call of
`discover_state` a step; along every run, a write that takes a tail row away counts the
generation up, and a pending owner's next discovery runs the engine on discarded live
cursors only, a live run from the checkpoint. One that is Ok has entered both live
runs. -/
theorem rewind_discipline {s₀ : S} (hf : Fresh s₀) (P : FeltParser) (J : JsonParser) :
    (∀ (t : FeedTransport) (mode : ColdStart) (s : S),
      FeedWrite.Chain P J s (Effect.final (applyFeed P J t mode s))) ∧
    ∀ (s : S) (pending : Felt → Prop), OwnersRun P J (fun s w => w.Fits s) s₀ s pending →
      (∀ (w : FeedWrite) (s' : S), w.Applies P J s s' → w.Fits s → TailReplaced s s' →
        ConsumerStore.tailGeneration s' = ConsumerStore.tailGeneration s + 1) ∧
      ∀ (owner : Felt) (core : DiscoveryCore S) (key : Felt) (outcome : ApplyOutcome)
        (verified : String) (budget : Nat),
        (∃ pending', OwnersRun P J (fun s w => w.Fits s) s₀ (Effect.final
          (discoverState core owner key outcome verified ⟨s, budget, []⟩)).store pending') ∧
        (pending owner → ∀ p ∈
          (Effect.final (discoverState core owner key outcome verified ⟨s, budget, []⟩)).passes,
          Rewound core owner p) ∧
        ∀ (report : SyncReport) (host : Host S),
          discoverState core owner key outcome verified ⟨s, budget, []⟩ = .ok report host →
          ∀ kind, ∃ p ∈ host.passes, p.live = true ∧ p.kind = kind := by
  refine ⟨fun t mode s => Triple.final (FeedWrite.chained_applyFeed mode) .refl, ?_⟩
  intro s pending hrun
  have hs := hrun.stamped hf
  refine ⟨fun w s' hw hfits hlost => ?_, fun owner core key outcome verified budget =>
    ⟨hrun.discover core owner key outcome verified budget, fun hp => ?_, fun report host hok => ?_⟩⟩
  · -- a lost row bumps the generation
    rw [SharedStore.tailGeneration_eq, SharedStore.tailGeneration_eq]
    exact (Kept.of_applies hw hfits hs.good hs.counted).bumped hlost
  · -- the owner's stamp is behind, so every pass starts after the rewind
    have hbehind : Behind owner s := by
      rw [Behind, SharedStore.tailGeneration_eq]
      exact Nat.ne_of_lt (hs.behind owner hp)
    have hpasses : Triple (During core owner s fun _ => False)
        (discoverState core owner key outcome verified)
        (fun _ h => ∀ p ∈ h.passes, Rewound core owner p)
        (fun h => ∀ p ∈ h.passes, Rewound core owner p) :=
      ((triple_discoverState key outcome verified).weaken (fun _ hd => hd)
        fun _ _ hd => hd.passes hbehind).relax fun _ hd =>
          hd.elim (fun hd => hd.passes hbehind) fun hd => hd.passes hbehind
    exact hpasses.final (during_start core owner s budget)
  · -- an `Ok` call has come past both live passes
    have hdone := (triple_discoverState key outcome verified).ok
      (during_start core owner s budget) hok
    exact fun kind => hdone.live kind trivial

end

/-! ## A feed before its first epoch -/

def tailGenesis : Genesis := ⟨"SN_MAIN", feltHex 7, 0, 10⟩

section

variable {S : Type} [SharedStore S] {s s' : S}

/-- A store of that feed, before any epoch. -/
structure Epochless (s : S) : Prop where
  pool : metaGet s "pool" = some (feltHex 7)
  chainId : metaGet s "chain_id" = some "SN_MAIN"
  epochs : metaGet s "last_epoch_applied" = none ∧ metaGet s "last_epoch_hash" = none ∧
    metaGet s "last_epoch_to" = none

theorem Epochless.of_fresh (h : Fresh s) : Epochless (pinned tailGenesis s) := by
  refine ⟨?_, ?_, ?_, ?_, ?_⟩
  · rw [pinned, h.metas]
    simp [LawfulStore.metaGet_metaSet, tailGenesis]
  · rw [pinned, h.metas]
    simp [LawfulStore.metaGet_metaSet, tailGenesis]
  · rw [metaGet_pinned _ _ (by decide), h.metas]
  · rw [metaGet_pinned _ _ (by decide), h.metas]
  · rw [metaGet_pinned _ _ (by decide), h.metas]

theorem Epochless.pinned_eq (h : Epochless s) : pinned tailGenesis s = s := by
  rw [pinned, h.pool]

theorem Epochless.floor (h : Epochless s) : lastEpochTo s = 0 := by
  rw [lastEpochTo, metaU64, h.epochs.2.2]
  rfl

/-- A tail lands, and the store is still without an epoch. -/
theorem Epochless.write (h : Epochless s) {file : Head} (hwf : Codec.HeadWf file)
    (htail : file.header.tailFrom ≤ 1) (etag : String) :
    ∃ s', (FeedWrite.head (Codec.headBytes file) etag file).Applies hexParser Json.parser s s' ∧
      Epochless s' := by
  obtain ⟨stored, hstored⟩ := LawfulStore.blockHashes_ok s (r := .above (lastEpochTo s)) trivial
  obtain ⟨s', hrep⟩ := LawfulStore.replaceRange_ok s (r := .above (lastEpochTo s))
    (tailBlocks file) (headMeta file.header etag) (headContradiction stored file) trivial
  have hkeep : ∀ key, key ∉ ["head_etag", "head_number", "head_hash", "l1_accepted",
      "tail_generation"] → metaGet s' key = metaGet s key := by
    intro key hkey
    have hne : key ≠ "tail_generation" := by
      rintro rfl
      exact hkey (by decide)
    rw [LawfulStore.metaGet_replaceRange hne hrep]
    refine FeedWrite.metaAfter_of_not_mem fun x hx heq => hkey (heq ▸ ?_)
    have hmem := List.mem_map_of_mem (f := Prod.fst) hx
    exact (by decide : ∀ k ∈ ["head_etag", "head_number", "head_hash", "l1_accepted"], k ∈
      ["head_etag", "head_number", "head_hash", "l1_accepted", "tail_generation"]) _ hmem
  refine ⟨s', ⟨Codec.parseHead_headBytes _ _ hwf, ?_, stored, hstored, hrep⟩, ?_⟩
  · rw [h.floor]
    exact htail
  · refine ⟨?_, ?_, ?_, ?_, ?_⟩
    · rw [hkeep _ (by decide), h.pool]
    · rw [hkeep _ (by decide), h.chainId]
    · rw [hkeep _ (by decide), h.epochs.1]
    · rw [hkeep _ (by decide), h.epochs.2.1]
    · rw [hkeep _ (by decide), h.epochs.2.2]

/-- The write is what a call over that feed comes to. -/
theorem applyFeed_tail {t : FeedTransport} {payload : ByteArray} {etag : String} {file : Head}
    (hgen : t.fetchGenesis = .ok tailGenesis)
    (hmanifest : t.fetchManifest = .ok ⟨"SN_MAIN", [], none⟩)
    (hhead : t.fetchHead (metaGet (pinned tailGenesis s) "head_etag") = .ok (some (payload, etag)))
    (hpool : ∀ stored ∈ metaGet s "pool", stored = feltHex 7)
    (h : Epochless (pinned tailGenesis s))
    (hw : (FeedWrite.head payload etag file).Applies hexParser Json.parser
      (pinned tailGenesis s) s') :
    ∃ out, applyFeed hexParser Json.parser t .epochs s = .ok out s' := by
  obtain ⟨hparse, htail, stored, hstored, hrep⟩ := hw
  have hman : fetchManifest t tailGenesis = .ok ⟨"SN_MAIN", [], none⟩ :=
    fetchManifest_eq_ok.mpr ⟨hmanifest, rfl⟩
  have hfelt : liftFeed (feltFromHex hexParser tailGenesis.pool) = .ok 7 :=
    liftFeed_eq_ok.mpr (feltFromHex_feltHex hexParser 7)
  have hchain : ∀ x ∈ metaGet (pinned tailGenesis s) "chain_id", x = tailGenesis.chainId := by
    intro x hx
    rw [h.chainId] at hx
    exact (Option.some.inj hx).symm
  have hcold : coldStart hexParser Json.parser t .epochs ⟨"SN_MAIN", [], none⟩
      tailGenesis 7 (pinned tailGenesis s) = .ok () (pinned tailGenesis s) := by
    have hnone : installed hexParser Json.parser t .epochs
        ⟨"SN_MAIN", [], none⟩ tailGenesis 7 (pinned tailGenesis s) = .ok none := rfl
    exact coldStart_eq _ _ hnone fun hmode => by cases hmode
  have hsync : syncEpochs hexParser Json.parser t tailGenesis 7
      ⟨"SN_MAIN", [], none⟩ (pinned tailGenesis s) = .ok ⟨none, none, false, 0⟩
        (pinned tailGenesis s) := by
    have hhash : storedHash (pinned tailGenesis s) = .ok none := by
      rw [storedHash, h.epochs.2.1]
    rw [syncEpochs, Effect.get_bind, Effect.get_bind,
      Effect.bind_of_ok (Effect.lift_ok.mpr ⟨hhash, rfl⟩), metaU64, h.epochs.1]
    rfl
  rw [applyFeed, Effect.bind_of_ok (Effect.lift_ok.mpr ⟨hgen, rfl⟩),
    Effect.bind_of_ok (pinGenesis_eq hpool), Effect.bind_of_ok (checkChainId_eq hchain),
    Effect.bind_of_ok (Effect.lift_ok.mpr ⟨hman, rfl⟩),
    Effect.bind_of_ok (Effect.lift_ok.mpr ⟨hfelt, rfl⟩), Effect.bind_of_ok hcold,
    Effect.bind_of_ok hsync]
  exact syncHead_eq _ _ _ hhead hparse htail hstored hrep

end

/-! ## Two tails that disagree -/

/-- A tail of one block. -/
def oneBlock (n : Nat) (hash : Felt) : Head :=
  ⟨⟨1, n, hash, 0⟩, [⟨n, hash, 1, 0, [], [], none, some .l2⟩], ⟨1, 0, 0, 1⟩⟩

theorem oneBlock_wf {n : Nat} (hash : Felt) (h₁ : 1 ≤ n) (hn : n < 2 ^ 64) :
    Codec.HeadWf (oneBlock n hash) := by
  refine ⟨⟨by simp [oneBlock], hn, by simp [oneBlock]⟩, ⟨?_, List.IsChain.singleton _, ?_⟩, ?_,
    ⟨rfl, rfl, rfl⟩⟩
  · intro b hb
    rw [List.mem_singleton.mp hb]
    exact ⟨hn, by simp, fun e he => by cases he⟩
  · intro b hb
    rw [List.mem_singleton.mp hb]
    exact ⟨List.IsChain.nil, List.IsChain.nil⟩
  · intro b hb
    rw [List.mem_singleton.mp hb]
    exact ⟨rfl, h₁⟩

/-- The write of such a tail. -/
def oneWrite (n : Nat) (hash : Felt) : FeedWrite :=
  .head (Codec.headBytes (oneBlock n hash)) "etag" (oneBlock n hash)

/-- A feed that has cut no epoch yet. -/
def tailTransport (n : Nat) (hash : Felt) : FeedTransport where
  fetchGenesis := .ok tailGenesis
  fetchManifest := .ok ⟨"SN_MAIN", [], none⟩
  fetchEpoch _ := .error (.transport "no epoch")
  fetchSnapshot _ := .error (.transport "no snapshot")
  fetchHead _ := .ok (some (Codec.headBytes (oneBlock n hash), "etag"))
  decompress bytes _ _ := .ok bytes

section

variable {S : Type} [SharedStore S] {s s' : S} {n : Nat} {hash : Felt}

theorem Epochless.oneWrite (h : Epochless s) (h₁ : 1 ≤ n) (hn : n < 2 ^ 64) (hash : Felt) :
    ∃ s', (oneWrite n hash).Applies hexParser Json.parser s s' ∧ Epochless s' :=
  h.write (oneBlock_wf hash h₁ hn) le_rfl "etag"

/-- The block of the tail carries its hash. -/
theorem oneWrite_hash (hgood : LawfulStore.Good s) (h : Epochless s) (h₁ : 1 ≤ n)
    (hfits : LawfulStore.Fits S n) (hn : n < 2 ^ 64)
    (hw : (oneWrite n hash).Applies hexParser Json.parser s s') :
    LawfulStore.Good s' ∧ ConsumerStore.blockHash s' n = some hash := by
  obtain ⟨hparse, -, stored, -, hrep⟩ := hw
  have hblocks : ∀ b ∈ (oneBlock n hash).blocks, LawfulStore.Fits S b.number := by
    intro b hb
    rw [List.mem_singleton.mp hb]
    exact hfits
  obtain ⟨hlines, hsorted⟩ := FeedWrite.tail_lines hparse hblocks
  have hfloor : LawfulStore.Fits S (lastEpochTo s) := by
    rw [h.floor]
    exact SharedStore.fits_le (Nat.zero_le n) hfits
  have hrange := SharedStore.fitsRange_above hfloor (by rw [h.floor]; decide)
  obtain ⟨hrows, hgood'⟩ := LawfulStore.rows_replaceRange hgood hrange hlines hrep
  refine ⟨hgood', ?_⟩
  rw [SharedStore.blockHash_good hgood' hn, hrows, FeedWrite.blockHash_inside hsorted]
  · exact ⟨_, List.mem_singleton.mpr rfl, rfl, rfl⟩
  · rw [Range.contains_above, h.floor]
    exact h₁

end

section

variable {S : Type} [SharedStore S] {s : S} {n : Nat} {hash : Felt}

theorem oneWrite_fits (h : Epochless s) (hn : LawfulStore.Fits S n)
    (hroom : SharedStore.Room S (generation s)) : (oneWrite n hash).Fits s := by
  refine ⟨?_, fun b hb => ?_, hroom⟩
  · rw [h.floor]
    exact SharedStore.fits_le (Nat.zero_le n) hn
  · rw [List.mem_singleton.mp hb]
    exact hn

/-- The pins of a first call, write by write. -/
theorem OwnersRun.pinned (hf : Fresh s) (P : FeltParser) (J : JsonParser) :
    ∃ pending, OwnersRun P J (fun s w => w.Fits s) s (pinned tailGenesis s) pending := by
  rw [Consumer.pinned, hf.metas]
  refine ⟨_, .write (.pin "genesis_block" _) (.write (.pin "epoch_size" _)
    (.write (.pin "chain_id" _) (.write (.pin "pool" _) .start ⟨?_, rfl⟩ trivial) ⟨?_, rfl⟩ trivial)
    ⟨?_, rfl⟩ trivial) ⟨?_, rfl⟩ trivial⟩ <;> decide

end

/-- Two tails of block 12: every owner is pending, and the generation is
counted up. -/
theorem rewind_discipline_two :
    ∃ (s₁ s₂ : MemStore Mpt.onePedersen) (pending : Felt → Prop),
      OwnersRun hexParser Json.parser (fun s w => w.Fits s) (MemStore.new Mpt.onePedersen) s₂
        pending ∧
      (∀ owner, pending owner) ∧
      ConsumerStore.tailGeneration s₂ = ConsumerStore.tailGeneration s₁ + 1 ∧
      ∀ (owner : Felt) (core : DiscoveryCore (MemStore Mpt.onePedersen)) (key : Felt)
        (outcome : ApplyOutcome) (verified : String) (budget : Nat),
        (∀ p ∈
          (Effect.final (discoverState core owner key outcome verified ⟨s₂, budget, []⟩)).passes,
          Rewound core owner p) ∧
        ∀ (report : SyncReport) (host : Host (MemStore Mpt.onePedersen)),
          discoverState core owner key outcome verified ⟨s₂, budget, []⟩ = .ok report host →
          ∀ kind, ∃ p ∈ host.passes, p.live = true ∧ p.kind = kind := by
  have hfresh := MemStore.fresh_new Mpt.onePedersen
  have he := Epochless.of_fresh hfresh
  have hgood := good_pinned tailGenesis hfresh.good
  obtain ⟨s₁, hw₁, he₁⟩ := he.oneWrite (n := 12) (by decide) (by decide) 2
  obtain ⟨s₂, hw₂, -⟩ := he₁.oneWrite (n := 12) (by decide) (by decide) 3
  have hbound : (12 : Nat) < 2 ^ 64 := by decide
  obtain ⟨hgood₁, hhash₁⟩ := oneWrite_hash hgood he (by decide) hbound hbound hw₁
  obtain ⟨-, hhash₂⟩ := oneWrite_hash hgood₁ he₁ (by decide) hbound hbound hw₂
  have hlost : TailReplaced s₁ s₂ := by
    refine ⟨12, 2, hbound, ?_, hhash₁, ?_⟩
    · rw [he₁.floor]
      decide
    · rw [hhash₂]
      decide
  obtain ⟨pending, hpins⟩ := OwnersRun.pinned hfresh hexParser Json.parser
  have hzero : generation (pinned tailGenesis (MemStore.new Mpt.onePedersen)) = 0 := by
    rw [generation, metaU64, metaGet_pinned _ _ (by decide), hfresh.metas]
    rfl
  have hfits₁ : (oneWrite 12 2).Fits (pinned tailGenesis (MemStore.new Mpt.onePedersen)) :=
    oneWrite_fits he hbound (by rw [hzero]; exact (by decide : 0 + 1 < 2 ^ 64))
  have hkept := Kept.of_applies hw₁ hfits₁ hgood (hpins.stamped hfresh).counted
  have hfits₂ : (oneWrite 12 3).Fits s₁ := by
    refine oneWrite_fits he₁ hbound ?_
    have hle := hkept.countOne
    rw [hzero] at hle
    exact lt_of_le_of_lt (Nat.succ_le_succ hle) (by decide)
  have hrun := (hpins.write _ hw₁ hfits₁).write _ hw₂ hfits₂
  obtain ⟨hbump, -⟩ := (rewind_discipline hfresh hexParser Json.parser).2 s₁ _
    (hpins.write _ hw₁ hfits₁)
  obtain ⟨-, hrewound⟩ := (rewind_discipline hfresh hexParser Json.parser).2 s₂ _ hrun
  refine ⟨s₁, s₂, _, hrun, fun _ => .inr hlost, hbump _ s₂ hw₂ hfits₂ hlost, ?_⟩
  intro owner core key outcome verified budget
  obtain ⟨-, hdiscarded, hran⟩ := hrewound owner core key outcome verified budget
  exact ⟨hdiscarded (.inr hlost), hran⟩

section

variable {pedersen : Felt → Felt → Felt} {s s' : FeedStore pedersen} {n : Nat} {hash : Felt}

theorem blocks_oneWrite (h : Epochless s)
    (hw : (oneWrite n hash).Applies hexParser Json.parser s s') :
    s'.blocks = (s.blocks.filter fun i _ => !FeedStore.inRange (.above 0) i).insert (toI64 n)
      ⟨hash, 1, toI64 0, if (some Finality.l2 == some .l1) = true then 1 else 0⟩ := by
  obtain ⟨-, -, stored, -, hrep⟩ := hw
  rw [h.floor] at hrep
  obtain rfl := Except.ok.inj hrep
  cases headContradiction stored (oneBlock n hash) <;> rfl

theorem blockHash_oneWrite (h : Epochless s)
    (hw : (oneWrite n hash).Applies hexParser Json.parser s s') :
    ConsumerStore.blockHash s' n = some hash := by
  show (s'.blocks[toI64 n]?).map (·.hash) = some hash
  rw [blocks_oneWrite h hw, Std.ExtTreeMap.getElem?_insert_self]
  rfl

/-- A negative key is in no range above a floor. -/
theorem blockHashes_oneWrite (h : Epochless s)
    (hw : (oneWrite n hash).Applies hexParser Json.parser s s') (hs : s.blocks = ∅)
    (hneg : toI64 n < 0) : ConsumerStore.blockHashes s' (.above 0) = .ok [] := by
  show Except.ok ((s'.blocks.toList.filter fun e => FeedStore.inRange (.above 0) e.1).map _) = _
  have hnil : (s'.blocks.toList.filter fun e => FeedStore.inRange (.above 0) e.1) = [] := by
    rw [List.filter_eq_nil_iff]
    intro e hmem hin
    have hget := Std.ExtTreeMap.mem_toList_iff_getElem?_eq_some.mp hmem
    rw [blocks_oneWrite h hw, hs, Tables.getElem?_insert_eq] at hget
    split at hget
    · rename_i heq
      rw [FeedStore.inRange, heq, decide_eq_true_eq] at hin
      exact absurd hin (not_lt.mpr (le_of_lt hneg))
    · simp at hget
  rw [hnil]
  rfl

end

/-- Block 2^63 is kept under a negative key, which no range above the floor
finds: its hash changes and the generation does not. -/
theorem rewind_missed_above_bound :
    ∃ (s₁ s₂ : FeedStore Mpt.onePedersen) (out₁ out₂ : ApplyOutcome),
      applyFeed hexParser Json.parser (tailTransport (2 ^ 63) 2) .epochs
        (FeedStore.new Mpt.onePedersen) = .ok out₁ s₁ ∧
      applyFeed hexParser Json.parser (tailTransport (2 ^ 63) 3) .epochs s₁ = .ok out₂ s₂ ∧
      TailReplaced s₁ s₂ ∧
      ConsumerStore.tailGeneration s₂ = ConsumerStore.tailGeneration s₁ := by
  have hfresh := FeedStore.fresh_new Mpt.onePedersen
  have he := Epochless.of_fresh hfresh
  obtain ⟨s₁, hw₁, he₁⟩ := he.oneWrite (n := 2 ^ 63) (by decide) (by decide) 2
  obtain ⟨s₂, hw₂, he₂⟩ := he₁.oneWrite (n := 2 ^ 63) (by decide) (by decide) 3
  obtain ⟨out₁, hout₁⟩ := applyFeed_tail (t := tailTransport (2 ^ 63) 2) rfl rfl rfl
    (fun stored h => by rw [hfresh.metas] at h; cases h) he hw₁
  have hsame := he₁.pinned_eq
  obtain ⟨out₂, hout₂⟩ := applyFeed_tail (t := tailTransport (2 ^ 63) 3) rfl rfl rfl
    (fun stored h => by rw [he₁.pool] at h; exact (Option.some.inj h).symm)
    (hsame.symm ▸ he₁) (hsame.symm ▸ hw₂)
  have hhash₁ := blockHash_oneWrite he hw₁
  have hhash₂ := blockHash_oneWrite he₁ hw₂
  refine ⟨s₁, s₂, out₁, out₂, hout₁, hout₂, ⟨2 ^ 63, 2, by decide, ?_, hhash₁, ?_⟩, ?_⟩
  · rw [he₁.floor]
    decide
  · rw [hhash₂]
    decide
  · -- no stored row is in the range, so nothing contradicts the second tail
    have hnone := blockHashes_oneWrite he hw₁ rfl (by decide)
    obtain ⟨-, -, stored, hstored, hrep⟩ := hw₂
    rw [he₁.floor] at hstored hrep
    rw [hnone] at hstored
    obtain rfl := Except.ok.inj hstored
    obtain rfl := Except.ok.inj hrep
    have hgen := @FeedStore.generation_replaceRange Mpt.onePedersen s₁ (.above 0)
      (tailBlocks (oneBlock (2 ^ 63) 3)) (headMeta (oneBlock (2 ^ 63) 3).header "etag") false
    exact congrArg (fun v => (v.bind Text.parseU64).getD 0) hgen

end Strk20.Consumer
