import Strk20.Consumer.Shared
import Strk20.Consumer.Floor

/-!
# The writes of `apply_feed`

Whether a call returns, fails or is stopped, what it has done to the store is a
chain of single writes. Each of them comes with its own bump: a write that
takes a tail row away, or gives its number another hash, counts the generation
up.
-/

namespace Strk20.Consumer

open Feed Json
open Effect (lift Triple)

/-- One write: a pinned key, a snapshot, an epoch over its range, or a tail. -/
inductive FeedWrite where
  | pin (key value : String)
  | snapshot (snap : Snapshot)
  | epoch (a : AppliedEpoch)
  | head (payload : ByteArray) (etag : String) (file : Head)

namespace FeedWrite

section

variable {S : Type} [ConsumerStore S] (P : FeltParser) (J : JsonParser)

/-- The write as `apply_feed` makes it, the contradiction flag computed from
the rows the store holds then. -/
def Applies (s s' : S) : FeedWrite → Prop
  | pin key value => key ∈ pinKeys ∧ s' = metaSet s key value
  | snapshot snap =>
      ConsumerStore.isEmpty s = true ∧
        s' = ConsumerStore.installSnapshot s snap.slots (snapshotMeta snap.header)
  | epoch a =>
      (∃ prev, Codec.Verified P J a.payload a.entry prev a.epoch) ∧
        ∃ stored,
          ConsumerStore.blockHashes s (.inclusive a.entry.first a.entry.last) = .ok stored ∧
          ConsumerStore.replaceRange s (.inclusive a.entry.first a.entry.last)
            (a.epoch.blocks.map fun b => (b, true)) (epochMeta a.entry a.payload)
            (epochContradiction stored a.epoch) = .ok s'
  | head payload etag file =>
      Codec.parseHead P J payload = .ok file ∧
        file.header.tailFrom ≤ (lastEpochTo s + 1) % 2 ^ 64 ∧
        ∃ stored, ConsumerStore.blockHashes s (.above (lastEpochTo s)) = .ok stored ∧
          ConsumerStore.replaceRange s (.above (lastEpochTo s)) (tailBlocks file)
            (headMeta file.header etag) (headContradiction stored file) = .ok s'

/-- Some write of `apply_feed`. -/
def Step (s s' : S) : Prop := ∃ w : FeedWrite, w.Applies P J s s'

/-- Writes one after the other. -/
def Chain : S → S → Prop := Relation.ReflTransGen (Step P J)

variable {P J} {s₀ s s' : S}

theorem Chain.write (h : Chain P J s₀ s) (w : FeedWrite) (hw : w.Applies P J s s') :
    Chain P J s₀ s' :=
  h.tail ⟨w, hw⟩

/-! ## A call is a chain -/

/-- A step that keeps to the chain. -/
def Chained (P : FeltParser) (J : JsonParser) (s₀ : S) {α : Type} (x : EStateM Failure S α) : Prop :=
  Triple (Chain P J s₀) x (fun _ => Chain P J s₀) (Chain P J s₀)

variable {α β : Type} {t : FeedTransport}

theorem chained_pure (a : α) : Chained P J s₀ (pure a) := Triple.pure fun _ h => h

theorem chained_throw (e : Failure) : Chained P J s₀ (throw e : EStateM Failure S α) :=
  Triple.throw fun _ h => h

theorem chained_lift (r : Except Failure α) : Chained P J s₀ (lift r) :=
  Triple.lift (fun _ _ _ h => h) fun _ h => h

theorem chained_bind {x : EStateM Failure S α} {f : α → EStateM Failure S β}
    (hx : Chained P J s₀ x) (hf : ∀ a, Chained P J s₀ (f a)) : Chained P J s₀ (x >>= f) :=
  Triple.bind hx hf

theorem chained_get {f : S → EStateM Failure S β} (hf : ∀ s, Chained P J s₀ (f s)) :
    Chained P J s₀ (get >>= f) :=
  Triple.get fun s => (hf s).weaken (fun _ h => h.2) fun _ _ h => h

theorem chained_ite {c : Prop} [Decidable c] {x y : EStateM Failure S α}
    (hx : Chained P J s₀ x) (hy : Chained P J s₀ y) : Chained P J s₀ (if c then x else y) :=
  Triple.ite (fun _ => hx) fun _ => hy

theorem chained_modify {f : S → S} (h : ∀ s, ∃ w : FeedWrite, w.Applies P J s (f s)) :
    Chained P J s₀ (modify f : EStateM Failure S PUnit) :=
  fun s hs => hs.tail (h s)

theorem chained_pin {key : String} (hkey : key ∈ pinKeys) (value : String) :
    Chained P J s₀ (modify fun s => metaSet s key value : EStateM Failure S PUnit) :=
  chained_modify fun _ => ⟨.pin key value, hkey, rfl⟩

theorem chained_pinGenesis (genesis : Genesis) : Chained P J s₀ (pinGenesis genesis) := by
  rw [pinGenesis]
  refine chained_get fun s => ?_
  cases metaGet s "pool" with
  | none =>
      refine chained_bind (chained_pin (by decide) _) fun _ => ?_
      refine chained_bind (chained_pin (by decide) _) fun _ => ?_
      exact chained_bind (chained_pin (by decide) _) fun _ => chained_pin (by decide) _
  | some stored => exact chained_ite (chained_throw _) (chained_pure ())

theorem chained_checkChainId (genesis : Genesis) : Chained P J s₀ (checkChainId genesis) := by
  rw [checkChainId]
  refine chained_get fun s => ?_
  cases metaGet s "chain_id" with
  | none => exact chained_pure ()
  | some stored => exact chained_ite (chained_throw _) (chained_pure ())

theorem chained_coldStart (mode : ColdStart) (manifest : Manifest) (genesis : Genesis)
    (feedPool : Felt) : Chained P J s₀ (coldStart P J t mode manifest genesis feedPool) := by
  rw [coldStart]
  refine Triple.get fun s => Triple.ite (fun hempty => ?_) fun _ => Triple.pure fun _ h => h.2
  cases manifest.snapshot with
  | some entry =>
      show Triple _ (coldStartFromSnapshot P J t manifest entry genesis feedPool) _ _
      rw [coldStartFromSnapshot]
      refine Triple.bind (Triple.lift (fun _ _ _ h => h) fun _ h => h.2) fun snap => ?_
      rintro s' ⟨rfl, h⟩
      exact h.write (.snapshot snap) ⟨hempty.2, rfl⟩
  | none => exact Triple.ite (fun _ => Triple.throw fun _ h => h.2) fun _ => Triple.pure fun _ h => h.2

theorem chained_applyEpoch (genesis : Genesis) (feedPool : Felt) (entry : ManifestEpoch)
    (p : Progress) : Chained P J s₀ (applyEpoch P J t genesis feedPool entry p) := by
  rw [applyEpoch]
  refine Triple.bind (M := fun r s => fetchEpoch P J t genesis feedPool entry p.prevHash = .ok r ∧
    Chain P J s₀ s) (Triple.lift (fun _ _ h hs => ⟨h, hs⟩) fun _ h => h) fun r => ?_
  obtain ⟨payload, epoch⟩ := r
  refine Triple.get fun s => Triple.bind (M := fun stored s' =>
    ConsumerStore.blockHashes s (.inclusive entry.first entry.last) = .ok stored ∧ s' = s ∧
      fetchEpoch P J t genesis feedPool entry p.prevHash = .ok (payload, epoch) ∧ Chain P J s₀ s)
    (Triple.lift ?_ fun _ h => h.2.2) fun stored => ?_
  · rintro stored s' h ⟨rfl, hs⟩
    exact ⟨h, rfl, hs⟩
  refine Triple.get fun s₁ => Triple.bind (M := fun s' _ => Chain P J s₀ s')
    (Triple.lift ?_ ?_) fun s' => ?_
  · rintro s' s₂ hrep ⟨rfl, hstored, rfl, hfetch, hs⟩
    exact hs.write (.epoch ⟨entry, payload, epoch⟩)
      ⟨⟨p.prevHash, (fetchEpoch_ok P J hfetch).verified⟩, stored, hstored, hrep⟩
  · rintro s₂ ⟨rfl, -, rfl, -, hs⟩
    exact hs
  · exact fun _ hs => hs

theorem chained_applyEpochs (genesis : Genesis) (feedPool : Felt) :
    ∀ (entries : List ManifestEpoch) (p : Progress),
      Chained P J s₀ (applyEpochs P J t genesis feedPool entries p)
  | [], p => chained_pure p
  | entry :: rest, p => by
      rw [applyEpochs]
      exact chained_ite (chained_applyEpochs genesis feedPool rest p)
        (chained_bind (chained_applyEpoch genesis feedPool entry p) fun p' =>
          chained_applyEpochs genesis feedPool rest p')

theorem chained_syncEpochs (genesis : Genesis) (feedPool : Felt) (manifest : Manifest) :
    Chained P J s₀ (syncEpochs P J t genesis feedPool manifest) := by
  rw [syncEpochs]
  refine chained_get fun s => chained_get fun s' => chained_bind (chained_lift _) fun prev => ?_
  exact chained_bind (chained_lift _) fun _ => chained_applyEpochs genesis feedPool _ _

theorem triple_applyHead (floor : Nat) (payload : ByteArray) (etag : String) :
    Triple (fun s => lastEpochTo s = floor ∧ Chain P J s₀ s) (applyHead P J floor payload etag)
      (fun _ => Chain P J s₀) (Chain P J s₀) := by
  rw [applyHead]
  refine Triple.bind (M := fun head s => liftFeed (Codec.parseHead P J payload) = .ok head ∧
    lastEpochTo s = floor ∧ Chain P J s₀ s)
    (Triple.lift (fun _ _ h hs => ⟨h, hs⟩) fun _ h => h.2) fun head => ?_
  refine Triple.ite (fun _ => Triple.throw fun _ h => h.2.2) fun htail => ?_
  refine Triple.get fun s => Triple.bind (M := fun stored s' =>
    ConsumerStore.blockHashes s (.above floor) = .ok stored ∧ s' = s ∧
      liftFeed (Codec.parseHead P J payload) = .ok head ∧ lastEpochTo s = floor ∧ Chain P J s₀ s)
    (Triple.lift ?_ fun _ h => h.2.2.2) fun stored => ?_
  · rintro stored s' h ⟨rfl, hs⟩
    exact ⟨h, rfl, hs⟩
  refine Triple.get fun s₁ => Triple.bind (M := fun s' _ => Chain P J s₀ s')
    (Triple.lift ?_ ?_) fun s' => ?_
  · rintro s' s₂ hrep ⟨rfl, hstored, rfl, hparse, rfl, hs⟩
    exact hs.write (.head payload etag head)
      ⟨liftFeed_eq_ok.mp hparse, Nat.not_lt.mp htail, stored, hstored, hrep⟩
  · rintro s₂ ⟨rfl, -, rfl, -, -, hs⟩
    exact hs
  · exact fun _ hs => hs

theorem chained_syncHead (p : Progress) : Chained P J s₀ (syncHead P J t p) := by
  rw [syncHead]
  refine Triple.get fun s => Triple.get fun s' => ?_
  refine Triple.bind (M := fun _ s'' => s'' = s ∧ Chain P J s₀ s) (Triple.lift ?_ fun _ h => h.2.2)
    fun fetched => ?_
  · rintro fetched s'' - ⟨rfl, rfl, hs⟩
    exact ⟨rfl, hs⟩
  rcases fetched with - | ⟨payload, etag⟩
  · refine Triple.get fun s₁ => Triple.pure ?_
    rintro s'' ⟨rfl, rfl, hs⟩
    exact hs
  · refine Triple.bind ((triple_applyHead (lastEpochTo s) payload etag).weaken ?_
      fun _ _ h => h) fun r => Triple.get fun s₁ => Triple.pure fun _ h => h.2
    rintro s'' ⟨rfl, hs⟩
    exact ⟨rfl, hs⟩

theorem chained_applyFeed (mode : ColdStart) : Chained P J s₀ (applyFeed P J t mode) := by
  rw [applyFeed]
  refine chained_bind (chained_lift _) fun genesis => ?_
  refine chained_bind (chained_pinGenesis genesis) fun _ => ?_
  refine chained_bind (chained_checkChainId genesis) fun _ => ?_
  refine chained_bind (chained_lift _) fun manifest => ?_
  refine chained_bind (chained_lift _) fun feedPool => ?_
  refine chained_bind (chained_coldStart mode manifest genesis feedPool) fun _ => ?_
  exact chained_bind (chained_syncEpochs genesis feedPool manifest) fun p => chained_syncHead p

end

/-! ## A write and the tail -/

section

variable {S : Type} [SharedStore S] {P : FeltParser} {J : JsonParser} {s s' : S} {w : FeedWrite}

/-- A block above the floor of the moment lost its row, or got another hash. -/
def TailReplaced (s s' : S) : Prop :=
  ∃ n h, n < 2 ^ 64 ∧ lastEpochTo s < n ∧ ConsumerStore.blockHash s n = some h ∧
    ConsumerStore.blockHash s' n ≠ some h

/-- The store can address what is written, and count one more. -/
def Fits (s : S) : FeedWrite → Prop
  | pin _ _ => True
  | snapshot snap => ∀ x ∈ snap.slots, LawfulStore.Fits S x.w
  | epoch a =>
      LawfulStore.Fits S a.entry.first ∧ LawfulStore.Fits S a.entry.last ∧
        SharedStore.Room S (generation s)
  | head _ _ file =>
      LawfulStore.Fits S (lastEpochTo s) ∧ (∀ b ∈ file.blocks, LawfulStore.Fits S b.number) ∧
        SharedStore.Room S (generation s)

/-- In a replaced range, the hashes are those of the blocks. -/
theorem blockHash_inside {r : Range} {blocks : List (BlockLine × Bool)} {n : Nat} {h : Felt}
    {m : Rows} (hsorted : Sorted (blocks.map Prod.fst)) (hn : r.contains n = true) :
    ((m.replace r blocks).blocks n).map (·.hash) = some h ↔
      ∃ b ∈ blocks, b.1.number = n ∧ b.1.hash = h := by
  have hhas : ∀ rec, (m.replace r blocks).blocks n = some rec ↔
      Row.block n rec ∈ Row.ofBlocks blocks := by
    intro rec
    have := @Rows.has_putAll (Row.ofBlocks blocks) (m.clear r) (.block n rec)
      (Row.ofBlocks_pairwise hsorted)
    refine this.trans (or_iff_left ?_)
    rintro ⟨-, hclear⟩
    have hout := (Rows.has_clear.mp hclear).1
    rw [Row.number, hn] at hout
    cases hout
  rw [Option.map_eq_some_iff]
  constructor
  · rintro ⟨rec, hrec, rfl⟩
    obtain ⟨b, hb, hrow⟩ := Row.mem_ofBlocks.mp ((hhas rec).mp hrec)
    rw [Row.ofBlock, List.mem_cons, List.mem_append, List.mem_map, List.mem_map] at hrow
    rcases hrow with heq | ⟨_, -, heq⟩ | ⟨_, -, heq⟩
    · injection heq with hnum hrec
      exact ⟨b, hb, hnum.symm, by rw [hrec]; rfl⟩
    · cases heq
    · cases heq
  · rintro ⟨b, hb, rfl, rfl⟩
    exact ⟨blockRec b.1 b.2, (hhas _).mpr (Row.mem_ofBlocks.mpr ⟨b, hb, List.mem_cons_self⟩), rfl⟩

/-- Outside of it, a number no block carries keeps its row. -/
theorem blocks_outside {r : Range} {blocks : List (BlockLine × Bool)} {n : Nat} {m : Rows}
    (hn : r.contains n = false) (hb : ∀ b ∈ blocks, b.1.number ≠ n) :
    (m.replace r blocks).blocks n = m.blocks n := by
  refine Option.ext fun rec => ?_
  have hother : ∀ x ∈ Row.ofBlocks blocks, x.number ≠ (Row.block n rec).number := by
    intro x hx
    obtain ⟨b, hmem, hx⟩ := Row.mem_ofBlocks.mp hx
    rw [Row.number_of_mem_ofBlock hx]
    exact hb b hmem
  exact (@Rows.has_putAll_of_number _ (m.clear r) (.block n rec) hother).trans
    (Rows.has_clear.trans (and_iff_right hn))

theorem blocks_install (m : Rows) (slots : List SnapSlot) (n : Nat) :
    (m.install slots).blocks n = m.blocks n := by
  rw [Rows.install, Row.ofSlots]
  induction slots generalizing m with
  | nil => rfl
  | cons x slots ih =>
      rw [List.map_cons, Rows.putAll_cons, ih]
      rfl

theorem lines_of_verified {a : AppliedEpoch} {prev : Option Key}
    (hv : Codec.Verified P J a.payload a.entry prev a.epoch)
    (hlast : LawfulStore.Fits S a.entry.last) :
    (∀ b ∈ a.epoch.blocks.map fun b => (b, true), LawfulStore.Fits S b.1.number ∧ b.1.Bounded) ∧
      ∀ b ∈ a.epoch.blocks, a.entry.first ≤ b.number ∧ b.number ≤ a.entry.last := by
  have hparsed := Codec.parseEpoch_parsed P J hv.parsed
  have hin : ∀ b ∈ a.epoch.blocks, a.entry.first ≤ b.number ∧ b.number ≤ a.entry.last := by
    intro b hb
    rw [← hv.first, ← hv.last]
    exact (hparsed.inside b hb).1
  refine ⟨fun b hb => ?_, hin⟩
  obtain ⟨line, hline, rfl⟩ := List.mem_map.mp hb
  exact ⟨SharedStore.fits_le (hin line hline).2 hlast, hparsed.blocks.bounded line hline⟩

/-- An epoch that takes a row away contradicts it. -/
theorem epoch_contradicts {a : AppliedEpoch} {prev : Option Key} {stored : List (Nat × Felt)}
    {bump : Bool} (hgood : LawfulStore.Good s)
    (hv : Codec.Verified P J a.payload a.entry prev a.epoch)
    (hfirst : LawfulStore.Fits S a.entry.first) (hlast : LawfulStore.Fits S a.entry.last)
    (hstored : ConsumerStore.blockHashes s (.inclusive a.entry.first a.entry.last) = .ok stored)
    (hrep : ConsumerStore.replaceRange s (.inclusive a.entry.first a.entry.last)
      (a.epoch.blocks.map fun b => (b, true)) (epochMeta a.entry a.payload) bump = .ok s')
    (hlost : TailReplaced s s') : epochContradiction stored a.epoch = true := by
  obtain ⟨hlines, hin⟩ := lines_of_verified hv hlast
  have hrange := SharedStore.fitsRange_inclusive hfirst hlast
  obtain ⟨hrows, hgood'⟩ := LawfulStore.rows_replaceRange hgood hrange hlines hrep
  obtain ⟨n, h, hn, -, hold, hnew⟩ := hlost
  rw [SharedStore.blockHash_good hgood hn] at hold
  rw [SharedStore.blockHash_good hgood' hn, hrows] at hnew
  by_cases hcontains : (Range.inclusive a.entry.first a.entry.last).contains n = true
  · have hmem := (LawfulStore.mem_blockHashes hgood hrange hstored n h).mpr ⟨hcontains, hold⟩
    have hsorted : Sorted ((a.epoch.blocks.map fun b => (b, true)).map Prod.fst) := by
      rw [fst_map_true]
      exact Sorted.of_wf (Codec.parseEpoch_parsed P J hv.parsed).blocks
    rw [ne_eq, blockHash_inside hsorted hcontains] at hnew
    rw [epochContradiction, List.any_eq_true]
    refine ⟨(n, h), hmem, ?_⟩
    rw [Bool.not_eq_true', List.any_eq_false]
    intro b hb hsame
    rw [Bool.and_eq_true, beq_iff_eq, beq_iff_eq] at hsame
    exact hnew ⟨(b, true), List.mem_map_of_mem hb, hsame⟩
  · refine absurd ?_ hnew
    rw [blocks_outside (Bool.not_eq_true _ ▸ hcontains)]
    · exact hold
    · intro b hb heq
      obtain ⟨line, hline, rfl⟩ := List.mem_map.mp hb
      exact hcontains ((Range.contains_inclusive _ _ _).mpr (heq ▸ hin line hline))

theorem tail_lines {file : Head} {payload : ByteArray}
    (hparse : Codec.parseHead P J payload = .ok file)
    (hb : ∀ b ∈ file.blocks, LawfulStore.Fits S b.number) :
    (∀ b ∈ tailBlocks file, LawfulStore.Fits S b.1.number ∧ b.1.Bounded) ∧
      Sorted ((tailBlocks file).map Prod.fst) := by
  have hwf := Codec.parseHead_wf P J hparse
  constructor
  · intro b hmem
    obtain ⟨line, hline, rfl⟩ := List.mem_map.mp hmem
    exact ⟨hb line hline, hwf.blocks.bounded line hline⟩
  · simpa [tailBlocks, Function.comp_def] using Sorted.of_wf hwf.blocks

/-- A tail that takes a row away contradicts it. -/
theorem head_contradicts {file : Head} {payload : ByteArray} {etag : String}
    {stored : List (Nat × Felt)} {bump : Bool} (hgood : LawfulStore.Good s)
    (hparse : Codec.parseHead P J payload = .ok file)
    (htail : file.header.tailFrom ≤ (lastEpochTo s + 1) % 2 ^ 64)
    (hfloor : LawfulStore.Fits S (lastEpochTo s))
    (hb : ∀ b ∈ file.blocks, LawfulStore.Fits S b.number)
    (hstored : ConsumerStore.blockHashes s (.above (lastEpochTo s)) = .ok stored)
    (hrep : ConsumerStore.replaceRange s (.above (lastEpochTo s)) (tailBlocks file)
      (headMeta file.header etag) bump = .ok s')
    (hlost : TailReplaced s s') : headContradiction stored file = true := by
  obtain ⟨hlines, hsorted⟩ := tail_lines hparse hb
  obtain ⟨n, h, hn, habove, hold, hnew⟩ := hlost
  have hrange := SharedStore.fitsRange_above hfloor (lt_of_le_of_lt (Nat.succ_le_of_lt habove) hn)
  obtain ⟨hrows, hgood'⟩ := LawfulStore.rows_replaceRange hgood hrange hlines hrep
  have hcontains := (Range.contains_above (lastEpochTo s) n).mpr habove
  rw [SharedStore.blockHash_good hgood hn] at hold
  rw [SharedStore.blockHash_good hgood' hn, hrows, ne_eq, blockHash_inside hsorted hcontains] at hnew
  have hmem := (LawfulStore.mem_blockHashes hgood hrange hstored n h).mpr ⟨hcontains, hold⟩
  rw [headContradiction, List.any_eq_true]
  refine ⟨(n, h), hmem, ?_⟩
  cases hfind : file.blocks.find? fun b => b.number == n with
  | some b =>
      have hsome := List.find?_some hfind
      have hnum : b.number = n := beq_iff_eq.mp hsome
      have hin := List.mem_of_find?_eq_some hfind
      simp only [decide_eq_true_eq]
      exact fun hhash => hnew ⟨(b, b.finality == some .l1), List.mem_map_of_mem hin, hnum, hhash⟩
  | none =>
      simp only [decide_eq_true_eq]
      rw [Nat.mod_eq_of_lt (lt_of_le_of_lt (Nat.succ_le_of_lt habove) hn)] at htail
      exact le_trans htail (Nat.succ_le_of_lt habove)

/-! ## What a write keeps -/

/-- The keys `apply_feed` writes. -/
def feedKeys : List String :=
  ["pool", "chain_id", "epoch_size", "genesis_block", "last_epoch_applied", "last_epoch_hash",
    "last_epoch_to", "history_floor", "snapshot_basis", "head_etag", "head_number", "head_hash",
    "l1_accepted", "tail_generation"]

theorem metaAfter_of_not_mem {key : String} {old : Option String} :
    ∀ {writes : List (String × String)}, (∀ x ∈ writes, x.1 ≠ key) →
      metaAfter writes key old = old
  | [], _ => rfl
  | x :: writes, h => by
      obtain ⟨hx, hwrites⟩ := List.forall_mem_cons.mp h
      rw [metaAfter, List.foldl_cons, if_neg hx.symm]
      exact metaAfter_of_not_mem hwrites

/-- Metadata under the feed's own keys, the counter apart. -/
def FeedKeyed (writes : List (String × String)) : Prop :=
  ∀ key ∈ writes.map Prod.fst, key ∈ feedKeys ∧ key ≠ "tail_generation"

theorem feedKeyed_snapshotMeta (h : SnapshotHeader) : FeedKeyed (snapshotMeta h) := by
  show ∀ key ∈ ["last_epoch_applied", "last_epoch_hash", "last_epoch_to", "history_floor",
    "snapshot_basis"], _
  decide

theorem feedKeyed_epochMeta (entry : ManifestEpoch) (payload : ByteArray) :
    FeedKeyed (epochMeta entry payload) := by
  show ∀ key ∈ epochKeys, _
  decide

theorem feedKeyed_headMeta (h : HeadHeader) (etag : String) : FeedKeyed (headMeta h etag) := by
  show ∀ key ∈ ["head_etag", "head_number", "head_hash", "l1_accepted"], _
  decide

theorem FeedKeyed.generation_after {writes : List (String × String)} (h : FeedKeyed writes)
    (old : Option String) : metaAfter writes "tail_generation" old = old :=
  metaAfter_of_not_mem fun _ hx => (h _ (List.mem_map_of_mem hx)).2

theorem FeedKeyed.other_after {writes : List (String × String)} (h : FeedKeyed writes)
    {key : String} (hkey : key ∉ feedKeys) (old : Option String) :
    metaAfter writes key old = old :=
  metaAfter_of_not_mem fun _ hx heq => hkey (heq ▸ (h _ (List.mem_map_of_mem hx)).1)

/-- A write on a counted store: the counter moves by one at most, and does for
a replaced tail row. -/
structure Kept (s s' : S) : Prop where
  good : LawfulStore.Good s'
  counted : Counted s'
  metas : ∀ key, key ∉ feedKeys → metaGet s' key = metaGet s key
  count : generation s ≤ generation s'
  countOne : generation s' ≤ generation s + 1
  bumped : TailReplaced s s' → generation s' = generation s + 1

theorem generation_of_repr {n : Nat} (hn : n < 2 ^ 64)
    (h : metaGet s "tail_generation" = some n.repr) : generation s = n := by
  rw [generation, metaU64, h, Option.bind_some, Text.parseU64_repr hn]
  rfl

theorem generation_congr (h : metaGet s' "tail_generation" = metaGet s "tail_generation") :
    generation s' = generation s := by
  rw [generation, metaU64, h]
  rfl

theorem Counted.congr (hc : Counted s)
    (h : metaGet s' "tail_generation" = metaGet s "tail_generation") : Counted s' := by
  rw [Counted, h]
  exact hc

/-- A write that touches no block row and no counter. -/
theorem Kept.of_rows (hc : Counted s) (hgood : LawfulStore.Good s) (hgood' : LawfulStore.Good s')
    (hrows : ∀ n, (LawfulStore.rows s').blocks n = (LawfulStore.rows s).blocks n)
    (hmetas : ∀ key, key ∉ feedKeys → metaGet s' key = metaGet s key)
    (hgen : metaGet s' "tail_generation" = metaGet s "tail_generation") : Kept s s' where
  good := hgood'
  counted := Counted.congr hc hgen
  metas := hmetas
  count := (generation_congr hgen).ge
  countOne := (generation_congr hgen).le.trans (Nat.le_succ _)
  bumped := by
    rintro ⟨n, h, hn, -, hold, hnew⟩
    rw [SharedStore.blockHash_good hgood hn] at hold
    rw [SharedStore.blockHash_good hgood' hn, hrows] at hnew
    exact absurd hold hnew

/-- A replacement that bumps where it takes a tail row away. -/
theorem Kept.of_replaceRange {r : Range} {blocks : List (BlockLine × Bool)}
    {writes : List (String × String)} {bump : Bool} (hc : Counted s)
    (hroom : SharedStore.Room S (generation s)) (hgood' : LawfulStore.Good s')
    (hwrites : FeedKeyed writes)
    (hrep : ConsumerStore.replaceRange s r blocks writes bump = .ok s')
    (hbump : TailReplaced s s' → bump = true) : Kept s s' := by
  have hgen := SharedStore.bump_replaceRange hc hroom (hwrites.generation_after _) hrep
  have hnext : bump = true → generation s' = generation s + 1 := by
    rintro rfl
    rw [if_pos rfl] at hgen
    exact generation_of_repr (SharedStore.room_lt _ hroom) hgen
  refine ⟨hgood', ?_, fun key hkey => ?_, ?_, ?_, fun hlost => hnext (hbump hlost)⟩
  · cases bump with
    | true =>
        rw [if_pos rfl] at hgen
        exact .inr ⟨_, SharedStore.room_lt _ hroom, hgen⟩
    | false => exact Counted.congr hc hgen
  · have hne : key ≠ "tail_generation" := fun heq => hkey (heq ▸ by decide)
    rw [LawfulStore.metaGet_replaceRange hne hrep]
    exact hwrites.other_after hkey _
  · cases bump with
    | true => exact (hnext rfl).symm ▸ Nat.le_succ _
    | false => exact (generation_congr hgen).ge
  · cases bump with
    | true => exact (hnext rfl).le
    | false => exact (generation_congr hgen).le.trans (Nat.le_succ _)

theorem Kept.of_applies (hw : w.Applies P J s s') (hf : w.Fits s) (hgood : LawfulStore.Good s)
    (hc : Counted s) : Kept s s' := by
  cases w with
  | pin key value =>
      obtain ⟨hkey, rfl⟩ := hw
      have hfeed : key ∈ feedKeys := by
        fin_cases hkey <;> decide
      have hne : "tail_generation" ≠ key := by
        rintro rfl
        exact absurd hkey (by decide)
      refine Kept.of_rows hc hgood (LawfulStore.good_metaSet s key value hgood) (fun n => ?_)
        (fun k hk => ?_) ?_
      · rw [LawfulStore.rows_metaSet]
      · have hother : k ≠ key := fun heq => hk (heq ▸ hfeed)
        rw [LawfulStore.metaGet_metaSet, if_neg hother]
      · rw [LawfulStore.metaGet_metaSet, if_neg hne]
  | snapshot snap =>
      obtain ⟨-, rfl⟩ := hw
      obtain ⟨hrows, hgood'⟩ := @LawfulStore.rows_installSnapshot S _ s snap.slots
        (snapshotMeta snap.header) hgood hf
      refine Kept.of_rows hc hgood hgood' (fun n => ?_) (fun k hk => ?_) ?_
      · rw [hrows, blocks_install]
      · rw [LawfulStore.metaGet_installSnapshot]
        exact (feedKeyed_snapshotMeta snap.header).other_after hk _
      · rw [LawfulStore.metaGet_installSnapshot]
        exact (feedKeyed_snapshotMeta snap.header).generation_after _
  | epoch a =>
      obtain ⟨⟨prev, hv⟩, stored, hstored, hrep⟩ := hw
      obtain ⟨hfirst, hlast, hroom⟩ := hf
      have hgood' := SharedStore.good_replaceRange (r := .inclusive a.entry.first a.entry.last)
        hgood ⟨hfirst, hlast⟩ (lines_of_verified hv hlast).1 hrep
      exact Kept.of_replaceRange hc hroom hgood' (feedKeyed_epochMeta a.entry a.payload) hrep
        (epoch_contradicts hgood hv hfirst hlast hstored hrep)
  | head payload etag file =>
      obtain ⟨hparse, htail, stored, hstored, hrep⟩ := hw
      obtain ⟨hfloor, hb, hroom⟩ := hf
      have hgood' := SharedStore.good_replaceRange (r := .above (lastEpochTo s)) hgood hfloor
        (tail_lines hparse hb).1 hrep
      exact Kept.of_replaceRange hc hroom hgood' (feedKeyed_headMeta file.header etag) hrep
        (head_contradicts hgood hparse htail hfloor hb hstored hrep)

end

end FeedWrite

end Strk20.Consumer
