import Strk20.Consumer.EpochChain

/-!
# The epoch floor

`last_epoch_to` splits a mirror in two: what epochs and the snapshot brought
lies at or below it, the tail above. The fold clears by its own bounds and
inserts by the feed's, so the split is as good as the feed's ranges:
`KeepsFloor` is what a call has to be offered, and over runs of such calls the
split is exact.
-/

namespace Strk20.Consumer

open Feed Json Result

/-! ## What the floor should hold -/

/-- The rows an applied epoch brings. -/
def AppliedEpoch.rows (a : AppliedEpoch) : List Row :=
  Row.ofBlocks (a.epoch.blocks.map fun b => (b, true))

/-- The rows a store was given below the floor. -/
def History.rows (h : History) : List Row :=
  (h.snapshot.map fun x => Row.ofSlots x.slots).getD [] ++ h.epochs.flatMap AppliedEpoch.rows

section

variable {S : Type} [LawfulStore S] (P : FeltParser) (J : JsonParser)

/-- The rows at or below the floor are the history's. -/
def FloorExact (s : S) (h : History) : Prop :=
  ∀ row, (LawfulStore.rows s).Has row ∧ row.number ≤ lastEpochTo s ↔ row ∈ h.rows

/-- The rows above the floor are the head's, and none is above `head_number`. -/
def TailExact (s : S) (head : Head) : Prop :=
  (∀ row, (LawfulStore.rows s).Has row ∧ lastEpochTo s < row.number ↔
    row ∈ Row.ofBlocks (tailBlocks head)) ∧
  ∃ number, metaU64 s "head_number" = some number ∧
    ∀ row, (LawfulStore.rows s).Has row → lastEpochTo s < row.number → row.number ≤ number

/-- The head payload a call receives on a store. -/
def Receives (s : S) (c : Call) (head : Head) : Prop :=
  ∃ payload etag, c.transport.fetchHead (metaGet s "head_etag") = .ok (some (payload, etag)) ∧
    Codec.parseHead P J payload = .ok head

/-! ## What a call has to be offered -/

/-- Ranges that follow each other above a floor. -/
structure Ascending (floor : Option Nat) (entries : List ManifestEpoch) : Prop where
  proper : ∀ entry ∈ entries, entry.first ≤ entry.last
  apart : entries.Pairwise fun a b => a.last < b.first
  above : ∀ f ∈ floor, ∀ entry ∈ entries, f < entry.first

/-- The entries a call applies. -/
def offered (s : S) (c : Call) (manifest : Manifest) : List ManifestEpoch :=
  pending (baseIndex s c.mode manifest) manifest.epochs

/-- The floor after the epochs of a call. -/
def nextFloor (s : S) (c : Call) (manifest : Manifest) : Nat :=
  (((offered s c manifest).getLast?.map (·.last)).or (baseFloor s c.mode manifest)).getD 0

/-- The ranges ascend above the floor and strand no tail row, the head lies
between the new floor and its own `head`, and the store can address it all. -/
structure FloorKept (s : S) (c : Call) (manifest : Manifest) : Prop where
  ascending : Ascending (baseFloor s c.mode manifest) (offered s c manifest)
  stranded : ∀ row, (LawfulStore.rows s).Has row → lastEpochTo s < row.number →
    row.number ≤ nextFloor s c manifest →
    ∃ entry ∈ offered s c manifest, entry.first ≤ row.number ∧ row.number ≤ entry.last
  head : ∀ head, Receives P J s c head → ∀ b ∈ head.blocks,
    nextFloor s c manifest < b.number ∧ b.number ≤ head.header.head
  fitsFloor : ∀ f ∈ baseFloor s c.mode manifest, ∀ n ≤ f, LawfulStore.Fits S n
  fitsEpochs : ∀ entry ∈ offered s c manifest,
    LawfulStore.FitsRange S (.inclusive entry.first entry.last) ∧
      ∀ n ≤ entry.last, LawfulStore.Fits S n
  fitsHead : ∀ head, Receives P J s c head →
    LawfulStore.FitsRange S (.above (nextFloor s c manifest)) ∧
      ∀ b ∈ head.blocks, LawfulStore.Fits S b.number

def KeepsFloor (s : S) (c : Call) : Prop :=
  ∀ manifest, c.transport.fetchManifest = .ok manifest → FloorKept P J s c manifest

/-! ## Folds, row by row -/

variable {P J} {c : Call} {s s' : S} {h : History}

theorem AppliedEpoch.number_of_mem {genesis : Genesis} {feedPool : Felt} {prev : Option Key}
    {a : AppliedEpoch} (hf : EpochFacts P J genesis feedPool prev a) {row : Row}
    (hr : row ∈ a.rows) : a.entry.first ≤ row.number ∧ row.number ≤ a.entry.last := by
  obtain ⟨b, hb, hrow⟩ := Row.mem_ofBlocks.mp hr
  obtain ⟨line, hline, rfl⟩ := List.mem_map.mp hb
  have hinside := ((Codec.parseEpoch_parsed P J hf.verified.parsed).inside line hline).1
  rw [Row.number_of_mem_ofBlock hrow, ← hf.verified.first, ← hf.verified.last]
  exact hinside

theorem fst_map_true (blocks : List BlockLine) :
    (blocks.map fun b => (b, true)).map Prod.fst = blocks := by
  simp [Function.comp_def]

/-- One folded epoch: its own rows, and what its range left out. -/
theorem EpochFacts.has_replace {genesis : Genesis} {feedPool : Felt} {prev : Option Key}
    {a : AppliedEpoch} (hf : EpochFacts P J genesis feedPool prev a) {bump : Bool}
    (hgood : LawfulStore.Good s)
    (hfits : LawfulStore.FitsRange S (.inclusive a.entry.first a.entry.last) ∧
      ∀ n ≤ a.entry.last, LawfulStore.Fits S n)
    (hrep : ConsumerStore.replaceRange s (.inclusive a.entry.first a.entry.last)
      (a.epoch.blocks.map fun b => (b, true)) (epochMeta a.entry a.payload) bump = .ok s') :
    LawfulStore.Good s' ∧ ∀ row, (LawfulStore.rows s').Has row ↔
      row ∈ a.rows ∨ (¬ (a.entry.first ≤ row.number ∧ row.number ≤ a.entry.last) ∧
        (LawfulStore.rows s).Has row) := by
  have hparsed := Codec.parseEpoch_parsed P J hf.verified.parsed
  have hin : ∀ b ∈ a.epoch.blocks, a.entry.first ≤ b.number ∧ b.number ≤ a.entry.last := by
    intro b hb
    rw [← hf.verified.first, ← hf.verified.last]
    exact (hparsed.inside b hb).1
  have hlines : ∀ b ∈ a.epoch.blocks.map fun b => (b, true),
      LawfulStore.Fits S b.1.number ∧ b.1.Bounded := by
    intro b hb
    obtain ⟨line, hline, rfl⟩ := List.mem_map.mp hb
    exact ⟨hfits.2 _ (hin line hline).2, hparsed.blocks.bounded line hline⟩
  obtain ⟨hrows, hgood'⟩ := LawfulStore.rows_replaceRange hgood hfits.1 hlines hrep
  refine ⟨hgood', fun row => ?_⟩
  rw [hrows, Rows.has_replace]
  · simp only [← Bool.not_eq_true, Range.contains_inclusive]
    rfl
  · rw [fst_map_true]
    exact Sorted.of_wf hparsed.blocks
  · intro b hb
    obtain ⟨line, hline, rfl⟩ := List.mem_map.mp hb
    exact (Range.contains_inclusive _ _ _).mpr (hin line hline)

/-- Epochs whose ranges lie apart do not disturb each other. -/
theorem Folds.has {genesis : Genesis} {feedPool : Felt} {l : List AppliedEpoch}
    (hf : Folds l s s') : ∀ {prev : Option Key}, Chained P J genesis feedPool prev l →
    LawfulStore.Good s →
    (l.map (·.entry)).Pairwise (fun a b => a.last < b.first) →
    (∀ a ∈ l, LawfulStore.FitsRange S (.inclusive a.entry.first a.entry.last) ∧
      ∀ n ≤ a.entry.last, LawfulStore.Fits S n) →
    LawfulStore.Good s' ∧ ∀ row, (LawfulStore.rows s').Has row ↔
      row ∈ l.flatMap AppliedEpoch.rows ∨
        ((∀ a ∈ l, ¬ (a.entry.first ≤ row.number ∧ row.number ≤ a.entry.last)) ∧
          (LawfulStore.rows s).Has row) := by
  induction hf with
  | nil s => exact fun _ hgood _ _ => ⟨hgood, fun row => by simp⟩
  | @cons a rest s s₁ s' bump hrep _ ih =>
      intro prev hc hgood hapart hfits
      obtain ⟨hfirst, hrest⟩ := List.forall_mem_cons.mp hfits
      rw [List.map_cons, List.pairwise_cons] at hapart
      obtain ⟨hgood₁, hone⟩ := hc.1.has_replace hgood hfirst hrep
      obtain ⟨hgood', hmore⟩ := ih hc.2 hgood₁ hapart.2 hrest
      refine ⟨hgood', fun row => ?_⟩
      rw [hmore, hone, List.flatMap_cons, List.mem_append, List.forall_mem_cons]
      constructor
      · rintro (hr | ⟨hout, hr | ⟨hne, hs⟩⟩)
        · exact .inl (.inr hr)
        · exact .inl (.inl hr)
        · exact .inr ⟨⟨hne, hout⟩, hs⟩
      · rintro ((hr | hr) | ⟨⟨hne, hout⟩, hs⟩)
        · -- a row of the first epoch lies below the ranges of the others
          refine .inr ⟨fun b hb hin => ?_, .inl hr⟩
          have hlt := hapart.1 b.entry (List.mem_map_of_mem hb)
          have hle := (AppliedEpoch.number_of_mem hc.1 hr).2
          omega
        · exact .inl hr
        · exact .inr ⟨hout, .inr ⟨hne, hs⟩⟩

/-! ## The invariant -/

/-- Every event row has its block row: `is_empty` does not look at events. -/
def EventsHosted (m : Rows) : Prop :=
  ∀ n i rec, m.Has (.event n i rec) → ∃ b, m.Has (.block n b)

theorem Row.block_of_event {blocks : List (BlockLine × Bool)} {n i : Nat} {rec : EventRec}
    (he : Row.event n i rec ∈ Row.ofBlocks blocks) : ∃ b, Row.block n b ∈ Row.ofBlocks blocks := by
  obtain ⟨b, hb, hrow⟩ := Row.mem_ofBlocks.mp he
  have hn := Row.number_of_mem_ofBlock hrow
  refine ⟨blockRec b.1 b.2, Row.mem_ofBlocks.mpr ⟨b, hb, ?_⟩⟩
  rw [Row.number] at hn
  rw [hn]
  exact List.mem_cons_self

theorem EventsHosted.of_has {m m' : Rows} (hm : EventsHosted m) (new : List Row)
    (Keep : Nat → Prop)
    (hnew : ∀ n i rec, Row.event n i rec ∈ new → ∃ b, Row.block n b ∈ new)
    (hhas : ∀ row, m'.Has row ↔ row ∈ new ∨ (Keep row.number ∧ m.Has row)) : EventsHosted m' := by
  intro n i rec he
  rcases (hhas _).mp he with he | ⟨hk, he⟩
  · obtain ⟨b, hb⟩ := hnew n i rec he
    exact ⟨b, (hhas _).mpr (.inl hb)⟩
  · obtain ⟨b, hb⟩ := hm n i rec he
    exact ⟨b, (hhas _).mpr (.inr ⟨hk, hb⟩)⟩

structure FloorInv (s : S) (h : History) : Prop where
  good : LawfulStore.Good s
  metas : MetaInv s h
  hosted : EventsHosted (LawfulStore.rows s)
  below : FloorExact s h

theorem FloorInv.of_fresh (hs : Fresh s) : FloorInv s History.empty where
  good := hs.good
  metas := MetaInv.of_fresh hs
  hosted n i rec he := by
    rw [hs.rows] at he
    exact absurd he (Rows.has_empty _)
  below row := by
    rw [hs.rows]
    exact ⟨fun hr => absurd hr.1 (Rows.has_empty _), fun hr => by cases hr⟩

/-! ## The snapshot step -/

theorem Row.ofSlots_pairwise {block : Nat} {slots : List SnapSlot}
    (hw : Snapshot.SlotsWf block slots) :
    (Row.ofSlots slots).Pairwise fun x y => ¬ Row.SameKey x y := by
  have hasc : slots.Pairwise fun a b => a.k.val < b.k.val := List.isChain_iff_pairwise.mp hw.ascending
  rw [Row.ofSlots, List.pairwise_map]
  refine hasc.imp fun hab hk => ?_
  rw [hk.1] at hab
  exact absurd hab (lt_irrefl _)

/-- An empty store has no row at all. -/
theorem FloorInv.not_has (hi : FloorInv s h) (he : ConsumerStore.isEmpty s = true) (row : Row) :
    ¬ (LawfulStore.rows s).Has row := by
  obtain ⟨-, hblocks, hslots⟩ := (LawfulStore.isEmpty_iff s hi.good).mp he
  have hblock : ∀ n b, ¬ (LawfulStore.rows s).Has (.block n b) := by
    intro n b hb
    rw [Rows.Has, hblocks] at hb
    cases hb
  cases row with
  | block n b => exact hblock n b
  | slot k n v =>
      intro hr
      rw [Rows.Has, hslots] at hr
      cases hr
  | event n i rec =>
      intro hr
      obtain ⟨b, hb⟩ := hi.hosted n i rec hr
      exact hblock n b hb

theorem History.rows_append (h : History) (l : List AppliedEpoch) :
    (h.append ⟨none, l⟩).rows = h.rows ++ l.flatMap AppliedEpoch.rows := by
  simp [History.rows, History.append]

/-- The snapshot step keeps the invariant, and what is above the floor after it
was there before. -/
theorem CallTrace.floorInv_snapshot (T : CallTrace P J c s s') (hi : FloorInv s h)
    (hfits : ∀ f ∈ baseFloor s c.mode T.manifest, ∀ n ≤ f, LawfulStore.Fits S n) :
    FloorInv (withSnapshot (pinned T.genesis s) T.snapshot) (h.append ⟨T.snapshot, []⟩) ∧
      ∀ row, (LawfulStore.rows (withSnapshot (pinned T.genesis s) T.snapshot)).Has row →
        lastEpochTo (withSnapshot (pinned T.genesis s) T.snapshot) < row.number →
        (LawfulStore.rows s).Has row ∧ lastEpochTo s < row.number := by
  have hmeta := T.metaInv_snapshot hi.metas
  have hfloor := T.baseFloor_eq
  cases hx : T.snapshot with
  | none =>
      rw [hx] at hmeta
      have hsame : h.append ⟨none, []⟩ = h := by simp [History.append]
      have hto : lastEpochTo (pinned T.genesis s) = lastEpochTo s := by
        rw [lastEpochTo, metaU64, metaGet_pinned _ _ (by decide), lastEpochTo, metaU64]
      refine ⟨⟨good_pinned _ hi.good, hmeta, ?_, fun row => ?_⟩, fun row hr hn => ?_⟩
      · rw [withSnapshot, rows_pinned]
        exact hi.hosted
      · rw [withSnapshot, rows_pinned, hto, hsame]
        exact hi.below row
      · rw [withSnapshot, rows_pinned] at hr
        rw [withSnapshot, hto] at hn
        exact ⟨hr, hn⟩
  | some x =>
      have hinst := T.snapshot_ok
      rw [hx] at hinst hmeta hfloor
      obtain ⟨-, hempty, -⟩ := installed_ok P J hinst
      obtain ⟨entry, -, hfacts⟩ := T.snapshotFacts hx
      obtain ⟨basis, -, payload, zst, hdec⟩ := hfacts.basis
      have hslots := Snapshot.parse_slotsWf P J hdec.parsed
      obtain ⟨hs, he⟩ := T.snapshot_fresh hi.metas (by simp [hx])
      have hend : (h.append ⟨some x, []⟩).ends.getLast? = some x.header.block := by
        simp [History.ends, History.entries, History.append, hs, he]
      have hto : lastEpochTo (withSnapshot (pinned T.genesis s) (some x)) = x.header.block := by
        rw [hmeta.lastEpochTo_eq, hend, Option.getD_some]
      have hfits' : ∀ y ∈ x.slots, LawfulStore.Fits S y.w := by
        rw [hmeta.metaU64_floor, hend] at hfloor
        exact fun y hy => hfits _ hfloor.symm _ (hslots.bounded y hy)
      have hgood₀ : LawfulStore.Good (pinned T.genesis s) := good_pinned _ hi.good
      obtain ⟨hrows, hgood⟩ := @LawfulStore.rows_installSnapshot S _ _ _ (snapshotMeta x.header)
        hgood₀ hfits'
      have hhas : ∀ row, (LawfulStore.rows (withSnapshot (pinned T.genesis s) (some x))).Has row ↔
          row ∈ Row.ofSlots x.slots := by
        intro row
        rw [withSnapshot, hrows, Rows.install, Rows.has_putAll (Row.ofSlots_pairwise hslots),
          rows_pinned]
        rw [isEmpty_pinned] at hempty
        exact ⟨fun hr => hr.resolve_right fun hr => hi.not_has hempty row hr.2, .inl⟩
      have hbound : ∀ row ∈ Row.ofSlots x.slots, row.number ≤ x.header.block := by
        intro row hr
        obtain ⟨y, hy, rfl⟩ := List.mem_map.mp hr
        exact hslots.bounded y hy
      refine ⟨⟨hgood, hmeta, fun n i rec hr => ?_, fun row => ?_⟩, fun row hr hn => ?_⟩
      · obtain ⟨y, -, hy⟩ := List.mem_map.mp ((hhas _).mp hr)
        cases hy
      · rw [hhas, hto]
        simp only [History.rows, History.append, hs, he, Option.none_or, Option.map_some,
          Option.getD_some, List.flatMap_nil, List.append_nil]
        exact ⟨fun hr => hr.1, fun hr => ⟨hr, hbound row hr⟩⟩
      · rw [hto] at hn
        exact absurd (hbound row ((hhas row).mp hr)) (Nat.not_le.mpr hn)

/-! ## The epochs of a call -/

theorem Ascending.last_le {floor : Option Nat} {entries : List ManifestEpoch}
    (ha : Ascending floor entries) {top : ManifestEpoch} (htop : entries.getLast? = some top)
    {entry : ManifestEpoch} (he : entry ∈ entries) : entry.last ≤ top.last := by
  obtain ⟨init, rfl⟩ := List.getLast?_eq_some_iff.mp htop
  rcases List.mem_append.mp he with he | he
  · have hlt := (List.pairwise_append.mp ha.apart).2.2 entry he top (List.mem_singleton_self top)
    have hle := ha.proper top (by simp)
    omega
  · rw [List.mem_singleton.mp he]

/-- The floor moves up to the end of the last epoch. -/
theorem Folds.lastEpochTo_eq {genesis : Genesis} {feedPool : Felt} {prev : Option Key}
    {l : List AppliedEpoch} (hf : Folds l s s') (hc : Chained P J genesis feedPool prev l) :
    lastEpochTo s' = (((l.map (·.entry)).getLast?.map (·.last)).or (metaU64 s "last_epoch_to")).getD 0 := by
  have hto := metaGet_folds_last hf "last_epoch_to" (by decide)
    (f := fun a => a.entry.last.repr) (fun a old => by simp [metaAfter, epochMeta])
  rw [lastEpochTo, metaU64, hto, List.getLast?_map]
  cases hlast : l.getLast? with
  | none => rfl
  | some a =>
      obtain ⟨prev', hfacts⟩ := Chained.mem P J hc a (List.mem_of_getLast? hlast)
      have hbound := (Codec.parseEpoch_parsed P J hfacts.verified.parsed).last
      rw [hfacts.verified.last] at hbound
      simp only [Option.map_some, Option.some_or, Option.bind_some, Text.parseU64_repr hbound]

/-- Epochs that ascend above the floor and leave no row behind move it. -/
theorem FloorInv.folds {genesis : Genesis} {feedPool : Felt} {prev : Option Key}
    {l : List AppliedEpoch} (hi : FloorInv s h) (hpool : ∃ p, metaGet s "pool" = some p)
    (hf : Folds l s s') (hc : Chained P J genesis feedPool prev l)
    (ha : Ascending (metaU64 s "last_epoch_to") (l.map (·.entry)))
    (hfits : ∀ a ∈ l, LawfulStore.FitsRange S (.inclusive a.entry.first a.entry.last) ∧
      ∀ n ≤ a.entry.last, LawfulStore.Fits S n)
    (hstranded : ∀ row, (LawfulStore.rows s).Has row → lastEpochTo s < row.number →
      row.number ≤ lastEpochTo s' →
      ∃ a ∈ l, a.entry.first ≤ row.number ∧ row.number ≤ a.entry.last) :
    FloorInv s' (h.append ⟨none, l⟩) := by
  have hmeta := hi.metas.folds hpool hf hc
  have hto := hf.lastEpochTo_eq hc
  obtain ⟨hgood, hhas⟩ := hf.has hc hi.good ha.apart hfits
  have hrow : ∀ a ∈ l, ∀ row ∈ a.rows, a.entry.first ≤ row.number ∧ row.number ≤ a.entry.last := by
    intro a hal row hr
    obtain ⟨prev', hfacts⟩ := Chained.mem P J hc a hal
    exact AppliedEpoch.number_of_mem hfacts hr
  refine ⟨hgood, hmeta, hi.hosted.of_has (l.flatMap AppliedEpoch.rows)
    (fun n => ∀ a ∈ l, ¬ (a.entry.first ≤ n ∧ n ≤ a.entry.last)) ?_ hhas, fun row => ?_⟩
  · intro n i rec hr
    obtain ⟨a, hal, hr⟩ := List.mem_flatMap.mp hr
    obtain ⟨b, hb⟩ := Row.block_of_event hr
    exact ⟨b, List.mem_flatMap.mpr ⟨a, hal, hb⟩⟩
  rw [hhas, History.rows_append, List.mem_append, ← hi.below]
  constructor
  · rintro ⟨hr | ⟨hout, hr⟩, hle⟩
    · exact .inr hr
    · refine .inl ⟨hr, Nat.not_lt.mp fun hlt => ?_⟩
      obtain ⟨a, hal, hin⟩ := hstranded row hr hlt hle
      exact hout a hal hin
  · rintro (⟨hr, hle⟩ | hr)
    · -- what the history holds keeps clear of the new ranges: it has a floor
      have hne : h.rows ≠ [] := List.ne_nil_of_mem ((hi.below row).mp ⟨hr, hle⟩)
      obtain ⟨f, hfloor⟩ : ∃ f, metaU64 s "last_epoch_to" = some f := by
        rw [hi.metas.metaU64_floor]
        refine Option.ne_none_iff_exists'.mp fun hnone => hne ?_
        rw [List.getLast?_eq_none_iff, History.ends, History.entries_eq_nil_iff] at hnone
        simp [History.rows, hnone.1, hnone.2]
      rw [lastEpochTo, hfloor, Option.getD_some] at hle
      refine ⟨.inr ⟨fun a hal hin => ?_, hr⟩, ?_⟩
      · have := ha.above f hfloor a.entry (List.mem_map_of_mem hal)
        omega
      · rw [hto]
        cases hlast : (l.map (·.entry)).getLast? with
        | none => simpa [hfloor] using hle
        | some top =>
            have hmem := List.mem_of_getLast? hlast
            have hlt := ha.above f hfloor top hmem
            have hp := ha.proper top hmem
            simp only [Option.map_some, Option.some_or, Option.getD_some]
            omega
    · refine ⟨.inl hr, ?_⟩
      obtain ⟨a, hal, hr⟩ := List.mem_flatMap.mp hr
      have hle := (hrow a hal row hr).2
      rw [hto]
      cases hlast : (l.map (·.entry)).getLast? with
      | none =>
          rw [List.getLast?_eq_none_iff, List.map_eq_nil_iff] at hlast
          rw [hlast] at hal
          cases hal
      | some top =>
          have htop := ha.last_le hlast (List.mem_map_of_mem hal)
          simp only [Option.map_some, Option.some_or, Option.getD_some]
          omega

/-! ## The head of a call -/

/-- A head above the floor replaces the tail and leaves the rest. -/
theorem FloorInv.headStep (hi : FloorInv s h) (hs : HeadStep P J c.transport s s')
    (hfits : ∀ head, Receives P J s c head → LawfulStore.FitsRange S (.above (lastEpochTo s)) ∧
      ∀ b ∈ head.blocks, LawfulStore.Fits S b.number)
    (habove : ∀ head, Receives P J s c head → ∀ b ∈ head.blocks,
      lastEpochTo s < b.number ∧ b.number ≤ head.header.head) :
    FloorInv s' h ∧ ∀ head, Receives P J s c head → TailExact s' head := by
  rcases hs with ⟨hnone, rfl⟩ | ⟨payload, etag, head, hfetch, hfold⟩
  · refine ⟨hi, fun head hr => ?_⟩
    obtain ⟨payload, etag, hsome, -⟩ := hr
    rw [hnone] at hsome
    cases hsome
  have hreceived : Receives P J s c head := ⟨payload, etag, hfetch, hfold.parsed⟩
  have hwf := Codec.parseHead_wf P J hfold.parsed
  obtain ⟨bump, hrep⟩ := hfold.replaced
  have hto : lastEpochTo s' = lastEpochTo s := by
    rw [lastEpochTo, metaU64, metaGet_headStep (.inr ⟨payload, etag, head, hfetch, hfold⟩)
      (by decide), lastEpochTo, metaU64]
  have hmeta := hi.metas.headStep (.inr ⟨payload, etag, head, hfetch, hfold⟩)
  have hlines : ∀ b ∈ tailBlocks head, LawfulStore.Fits S b.1.number ∧ b.1.Bounded := by
    intro b hb
    obtain ⟨line, hline, rfl⟩ := List.mem_map.mp hb
    exact ⟨(hfits head hreceived).2 line hline, hwf.blocks.bounded line hline⟩
  obtain ⟨hrows, hgood⟩ := LawfulStore.rows_replaceRange hi.good (hfits head hreceived).1 hlines hrep
  -- above the floor exactly the rows of the head are left, below it everything
  have hhas : ∀ row, (LawfulStore.rows s').Has row ↔ row ∈ Row.ofBlocks (tailBlocks head) ∨
      (row.number ≤ lastEpochTo s ∧ (LawfulStore.rows s).Has row) := by
    intro row
    rw [hrows, Rows.has_replace]
    · simp [Range.contains]
    · simpa [tailBlocks, Function.comp_def] using Sorted.of_wf hwf.blocks
    · intro b hb
      obtain ⟨line, hline, rfl⟩ := List.mem_map.mp hb
      simpa [Range.contains] using (habove head hreceived line hline).1
  have htail : ∀ row ∈ Row.ofBlocks (tailBlocks head),
      lastEpochTo s < row.number ∧ row.number ≤ head.header.head := by
    intro row hr
    obtain ⟨b, hb, hrow⟩ := Row.mem_ofBlocks.mp hr
    obtain ⟨line, hline, rfl⟩ := List.mem_map.mp hb
    rw [Row.number_of_mem_ofBlock hrow]
    exact habove head hreceived line hline
  have hhosted : EventsHosted (LawfulStore.rows s') :=
    hi.hosted.of_has _ (· ≤ lastEpochTo s) (fun _ _ _ => Row.block_of_event) hhas
  refine ⟨⟨hgood, hmeta, hhosted, fun row => ?_⟩, fun head' hr => ?_⟩
  · rw [hhas, hto, ← hi.below]
    constructor
    · rintro ⟨hr | hr, hle⟩
      · exact absurd hle (Nat.not_le.mpr (htail row hr).1)
      · exact ⟨hr.2, hle⟩
    · exact fun hr => ⟨.inr ⟨hr.2, hr.1⟩, hr.2⟩
  -- both are parsed from the one payload
  obtain rfl : head' = head := by
    obtain ⟨payload', etag', hsome, hparse⟩ := hr
    rw [hfetch, Except.ok.injEq, Option.some.injEq, Prod.mk.injEq] at hsome
    rw [← hsome.1] at hparse
    exact Except.ok.inj (hparse.symm.trans hfold.parsed)
  have habove' : ∀ row, (LawfulStore.rows s').Has row ∧ lastEpochTo s' < row.number ↔
      row ∈ Row.ofBlocks (tailBlocks head') := by
    intro row
    rw [hhas, hto]
    constructor
    · rintro ⟨hr | hr, hlt⟩
      · exact hr
      · exact absurd hr.1 (Nat.not_le.mpr hlt)
    · exact fun hr => ⟨.inl hr, (htail row hr).1⟩
  refine ⟨habove', head'.header.head, ?_, fun row hr hlt =>
    (htail row ((habove' row).mp ⟨hr, hlt⟩)).2⟩
  rw [metaU64, LawfulStore.metaGet_replaceRange (by decide) hrep]
  simp only [metaAfter, headMeta, List.foldl_cons, List.foldl_nil]
  exact Text.parseU64_repr hwf.header.head

/-! ## Runs -/

theorem CallTrace.etag_eq (T : CallTrace P J c s s') :
    metaGet T.folded "head_etag" = metaGet s "head_etag" := by
  rw [metaGet_folds T.folds (by decide)]
  cases hx : T.snapshot with
  | none => exact metaGet_pinned _ _ (by decide)
  | some x =>
      refine (LawfulStore.metaGet_installSnapshot _ _ _ _).trans ?_
      rw [metaGet_pinned _ _ (by decide)]
      simp [metaAfter, snapshotMeta]

theorem CallTrace.nextFloor_eq (T : CallTrace P J c s s') :
    lastEpochTo T.folded = nextFloor s c T.manifest := by
  rw [T.folds.lastEpochTo_eq T.chained, T.pending_eq, T.baseIndex_eq, T.baseFloor_eq, nextFloor,
    offered]

/-- The step of every run. -/
theorem CallTrace.floorInv (T : CallTrace P J c s s') (hi : FloorInv s h)
    (hk : KeepsFloor P J s c) : FloorInv s' (h.append T.history) ∧
      ∀ head, Receives P J s c head → TailExact s' head := by
  have hkept := hk T.manifest (fetchManifest_eq_ok.mp T.manifest_ok).1
  obtain ⟨hi₁, hbefore⟩ := T.floorInv_snapshot hi hkept.fitsFloor
  have hsplit : h.append T.history = (h.append ⟨T.snapshot, []⟩).append ⟨none, T.epochs⟩ := by
    simp [History.append, CallTrace.history]
  have hoffered : T.epochs.map (·.entry) = offered s c T.manifest := by
    rw [T.pending_eq, T.baseIndex_eq, offered]
  have hi₂ : FloorInv T.folded (h.append T.history) := by
    rw [hsplit]
    refine hi₁.folds (pool_withSnapshot _) T.folds T.chained ?_ ?_ ?_
    · rw [T.baseFloor_eq, hoffered]
      exact hkept.ascending
    · intro a ha
      exact hkept.fitsEpochs a.entry (hoffered ▸ List.mem_map_of_mem ha)
    · intro row hr hlt hle
      obtain ⟨hr, hlt⟩ := hbefore row hr hlt
      rw [T.nextFloor_eq] at hle
      obtain ⟨entry, hentry, hin⟩ := hkept.stranded row hr hlt hle
      rw [← hoffered] at hentry
      obtain ⟨a, ha, rfl⟩ := List.mem_map.mp hentry
      exact ⟨a, ha, hin⟩
  have hreceives : ∀ head, Receives P J T.folded c head ↔ Receives P J s c head := by
    intro head
    rw [Receives, Receives, T.etag_eq]
  obtain ⟨hi₃, htail⟩ := hi₂.headStep T.head
    (fun head hr => by
      rw [T.nextFloor_eq]
      exact hkept.fitsHead head ((hreceives head).mp hr))
    (fun head hr => by
      rw [T.nextFloor_eq]
      exact hkept.head head ((hreceives head).mp hr))
  exact ⟨hi₃, fun head hr => htail head ((hreceives head).mpr hr)⟩

theorem RunWith.floorInv {s₀ : S} {calls : List Call}
    (hrun : RunWith P J (KeepsFloor P J) s₀ calls s h) (hf : Fresh s₀) : FloorInv s h := by
  induction hrun with
  | nil => exact FloorInv.of_fresh hf
  | snoc T _ _ hk ih => exact (T.floorInv ih hk).1

/-- Over every run of calls that are offered what the floor needs, and after
every call of it, the floor splits the rows. -/
theorem epoch_floor_exact {s₀ : S} {calls : List Call} {out : ApplyOutcome} (hf : Fresh s₀)
    (hrun : RunWith P J (KeepsFloor P J) s₀ calls s h) (hk : KeepsFloor P J s c)
    (hok : applyFeed P J c.transport c.mode s = .ok out s') (T : CallTrace P J c s s') :
    RunWith P J (KeepsFloor P J) s₀ (calls ++ [c]) s' (h.append T.history) ∧
      FloorExact s' (h.append T.history) ∧
      ∀ head, Receives P J s c head → TailExact s' head := by
  obtain ⟨hi, htail⟩ := T.floorInv (hrun.floorInv hf) hk
  exact ⟨.snoc T hrun hok hk, hi.below, htail⟩

/-- Whatever the floor, a folded head leaves all of its rows. -/
theorem HeadFold.has_tail {payload : ByteArray} {etag : String} {head : Head}
    (hf : HeadFold P J s s' payload etag head) (hgood : LawfulStore.Good s)
    (hr : LawfulStore.FitsRange S (.above (lastEpochTo s)))
    (hb : ∀ b ∈ head.blocks, LawfulStore.Fits S b.number) :
    ∀ row ∈ Row.ofBlocks (tailBlocks head), (LawfulStore.rows s').Has row := by
  have hwf := Codec.parseHead_wf P J hf.parsed
  obtain ⟨bump, hrep⟩ := hf.replaced
  have hlines : ∀ b ∈ tailBlocks head, LawfulStore.Fits S b.1.number ∧ b.1.Bounded := by
    intro b hmem
    obtain ⟨line, hline, rfl⟩ := List.mem_map.mp hmem
    exact ⟨hb line hline, hwf.blocks.bounded line hline⟩
  have hsorted : Sorted ((tailBlocks head).map Prod.fst) := by
    simpa [tailBlocks, Function.comp_def] using Sorted.of_wf hwf.blocks
  intro row hrow
  rw [(LawfulStore.rows_replaceRange hgood hr hlines hrep).1, Rows.replace,
    Rows.has_putAll (Row.ofBlocks_pairwise hsorted)]
  exact .inl hrow

end

/-! ## A head that reaches below the floor -/

/-- An empty epoch of blocks 0 to 9 and a head of one block, from block 5 on. -/
def headFeed (n : Nat) (h₅ : 5 ≤ n) (h₂₀ : n ≤ 20) : SoloFeed where
  epoch := ⟨⟨"SN_MAIN", 7, 0, 0, 9, none⟩, [], ⟨0, 0, 0, 1⟩⟩
  head := some ⟨⟨5, 20, 3, 0⟩, [⟨n, 2, 1, 0, [], [], none, some .l2⟩], ⟨1, 0, 0, 1⟩⟩
  epochWf := alignedFeed.epochWf
  headWf h hh := by
    obtain rfl := Option.some.inj hh
    refine ⟨⟨by simp, by simp, by simp⟩, ⟨?_, List.IsChain.singleton _, ?_⟩, ?_,
      ⟨rfl, rfl, rfl⟩⟩
    · intro b hb
      rw [List.mem_singleton.mp hb]
      exact ⟨Nat.lt_of_le_of_lt h₂₀ (by decide), by simp, fun e he => by cases he⟩
    · intro b hb
      rw [List.mem_singleton.mp hb]
      exact ⟨List.IsChain.nil, List.IsChain.nil⟩
    · intro b hb
      rw [List.mem_singleton.mp hb]
      exact ⟨rfl, h₅⟩
  starts := rfl
  proper := by decide
  tail h hh := by
    obtain rfl := Option.some.inj hh
    simp

/-- A head from block 12 on. -/
def clearFeed : SoloFeed := headFeed 12 (by decide) (by decide)

/-- A head that still carries block 5. -/
def staleFeed : SoloFeed := headFeed 5 (by decide) (by decide)

section

variable (n : Nat) (h₅ : 5 ≤ n) (h₂₀ : n ≤ 20)

theorem headFeed_receives {s : MemStore Mpt.onePedersen} {head : Head}
    (hr : Receives hexParser Json.parser s ((headFeed n h₅ h₂₀).call 10) head) :
    (headFeed n h₅ h₂₀).head = some head := by
  obtain ⟨payload, etag, hsome, hparse⟩ := hr
  obtain ⟨rfl, -⟩ := Prod.mk.inj (Option.some.inj (Except.ok.inj hsome))
  have hwf := (headFeed n h₅ h₂₀).headWf _ rfl
  exact congrArg some (Except.ok.inj ((Codec.parseHead_headBytes _ _ hwf).symm.trans hparse))

theorem headFeed_offered : offered (MemStore.new Mpt.onePedersen) ((headFeed n h₅ h₂₀).call 10)
    (headFeed n h₅ h₂₀).manifest = [(headFeed n h₅ h₂₀).entry] := rfl

theorem headFeed_nextFloor : nextFloor (MemStore.new Mpt.onePedersen) ((headFeed n h₅ h₂₀).call 10)
    (headFeed n h₅ h₂₀).manifest = 9 := rfl

/-- A head between the floor and its own last block is what a call has to be
offered. -/
theorem headFeed_keepsFloor (h₉ : 9 < n) :
    KeepsFloor hexParser Json.parser (MemStore.new Mpt.onePedersen)
      ((headFeed n h₅ h₂₀).call 10) := by
  intro manifest hm
  obtain rfl := Except.ok.inj hm
  have hnone : baseFloor (MemStore.new Mpt.onePedersen) ((headFeed n h₅ h₂₀).call 10).mode
      (headFeed n h₅ h₂₀).manifest = none := rfl
  refine ⟨⟨?_, ?_, ?_⟩, ?_, ?_, ?_, ?_, ?_⟩
  · rw [headFeed_offered]
    intro entry he
    rw [List.mem_singleton.mp he]
    exact (headFeed n h₅ h₂₀).proper
  · rw [headFeed_offered]
    exact List.pairwise_singleton _ _
  · intro f hf
    rw [hnone] at hf
    cases hf
  · intro row hr
    rw [(MemStore.fresh_new _).rows] at hr
    exact absurd hr (Rows.has_empty _)
  · intro head hr b hb
    obtain rfl := Option.some.inj (headFeed_receives n h₅ h₂₀ hr)
    rw [List.mem_singleton.mp hb, headFeed_nextFloor]
    exact ⟨h₉, h₂₀⟩
  · intro f hf
    rw [hnone] at hf
    cases hf
  · rw [headFeed_offered]
    intro entry he
    rw [List.mem_singleton.mp he]
    exact ⟨trivial, fun m hm => Nat.lt_of_le_of_lt hm (headFeed n h₅ h₂₀).epochWf.header.last⟩
  · intro head hr
    obtain rfl := Option.some.inj (headFeed_receives n h₅ h₂₀ hr)
    rw [headFeed_nextFloor]
    refine ⟨(by decide : 9 + 1 < 2 ^ 64), fun b hb => ?_⟩
    rw [List.mem_singleton.mp hb]
    exact Nat.lt_of_le_of_lt h₂₀ (by decide)

end

/-- A mirror that takes the epoch and the head above it. -/
theorem epoch_floor_exact_clear :
    ∃ (s : MemStore Mpt.onePedersen) (out : ApplyOutcome) (h : History) (head : Head),
      applyFeed hexParser Json.parser (clearFeed.call 10).transport .epochs
        (MemStore.new Mpt.onePedersen) = .ok out s ∧
      clearFeed.head = some head ∧ FloorExact s h ∧ TailExact s head := by
  have hfresh := MemStore.fresh_new Mpt.onePedersen
  obtain ⟨out, s, hok, T, -⟩ := clearFeed.trace hexParser Json.parser 10 hfresh
  have hk := headFeed_keepsFloor 12 (by decide) (by decide) (by decide)
  obtain ⟨-, hbelow, htail⟩ := epoch_floor_exact hfresh (.nil _) hk hok T
  have hwf := clearFeed.headWf _ rfl
  exact ⟨s, out, _, _, hok, rfl, hbelow,
    htail _ ⟨_, _, rfl, Codec.parseHead_headBytes _ _ hwf⟩⟩

/-- A head that still carries block 5 puts it under the floor of block 9. -/
theorem epoch_floor_stale_head :
    ¬ ∀ (calls : List Call) (s : MemStore Mpt.onePedersen) (h : History),
      RunWith hexParser Json.parser (fun _ _ => True) (MemStore.new Mpt.onePedersen) calls s h →
        FloorExact s h := by
  intro hall
  have hfresh := MemStore.fresh_new Mpt.onePedersen
  obtain ⟨out, s, hok, T, hT⟩ := staleFeed.trace hexParser Json.parser 10 hfresh
  have hbelow := hall _ s _ (.one T hok trivial)
  have hman : T.manifest = staleFeed.manifest :=
    Except.ok.inj (fetchManifest_eq_ok.mp T.manifest_ok).1.symm
  have hfloor : lastEpochTo T.folded = 9 := by
    rw [T.nextFloor_eq, hman]
    exact headFeed_nextFloor 5 _ _
  have hepochs : T.epochs = [staleFeed.applied] := congrArg History.epochs hT
  have hgood : LawfulStore.Good T.folded := by
    have hi := (T.floorInv_snapshot (FloorInv.of_fresh hfresh) (by rw [hman]; rintro f ⟨⟩)).1
    refine (T.folds.has T.chained hi.good ?_ ?_).1
    · rw [hepochs]
      exact List.pairwise_singleton _ _
    · rw [hepochs]
      intro a ha
      rw [List.mem_singleton.mp ha]
      exact ⟨trivial, fun m hm => Nat.lt_of_le_of_lt hm staleFeed.epochWf.header.last⟩
  rcases T.head with ⟨hnone, -⟩ | ⟨payload, etag, head, hfetch, hfold⟩
  · cases hnone
  obtain rfl : staleFeed.head.get rfl = head := by
    obtain ⟨rfl, -⟩ := Prod.mk.inj (Option.some.inj (Except.ok.inj hfetch))
    have hwf := staleFeed.headWf _ rfl
    exact Except.ok.inj ((Codec.parseHead_headBytes _ _ hwf).symm.trans hfold.parsed)
  have hto : lastEpochTo s = 9 := by
    rw [lastEpochTo, metaU64, metaGet_headStep T.head (by decide)]
    exact hfloor
  have hfits : LawfulStore.FitsRange (MemStore Mpt.onePedersen) (.above (lastEpochTo T.folded)) := by
    rw [hfloor]
    exact (by decide : 9 + 1 < 2 ^ 64)
  have hrow := hfold.has_tail hgood hfits
    (fun b hb => List.mem_singleton.mp hb ▸ (by decide : 5 < 2 ^ 64)) _ List.mem_cons_self
  have hmem := (hbelow _).mp ⟨hrow, by rw [hto]; decide⟩
  rw [hT] at hmem
  cases hmem

end Strk20.Consumer
