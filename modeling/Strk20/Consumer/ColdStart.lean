import Strk20.Consumer.MemStore
import Strk20.Consumer.Metadata

/-!
# Snapshot cold start

A snapshot keeps of an epoch history only the non-zero slots, each under its
last write block. `Tracks` relates a store started from it to one that replayed
the history: above the basis they hold the same rows, at the basis they read
the same values. Every fold above the basis keeps it, and it is all the reads
from the basis on depend on.
-/

namespace Strk20.Consumer

open Feed Trie Versioned Tables
open Std (ExtTreeMap)

/-! ## Rows of one block -/

namespace Rows

/-- Two mirrors hold the same rows for a block. -/
def SameAt (a b : Rows) (n : Nat) : Prop :=
  ∀ row : Row, row.number = n → (a.Has row ↔ b.Has row)

theorem SameAt.put {a b : Rows} {n : Nat} (h : SameAt a b n) (r : Row) :
    SameAt (a.put r) (b.put r) n := by
  intro row hn
  rw [has_put, has_put, h row hn]

theorem SameAt.putAll {n : Nat} : ∀ (rows : List Row) {a b : Rows}, SameAt a b n →
    SameAt (a.putAll rows) (b.putAll rows) n
  | [], _, _, h => h
  | r :: rows, _, _, h => by
      rw [putAll_cons, putAll_cons]
      exact SameAt.putAll rows (h.put r)

theorem SameAt.blocks {a b : Rows} {n : Nat} (h : SameAt a b n) : a.blocks n = b.blocks n :=
  Option.ext fun rec => h (.block n rec) rfl

theorem SameAt.slots {a b : Rows} {n : Nat} (h : SameAt a b n) (k : Felt) :
    a.slots k n = b.slots k n :=
  Option.ext fun v => h (.slot k n v) rfl

theorem SameAt.events {a b : Rows} {n : Nat} (h : SameAt a b n) (i : Nat) :
    a.events n i = b.events n i :=
  Option.ext fun rec => h (.event n i rec) rfl

end Rows

open Rows (SameAt)

theorem latest_snd_le (f : Nat → Option Felt) : ∀ bound : Nat, (latest f bound).2 ≤ bound
  | 0 => le_rfl
  | bound + 1 => by
      rw [latest]
      split
      · exact le_rfl
      · exact le_trans (latest_snd_le f bound) (Nat.le_succ bound)

/-- One value, and one write block unless the value is zero. -/
def SameRead (a b : Felt × Nat) : Prop := a.1 = b.1 ∧ (a.1 ≠ 0 → a.2 = b.2)

/-- Reads that agree at a basis agree at every later bound, given the same rows
in between. -/
theorem SameRead.latest {f g : Nat → Option Felt} {basis : Nat}
    (hbasis : SameRead (latest f basis) (latest g basis)) (habove : ∀ n, basis < n → f n = g n) :
    ∀ {bound : Nat}, basis ≤ bound → SameRead (Consumer.latest f bound) (Consumer.latest g bound)
  | 0, h => by rwa [Nat.le_zero.mp h] at hbasis
  | bound + 1, h => by
      by_cases heq : basis = bound + 1
      · rwa [heq] at hbasis
      · have hlt : basis ≤ bound := by omega
        rw [Consumer.latest, Consumer.latest, habove (bound + 1) (by omega)]
        cases g (bound + 1) with
        | some v => exact ⟨rfl, fun _ => rfl⟩
        | none => exact SameRead.latest hbasis habove hlt

/-! ## What the reads of a `MemStore` depend on -/

namespace MemStore

variable {pedersen : Felt → Felt → Felt} {a b s s' : MemStore pedersen}

/-- What `clear_range` removes: blocks and events by the bounds of the range,
storage by the range itself. They differ above the last block only. -/
def Clears (r : Range) : Row → Prop
  | .slot _ n _ => r.contains n = true
  | row => (bounds r).1 ≤ row.number ∧ row.number ≤ (bounds r).2

/-- A row in a range is at or above its lower bound. -/
theorem bounds_le {r : Range} {n : Nat} (h : r.contains n = true) :
    (bounds r).1 ≤ n := by
  cases r with
  | inclusive first last => exact ((Range.contains_inclusive _ _ _).mp h).1
  | above floor =>
      have := (Range.contains_above _ _).mp h
      simp only [bounds]
      omega

theorem has_clearRange {r : Range} (h : s.Good) (hc : s.clearRange r = .ok s') (row : Row) :
    s'.rows.Has row ↔ ¬ Clears r row ∧ s.rows.Has row := by
  simp only [clearRange] at hc
  split at hc
  · cases hc
  · cases hc
    cases row with
    | block n rec =>
        simp only [Rows.Has, rows, Clears, Row.number]
        rw [getElem?_filter_key _ fun n : Nat => !decide ((bounds r).1 ≤ n ∧ n ≤ (bounds r).2)]
        by_cases hb : (bounds r).1 ≤ n ∧ n ≤ (bounds r).2 <;> simp [hb]
    | event n i rec =>
        simp only [Rows.Has, rows, Clears, Row.number]
        rw [getElem?_filter_key _ fun k : Nat × Nat =>
          !decide ((bounds r).1 ≤ k.1 ∧ k.1 ≤ (bounds r).2)]
        by_cases hb : (bounds r).1 ≤ n ∧ n ≤ (bounds r).2 <;> simp [hb]
    | slot k n v =>
        simp only [Rows.Has, rows, Clears]
        by_cases hmax : (bounds r).1 ≤ s.storageMaxBlock
        · rw [if_pos hmax, getElem?_filter_key _ fun k : Key × Nat => !r.contains k.2]
          cases r.contains n <;> simp
        · -- nothing to remove: a row in range would lie above the highest write block
          rw [if_neg hmax]
          refine ⟨fun hv => ⟨fun hin => hmax ?_, hv⟩, fun hv => hv.2⟩
          have hrow := h.storage (toBytesBe k) n (by rw [hv]; rfl)
          exact le_trans (bounds_le hin) hrow.2

theorem good_clearRange {r : Range} (h : s.Good) (hc : s.clearRange r = .ok s') : s'.Good := by
  simp only [clearRange] at hc
  split at hc
  · cases hc
  · cases hc
    have hstorage : ∀ (k : Key) (n : Nat),
        (if (bounds r).1 ≤ s.storageMaxBlock then s.storage.filter fun k _ => !r.contains k.2
          else s.storage)[(k, n)]?.isSome → s.storage[(k, n)]?.isSome := by
      intro k n hn
      split at hn
      · exact isSome_of_filter_key (fun k : Key × Nat => !r.contains k.2) hn
      · exact hn
    refine ⟨fun n hn => h.blocks n ?_, fun n i hn => h.events n i ?_,
      fun k n hn => h.storage k n (hstorage k n hn),
      fun k n hn => h.canonical k n (hstorage k n hn)⟩
    · exact isSome_of_filter_key
        (fun n : Nat => !decide ((bounds r).1 ≤ n ∧ n ≤ (bounds r).2)) hn
    · exact isSome_of_filter_key
        (fun k : Nat × Nat => !decide ((bounds r).1 ≤ k.1 ∧ k.1 ≤ (bounds r).2)) hn

/-- A replaced range: what was cleared is gone, then the blocks' rows are
written. -/
theorem replaceRange_steps {r : Range} {blocks : List (BlockLine × Bool)}
    {writes : List (String × String)} {bump : Bool} (h : s.Good)
    (hb : ∀ b ∈ blocks, b.1.number < 2 ^ 64)
    (hs : s.replaceRange r blocks writes bump = .ok s') :
    ∃ c : MemStore pedersen, s.clearRange r = .ok c ∧
      s'.rows = c.rows.putAll (Row.ofBlocks blocks) ∧ s'.Good := by
  obtain ⟨c, hc, hs⟩ := Result.bind_eq_ok.mp hs
  obtain ⟨hrows, hgood⟩ := foldl_put (good_clearRange h hc) (number_lt_of_mem_ofBlocks hb)
  obtain ⟨hrows', hgood'⟩ := metaSets_spec writes hgood
  rw [← foldl_applyBlockLine] at hrows hrows' hgood'
  obtain rfl := Result.pure_eq_ok.mp hs
  refine ⟨c, hc, ?_⟩
  cases bump with
  | false => exact ⟨hrows'.trans hrows, hgood'⟩
  | true => exact ⟨hrows'.trans hrows, good_metaSet hgood' _ _⟩

/-- One replacement on two stores keeps a block they agree on. -/
theorem sameAt_replaceRange {a' b' : MemStore pedersen} {r : Range}
    {blocks : List (BlockLine × Bool)} {writes writes' : List (String × String)} {bump bump' : Bool}
    {n : Nat} (ha : a.Good) (hb : b.Good) (hblocks : ∀ b ∈ blocks, b.1.number < 2 ^ 64)
    (hra : a.replaceRange r blocks writes bump = .ok a')
    (hrb : b.replaceRange r blocks writes' bump' = .ok b') (h : SameAt a.rows b.rows n) :
    SameAt a'.rows b'.rows n := by
  obtain ⟨ca, hca, hrowsa, -⟩ := replaceRange_steps ha hblocks hra
  obtain ⟨cb, hcb, hrowsb, -⟩ := replaceRange_steps hb hblocks hrb
  rw [hrowsa, hrowsb]
  refine SameAt.putAll _ fun row hn => ?_
  rw [has_clearRange ha hca, has_clearRange hb hcb, h row hn]

/-- A replacement leaves a block alone that it neither clears nor writes. -/
theorem sameAt_of_replaceRange {r : Range} {blocks : List (BlockLine × Bool)}
    {writes : List (String × String)} {bump : Bool} {n : Nat} (h : s.Good)
    (hblocks : ∀ b ∈ blocks, b.1.number < 2 ^ 64)
    (hs : s.replaceRange r blocks writes bump = .ok s')
    (hclear : ∀ row : Row, row.number = n → ¬ Clears r row)
    (hwrite : ∀ b ∈ blocks, b.1.number ≠ n) : SameAt s.rows s'.rows n := by
  obtain ⟨c, hc, hrows, -⟩ := replaceRange_steps h hblocks hs
  intro row hn
  have hother : ∀ x ∈ Row.ofBlocks blocks, x.number ≠ row.number := by
    intro x hx
    obtain ⟨b, hb, hx⟩ := Row.mem_ofBlocks.mp hx
    rw [Row.number_of_mem_ofBlock hx, hn]
    exact hwrite b hb
  rw [hrows, Rows.has_putAll_of_number hother, has_clearRange h hc]
  exact (and_iff_right (hclear row hn)).symm

theorem slotFelts_ascending (h : s.Good) :
    s.slots.Pairwise fun x y => (fromBytesBe x).val < (fromBytesBe y).val := by
  refine (keysOf_ascending s.storage).imp_of_mem fun {x y} hx hy hlt => ?_
  obtain ⟨n, hn⟩ := mem_keysOf.mp hx
  obtain ⟨m, hm⟩ := mem_keysOf.mp hy
  have hval : ∀ {k : Key}, k.val < STARK_PRIME → (fromBytesBe k).val = k.val := fun hk =>
    Nat.mod_eq_of_lt hk
  rw [hval (h.canonical x n hn), hval (h.canonical y m hm)]
  exact compare_lt_iff_lt.mp hlt

theorem fullSlotSetAsOf_ascending (h : s.Good) (bound : Nat) :
    (s.fullSlotSetAsOf bound).Pairwise fun x y => x.1.val < y.1.val := by
  rw [fullSlotSetAsOf, List.pairwise_filterMap]
  refine (slotFelts_ascending h).imp fun {x y} hxy e he f hf => ?_
  have hslot : ∀ {z : Key} {e : Felt × Felt},
      (if (s.readSlotAsOf (fromBytesBe z) bound).1 ≠ 0 then
        some (fromBytesBe z, (s.readSlotAsOf (fromBytesBe z) bound).1) else none) = some e →
      e.1 = fromBytesBe z := by
    intro z e he
    split at he
    · rw [← Option.some.inj he]
    · cases he
  rw [hslot he, hslot hf]
  exact hxy

/-- The slot set depends on the values read alone, order included. -/
theorem fullSlotSetAsOf_congr {bound : Nat} (ha : a.Good) (hb : b.Good)
    (h : ∀ k, (a.readSlotAsOf k bound).1 = (b.readSlotAsOf k bound).1) :
    a.fullSlotSetAsOf bound = b.fullSlotSetAsOf bound := by
  refine Lists.eq_of_ascending (fun e => e.1.val) (fullSlotSetAsOf_ascending ha bound)
    (fullSlotSetAsOf_ascending hb bound) fun e => ?_
  rw [← Prod.eta e, mem_fullSlotSetAsOf, mem_fullSlotSetAsOf, h]

/-- The root depends on the slot set alone, not on what the trie held. -/
theorem storageRootAt_congr {bound : Nat}
    (h : a.fullSlotSetAsOf bound = b.fullSlotSetAsOf bound) :
    (a.storageRootAt bound).1 = (b.storageRootAt bound).1 := by
  show liftFeed (a.trie.update pedersen (a.fullSlotSetAsOf bound)).1 =
    liftFeed (b.trie.update pedersen (b.fullSlotSetAsOf bound)).1
  rw [h]
  cases hc : CachedTrie.collect (b.fullSlotSetAsOf bound) with
  | error e =>
      have hreject : ∀ t : CachedTrie,
          (t.update pedersen (b.fullSlotSetAsOf bound)).1 = .error e := by
        intro t
        simp only [CachedTrie.update, hc]
      rw [hreject, hreject]
  | ok next =>
      have hset := CachedTrie.slotSet_of_collect hc
      rw [(CachedTrie.update_accepted a.trieValid hset).1,
        (CachedTrie.update_accepted b.trieValid hset).1]

/-- The events of a range that is not turned around depend on its rows alone. -/
theorem eventRows_congr {first last : Nat} (hle : first ≤ last)
    (h : ∀ n, first ≤ n → SameAt a.rows b.rows n) :
    a.eventRows first last = b.eventRows first last := by
  have hproper := Nat.not_lt.mpr hle
  unfold eventRows
  rw [if_neg fun hpanic => hproper hpanic.1, if_neg fun hpanic => hproper hpanic.1]
  have hlist : (a.events.toList.filter fun e => first ≤ e.1.1 ∧ e.1.1 ≤ last) =
      b.events.toList.filter fun e => first ≤ e.1.1 ∧ e.1.1 ≤ last := by
    refine toList_filter_congr (fun k : Nat × Nat => decide (first ≤ k.1 ∧ k.1 ≤ last)) ?_
    intro k hk
    exact (h k.1 (of_decide_eq_true hk).1).events k.2
  rw [hlist]
  refine congrArg Except.ok (List.filterMap_congr fun e he => ?_)
  have hin := of_decide_eq_true (List.mem_filter.mp he).2
  have hblock : a.blocks[e.1.1]? = b.blocks[e.1.1]? := (h e.1.1 hin.1).blocks
  rw [hblock]

end MemStore

/-! ## A history and its snapshot -/

/-- A well-formed epoch: what `parse_epoch` and the manifest check leave. -/
structure AppliedEpoch.Wf (a : AppliedEpoch) : Prop where
  proper : a.entry.first ≤ a.entry.last
  bounded : a.entry.last < 2 ^ 64
  blocks : Codec.BlocksWf a.epoch.blocks
  inside : ∀ b ∈ a.epoch.blocks, a.entry.first ≤ b.number ∧ b.number ≤ a.entry.last

/-- The blocks an epoch is stored as. -/
def AppliedEpoch.lines (a : AppliedEpoch) : List (BlockLine × Bool) :=
  a.epoch.blocks.map fun b => (b, true)

/-- The rows of a history of epochs. -/
def epochRows (m : Rows) (l : List AppliedEpoch) : Rows :=
  l.foldl (fun m a => m.replace (.inclusive a.entry.first a.entry.last) a.lines) m

/-- The slots of the snapshot at a basis: every non-zero slot with its last
write block. -/
def SnapshotOf (m : Rows) (basis : Nat) (slots : List SnapSlot) : Prop :=
  ∀ k v w, ⟨k, v, w⟩ ∈ slots ↔ v ≠ 0 ∧ m.readSlot k basis = (v, w)

/-- Epochs folded in order, and a head over the floor they leave. -/
def Replays {S : Type} [ConsumerStore S] (l : List AppliedEpoch) (head : Head) (etag : String)
    (s s' : S) : Prop :=
  ∃ folded bump, Folds l s folded ∧
    ConsumerStore.replaceRange folded (.above (lastEpochTo folded)) (tailBlocks head)
      (headMeta head.header etag) bump = .ok s'

/-- The floor after a fold that started on a floor. -/
def floorAfter (floor : Nat) (l : List AppliedEpoch) : Nat :=
  (l.getLast?.map (·.entry.last)).getD floor

namespace AppliedEpoch

variable {a : AppliedEpoch}

theorem lines_bounded (h : a.Wf) : ∀ b ∈ a.lines, b.1.number < 2 ^ 64 := by
  intro b hb
  obtain ⟨line, hline, rfl⟩ := List.mem_map.mp hb
  exact (h.blocks.bounded line hline).number

theorem lines_inside (h : a.Wf) :
    ∀ b ∈ a.lines, a.entry.first ≤ b.1.number ∧ b.1.number ≤ a.entry.last := by
  intro b hb
  obtain ⟨line, hline, rfl⟩ := List.mem_map.mp hb
  exact h.inside line hline

end AppliedEpoch

theorem Folds.append {S : Type} [ConsumerStore S] {l m : List AppliedEpoch} {s s' : S} :
    Folds (l ++ m) s s' ↔ ∃ mid, Folds l s mid ∧ Folds m mid s' := by
  induction l generalizing s with
  | nil => exact ⟨fun h => ⟨s, .nil s, h⟩, fun ⟨_, hs, h⟩ => by cases hs; exact h⟩
  | cons a rest ih =>
      constructor
      · intro h
        cases h with
        | cons hrep hrest =>
            obtain ⟨mid, hmid, hs'⟩ := ih.mp hrest
            exact ⟨mid, .cons hrep hmid, hs'⟩
      · rintro ⟨mid, hl, hs'⟩
        cases hl with
        | cons hrep hrest => exact .cons hrep (ih.mpr ⟨mid, hrest, hs'⟩)

section

variable {S : Type} [LawfulStore S] {l : List AppliedEpoch} {s s' : S}

theorem Folds.exists (h : ∀ a ∈ l, a.Wf) (s : S) : ∃ s', Folds l s s' := by
  induction l generalizing s with
  | nil => exact ⟨s, .nil s⟩
  | cons a rest ih =>
      obtain ⟨ha, hrest⟩ := List.forall_mem_cons.mp h
      obtain ⟨s₁, hs₁⟩ := LawfulStore.replaceRange_ok s
        (r := .inclusive a.entry.first a.entry.last) (a.epoch.blocks.map fun b => (b, true))
        (epochMeta a.entry a.payload) false ha.proper
      obtain ⟨s', hs'⟩ := ih hrest s₁
      exact ⟨s', .cons hs₁ hs'⟩

theorem Replays.exists (h : ∀ a ∈ l, a.Wf) (head : Head) (etag : String) (s : S) :
    ∃ s', Replays l head etag s s' := by
  obtain ⟨folded, hfolded⟩ := Folds.exists h s
  obtain ⟨s', hs'⟩ := LawfulStore.replaceRange_ok folded (r := .above (lastEpochTo folded))
    (tailBlocks head) (headMeta head.header etag) false trivial
  exact ⟨s', folded, false, hfolded, hs'⟩

theorem Folds.lastEpochTo_getD (hf : Folds l s s') (h : ∀ a ∈ l, a.Wf) :
    lastEpochTo s' = floorAfter (lastEpochTo s) l := by
  have hto := metaGet_folds_last hf "last_epoch_to" (by decide)
    (f := fun a => a.entry.last.repr) (fun a old => by simp [metaAfter, epochMeta])
  rw [lastEpochTo, metaU64, hto, floorAfter]
  cases hlast : l.getLast? with
  | none => rfl
  | some a =>
      have hbound := (h a (List.mem_of_getLast? hlast)).bounded
      simp [Text.parseU64_repr hbound]

/-- Folds and the head leave every other key alone. -/
theorem Replays.metaGet_eq {head : Head} {etag : String} (hr : Replays l head etag s s')
    {key : String} (hkey : key ∉ "tail_generation" :: epochKeys)
    (hhead : ∀ old, metaAfter (headMeta head.header etag) key old = old) :
    metaGet s' key = metaGet s key := by
  obtain ⟨folded, bump, hfolds, hrep⟩ := hr
  have hgen : key ≠ "tail_generation" := fun heq => hkey (heq ▸ List.mem_cons_self)
  rw [LawfulStore.metaGet_replaceRange hgen hrep, hhead, metaGet_folds hfolds hkey]

end

/-! ## Tracking a replay -/

section

variable {pedersen : Felt → Felt → Felt} {basis : Nat} {c f c' f' : MemStore pedersen}

/-- A store started from the snapshot at a basis, beside one that replayed. -/
structure Tracks (basis : Nat) (cold full : MemStore pedersen) : Prop where
  goodCold : cold.Good
  goodFull : full.Good
  above : ∀ n, basis < n → SameAt cold.rows full.rows n
  atBasis : ∀ k, SameRead (cold.rows.readSlot k basis) (full.rows.readSlot k basis)

/-- A replacement above the basis does not change what is read there. -/
theorem readSlot_replaceRange {s s' : MemStore pedersen} {r : Range}
    {blocks : List (BlockLine × Bool)} {writes : List (String × String)} {bump : Bool} (h : s.Good)
    (hrange : ∀ row : Row, row.number ≤ basis → ¬ MemStore.Clears r row)
    (hblocks : ∀ b ∈ blocks, basis < b.1.number ∧ b.1.number < 2 ^ 64)
    (hs : s.replaceRange r blocks writes bump = .ok s') (k : Felt) :
    s'.rows.readSlot k basis = s.rows.readSlot k basis := by
  refine latest_congr fun n hn => ?_
  have hsame : SameAt s.rows s'.rows n :=
    MemStore.sameAt_of_replaceRange h (fun b hb => (hblocks b hb).2) hs
      (fun row hrow => hrange row (hrow ▸ hn))
      fun b hb heq => absurd (hblocks b hb).1 (Nat.not_lt.mpr (heq ▸ hn))
  exact (hsame.slots k).symm

theorem Tracks.replaceRange (h : Tracks basis c f) {r : Range} {blocks : List (BlockLine × Bool)}
    {writes writes' : List (String × String)} {bump bump' : Bool}
    (hrange : ∀ row : Row, row.number ≤ basis → ¬ MemStore.Clears r row)
    (hblocks : ∀ b ∈ blocks, basis < b.1.number ∧ b.1.number < 2 ^ 64)
    (hc : c.replaceRange r blocks writes bump = .ok c')
    (hf : f.replaceRange r blocks writes' bump' = .ok f') : Tracks basis c' f' := by
  have hbound : ∀ b ∈ blocks, b.1.number < 2 ^ 64 := fun b hb => (hblocks b hb).2
  obtain ⟨-, -, -, hgoodc⟩ := MemStore.replaceRange_steps h.goodCold hbound hc
  obtain ⟨-, -, -, hgoodf⟩ := MemStore.replaceRange_steps h.goodFull hbound hf
  refine ⟨hgoodc, hgoodf, fun n hn => ?_, fun k => ?_⟩
  · exact MemStore.sameAt_replaceRange h.goodCold h.goodFull hbound hc hf (h.above n hn)
  · rw [readSlot_replaceRange h.goodCold hrange hblocks hc,
      readSlot_replaceRange h.goodFull hrange hblocks hf]
    exact h.atBasis k

theorem not_clears_inclusive {first last : Nat} (h : basis < first) (row : Row)
    (hrow : row.number ≤ basis) : ¬ MemStore.Clears (.inclusive first last) row := by
  have hlt : ¬ first ≤ row.number := by omega
  cases row with
  | slot k n v => exact fun hc => hlt ((Range.contains_inclusive _ _ _).mp hc).1
  | block n rec => exact fun hc => hlt hc.1
  | event n i rec => exact fun hc => hlt hc.1

theorem not_clears_above {floor : Nat} (hbasis : basis + 1 < 2 ^ 64) (h : basis ≤ floor) (row : Row)
    (hrow : row.number ≤ basis) : ¬ MemStore.Clears (.above floor) row := by
  have hlt : ¬ min (floor + 1) MemStore.U64_MAX ≤ row.number := by
    rw [MemStore.U64_MAX]
    omega
  cases row with
  | slot k n v =>
      intro hc
      have hn : floor < n := (Range.contains_above _ _).mp hc
      have hle : n ≤ basis := hrow
      omega
  | block n rec => exact fun hc => hlt hc.1
  | event n i rec => exact fun hc => hlt hc.1

theorem Tracks.folds {l : List AppliedEpoch} (h : Tracks basis c f) (hwf : ∀ a ∈ l, a.Wf)
    (hl : ∀ a ∈ l, basis < a.entry.first) (hc : Folds l c c') (hf : Folds l f f') :
    Tracks basis c' f' := by
  induction l generalizing c f with
  | nil =>
      cases hc
      cases hf
      exact h
  | cons a rest ih =>
      obtain ⟨ha, hrest⟩ := List.forall_mem_cons.mp hwf
      obtain ⟨hfirst, hl⟩ := List.forall_mem_cons.mp hl
      cases hc with
      | cons hrepc hc =>
          cases hf with
          | cons hrepf hf =>
              refine ih (h.replaceRange (not_clears_inclusive hfirst) (fun b hb => ?_) hrepc hrepf)
                hrest hl hc hf
              have hinside := AppliedEpoch.lines_inside ha b hb
              exact ⟨by omega, AppliedEpoch.lines_bounded ha b hb⟩

/-! ## The start -/

theorem rows_folds {l : List AppliedEpoch} {s s' : MemStore pedersen} (hwf : ∀ a ∈ l, a.Wf)
    (h : Folds l s s') (hgood : s.Good) : s'.rows = epochRows s.rows l ∧ s'.Good := by
  induction l generalizing s with
  | nil =>
      cases h
      exact ⟨rfl, hgood⟩
  | cons a rest ih =>
      obtain ⟨ha, hrest⟩ := List.forall_mem_cons.mp hwf
      cases h with
      | cons hrep h =>
          obtain ⟨hrows, hgood₁⟩ := MemStore.replaceRange_spec hgood
            (r := .inclusive a.entry.first a.entry.last) trivial (AppliedEpoch.lines_bounded ha) hrep
          obtain ⟨hrows', hgood'⟩ := ih hrest h hgood₁
          exact ⟨by rw [hrows', hrows]; rfl, hgood'⟩

/-- A history up to a basis has no row above it. -/
theorem not_has_epochRows {l : List AppliedEpoch} (hwf : ∀ a ∈ l, a.Wf)
    (hl : ∀ a ∈ l, a.entry.last ≤ basis) {m : Rows} (hm : ∀ row, basis < row.number → ¬ m.Has row)
    (row : Row) (hrow : basis < row.number) : ¬ (epochRows m l).Has row := by
  induction l generalizing m with
  | nil => exact hm row hrow
  | cons a rest ih =>
      obtain ⟨ha, hrest⟩ := List.forall_mem_cons.mp hwf
      obtain ⟨hlast, hl⟩ := List.forall_mem_cons.mp hl
      refine ih hrest hl fun row hrow => ?_
      have hsorted : Sorted (a.lines.map Prod.fst) := by
        have hfst : a.lines.map Prod.fst = a.epoch.blocks := by
          simp [AppliedEpoch.lines, Function.comp_def]
        rw [hfst]
        exact Sorted.of_wf ha.blocks
      rw [Rows.has_replace hsorted fun b hb =>
        (Range.contains_inclusive _ _ _).mpr (AppliedEpoch.lines_inside ha b hb)]
      rintro (hnew | ⟨-, hold⟩)
      · obtain ⟨b, hb, hmem⟩ := Row.mem_ofBlocks.mp hnew
        have hnum := Row.number_of_mem_ofBlock hmem
        have hin := AppliedEpoch.lines_inside ha b hb
        omega
      · exact hm row hrow hold

theorem SnapshotOf.has_install {m : Rows} {slots : List SnapSlot} (h : SnapshotOf m basis slots)
    (row : Row) : (Rows.empty.install slots).Has row ↔ row ∈ Row.ofSlots slots := by
  have hkey : ∀ a ∈ Row.ofSlots slots, ∀ b ∈ Row.ofSlots slots, Row.SameKey a b → a = b := by
    intro a ha b hb hab
    obtain ⟨x, hx, rfl⟩ := List.mem_map.mp ha
    obtain ⟨y, hy, rfl⟩ := List.mem_map.mp hb
    have hread := ((h x.k x.v x.w).mp hx).2
    rw [hab.1, ((h y.k y.v y.w).mp hy).2] at hread
    rw [hab.1, (Prod.mk.inj hread).1, (Prod.mk.inj hread).2]
  rw [Rows.install, Rows.has_putAll_of_functional hkey]
  exact or_iff_left fun hempty => Rows.has_empty row hempty.2

theorem SnapshotOf.slots_install {m : Rows} {slots : List SnapSlot} (h : SnapshotOf m basis slots)
    (k v : Felt) (w : Nat) : (Rows.empty.install slots).slots k w = some v ↔
      v ≠ 0 ∧ m.readSlot k basis = (v, w) := by
  rw [← h k v w]
  refine (h.has_install (.slot k w v)).trans ?_
  simp only [Row.ofSlots, List.mem_map, Row.slot.injEq]
  constructor
  · rintro ⟨x, hx, hk, hw, hv⟩
    rw [← hk, ← hw, ← hv]
    exact hx
  · intro hx
    exact ⟨_, hx, rfl, rfl, rfl⟩

/-- At the basis the snapshot reads what the history reads. -/
theorem SnapshotOf.sameRead {m : Rows} {slots : List SnapSlot} (h : SnapshotOf m basis slots)
    (k : Felt) : SameRead ((Rows.empty.install slots).readSlot k basis) (m.readSlot k basis) := by
  by_cases hzero : (m.readSlot k basis).1 = 0
  · have hnone : ∀ n ≤ basis, (Rows.empty.install slots).slots k n = none := by
      intro n _
      refine Option.eq_none_iff_forall_not_mem.mpr fun v hv => ?_
      obtain ⟨hne, hread⟩ := (h.slots_install k v n).mp hv
      rw [hread] at hzero
      exact hne hzero
    rw [Rows.readSlot, latest_eq_of_none hnone]
    exact ⟨hzero.symm, fun hne => absurd rfl hne⟩
  · have hrow := (h.slots_install k _ _).mpr ⟨hzero, rfl⟩
    have hmax : ∀ n ≤ basis, ((Rows.empty.install slots).slots k n).isSome →
        n ≤ (m.readSlot k basis).2 := by
      intro n _ hn
      obtain ⟨v, hv⟩ := Option.isSome_iff_exists.mp hn
      rw [((h.slots_install k v n).mp hv).2]
    rw [Rows.readSlot, latest_eq_of_max hrow (latest_snd_le _ _) hmax]
    exact ⟨rfl, fun _ => rfl⟩

/-- The snapshot installed into an empty store tracks the history it was folded
from. -/
theorem Tracks.start {pre : List AppliedEpoch} {slots : List SnapSlot}
    {writes : List (String × String)} {mid : MemStore pedersen} (hwf : ∀ a ∈ pre, a.Wf)
    (hpre : ∀ a ∈ pre, a.entry.last ≤ basis) (hbasis : basis < 2 ^ 64)
    (hslots : SnapshotOf (epochRows Rows.empty pre) basis slots)
    (hmid : Folds pre (MemStore.new pedersen) mid) :
    Tracks basis ((MemStore.new pedersen).installSnapshot slots writes) mid := by
  have hempty : (MemStore.new pedersen).rows = Rows.empty := (MemStore.fresh_new pedersen).rows
  obtain ⟨hrows, hgood⟩ := rows_folds hwf hmid MemStore.good_new
  rw [hempty] at hrows
  have hw : ∀ x ∈ slots, x.w ≤ basis := by
    intro x hx
    have hread := ((hslots x.k x.v x.w).mp hx).2
    rw [show x.w = (Rows.readSlot _ x.k basis).2 by rw [hread]]
    exact latest_snd_le _ _
  obtain ⟨hrowsc, hgoodc⟩ := @MemStore.installSnapshot_spec pedersen _ slots writes
    MemStore.good_new fun x hx => lt_of_le_of_lt (hw x hx) hbasis
  rw [hempty] at hrowsc
  refine ⟨hgoodc, hgood, fun n hn row hrow => ?_, fun k => ?_⟩
  · have hcold : ¬ (Rows.empty.install slots).Has row := by
      rw [hslots.has_install]
      intro hmem
      obtain ⟨x, hx, rfl⟩ := List.mem_map.mp hmem
      exact absurd (hw x hx) (by rw [Row.number] at hrow; omega)
    have hfull := not_has_epochRows hwf hpre (m := Rows.empty) (fun r _ => Rows.has_empty r) row
      (hrow ▸ hn)
    rw [hrowsc, hrows]
    exact iff_of_false hcold hfull
  · rw [hrowsc, hrows]
    exact hslots.sameRead k

/-! ## Agreement -/

/-- Two stores answer alike from a basis on, the events of every range between the
history floor of the first and the bound. -/
structure AgreeFrom (basis : Nat) (cold full : MemStore pedersen) : Prop where
  slot : ∀ bound, basis ≤ bound → ∀ k,
    SameRead (cold.readSlotAsOf k bound) (full.readSlotAsOf k bound)
  slotSet : ∀ bound, basis ≤ bound → cold.fullSlotSetAsOf bound = full.fullSlotSetAsOf bound
  root : ∀ bound, basis ≤ bound → (cold.storageRootAt bound).1 = (full.storageRootAt bound).1
  floor : historyFloor cold = basis + 1
  events : ∀ bound, basis ≤ bound → ∀ filters first last, historyFloor cold ≤ first →
    first ≤ min last bound →
    getEvents cold bound filters first last = getEvents full bound filters first last

theorem Tracks.agree (h : Tracks basis c f) (hc : historyFloor c = basis + 1)
    (hf : historyFloor f = 0) : AgreeFrom basis c f := by
  have hread : ∀ bound, basis ≤ bound → ∀ k,
      SameRead (c.readSlotAsOf k bound) (f.readSlotAsOf k bound) := by
    intro bound hbound k
    rw [MemStore.readSlotAsOf_eq, MemStore.readSlotAsOf_eq]
    exact SameRead.latest (h.atBasis k) (fun n hn => (h.above n hn).slots k) hbound
  have hset : ∀ bound, basis ≤ bound → c.fullSlotSetAsOf bound = f.fullSlotSetAsOf bound :=
    fun bound hbound => MemStore.fullSlotSetAsOf_congr h.goodCold h.goodFull fun k =>
      (hread bound hbound k).1
  refine ⟨hread, hset, fun bound hbound => MemStore.storageRootAt_congr (hset bound hbound), hc, ?_⟩
  intro bound _ filters first last hfirst hlast
  have hrows : ConsumerStore.eventRows c first (min last bound) =
      ConsumerStore.eventRows f first (min last bound) :=
    MemStore.eventRows_congr hlast fun n hn => h.above n (by omega)
  have hzero : (⟨bound, historyFloor f⟩ : View).historyFloor ≤ first := by
    rw [hf]
    exact Nat.zero_le first
  rw [getEvents, getEvents, View.getEvents_of_le hfirst, View.getEvents_of_le hzero]
  exact congrArg (· >>= _) hrows

/-- The floor above which both stores put the head. -/
theorem le_floorAfter {l : List AppliedEpoch} (hwf : ∀ a ∈ l, a.Wf)
    (hl : ∀ a ∈ l, basis < a.entry.first) : basis ≤ floorAfter basis l := by
  rw [floorAfter]
  cases hlast : l.getLast? with
  | none => exact le_rfl
  | some a =>
      have hmem := List.mem_of_getLast? hlast
      have hfirst := hl a hmem
      have hproper := (hwf a hmem).proper
      simp only [Option.map_some, Option.getD_some]
      omega

theorem Tracks.replays {l : List AppliedEpoch} {head : Head} {etag : String}
    (h : Tracks basis c f) (hbasis : basis + 1 < 2 ^ 64) (hwf : ∀ a ∈ l, a.Wf)
    (hl : ∀ a ∈ l, basis < a.entry.first) (hto : lastEpochTo c = basis) (htof : lastEpochTo f = basis)
    (hhead : Codec.BlocksWf head.blocks) (habove : ∀ b ∈ head.blocks, floorAfter basis l < b.number)
    (hc : Replays l head etag c c') (hf : Replays l head etag f f') : Tracks basis c' f' := by
  obtain ⟨c₁, bump, hfc, hrc⟩ := hc
  obtain ⟨f₁, bump', hff, hrf⟩ := hf
  rw [hfc.lastEpochTo_getD hwf, hto] at hrc
  rw [hff.lastEpochTo_getD hwf, htof] at hrf
  have hle := le_floorAfter hwf hl
  refine (h.folds hwf hl hfc hff).replaceRange (not_clears_above hbasis hle) (fun b hb => ?_) hrc hrf
  obtain ⟨line, hline, rfl⟩ := List.mem_map.mp hb
  exact ⟨lt_of_le_of_lt hle (habove line hline), (hhead.bounded line hline).number⟩

theorem expectedEnd_lt {e size n : Nat} (h : expectedEnd e size = some n) : n + 1 < 2 ^ 64 := by
  unfold expectedEnd at h
  split at h
  · cases h
  split at h
  · cases h
  split at h
  · cases h
  · cases h
    omega

/-- **Cold start equals replay.** A store filled from the snapshot of a history
and one that replayed the history agree from the basis on, after any further
epochs and a head above the floor. -/
theorem snapshot_cold_start_eq_replay (pedersen : Felt → Felt → Felt)
    {pre post : List AppliedEpoch} {head : Head} {etag : String} {snap : Snapshot} {size : Nat}
    (hwf : ∀ a ∈ pre ++ post, a.Wf) (hhead : Codec.BlocksWf head.blocks)
    (hend : pre.getLast?.map (·.entry.last) = some snap.header.block)
    (hpre : ∀ a ∈ pre, a.entry.last ≤ snap.header.block)
    (hpost : ∀ a ∈ post, snap.header.block < a.entry.first)
    (haligned : expectedEnd snap.header.epoch size = some snap.header.block)
    (hslots : SnapshotOf (epochRows Rows.empty pre) snap.header.block snap.slots)
    (habove : ∀ b ∈ head.blocks, floorAfter snap.header.block post < b.number) :
    let started := (MemStore.new pedersen).installSnapshot snap.slots (snapshotMeta snap.header)
    (∃ cold, Replays post head etag started cold) ∧
      (∃ full, Replays (pre ++ post) head etag (MemStore.new pedersen) full) ∧
      ∀ cold full, Replays post head etag started cold →
        Replays (pre ++ post) head etag (MemStore.new pedersen) full →
        AgreeFrom snap.header.block cold full := by
  intro started
  have hwfpre : ∀ a ∈ pre, a.Wf := fun a ha => hwf a (List.mem_append_left _ ha)
  have hwfpost : ∀ a ∈ post, a.Wf := fun a ha => hwf a (List.mem_append_right _ ha)
  have hbasis := expectedEnd_lt haligned
  refine ⟨Replays.exists hwfpost head etag _, Replays.exists hwf head etag _, ?_⟩
  intro cold full hcold hfull
  obtain ⟨folded, bump, hfolds, hrep⟩ := hfull
  obtain ⟨mid, hmid, hrest⟩ := Folds.append.mp hfolds
  have hstart : Tracks snap.header.block started mid :=
    Tracks.start hwfpre hpre (by omega) hslots hmid
  have hmeta : ∀ key, metaGet started key = metaAfter (snapshotMeta snap.header) key none := by
    intro key
    refine (LawfulStore.metaGet_installSnapshot (MemStore.new pedersen) _ _ _).trans ?_
    rw [(MemStore.fresh_new pedersen).metas key]
  have hto : lastEpochTo started = snap.header.block := by
    rw [lastEpochTo, metaU64, hmeta]
    simp [metaAfter, snapshotMeta, Text.parseU64_repr (by omega : snap.header.block < 2 ^ 64)]
  have htof : lastEpochTo mid = snap.header.block := by
    rw [hmid.lastEpochTo_getD hwfpre, floorAfter, hend]
    rfl
  have htracks := hstart.replays hbasis hwfpost hpost hto htof hhead habove hcold
    ⟨folded, bump, hrest, hrep⟩
  have hkey : "history_floor" ∉ "tail_generation" :: epochKeys := by decide
  have hkeep : ∀ old, metaAfter (headMeta head.header etag) "history_floor" old = old := fun _ => by
    simp [metaAfter, headMeta]
  refine htracks.agree ?_ ?_
  · have hfloor : metaAfter (snapshotMeta snap.header) "history_floor" none =
        some ((snap.header.block + 1) % 2 ^ 64).repr := by
      simp [metaAfter, snapshotMeta]
    rw [historyFloor, metaU64, hcold.metaGet_eq hkey hkeep, hmeta, hfloor, Nat.mod_eq_of_lt hbasis,
      Option.bind_some, Text.parseU64_repr hbasis]
    rfl
  · have hfull : Replays (pre ++ post) head etag (MemStore.new pedersen) full :=
      ⟨folded, bump, hfolds, hrep⟩
    rw [historyFloor, metaU64, hfull.metaGet_eq hkey hkeep, (MemStore.fresh_new pedersen).metas]
    rfl

end

/-! ## A history of two epochs -/

namespace TwoEpochs

def hash (a b : Felt) : Felt := a + 2 * b

def block (number : Nat) (diffs : List (Felt × Felt)) : BlockLine :=
  ⟨number, 1, 2, 0, diffs, [], none, none⟩

def epoch (e first last : Nat) (blocks : List BlockLine) : AppliedEpoch :=
  ⟨⟨e, first, last, "00"⟩, ByteArray.empty, ⟨⟨"SN_MAIN", 7, e, first, last, none⟩, blocks,
    ⟨0, 0, 0, 0⟩⟩⟩

/-- Slot 1 is written at block 3; slot 2 at block 5, and cleared at block 7. -/
def first : AppliedEpoch := epoch 0 0 9 [block 3 [(1, 5)], block 5 [(2, 6)], block 7 [(2, 0)]]

def second : AppliedEpoch := epoch 1 10 19 [block 12 [(2, 8)]]

def head : Head := ⟨⟨20, 25, 1, 9⟩, [block 25 [(1, 0)]], ⟨0, 0, 0, 0⟩⟩

def snap : Snapshot := ⟨⟨1, KIND_SNAPSHOT, "SN_MAIN", 7, 0, 9, "00", 0, 0⟩, [⟨1, 5, 3⟩]⟩

theorem block_wf {number : Nat} {e : Felt × Felt} (h : number < 2 ^ 64) :
    (block number [e]).Bounded ∧ Codec.BlockLine.Sorted (block number [e]) :=
  ⟨⟨h, Nat.two_pow_pos 64, by simp [block]⟩, by simp [block], by simp [block]⟩

theorem first_wf : first.Wf := by
  refine ⟨by decide, by decide, ⟨?_, ?_, ?_⟩, ?_⟩
  · simp only [first, epoch, List.forall_mem_cons]
    exact ⟨(block_wf (by decide)).1, (block_wf (by decide)).1, (block_wf (by decide)).1, by simp⟩
  · simp [first, epoch, block, Codec.Linked]
  · simp only [first, epoch, List.forall_mem_cons]
    exact ⟨(block_wf (by decide)).2, (block_wf (by decide)).2, (block_wf (by decide)).2, by simp⟩
  · simp [first, epoch, block]

theorem second_wf : second.Wf := by
  refine ⟨by decide, by decide, ⟨?_, List.IsChain.singleton _, ?_⟩, ?_⟩
  · simpa [second, epoch] using (block_wf (by decide)).1
  · simpa [second, epoch] using (block_wf (by decide)).2
  · simp [second, epoch, block]

theorem head_wf : Codec.BlocksWf head.blocks := by
  refine ⟨?_, List.IsChain.singleton _, ?_⟩
  · simpa [head] using (block_wf (by decide)).1
  · simpa [head] using (block_wf (by decide)).2

theorem snapshotOf_first : SnapshotOf (epochRows Rows.empty [first]) 9 snap.slots := by
  have hone : (epochRows Rows.empty [first]).readSlot 1 9 = (5, 3) := by decide
  have htwo : (epochRows Rows.empty [first]).readSlot 2 9 = (0, 7) := by decide
  intro k v w
  by_cases h₁ : k = 1
  · subst h₁
    rw [hone]
    constructor
    · intro hmem
      simp [snap] at hmem
      simp [hmem]
    · rintro ⟨-, heq⟩
      obtain ⟨rfl, rfl⟩ := Prod.mk.inj heq
      simp [snap]
  · have hnot : (⟨k, v, w⟩ : SnapSlot) ∉ snap.slots := by simp [snap, h₁]
    refine iff_of_false hnot fun hread => ?_
    have hzero : ((epochRows Rows.empty [first]).readSlot k 9).1 = 0 := by
      by_cases h₂ : k = 2
      · rw [h₂, htwo]
      · have hnone : ∀ n ≤ 9, (epochRows Rows.empty [first]).slots k n = none := by
          intro n hn
          show (if k = 2 ∧ n = 7 then some 0 else if k = 2 ∧ n = 5 then some 6
            else if k = 1 ∧ n = 3 then some 5
            else if (Range.inclusive 0 9).contains n then none else none) = none
          simp only [h₁, h₂, false_and, if_false, ite_self]
        rw [Rows.readSlot, latest_eq_of_none hnone]
    rw [hread.2] at hzero
    exact hread.1 hzero

end TwoEpochs

/-- The history of two epochs and its snapshot after the first. -/
theorem snapshot_cold_start_eq_replay_two :
    ∃ cold full : MemStore TwoEpochs.hash,
      Replays [TwoEpochs.second] TwoEpochs.head "etag"
        ((MemStore.new TwoEpochs.hash).installSnapshot TwoEpochs.snap.slots
          (snapshotMeta TwoEpochs.snap.header)) cold ∧
      Replays [TwoEpochs.first, TwoEpochs.second] TwoEpochs.head "etag"
        (MemStore.new TwoEpochs.hash) full ∧
      AgreeFrom 9 cold full := by
  obtain ⟨⟨cold, hcold⟩, ⟨full, hfull⟩, hagree⟩ := @snapshot_cold_start_eq_replay TwoEpochs.hash
    [TwoEpochs.first] [TwoEpochs.second] TwoEpochs.head "etag" TwoEpochs.snap 10
    (by simp [TwoEpochs.first_wf, TwoEpochs.second_wf]) TwoEpochs.head_wf rfl
    (by simp [TwoEpochs.first, TwoEpochs.epoch, TwoEpochs.snap])
    (by simp [TwoEpochs.second, TwoEpochs.epoch, TwoEpochs.snap]) (by decide)
    TwoEpochs.snapshotOf_first (by decide)
  exact ⟨cold, full, hcold, hfull, hagree cold full hcold hfull⟩

end Strk20.Consumer
