import Strk20.Indexer.Runs

/-!
# What a run publishes (`cutter.rs`, `ingest.rs`)

Published epochs are a log: consecutive ranges from the first epoch on, each chained to
the content hash of the one below, final and scanned when they are cut. A run only
appends to it, whatever the endpoints answer, whatever is rolled back or repaired and
wherever the process stops. If repairs keep above the published range, every epoch
rebuilds to the bytes that were published; if every cycle is safe on a chain of its own,
manifest and files verify as one hash chain all along.
-/

namespace Strk20.Indexer

open Feed Feed.Codec Tables
open Effect (Triple)
open Consumer (toI64 toU64 toU64_toI64)
open Std (ExtTreeMap)
open Relation (ReflTransGen)

/-! ## A log of epochs -/

/-- Rows from an index on, each with its own range and on top of the one below. -/
def Lined (cfg : ChainConfig) : Nat → Option Key → List (Int × EpochRec) → Prop
  | _, _, [] => True
  | i, prev, e :: rest =>
      (e.1 = i ∧ e.2.fromBlock = (cfg.epochRange i).1 ∧ e.2.toBlock = (cfg.epochRange i).2 ∧
        (cfg.epochRange i).2 < 2 ^ 63 ∧ e.2.prevHash = prev) ∧
      Lined cfg (i + 1) (some e.2.contentHash) rest

/-- Content hash after some rows. -/
def linkHash : Option Key → List (Int × EpochRec) → Option Key
  | prev, [] => prev
  | _, e :: rest => linkHash (some e.2.contentHash) rest

section

variable {cfg : ChainConfig} {i : Nat} {prev : Option Key} {a b : List (Int × EpochRec)}

theorem lined_append_iff :
    Lined cfg i prev (a ++ b) ↔ Lined cfg i prev a ∧ Lined cfg (i + a.length) (linkHash prev a) b := by
  induction a generalizing i prev with
  | nil => exact ⟨fun h => ⟨trivial, h⟩, fun h => h.2⟩
  | cons e rest ih =>
      rw [List.cons_append, Lined, Lined, ih, List.length_cons, linkHash,
        show i + 1 + rest.length = i + (rest.length + 1) by omega]
      exact and_assoc.symm

theorem linkHash_append : linkHash prev (a ++ b) = linkHash (linkHash prev a) b := by
  induction a generalizing prev with
  | nil => rfl
  | cons e rest ih =>
      rw [List.cons_append, linkHash, linkHash, ih]

/-- A row of the log has the range of its index, which is below the log's end. -/
theorem Lined.mem (h : Lined cfg i prev a) {e : Int × EpochRec} (he : e ∈ a) :
    ∃ j, i ≤ j ∧ j < i + a.length ∧ e.1 = j ∧ e.2.fromBlock = (cfg.epochRange j).1 ∧
      e.2.toBlock = (cfg.epochRange j).2 ∧ (cfg.epochRange j).2 < 2 ^ 63 := by
  obtain ⟨l, r, rfl⟩ := List.append_of_mem he
  obtain ⟨⟨hidx, hfrom, hto, hfit, -⟩, -⟩ := (lined_append_iff.mp h).2
  refine ⟨i + l.length, Nat.le_add_right _ _, ?_, hidx, hfrom, hto, hfit⟩
  rw [List.length_append, List.length_cons]
  omega

theorem epochRange_mono {j k : Nat} (h : j ≤ k) : (cfg.epochRange j).2 ≤ (cfg.epochRange k).2 := by
  have hmul : (j + 1) * cfg.epochSize ≤ (k + 1) * cfg.epochSize :=
    Nat.mul_le_mul_right _ (by omega)
  show (j + 1) * cfg.epochSize - 1 ≤ (k + 1) * cfg.epochSize - 1
  omega

variable {d : Database}

/-- The next epoch is the one after the log, chained to its end. -/
theorem Lined.next (hcols : d.Columns64) (h : Lined cfg cfg.firstEpoch none d.epochs.toList) :
    nextEpoch cfg d = cfg.firstEpoch + d.epochs.toList.length ∧
      d.lastHash = linkHash none d.epochs.toList := by
  unfold nextEpoch Database.lastHash Database.lastEpoch
  rcases List.eq_nil_or_concat' d.epochs.toList with hnil | ⟨l, e, hlast⟩
  · rw [hnil]
    exact ⟨rfl, rfl⟩
  · have hmem : e ∈ d.epochs.toList := by
      rw [hlast]
      exact List.mem_append_right _ List.mem_cons_self
    obtain ⟨-, hhigh⟩ := hcols.epochs e.1 e.2 (ExtTreeMap.mem_toList_iff_getElem?_eq_some.mp hmem)
    rw [hlast] at h ⊢
    obtain ⟨⟨hidx, -⟩, -⟩ := (lined_append_iff.mp h).2
    rw [List.getLast?_append, List.getLast?_singleton, Option.some_or, linkHash_append]
    refine ⟨?_, rfl⟩
    simp only [Option.map_some, List.length_append, List.length_singleton]
    rw [hidx]
    unfold toU64
    omega

/-- All rows end at or below the end of the last. -/
theorem Lined.settled (h : Lined cfg cfg.firstEpoch none d.epochs.toList)
    {e : Int × EpochRec} (he : e ∈ d.epochs.toList) : e.2.toBlock ≤ d.settledUpto := by
  obtain ⟨j, -, hj, -, -, hto, -⟩ := h.mem he
  unfold Database.settledUpto Database.lastEpoch
  rcases List.eq_nil_or_concat' d.epochs.toList with hnil | ⟨l, last, hlast⟩
  · rw [hnil] at he
    cases he
  · rw [hlast] at h hj ⊢
    obtain ⟨⟨-, -, hlastto, hfit, -⟩, -⟩ := (lined_append_iff.mp h).2
    rw [List.getLast?_append, List.getLast?_singleton, Option.some_or]
    rw [List.length_append, List.length_singleton] at hj
    have hmono : (cfg.epochRange j).2 ≤ (cfg.epochRange (cfg.firstEpoch + l.length)).2 :=
      epochRange_mono (by omega)
    simp only [Option.map_some]
    rw [hto, hlastto]
    unfold toU64
    omega

end

/-! ## Nothing published is taken back -/

/-- Epochs that the manifest lists, none before it is written. -/
def FeedDir.listed (dir : FeedDir) : List EpochEntry :=
  (dir.manifest.map ManifestFile.epochs).getD []

/-- A file that is what its row says. -/
def FiledRow (Z : Zstd) (files : ExtTreeMap Nat ByteArray) (e : Int × EpochRec) : Prop :=
  ∃ payload, files[toU64 e.1]? = some (Z.compress payload) ∧
    e.2.contentHash = payloadSha256 payload ∧ e.2.zstSha256 = payloadSha256 (Z.compress payload) ∧
      e.2.fileSize = toI64 (Z.compress payload).size

/-- What holds of a site between any two writes: the log is lined up, final and scanned,
its files are what the rows say, and the manifest lists epochs from the first one on. -/
structure Published (cfg : ChainConfig) (Z : Zstd) (x : Site) : Prop where
  lined : Lined cfg cfg.firstEpoch none x.database.epochs.toList
  final : ∀ e ∈ x.database.epochs.toList,
    e.2.toBlock ≤ x.database.finalUpto ∧ e.2.toBlock ≤ x.database.frontier
  filed : ∀ e ∈ x.database.epochs.toList, FiledRow Z x.dir.epochs e
  listed : x.dir.listed <+: x.database.epochRows.map EpochRow.entry

/-- From one site to a later one. -/
structure Extends (x y : Site) : Prop where
  rows : x.database.epochs.toList <+: y.database.epochs.toList
  files : ∀ e ∈ x.database.epochs.toList, y.dir.epochs[toU64 e.1]? = x.dir.epochs[toU64 e.1]?
  listed : x.dir.listed <+: y.dir.listed
  final : x.database.finalUpto ≤ y.database.finalUpto

theorem Extends.refl (x : Site) : Extends x x :=
  ⟨List.prefix_refl _, fun _ _ => rfl, List.prefix_refl _, le_refl _⟩

theorem Extends.trans {x y z : Site} (h : Extends x y) (h' : Extends y z) : Extends x z :=
  ⟨h.rows.trans h'.rows, fun e he => (h'.files e (h.rows.subset he)).trans (h.files e he),
    h.listed.trans h'.listed, le_trans h.final h'.final⟩

section

variable {L : Ledger} {P : FeltParser} {Z : Zstd} {pedersen : Felt → Felt → Felt}
variable {cfg : ChainConfig} {B : Anchor → Prop} {low : Database → Int} {K : Database → Prop}
variable {x y : Site}

theorem Published.ends (hs : Sound L x.database)
    (h : Lined cfg cfg.firstEpoch none x.database.epochs.toList) :
    ∀ e ∈ x.database.epochs.toList,
      e.2.toBlock ≤ x.database.finalUpto ∧ e.2.toBlock ≤ x.database.frontier := by
  intro e he
  have hend := h.settled he
  have hsettled := hs.settled
  obtain ⟨-, hscanned, -⟩ := hs.steady.frontier
  exact ⟨by omega, by omega⟩

/-- A step that cuts no epoch. -/
theorem Published.keep (h : Published cfg Z x) (hy : Sound L y.database)
    (hrows : y.database.epochs = x.database.epochs)
    (hfiles : ∀ e ∈ x.database.epochs.toList, y.dir.epochs[toU64 e.1]? = x.dir.epochs[toU64 e.1]?)
    (hlisted : y.dir.listed = x.dir.listed ∨
      y.dir.listed = y.database.epochRows.map EpochRow.entry)
    (hfinal : x.database.finalUpto ≤ y.database.finalUpto) :
    Published cfg Z y ∧ Extends x y := by
  have hsame : y.database.epochRows = x.database.epochRows := epochRows_congr hrows
  have hlined := h.lined
  rw [← hrows] at hlined
  refine ⟨⟨hlined, Published.ends hy hlined, ?_, ?_⟩, ⟨?_, hfiles, ?_, hfinal⟩⟩
  · intro e he
    rw [hrows] at he
    obtain ⟨payload, hfile, hrest⟩ := h.filed e he
    exact ⟨payload, (hfiles e he).trans hfile, hrest⟩
  · rcases hlisted with heq | heq
    · rw [heq, hsame]
      exact h.listed
    · rw [heq]
  · rw [hrows]
  · rcases hlisted with heq | heq
    · rw [heq]
    · rw [heq, hsame]
      exact h.listed

/-- The next epoch has no row yet. -/
theorem Published.fresh (h : Published cfg Z x) (hcols : x.database.Columns64) {e : Int × EpochRec}
    (he : e ∈ x.database.epochs.toList) : toU64 e.1 ≠ nextEpoch cfg x.database := by
  obtain ⟨j, -, hj, hidx, -⟩ := h.lined.mem he
  obtain ⟨-, hhigh⟩ := hcols.epochs e.1 e.2 (ExtTreeMap.mem_toList_iff_getElem?_eq_some.mp he)
  rw [(h.lined.next hcols).1]
  unfold toU64
  omega

theorem cutRec_range {idx : Nat} (prev : Option Key) (payload : ByteArray) (anchor : Option Anchor)
    (cutAt : Nat) (hfit : (cfg.epochRange idx).2 < 2 ^ 63) :
    (cutRec Z cfg idx prev payload anchor cutAt).fromBlock = (cfg.epochRange idx).1 ∧
      (cutRec Z cfg idx prev payload anchor cutAt).toBlock = (cfg.epochRange idx).2 := by
  have hle := epochRange_le cfg idx
  unfold cutRec
  simp only
  exact ⟨Consumer.toI64_of_lt (by omega), Consumer.toI64_of_lt hfit⟩

theorem cutRec_filed {idx : Nat} {prev : Option Key} {payload : ByteArray} {anchor : Option Anchor}
    {cutAt : Nat} {files : ExtTreeMap Nat ByteArray} (hlt : idx < 2 ^ 63)
    (hfile : files[idx]? = some (Z.compress payload)) :
    FiledRow Z files ((idx : Int), cutRec Z cfg idx prev payload anchor cutAt) := by
  have hkey : toU64 (idx : Int) = idx := by
    unfold toU64
    omega
  unfold FiledRow cutRec
  simp only [hkey]
  exact ⟨payload, hfile, rfl, rfl, rfl⟩

/-- **A write of the cutter** keeps what is published, or appends to it. -/
theorem CutStep.published (hstep : CutStep P Z pedersen cfg B x y) (hs : Sound L x.database)
    (h : Published cfg Z x) : Published cfg Z y ∧ Extends x y := by
  have hy := hstep.sound hs
  have hfinal := (hstep.sameMirror.finalUpto).ge
  cases hstep with
  | epochFile hcut =>
      refine h.keep hy rfl (fun e he => ?_) (Or.inl rfl) hfinal
      rw [getElem?_insert_eq, if_neg (h.fresh hs.columns he)]
  | manifest => exact h.keep hy rfl (fun _ _ => rfl) (Or.inr rfl) hfinal
  | @epochRow payload anchor cutAt hlt hcut hfile hends hscanned hanchor =>
      obtain ⟨-, -, hfrontier⟩ := hs.steady.frontier
      obtain ⟨hnext, hhash⟩ := h.lined.next hs.columns
      have hfit : (cfg.epochRange (nextEpoch cfg x.database)).2 < 2 ^ 63 := by omega
      have hle := epochRange_le cfg (nextEpoch cfg x.database)
      have hlist := toList_insertEpoch hs.columns hlt
        (cutRec Z cfg (nextEpoch cfg x.database) x.database.lastHash payload anchor cutAt)
      have hlined : Lined cfg cfg.firstEpoch none (x.database.insertEpoch (nextEpoch cfg x.database)
          (cutRec Z cfg (nextEpoch cfg x.database) x.database.lastHash payload anchor cutAt)).epochs.toList := by
        rw [hlist]
        obtain ⟨hfrom, hto⟩ := cutRec_range (Z := Z) x.database.lastHash payload anchor cutAt hfit
        rw [hnext] at hfrom hto hfit ⊢
        exact lined_append_iff.mpr ⟨h.lined, ⟨rfl, hfrom, hto, hfit, hhash⟩, trivial⟩
      refine ⟨⟨hlined, Published.ends hy hlined, ?_, ?_⟩, ⟨?_, fun _ _ => rfl, List.prefix_refl _, hfinal⟩⟩
      · intro e he
        rw [hlist] at he
        rcases List.mem_append.mp he with hold | hnew
        · exact h.filed e hold
        · obtain rfl := List.mem_singleton.mp hnew
          exact cutRec_filed hlt hfile
      · refine h.listed.trans ?_
        unfold Database.epochRows
        rw [hlist, List.map_append, List.map_append]
        exact List.prefix_append _ _
      · rw [hlist]
        exact List.prefix_append _ _
  | _ => exact h.keep hy rfl (fun _ _ => rfl) (Or.inl rfl) hfinal

theorem SiteStep.published (hstep : SiteStep L P Z pedersen cfg B low K x y)
    (hs : Sound L x.database) (h : Published cfg Z x) : Published cfg Z y ∧ Extends x y := by
  have hy := hstep.sound hs
  cases hstep with
  | cut hcut => exact hcut.published hs h
  | ingest _ hkept => exact h.keep hy hkept.epochs (fun _ _ => rfl) (Or.inl rfl) hkept.final
  | repair _ hkept => exact h.keep hy hkept.epochs (fun _ _ => rfl) (Or.inl rfl) hkept.final

theorem SitePath.published (hpath : SitePath L P Z pedersen cfg B low K x y)
    (hs : Sound L x.database) (h : Published cfg Z x) : Published cfg Z y ∧ Extends x y := by
  induction hpath with
  | refl => exact ⟨h, Extends.refl _⟩
  | tail hpath hstep ih =>
      obtain ⟨hpub, hext⟩ := ih
      obtain ⟨hpub', hext'⟩ := hstep.published (SitePath.sound hpath hs) hpub
      exact ⟨hpub', hext.trans hext'⟩

/-! ## Runs from the first start -/

/-- Nothing stored and nothing published. -/
structure Publisher.Fresh (s : Publisher) : Prop where
  database : s.host.database = Database.new
  dir : s.dir = ⟨none, ∅, ∅, none, none⟩

theorem sound_new : Sound L Database.new := by
  have hblocks : ∀ (k : Int) (r : BlockRec), Database.new.blocks[k]? = some r → False := by
    intro k r hr
    simp [Database.new] at hr
  refine ⟨⟨⟨le_refl _, ?_, ?_⟩, fun k r hr => (hblocks k r hr).elim, Database.new_linked⟩,
    ⟨fun k r hr => ?_, fun k r hr => ?_⟩, ?_⟩
  · exact (by decide : (-1 : Int) ≤ 0)
  · exact (by norm_num : (0 : Int) + 1 < 2 ^ 63)
  · simp [Database.new] at hr
  · simp [Database.new] at hr
  · exact (by decide : (-1 : Int) ≤ 0)

theorem Publisher.Fresh.sound {s : Publisher} (h : s.Fresh) : Sound L s.host.database := by
  rw [h.database]
  exact sound_new

theorem Publisher.Fresh.rows {s : Publisher} (h : s.Fresh) : s.site.database.epochs.toList = [] := by
  show s.host.database.epochs.toList = []
  rw [h.database]
  rfl

theorem Publisher.Fresh.onSome {s : Publisher} (h : s.Fresh) (D : Chain L) :
    OnSome L s.host.database := by
  refine ⟨D, fun k r hr => ?_⟩
  rw [h.database] at hr
  simp [Database.new] at hr

theorem Publisher.Fresh.published {s : Publisher} (h : s.Fresh) : Published cfg Z s.site := by
  have hrows := h.rows
  refine ⟨?_, fun e he => ?_, fun e he => ?_, ?_⟩
  · rw [hrows]
    trivial
  · rw [hrows] at he
    cases he
  · rw [hrows] at he
    cases he
  · show s.dir.listed <+: _
    rw [h.dir]
    exact List.nil_prefix

/-- Endpoints that keep to what hashes commit to, whatever the command. -/
def NamesOnly (L : Ledger) (P : FeltParser) : Publisher → RpcClient → Command → Prop :=
  fun _ rpc _ => Names L P rpc

variable {chunkSize : Nat} {s t u : Publisher}

theorem namesOnly_path (hs : Sound L s.host.database)
    (hrun : LoopRun P Z pedersen cfg chunkSize (NamesOnly L P) s t) :
    SitePath L P Z pedersen cfg (fun _ => True) (fun _ => -1) (fun _ => True) s.site t.site :=
  loopRun_path (fun _ _ _ h => h)
    (fun u rpc c hnames _ _ => permitted_named hnames (fun _ _ => trivial)
      (Command.above_all P Z pedersen cfg chunkSize u rpc c))
    hs trivial hrun

/-- **The published log is final and append-only.** In every run from the first start, at
every point where it may stop: epochs are consecutive from the first one on, with aligned
ranges and each chained to the content hash below it, and end at or below the final
height and the frontier; their files are what the rows say; the manifest lists them from
the first one on. And a run from there takes nothing of it back. -/
theorem published_append_only (hfresh : s.Fresh)
    (hrun : LoopRun P Z pedersen cfg chunkSize (NamesOnly L P) s t)
    (hmore : LoopRun P Z pedersen cfg chunkSize (NamesOnly L P) t u) :
    Published cfg Z t.site ∧ Extends t.site u.site := by
  have hpath := namesOnly_path hfresh.sound hrun
  have ht : Published cfg Z t.site := (SitePath.published hpath hfresh.sound hfresh.published).1
  have hsound : Sound L t.host.database := SitePath.sound hpath hfresh.sound
  exact ⟨ht, (SitePath.published (namesOnly_path hsound hmore) hsound ht).2⟩

end

theorem unpublished_fresh : unpublished.Fresh := ⟨rfl, rfl⟩

/-- Two backfills, one after the other. -/
theorem published_append_only_backfill :
    Published poolAtOne plainZstd (backfilled unpublished).site ∧
      Extends (backfilled unpublished).site (backfilled (backfilled unpublished)).site :=
  published_append_only unpublished_fresh (backfilled_run LoopRun.refl pastEpoch_names)
    (backfilled_run LoopRun.refl pastEpoch_names)

/-! ## Epochs rebuild to what was published -/

section

variable {L : Ledger} {n m : Int} {d₀ d : Database}

theorem Kept.diffsOfBlock (h : Kept L n m d₀ d) {block : Nat} (hblock : toI64 block ≤ n) :
    d.diffsOfBlock block = d₀.diffsOfBlock block := by
  unfold Database.diffsOfBlock
  rw [toList_filter_congr (fun k : Felt × Int => decide (k.2 = toI64 block))]
  rintro ⟨slot, k⟩ hk
  simp only [decide_eq_true_eq] at hk
  rw [hk]
  exact h.storage slot _ hblock

theorem Kept.eventsOfBlock (h : Kept L n m d₀ d) {block : Nat} (hblock : toI64 block ≤ n) :
    d.eventsOfBlock block = d₀.eventsOfBlock block := by
  unfold Database.eventsOfBlock
  rw [toList_filter_congr (fun k : Int × Int => decide (k.1 = toI64 block))]
  rintro ⟨k, i⟩ hk
  simp only [decide_eq_true_eq] at hk
  rw [hk]
  exact h.events _ i hblock

theorem Kept.replacedClassOfBlock (h : Kept L n m d₀ d) {block : Nat} (hblock : toI64 block ≤ n) :
    d.replacedClassOfBlock block = d₀.replacedClassOfBlock block :=
  h.classes _ hblock

theorem Kept.classAsOf (h : Kept L n m d₀ d) {block : Nat} (hblock : toI64 block ≤ n) :
    d.classAsOf block = d₀.classAsOf block := by
  unfold Database.classAsOf
  rw [toList_filter_congr (fun k : Int => decide (k ≤ toI64 block))]
  intro k hk
  have hk : k ≤ toI64 block := of_decide_eq_true hk
  exact h.classes k (le_trans hk hblock)

/-- A line of an epoch, from what its block's hash commits to. -/
def Database.lineOf (d : Database) (e : Int × Felt × Felt × Int) : BlockLine :=
  d.blockLineOf none ⟨toU64 e.1, e.2.1, e.2.2.1, toU64 e.2.2.2, false⟩

theorem blocksAsLines_eq (d : Database) (first last : Nat) : d.blocksAsLines first last none =
    ((d.blocks.map fun _ r => r.facts).toList.filter fun e =>
      decide (toI64 first ≤ e.1 ∧ e.1 ≤ toI64 last)).map d.lineOf := by
  rw [ExtTreeMap.toList_map, List.filter_map, List.map_map]
  unfold Database.blocksAsLines Database.blocksInRange
  rw [List.map_map]
  rfl

theorem Kept.blocksAsLines (h : Kept L n m d₀ d) {first last : Nat} (hlast : toI64 last ≤ n)
    (hn : n < 2 ^ 63) (hfirst : 0 ≤ toI64 first) :
    d.blocksAsLines first last none = d₀.blocksAsLines first last none := by
  have hfacts : ∀ k : Int, decide (toI64 first ≤ k ∧ k ≤ toI64 last) = true →
      (d.blocks.map fun _ r => r.facts)[k]? = (d₀.blocks.map fun _ r => r.facts)[k]? := by
    intro k hk
    have hk : toI64 first ≤ k ∧ k ≤ toI64 last := of_decide_eq_true hk
    rw [ExtTreeMap.getElem?_map, ExtTreeMap.getElem?_map]
    exact h.blocks k (by omega)
  rw [blocksAsLines_eq, blocksAsLines_eq, toList_filter_congr _ hfacts]
  refine List.map_congr_left fun e he => ?_
  have hrange := of_decide_eq_true (List.mem_filter.mp he).2
  have hblock : toI64 (toU64 e.1) ≤ n := by
    rw [toI64_toU64 (by omega) (by omega)]
    omega
  unfold Database.lineOf Database.blockLineOf
  simp only
  rw [h.diffsOfBlock hblock, h.eventsOfBlock hblock, h.replacedClassOfBlock hblock]

/-- What is kept is built to the same epoch. -/
theorem Kept.buildEpoch (h : Kept L n m d₀ d) {cfg : ChainConfig} {idx : Nat} (prev : Option Key)
    (hend : ((cfg.epochRange idx).2 : Int) ≤ n) (hn : n < 2 ^ 63) :
    buildEpoch cfg d idx prev = buildEpoch cfg d₀ idx prev := by
  have hle := epochRange_le cfg idx
  have hlast : toI64 (cfg.epochRange idx).2 ≤ n := by
    rw [Consumer.toI64_of_lt (by omega)]
    exact hend
  have hfirst : 0 ≤ toI64 (cfg.epochRange idx).1 := by
    rw [Consumer.toI64_of_lt (by omega)]
    omega
  unfold Indexer.buildEpoch
  simp only
  rw [h.blocksAsLines hlast hn hfirst, h.classAsOf hlast]

theorem SameMirror.buildEpoch (h : SameMirror d₀ d) (cfg : ChainConfig) (idx : Nat)
    (prev : Option Key) : Indexer.buildEpoch cfg d idx prev = Indexer.buildEpoch cfg d₀ idx prev := by
  have hrows : Database.SameRows d d₀ := ⟨h.blocks, h.storageLog, h.events, h.classHistory⟩
  exact hrows.buildEpoch cfg idx prev

variable {P : FeltParser} {Z : Zstd} {pedersen : Felt → Felt → Felt} {cfg : ChainConfig}
variable {B : Anchor → Prop} {K : Database → Prop} {x y : Site}

/-- Every epoch is encoded from the rows to what it records. -/
def Rebuilt (cfg : ChainConfig) (d : Database) : Prop :=
  ∀ e ∈ d.epochs.toList, epochHash cfg d (toU64 e.1) e.2.prevHash = some e.2.contentHash

theorem Lined.current {i : Nat} {prev : Option Key} {l : List (Int × EpochRec)}
    (h : Lined cfg i prev l)
    (hl : ∀ e ∈ l, epochHash cfg d (toU64 e.1) e.2.prevHash = some e.2.contentHash) :
    Current cfg d prev (l.map fun e => epochRowOf e.1 e.2) := by
  induction l generalizing i prev with
  | nil => trivial
  | cons e rest ih =>
      obtain ⟨⟨-, -, -, -, hprev⟩, hrest⟩ := h
      obtain ⟨hhere, hthere⟩ := List.forall_mem_cons.mp hl
      rw [hprev] at hhere
      exact ⟨hhere, ih hrest hthere⟩

/-- What is kept up to the last epoch rebuilds as before. -/
theorem Kept.rebuilt (h : Kept L d₀.settledUpto m d₀ d) (hs : Sound L d₀)
    (hlined : Lined cfg cfg.firstEpoch none d₀.epochs.toList) (hd₀ : Rebuilt cfg d₀) :
    Rebuilt cfg d := by
  intro e he
  rw [h.epochs] at he
  obtain ⟨j, -, -, hidx, -, hto, hfit⟩ := hlined.mem he
  obtain ⟨-, hhigh⟩ := hs.columns.epochs e.1 e.2 (ExtTreeMap.mem_toList_iff_getElem?_eq_some.mp he)
  obtain ⟨-, hscanned, hlt⟩ := hs.steady.frontier
  have hend := hlined.settled he
  have hkey : toU64 e.1 = j := by
    rw [hidx]
    unfold toU64
    omega
  have hrebuilt := hd₀ e he
  rw [hkey] at hrebuilt ⊢
  unfold epochHash at hrebuilt ⊢
  rw [h.buildEpoch e.2.prevHash (by omega) (by omega)]
  exact hrebuilt

theorem CutStep.rebuilt (hstep : CutStep P Z pedersen cfg B x y) (hs : Sound L x.database)
    (hx : Rebuilt cfg x.database) : Rebuilt cfg y.database := by
  intro e he
  unfold epochHash
  rw [hstep.sameMirror.buildEpoch]
  rcases hstep.epochs_cases with hsame | ⟨payload, anchor, cutAt, hlt, hcut, -, -, -, -, rfl⟩
  · rw [hsame] at he
    exact hx e he
  · rw [toList_insertEpoch hs.columns hlt] at he
    rcases List.mem_append.mp he with hold | hnew
    · exact hx e hold
    · obtain rfl := List.mem_singleton.mp hnew
      have hkey : toU64 (nextEpoch cfg x.database : Int) = nextEpoch cfg x.database := by
        unfold toU64
        omega
      rw [hkey]
      exact congrArg (Option.map payloadSha256) hcut

theorem SitePath.rebuilt
    (hpath : SitePath L P Z pedersen cfg B Database.settledUpto K x y)
    (hs : Sound L x.database) (hpub : Published cfg Z x) (hx : Rebuilt cfg x.database) :
    Rebuilt cfg y.database := by
  induction hpath with
  | refl => exact hx
  | tail hpath hstep ih =>
      have hsound := SitePath.sound hpath hs
      have hlined := (SitePath.published hpath hs hpub).1.lined
      cases hstep with
      | cut hcut => exact hcut.rebuilt hsound ih
      | ingest _ hkept => exact hkept.rebuilt hsound hlined ih
      | repair _ hkept => exact hkept.rebuilt hsound hlined ih

/-- Repairs that keep above the published range. -/
def AboveEpochs (L : Ledger) (P : FeltParser) (Z : Zstd) (pedersen : Felt → Felt → Felt)
    (cfg : ChainConfig) (chunkSize : Nat) : Publisher → RpcClient → Command → Prop :=
  fun s rpc c => Names L P rpc ∧ c.Above P Z pedersen cfg chunkSize Database.settledUpto s rpc

variable {chunkSize : Nat} {s t : Publisher}

/-- **Published epochs rebuild.** In every run from the first start whose repairs keep
above the published range, at every point where it may stop, each epoch is encoded from
the rows to the bytes that were published, whatever cycles have rolled back and read
since; a re-cut has nothing to rewrite. -/
theorem published_rebuilds (hfresh : s.Fresh)
    (hrun : LoopRun P Z pedersen cfg chunkSize (AboveEpochs L P Z pedersen cfg chunkSize) s t) :
    Current cfg t.host.database none t.host.database.epochRows ∧
      ∀ first, (recutEpochsFrom Z cfg t.host.database first).rounds = [] := by
  have hpath : SitePath L P Z pedersen cfg (fun _ => True) Database.settledUpto (fun _ => True)
      s.site t.site :=
    loopRun_path (fun _ _ _ h => h)
      (fun _ _ _ hok _ _ => permitted_named hok.1 (fun _ _ => trivial) hok.2) hfresh.sound trivial hrun
  have hnew : Rebuilt cfg s.site.database := by
    intro e he
    rw [hfresh.rows] at he
    cases he
  have hstart : Published cfg Z s.site := hfresh.published
  have hlined := (SitePath.published hpath hfresh.sound hstart).1.lined
  have hcurrent : Current cfg t.host.database none t.host.database.epochRows :=
    hlined.current (SitePath.rebuilt hpath hfresh.sound hstart hnew)
  refine ⟨hcurrent, fun first => ?_⟩
  rcases @recutEpochsFrom_cases Z cfg t.host.database first with
    ⟨stop, hrefused, -⟩ | ⟨pre, cur, row, rest, hlocated⟩
  · rw [hrefused]
  · have hrows := hlocated.rows
    rw [hrows, ← List.append_assoc, current_append] at hcurrent
    exact absurd hcurrent.2.1 hlocated.stale

/-- The second backfill repairs block 5, above the epoch that is published. -/
theorem published_rebuilds_repaired :
    Current poolAtOne (repaired (backfilled unpublished)).host.database none
        (repaired (backfilled unpublished)).host.database.epochRows ∧
      ∀ first, (recutEpochsFrom plainZstd poolAtOne
        (repaired (backfilled unpublished)).host.database first).rounds = [] :=
  published_rebuilds unpublished_fresh
    (repaired_run (backfilled_run LoopRun.refl ⟨pastEpoch_names, unserved_above⟩)
      ⟨grownEpoch_names, repaired_above⟩)

end

end Strk20.Indexer
