import Strk20.Indexer.Ingest

/-!
# The coverage audit (`audit_coverage`)

The seeker walks the pool-active blocks of a range on the chain, and compares each with the
mirror: is it there, and with how many events. A report is a tally of what it saw, which a
repair brings up to date by looking at the gaps again.

- `auditCoverage_eq`: with truthful pages a report is the tally of the chain's blocks.
- `refreshedAfterRepair_tally`: what the update comes to.
- `auditCoverage_exact`: when a report is complete, and that the update is a fresh audit.
-/

namespace Strk20.Indexer

/-! ## Reports -/

structure CoverageGap where
  block : Nat
  chainEvents : Nat
  mirrorEvents : Nat
  inMirror : Bool
deriving DecidableEq

structure CoverageReport where
  first : Nat
  last : Nat
  chainBlocks : Nat
  chainEvents : Nat
  mirrorBlocks : Nat
  mirrorEvents : Nat
  missing : List CoverageGap
  undercounted : List CoverageGap
  overcounted : List CoverageGap
deriving DecidableEq

/-- A block of the chain beside the mirror's. -/
def CoverageGap.look (d : Database) (block chainEvents : Nat) : CoverageGap :=
  ⟨block, chainEvents, (d.eventsOfBlock block).length, (d.block block).isSome⟩

namespace CoverageReport

def start (first last : Nat) : CoverageReport := ⟨first, last, 0, 0, 0, 0, [], [], []⟩

/-- A gap goes into one of three lists, an agreement into none. -/
def file (r : CoverageReport) (g : CoverageGap) : CoverageReport :=
  if !g.inMirror then { r with missing := r.missing ++ [g] }
  else if g.mirrorEvents < g.chainEvents then { r with undercounted := r.undercounted ++ [g] }
  else if g.mirrorEvents > g.chainEvents then { r with overcounted := r.overcounted ++ [g] }
  else r

/-- The body of the audit's inner loop. -/
def visit (d : Database) (r : CoverageReport) (e : Nat × List RpcEvent) : CoverageReport :=
  let g := CoverageGap.look d e.1 e.2.length
  { r with
    chainBlocks := r.chainBlocks + 1
    chainEvents := r.chainEvents + g.chainEvents
    mirrorBlocks := r.mirrorBlocks + if g.inMirror then 1 else 0
    mirrorEvents := r.mirrorEvents + g.mirrorEvents }.file g

def isComplete (r : CoverageReport) : Bool :=
  r.missing.isEmpty && r.undercounted.isEmpty && r.overcounted.isEmpty

def gapped (r : CoverageReport) : List CoverageGap := r.missing ++ r.undercounted ++ r.overcounted

/-- Every block that needs re-ingesting, ascending and once. -/
def repairBlocks (r : CoverageReport) : List Nat :=
  ((r.gapped.map (·.block)).mergeSort fun a b => decide (a ≤ b)).dedup

/-- The gaps looked at again; the chain's numbers are those of the audit. -/
def refreshedAfterRepair (r : CoverageReport) (d : Database) : CoverageReport :=
  let now := r.gapped.map fun g => CoverageGap.look d g.block g.chainEvents
  let oldBlocks := r.gapped.countP (·.inMirror)
  let oldEvents := (r.gapped.map (·.mirrorEvents)).sum
  let filed := now.foldl file { r with missing := [], undercounted := [], overcounted := [] }
  { filed with
    mirrorBlocks := r.mirrorBlocks - oldBlocks + now.countP (·.inMirror)
    mirrorEvents := r.mirrorEvents - oldEvents + (now.map (·.mirrorEvents)).sum }

end CoverageReport

/-! ## The audit -/

section

variable (rpc : RpcClient) (chunkSize : Nat)

/-- Last block of the segment that starts at a block. -/
def segmentEnd (first last : Nat) : Nat := min (first + (SCAN_SEGMENT - 1)) last

theorem le_segmentEnd {first last : Nat} (h : first ≤ last) : first ≤ segmentEnd first last :=
  le_min (Nat.le_add_right _ _) h

def auditLoop (last segFrom : Nat) (report : CoverageReport) : Indexing CoverageReport :=
  if h : segFrom ≤ last then do
    let active ← scanActiveBlocks rpc chunkSize segFrom (segmentEnd segFrom last)
    let d ← readDb id
    auditLoop last (segmentEnd segFrom last + 1) (active.foldl (CoverageReport.visit d) report)
  else pure report
termination_by last + 1 - segFrom
decreasing_by
  have hend := le_segmentEnd h
  omega

def auditCoverage (first last : Nat) : Indexing CoverageReport :=
  let report := CoverageReport.start first last
  if last < first then pure report
  else auditLoop rpc chunkSize last first report

end

/-! ## Tallies -/

namespace CoverageGap

def isMissing (g : CoverageGap) : Bool := !g.inMirror
def isUnder (g : CoverageGap) : Bool := g.inMirror && decide (g.mirrorEvents < g.chainEvents)
def isOver (g : CoverageGap) : Bool := g.inMirror && decide (g.chainEvents < g.mirrorEvents)

/-- The mirror has the block, with the chain's number of events. -/
def agrees (g : CoverageGap) : Bool := g.inMirror && g.mirrorEvents == g.chainEvents

end CoverageGap

/-- The report on blocks that were looked at. -/
def CoverageReport.tally (first last : Nat) (looks : List CoverageGap) : CoverageReport where
  first := first
  last := last
  chainBlocks := looks.length
  chainEvents := (looks.map (·.chainEvents)).sum
  mirrorBlocks := looks.countP (·.inMirror)
  mirrorEvents := (looks.map (·.mirrorEvents)).sum
  missing := looks.filter CoverageGap.isMissing
  undercounted := looks.filter CoverageGap.isUnder
  overcounted := looks.filter CoverageGap.isOver

namespace CoverageReport

theorem file_eq (r : CoverageReport) (g : CoverageGap) : r.file g =
    { r with
      missing := r.missing ++ [g].filter CoverageGap.isMissing
      undercounted := r.undercounted ++ [g].filter CoverageGap.isUnder
      overcounted := r.overcounted ++ [g].filter CoverageGap.isOver } := by
  unfold file
  cases hin : g.inMirror with
  | false => simp [CoverageGap.isMissing, CoverageGap.isUnder, CoverageGap.isOver, hin]
  | true =>
      rcases Nat.lt_trichotomy g.mirrorEvents g.chainEvents with hlt | heq | hgt
      · simp [CoverageGap.isMissing, CoverageGap.isUnder, CoverageGap.isOver, hin, hlt,
          Nat.not_lt.mpr (Nat.le_of_lt hlt)]
      · simp [CoverageGap.isMissing, CoverageGap.isUnder, CoverageGap.isOver, hin, heq]
      · simp [CoverageGap.isMissing, CoverageGap.isUnder, CoverageGap.isOver, hin, hgt,
          Nat.not_lt.mpr (Nat.le_of_lt hgt)]

theorem foldl_file (gs : List CoverageGap) : ∀ r : CoverageReport, gs.foldl file r =
    { r with
      missing := r.missing ++ gs.filter CoverageGap.isMissing
      undercounted := r.undercounted ++ gs.filter CoverageGap.isUnder
      overcounted := r.overcounted ++ gs.filter CoverageGap.isOver } := by
  induction gs with
  | nil =>
      intro r
      simp
  | cons g gs ih =>
      intro r
      have hsplit : g :: gs = [g] ++ gs := rfl
      rw [List.foldl_cons, ih, file_eq, hsplit]
      simp only [List.filter_append, List.append_assoc]

/-- One more block. -/
theorem visit_tally (d : Database) (first last : Nat) (looks : List CoverageGap)
    (e : Nat × List RpcEvent) : visit d (tally first last looks) e =
      tally first last (looks ++ [CoverageGap.look d e.1 e.2.length]) := by
  rw [visit, file_eq]
  simp only [tally, List.length_append, List.length_singleton, List.map_append, List.map_singleton,
    List.sum_append, List.sum_singleton, List.countP_append, List.countP_singleton,
    List.filter_append]

theorem foldl_visit (d : Database) (first last : Nat) (active : List (Nat × List RpcEvent)) :
    ∀ looks : List CoverageGap, active.foldl (visit d) (tally first last looks) =
      tally first last (looks ++ active.map fun e => CoverageGap.look d e.1 e.2.length) := by
  induction active with
  | nil =>
      intro looks
      rw [List.foldl_nil, List.map_nil, List.append_nil]
  | cons e active ih =>
      intro looks
      rw [List.foldl_cons, visit_tally, ih, List.append_assoc, List.map_cons,
        List.singleton_append]

theorem isComplete_tally (first last : Nat) (looks : List CoverageGap) :
    (tally first last looks).isComplete = true ↔ ∀ g ∈ looks, g.agrees = true := by
  simp only [isComplete, tally, Bool.and_eq_true, List.isEmpty_iff, List.filter_eq_nil_iff]
  constructor
  · rintro ⟨⟨hmissing, hunder⟩, hover⟩ g hg
    have h₁ := hmissing g hg
    have h₂ := hunder g hg
    have h₃ := hover g hg
    simp only [CoverageGap.isMissing, CoverageGap.isUnder, CoverageGap.isOver,
      CoverageGap.agrees] at *
    cases hin : g.inMirror with
    | false => simp [hin] at h₁
    | true =>
        simp only [hin, Bool.true_and, decide_eq_true_eq] at h₂ h₃
        simp only [Bool.true_and, beq_iff_eq]
        omega
  · intro h
    refine ⟨⟨fun g hg => ?_, fun g hg => ?_⟩, fun g hg => ?_⟩ <;>
    · have hagrees := h g hg
      rw [CoverageGap.agrees, Bool.and_eq_true, beq_iff_eq] at hagrees
      simp [CoverageGap.isMissing, CoverageGap.isUnder, CoverageGap.isOver, hagrees.1, hagrees.2]

theorem count_filter_eq (p : CoverageGap → Bool) (l : List CoverageGap) (g : CoverageGap) :
    (l.filter p).count g = if p g then l.count g else 0 := by
  by_cases hp : p g = true
  · rw [if_pos hp, List.count_filter hp]
  · rw [if_neg hp, List.count_eq_zero]
    exact fun hmem => hp (List.mem_filter.mp hmem).2

/-- What was looked at is the gaps and the agreements. -/
theorem perm_gapped (first last : Nat) (looks : List CoverageGap) :
    looks.Perm ((tally first last looks).gapped ++ looks.filter CoverageGap.agrees) := by
  refine List.perm_iff_count.mpr fun g => ?_
  simp only [gapped, tally, List.count_append, count_filter_eq, CoverageGap.isMissing,
    CoverageGap.isUnder, CoverageGap.isOver, CoverageGap.agrees]
  by_cases hin : g.inMirror = true
  · rcases Nat.lt_trichotomy g.mirrorEvents g.chainEvents with hlt | heq | hgt
    · simp [hin, hlt, Nat.not_lt.mpr (Nat.le_of_lt hlt), Nat.ne_of_lt hlt]
    · simp [hin, heq]
    · simp [hin, hgt, Nat.not_lt.mpr (Nat.le_of_lt hgt), Nat.ne_of_gt hgt]
  · simp [hin]

theorem agrees_not_gap {g : CoverageGap} (h : g.agrees = true) :
    g.isMissing = false ∧ g.isUnder = false ∧ g.isOver = false := by
  rw [CoverageGap.agrees, Bool.and_eq_true, beq_iff_eq] at h
  simp [CoverageGap.isMissing, CoverageGap.isUnder, CoverageGap.isOver, h.1, h.2]

theorem filter_agreed {p : CoverageGap → Bool} (hp : ∀ g, g.agrees = true → p g = false)
    (looks : List CoverageGap) : (looks.filter CoverageGap.agrees).filter p = [] := by
  refine List.filter_eq_nil_iff.mpr fun g hg => ?_
  rw [hp g (List.mem_filter.mp hg).2]
  decide

/-- **The update of a tally** is the tally with the gaps as they are now. -/
theorem refreshedAfterRepair_tally (first last : Nat) (looks : List CoverageGap) (d : Database) :
    (tally first last looks).refreshedAfterRepair d = tally first last
      (((tally first last looks).gapped.map fun g => CoverageGap.look d g.block g.chainEvents) ++
        looks.filter CoverageGap.agrees) := by
  have hperm := perm_gapped first last looks
  generalize hgapped : (tally first last looks).gapped = gaps at hperm
  have hblocks := hperm.countP_eq (·.inMirror)
  have hevents := (hperm.map (·.mirrorEvents)).sum_eq
  have hchain := (hperm.map (·.chainEvents)).sum_eq
  have hlength := hperm.length_eq
  rw [List.countP_append] at hblocks
  rw [List.map_append, List.sum_append] at hevents hchain
  rw [List.length_append] at hlength
  rw [refreshedAfterRepair, hgapped, foldl_file]
  simp only [tally, List.filter_append, List.countP_append, List.map_append, List.sum_append,
    List.length_append, List.length_map, List.map_map, Function.comp_def, CoverageGap.look,
    List.nil_append, filter_agreed fun g h => (agrees_not_gap h).1,
    filter_agreed fun g h => (agrees_not_gap h).2.1,
    filter_agreed fun g h => (agrees_not_gap h).2.2, List.append_nil, mk.injEq, and_true, true_and]
  refine ⟨hlength, hchain, ?_, ?_⟩
  · omega
  · omega

/-- The same report up to the order of its lists. -/
structure Same (r r' : CoverageReport) : Prop where
  first : r.first = r'.first
  last : r.last = r'.last
  chainBlocks : r.chainBlocks = r'.chainBlocks
  chainEvents : r.chainEvents = r'.chainEvents
  mirrorBlocks : r.mirrorBlocks = r'.mirrorBlocks
  mirrorEvents : r.mirrorEvents = r'.mirrorEvents
  missing : r.missing.Perm r'.missing
  undercounted : r.undercounted.Perm r'.undercounted
  overcounted : r.overcounted.Perm r'.overcounted

theorem same_tally (first last : Nat) {looks looks' : List CoverageGap} (h : looks.Perm looks') :
    Same (tally first last looks) (tally first last looks') where
  first := rfl
  last := rfl
  chainBlocks := h.length_eq
  chainEvents := (h.map _).sum_eq
  mirrorBlocks := h.countP_eq _
  mirrorEvents := (h.map _).sum_eq
  missing := h.filter _
  undercounted := h.filter _
  overcounted := h.filter _

end CoverageReport

/-! ## The audit on a chain -/

/-- The blocks of a chain beside a mirror's. -/
def looks (chain : PoolEvents) (d : Database) (first last : Nat) : List CoverageGap :=
  (chain.active first last).map fun e => CoverageGap.look d e.1 e.2.length

theorem auditLoop_eq {rpc : RpcClient} {chunkSize first last : Nat} {chain : PoolEvents}
    (htruthful : Truthful rpc (max chunkSize 1) chain) {segFrom : Nat} {seen : List CoverageGap}
    {report : CoverageReport} {h h' : Host}
    (hrun : auditLoop rpc chunkSize last segFrom (.tally first last seen) h = .ok report h') :
    report = .tally first last (seen ++ looks chain h.database segFrom last) := by
  induction hn : last + 1 - segFrom using Nat.strongRecOn generalizing segFrom seen h with
  | _ n ih =>
      rw [auditLoop] at hrun
      by_cases hle : segFrom ≤ last
      · rw [dif_pos hle] at hrun
        obtain ⟨active, t, hscan, hrun⟩ := Effect.bind_ok.mp hrun
        obtain ⟨d, t', hread, hrun⟩ := Effect.bind_ok.mp hrun
        obtain ⟨rfl, rfl⟩ := EStateM.Result.ok.inj hread
        obtain ⟨-, -, -, k, rfl, -⟩ := scanActiveBlocks_used hscan
        have hend := le_segmentEnd hle
        have hlast : segmentEnd segFrom last ≤ last := min_le_right _ _
        rw [scanActiveBlocks_truthful htruthful hscan, CoverageReport.foldl_visit] at hrun
        rw [ih _ (by omega) hrun rfl, List.append_assoc]
        simp only [looks, ← chain.active_append hend hlast, List.map_append, id_eq]
      · rw [dif_neg hle] at hrun
        obtain ⟨rfl, -⟩ := EStateM.Result.ok.inj hrun
        have hempty : last + 1 - segFrom = 0 := by omega
        rw [looks, PoolEvents.active, hempty, List.range'_zero, List.filterMap_nil, List.map_nil,
          List.append_nil]

/-- **A report of truthful pages** is the tally of the chain's active blocks. -/
theorem auditCoverage_eq {rpc : RpcClient} {chunkSize first last : Nat} {chain : PoolEvents}
    (htruthful : Truthful rpc (max chunkSize 1) chain) {report : CoverageReport} {h h' : Host}
    (hrun : auditCoverage rpc chunkSize first last h = .ok report h') :
    report = .tally first last (looks chain h.database first last) := by
  rw [auditCoverage] at hrun
  have hstart : CoverageReport.start first last = .tally first last [] := rfl
  rw [hstart] at hrun
  split at hrun
  · obtain ⟨rfl, -⟩ := EStateM.Result.ok.inj hrun
    have hempty : last + 1 - first = 0 := by omega
    rw [looks, PoolEvents.active, hempty]
    rfl
  · rw [auditLoop_eq htruthful hrun, List.nil_append]

/-- An endpoint that answers every window whole does not stop an audit. -/
theorem auditLoop_ok {rpc : RpcClient} {chunkSize : Nat}
    (hwhole : ∀ moment low high, ∃ page, rpc.getEvents moment low high (max chunkSize 1) = .ok page ∧
      page.continuationToken = none) (last segFrom : Nat) (r : CoverageReport) (h : Host) :
    ∃ report h', auditLoop rpc chunkSize last segFrom r h = .ok report h' := by
  induction hn : last + 1 - segFrom using Nat.strongRecOn generalizing segFrom r h with
  | _ n ih =>
      rw [auditLoop]
      by_cases hle : segFrom ≤ last
      · rw [dif_pos hle]
        cases hscan : scanActiveBlocks rpc chunkSize segFrom (segmentEnd segFrom last) h with
        | ok active t =>
            rw [Effect.bind_of_ok hscan]
            have hend := le_segmentEnd hle
            exact ih _ (by omega) _ _ _ rfl
        | error e t =>
            obtain ⟨k, m, -, -, -, hcause⟩ := scanActiveBlocks_failed hscan
            rcases hcause with ⟨low, high, herr⟩ | ⟨n, page, -, -, hpage, htoken⟩
            · obtain ⟨page, hpage, -⟩ := hwhole m low high
              rw [hpage] at herr
              cases herr
            · obtain ⟨page', hpage', hnone⟩ := hwhole m n n
              rw [hpage] at hpage'
              cases hpage'
              rw [hnone] at htoken
              cases htoken
      · rw [dif_neg hle]
        exact ⟨r, h, rfl⟩

/-! ## After a repair -/

theorem CoverageReport.mem_repairBlocks {r : CoverageReport} {n : Nat} :
    n ∈ r.repairBlocks ↔ ∃ g ∈ r.gapped, g.block = n := by
  rw [repairBlocks, List.mem_dedup, List.mem_mergeSort, List.mem_map]

theorem CoverageReport.of_mem_gapped {first last : Nat} {looks : List CoverageGap}
    {g : CoverageGap} (h : g ∈ (tally first last looks).gapped) :
    g ∈ looks ∧ g.agrees = false := by
  have hgap : g ∈ looks ∧ (g.isMissing = true ∨ g.isUnder = true ∨ g.isOver = true) := by
    simp only [gapped, tally, List.mem_append, List.mem_filter] at h
    rcases h with (h | h) | h
    · exact ⟨h.1, .inl h.2⟩
    · exact ⟨h.1, .inr (.inl h.2)⟩
    · exact ⟨h.1, .inr (.inr h.2)⟩
  refine ⟨hgap.1, ?_⟩
  by_contra hagrees
  obtain ⟨hmissing, hunder, hover⟩ := agrees_not_gap (Bool.not_eq_false _ ▸ hagrees)
  rcases hgap.2 with h | h | h
  · rw [hmissing] at h
    cases h
  · rw [hunder] at h
    cases h
  · rw [hover] at h
    cases h

/-- Two databases with the same rows for a block look alike there. -/
theorem CoverageGap.look_congr {d d' : Database} {n : Nat} (chainEvents : Nat)
    (hblock : d'.block n = d.block n) (hevents : d'.eventsOfBlock n = d.eventsOfBlock n) :
    look d' n chainEvents = look d n chainEvents := by
  rw [look, look, hblock, hevents]

theorem looks_eq_map (chain : PoolEvents) (d d' : Database) (first last : Nat) :
    looks chain d' first last =
      (looks chain d first last).map fun g => CoverageGap.look d' g.block g.chainEvents := by
  rw [looks, looks, List.map_map]
  rfl

theorem look_of_mem_looks {chain : PoolEvents} {d : Database} {first last : Nat} {g : CoverageGap}
    (h : g ∈ looks chain d first last) : CoverageGap.look d g.block g.chainEvents = g := by
  obtain ⟨e, -, rfl⟩ := List.mem_map.mp h
  rfl

theorem block_le_of_mem_looks {chain : PoolEvents} {d : Database} {first last : Nat}
    {g : CoverageGap} (h : g ∈ looks chain d first last) : g.block ≤ last := by
  obtain ⟨e, he, rfl⟩ := List.mem_map.mp h
  exact (chain.mem_active.mp he).1.2

/-- A block is looked at once. -/
theorem eq_of_mem_looks {chain : PoolEvents} {d : Database} {first last : Nat}
    {g g' : CoverageGap} (h : g ∈ looks chain d first last)
    (h' : g' ∈ looks chain d first last) (hblock : g.block = g'.block) : g = g' := by
  have hnodup : ((looks chain d first last).map (·.block)).Nodup := by
    rw [looks, List.map_map]
    exact chain.nodup_active first last
  exact List.inj_on_of_nodup_map hnodup h h' hblock

/-- Where only gaps have changed, the blocks as they are now are the gaps as they are now and
the blocks that agreed. -/
theorem perm_looks {chain : PoolEvents} {d d' : Database} {first last : Nat}
    (hsame : ∀ n ≤ last,
      n ∉ (CoverageReport.tally first last (looks chain d first last)).repairBlocks →
        d'.block n = d.block n ∧ d'.eventsOfBlock n = d.eventsOfBlock n) :
    (((CoverageReport.tally first last (looks chain d first last)).gapped.map fun g =>
        CoverageGap.look d' g.block g.chainEvents) ++
      (looks chain d first last).filter CoverageGap.agrees).Perm (looks chain d' first last) := by
  have hagreed : ((looks chain d first last).filter CoverageGap.agrees).map
      (fun g => CoverageGap.look d' g.block g.chainEvents) =
        (looks chain d first last).filter CoverageGap.agrees := by
    refine (List.map_congr_left fun g hg => ?_).trans (List.map_id _)
    obtain ⟨hmem, hagrees⟩ := List.mem_filter.mp hg
    have hnot : g.block ∉
        (CoverageReport.tally first last (looks chain d first last)).repairBlocks := by
      intro hrepair
      obtain ⟨g', hg', hblock⟩ := CoverageReport.mem_repairBlocks.mp hrepair
      obtain ⟨hmem', hgap⟩ := CoverageReport.of_mem_gapped hg'
      rw [eq_of_mem_looks hmem' hmem hblock, hagrees] at hgap
      cases hgap
    obtain ⟨hblock, hevents⟩ := hsame g.block (block_le_of_mem_looks hmem) hnot
    rw [CoverageGap.look_congr _ hblock hevents, look_of_mem_looks hmem]
    rfl
  rw [looks_eq_map chain d d', ← hagreed, ← List.map_append]
  exact ((CoverageReport.perm_gapped first last _).map _).symm

/-- **What an audit says.** With truthful pages a report is complete exactly when the mirror
has every block of the range in which the chain has pool events, with as many of them; and
when only blocks it named have changed since, its update is a fresh audit. Blocks without
pool events on the chain are not looked at. -/
theorem auditCoverage_exact {rpc : RpcClient} {chunkSize first last : Nat} {chain : PoolEvents}
    (htruthful : Truthful rpc (max chunkSize 1) chain) {report : CoverageReport} {h h' : Host}
    (hrun : auditCoverage rpc chunkSize first last h = .ok report h') :
    (report.isComplete = true ↔ ∀ n, first ≤ n → n ≤ last → chain.emitted n ≠ [] →
      (h.database.block n).isSome = true ∧
        (h.database.eventsOfBlock n).length = (chain.emitted n).length) ∧
    ∀ (fresh : CoverageReport) (t t' : Host), (∀ n ≤ last, n ∉ report.repairBlocks →
        t.database.block n = h.database.block n ∧
          t.database.eventsOfBlock n = h.database.eventsOfBlock n) →
      auditCoverage rpc chunkSize first last t = .ok fresh t' →
        (report.refreshedAfterRepair t.database).Same fresh := by
  obtain rfl := auditCoverage_eq htruthful hrun
  constructor
  · rw [CoverageReport.isComplete_tally]
    constructor
    · intro hall n hfirst hlast hne
      have hagrees := hall (CoverageGap.look h.database n (chain.emitted n).length)
        (List.mem_map.mpr ⟨(n, chain.emitted n),
          chain.mem_active.mpr ⟨⟨hfirst, hlast⟩, hne, rfl⟩, rfl⟩)
      rw [CoverageGap.agrees, Bool.and_eq_true, beq_iff_eq] at hagrees
      exact hagrees
    · intro hall g hg
      obtain ⟨e, he, rfl⟩ := List.mem_map.mp hg
      obtain ⟨⟨hfirst, hlast⟩, hne, hevents⟩ := chain.mem_active.mp he
      obtain ⟨hblock, hcount⟩ := hall e.1 hfirst hlast hne
      rw [CoverageGap.agrees, Bool.and_eq_true, beq_iff_eq]
      exact ⟨hblock, by rw [hevents]; exact hcount⟩
  · intro fresh t t' hsame hfresh
    rw [auditCoverage_eq htruthful hfresh, CoverageReport.refreshedAfterRepair_tally]
    exact CoverageReport.same_tally first last (perm_looks hsame)

/-- An endpoint that serves the events of a chain, all of a window on one page. -/
def wholeRpc (chain : PoolEvents) : RpcClient where
  getBlock _ _ := .error .blockNotFound
  getStateUpdate _ _ := .error .blockNotFound
  getEvents _ first last _ :=
    .ok ⟨(List.range' first (last + 1 - first)).flatMap chain.emitted, none⟩
  getBlockData _ _ := .ok none
  getStorageProof _ _ := .error .proofUnavailable

theorem wholeRpc_truthful (chain : PoolEvents) (requested : Nat) :
    Truthful (wholeRpc chain) requested chain := by
  intro moment first last page hpage _
  cases hpage
  rfl

theorem auditCoverage_wholeRpc (chain : PoolEvents) {first last : Nat} (hle : first ≤ last)
    (h : Host) : ∃ report h', auditCoverage (wholeRpc chain) 1024 first last h = .ok report h' := by
  rw [auditCoverage, if_neg (Nat.not_lt.mpr hle)]
  exact auditLoop_ok (fun _ _ _ => ⟨_, rfl, rfl⟩) last first _ h

/-- A chain with one pool event, in block 5. -/
def oneEvent : PoolEvents where
  emitted n := if n = 5 then [⟨[], [], some 5, none, "0x1"⟩] else []
  numbered n ev hev := by
    by_cases hn : n = 5
    · rw [if_pos hn] at hev
      rw [List.mem_singleton.mp hev, hn]
    · rw [if_neg hn] at hev
      cases hev

/-- A mirror with the block rows of 5 and 6, and one event in each of some of them. -/
def mirrorWith (eventful : List Nat) : Host :=
  let row (n : Nat) : BlockRow := ⟨n, Fin.ofNat _ n, 0, 0, false⟩
  let d := (Database.new.insertBlock (row 5)).insertBlock (row 6)
  ⟨{ d with events := eventful.foldl (fun t n => t.insert ((n : Int), 0) ⟨0, 0, [], []⟩) d.events },
    Db.opened, 0, 0, []⟩

/-- The event of block 6 is not on the chain, and the audit does not see it. -/
theorem auditCoverage_phantom : ∃ report h',
    Truthful (wholeRpc oneEvent) (max 1024 1) oneEvent ∧
    auditCoverage (wholeRpc oneEvent) 1024 5 6 (mirrorWith [5, 6]) = .ok report h' ∧
    ¬ (report.isComplete = true ↔ ∀ n, 5 ≤ n → n ≤ 6 →
      ((mirrorWith [5, 6]).database.eventsOfBlock n).length = (oneEvent.emitted n).length ∧
        (oneEvent.emitted n ≠ [] → ((mirrorWith [5, 6]).database.block n).isSome = true)) := by
  obtain ⟨report, h', hrun⟩ := auditCoverage_wholeRpc oneEvent (by decide : 5 ≤ 6) (mirrorWith [5, 6])
  refine ⟨report, h', wholeRpc_truthful _ _, hrun, fun hiff => ?_⟩
  rw [auditCoverage_eq (wholeRpc_truthful oneEvent _) hrun] at hiff
  have hcomplete : (CoverageReport.tally 5 6
      (looks oneEvent (mirrorWith [5, 6]).database 5 6)).isComplete = true ∧
      ((mirrorWith [5, 6]).database.eventsOfBlock 6).length ≠ (oneEvent.emitted 6).length := by
    decide +kernel
  exact hcomplete.2 (hiff.mp hcomplete.1 6 (by decide) (by decide)).1

theorem mirrorWith_same : ∀ n ≤ 6, n ∉ [5] →
    (mirrorWith [5, 6]).database.block n = (mirrorWith [6]).database.block n ∧
      (mirrorWith [5, 6]).database.eventsOfBlock n = (mirrorWith [6]).database.eventsOfBlock n := by
  decide +kernel

/-- An event lost from block 5 is reported, and gone from the report when it is back. -/
theorem auditCoverage_exact_repair : ∃ report h' fresh t',
    auditCoverage (wholeRpc oneEvent) 1024 5 6 (mirrorWith [6]) = .ok report h' ∧
    auditCoverage (wholeRpc oneEvent) 1024 5 6 (mirrorWith [5, 6]) = .ok fresh t' ∧
    report.repairBlocks = [5] ∧ report.isComplete = false ∧
    (report.refreshedAfterRepair (mirrorWith [5, 6]).database).Same fresh := by
  obtain ⟨report, h', hrun⟩ := auditCoverage_wholeRpc oneEvent (by decide : 5 ≤ 6) (mirrorWith [6])
  obtain ⟨fresh, t', hfresh⟩ :=
    auditCoverage_wholeRpc oneEvent (by decide : 5 ≤ 6) (mirrorWith [5, 6])
  have hreport := auditCoverage_eq (wholeRpc_truthful oneEvent _) hrun
  have hgap : report.repairBlocks = [5] ∧ report.isComplete = false := by
    rw [hreport]
    decide +kernel
  obtain ⟨-, hrefresh⟩ := auditCoverage_exact (wholeRpc_truthful oneEvent _) hrun
  refine ⟨report, h', fresh, t', hrun, hfresh, hgap.1, hgap.2, ?_⟩
  refine hrefresh fresh (mirrorWith [5, 6]) t' (fun n hn hnot => ?_) hfresh
  rw [hgap.1] at hnot
  exact mirrorWith_same n hn hnot

end Strk20.Indexer
