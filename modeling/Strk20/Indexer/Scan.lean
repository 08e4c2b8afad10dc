import Strk20.Foundation.Lists
import Strk20.Indexer.Rpc

/-!
# The window scan (`scan_active_blocks`)

A range of blocks is asked for window by window, and a page that carries a
continuation token is never used: the window is asked for again, or halved. The
window length follows the density of the last answer. Counters that are only
logged are left out.
-/

namespace Strk20.Indexer

open Feed
open Std (ExtTreeMap)

def MAX_SCAN_WINDOW : Nat := 100000

/-- `saturating_mul` of `u64`. -/
def satMul (a b : Nat) : Nat := min (a * b) (2 ^ 64 - 1)

/-- Next window length: three quarters of a page, as far as the last window
tells. -/
def nextWindowLen (len events pageCap : Nat) : Nat :=
  let ceiling := max (satMul len 8) 1
  let target :=
    if events = 0 then ceiling
    else satMul (satMul len pageCap) 3 / max (satMul events 4) 1
  min (max 1 (min target ceiling)) MAX_SCAN_WINDOW

theorem nextWindowLen_pos (len events pageCap : Nat) : 1 ≤ nextWindowLen len events pageCap := by
  unfold nextWindowLen MAX_SCAN_WINDOW
  simp only
  omega

theorem nextWindowLen_le (len events pageCap : Nat) :
    nextWindowLen len events pageCap ≤ MAX_SCAN_WINDOW := by
  unfold nextWindowLen
  exact min_le_right _ _

/-- Where a scan stands. A window is never empty and never over the largest. -/
structure Scan where
  cursor : Nat
  window : Nat
  pageCap : Nat
  rerequested : Bool
  byBlock : ExtTreeMap Nat (List RpcEvent)
  window_pos : 1 ≤ window
  window_le : window ≤ MAX_SCAN_WINDOW

namespace Scan

/-- The scan of a range, before the first request. -/
def start (first last requested : Nat) : Scan where
  cursor := first
  window := min (max 1 (last - first + 1)) MAX_SCAN_WINDOW
  pageCap := requested
  rerequested := false
  byBlock := ∅
  window_pos := by
    unfold MAX_SCAN_WINDOW
    omega
  window_le := min_le_right _ _

/-- Last block of the window; `last` is a `u64`, so the sum need not saturate
before it is cut off. -/
def stop (s : Scan) (last : Nat) : Nat := min (s.cursor + (s.window - 1)) last

theorem cursor_le_stop (s : Scan) {last : Nat} (h : s.cursor ≤ last) : s.cursor ≤ s.stop last :=
  le_min (Nat.le_add_right _ _) h

theorem stop_le (s : Scan) (last : Nat) : s.stop last ≤ last := min_le_right _ _

/-- The block of an event that a window takes; pre-confirmed events have none. -/
def blockIn (first last : Nat) (ev : RpcEvent) : Option Nat :=
  match ev.blockNumber with
  | none => none
  | some n => if n < first ∨ last < n then none else some n

/-- `by_block.entry(bn).or_default().push(ev)`. -/
def push (t : ExtTreeMap Nat (List RpcEvent)) (n : Nat) (ev : RpcEvent) :
    ExtTreeMap Nat (List RpcEvent) :=
  t.insert n ((t[n]?).getD [] ++ [ev])

def collect (first last : Nat) (t : ExtTreeMap Nat (List RpcEvent)) (events : List RpcEvent) :
    ExtTreeMap Nat (List RpcEvent) :=
  events.foldl (fun t ev =>
    match blockIn first last ev with
    | some n => push t n ev
    | none => t) t

end Scan

/-- Two endpoint defects, two remedies. -/
def irreducibleMessage (cursor served requested : Nat) (full : Bool) : String :=
  "block " ++ cursor.repr ++ ": this endpoint answered a ONE-BLOCK window with a " ++
    "continuation token (" ++ served.repr ++ " events returned for a requested chunk_size of " ++
    requested.repr ++ "), so no single-page request can cover this block and the window is " ++
    "IRREDUCIBLE. Following the token is unsound — it is node-local state and an aggregator's " ++
    "next backend resumes elsewhere, silently (LIVE-8) — and keeping the first page would " ++
    "truncate the block. " ++
    (if full then
      "the page was filled to the endpoint's own limit, which is below this block's event " ++
        "count. Raise --chunk-size, or use an endpoint whose page limit is at least this " ++
        "block's event count."
    else
      "the page was NOT full and a re-request did not help, so this endpoint bounds getEvents " ++
        "by something other than event count and cannot answer a one-block window in one page " ++
        "at all. It must be replaced, not tuned.")

inductive Round where
  | again (s : Scan)
  | irreducible (message : String)

/-- What one answered request does to the scan. -/
def Scan.round (last requested : Nat) (s : Scan) (hcursor : s.cursor ≤ last) (page : EventsPage) :
    Round :=
  let served := page.events.length
  let full := decide (requested ≤ served)
  if page.continuationToken.isSome then
    if !full && !s.rerequested then .again { s with rerequested := true }
    else if h : s.stop last = s.cursor then
      .irreducible (irreducibleMessage s.cursor served requested full)
    else
      .again
        { s with
          window := (s.stop last - s.cursor + 1) / 2
          pageCap := if full then min s.pageCap (max served 1) else s.pageCap
          rerequested := false
          window_pos := by
            have hle := s.cursor_le_stop hcursor
            omega
          window_le := by
            have hle := s.window_le
            have hstop : s.stop last ≤ s.cursor + (s.window - 1) := min_le_left _ _
            omega }
  else
    .again
      { cursor := s.stop last + 1
        window := nextWindowLen (s.stop last - s.cursor + 1)
          (page.events.filterMap (Scan.blockIn s.cursor (s.stop last))).length s.pageCap
        pageCap := s.pageCap
        rerequested := false
        byBlock := Scan.collect s.cursor (s.stop last) s.byBlock page.events
        window_pos := nextWindowLen_pos _ _ _
        window_le := nextWindowLen_le _ _ _ }

/-- What is left to do: blocks, then the window, then the second request. -/
def Scan.left (last : Nat) (s : Scan) : Nat :=
  (last + 1 - s.cursor) * (2 * MAX_SCAN_WINDOW + 2) + 2 * s.window +
    (if s.rerequested then 0 else 1)

section

variable (rpc : RpcClient)

/-- The loop; `none` is fuel that did not last. -/
def scanLoop (last requested : Nat) : Nat → Scan → Indexing (Option (List (Nat × List RpcEvent)))
  | 0, _ => pure none
  | fuel + 1, s =>
      if h : s.cursor ≤ last then do
        let page ← ask fun t => rpc.getEvents t s.cursor (s.stop last) requested
        match s.round last requested h page with
        | .again next => scanLoop last requested fuel next
        | .irreducible message => throw (.other message)
      else pure (some s.byBlock.toList)

/-- `scan_active_blocks`: the fuel is what is left to do, which lasts. -/
def scanActiveBlocks (chunkSize first last : Nat) : Indexing (List (Nat × List RpcEvent)) := do
  let requested := max chunkSize 1
  let s := Scan.start first last requested
  match ← scanLoop rpc last requested (s.left last + 1) s with
  | some active => pure active
  | none => throw (.other "scan did not end")

end

/-! ## The scan ends -/

/-- Every round leaves less to do. -/
theorem Scan.round_left {last requested : Nat} {s next : Scan} {h : s.cursor ≤ last}
    {page : EventsPage} (hround : s.round last requested h page = .again next) :
    next.left last < s.left last := by
  have hstop := s.cursor_le_stop h
  have hlast := s.stop_le last
  have hwindow : s.stop last ≤ s.cursor + (s.window - 1) := min_le_left _ _
  have hpos := s.window_pos
  unfold Scan.round at hround
  simp only at hround
  split at hround
  · split at hround
    · -- the same window once more
      rename_i hagain
      obtain rfl := Round.again.inj hround
      have hfirst : s.rerequested = false := by
        cases hr : s.rerequested
        · rfl
        · simp [hr] at hagain
      unfold Scan.left
      simp only [hfirst]
      simp
    · split at hround
      · cases hround
      · -- a shorter window
        obtain rfl := Round.again.inj hround
        unfold Scan.left
        simp only
        split <;> omega
  · -- the window is done
    obtain rfl := Round.again.inj hround
    have hnext := nextWindowLen_le (s.stop last - s.cursor + 1)
      (page.events.filterMap (Scan.blockIn s.cursor (s.stop last))).length s.pageCap
    have hmul : (last + 1 - (s.stop last + 1)) * (2 * MAX_SCAN_WINDOW + 2) +
        (2 * MAX_SCAN_WINDOW + 2) ≤ (last + 1 - s.cursor) * (2 * MAX_SCAN_WINDOW + 2) := by
      rw [← Nat.succ_mul]
      exact Nat.mul_le_mul_right _ (by omega)
    unfold Scan.left
    simp only [Bool.false_eq_true, if_false]
    omega

/-- The two ways out of a round. -/
theorem scanLoop_succ (rpc : RpcClient) {last requested fuel : Nat} {s : Scan} {h : Host}
    (hcursor : s.cursor ≤ last) {page : EventsPage}
    (hpage : rpc.getEvents h.moment s.cursor (s.stop last) requested = .ok page) :
    scanLoop rpc last requested (fuel + 1) s h =
      match s.round last requested hcursor page with
      | .again next => scanLoop rpc last requested fuel next h.tick
      | .irreducible message => .error (.other message) h.tick := by
  have hask : ask (fun t => rpc.getEvents t s.cursor (s.stop last) requested) h =
      .ok page h.tick := ask_ok.mpr ⟨hpage, rfl⟩
  rw [scanLoop, dif_pos hcursor, Effect.bind_of_ok hask]
  cases s.round last requested hcursor page with
  | again next => rfl
  | irreducible message => rfl

theorem scanLoop_refused (rpc : RpcClient) {last requested fuel : Nat} {s : Scan} {h : Host}
    (hcursor : s.cursor ≤ last) {e : Failure}
    (hpage : rpc.getEvents h.moment s.cursor (s.stop last) requested = .error e) :
    scanLoop rpc last requested (fuel + 1) s h = .error e h.tick := by
  have hask : ask (fun t => rpc.getEvents t s.cursor (s.stop last) requested) h =
      .error e h.tick := ask_error.mpr ⟨hpage, rfl⟩
  rw [scanLoop, dif_pos hcursor, Effect.bind_of_error hask]

theorem scanLoop_done (rpc : RpcClient) {last requested fuel : Nat} {s : Scan} {h : Host}
    (hcursor : ¬ s.cursor ≤ last) :
    scanLoop rpc last requested (fuel + 1) s h = .ok (some s.byBlock.toList) h := by
  rw [scanLoop, dif_neg hcursor]
  rfl

/-- Fuel past what is left to do never runs out. -/
theorem scanLoop_ends (rpc : RpcClient) (last requested : Nat) (fuel : Nat) (s : Scan) (h h' : Host)
    (hfuel : s.left last < fuel) : scanLoop rpc last requested fuel s h ≠ .ok none h' := by
  induction fuel generalizing s h with
  | zero => omega
  | succ fuel ih =>
      by_cases hcursor : s.cursor ≤ last
      · cases hpage : rpc.getEvents h.moment s.cursor (s.stop last) requested with
        | error e =>
            rw [scanLoop_refused rpc hcursor hpage]
            simp
        | ok page =>
            rw [scanLoop_succ rpc hcursor hpage]
            cases hround : s.round last requested hcursor page with
            | irreducible message => simp
            | again next =>
                have hless := Scan.round_left hround
                exact ih next h.tick (by omega)
      · rw [scanLoop_done rpc hcursor]
        simp

/-! ## What a scan has used -/

/-- A window answered in one page. -/
structure Window where
  moment : Nat
  first : Nat
  last : Nat
  page : EventsPage

/-- Windows that tile a range from `cursor` on, each answered without a token. -/
def Tiles (rpc : RpcClient) (last requested : Nat) : Nat → List Window → Prop
  | cursor, [] => last < cursor
  | cursor, w :: ws =>
      w.first = cursor ∧ cursor ≤ w.last ∧ w.last ≤ last ∧
        rpc.getEvents w.moment w.first w.last requested = .ok w.page ∧
        w.page.continuationToken = none ∧ Tiles rpc last requested (w.last + 1) ws

/-- The events of answered windows, by block. -/
def gather (t : ExtTreeMap Nat (List RpcEvent)) (ws : List Window) :
    ExtTreeMap Nat (List RpcEvent) :=
  ws.foldl (fun t w => Scan.collect w.first w.last t w.page.events) t

/-- A round either keeps the blocks and the cursor, or takes one window whole. -/
theorem Scan.round_cases {last requested : Nat} {s next : Scan} {h : s.cursor ≤ last}
    {page : EventsPage} (hround : s.round last requested h page = .again next) :
    (page.continuationToken.isSome ∧ next.cursor = s.cursor ∧ next.byBlock = s.byBlock) ∨
      (page.continuationToken = none ∧ next.cursor = s.stop last + 1 ∧
        next.byBlock = Scan.collect s.cursor (s.stop last) s.byBlock page.events) := by
  unfold Scan.round at hround
  simp only at hround
  split at hround
  · rename_i htoken
    left
    split at hround
    · obtain rfl := Round.again.inj hround
      exact ⟨htoken, rfl, rfl⟩
    · split at hround
      · cases hround
      · obtain rfl := Round.again.inj hround
        exact ⟨htoken, rfl, rfl⟩
  · rename_i htoken
    right
    obtain rfl := Round.again.inj hround
    exact ⟨Option.not_isSome_iff_eq_none.mp htoken, rfl, rfl⟩

/-- A scan that returns has used windows without a token, and nothing else. -/
theorem scanLoop_used (rpc : RpcClient) (last requested : Nat) (fuel : Nat) (s : Scan) (h h' : Host)
    {active : List (Nat × List RpcEvent)}
    (hrun : scanLoop rpc last requested fuel s h = .ok (some active) h') :
    ∃ ws, Tiles rpc last requested s.cursor ws ∧ active = (gather s.byBlock ws).toList ∧
      ∃ k, h' = { h with moment := h.moment + k } ∧
        ∀ w ∈ ws, h.moment ≤ w.moment ∧ w.moment < h.moment + k := by
  induction fuel generalizing s h with
  | zero =>
      rw [scanLoop] at hrun
      cases hrun
  | succ fuel ih =>
      by_cases hcursor : s.cursor ≤ last
      · cases hpage : rpc.getEvents h.moment s.cursor (s.stop last) requested with
        | error e =>
            rw [scanLoop_refused rpc hcursor hpage] at hrun
            cases hrun
        | ok page =>
            rw [scanLoop_succ rpc hcursor hpage] at hrun
            cases hround : s.round last requested hcursor page with
            | irreducible message =>
                rw [hround] at hrun
                cases hrun
            | again next =>
                rw [hround] at hrun
                obtain ⟨ws, htiles, hactive, k, hh', hmoments⟩ := ih next h.tick hrun
                have hend : h' = { h with moment := h.moment + (k + 1) } := by
                  rw [hh', Host.tick, Nat.add_right_comm, Nat.add_assoc]
                have hlater : ∀ w ∈ ws, h.moment ≤ w.moment ∧ w.moment < h.moment + (k + 1) := by
                  intro w hw
                  obtain ⟨hlow, hhigh⟩ := hmoments w hw
                  rw [Host.tick] at hlow hhigh
                  simp only at hlow hhigh
                  omega
                rcases Scan.round_cases hround with ⟨-, hcur, hby⟩ | ⟨htoken, hcur, hby⟩
                · rw [hcur] at htiles
                  rw [hby] at hactive
                  exact ⟨ws, htiles, hactive, k + 1, hend, hlater⟩
                · rw [hcur] at htiles
                  rw [hby] at hactive
                  refine ⟨⟨h.moment, s.cursor, s.stop last, page⟩ :: ws,
                    ⟨rfl, s.cursor_le_stop hcursor, s.stop_le last, hpage, htoken, htiles⟩,
                    hactive, k + 1, hend, ?_⟩
                  intro w hw
                  rcases List.mem_cons.mp hw with rfl | hw
                  · exact ⟨le_refl _, by simp only; omega⟩
                  · exact hlater w hw
      · rw [scanLoop_done rpc hcursor] at hrun
        obtain ⟨hactive, rfl⟩ := EStateM.Result.ok.inj hrun
        refine ⟨[], by simpa [Tiles] using hcursor, (Option.some.inj hactive).symm, 0, rfl, ?_⟩
        simp

/-- A scan fails on an endpoint error, or on a one-block window with a token. -/
theorem scanLoop_failed (rpc : RpcClient) (last requested : Nat) (fuel : Nat) (s : Scan)
    (h h' : Host) {e : Failure} (hrun : scanLoop rpc last requested fuel s h = .error e h') :
    ∃ k m, h' = { h with moment := h.moment + k } ∧ h.moment ≤ m ∧ m < h.moment + k ∧
      ((∃ first stop, rpc.getEvents m first stop requested = .error e) ∨
        ∃ n page, s.cursor ≤ n ∧ n ≤ last ∧ rpc.getEvents m n n requested = .ok page ∧
          page.continuationToken.isSome) := by
  induction fuel generalizing s h with
  | zero =>
      rw [scanLoop] at hrun
      cases hrun
  | succ fuel ih =>
      by_cases hcursor : s.cursor ≤ last
      · cases hpage : rpc.getEvents h.moment s.cursor (s.stop last) requested with
        | error e' =>
            rw [scanLoop_refused rpc hcursor hpage] at hrun
            obtain ⟨rfl, rfl⟩ := EStateM.Result.error.inj hrun
            exact ⟨1, h.moment, rfl, le_refl _, by omega, .inl ⟨_, _, hpage⟩⟩
        | ok page =>
            rw [scanLoop_succ rpc hcursor hpage] at hrun
            cases hround : s.round last requested hcursor page with
            -- a window of one block that still has more
            | irreducible message =>
                rw [hround] at hrun
                obtain ⟨-, rfl⟩ := EStateM.Result.error.inj hrun
                unfold Scan.round at hround
                simp only at hround
                split at hround
                · rename_i htoken
                  split at hround
                  · cases hround
                  · split at hround
                    · rename_i hone
                      rw [hone] at hpage
                      exact ⟨1, h.moment, rfl, le_refl _, by omega,
                        .inr ⟨s.cursor, page, le_refl _, hcursor, hpage, htoken⟩⟩
                    · cases hround
                · cases hround
            | again next =>
                rw [hround] at hrun
                obtain ⟨k, m, hh', hlow, hhigh, hcause⟩ := ih next h.tick hrun
                rw [Host.tick] at hlow hhigh
                simp only at hlow hhigh
                have hadvance : s.cursor ≤ next.cursor := by
                  have hstop := s.cursor_le_stop hcursor
                  rcases Scan.round_cases hround with ⟨-, hcur, -⟩ | ⟨-, hcur, -⟩
                  · omega
                  · omega
                refine ⟨k + 1, m, ?_, by omega, by omega, ?_⟩
                · rw [hh', Host.tick, Nat.add_right_comm, Nat.add_assoc]
                · rcases hcause with herr | ⟨n, page', hn, hlast, hanswer⟩
                  · exact .inl herr
                  · exact .inr ⟨n, page', by omega, hlast, hanswer⟩
      · rw [scanLoop_done rpc hcursor] at hrun
        cases hrun

/-! ## Events by block -/

/-- A table that lists what `f` gives each block, and no block without. -/
def Groups (t : ExtTreeMap Nat (List RpcEvent)) (f : Nat → List RpcEvent) : Prop :=
  ∀ n, t[n]? = if f n = [] then none else some (f n)

theorem Groups.getD {t : ExtTreeMap Nat (List RpcEvent)} {f : Nat → List RpcEvent}
    (h : Groups t f) (n : Nat) : (t[n]?).getD [] = f n := by
  rw [h n]
  by_cases hf : f n = []
  · rw [if_pos hf, hf]
    rfl
  · rw [if_neg hf]
    rfl

theorem Groups.collect {t : ExtTreeMap Nat (List RpcEvent)} {f : Nat → List RpcEvent}
    (first last : Nat) (events : List RpcEvent) (h : Groups t f) :
    Groups (Scan.collect first last t events) fun n =>
      f n ++ events.filter fun ev => Scan.blockIn first last ev = some n := by
  induction events generalizing t f with
  | nil =>
      intro n
      simpa [Scan.collect] using h n
  | cons ev events ih =>
      unfold Scan.collect at ih ⊢
      rw [List.foldl_cons]
      cases hblock : Scan.blockIn first last ev with
      | none =>
          have hskip := ih h
          intro n
          simpa [hblock] using hskip n
      | some m =>
          have hpush : Groups (Scan.push t m ev) fun n => if n = m then f n ++ [ev] else f n := by
            intro n
            unfold Scan.push
            rw [Tables.getElem?_insert_eq, h.getD]
            by_cases hn : n = m
            · subst hn
              simp
            · simp only [if_neg hn]
              exact h n
          have hrest := ih hpush
          intro n
          rw [hrest n]
          by_cases hn : n = m
          · subst hn
            simp [hblock]
          · have hother : ¬ m = n := fun heq => hn heq.symm
            simp [hblock, hn, hother]

/-- Events of answered windows that belong to a block. -/
def eventsOf (ws : List Window) (n : Nat) : List RpcEvent :=
  ws.flatMap fun w => w.page.events.filter fun ev => Scan.blockIn w.first w.last ev = some n

theorem groups_gather (ws : List Window) {t : ExtTreeMap Nat (List RpcEvent)}
    {f : Nat → List RpcEvent} (h : Groups t f) :
    Groups (gather t ws) fun n => f n ++ eventsOf ws n := by
  induction ws generalizing t f with
  | nil =>
      intro n
      simpa [gather, eventsOf] using h n
  | cons w ws ih =>
      have hrest := ih (h.collect w.first w.last w.page.events)
      intro n
      have hn := hrest n
      simp only [List.append_assoc] at hn
      exact hn

theorem groups_empty : Groups ∅ fun _ => [] := by
  intro n
  simp

/-- The listing of a table whose blocks lie in a range. -/
theorem Groups.toList_eq {t : ExtTreeMap Nat (List RpcEvent)} {f : Nat → List RpcEvent}
    (h : Groups t f) {first count : Nat}
    (hrange : ∀ n, f n ≠ [] → first ≤ n ∧ n < first + count) :
    t.toList = (List.range' first count).filterMap fun n =>
      if f n = [] then none else some (n, f n) := by
  refine Lists.eq_of_ascending Prod.fst ?_ ?_ fun e => ?_
  · exact ExtTreeMap.ordered_keys_toList.imp fun {a b} hlt => compare_lt_iff_lt.mp hlt
  · have hasc : (List.range' first count).Pairwise (· < ·) := List.pairwise_lt_range'
    rw [List.pairwise_filterMap]
    refine hasc.imp fun {a b} hlt x hx y hy => ?_
    split at hx
    · cases hx
    · split at hy
      · cases hy
      · obtain rfl := Option.some.inj hx
        obtain rfl := Option.some.inj hy
        exact hlt
  · rw [ExtTreeMap.mem_toList_iff_getElem?_eq_some (k := e.1) (v := e.2), h e.1,
      List.mem_filterMap]
    constructor
    · intro he
      by_cases hf : f e.1 = []
      · rw [if_pos hf] at he
        cases he
      · rw [if_neg hf] at he
        obtain ⟨hlow, hhigh⟩ := hrange e.1 hf
        refine ⟨e.1, List.mem_range'_1.mpr ⟨hlow, hhigh⟩, ?_⟩
        rw [if_neg hf, Option.some.inj he]
    · rintro ⟨n, -, hn⟩
      by_cases hf : f n = []
      · rw [if_pos hf] at hn
        cases hn
      · rw [if_neg hf] at hn
        obtain rfl := Option.some.inj hn
        rw [if_neg hf]

/-! ## Truthful pages -/

/-- The pool's events on a chain, in emission order. -/
structure PoolEvents where
  emitted : Nat → List RpcEvent
  numbered : ∀ n, ∀ ev ∈ emitted n, ev.blockNumber = some n

/-- A page without a token holds the events of the whole window. -/
def Truthful (rpc : RpcClient) (requested : Nat) (chain : PoolEvents) : Prop :=
  ∀ moment first last page, rpc.getEvents moment first last requested = .ok page →
    page.continuationToken = none →
      page.events = (List.range' first (last + 1 - first)).flatMap chain.emitted

/-- The pool events of a range, grouped by block. -/
def PoolEvents.active (chain : PoolEvents) (first last : Nat) : List (Nat × List RpcEvent) :=
  (List.range' first (last + 1 - first)).filterMap fun n =>
    if chain.emitted n = [] then none else some (n, chain.emitted n)

theorem PoolEvents.filter_emitted (chain : PoolEvents) {first last n m : Nat}
    (hm : first ≤ m ∧ m ≤ last) :
    ((chain.emitted m).filter fun ev => Scan.blockIn first last ev = some n) =
      if m = n then chain.emitted m else [] := by
  have hblock : ∀ ev ∈ chain.emitted m, Scan.blockIn first last ev = some m := by
    intro ev hev
    unfold Scan.blockIn
    rw [chain.numbered m ev hev]
    simp only
    rw [if_neg (by omega)]
  by_cases hn : m = n
  · subst hn
    rw [if_pos rfl, List.filter_eq_self]
    intro ev hev
    exact decide_eq_true (hblock ev hev)
  · rw [if_neg hn, List.filter_eq_nil_iff]
    intro ev hev hsome
    rw [hblock ev hev] at hsome
    exact hn (Option.some.inj (of_decide_eq_true hsome))

/-- Of a list of blocks of the window, only the block itself contributes. -/
theorem PoolEvents.filter_flatMap (chain : PoolEvents) {first last n : Nat} {blocks : List Nat}
    (hnodup : blocks.Nodup) (hblocks : ∀ m ∈ blocks, first ≤ m ∧ m ≤ last) :
    ((blocks.flatMap chain.emitted).filter fun ev => Scan.blockIn first last ev = some n) =
      if n ∈ blocks then chain.emitted n else [] := by
  induction blocks with
  | nil => simp
  | cons m blocks ih =>
      obtain ⟨hm, hrest⟩ := List.forall_mem_cons.mp hblocks
      obtain ⟨hnotin, hnodup'⟩ := List.nodup_cons.mp hnodup
      rw [List.flatMap_cons, List.filter_append, chain.filter_emitted hm, ih hnodup' hrest]
      by_cases hn : m = n
      · subst hn
        simp [hnotin]
      · have hother : ¬ n = m := fun heq => hn heq.symm
        simp [hn, hother]

/-- Tiled truthful windows hold every event of the range once. -/
theorem eventsOf_tiles {rpc : RpcClient} {last requested : Nat} {chain : PoolEvents}
    (htruthful : Truthful rpc requested chain) {ws : List Window} {cursor : Nat}
    (htiles : Tiles rpc last requested cursor ws) (n : Nat) :
    eventsOf ws n = if cursor ≤ n ∧ n ≤ last then chain.emitted n else [] := by
  induction ws generalizing cursor with
  | nil =>
      have hempty : last < cursor := htiles
      rw [if_neg (by omega)]
      rfl
  | cons w ws ih =>
      obtain ⟨rfl, hle, hlast, hanswer, htoken, hrest⟩ := htiles
      have hpage := htruthful w.moment w.first w.last w.page hanswer htoken
      have hwindow : (w.page.events.filter fun ev => Scan.blockIn w.first w.last ev = some n) =
          if w.first ≤ n ∧ n ≤ w.last then chain.emitted n else [] := by
        rw [hpage, chain.filter_flatMap List.nodup_range' (by
          intro m hm
          have := List.mem_range'_1.mp hm
          omega)]
        simp only [List.mem_range'_1]
        by_cases hn : w.first ≤ n ∧ n ≤ w.last
        · rw [if_pos hn, if_pos (by omega)]
        · rw [if_neg hn, if_neg (by omega)]
      show (w.page.events.filter fun ev => Scan.blockIn w.first w.last ev = some n) ++
        eventsOf ws n = _
      rw [hwindow, ih hrest]
      by_cases hn : w.first ≤ n ∧ n ≤ last
      · rw [if_pos hn]
        by_cases hsplit : n ≤ w.last
        · rw [if_pos ⟨hn.1, hsplit⟩, if_neg (by omega), List.append_nil]
        · rw [if_neg (by omega), if_pos (by omega), List.nil_append]
      · rw [if_neg hn, if_neg (by omega), if_neg (by omega)]
        rfl

namespace PoolEvents

/-- A range in two parts. -/
theorem active_append (chain : PoolEvents) {first mid last : Nat} (h : first ≤ mid)
    (h' : mid ≤ last) :
    chain.active first mid ++ chain.active (mid + 1) last = chain.active first last := by
  unfold active
  rw [← List.filterMap_append]
  congr 1
  have hstart : mid + 1 = first + (mid + 1 - first) := by omega
  have hlen : last + 1 - first = (mid + 1 - first) + (last + 1 - (mid + 1)) := by omega
  rw [hlen, ← List.range'_append_1, ← hstart]

theorem mem_active (chain : PoolEvents) {first last : Nat} {e : Nat × List RpcEvent} :
    e ∈ chain.active first last ↔ (first ≤ e.1 ∧ e.1 ≤ last) ∧ chain.emitted e.1 ≠ [] ∧
      e.2 = chain.emitted e.1 := by
  rw [active, List.mem_filterMap]
  constructor
  · rintro ⟨n, hn, he⟩
    have hrange := List.mem_range'_1.mp hn
    by_cases hempty : chain.emitted n = []
    · rw [if_pos hempty] at he
      cases he
    · rw [if_neg hempty] at he
      cases he
      exact ⟨by dsimp only; omega, hempty, rfl⟩
  · rintro ⟨hrange, hne, he⟩
    refine ⟨e.1, List.mem_range'_1.mpr (by omega), ?_⟩
    rw [if_neg hne, ← he]

/-- A block is in the list once. -/
theorem nodup_active (chain : PoolEvents) (first last : Nat) :
    ((chain.active first last).map Prod.fst).Nodup := by
  have hsub : ((chain.active first last).map Prod.fst).Sublist
      (List.range' first (last + 1 - first)) := by
    unfold active
    induction List.range' first (last + 1 - first) with
    | nil => exact List.Sublist.refl _
    | cons n ns ih =>
        rw [List.filterMap_cons]
        by_cases hempty : chain.emitted n = []
        · simp only [if_pos hempty]
          exact ih.cons n
        · simp only [if_neg hempty, List.map_cons]
          exact ih.cons_cons n
  exact hsub.nodup List.nodup_range'

end PoolEvents

/-! ## The whole scan -/

/-- What a scan returns, in terms of the windows it has used. -/
theorem scanActiveBlocks_used {rpc : RpcClient} {chunkSize first last : Nat} {h h' : Host}
    {active : List (Nat × List RpcEvent)}
    (hrun : scanActiveBlocks rpc chunkSize first last h = .ok active h') :
    ∃ ws, Tiles rpc last (max chunkSize 1) first ws ∧ active = (gather ∅ ws).toList ∧
      ∃ k, h' = { h with moment := h.moment + k } ∧
        ∀ w ∈ ws, h.moment ≤ w.moment ∧ w.moment < h.moment + k := by
  obtain ⟨result, t, hloop, hrest⟩ := Effect.bind_ok.mp hrun
  cases result with
  | none => cases hrest
  | some found =>
      obtain ⟨rfl, rfl⟩ := EStateM.Result.ok.inj hrest
      exact scanLoop_used rpc last (max chunkSize 1) _ _ h t hloop

theorem scanActiveBlocks_failed {rpc : RpcClient} {chunkSize first last : Nat} {h h' : Host}
    {e : Failure} (hrun : scanActiveBlocks rpc chunkSize first last h = .error e h') :
    ∃ k m, h' = { h with moment := h.moment + k } ∧ h.moment ≤ m ∧ m < h.moment + k ∧
      ((∃ low high, rpc.getEvents m low high (max chunkSize 1) = .error e) ∨
        ∃ n page, first ≤ n ∧ n ≤ last ∧ rpc.getEvents m n n (max chunkSize 1) = .ok page ∧
          page.continuationToken.isSome) := by
  rcases Effect.bind_error.mp hrun with hloop | ⟨result, t, hloop, hrest⟩
  · exact scanLoop_failed rpc last (max chunkSize 1) _ _ h h' hloop
  · cases result with
    | none => exact absurd hloop (scanLoop_ends rpc last _ _ _ h t (Nat.lt_succ_self _))
    | some found => cases hrest

theorem scanActiveBlocks_truthful {rpc : RpcClient} {chunkSize first last : Nat} {h h' : Host}
    {active : List (Nat × List RpcEvent)} {chain : PoolEvents}
    (htruthful : Truthful rpc (max chunkSize 1) chain)
    (hrun : scanActiveBlocks rpc chunkSize first last h = .ok active h') :
    active = chain.active first last := by
  obtain ⟨ws, htiles, rfl, -⟩ := scanActiveBlocks_used hrun
  have hgroups := groups_gather ws groups_empty
  simp only [List.nil_append, eventsOf_tiles htruthful htiles] at hgroups
  have hrange : ∀ n, (if first ≤ n ∧ n ≤ last then chain.emitted n else []) ≠ [] →
      first ≤ n ∧ n < first + (last + 1 - first) := by
    intro n hne
    by_cases hn : first ≤ n ∧ n ≤ last
    · omega
    · rw [if_neg hn] at hne
      exact absurd rfl hne
  rw [hgroups.toList_eq hrange]
  unfold PoolEvents.active
  refine List.filterMap_congr fun n hn => ?_
  have hmem := List.mem_range'_1.mp hn
  have hin : first ≤ n ∧ n ≤ last := by omega
  simp only [if_pos hin]

/-- **Completeness and termination of the window scan.** Whatever the endpoint
answers, the loop ends, and what it returns is gathered from windows that tile
the range, each answered in one page without a token. When such pages are
truthful, the result is the pool's events of the range. Without endpoint errors
it fails only on a one-block window that came with a token. -/
theorem scanActiveBlocks_complete (rpc : RpcClient) (chunkSize first last : Nat) (h : Host) :
    (∀ fuel h', (Scan.start first last (max chunkSize 1)).left last < fuel →
      scanLoop rpc last (max chunkSize 1) fuel (Scan.start first last (max chunkSize 1)) h ≠
        .ok none h') ∧
    (∀ active h', scanActiveBlocks rpc chunkSize first last h = .ok active h' →
      (∃ ws, Tiles rpc last (max chunkSize 1) first ws ∧ active = (gather ∅ ws).toList ∧
        ∀ w ∈ ws, h.moment ≤ w.moment ∧ w.moment < h'.moment) ∧
      ∀ chain : PoolEvents, Truthful rpc (max chunkSize 1) chain →
        active = chain.active first last) ∧
    ((∀ moment low high, ∃ page, rpc.getEvents moment low high (max chunkSize 1) = .ok page) →
      ∀ e h', scanActiveBlocks rpc chunkSize first last h = .error e h' →
        ∃ moment n page, h.moment ≤ moment ∧ moment < h'.moment ∧ first ≤ n ∧ n ≤ last ∧
          rpc.getEvents moment n n (max chunkSize 1) = .ok page ∧
            page.continuationToken.isSome) := by
  refine ⟨fun fuel h' hfuel => scanLoop_ends rpc last _ fuel _ h h' hfuel, ?_, ?_⟩
  · intro active h' hrun
    constructor
    · obtain ⟨ws, htiles, hactive, k, rfl, hmoments⟩ := scanActiveBlocks_used hrun
      exact ⟨ws, htiles, hactive, hmoments⟩
    · intro chain htruthful
      exact scanActiveBlocks_truthful htruthful hrun
  · intro hanswers e h' hrun
    obtain ⟨k, m, rfl, hlow, hhigh, hcause⟩ := scanActiveBlocks_failed hrun
    rcases hcause with ⟨low, high, herr⟩ | ⟨n, page, hn, hlast, hpage, htoken⟩
    · obtain ⟨page, hpage⟩ := hanswers m low high
      rw [hpage] at herr
      cases herr
    · exact ⟨m, n, page, hlow, hhigh, hn, hlast, hpage, htoken⟩

/-- An endpoint that serves one event a page: windows are halved down to
single blocks. -/
def crampedRpc : RpcClient where
  getBlock _ _ := .error .blockNotFound
  getStateUpdate _ _ := .error .blockNotFound
  getEvents _ first last _ :=
    .ok ⟨[⟨[], [], some first, none, "0x1"⟩], if first < last then some "next" else none⟩
  getBlockData _ _ := .ok none
  getStorageProof _ _ := .error .proofUnavailable

example : (match scanActiveBlocks crampedRpc 1 5 8 ⟨Database.new, Db.opened, 0, 0, []⟩ with
    | .ok active _ => active.map fun e => (e.1, e.2.length)
    | .error _ _ => []) = [(5, 1), (6, 1), (7, 1), (8, 1)] := by decide +kernel

end Strk20.Indexer
