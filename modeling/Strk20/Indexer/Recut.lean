import Strk20.Indexer.Cutter

/-!
# Re-cut of published epochs (`recut_epochs_from`)

A re-cut rewrites every epoch from the first stale one up, each as its file, its
row and the manifest. It reads tables that it does not write, so it is the list of
its writes, one round for each rewritten epoch; a crash is a prefix of the list.

- `recutLoop_stale`, `recutLoop_current`: what the loop does, in two phases.
- `recut_guard`: an accepted re-cut leaves every epoch as it rebuilds, a refused
  one leaves everything as it was.
-/

namespace Strk20.Indexer

open Feed Feed.Codec Tables
open Consumer (toI64 toU64 toU64_toI64)
open Std (ExtTreeMap)

structure RecutOutcome where
  firstEpoch : Nat
  rewritten : List (Nat × Key × Key)
  alreadyCurrent : List Nat
  snapshotsDropped : List Nat
deriving DecidableEq

inductive RecutStop where
  | refused (message : String)
  | panicked
deriving DecidableEq

/-- A re-cut: what it writes before the loop, in each round of it and after it,
and how it ends. -/
structure RecutRun where
  before : List Write
  rounds : List (List Write)
  after : List Write
  result : Except RecutStop RecutOutcome

def RecutRun.writes (r : RecutRun) : List Write := r.before ++ (r.rounds.flatten ++ r.after)

/-! ## Texts -/

def notCutMessage (first : Nat) (rows : List EpochRow) : String :=
  "epoch " ++ first.repr ++ " has not been cut in this database (cut epochs: " ++
    (match rows.head?, rows.getLast? with
      | some f, some l => f.idx.repr ++ ".." ++ l.idx.repr
      | _, _ => "none") ++
    "), so there is nothing published to re-cut there. Epochs that were never cut are produced " ++
    "by the ordinary forward cut, not by this command."

def staleBelowMessage (first lowest : Nat) : String :=
  "REFUSING TO RE-CUT: epoch " ++ lowest.repr ++ " is BELOW " ++ first.repr ++
    " and no longer matches this database either, so re-cutting from " ++ first.repr ++
    " would leave every epoch from " ++ lowest.repr ++ " up publishing bytes that describe the " ++
    "pre-repair mirror. Re-cut from epoch " ++ lowest.repr ++ " instead."

def nothingChangedMessage (first : Nat) (rows : List EpochRow) (pos : Nat) : String :=
  "REFUSING TO RE-CUT: every published epoch from " ++ first.repr ++ " up (" ++
    (rows.length - pos).repr ++ " epoch(s), through " ++
    ((rows.getLast?.map (·.idx)).getD first).repr ++ ") rebuilds from this database " ++
    "byte-for-byte, so the feed already describes it. A re-cut would rewrite all of them — " ++
    "every client's hash chain — for no reason. Re-cut only after a repair that actually " ++
    "changed an epoch's blocks (`strk20 audit-coverage --repair`), and name the epoch the " ++
    "repair touched. (If an earlier re-cut of this range was interrupted, this message means " ++
    "it finished: confirm with `strk20 epoch-verify`.)"

section

variable (Z : Zstd) (cfg : ChainConfig) (d : Database)

/-! ## The command -/

/-- `withdraw_snapshots_from`, and the epochs of the withdrawn. -/
def withdrawSnapshotsFrom (first : Nat) : List Write × List Nat :=
  let stale := d.snapshotRows.filter fun snap => first ≤ snap.e
  (stale.flatMap fun snap =>
    [.removeFile snap.file, .removeFile (snapshotAnchorFileName snap.e), .deleteSnapshot snap.e],
    stale.map (·.e))

/-- `cut_at` of everything cut now. -/
def cutAt : Nat := (d.metaU64 "head_number").getD 0

/-- The row of an epoch cut from this payload; the anchor is carried over. -/
def recutRec (row : EpochRow) (prev : Option Key) (payload : ByteArray) : EpochRec :=
  let compressed := Z.compress payload
  { fromBlock := toI64 (cfg.epochRange row.idx).1
    toBlock := toI64 (cfg.epochRange row.idx).2
    contentHash := payloadSha256 payload
    zstSha256 := payloadSha256 compressed
    fileSize := toI64 compressed.size
    prevHash := prev
    anchor := row.anchor.map anchorRecOf
    cutAt := toI64 (cutAt d) }

/-- File, row and manifest of one epoch. -/
def recutRound (row : EpochRow) (prev : Option Key) (payload : ByteArray) : List Write :=
  [.epochFile row.idx (Z.compress payload), .epochRow row.idx (recutRec Z cfg d row prev payload),
    .manifest]

/-- The loop: rounds, and the outcome with whether an epoch has diverged. -/
def recutLoop (first : Nat) : List EpochRow → Bool → Option Key → RecutOutcome →
    List (List Write) × Except RecutStop (Bool × RecutOutcome)
  | [], diverged, _, out => ([], .ok (diverged, out))
  | row :: rest, diverged, prev, out =>
      match encodeEpoch (buildEpoch cfg d row.idx prev) with
      | none => ([], .error .panicked)
      | some payload =>
          let contentHash := payloadSha256 payload
          if !diverged && contentHash == row.contentHash then
            recutLoop first rest false (some contentHash)
              { out with alreadyCurrent := out.alreadyCurrent ++ [row.idx] }
          else
            -- snapshots go before the first byte is replaced
            let withdrawn := if diverged then ([], []) else withdrawSnapshotsFrom d first
            let (rounds, result) := recutLoop first rest true (some contentHash)
              { out with
                snapshotsDropped := out.snapshotsDropped ++ withdrawn.2
                rewritten := out.rewritten ++ [(row.idx, row.contentHash, contentHash)] }
            ((withdrawn.1 ++ recutRound Z cfg d row prev payload) :: rounds, result)

/-- Content hash before a row. -/
def prevAt (rows : List EpochRow) (pos : Nat) : Option Key :=
  if pos = 0 then none else (rows[pos - 1]?).map (·.contentHash)

/-- `rebuilt_hash`, keeping the published `prev`. -/
def rebuiltHash (rows : List EpochRow) (pos : Nat) : Option Key := do
  let row ← rows[pos]?
  epochHash cfg d row.idx (prevAt rows pos)

/-- One epoch of the scan below: a stale one is the lowest so far. -/
def staleStep (rows : List EpochRow) (stale : Option Nat) (below : Nat) : Option (Option Nat) := do
  let row ← rows[below]?
  let hash ← rebuiltHash cfg d rows below
  pure (if hash ≠ row.contentHash then some row.idx else stale)

/-- The lowest stale epoch below a position, looked for all the way down. -/
def staleBelow (rows : List EpochRow) (pos : Nat) : Option (Option Nat) :=
  (List.range pos).reverse.foldlM (staleStep cfg d rows) none

/-- `recut_epochs_from`. -/
def recutEpochsFrom (first : Nat) : RecutRun :=
  let rows := d.epochRows
  let stop := fun reason => (⟨[.layout], [], [], .error reason⟩ : RecutRun)
  match rows.findIdx? fun r => r.idx == first with
  | none => stop (.refused (notCutMessage first rows))
  | some pos =>
      match staleBelow cfg d rows pos with
      | none => stop .panicked
      | some (some lowest) => stop (.refused (staleBelowMessage first lowest))
      | some none =>
          let (rounds, result) :=
            recutLoop Z cfg d first (rows.drop pos) false (prevAt rows pos) ⟨first, [], [], []⟩
          match result with
          | .error e => ⟨[.layout], rounds, [], .error e⟩
          | .ok (false, _) => stop (.refused (nothingChangedMessage first rows pos))
          | .ok (true, out) => ⟨[.layout], rounds, [.manifest], .ok out⟩

/-! ## Current epochs -/

/-- Rows that rebuild to what they record, on top of a content hash. -/
def Current : Option Key → List EpochRow → Prop
  | _, [] => True
  | prev, row :: rest =>
      epochHash cfg d row.idx prev = some row.contentHash ∧ Current (some row.contentHash) rest

/-- The content hash after some rows. -/
def hashAfter : Option Key → List EpochRow → Option Key
  | prev, [] => prev
  | _, row :: rest => hashAfter (some row.contentHash) rest

/-- The epochs of a re-cut, each with what it is cut on and its payload, as far as
the encoder goes. -/
def recutSteps : Option Key → List EpochRow → List (EpochRow × Option Key × ByteArray)
  | _, [] => []
  | prev, row :: rest =>
      match encodeEpoch (buildEpoch cfg d row.idx prev) with
      | none => []
      | some payload =>
          (row, prev, payload) :: recutSteps (some (payloadSha256 payload)) rest

def recutRounds (prev : Option Key) (rows : List EpochRow) : List (List Write) :=
  (recutSteps cfg d prev rows).map fun s => recutRound Z cfg d s.1 s.2.1 s.2.2

variable {cfg d}

theorem current_append {prev : Option Key} {a b : List EpochRow} :
    Current cfg d prev (a ++ b) ↔ Current cfg d prev a ∧ Current cfg d (hashAfter prev a) b := by
  induction a generalizing prev with
  | nil =>
      show _ ↔ True ∧ _
      rw [true_and]
      rfl
  | cons row rest ih =>
      show _ ∧ Current cfg d _ (rest ++ b) ↔ (_ ∧ Current cfg d _ rest) ∧ _
      rw [ih, and_assoc]
      rfl

theorem hashAfter_append (prev : Option Key) (a b : List EpochRow) :
    hashAfter prev (a ++ b) = hashAfter (hashAfter prev a) b := by
  induction a generalizing prev with
  | nil => rfl
  | cons row rest ih => exact ih _

/-- Every list of rows has a longest current part. -/
theorem exists_current_split (prev : Option Key) (rows : List EpochRow) :
    ∃ cur rest, rows = cur ++ rest ∧ Current cfg d prev cur ∧
      ∀ row tail, rest = row :: tail →
        epochHash cfg d row.idx (hashAfter prev cur) ≠ some row.contentHash := by
  induction rows generalizing prev with
  | nil => exact ⟨[], [], rfl, trivial, fun row tail h => by cases h⟩
  | cons row rest ih =>
      by_cases hrow : epochHash cfg d row.idx prev = some row.contentHash
      · obtain ⟨cur, stale, rfl, hcur, hstale⟩ := ih (some row.contentHash)
        exact ⟨row :: cur, stale, rfl, ⟨hrow, hcur⟩, hstale⟩
      · refine ⟨[], row :: rest, rfl, trivial, ?_⟩
        intro r tail h
        obtain ⟨rfl, -⟩ := List.cons.inj h
        exact hrow

theorem prevAt_eq (rows : List EpochRow) (pos : Nat) (hpos : pos ≤ rows.length) :
    prevAt rows pos = hashAfter none (rows.take pos) := by
  unfold prevAt
  cases pos with
  | zero => rfl
  | succ n =>
      obtain ⟨row, hrow⟩ : ∃ row, rows[n]? = some row := by
        cases h : rows[n]? with
        | none =>
            have := List.getElem?_eq_none_iff.mp h
            omega
        | some row => exact ⟨row, rfl⟩
      rw [if_neg (Nat.succ_ne_zero n), Nat.add_sub_cancel, List.take_add_one, hrow, hashAfter_append]
      rfl

/-! ## The loop -/

theorem epochHash_some {idx : Nat} {prev : Option Key} {h : Key}
    (hash : epochHash cfg d idx prev = some h) :
    ∃ payload, encodeEpoch (buildEpoch cfg d idx prev) = some payload ∧
      payloadSha256 payload = h := by
  unfold epochHash at hash
  exact Option.map_eq_some_iff.mp hash

/-- Current epochs are passed over. -/
theorem recutLoop_current (first : Nat) {prev : Option Key} {cur : List EpochRow}
    (rest : List EpochRow) (hcur : Current cfg d prev cur) (out : RecutOutcome) :
    recutLoop Z cfg d first (cur ++ rest) false prev out =
      recutLoop Z cfg d first rest false (hashAfter prev cur)
        { out with alreadyCurrent := out.alreadyCurrent ++ cur.map (·.idx) } := by
  induction cur generalizing prev out with
  | nil => simp [hashAfter]
  | cons row cur ih =>
      obtain ⟨hrow, hcur⟩ := hcur
      obtain ⟨payload, hencode, hhash⟩ := epochHash_some hrow
      rw [List.cons_append, recutLoop, hencode]
      simp only [hhash, Bool.not_false, Bool.true_and, beq_self_eq_true, if_true]
      rw [ih hcur]
      simp [hashAfter]

/-- Past the first stale epoch every epoch is rewritten. -/
theorem recutLoop_diverged (first : Nat) (prev : Option Key) (rows : List EpochRow)
    (out : RecutOutcome) :
    (recutLoop Z cfg d first rows true prev out).1 = recutRounds Z cfg d prev rows ∧
      ((recutSteps cfg d prev rows).length = rows.length →
        ∃ o, (recutLoop Z cfg d first rows true prev out).2 = .ok (true, o)) ∧
      ((recutSteps cfg d prev rows).length ≠ rows.length →
        (recutLoop Z cfg d first rows true prev out).2 = .error .panicked) := by
  induction rows generalizing prev out with
  | nil => exact ⟨rfl, fun _ => ⟨out, rfl⟩, fun h => absurd rfl h⟩
  | cons row rest ih =>
      unfold recutRounds recutSteps recutLoop
      cases hencode : encodeEpoch (buildEpoch cfg d row.idx prev) with
      | none => exact ⟨rfl, fun h => by simp at h, fun _ => rfl⟩
      | some payload =>
          obtain ⟨hrounds, hok, hpanic⟩ := ih (some (payloadSha256 payload))
            { out with
              snapshotsDropped := out.snapshotsDropped ++ []
              rewritten := out.rewritten ++ [(row.idx, row.contentHash, payloadSha256 payload)] }
          simp only [Bool.not_true, Bool.false_and, Bool.false_eq_true, if_false, if_true,
            List.nil_append, List.map_cons, List.length_cons, Nat.add_right_cancel_iff, ne_eq]
          exact ⟨by rw [hrounds]; rfl, hok, hpanic⟩

/-- At the first stale epoch the snapshots go and rewriting starts. -/
theorem recutLoop_stale {first : Nat} {prev : Option Key} {row : EpochRow} {rest : List EpochRow}
    (hstale : epochHash cfg d row.idx prev ≠ some row.contentHash) (out : RecutOutcome) :
    ((recutSteps cfg d prev (row :: rest)).length = (row :: rest).length →
      ∃ o, (recutLoop Z cfg d first (row :: rest) false prev out).2 = .ok (true, o)) ∧
    ((recutSteps cfg d prev (row :: rest)).length ≠ (row :: rest).length →
      (recutLoop Z cfg d first (row :: rest) false prev out).2 = .error .panicked) ∧
    (recutLoop Z cfg d first (row :: rest) false prev out).1 =
      (match recutRounds Z cfg d prev (row :: rest) with
        | [] => []
        | round :: rounds => ((withdrawSnapshotsFrom d first).1 ++ round) :: rounds) := by
  unfold recutRounds recutSteps recutLoop
  cases hencode : encodeEpoch (buildEpoch cfg d row.idx prev) with
  | none => exact ⟨fun h => by simp at h, fun _ => rfl, rfl⟩
  | some payload =>
      have hne : (payloadSha256 payload == row.contentHash) = false := by
        rw [beq_eq_false_iff_ne]
        intro heq
        apply hstale
        rw [epochHash, hencode, Option.map_some, heq]
      obtain ⟨hrounds, hok, hpanic⟩ := recutLoop_diverged Z first (some (payloadSha256 payload))
        rest { out with
          snapshotsDropped := out.snapshotsDropped ++ (withdrawSnapshotsFrom d first).2
          rewritten := out.rewritten ++ [(row.idx, row.contentHash, payloadSha256 payload)] }
      simp only [hne, Bool.and_false, Bool.false_eq_true, if_false, List.map_cons, List.length_cons,
        Nat.add_right_cancel_iff, ne_eq]
      exact ⟨hok, hpanic, by rw [hrounds]; rfl⟩

/-! ## The guard below -/

theorem rebuiltHash_eq {rows : List EpochRow} {pos : Nat} {row : EpochRow}
    (hrow : rows[pos]? = some row) :
    rebuiltHash cfg d rows pos = epochHash cfg d row.idx (hashAfter none (rows.take pos)) := by
  have hlt := (List.getElem?_eq_some_iff.mp hrow).1
  unfold rebuiltHash
  rw [hrow, prevAt_eq rows pos (Nat.le_of_lt hlt)]
  rfl

theorem take_succ_eq {rows : List EpochRow} {pos : Nat} {row : EpochRow}
    (hrow : rows[pos]? = some row) : rows.take (pos + 1) = rows.take pos ++ [row] := by
  rw [List.take_add_one, hrow]
  rfl

theorem staleStep_eq {rows : List EpochRow} {n : Nat} {row : EpochRow} (hrow : rows[n]? = some row)
    (stale : Option Nat) : staleStep cfg d rows stale n =
      (epochHash cfg d row.idx (hashAfter none (rows.take n))).map fun hash =>
        if hash ≠ row.contentHash then some row.idx else stale := by
  unfold staleStep
  rw [hrow, rebuiltHash_eq hrow]
  cases epochHash cfg d row.idx (hashAfter none (rows.take n)) <;> rfl

/-- A clean scan has seen every epoch below rebuild to what it records. -/
theorem staleBelow_none {rows : List EpochRow} {pos : Nat} (hpos : pos ≤ rows.length) :
    staleBelow cfg d rows pos = some none ↔ Current cfg d none (rows.take pos) := by
  -- the scan comes down from the top: `acc` is what it found above the first `n` rows
  have hscan : ∀ (n : Nat) (acc : Option Nat), n ≤ rows.length →
      ((List.range n).reverse.foldlM (staleStep cfg d rows) acc = some none ↔
        acc = none ∧ Current cfg d none (rows.take n)) := by
    intro n
    induction n with
    | zero =>
        intro acc _
        show some acc = some none ↔ acc = none ∧ True
        rw [and_true, Option.some.injEq]
    | succ n ih =>
        intro acc hn
        obtain ⟨row, hrow⟩ : ∃ row, rows[n]? = some row :=
          ⟨rows[n], List.getElem?_eq_getElem (by omega)⟩
        rw [List.range_succ, List.reverse_append, List.reverse_singleton, List.singleton_append,
          List.foldlM_cons, take_succ_eq hrow, current_append]
        have hone : Current cfg d (hashAfter none (rows.take n)) [row] ↔
            epochHash cfg d row.idx (hashAfter none (rows.take n)) = some row.contentHash :=
          ⟨And.left, fun h => ⟨h, trivial⟩⟩
        rw [staleStep_eq hrow, hone]
        cases hhash : epochHash cfg d row.idx (hashAfter none (rows.take n)) with
        | none => simp
        | some hash =>
            show (List.range n).reverse.foldlM (staleStep cfg d rows)
              (if hash ≠ row.contentHash then some row.idx else acc) = some none ↔ _
            rw [ih _ (by omega)]
            by_cases heq : hash = row.contentHash
            · simp [heq]
            · simp [heq]
  have := hscan pos none hpos
  simp only [true_and] at this
  exact this

/-- A scan that found something stale names the lowest. -/
theorem staleBelow_some {rows : List EpochRow} {pos lowest : Nat} (hpos : pos ≤ rows.length)
    (h : staleBelow cfg d rows pos = some (some lowest)) :
    ∃ low row between, rows.take pos = low ++ row :: between ∧ row.idx = lowest ∧
      Current cfg d none low ∧ epochHash cfg d row.idx (hashAfter none low) ≠ some row.contentHash := by
  -- a later find lies lower and overwrites `acc`
  have hscan : ∀ (n : Nat) (acc : Option Nat), n ≤ rows.length →
      (List.range n).reverse.foldlM (staleStep cfg d rows) acc = some (some lowest) →
        (acc = some lowest ∧ Current cfg d none (rows.take n)) ∨
          ∃ low row between, rows.take n = low ++ row :: between ∧ row.idx = lowest ∧
            Current cfg d none low ∧
              epochHash cfg d row.idx (hashAfter none low) ≠ some row.contentHash := by
    intro n
    induction n with
    | zero =>
        intro acc _ hacc
        exact Or.inl ⟨Option.some.inj hacc, trivial⟩
    | succ n ih =>
        intro acc hn hacc
        obtain ⟨row, hrow⟩ : ∃ row, rows[n]? = some row :=
          ⟨rows[n], List.getElem?_eq_getElem (by omega)⟩
        rw [List.range_succ, List.reverse_append, List.reverse_singleton, List.singleton_append,
          List.foldlM_cons] at hacc
        obtain ⟨acc', hstep, hrest⟩ := Option.bind_eq_some_iff.mp hacc
        rw [staleStep_eq hrow] at hstep
        obtain ⟨hash, hhash, hacc'⟩ := Option.map_eq_some_iff.mp hstep
        rw [take_succ_eq hrow]
        rcases ih acc' (by omega) hrest with ⟨hlow, hcurrent⟩ | ⟨low, stale, between, htake, hlow⟩
        · rw [hlow] at hacc'
          by_cases heq : hash = row.contentHash
          · rw [if_neg (not_not.mpr heq)] at hacc'
            rw [heq] at hhash
            exact Or.inl ⟨hacc', current_append.mpr ⟨hcurrent, hhash, trivial⟩⟩
          · rw [if_pos heq] at hacc'
            refine Or.inr ⟨rows.take n, row, [], rfl, Option.some.inj hacc', hcurrent, ?_⟩
            rw [hhash]
            exact fun hsame => heq (Option.some.inj hsame)
        · refine Or.inr ⟨low, stale, between ++ [row], ?_, hlow⟩
          rw [htake, List.append_assoc, List.cons_append]
  rcases hscan pos none hpos h with ⟨hnone, -⟩ | hfound
  · cases hnone
  · exact hfound

/-! ## The command, in its cases -/

/-- The reasons of a refusal: the named epoch is not there, an epoch below it is stale, the
lowest such being named, or nothing is stale at all. -/
inductive Refusal (cfg : ChainConfig) (d : Database) (first : Nat) : String → Prop
  | notCut (h : ∀ r ∈ d.epochRows, r.idx ≠ first) : Refusal cfg d first (notCutMessage first d.epochRows)
  | staleBelow {low between tail : List EpochRow} {row : EpochRow}
      (rows : d.epochRows = (low ++ row :: between) ++ tail)
      (fresh : ∀ r ∈ low ++ row :: between, r.idx ≠ first)
      (named : tail.head?.map (·.idx) = some first) (current : Current cfg d none low)
      (stale : epochHash cfg d row.idx (hashAfter none low) ≠ some row.contentHash) :
      Refusal cfg d first (staleBelowMessage first row.idx)
  | unchanged {pre tail : List EpochRow} (rows : d.epochRows = pre ++ tail)
      (fresh : ∀ r ∈ pre, r.idx ≠ first) (named : tail.head?.map (·.idx) = some first)
      (current : Current cfg d none d.epochRows) :
      Refusal cfg d first (nothingChangedMessage first d.epochRows pre.length)

/-- How a re-cut that reaches its rounds finds the rows: below the named epoch,
current from there up, and stale from `row` on. -/
structure Located (cfg : ChainConfig) (d : Database) (first : Nat) (pre cur : List EpochRow)
    (row : EpochRow) (rest : List EpochRow) : Prop where
  rows : d.epochRows = pre ++ (cur ++ row :: rest)
  fresh : ∀ r ∈ pre, r.idx ≠ first
  named : (cur ++ row :: rest).head?.map (·.idx) = some first
  current : Current cfg d none (pre ++ cur)
  stale : epochHash cfg d row.idx (hashAfter none (pre ++ cur)) ≠ some row.contentHash

/-- The encoder takes every epoch that is to be rewritten. -/
structure Accepted (cfg : ChainConfig) (d : Database) (first : Nat) (pre cur : List EpochRow)
    (row : EpochRow) (rest : List EpochRow) : Prop extends
    Located cfg d first pre cur row rest where
  encodes : (recutSteps cfg d (hashAfter none (pre ++ cur)) (row :: rest)).length =
    (row :: rest).length

/-- The rounds of a re-cut; snapshots are withdrawn in the first. -/
def roundsFrom (cfg : ChainConfig) (d : Database) (first : Nat) (prev : Option Key)
    (rows : List EpochRow) : List (List Write) :=
  match recutRounds Z cfg d prev rows with
  | [] => []
  | round :: rounds => ((withdrawSnapshotsFrom d first).1 ++ round) :: rounds

theorem findIdx?_named {first : Nat} {pre tail : List EpochRow} (hfresh : ∀ r ∈ pre, r.idx ≠ first)
    (hnamed : tail.head?.map (·.idx) = some first) :
    (pre ++ tail).findIdx? (fun r => r.idx == first) = some pre.length := by
  cases tail with
  | nil => cases hnamed
  | cons row rest =>
      have hrow : row.idx = first := Option.some.inj hnamed
      have hpre : pre.findIdx? (fun r => r.idx == first) = none := by
        rw [List.findIdx?_eq_none_iff]
        intro r hr
        simpa using hfresh r hr
      simp [List.findIdx?_append, hpre, List.findIdx?_cons, hrow]

theorem findIdx?_split {first pos : Nat} {rows : List EpochRow}
    (h : rows.findIdx? (fun r => r.idx == first) = some pos) :
    pos ≤ rows.length ∧ (∀ r ∈ rows.take pos, r.idx ≠ first) ∧
      (rows.drop pos).head?.map (·.idx) = some first := by
  obtain ⟨hlt, hpos, hbefore⟩ := List.findIdx?_eq_some_iff_getElem.mp h
  refine ⟨Nat.le_of_lt hlt, ?_, ?_⟩
  · intro r hr
    obtain ⟨i, hi, rfl⟩ := List.getElem_of_mem hr
    have hi' : i < pos := by
      rw [List.length_take] at hi
      omega
    rw [List.getElem_take]
    simpa using hbefore i hi'
  · rw [List.head?_drop, List.getElem?_eq_getElem hlt, Option.map_some]
    simpa using hpos

/-- Below the named epoch everything is current, and the loop decides. -/
theorem recutEpochsFrom_loop {first : Nat} {pre tail : List EpochRow}
    (hrows : d.epochRows = pre ++ tail) (hfresh : ∀ r ∈ pre, r.idx ≠ first)
    (hnamed : tail.head?.map (·.idx) = some first) (hcurrent : Current cfg d none pre) :
    recutEpochsFrom Z cfg d first =
      (match recutLoop Z cfg d first tail false (hashAfter none pre) ⟨first, [], [], []⟩ with
        | (rounds, .error e) => ⟨[.layout], rounds, [], .error e⟩
        | (_, .ok (false, _)) => ⟨[.layout], [], [],
            .error (.refused (nothingChangedMessage first d.epochRows pre.length))⟩
        | (rounds, .ok (true, out)) => ⟨[.layout], rounds, [.manifest], .ok out⟩) := by
  have hlen : pre.length ≤ d.epochRows.length := by
    rw [hrows, List.length_append]
    exact Nat.le_add_right _ _
  have htake : d.epochRows.take pre.length = pre := by rw [hrows, List.take_left]
  have hdrop : d.epochRows.drop pre.length = tail := by rw [hrows, List.drop_left]
  have hstale : staleBelow cfg d d.epochRows pre.length = some none := by
    rw [staleBelow_none hlen, htake]
    exact hcurrent
  have hfind : d.epochRows.findIdx? (fun r => r.idx == first) = some pre.length := by
    rw [hrows]
    exact findIdx?_named hfresh hnamed
  have hprev : prevAt d.epochRows pre.length = hashAfter none pre := by
    rw [prevAt_eq _ _ hlen, htake]
  unfold recutEpochsFrom
  simp only [hfind, hstale, hprev, hdrop]
  cases recutLoop Z cfg d first tail false (hashAfter none pre) ⟨first, [], [], []⟩ with
  | mk rounds result =>
      cases result with
      | error e => rfl
      | ok r =>
          obtain ⟨diverged, out⟩ := r
          cases diverged <;> rfl

/-- With every epoch current, the command refuses. -/
theorem recutEpochsFrom_current {first : Nat} {pre tail : List EpochRow}
    (hrows : d.epochRows = pre ++ tail) (hfresh : ∀ r ∈ pre, r.idx ≠ first)
    (hnamed : tail.head?.map (·.idx) = some first) (hcurrent : Current cfg d none (pre ++ tail)) :
    recutEpochsFrom Z cfg d first = ⟨[.layout], [], [],
      .error (.refused (nothingChangedMessage first d.epochRows pre.length))⟩ := by
  obtain ⟨hpre, htail⟩ := current_append.mp hcurrent
  rw [recutEpochsFrom_loop Z hrows hfresh hnamed hpre]
  have hloop := recutLoop_current Z first [] htail ⟨first, [], [], []⟩
  rw [List.append_nil] at hloop
  rw [hloop]
  rfl

section

variable {first : Nat} {pre cur : List EpochRow} {row : EpochRow} {rest : List EpochRow}

/-- From the first stale epoch on, the loop rewrites. -/
theorem Located.run (h : Located cfg d first pre cur row rest) :
    ((recutSteps cfg d (hashAfter none (pre ++ cur)) (row :: rest)).length = (row :: rest).length →
      ∃ out, recutEpochsFrom Z cfg d first =
        ⟨[.layout], roundsFrom Z cfg d first (hashAfter none (pre ++ cur)) (row :: rest),
          [.manifest], .ok out⟩) ∧
    ((recutSteps cfg d (hashAfter none (pre ++ cur)) (row :: rest)).length ≠ (row :: rest).length →
      recutEpochsFrom Z cfg d first =
        ⟨[.layout], roundsFrom Z cfg d first (hashAfter none (pre ++ cur)) (row :: rest),
          [], .error .panicked⟩) := by
  obtain ⟨hpre, hcur⟩ := current_append.mp h.current
  have hstale := h.stale
  rw [hashAfter_append] at hstale
  rw [recutEpochsFrom_loop Z h.rows h.fresh h.named hpre, recutLoop_current Z first _ hcur,
    hashAfter_append]
  obtain ⟨hok, hpanic, hrounds⟩ := recutLoop_stale Z hstale
    { (⟨first, [], [], []⟩ : RecutOutcome) with alreadyCurrent := [] ++ cur.map (·.idx) }
  constructor
  · intro hlen
    obtain ⟨out, hout⟩ := hok hlen
    rw [← Prod.eta (recutLoop _ _ _ _ _ _ _ _), hout, hrounds]
    exact ⟨out, rfl⟩
  · intro hlen
    rw [← Prod.eta (recutLoop _ _ _ _ _ _ _ _), hpanic hlen, hrounds]
    rfl

theorem Accepted.run (h : Accepted cfg d first pre cur row rest) :
    ∃ out, recutEpochsFrom Z cfg d first =
      ⟨[.layout], roundsFrom Z cfg d first (hashAfter none (pre ++ cur)) (row :: rest),
        [.manifest], .ok out⟩ :=
  (h.toLocated.run Z).1 h.encodes

end

/-- The command either stops before its first round, with a reason if it refuses, or runs
rounds from the first stale epoch on. -/
theorem recutEpochsFrom_cases (first : Nat) :
    (∃ stop, recutEpochsFrom Z cfg d first = ⟨[.layout], [], [], .error stop⟩ ∧
      ∀ message, stop = .refused message → Refusal cfg d first message) ∨
      ∃ pre cur row rest, Located cfg d first pre cur row rest := by
  cases hfind : d.epochRows.findIdx? (fun r => r.idx == first) with
  | none =>
      left
      unfold recutEpochsFrom
      simp only [hfind]
      refine ⟨_, rfl, fun message heq => ?_⟩
      -- no row of this index: the epoch was never cut
      obtain rfl := RecutStop.refused.inj heq
      refine Refusal.notCut fun r hr => ?_
      simpa using List.findIdx?_eq_none_iff.mp hfind r hr
  | some pos =>
      obtain ⟨hpos, hfresh, hnamed⟩ := findIdx?_split hfind
      have hrows : d.epochRows = d.epochRows.take pos ++ d.epochRows.drop pos :=
        (List.take_append_drop pos _).symm
      cases hstale : staleBelow cfg d d.epochRows pos with
      | none =>
          left
          unfold recutEpochsFrom
          simp only [hfind, hstale]
          exact ⟨_, rfl, fun message heq => by cases heq⟩
      | some lowest =>
          cases lowest with
          | some n =>
              left
              unfold recutEpochsFrom
              simp only [hfind, hstale]
              refine ⟨_, rfl, fun message heq => ?_⟩
              obtain rfl := RecutStop.refused.inj heq
              obtain ⟨low, row, between, htake, rfl, hcurrent, hne⟩ := staleBelow_some hpos hstale
              rw [htake] at hrows hfresh
              exact Refusal.staleBelow hrows hfresh hnamed hcurrent hne
          | none =>
              -- clean below: skip what is current from the named epoch up
              have hpre := (staleBelow_none hpos).mp hstale
              obtain ⟨cur, stale, htail, hcur, hhead⟩ := exists_current_split (d := d)
                (hashAfter none (d.epochRows.take pos)) (d.epochRows.drop pos)
              have hcurrent := current_append.mpr ⟨hpre, hcur⟩
              rw [htail] at hrows hnamed
              cases stale with
              | nil =>
                  left
                  -- everything is current: nothing to re-cut
                  rw [List.append_nil] at hrows hnamed
                  refine ⟨_, recutEpochsFrom_current Z hrows hfresh hnamed hcurrent, fun message heq => ?_⟩
                  obtain rfl := RecutStop.refused.inj heq
                  refine Refusal.unchanged hrows hfresh hnamed ?_
                  rw [hrows]
                  exact hcurrent
              | cons row rest =>
                  right
                  have hrow := hhead row rest rfl
                  rw [← hashAfter_append] at hrow
                  exact ⟨d.epochRows.take pos, cur, row, rest, hrows, hfresh, hnamed, hcurrent,
                    hrow⟩

theorem accepted_of_ok {first : Nat} {out : RecutOutcome}
    (h : (recutEpochsFrom Z cfg d first).result = .ok out) :
    ∃ pre cur row rest, Accepted cfg d first pre cur row rest := by
  rcases recutEpochsFrom_cases Z (d := d) first with
    ⟨stop, hrun, -⟩ | ⟨pre, cur, row, rest, hlocated⟩
  · rw [hrun] at h
    cases h
  · refine ⟨pre, cur, row, rest, hlocated, ?_⟩
    by_contra hlen
    rw [(hlocated.run Z).2 hlen] at h
    cases h

/-- A refusal comes before the first round, and has its reason. -/
theorem refusal_of_refused {first : Nat} {message : String}
    (h : (recutEpochsFrom Z cfg d first).result = .error (.refused message)) :
    (recutEpochsFrom Z cfg d first).writes = [.layout] ∧ Refusal cfg d first message := by
  rcases recutEpochsFrom_cases Z (d := d) first with
    ⟨stop, hrun, hreason⟩ | ⟨pre, cur, row, rest, hlocated⟩
  · rw [hrun] at h ⊢
    exact ⟨rfl, hreason message (Except.error.inj h)⟩
  · by_cases hlen : (recutSteps cfg d (hashAfter none (pre ++ cur)) (row :: rest)).length =
        (row :: rest).length
    · obtain ⟨out, hrun⟩ := (hlocated.run Z).1 hlen
      rw [hrun] at h
      cases h
    · rw [(hlocated.run Z).2 hlen] at h
      cases h

/-! ## What the rounds leave -/

/-- The listed row of a rewritten epoch. -/
def stepRow (cfg : ChainConfig) (d : Database) (s : EpochRow × Option Key × ByteArray) : EpochRow :=
  epochRowOf (toI64 s.1.idx) (recutRec Z cfg d s.1 s.2.1 s.2.2)

theorem stepRow_idx {s : EpochRow × Option Key × ByteArray} (h : s.1.idx < 2 ^ 64) :
    (stepRow Z cfg d s).idx = s.1.idx := by
  have hidx : (stepRow Z cfg d s).idx = toU64 (toI64 s.1.idx) := by
    simp only [stepRow, epochRowOf]
  rw [hidx, toU64_toI64 h]

theorem recutSteps_cons {prev : Option Key} {row : EpochRow} {rest : List EpochRow}
    {payload : ByteArray} (h : encodeEpoch (buildEpoch cfg d row.idx prev) = some payload) :
    recutSteps cfg d prev (row :: rest) =
      (row, prev, payload) :: recutSteps cfg d (some (payloadSha256 payload)) rest := by
  rw [recutSteps, h]

/-- A step list of full length starts with an epoch that encodes. -/
theorem encodes_head {prev : Option Key} {row : EpochRow} {rest : List EpochRow}
    (h : (recutSteps cfg d prev (row :: rest)).length = (row :: rest).length) :
    ∃ payload, encodeEpoch (buildEpoch cfg d row.idx prev) = some payload ∧
      (recutSteps cfg d (some (payloadSha256 payload)) rest).length = rest.length := by
  cases hencode : encodeEpoch (buildEpoch cfg d row.idx prev) with
  | none =>
      rw [recutSteps, hencode] at h
      cases h
  | some payload =>
      rw [recutSteps_cons hencode, List.length_cons, List.length_cons,
        Nat.add_right_cancel_iff] at h
      exact ⟨payload, rfl, h⟩

/-- Rewritten rows rebuild to what they record. -/
theorem current_steps {prev : Option Key} {rows : List EpochRow}
    (hidx : ∀ row ∈ rows, row.idx < 2 ^ 64) :
    Current cfg d prev ((recutSteps cfg d prev rows).map (stepRow Z cfg d)) := by
  induction rows generalizing prev with
  | nil => exact trivial
  | cons row rest ih =>
      obtain ⟨hrow, hrest⟩ := List.forall_mem_cons.mp hidx
      cases hencode : encodeEpoch (buildEpoch cfg d row.idx prev) with
      | none =>
          rw [recutSteps, hencode]
          exact trivial
      | some payload =>
          rw [recutSteps_cons hencode, List.map_cons]
          refine ⟨?_, ih hrest⟩
          rw [stepRow_idx Z (s := (row, prev, payload)) hrow, epochHash, hencode]
          rfl

/-- Rounds put the rewritten rows in place of the old ones. -/
theorem rounds_rows {prev : Option Key} {pre rows post : List EpochRow} {s : Site}
    (hrows : s.database.epochRows = pre ++ (rows ++ post)) (hcols : s.database.Columns64)
    (hlen : (recutSteps cfg d prev rows).length = rows.length) :
    (Write.applyAll cfg s (recutRounds Z cfg d prev rows).flatten).database.epochRows =
        pre ++ ((recutSteps cfg d prev rows).map (stepRow Z cfg d) ++ post) ∧
      (Write.applyAll cfg s (recutRounds Z cfg d prev rows).flatten).database.Columns64 := by
  induction rows generalizing prev pre s with
  | nil => exact ⟨hrows, hcols⟩
  | cons row rest ih =>
      obtain ⟨payload, hencode, hrest⟩ := encodes_head hlen
      have hnext := Database.epochRows_insertEpoch hcols hrows (recutRec Z cfg d row prev payload)
      have hcols' := Database.insertEpoch_columns64 hcols hrows (recutRec Z cfg d row prev payload)
      have hrows' : (Write.applyAll cfg s (recutRound Z cfg d row prev payload)).database.epochRows =
          (pre ++ [stepRow Z cfg d (row, prev, payload)]) ++ (rest ++ post) := by
        rw [List.append_assoc]
        exact hnext
      have hround := ih hrows' hcols' hrest
      have hflatten : (recutRounds Z cfg d prev (row :: rest)).flatten =
          recutRound Z cfg d row prev payload ++
            (recutRounds Z cfg d (some (payloadSha256 payload)) rest).flatten := by
        unfold recutRounds
        rw [recutSteps_cons hencode]
        rfl
      rw [hflatten, Write.applyAll_append, recutSteps_cons hencode]
      rw [List.append_assoc] at hround
      exact hround

/-! ## Withdrawal -/

theorem mem_withdraw {first : Nat} {w : Write} (h : w ∈ (withdrawSnapshotsFrom d first).1) :
    (∃ name, w = .removeFile name) ∨
      ∃ snap ∈ d.snapshotRows, first ≤ snap.e ∧ w = .deleteSnapshot snap.e := by
  obtain ⟨snap, hsnap, hw⟩ := List.mem_flatMap.mp h
  obtain ⟨hmem, hle⟩ := List.mem_filter.mp hsnap
  simp only [List.mem_cons, List.not_mem_nil, or_false] at hw
  rcases hw with rfl | rfl | rfl
  · exact Or.inl ⟨_, rfl⟩
  · exact Or.inl ⟨_, rfl⟩
  · exact Or.inr ⟨snap, hmem, of_decide_eq_true hle, rfl⟩

theorem deleteSnapshot_mem_withdraw {first : Nat} {snap : SnapshotEntry}
    (hmem : snap ∈ d.snapshotRows) (hle : first ≤ snap.e) :
    Write.deleteSnapshot snap.e ∈ (withdrawSnapshotsFrom d first).1 :=
  List.mem_flatMap.mpr ⟨snap, List.mem_filter.mpr ⟨hmem, decide_eq_true hle⟩, by simp⟩

/-- Writes that no step looks at leave it alone. -/
theorem foldl_eq_self {α β : Type} {f : β → α → β} {xs : List α}
    (h : ∀ x ∈ xs, ∀ b, f b x = b) (b : β) : xs.foldl f b = b := by
  induction xs generalizing b with
  | nil => rfl
  | cons x xs ih =>
      obtain ⟨hx, hxs⟩ := List.forall_mem_cons.mp h
      rw [List.foldl_cons, hx, ih hxs]

theorem withdraw_epochs (first : Nat) (t : ExtTreeMap Int EpochRec) :
    (withdrawSnapshotsFrom d first).1.foldl Write.epochsStep t = t := by
  refine foldl_eq_self (fun w hw b => ?_) t
  rcases mem_withdraw hw with ⟨name, rfl⟩ | ⟨snap, -, -, rfl⟩ <;> rfl

theorem withdraw_files (first : Nat) (t : ExtTreeMap Nat ByteArray) :
    (withdrawSnapshotsFrom d first).1.foldl Write.filesStep t = t := by
  refine foldl_eq_self (fun w hw b => ?_) t
  rcases mem_withdraw hw with ⟨name, rfl⟩ | ⟨snap, -, -, rfl⟩ <;> rfl

open Classical in
/-- Deleted snapshots are gone, the others stay. -/
theorem snapshots_deleted (ws : List Write) (t : ExtTreeMap Int SnapshotRec) (k : Int) :
    (ws.foldl Write.snapshotsStep t)[k]? =
      if ∃ e, Write.deleteSnapshot e ∈ ws ∧ toI64 e = k then none else t[k]? := by
  induction ws generalizing t with
  | nil => simp
  | cons w ws ih =>
      rw [List.foldl_cons, ih]
      by_cases hlater : ∃ e, Write.deleteSnapshot e ∈ ws ∧ toI64 e = k
      · obtain ⟨e, he, hk⟩ := hlater
        rw [if_pos ⟨e, he, hk⟩, if_pos ⟨e, List.mem_cons_of_mem _ he, hk⟩]
      · rw [if_neg hlater]
        by_cases hnow : ∃ e, w = Write.deleteSnapshot e ∧ toI64 e = k
        · obtain ⟨e, rfl, hk⟩ := hnow
          rw [if_pos ⟨e, List.mem_cons_self, hk⟩]
          show (t.erase (toI64 e))[k]? = none
          rw [getElem?_erase_eq, if_pos hk.symm]
        · rw [if_neg]
          · cases w with
            | deleteSnapshot e =>
                show (t.erase (toI64 e))[k]? = t[k]?
                rw [getElem?_erase_eq, if_neg fun hk => hnow ⟨e, rfl, hk.symm⟩]
            | _ => rfl
          · rintro ⟨e, he, hk⟩
            rcases List.mem_cons.mp he with rfl | he
            · exact hnow ⟨e, rfl, hk⟩
            · exact hlater ⟨e, he, hk⟩

/-- A withdrawal leaves the snapshots below the named epoch. -/
theorem withdraw_snapshots (hcols : d.Columns64) (first : Nat) :
    (withdrawSnapshotsFrom d first).1.foldl Write.snapshotsStep d.snapshots =
      d.snapshots.filter fun k _ => toU64 k < first := by
  refine ExtTreeMap.ext_getElem? fun k => ?_
  rw [snapshots_deleted, getElem?_filter_key d.snapshots fun k => decide (toU64 k < first)]
  by_cases hlow : toU64 k < first
  · rw [if_pos (decide_eq_true hlow), if_neg]
    rintro ⟨e, he, hk⟩
    rcases mem_withdraw he with ⟨name, heq⟩ | ⟨snap, hsnap, hle, heq⟩
    · cases heq
    · obtain rfl := Write.deleteSnapshot.inj heq
      obtain ⟨row, -, hrow⟩ := List.mem_map.mp hsnap
      have hlt : snap.e < 2 ^ 64 := by
        rw [← hrow]
        exact toU64_lt row.1
      rw [← hk, toU64_toI64 hlt] at hlow
      omega
  · have hkey : decide (toU64 k < first) = false := decide_eq_false hlow
    simp only [hkey, Bool.false_eq_true, if_false]
    split
    · rfl
    · rename_i hkept
      cases hrow : d.snapshots[k]? with
      | none => rfl
      | some r =>
          exfalso
          apply hkept
          obtain ⟨hl, hh⟩ := hcols.snapshots k r hrow
          have hmem : snapshotEntryOf k r ∈ d.snapshotRows :=
            List.mem_map.mpr ⟨(k, r), ExtTreeMap.mem_toList_iff_getElem?_eq_some.mpr hrow, rfl⟩
          exact ⟨_, deleteSnapshot_mem_withdraw hmem (Nat.le_of_not_lt hlow), toI64_toU64 hl hh⟩

/-- The site once the layout stands and the snapshots are withdrawn. -/
def withdrawn (cfg : ChainConfig) (s : Site) (first : Nat) : Site :=
  Write.applyAll cfg s (.layout :: (withdrawSnapshotsFrom s.database first).1)

theorem withdrawn_epochs (s : Site) (first : Nat) :
    (withdrawn cfg s first).database.epochs = s.database.epochs := by
  unfold withdrawn
  rw [Write.applyAll_epochs, List.foldl_cons, withdraw_epochs]
  rfl

theorem withdrawn_snapshots {s : Site} (hcols : s.database.Columns64) (first : Nat) :
    (withdrawn cfg s first).database.snapshots =
      s.database.snapshots.filter fun k _ => toU64 k < first := by
  unfold withdrawn
  rw [Write.applyAll_snapshots, List.foldl_cons]
  exact withdraw_snapshots hcols first

theorem withdrawn_columns64 {s : Site} (hcols : s.database.Columns64) (first : Nat) :
    (withdrawn cfg s first).database.Columns64 := by
  constructor
  · intro k r hk
    rw [withdrawn_epochs] at hk
    exact hcols.epochs k r hk
  · intro k r hk
    rw [withdrawn_snapshots hcols,
      getElem?_filter_key s.database.snapshots fun k => decide (toU64 k < first)] at hk
    split at hk
    · exact hcols.snapshots k r hk
    · cases hk

theorem epochRows_congr {d d' : Database} (h : d'.epochs = d.epochs) :
    d'.epochRows = d.epochRows := by
  unfold Database.epochRows
  rw [h]

section

variable {s : Site} {first : Nat} {pre cur : List EpochRow} {row : EpochRow} {rest : List EpochRow}

/-- The writes of an accepted re-cut, in order. -/
theorem Accepted.writes (h : Accepted cfg s.database first pre cur row rest) :
    (recutEpochsFrom Z cfg s.database first).writes =
      (.layout :: (withdrawSnapshotsFrom s.database first).1) ++
        ((recutRounds Z cfg s.database (hashAfter none (pre ++ cur)) (row :: rest)).flatten ++
          [.manifest]) := by
  obtain ⟨out, hrun⟩ := h.run Z
  obtain ⟨payload, hencode, -⟩ := encodes_head h.encodes
  rw [hrun]
  unfold RecutRun.writes roundsFrom recutRounds
  rw [recutSteps_cons hencode]
  simp

/-- The site an accepted re-cut ends in. -/
theorem Accepted.final (h : Accepted cfg s.database first pre cur row rest) :
    Write.applyAll cfg s (recutEpochsFrom Z cfg s.database first).writes =
      Write.applyAll cfg (withdrawn cfg s first)
        ((recutRounds Z cfg s.database (hashAfter none (pre ++ cur)) (row :: rest)).flatten ++
          [.manifest]) := by
  rw [h.writes Z, Write.applyAll_append]
  rfl

/-- The epoch rows an accepted re-cut ends with. -/
theorem Accepted.rows_final (h : Accepted cfg s.database first pre cur row rest)
    (hcols : s.database.Columns64) :
    (Write.applyAll cfg s (recutEpochsFrom Z cfg s.database first).writes).database.epochRows =
      (pre ++ cur) ++ (recutSteps cfg s.database (hashAfter none (pre ++ cur)) (row :: rest)).map
        (stepRow Z cfg s.database) := by
  have hrows : (withdrawn cfg s first).database.epochRows = (pre ++ cur) ++ ((row :: rest) ++ []) := by
    rw [epochRows_congr (withdrawn_epochs s first), h.rows, List.append_nil, List.append_assoc]
  obtain ⟨hfinal, -⟩ := rounds_rows Z hrows (withdrawn_columns64 hcols first) h.encodes
  rw [h.final Z, Write.applyAll_append]
  rw [List.append_nil] at hfinal
  exact hfinal

end

/-- Rounds delete no snapshot. -/
theorem rounds_no_delete (prev : Option Key) (rows : List EpochRow) {w : Write}
    (hw : w ∈ (recutRounds Z cfg d prev rows).flatten ++ [Write.manifest]) (e : Nat) :
    w ≠ .deleteSnapshot e := by
  rcases List.mem_append.mp hw with hw | hw
  · obtain ⟨round, hround, hw⟩ := List.mem_flatten.mp hw
    obtain ⟨step, -, rfl⟩ := List.mem_map.mp hround
    simp only [recutRound, List.mem_cons, List.not_mem_nil, or_false] at hw
    rcases hw with rfl | rfl | rfl <;> simp
  · rw [List.mem_singleton.mp hw]
    simp

/-- The snapshots an accepted re-cut leaves. -/
theorem Accepted.snapshots_final {s : Site} {first : Nat} {pre cur : List EpochRow} {row : EpochRow}
    {rest : List EpochRow} (h : Accepted cfg s.database first pre cur row rest)
    (hcols : s.database.Columns64) :
    (Write.applyAll cfg s (recutEpochsFrom Z cfg s.database first).writes).database.snapshots =
      s.database.snapshots.filter fun k _ => toU64 k < first := by
  rw [h.final Z, Write.applyAll_snapshots, foldl_eq_self, withdrawn_snapshots hcols]
  intro w hw t
  have hkeep := rounds_no_delete Z _ _ hw
  cases w with
  | deleteSnapshot e => exact absurd rfl (hkeep e)
  | _ => rfl

/-- Current rows, position by position. -/
theorem current_iff_rebuiltHash {rows : List EpochRow} :
    Current cfg d none rows ↔
      ∀ (pos : Nat) (row : EpochRow), rows[pos]? = some row →
        rebuiltHash cfg d rows pos = some row.contentHash := by
  have htake : ∀ n ≤ rows.length, Current cfg d none (rows.take n) ↔
      ∀ (pos : Nat) (row : EpochRow), pos < n → rows[pos]? = some row →
        rebuiltHash cfg d rows pos = some row.contentHash := by
    intro n
    induction n with
    | zero => exact fun _ => ⟨fun _ pos row hpos => absurd hpos (Nat.not_lt_zero _), fun _ => trivial⟩
    | succ n ih =>
        intro hn
        have hrow : rows[n]? = some rows[n] := List.getElem?_eq_getElem (by omega)
        rw [take_succ_eq hrow, current_append, ih (by omega)]
        constructor
        · rintro ⟨hbelow, hhere, -⟩ pos row hpos hget
          rcases Nat.lt_succ_iff_lt_or_eq.mp hpos with hlt | rfl
          · exact hbelow pos row hlt hget
          · obtain rfl := Option.some.inj (hrow.symm.trans hget)
            rw [rebuiltHash_eq hrow]
            exact hhere
        · intro hall
          refine ⟨fun pos row hpos hget => hall pos row (by omega) hget, ?_, trivial⟩
          rw [← rebuiltHash_eq hrow]
          exact hall n _ (Nat.lt_succ_self n) hrow
  have hall := htake rows.length le_rfl
  rw [List.take_length] at hall
  rw [hall]
  constructor
  · intro h pos row hget
    exact h pos row (List.getElem?_eq_some_iff.mp hget).1 hget
  · intro h pos row _ hget
    exact h pos row hget

theorem Current.congr {d d' : Database} (hsame : SameBlocks d d') {prev : Option Key}
    {rows : List EpochRow} : Current cfg d' prev rows ↔ Current cfg d prev rows := by
  induction rows generalizing prev with
  | nil => exact Iff.rfl
  | cons row rest ih =>
      unfold Current
      rw [hsame.epochHash, ih]

end

/-- **The re-cut guard.** It returns where an epoch from the named one up is stale, none below
is, and the encoder takes what is rewritten. Then every published epoch rebuilds with its
predecessor's content hash to what it records, and no snapshot at or above the named epoch
is left. A refusal has its reason and leaves rows, files, manifest and snapshots. -/
theorem recut_guard (Z : Zstd) (cfg : ChainConfig) (s : Site) (first : Nat)
    (hcols : s.database.Columns64) :
    let run := recutEpochsFrom Z cfg s.database first
    let s' := Write.applyAll cfg s run.writes
    ((∃ out, run.result = .ok out) ↔
      ∃ pre cur row rest, Accepted cfg s.database first pre cur row rest) ∧
    (∀ out, run.result = .ok out →
      (∀ (pos : Nat) (row : EpochRow), s'.database.epochRows[pos]? = some row →
        rebuiltHash cfg s'.database s'.database.epochRows pos = some row.contentHash) ∧
      ∀ snap ∈ s'.database.snapshotRows, snap.e < first) ∧
    (∀ message, run.result = .error (.refused message) →
      Refusal cfg s.database first message ∧ s'.database = s.database ∧ s'.dir.epochs = s.dir.epochs ∧
        s'.dir.manifest = s.dir.manifest ∧ s'.dir.snapshots = s.dir.snapshots) := by
  intro run s'
  refine ⟨⟨?_, ?_⟩, ?_, ?_⟩
  · rintro ⟨out, hok⟩
    exact accepted_of_ok Z hok
  · rintro ⟨pre, cur, row, rest, h⟩
    obtain ⟨out, hrun⟩ := h.run Z
    exact ⟨out, congrArg RecutRun.result hrun⟩
  · intro out hok
    obtain ⟨pre, cur, row, rest, h⟩ := accepted_of_ok Z hok
    have hsame : SameBlocks s.database s'.database := Write.applyAll_blocks cfg s _
    -- the re-cut writes no block, so hashes rebuild from the same lines
    constructor
    · rw [← current_iff_rebuiltHash, Current.congr hsame, h.rows_final Z hcols, current_append]
      refine ⟨h.current, current_steps Z fun r hr => Database.epochRows_idx_lt (d := s.database) ?_⟩
      rw [h.rows]
      exact List.mem_append_right _ (List.mem_append_right _ hr)
    · intro snap hsnap
      obtain ⟨e, he, rfl⟩ := List.mem_map.mp hsnap
      have hget := ExtTreeMap.mem_toList_iff_getElem?_eq_some.mp he
      have hleft := h.snapshots_final Z hcols
      rw [hleft, getElem?_filter_key s.database.snapshots fun k => decide (toU64 k < first)] at hget
      split at hget
      · rename_i hlt
        exact of_decide_eq_true hlt
      · cases hget
  · intro message hrefused
    obtain ⟨hwrites, hreason⟩ := refusal_of_refused Z hrefused
    -- a refused run has only laid out its directories
    have hs' : s' = Write.applyAll cfg s [.layout] := by
      show Write.applyAll cfg s run.writes = _
      rw [hwrites]
    rw [hs']
    exact ⟨hreason, rfl, rfl, rfl, rfl⟩

/-! ## A repaired site -/

/-- Files as they are. -/
def plainZstd : Zstd where
  compress b := b
  expand := some
  expand_compress _ := rfl

def smallConfig : ChainConfig := ⟨"SN_TEST", 5, 0, 10, ∅⟩

def emptyDir : FeedDir := ⟨none, ∅, ∅, none, none⟩

theorem zero_lt_keys : 0 < 2 ^ 256 := by norm_num

/-- No hash yet. -/
def zeroKey : Key := ⟨0, zero_lt_keys⟩

/-- Two epochs without blocks, cut and published. -/
def publishedSite : Site :=
  Write.applyAll smallConfig ⟨Database.new, emptyDir⟩
    (recutRounds plainZstd smallConfig Database.new none
      [⟨0, 0, 9, zeroKey, zeroKey, 0, none⟩, ⟨1, 10, 19, zeroKey, zeroKey, 0, none⟩]).flatten

/-- Block 3 has been found since. -/
def repairedSite : Site :=
  { publishedSite with
    database := (publishedSite.database.insertBlock ⟨3, 7, 6, 100, true⟩) }

theorem columns64_of_all {d : Database}
    (hepochs : (d.epochs.toList.all fun e => decide (-2 ^ 63 ≤ e.1 ∧ e.1 < 2 ^ 63)) = true)
    (hsnapshots : (d.snapshots.toList.all fun e => decide (-2 ^ 63 ≤ e.1 ∧ e.1 < 2 ^ 63)) = true) :
    d.Columns64 := by
  constructor
  · intro k r hk
    have hmem := ExtTreeMap.mem_toList_iff_getElem?_eq_some.mpr hk
    exact of_decide_eq_true (List.all_eq_true.mp hepochs _ hmem)
  · intro k r hk
    have hmem := ExtTreeMap.mem_toList_iff_getElem?_eq_some.mpr hk
    exact of_decide_eq_true (List.all_eq_true.mp hsnapshots _ hmem)

theorem repairedSite_columns64 : repairedSite.database.Columns64 :=
  columns64_of_all (by decide +kernel) (by decide +kernel)

theorem repairedSite_accepted :
    ∃ out, (recutEpochsFrom plainZstd smallConfig repairedSite.database 0).result = .ok out := by
  have hok : (recutEpochsFrom plainZstd smallConfig repairedSite.database 0).result.isOk = true := by
    decide +kernel
  cases hres : (recutEpochsFrom plainZstd smallConfig repairedSite.database 0).result with
  | ok out => exact ⟨out, rfl⟩
  | error e =>
      rw [hres] at hok
      cases hok

theorem recut_guard_repaired :
    let s' := Write.applyAll smallConfig repairedSite
      (recutEpochsFrom plainZstd smallConfig repairedSite.database 0).writes
    ∀ (pos : Nat) (row : EpochRow), s'.database.epochRows[pos]? = some row →
      rebuiltHash smallConfig s'.database s'.database.epochRows pos = some row.contentHash := by
  obtain ⟨out, hout⟩ := repairedSite_accepted
  exact ((recut_guard plainZstd smallConfig repairedSite 0 repairedSite_columns64).2.1 out hout).1

end Strk20.Indexer
