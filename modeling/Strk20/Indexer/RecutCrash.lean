import Strk20.Indexer.Recut

/-!
# Crashes of a re-cut

A crash leaves a prefix of the writes. The second run passes over every epoch that
rebuilds to its record by now, and rewrites the rest, so what it can miss is what it
passes over.

- `Resumable`: what the crash must have left for the second run to finish the job.
- `recut_resumes`: it is exact.
-/

namespace Strk20.Indexer

open Feed Feed.Codec Tables
open Consumer (toI64 toU64 toU64_toI64 toI64_inj)
open Std (ExtTreeMap)

namespace Write

/-- Epoch rows among some writes, under their keys. -/
def rowOf : Write → Option (Int × EpochRec)
  | epochRow idx r => some (toI64 idx, r)
  | _ => none

def fileOf : Write → Option (Nat × ByteArray)
  | epochFile idx bytes => some (idx, bytes)
  | _ => none

theorem foldl_epochsStep (ws : List Write) (t : ExtTreeMap Int EpochRec) :
    ws.foldl epochsStep t = insertAll t (ws.filterMap rowOf) := by
  induction ws generalizing t with
  | nil => rfl
  | cons w ws ih =>
      have hstep : epochsStep t w = insertAll t (rowOf w).toList := by
        cases w <;> simp [epochsStep, rowOf, insertAll]
      rw [List.foldl_cons, ih, hstep, List.filterMap_cons]
      cases rowOf w <;> rfl

theorem foldl_filesStep (ws : List Write) (t : ExtTreeMap Nat ByteArray) :
    ws.foldl filesStep t = insertAll t (ws.filterMap fileOf) := by
  induction ws generalizing t with
  | nil => rfl
  | cons w ws ih =>
      have hstep : filesStep t w = insertAll t (fileOf w).toList := by
        cases w <;> simp [filesStep, fileOf, insertAll]
      rw [List.foldl_cons, ih, hstep, List.filterMap_cons]
      cases fileOf w <;> rfl

end Write

section

variable (Z : Zstd) (cfg : ChainConfig) (d : Database)

/-! ## Steps -/

/-- An epoch to rewrite, what it is cut on, and its payload. -/
abbrev RecutStep := EpochRow × Option Key × ByteArray

def stepEntry (s : RecutStep) : Int × EpochRec := (toI64 s.1.idx, recutRec Z cfg d s.1 s.2.1 s.2.2)

def stepFile (s : RecutStep) : Nat × ByteArray := (s.1.idx, Z.compress s.2.2)

theorem stepEntry_fst (s : RecutStep) : (stepEntry Z cfg d s).1 = toI64 s.1.idx := by
  rw [stepEntry]

theorem stepFile_fst (s : RecutStep) : (stepFile Z s).1 = s.1.idx := rfl

/-- How many rows from the bottom up are current. -/
def currentCount : Option Key → List EpochRow → Nat
  | _, [] => 0
  | prev, row :: rest =>
      if epochHash cfg d row.idx prev = some row.contentHash then
        currentCount (some row.contentHash) rest + 1
      else 0

/-- The epochs that a re-cut rewrites: all from the lowest stale one up. -/
def staleSteps : List RecutStep :=
  let n := currentCount cfg d none d.epochRows
  recutSteps cfg d (hashAfter none (d.epochRows.take n)) (d.epochRows.drop n)

/-- Row and file of an epoch are as a re-cut writes them. -/
def Settled (x : Site) (s : RecutStep) : Prop :=
  x.database.epochs[toI64 s.1.idx]? = some (recutRec Z cfg d s.1 s.2.1 s.2.2) ∧
    x.dir.epochs[s.1.idx]? = some (Z.compress s.2.2)

/-- Epochs that the second run of a re-cut will take for current, of those the first
run was to rewrite. -/
def skippedSteps (x : Site) : List RecutStep :=
  (staleSteps cfg d).take
    (currentCount cfg x.database none x.database.epochRows - currentCount cfg d none d.epochRows)

/-- What a crash must leave: the epochs to be skipped are as the first run leaves
them, and when none is stale any more the manifest is that of the rows. -/
structure Resumable (x : Site) : Prop where
  settled : ∀ s ∈ skippedSteps cfg d x, Settled Z cfg d x s
  described : currentCount cfg x.database none x.database.epochRows = x.database.epochRows.length →
    x.dir.manifest = some (manifestOf cfg x.database)

variable {cfg d}

theorem settled_iff {x : Site} {step : RecutStep} : Settled Z cfg d x step ↔
    x.database.epochs[(stepEntry Z cfg d step).1]? = some (stepEntry Z cfg d step).2 ∧
      x.dir.epochs[(stepFile Z step).1]? = some (stepFile Z step).2 := by
  rw [Settled, stepEntry, stepFile]

theorem recutSteps_take (cfg : ChainConfig) (d : Database) (prev : Option Key)
    (rows : List EpochRow) (n : Nat) :
    recutSteps cfg d prev (rows.take n) = (recutSteps cfg d prev rows).take n := by
  induction rows generalizing prev n with
  | nil => simp [recutSteps]
  | cons row rest ih =>
      cases n with
      | zero => rfl
      | succ n =>
          rw [List.take_succ_cons]
          unfold recutSteps
          cases encodeEpoch (buildEpoch cfg d row.idx prev) with
          | none => rfl
          | some payload =>
              simp only [List.take_succ_cons]
              rw [ih]

/-- Steps past some rows go on from the new content hash. -/
theorem recutSteps_append {prev : Option Key} {a b : List EpochRow}
    (hlen : (recutSteps cfg d prev a).length = a.length) :
    recutSteps cfg d prev (a ++ b) = recutSteps cfg d prev a ++
      recutSteps cfg d (hashAfter prev ((recutSteps cfg d prev a).map (stepRow Z cfg d))) b := by
  induction a generalizing prev with
  | nil => rfl
  | cons row rest ih =>
      obtain ⟨payload, hencode, hrest⟩ := encodes_head hlen
      rw [List.cons_append, recutSteps_cons hencode, recutSteps_cons hencode, ih hrest]
      rfl

/-- Steps over current rows keep their content hashes. -/
theorem recutSteps_current {prev : Option Key} {rows : List EpochRow}
    (h : Current cfg d prev rows) :
    (recutSteps cfg d prev rows).length = rows.length ∧
      hashAfter prev ((recutSteps cfg d prev rows).map (stepRow Z cfg d)) = hashAfter prev rows := by
  induction rows generalizing prev with
  | nil => exact ⟨rfl, rfl⟩
  | cons row rest ih =>
      obtain ⟨hrow, hrest⟩ := h
      obtain ⟨payload, hencode, hhash⟩ := epochHash_some hrow
      rw [recutSteps_cons hencode, hhash]
      obtain ⟨hlen, hafter⟩ := ih hrest
      refine ⟨by rw [List.length_cons, List.length_cons, hlen], ?_⟩
      have hstep : (stepRow Z cfg d (row, prev, payload)).contentHash = row.contentHash := hhash
      rw [List.map_cons, hashAfter, hstep]
      exact hafter

/-- The steps past some rows, when these have been rewritten. -/
theorem drop_steps_new {prev : Option Key} {rows : List EpochRow} {j : Nat} (hj : j ≤ rows.length)
    (hlen : (recutSteps cfg d prev rows).length = rows.length) :
    (recutSteps cfg d prev rows).drop j = recutSteps cfg d
      (hashAfter prev (((recutSteps cfg d prev rows).take j).map (stepRow Z cfg d)))
      (rows.drop j) := by
  have htake : (recutSteps cfg d prev (rows.take j)).length = (rows.take j).length := by
    rw [recutSteps_take, List.length_take, List.length_take, hlen]
  have happend := recutSteps_append Z (b := rows.drop j) htake
  rw [List.take_append_drop, recutSteps_take] at happend
  conv_lhs => rw [happend]
  refine List.drop_left' ?_
  rw [List.length_take, hlen]
  omega

/-- The steps past some rows, when these are current. -/
theorem drop_steps_current {prev : Option Key} {rows : List EpochRow} {q : Nat}
    (hq : q ≤ rows.length) (h : Current cfg d prev (rows.take q)) :
    (recutSteps cfg d prev rows).drop q =
      recutSteps cfg d (hashAfter prev (rows.take q)) (rows.drop q) := by
  obtain ⟨hlen, hafter⟩ := recutSteps_current plainZstd h
  have happend := recutSteps_append plainZstd (b := rows.drop q) hlen
  rw [List.take_append_drop, hafter] at happend
  rw [happend]
  refine List.drop_left' ?_
  rw [hlen, List.length_take]
  omega

theorem currentCount_append {prev : Option Key} {a b : List EpochRow} (h : Current cfg d prev a) :
    currentCount cfg d prev (a ++ b) = a.length + currentCount cfg d (hashAfter prev a) b := by
  induction a generalizing prev with
  | nil => simp [hashAfter]
  | cons row rest ih =>
      obtain ⟨hrow, hrest⟩ := h
      rw [List.cons_append, currentCount, if_pos hrow, ih hrest, List.length_cons]
      simp only [hashAfter]
      omega

theorem currentCount_stale {prev : Option Key} {row : EpochRow} {rest : List EpochRow}
    (h : epochHash cfg d row.idx prev ≠ some row.contentHash) :
    currentCount cfg d prev (row :: rest) = 0 := by
  rw [currentCount, if_neg h]

theorem currentCount_le (cfg : ChainConfig) (d : Database) (prev : Option Key)
    (rows : List EpochRow) :
    currentCount cfg d prev rows ≤ rows.length := by
  induction rows generalizing prev with
  | nil => exact le_rfl
  | cons row rest ih =>
      rw [currentCount, List.length_cons]
      split
      · exact Nat.add_le_add_right (ih _) 1
      · exact Nat.zero_le _

theorem current_take_count (cfg : ChainConfig) (d : Database) (prev : Option Key)
    (rows : List EpochRow) :
    Current cfg d prev (rows.take (currentCount cfg d prev rows)) := by
  induction rows generalizing prev with
  | nil => exact trivial
  | cons row rest ih =>
      rw [currentCount]
      split
      · rename_i hrow
        exact ⟨hrow, ih _⟩
      · exact trivial

theorem stale_drop_count (cfg : ChainConfig) (d : Database) (prev : Option Key)
    (rows : List EpochRow) (row : EpochRow) (rest : List EpochRow)
    (h : rows.drop (currentCount cfg d prev rows) = row :: rest) :
    epochHash cfg d row.idx (hashAfter prev (rows.take (currentCount cfg d prev rows))) ≠
      some row.contentHash := by
  induction rows generalizing prev with
  | nil => simp at h
  | cons head tail ih =>
      rw [currentCount] at h ⊢
      split
      · rename_i hrow
        rw [if_pos hrow] at h
        exact ih _ h
      · rename_i hrow
        rw [if_neg hrow] at h
        obtain ⟨rfl, -⟩ := List.cons.inj h
        exact hrow

theorem currentCount_congr {d' : Database} (hsame : SameBlocks d d') (prev : Option Key)
    (rows : List EpochRow) : currentCount cfg d' prev rows = currentCount cfg d prev rows := by
  induction rows generalizing prev with
  | nil => rfl
  | cons row rest ih =>
      unfold currentCount
      rw [hsame.epochHash, ih]

theorem recutSteps_congr {d' : Database} (hsame : SameBlocks d d') (prev : Option Key)
    (rows : List EpochRow) : recutSteps cfg d' prev rows = recutSteps cfg d prev rows := by
  induction rows generalizing prev with
  | nil => rfl
  | cons row rest ih =>
      unfold recutSteps
      rw [hsame.buildEpoch]
      cases encodeEpoch (buildEpoch cfg d row.idx prev) with
      | none => rfl
      | some payload => simp only [ih]

/-- Rewritten rows keep their epochs. -/
theorem map_idx_steps {prev : Option Key} {rows : List EpochRow}
    (hlen : (recutSteps cfg d prev rows).length = rows.length)
    (hidx : ∀ row ∈ rows, row.idx < 2 ^ 64) :
    ((recutSteps cfg d prev rows).map (stepRow Z cfg d)).map (·.idx) = rows.map (·.idx) := by
  induction rows generalizing prev with
  | nil => rfl
  | cons row rest ih =>
      obtain ⟨payload, hencode, hrest⟩ := encodes_head hlen
      obtain ⟨hrow, hidx⟩ := List.forall_mem_cons.mp hidx
      rw [recutSteps_cons hencode, List.map_cons, List.map_cons, List.map_cons, ih hrest hidx,
        stepRow_idx Z (s := (row, prev, payload)) hrow]

theorem map_row_steps {prev : Option Key} {rows : List EpochRow}
    (hlen : (recutSteps cfg d prev rows).length = rows.length) :
    (recutSteps cfg d prev rows).map Prod.fst = rows := by
  induction rows generalizing prev with
  | nil => rfl
  | cons row rest ih =>
      obtain ⟨payload, hencode, hrest⟩ := encodes_head hlen
      rw [recutSteps_cons hencode, List.map_cons, ih hrest]

/-! ## The writes of a crash -/

/-- Rows, and files, that a prefix of the rounds has written. -/
theorem take_rounds (prev : Option Key) (rows : List EpochRow) (n : Nat) :
    ∃ i j, j ≤ i ∧ i ≤ j + 1 ∧ i ≤ (recutSteps cfg d prev rows).length ∧
      (((recutRounds Z cfg d prev rows).flatten.take n).filterMap Write.rowOf =
        ((recutSteps cfg d prev rows).take j).map (stepEntry Z cfg d)) ∧
      ((recutRounds Z cfg d prev rows).flatten.take n).filterMap Write.fileOf =
        ((recutSteps cfg d prev rows).take i).map (stepFile Z) := by
  unfold recutRounds
  induction recutSteps cfg d prev rows generalizing n with
  | nil => exact ⟨0, 0, le_rfl, Nat.zero_le _, le_rfl, by simp, by simp⟩
  | cons step steps ih =>
      rw [List.map_cons, List.flatten_cons]
      rcases n with _ | _ | _ | n
      · exact ⟨0, 0, le_rfl, Nat.zero_le _, Nat.zero_le _, by simp, by simp⟩
      · exact ⟨1, 0, Nat.zero_le _, le_rfl, by simp, by rfl, by rfl⟩
      · exact ⟨1, 1, le_rfl, by simp, by simp, by rfl, by rfl⟩
      · obtain ⟨i, j, hji, hij, hi, hrow, hfile⟩ := ih n
        have htake : ∀ ws : List Write, (recutRound Z cfg d step.1 step.2.1 step.2.2 ++ ws).take
            (n + 3) = recutRound Z cfg d step.1 step.2.1 step.2.2 ++ ws.take n := fun ws => rfl
        refine ⟨i + 1, j + 1, by omega, by omega, ?_, ?_, ?_⟩
        · rw [List.length_cons]
          omega
        · rw [htake, List.filterMap_append, hrow]
          rfl
        · rw [htake, List.filterMap_append, hfile]
          rfl

/-- All of the rounds. -/
theorem all_rounds (prev : Option Key) (rows : List EpochRow) :
    (recutRounds Z cfg d prev rows).flatten.filterMap Write.rowOf =
        (recutSteps cfg d prev rows).map (stepEntry Z cfg d) ∧
      (recutRounds Z cfg d prev rows).flatten.filterMap Write.fileOf =
        (recutSteps cfg d prev rows).map (stepFile Z) := by
  unfold recutRounds
  induction recutSteps cfg d prev rows with
  | nil => exact ⟨rfl, rfl⟩
  | cons step steps ih =>
      rw [List.map_cons, List.flatten_cons, List.filterMap_append, List.filterMap_append, ih.1, ih.2]
      exact ⟨rfl, rfl⟩

/-- Of a prefix of the writes only the rounds count. -/
theorem filterMap_take {β : Type} {f : Write → Option β} {lead body : List Write} {n : Nat}
    (hlead : ∀ w ∈ lead, f w = none) (hman : f .manifest = none := by rfl) :
    ((lead ++ (body ++ [Write.manifest])).take n).filterMap f =
      (body.take (n - lead.length)).filterMap f := by
  have hnone : (lead.take n).filterMap f = [] :=
    List.filterMap_eq_nil_iff.mpr fun w hw => hlead w (List.mem_of_mem_take hw)
  have hlast : ∀ k, ([Write.manifest].take k).filterMap f = [] := by
    intro k
    refine List.filterMap_eq_nil_iff.mpr fun w hw => ?_
    rw [List.mem_singleton.mp (List.mem_of_mem_take hw)]
    exact hman
  rw [List.take_append, List.filterMap_append, hnone, List.nil_append, List.take_append,
    List.filterMap_append, hlast, List.append_nil]

theorem withdraw_rowOf (first : Nat) :
    ∀ w ∈ Write.layout :: (withdrawSnapshotsFrom d first).1, w.rowOf = none ∧ w.fileOf = none := by
  intro w hw
  rcases List.mem_cons.mp hw with rfl | hw
  · exact ⟨rfl, rfl⟩
  · rcases mem_withdraw hw with ⟨name, rfl⟩ | ⟨snap, -, -, rfl⟩ <;> exact ⟨rfl, rfl⟩

/-- A site that a crash of a re-cut of `rows` has left, with `i` files and `j` rows
written. -/
structure Crashed (cfg : ChainConfig) (s : Site) (first : Nat) (steps : List RecutStep) (x : Site)
    (i j : Nat) : Prop where
  blocks : SameBlocks s.database x.database
  order : j ≤ i
  bound : i ≤ steps.length
  epochs : x.database.epochs =
    insertAll s.database.epochs ((steps.take j).map (stepEntry Z cfg s.database))
  files : x.dir.epochs = insertAll s.dir.epochs ((steps.take i).map (stepFile Z))
  kept : ∀ k : Int, toU64 k < first → x.database.snapshots[k]? = s.database.snapshots[k]?
  sub : ∀ (k : Int) (r : SnapshotRec), x.database.snapshots[k]? = some r →
    s.database.snapshots[k]? = some r
  gone : 0 < i → ∀ k : Int, ¬ toU64 k < first → x.database.snapshots[k]? = none

section

variable {s : Site} {first : Nat} {pre cur : List EpochRow} {row : EpochRow} {rest : List EpochRow}

theorem Accepted.crashed (h : Accepted cfg s.database first pre cur row rest)
    (hcols : s.database.Columns64) (n : Nat) :
    ∃ i j, Crashed Z cfg s first (recutSteps cfg s.database (hashAfter none (pre ++ cur)) (row :: rest))
      (Write.applyAll cfg s ((recutEpochsFrom Z cfg s.database first).writes.take n)) i j := by
  rw [h.writes Z]
  generalize hashAfter none (pre ++ cur) = prev
  -- the layout and the withdrawals touch neither epoch rows nor epoch files
  have hlead := withdraw_rowOf (d := s.database) first
  obtain ⟨i, j, hji, -, hi, hrow, hfile⟩ := take_rounds Z (d := s.database) prev
    (row :: rest) (n - (Write.layout :: (withdrawSnapshotsFrom s.database first).1).length)
  have hdelete : ∀ e, Write.deleteSnapshot e ∈
      ((Write.layout :: (withdrawSnapshotsFrom s.database first).1) ++
        ((recutRounds Z cfg s.database prev (row :: rest)).flatten ++ [Write.manifest])).take n →
      ∃ snap ∈ s.database.snapshotRows, first ≤ snap.e ∧ e = snap.e := by
    intro e he
    rcases List.mem_append.mp (List.mem_of_mem_take he) with he | he
    · rcases List.mem_cons.mp he with heq | he
      · cases heq
      · rcases mem_withdraw he with ⟨name, heq⟩ | ⟨snap, hsnap, hle, heq⟩
        · cases heq
        · exact ⟨snap, hsnap, hle, Write.deleteSnapshot.inj heq⟩
    · exact absurd rfl (rounds_no_delete Z prev (row :: rest) he e)
  refine ⟨i, j, Write.applyAll_blocks cfg s _, hji, hi, ?_, ?_, ?_, ?_, ?_⟩
  · rw [Write.applyAll_epochs, Write.foldl_epochsStep,
      filterMap_take fun w hw => (hlead w hw).1, hrow]
  · rw [Write.applyAll_files, Write.foldl_filesStep,
      filterMap_take fun w hw => (hlead w hw).2, hfile]
  · intro k hk
    rw [Write.applyAll_snapshots, snapshots_deleted, if_neg]
    rintro ⟨e, he, rfl⟩
    obtain ⟨snap, hsnap, hle, rfl⟩ := hdelete e he
    obtain ⟨entry, -, rfl⟩ := List.mem_map.mp hsnap
    have hlt : (snapshotEntryOf entry.1 entry.2).e < 2 ^ 64 := toU64_lt entry.1
    rw [toU64_toI64 hlt] at hk
    omega
  · intro k r hk
    rw [Write.applyAll_snapshots, snapshots_deleted] at hk
    split at hk
    · cases hk
    · exact hk
  · intro hpos k hk
    -- an epoch file is written: the withdrawals are all behind
    have hlong : (Write.layout :: (withdrawSnapshotsFrom s.database first).1).length < n := by
      by_contra hshort
      have hzero : n - (Write.layout :: (withdrawSnapshotsFrom s.database first).1).length = 0 := by
        omega
      rw [hzero, List.take_zero, List.filterMap_nil] at hfile
      have hlen := congrArg List.length hfile
      rw [List.length_nil, List.length_map, List.length_take] at hlen
      omega
    rw [Write.applyAll_snapshots, snapshots_deleted]
    split
    · rfl
    · rename_i hkept
      cases hget : s.database.snapshots[k]? with
      | none => rfl
      | some r =>
          exfalso
          apply hkept
          obtain ⟨hl, hh⟩ := hcols.snapshots k r hget
          have hmem : snapshotEntryOf k r ∈ s.database.snapshotRows :=
            List.mem_map.mpr ⟨(k, r), ExtTreeMap.mem_toList_iff_getElem?_eq_some.mpr hget, rfl⟩
          refine ⟨_, ?_, toI64_toU64 hl hh⟩
          rw [List.take_append, List.take_of_length_le (Nat.le_of_lt hlong)]
          exact List.mem_append_left _ (List.mem_cons_of_mem _
            (deleteSnapshot_mem_withdraw hmem (Nat.le_of_not_lt hk)))

theorem toI64_bounds (n : Nat) : -2 ^ 63 ≤ toI64 n ∧ toI64 n < 2 ^ 63 := by
  unfold toI64
  simp only
  split <;> omega

/-- Listed epochs have the keys of the table. -/
theorem epochRows_keys {d : Database} (hcols : d.Columns64) :
    d.epochRows.map (fun r => toI64 r.idx) = d.epochs.toList.map Prod.fst := by
  unfold Database.epochRows
  rw [List.map_map]
  refine List.map_congr_left fun e he => ?_
  obtain ⟨hlow, hhigh⟩ := hcols.epochs e.1 e.2 (ExtTreeMap.mem_toList_iff_getElem?_eq_some.mp he)
  have hkey := toI64_toU64 hlow hhigh
  rw [Function.comp_apply, epochRowOf_idx, hkey]

theorem epochRows_nodup {d : Database} (hcols : d.Columns64) :
    (d.epochRows.map fun r => toI64 r.idx).Nodup := by
  rw [epochRows_keys hcols]
  exact List.pairwise_map.mpr (toList_keys_ne d.epochs)

theorem Accepted.mem_rows (h : Accepted cfg s.database first pre cur row rest) {r : EpochRow}
    (hr : r ∈ row :: rest) : r ∈ s.database.epochRows := by
  rw [h.rows]
  exact List.mem_append_right _ (List.mem_append_right _ hr)

theorem Accepted.keys_nodup (h : Accepted cfg s.database first pre cur row rest)
    (hcols : s.database.Columns64) :
    (((recutSteps cfg s.database (hashAfter none (pre ++ cur)) (row :: rest)).map
        (stepEntry Z cfg s.database)).map Prod.fst).Nodup ∧
      (((recutSteps cfg s.database (hashAfter none (pre ++ cur)) (row :: rest)).map
        (stepFile Z)).map Prod.fst).Nodup := by
  have hkeys : ((row :: rest).map fun r => toI64 r.idx).Nodup := by
    have hall := epochRows_nodup hcols
    rw [h.rows, List.map_append, List.map_append] at hall
    exact (List.nodup_append.mp (List.nodup_append.mp hall).2.1).2.1
  have hrows := map_row_steps h.encodes
  generalize recutSteps cfg s.database (hashAfter none (pre ++ cur)) (row :: rest) = steps at *
  rw [← hrows, List.map_map] at hkeys
  constructor
  · rw [List.map_map]
    have hcomp : Prod.fst ∘ stepEntry Z cfg s.database = (fun r : EpochRow => toI64 r.idx) ∘ Prod.fst := by
      funext step
      rw [Function.comp_apply, Function.comp_apply, stepEntry_fst]
    rw [hcomp]
    exact hkeys
  · rw [List.map_map]
    have hcomp : (fun r : EpochRow => toI64 r.idx) ∘ Prod.fst = toI64 ∘ (Prod.fst ∘ stepFile Z) := by
      funext step
      rw [Function.comp_apply, Function.comp_apply, Function.comp_apply, stepFile_fst]
    rw [hcomp, ← List.map_map] at hkeys
    exact List.Nodup.of_map toI64 hkeys

variable {x : Site} {i j : Nat}

theorem Crashed.columns64
    (c : Crashed Z cfg s first
      (recutSteps cfg s.database (hashAfter none (pre ++ cur)) (row :: rest)) x i j)
    (hcols : s.database.Columns64) : x.database.Columns64 := by
  constructor
  · intro k r hk
    rw [c.epochs] at hk
    by_cases hmem : k ∈ (((recutSteps cfg s.database (hashAfter none (pre ++ cur))
        (row :: rest)).take j).map (stepEntry Z cfg s.database)).map Prod.fst
    · rw [List.map_map] at hmem
      obtain ⟨step, -, hkey⟩ := List.mem_map.mp hmem
      rw [Function.comp_apply, stepEntry_fst] at hkey
      rw [← hkey]
      exact toI64_bounds step.1.idx
    · rw [getElem?_insertAll_of_not_mem hmem] at hk
      exact hcols.epochs k r hk
  · exact fun k r hk => hcols.snapshots k r (c.sub k r hk)

/-- The epoch rows of a crashed site. -/
theorem Crashed.rows
    (c : Crashed Z cfg s first
      (recutSteps cfg s.database (hashAfter none (pre ++ cur)) (row :: rest)) x i j)
    (h : Accepted cfg s.database first pre cur row rest) (hcols : s.database.Columns64) :
    x.database.epochRows = (pre ++ cur) ++
      (((recutSteps cfg s.database (hashAfter none (pre ++ cur)) (row :: rest)).take j).map
        (stepRow Z cfg s.database) ++ (row :: rest).drop j) := by
  have hrows : (withdrawn cfg s first).database.epochRows =
      (pre ++ cur) ++ ((row :: rest).take j ++ (row :: rest).drop j) := by
    rw [epochRows_congr (withdrawn_epochs s first), h.rows, List.take_append_drop,
      List.append_assoc]
  have hlen : (recutSteps cfg s.database (hashAfter none (pre ++ cur))
      ((row :: rest).take j)).length = ((row :: rest).take j).length := by
    rw [recutSteps_take, List.length_take, List.length_take, h.encodes]
  obtain ⟨hfinal, -⟩ := rounds_rows Z hrows (withdrawn_columns64 hcols first) hlen
  rw [recutSteps_take] at hfinal
  rw [← hfinal]
  refine epochRows_congr ?_
  rw [c.epochs, Write.applyAll_epochs, Write.foldl_epochsStep, (all_rounds Z _ _).1, recutSteps_take,
    withdrawn_epochs]

theorem Accepted.count (h : Accepted cfg s.database first pre cur row rest) :
    currentCount cfg s.database none s.database.epochRows = (pre ++ cur).length ∧
      staleSteps cfg s.database =
        recutSteps cfg s.database (hashAfter none (pre ++ cur)) (row :: rest) := by
  have hrows : s.database.epochRows = (pre ++ cur) ++ row :: rest := by
    rw [h.rows, List.append_assoc]
  have hcount : currentCount cfg s.database none s.database.epochRows = (pre ++ cur).length := by
    rw [hrows, currentCount_append h.current, currentCount_stale h.stale, Nat.add_zero]
  refine ⟨hcount, ?_⟩
  unfold staleSteps
  simp only
  rw [hcount, hrows, List.take_left, List.drop_left]

/-- What the first run has left to do, behind rows that rebuild to their records. -/
structure Left (cfg : ChainConfig) (d : Database) (first : Nat) (pre mid left : List EpochRow)
    (steps : List RecutStep) : Prop where
  fresh : ∀ r ∈ pre, r.idx ≠ first
  named : (mid ++ left).head?.map (·.idx) = some first
  current : Current cfg d none (pre ++ mid)
  steps_eq : recutSteps cfg d (hashAfter none (pre ++ mid)) left = steps
  length : steps.length = left.length

/-- A crash leaves the rest of the steps, on top of the rewritten rows. -/
theorem Crashed.left
    (c : Crashed Z cfg s first
      (recutSteps cfg s.database (hashAfter none (pre ++ cur)) (row :: rest)) x i j)
    (h : Accepted cfg s.database first pre cur row rest) (hcols : s.database.Columns64) :
    ∃ mid, mid.length = cur.length + j ∧
      x.database.epochRows = (pre ++ mid) ++ (row :: rest).drop j ∧
      Left cfg s.database first pre mid ((row :: rest).drop j)
        ((recutSteps cfg s.database (hashAfter none (pre ++ cur)) (row :: rest)).drop j) := by
  have hlen := h.encodes
  have hj : j ≤ (row :: rest).length := by
    rw [← hlen]
    exact le_trans c.order c.bound
  have hidx : ∀ r ∈ (row :: rest).take j, r.idx < 2 ^ 64 := fun r hr =>
    Database.epochRows_idx_lt (h.mem_rows (List.mem_of_mem_take hr))
  have htake := recutSteps_take cfg s.database (hashAfter none (pre ++ cur))
    (row :: rest) j
  have htakelen : (recutSteps cfg s.database (hashAfter none (pre ++ cur))
      ((row :: rest).take j)).length = ((row :: rest).take j).length := by
    rw [htake, List.length_take, List.length_take, hlen]
  refine ⟨cur ++ ((recutSteps cfg s.database (hashAfter none (pre ++ cur)) (row :: rest)).take
    j).map (stepRow Z cfg s.database), ?_, ?_, h.fresh, ?_, ?_, ?_, ?_⟩
  · rw [List.length_append, List.length_map, List.length_take, hlen]
    omega
  · rw [c.rows Z h hcols]
    simp only [List.append_assoc]
  · have hmap : (((recutSteps cfg s.database (hashAfter none (pre ++ cur)) (row :: rest)).take
        j).map (stepRow Z cfg s.database) ++ (row :: rest).drop j).map (·.idx) =
          (row :: rest).map (·.idx) := by
      rw [List.map_append, ← htake, map_idx_steps Z htakelen hidx, ← List.map_append,
        List.take_append_drop]
    rw [← List.head?_map, List.append_assoc, List.map_append, hmap, ← List.map_append,
      List.head?_map]
    exact h.named
  · rw [← List.append_assoc, current_append, ← htake]
    exact ⟨h.current, current_steps Z hidx⟩
  · rw [drop_steps_new Z hj hlen, ← hashAfter_append, List.append_assoc]
  · rw [List.length_drop, List.length_drop, hlen]

variable {y d : Database} {mid left : List EpochRow} {steps : List RecutStep}

theorem Left.count (l : Left cfg d first pre mid left steps) (hsame : SameBlocks d y)
    (hrows : y.epochRows = (pre ++ mid) ++ left) :
    currentCount cfg y none y.epochRows =
      (pre ++ mid).length + currentCount cfg d (hashAfter none (pre ++ mid)) left := by
  rw [currentCount_congr hsame, hrows, currentCount_append l.current]

/-- With nothing stale left the command refuses. -/
theorem Left.refused (l : Left cfg d first pre mid left steps) (hsame : SameBlocks d y)
    (hrows : y.epochRows = (pre ++ mid) ++ left)
    (hall : currentCount cfg d (hashAfter none (pre ++ mid)) left = left.length) :
    ∃ message, recutEpochsFrom Z cfg y first = ⟨[.layout], [], [], .error (.refused message)⟩ := by
  have hcurrent := current_take_count cfg d (hashAfter none (pre ++ mid)) left
  rw [hall, List.take_length] at hcurrent
  refine ⟨_, recutEpochsFrom_current Z ?_ l.fresh l.named ?_⟩
  · rw [hrows, List.append_assoc]
  · rw [Current.congr hsame, ← List.append_assoc]
    exact current_append.mpr ⟨l.current, hcurrent⟩

/-- Else it goes on from the first stale epoch, with the steps from there. -/
theorem Left.accepted (l : Left cfg d first pre mid left steps) (hsame : SameBlocks d y)
    (hrows : y.epochRows = (pre ++ mid) ++ left)
    (hlt : currentCount cfg d (hashAfter none (pre ++ mid)) left < left.length) :
    ∃ cur' row' rest', Accepted cfg y first pre cur' row' rest' ∧
      recutSteps cfg y (hashAfter none (pre ++ cur')) (row' :: rest') =
        steps.drop (currentCount cfg d (hashAfter none (pre ++ mid)) left) := by
  have hcurrent := current_take_count cfg d (hashAfter none (pre ++ mid)) left
  have hle := currentCount_le cfg d (hashAfter none (pre ++ mid)) left
  have hdrop := drop_steps_current hle hcurrent
  have hsplit := List.take_append_drop
    (currentCount cfg d (hashAfter none (pre ++ mid)) left) left
  have hlen := congrArg List.length hdrop
  have hstale := stale_drop_count cfg d (hashAfter none (pre ++ mid)) left
  generalize currentCount cfg d (hashAfter none (pre ++ mid)) left = q at *
  rw [l.steps_eq] at hdrop hlen
  rw [List.length_drop, l.length] at hlen
  cases htail : left.drop q with
  | nil =>
      rw [List.drop_eq_nil_iff] at htail
      omega
  | cons row' rest' =>
      have hassoc : pre ++ (mid ++ left.take q) = (pre ++ mid) ++ left.take q :=
        (List.append_assoc _ _ _).symm
      have hrow := hstale row' rest' htail
      rw [← hashAfter_append, ← hassoc] at hrow
      rw [← hashAfter_append, ← hassoc, htail] at hdrop hlen
      rw [htail] at hsplit
      refine ⟨mid ++ left.take q, row', rest', ⟨⟨?_, l.fresh, ?_, ?_, ?_⟩, ?_⟩, ?_⟩
      · rw [hrows, List.append_assoc, List.append_assoc, hsplit]
      · rw [List.append_assoc, hsplit]
        exact l.named
      · rw [Current.congr hsame, hassoc]
        exact current_append.mpr ⟨l.current, hcurrent⟩
      · rw [hsame.epochHash]
        exact hrow
      · rw [recutSteps_congr hsame, ← hlen, ← htail, List.length_drop]
      · rw [recutSteps_congr hsame, hdrop]

end

section

variable {s : Site} {first : Nat} {pre cur : List EpochRow} {row : EpochRow} {rest : List EpochRow}

/-- Rows and files an accepted re-cut ends with, and its manifest. -/
theorem Accepted.tables_final (h : Accepted cfg s.database first pre cur row rest) :
    let s' := Write.applyAll cfg s (recutEpochsFrom Z cfg s.database first).writes
    let steps := recutSteps cfg s.database (hashAfter none (pre ++ cur)) (row :: rest)
    s'.database.epochs =
        insertAll s.database.epochs (steps.map (stepEntry Z cfg s.database)) ∧
      s'.dir.epochs = insertAll s.dir.epochs (steps.map (stepFile Z)) ∧
      s'.dir.manifest = some (manifestOf cfg s'.database) := by
  intro s' steps
  obtain ⟨hrows, hfiles⟩ := all_rounds Z (d := s.database)
    (hashAfter none (pre ++ cur)) (row :: rest)
  have hlead := withdraw_rowOf (d := s.database) first
  refine ⟨?_, ?_, ?_⟩
  · show (Write.applyAll cfg s (recutEpochsFrom Z cfg s.database first).writes).database.epochs = _
    have hman : [Write.manifest].filterMap Write.rowOf = [] := rfl
    rw [h.writes Z, Write.applyAll_epochs, Write.foldl_epochsStep, List.filterMap_append,
      List.filterMap_append, hrows, List.filterMap_eq_nil_iff.mpr fun w hw => (hlead w hw).1, hman,
      List.nil_append, List.append_nil]
  · show (Write.applyAll cfg s (recutEpochsFrom Z cfg s.database first).writes).dir.epochs = _
    have hman : [Write.manifest].filterMap Write.fileOf = [] := rfl
    rw [h.writes Z, Write.applyAll_files, Write.foldl_filesStep, List.filterMap_append,
      List.filterMap_append, hfiles, List.filterMap_eq_nil_iff.mpr fun w hw => (hlead w hw).2, hman,
      List.nil_append, List.append_nil]
  · show (Write.applyAll cfg s (recutEpochsFrom Z cfg s.database first).writes).dir.manifest =
      some (manifestOf cfg
        (Write.applyAll cfg s (recutEpochsFrom Z cfg s.database first).writes).database)
    rw [h.writes Z, ← List.append_assoc]
    exact Write.applyAll_manifest cfg s _

theorem stepEntry_congr {d d' : Database} (hsame : SameBlocks d d') :
    stepEntry Z cfg d' = stepEntry Z cfg d := by
  obtain ⟨epochs, snapshots, rfl⟩ := hsame
  rfl

end

end

/-! ## The second run -/

/-- The same epoch rows, epoch files, snapshot rows and manifest. -/
structure SamePublication (a b : Site) : Prop where
  epochs : a.database.epochs = b.database.epochs
  files : a.dir.epochs = b.dir.epochs
  snapshots : a.database.snapshots = b.database.snapshots
  manifest : a.dir.manifest = b.dir.manifest

section

variable {Z : Zstd} {cfg : ChainConfig} {s x : Site} {first i j : Nat} {pre cur : List EpochRow}
  {row : EpochRow} {rest : List EpochRow}

/-- Snapshots below the named epoch are those of the first run. -/
theorem Crashed.snapshots_filter {steps : List RecutStep} (c : Crashed Z cfg s first steps x i j) :
    (x.database.snapshots.filter fun k _ => decide (toU64 k < first)) =
      s.database.snapshots.filter fun k _ => decide (toU64 k < first) := by
  refine ExtTreeMap.ext_getElem? fun k => ?_
  rw [getElem?_filter_key x.database.snapshots fun k => decide (toU64 k < first),
    getElem?_filter_key s.database.snapshots fun k => decide (toU64 k < first)]
  split
  · rename_i hlow
    exact c.kept k (of_decide_eq_true hlow)
  · rfl

/-- Once a file is written, the snapshots are withdrawn. -/
theorem Crashed.snapshots_gone {steps : List RecutStep} (c : Crashed Z cfg s first steps x i j)
    (hi : 0 < i) :
    x.database.snapshots = s.database.snapshots.filter fun k _ => decide (toU64 k < first) := by
  refine ExtTreeMap.ext_getElem? fun k => ?_
  rw [getElem?_filter_key s.database.snapshots fun k => decide (toU64 k < first)]
  by_cases hlow : toU64 k < first
  · simp only [hlow, decide_true, if_true]
    exact c.kept k hlow
  · simp only [hlow, decide_false, Bool.false_eq_true, if_false]
    exact c.gone hi k hlow

/-- Rows and files come out the same exactly if the skipped epochs are settled. -/
theorem Crashed.tables_iff
    (c : Crashed Z cfg s first
      (recutSteps cfg s.database (hashAfter none (pre ++ cur)) (row :: rest)) x i j)
    (h : Accepted cfg s.database first pre cur row rest) (hcols : s.database.Columns64) (t : Nat) :
    (insertAll x.database.epochs (((recutSteps cfg s.database (hashAfter none (pre ++ cur))
          (row :: rest)).drop t).map (stepEntry Z cfg s.database)) =
        insertAll s.database.epochs ((recutSteps cfg s.database (hashAfter none (pre ++ cur))
          (row :: rest)).map (stepEntry Z cfg s.database)) ∧
      insertAll x.dir.epochs (((recutSteps cfg s.database (hashAfter none (pre ++ cur))
          (row :: rest)).drop t).map (stepFile Z)) =
        insertAll s.dir.epochs ((recutSteps cfg s.database (hashAfter none (pre ++ cur))
          (row :: rest)).map (stepFile Z))) ↔
      ∀ step ∈ (recutSteps cfg s.database (hashAfter none (pre ++ cur)) (row :: rest)).take t,
        Settled Z cfg s.database x step := by
  obtain ⟨hkeys, hnames⟩ := h.keys_nodup Z hcols
  have hepochs := c.epochs
  have hfiles := c.files
  generalize recutSteps cfg s.database (hashAfter none (pre ++ cur)) (row :: rest) = steps at *
  have hoffRows : ∀ k, k ∉ (steps.map (stepEntry Z cfg s.database)).map Prod.fst →
      x.database.epochs[k]? = s.database.epochs[k]? := by
    intro k hk
    rw [hepochs, getElem?_insertAll_of_not_mem]
    intro hmem
    apply hk
    rw [List.map_take, List.map_take] at hmem
    exact List.mem_of_mem_take hmem
  have hoffFiles : ∀ k, k ∉ (steps.map (stepFile Z)).map Prod.fst →
      x.dir.epochs[k]? = s.dir.epochs[k]? := by
    intro k hk
    rw [hfiles, getElem?_insertAll_of_not_mem]
    intro hmem
    apply hk
    rw [List.map_take, List.map_take] at hmem
    exact List.mem_of_mem_take hmem
  rw [List.map_drop, List.map_drop, insertAll_drop_iff hkeys hoffRows,
    insertAll_drop_iff hnames hoffFiles, ← List.map_take, ← List.map_take, List.forall_mem_map,
    List.forall_mem_map]
  constructor
  · rintro ⟨hrow, hfile⟩ step hstep
    exact (settled_iff Z).mpr ⟨hrow step hstep, hfile step hstep⟩
  · intro hall
    exact ⟨fun step hstep => ((settled_iff Z).mp (hall step hstep)).1,
      fun step hstep => ((settled_iff Z).mp (hall step hstep)).2⟩

/-- What is written of the steps is settled. -/
theorem Crashed.settled {steps : List RecutStep} (c : Crashed Z cfg s first steps x i j)
    (hkeys : ((steps.map (stepEntry Z cfg s.database)).map Prod.fst).Nodup)
    (hnames : ((steps.map (stepFile Z)).map Prod.fst).Nodup) :
    ∀ step ∈ steps.take j, Settled Z cfg s.database x step := by
  intro step hstep
  have hfile : step ∈ steps.take i := (List.take_prefix_take_left c.order).subset hstep
  have hsub : ∀ n, (steps.take n).Sublist steps := fun n => List.take_sublist n steps
  rw [settled_iff, c.epochs, c.files]
  exact ⟨getElem?_insertAll_of_mem (List.mem_map_of_mem hstep)
      (hkeys.sublist (((hsub j).map _).map _)) s.database.epochs,
    getElem?_insertAll_of_mem (List.mem_map_of_mem hfile)
      (hnames.sublist (((hsub i).map _).map _)) s.dir.epochs⟩

/-- A crash is resumable if the first epoch without its row is still to be rewritten. -/
theorem Crashed.resumable
    (c : Crashed Z cfg s first
      (recutSteps cfg s.database (hashAfter none (pre ++ cur)) (row :: rest)) x i j)
    (h : Accepted cfg s.database first pre cur row rest) (hcols : s.database.Columns64)
    (hcount : currentCount cfg x.database none x.database.epochRows = (pre ++ cur).length + j)
    (hleft : currentCount cfg x.database none x.database.epochRows < x.database.epochRows.length) :
    Resumable Z cfg s.database x := by
  obtain ⟨hkeys, hnames⟩ := h.keys_nodup Z hcols
  obtain ⟨hstart, hsteps⟩ := h.count
  constructor
  · intro step hstep
    refine c.settled hkeys hnames step ?_
    rwa [skippedSteps, hcount, hstart, hsteps, Nat.add_sub_cancel_left] at hstep
  · intro hnone
    omega

end

/-- **Resuming a re-cut.** Of a re-cut that runs through, any crash between two
writes, and the same command again: it leaves what the uninterrupted run leaves,
exactly if the epochs it skips are as that run leaves them and, with no epoch stale
any more, the manifest was already rewritten. -/
theorem recut_resumes (Z : Zstd) (cfg : ChainConfig) (s : Site) (first n : Nat) (out : RecutOutcome)
    (hcols : s.database.Columns64)
    (hok : (recutEpochsFrom Z cfg s.database first).result = .ok out) :
    let writes := (recutEpochsFrom Z cfg s.database first).writes
    let x := Write.applyAll cfg s (writes.take n)
    SamePublication (Write.applyAll cfg x (recutEpochsFrom Z cfg x.database first).writes)
        (Write.applyAll cfg s writes) ↔
      Resumable Z cfg s.database x := by
  obtain ⟨pre, cur, row, rest, h⟩ := accepted_of_ok Z hok
  obtain ⟨i, j, c⟩ := h.crashed Z hcols n
  intro writes x
  obtain ⟨hcount, hsteps⟩ := h.count
  obtain ⟨hepochs, hfiles, hmanifest⟩ := h.tables_final Z
  have hsnapshots := h.snapshots_final Z hcols
  have hblocks : SameBlocks s.database (Write.applyAll cfg s writes).database :=
    Write.applyAll_blocks cfg s _
  obtain ⟨mid, hmid, hxrows, l⟩ := c.left Z h hcols
  have hcountx := l.count c.blocks hxrows
  have hqle := currentCount_le cfg s.database (hashAfter none (pre ++ mid))
    ((row :: rest).drop j)
  have hrefused := l.refused Z c.blocks hxrows
  have haccepted := l.accepted c.blocks hxrows
  generalize hq : currentCount cfg s.database (hashAfter none (pre ++ mid))
    ((row :: rest).drop j) = q at *
  have hskipped : skippedSteps cfg s.database x =
      (recutSteps cfg s.database (hashAfter none (pre ++ cur)) (row :: rest)).take (j + q) := by
    unfold skippedSteps
    rw [hcountx, hcount, hsteps, List.length_append, List.length_append, hmid]
    congr 1
    omega
  have htables := c.tables_iff h hcols (j + q)
  rw [← hskipped] at htables
  have hxlen : x.database.epochRows.length = (pre ++ mid).length + ((row :: rest).drop j).length := by
    rw [hxrows, List.length_append]
  rcases Nat.lt_or_eq_of_le hqle with hlt | hall
  · -- an epoch is still stale: the second run goes on
    obtain ⟨cur', row', rest', h', hsteps'⟩ := haccepted hlt
    obtain ⟨hepochs', hfiles', hmanifest'⟩ := h'.tables_final Z
    have hsnapshots' := h'.snapshots_final Z (c.columns64 Z hcols)
    rw [hsteps', List.drop_drop] at hepochs' hfiles'
    rw [stepEntry_congr Z c.blocks] at hepochs'
    have hblocks' := c.blocks.trans (Write.applyAll_blocks cfg x
      (recutEpochsFrom Z cfg x.database first).writes)
    constructor
    · intro hsame
      refine ⟨htables.mp ⟨?_, ?_⟩, ?_⟩
      · rw [← hepochs', hsame.epochs, hepochs]
      · rw [← hfiles', hsame.files, hfiles]
      · intro hnone
        rw [hcountx, hxlen] at hnone
        omega
    · intro hres
      obtain ⟨hrows, hfile⟩ := htables.mpr hres.settled
      have heq₁ := hepochs'.trans (hrows.trans hepochs.symm)
      have heq₂ := hsnapshots'.trans (c.snapshots_filter.trans hsnapshots.symm)
      refine ⟨heq₁, hfiles'.trans (hfile.trans hfiles.symm), heq₂, ?_⟩
      rw [hmanifest', hmanifest, hblocks'.ext hblocks heq₁ heq₂]
  · -- nothing is stale: the second run refuses
    obtain ⟨message, hrun⟩ := hrefused hall
    have hrerun : Write.applyAll cfg x (recutEpochsFrom Z cfg x.database first).writes =
        Write.applyAll cfg x [.layout] := by
      rw [hrun]
      rfl
    have hdone : j + q = (recutSteps cfg s.database (hashAfter none (pre ++ cur))
        (row :: rest)).length := by
      have hj := le_trans c.order c.bound
      rw [h.encodes] at hj ⊢
      rw [hall, List.length_drop]
      omega
    have hi : 0 < i := by
      -- the first epoch to rewrite was stale, so its row has been written
      rcases Nat.eq_zero_or_pos j with hj | hj
      · exfalso
        have hmidcur : pre ++ mid = pre ++ cur ∧ (row :: rest).drop j = row :: rest := by
          subst hj
          refine ⟨?_, rfl⟩
          have hrows := hxrows.symm.trans (c.rows Z h hcols)
          simp only [List.take_zero, List.map_nil, List.nil_append, List.drop_zero] at hrows
          exact List.append_cancel_right hrows
        rw [hmidcur.1, hmidcur.2, currentCount_stale h.stale] at hq
        rw [hmidcur.2, List.length_cons] at hall
        omega
      · exact lt_of_lt_of_le hj c.order
    rw [hdone, List.drop_length, List.map_nil, List.map_nil] at htables
    rw [hrerun]
    constructor
    · intro hsame
      refine ⟨htables.mp ⟨?_, ?_⟩, fun _ => ?_⟩
      · exact hsame.epochs.trans hepochs
      · exact hsame.files.trans hfiles
      · have hsamedb : (Write.applyAll cfg s writes).database = x.database :=
          hblocks.ext c.blocks hsame.epochs.symm hsame.snapshots.symm
        have hman : x.dir.manifest = (Write.applyAll cfg s writes).dir.manifest := hsame.manifest
        rw [hman, hmanifest, hsamedb]
    · intro hres
      obtain ⟨hrows, hfile⟩ := htables.mpr hres.settled
      have heq₁ : x.database.epochs = (Write.applyAll cfg s writes).database.epochs :=
        hrows.trans hepochs.symm
      have heq₂ : x.database.snapshots = (Write.applyAll cfg s writes).database.snapshots :=
        (c.snapshots_gone hi).trans hsnapshots.symm
      refine ⟨heq₁, hfile.trans hfiles.symm, heq₂, ?_⟩
      have hdescribed := hres.described (by rw [hcountx, hxlen, hall])
      show x.dir.manifest = _
      rw [hdescribed, hmanifest, c.blocks.ext hblocks heq₁ heq₂]

/-- The repaired site, rewritten up to the row of its last epoch. -/
def interruptedSite : Site :=
  let writes := (recutEpochsFrom plainZstd smallConfig repairedSite.database 0).writes
  Write.applyAll smallConfig repairedSite (writes.take (writes.length - 2))

/-- Stopped between the two rounds. -/
def betweenSite : Site :=
  let writes := (recutEpochsFrom plainZstd smallConfig repairedSite.database 0).writes
  Write.applyAll smallConfig repairedSite (writes.take 4)

/-- No epoch of the repaired site is current. Between the rounds epoch 0 is, and will be
skipped. -/
theorem betweenSite_count :
    currentCount smallConfig repairedSite.database none repairedSite.database.epochRows = 0 ∧
      currentCount smallConfig betweenSite.database none betweenSite.database.epochRows = 1 ∧
      betweenSite.database.epochRows.length = 2 := by
  decide +kernel

theorem betweenSite_resumable :
    Resumable plainZstd smallConfig repairedSite.database betweenSite := by
  obtain ⟨out, hout⟩ := repairedSite_accepted
  obtain ⟨pre, cur, row, rest, h⟩ := accepted_of_ok plainZstd hout
  obtain ⟨i, j, c⟩ : ∃ i j, Crashed plainZstd smallConfig repairedSite 0
      (recutSteps smallConfig repairedSite.database (hashAfter none (pre ++ cur)) (row :: rest))
      betweenSite i j := h.crashed plainZstd repairedSite_columns64 4
  obtain ⟨mid, hmid, hrows, l⟩ := c.left plainZstd h repairedSite_columns64
  obtain ⟨hzero, hone, htwo⟩ := betweenSite_count
  have hcur : pre ++ cur = [] := List.length_eq_zero_iff.mp (h.count.1.symm.trans hzero)
  have hlen : (pre ++ mid).length = (pre ++ cur).length + j := by
    rw [List.length_append, List.length_append, hmid, Nat.add_assoc]
  have hcount := l.count c.blocks hrows
  rw [hlen, hone] at hcount
  refine c.resumable h repairedSite_columns64 ?_ (by omega)
  cases j with
  | zero =>
      -- the first epoch went stale: were its row not written, none would be current
      exfalso
      have hmid' : pre ++ mid = [] := List.length_eq_zero_iff.mp (by rw [hlen, hcur]; rfl)
      have hstale := h.stale
      rw [hcur] at hstale
      rw [hmid', List.drop_zero, currentCount_stale hstale, hcur] at hcount
      cases hcount
  | succ j =>
      rw [hone]
      omega

/-- The same command again finishes the job. -/
theorem recut_resumes_between :
    let writes := (recutEpochsFrom plainZstd smallConfig repairedSite.database 0).writes
    let x := Write.applyAll smallConfig repairedSite (writes.take 4)
    SamePublication (Write.applyAll smallConfig x
        (recutEpochsFrom plainZstd smallConfig x.database 0).writes)
      (Write.applyAll smallConfig repairedSite writes) := by
  obtain ⟨out, hout⟩ := repairedSite_accepted
  exact (recut_resumes plainZstd smallConfig repairedSite 0 4 out repairedSite_columns64 hout).mpr
    betweenSite_resumable

/-- A crash between the last epoch's row and its manifest is not resumed: the second
run finds every epoch current, refuses, and leaves the manifest of the round before. -/
theorem recut_not_resumed_at_last_row :
    (recutEpochsFrom plainZstd smallConfig repairedSite.database 0).result.isOk = true ∧
      ¬ SamePublication (Write.applyAll smallConfig interruptedSite
          (recutEpochsFrom plainZstd smallConfig interruptedSite.database 0).writes)
        (Write.applyAll smallConfig repairedSite
          (recutEpochsFrom plainZstd smallConfig repairedSite.database 0).writes) := by
  refine ⟨by decide +kernel, fun h => ?_⟩
  have hdiffer : ((Write.applyAll smallConfig interruptedSite
      (recutEpochsFrom plainZstd smallConfig interruptedSite.database 0).writes).dir.manifest.map
        fun m => m.epochs.map (·.hash)) ≠
      ((Write.applyAll smallConfig repairedSite
        (recutEpochsFrom plainZstd smallConfig repairedSite.database 0).writes).dir.manifest.map
        fun m => m.epochs.map (·.hash)) := by
    decide +kernel
  exact hdiffer (by rw [h.manifest])

end Strk20.Indexer
