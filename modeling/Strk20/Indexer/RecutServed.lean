import Strk20.Indexer.RecutCrash

/-!
# What a re-cut serves between its rounds

Every epoch carries the content hash of the one below. A rewritten epoch has another
hash than before, and the file above it still carries the old one, so the feed is one
chain again only when the last round is through.

- `Served`: manifest and epoch files verify as one hash chain.
- `recut_served_iff`: after which rounds they do.
-/

namespace Strk20.Indexer

open Feed Feed.Codec Tables Json Result
open Consumer (toI64 toU64 toU64_toI64 toI64_inj)
open Std (ExtTreeMap)

/-! ## Epochs the cutter builds -/

section

variable {cfg : ChainConfig} {d : Database} {idx : Nat} {prev : Option Key}

/-- The blocks of an epoch are linked by parent hash where their numbers are adjacent. -/
def LinkedBlocks (cfg : ChainConfig) (d : Database) (idx : Nat) : Prop :=
  (d.blocksAsLines (cfg.epochRange idx).1 (cfg.epochRange idx).2 none).IsChain Linked

theorem buildEpoch_bounded : ∀ b ∈ (buildEpoch cfg d idx prev).blocks, b.Bounded := by
  intro b hb
  obtain ⟨r, hr, rfl⟩ := List.mem_map.mp hb
  obtain ⟨e, -, rfl⟩ := List.mem_map.mp hr
  refine ⟨toU64_lt _, toU64_lt _, ?_⟩
  intro line hline
  obtain ⟨ev, hev, rfl⟩ := List.mem_map.mp hline
  obtain ⟨x, -, rfl⟩ := List.mem_map.mp hev
  exact ⟨toU64_lt _, toU64_lt _⟩

theorem toI64_of_lt {n : Nat} (h : n < 2 ^ 63) : toI64 n = n := by
  unfold toI64
  simp only
  split <;> omega

theorem epochRange_le (cfg : ChainConfig) (idx : Nat) :
    (cfg.epochRange idx).1 ≤ (cfg.epochRange idx).2 := by
  show idx * cfg.epochSize ≤ (idx + 1) * cfg.epochSize - 1
  rw [Nat.succ_mul]
  rcases Nat.eq_zero_or_pos cfg.epochSize with hsize | hsize
  · rw [hsize]
    exact Nat.zero_le _
  · omega

theorem buildEpoch_inside (hfit : (cfg.epochRange idx).2 < 2 ^ 63) :
    ∀ b ∈ (buildEpoch cfg d idx prev).blocks,
      ((cfg.epochRange idx).1 ≤ b.number ∧ b.number ≤ (cfg.epochRange idx).2) ∧
        b.finality = none := by
  intro b hb
  obtain ⟨r, hr, rfl⟩ := List.mem_map.mp hb
  obtain ⟨e, he, rfl⟩ := List.mem_map.mp hr
  have hrange := of_decide_eq_true (List.mem_filter.mp he).2
  have hle := epochRange_le cfg idx
  rw [toI64_of_lt hfit, toI64_of_lt (lt_of_le_of_lt hle hfit)] at hrange
  have hnumber : (d.blockLineOf none (Database.rowToBlock e.1 e.2)).number = e.1.toNat := by
    show toU64 e.1 = e.1.toNat
    unfold toU64
    omega
  rw [hnumber]
  exact ⟨by omega, rfl⟩

theorem sorted_of_assertInvariants {blocks : List BlockLine} (h : assertInvariants blocks = true) :
    ∀ b ∈ blocks, BlockLine.Sorted b := by
  intro b hb
  rw [assertInvariants, Bool.and_eq_true] at h
  have hsorted := List.all_eq_true.mp h.2 b hb
  rw [Bool.and_eq_true, windows_all_iff, windows_all_iff] at hsorted
  exact ⟨hsorted.1.imp fun _ _ hxy => by simpa using hxy,
    hsorted.2.imp fun _ _ hxy => by simpa using hxy⟩

variable (P : FeltParser) (J : JsonParser)

/-- What the cutter encodes parses exactly if its blocks are linked, and then into
what was encoded. -/
theorem parseEpoch_built {payload : ByteArray} {epoch : Epoch} (hchain : PlainStr cfg.chainId)
    (hidx : idx < 2 ^ 64) (hfit : (cfg.epochRange idx).2 < 2 ^ 63)
    (hencode : encodeEpoch (buildEpoch cfg d idx prev) = some payload) :
    parseEpoch P J payload = .ok epoch ↔
      epoch = buildEpoch cfg d idx prev ∧ LinkedBlocks cfg d idx := by
  unfold encodeEpoch at hencode
  split at hencode
  · rename_i hassert
    have hle := epochRange_le cfg idx
    have hbytes : payload = epochBytes (buildEpoch cfg d idx prev) := (Option.some.inj hencode).symm
    have hheader : EpochHeader.Bounded (buildEpoch cfg d idx prev).header :=
      ⟨hchain, hidx, lt_trans (lt_of_le_of_lt hle hfit) (by norm_num), lt_trans hfit (by norm_num)⟩
    have hsorted := (checkSorted_ok_iff _).mpr (sorted_of_assertInvariants hassert)
    have hinside := (checkEpochBlocks_ok_iff (cfg.epochRange idx).1 (cfg.epochRange idx).2
      (buildEpoch cfg d idx prev).blocks).mpr (buildEpoch_inside hfit)
    have hinside' : checkEpochBlocks (buildEpoch cfg d idx prev).header.first
        (buildEpoch cfg d idx prev).header.last (buildEpoch cfg d idx prev).blocks = .ok () := hinside
    have hlinked : LinkedBlocks cfg d idx ↔ checkLinks (buildEpoch cfg d idx prev).blocks = .ok () :=
      (checkLinks_ok_iff _).symm
    rw [hbytes, parseEpoch_encoded P J hheader buildEpoch_bounded ⟨rfl, rfl, rfl⟩, hsorted,
      hinside', hlinked]
    cases checkLinks (buildEpoch cfg d idx prev).blocks with
    | error e =>
        constructor
        · intro h
          cases h
        · rintro ⟨-, h⟩
          cases h
    | ok u =>
        show Except.ok (buildEpoch cfg d idx prev) = .ok epoch ↔ _
        rw [Except.ok.injEq]
        exact ⟨fun h => ⟨h.symm, rfl⟩, fun h => h.1.symm⟩
  · cases hencode

end

/-! ## The feed on disk -/

section

variable (P : FeltParser) (J : JsonParser) (Z : Zstd)

/-- Payload of an epoch's file. -/
def payloadOf (files : ExtTreeMap Nat ByteArray) (idx : Nat) : Option ByteArray :=
  (files[idx]?).bind Z.expand

/-- Manifest entries with their payloads; `none` where a file is missing. -/
def chainItems (files : ExtTreeMap Nat ByteArray) (entries : List EpochEntry) :
    Option (List (ManifestEpoch × ByteArray)) :=
  entries.mapM fun entry => (payloadOf Z files entry.e).map fun payload =>
    (entry.toManifestEpoch, payload)

/-- Manifest and epoch files verify as one hash chain. -/
def Served (dir : FeedDir) : Prop :=
  ∃ manifest items epochs, dir.manifest = some manifest ∧
    chainItems Z dir.epochs manifest.epochs = some items ∧ verifyChain P J none items = .ok epochs

/-- Rows whose files verify, on top of a content hash. -/
def RowsServed (files : ExtTreeMap Nat ByteArray) : Option Key → List EpochRow → Prop
  | _, [] => True
  | prev, row :: rest =>
      (∃ payload epoch, payloadOf Z files row.idx = some payload ∧
        Verified P J payload row.entry.toManifestEpoch prev epoch) ∧
      RowsServed files (some row.contentHash) rest

variable {P J Z} {files : ExtTreeMap Nat ByteArray}

theorem Verified.contentHash {payload : ByteArray} {row : EpochRow} {prev : Option Key}
    {epoch : Epoch} (h : Verified P J payload row.entry.toManifestEpoch prev epoch) :
    payloadSha256 payload = row.contentHash :=
  hexEncode_inj h.hash

theorem verifyChain_rows {prev : Option Key} {rows : List EpochRow} :
    (∃ items epochs, chainItems Z files (rows.map EpochRow.entry) = some items ∧
      verifyChain P J prev items = .ok epochs) ↔ RowsServed P J Z files prev rows := by
  induction rows generalizing prev with
  | nil => exact ⟨fun _ => trivial, fun _ => ⟨[], [], rfl, rfl⟩⟩
  | cons row rest ih =>
      rw [RowsServed, ← ih, List.map_cons]
      unfold chainItems
      rw [List.mapM_cons]
      constructor
      · rintro ⟨items, epochs, hitems, hchain⟩
        obtain ⟨item, hitem, hitems⟩ := Option.bind_eq_some_iff.mp hitems
        obtain ⟨tail, htail, hitems⟩ := Option.bind_eq_some_iff.mp hitems
        obtain ⟨payload, hpayload, rfl⟩ := Option.map_eq_some_iff.mp hitem
        obtain rfl := Option.some.inj hitems
        obtain ⟨epoch, hepoch, hchain⟩ := bind_eq_ok.mp hchain
        obtain ⟨out, hout, -⟩ := bind_eq_ok.mp hchain
        have hverified := (verifyEpochAgainstManifest_eq_ok P J).mp hepoch
        refine ⟨⟨payload, epoch, hpayload, hverified⟩, tail, out, htail, ?_⟩
        rw [← Verified.contentHash hverified]
        exact hout
      · rintro ⟨⟨payload, epoch, hpayload, hverified⟩, tail, out, htail, hout⟩
        rw [← Verified.contentHash hverified] at hout
        have hepoch := (verifyEpochAgainstManifest_eq_ok P J).mpr hverified
        refine ⟨(row.entry.toManifestEpoch, payload) :: tail, epoch :: out, ?_, ?_⟩
        · have hitem : payloadOf Z files row.entry.e = some payload := hpayload
          rw [hitem, htail]
          rfl
        · rw [verifyChain, hepoch, hout]
          rfl

/-- A directory whose manifest lists these rows. -/
theorem served_iff {dir : FeedDir} {manifest : ManifestFile} {rows : List EpochRow}
    (hmanifest : dir.manifest = some manifest) (hrows : manifest.epochs = rows.map EpochRow.entry) :
    Served P J Z dir ↔ RowsServed P J Z dir.epochs none rows := by
  rw [← verifyChain_rows, ← hrows]
  constructor
  · rintro ⟨m, items, epochs, hm, hitems, hchain⟩
    obtain rfl := Option.some.inj (hmanifest.symm.trans hm)
    exact ⟨items, epochs, hitems, hchain⟩
  · rintro ⟨items, epochs, hitems, hchain⟩
    exact ⟨manifest, items, epochs, hmanifest, hitems, hchain⟩

theorem RowsServed.append_iff {prev : Option Key} {a b : List EpochRow} :
    RowsServed P J Z files prev (a ++ b) ↔
      RowsServed P J Z files prev a ∧ RowsServed P J Z files (hashAfter prev a) b := by
  induction a generalizing prev with
  | nil => exact ⟨fun h => ⟨trivial, h⟩, fun h => h.2⟩
  | cons row rest ih =>
      rw [List.cons_append, RowsServed, RowsServed, ih, and_assoc]
      rfl

theorem RowsServed.congr {files' : ExtTreeMap Nat ByteArray} {prev : Option Key}
    {rows : List EpochRow} (h : ∀ row ∈ rows, files'[row.idx]? = files[row.idx]?) :
    RowsServed P J Z files' prev rows ↔ RowsServed P J Z files prev rows := by
  induction rows generalizing prev with
  | nil => exact Iff.rfl
  | cons row rest ih =>
      obtain ⟨hrow, hrest⟩ := List.forall_mem_cons.mp h
      rw [RowsServed, RowsServed, ih hrest, payloadOf, payloadOf, hrow]

/-- The lowest of some rows is verified on one content hash only. -/
theorem RowsServed.prev_unique {prev prev' : Option Key} {row : EpochRow} {rest rest' : List EpochRow}
    (h : RowsServed P J Z files prev (row :: rest))
    (h' : RowsServed P J Z files prev' (row :: rest')) : prev = prev' := by
  obtain ⟨⟨payload, epoch, hpayload, hverified⟩, -⟩ := h
  obtain ⟨⟨payload', epoch', hpayload', hverified'⟩, -⟩ := h'
  obtain rfl := Option.some.inj (hpayload.symm.trans hpayload')
  obtain rfl := Except.ok.inj (hverified.parsed.symm.trans hverified'.parsed)
  exact hverified.prev.symm.trans hverified'.prev

/-! ## Rewritten epochs -/

variable {cfg : ChainConfig} {d : Database}

theorem stepRow_contentHash (step : RecutStep) :
    (stepRow Z cfg d step).contentHash = payloadSha256 step.2.2 := rfl

/-- A rewritten epoch verifies on what it was cut on, if its blocks are linked. -/
theorem verified_step {row : EpochRow} {prev : Option Key} {payload : ByteArray}
    (hchain : PlainStr cfg.chainId) (hidx : row.idx < 2 ^ 64)
    (hfit : (cfg.epochRange row.idx).2 < 2 ^ 63)
    (hencode : encodeEpoch (buildEpoch cfg d row.idx prev) = some payload) :
    (∃ epoch, Verified P J payload (stepRow Z cfg d (row, prev, payload)).entry.toManifestEpoch
      prev epoch) ↔ LinkedBlocks cfg d row.idx := by
  have hparse : ∀ epoch, parseEpoch P J payload = .ok epoch ↔ _ := fun epoch =>
    parseEpoch_built P J hchain hidx hfit hencode
  constructor
  · rintro ⟨epoch, h⟩
    exact ((hparse epoch).mp h.parsed).2
  · intro hlinked
    have hle := epochRange_le cfg row.idx
    have hlast : toU64 (toI64 (cfg.epochRange row.idx).2) = (cfg.epochRange row.idx).2 :=
      toU64_toI64 (lt_trans hfit (by norm_num))
    have hfirst : toU64 (toI64 (cfg.epochRange row.idx).1) = (cfg.epochRange row.idx).1 :=
      toU64_toI64 (lt_trans (lt_of_le_of_lt hle hfit) (by norm_num))
    have hentry : (stepRow Z cfg d (row, prev, payload)).entry.toManifestEpoch =
        ⟨toU64 (toI64 row.idx), toU64 (toI64 (cfg.epochRange row.idx).1),
          toU64 (toI64 (cfg.epochRange row.idx).2), hexEncode (payloadSha256 payload)⟩ := by
      simp only [stepRow, epochRowOf, EpochRow.entry, recutRec]
    rw [hentry, hfirst, hlast, toU64_toI64 hidx]
    exact ⟨_, rfl, (hparse _).mpr ⟨rfl, hlinked⟩, rfl, rfl, rfl, rfl⟩

/-- Rewritten rows with their files verify, if their blocks are linked. -/
theorem rowsServed_steps {prev : Option Key} {rows : List EpochRow} (hchain : PlainStr cfg.chainId)
    (hidx : ∀ row ∈ rows, row.idx < 2 ^ 64)
    (hfit : ∀ row ∈ rows, (cfg.epochRange row.idx).2 < 2 ^ 63)
    (hlen : (recutSteps cfg d prev rows).length = rows.length)
    (hfiles : ∀ step ∈ recutSteps cfg d prev rows, files[step.1.idx]? = some (Z.compress step.2.2)) :
    RowsServed P J Z files prev ((recutSteps cfg d prev rows).map (stepRow Z cfg d)) ↔
      ∀ row ∈ rows, LinkedBlocks cfg d row.idx := by
  induction rows generalizing prev with
  | nil => exact ⟨fun _ row hrow => absurd hrow List.not_mem_nil, fun _ => trivial⟩
  | cons row rest ih =>
      obtain ⟨payload, hencode, hrest⟩ := encodes_head hlen
      obtain ⟨hidx, hidxs⟩ := List.forall_mem_cons.mp hidx
      obtain ⟨hfit, hfits⟩ := List.forall_mem_cons.mp hfit
      rw [recutSteps_cons hencode] at hfiles
      obtain ⟨hfile, hfiles⟩ := List.forall_mem_cons.mp hfiles
      have hverified := verified_step (P := P) (J := J) (Z := Z) hchain hidx hfit hencode
      have hpayload : payloadOf Z files (stepRow Z cfg d (row, prev, payload)).idx = some payload := by
        rw [stepRow_idx Z (s := (row, prev, payload)) hidx, payloadOf, hfile, Option.bind_some,
          Z.expand_compress]
      rw [recutSteps_cons hencode, List.map_cons, RowsServed, stepRow_contentHash,
        ih hidxs hfits hrest hfiles, hpayload, List.forall_mem_cons, ← hverified]
      refine and_congr_left fun _ => ?_
      constructor
      · rintro ⟨p, epoch, hp, h⟩
        obtain rfl := Option.some.inj hp
        exact ⟨epoch, h⟩
      · rintro ⟨epoch, h⟩
        exact ⟨payload, epoch, rfl, h⟩

/-- Epochs cut on another content hash have other content hashes, all the way up. -/
theorem hashAfter_steps_ne {old new : Option Key} {rows : List EpochRow}
    (hchain : PlainStr cfg.chainId) (hidx : ∀ row ∈ rows, row.idx < 2 ^ 64)
    (hfit : ∀ row ∈ rows, (cfg.epochRange row.idx).2 < 2 ^ 63)
    (hlen : (recutSteps cfg d new rows).length = rows.length)
    (hcollide : ∀ step ∈ recutSteps cfg d new rows, ∀ p, payloadOf Z files step.1.idx = some p →
      payloadSha256 p = payloadSha256 step.2.2 → p = step.2.2)
    (hserved : RowsServed P J Z files old rows) (hne : old ≠ new) :
    hashAfter old rows ≠ hashAfter new ((recutSteps cfg d new rows).map (stepRow Z cfg d)) := by
  induction rows generalizing old new with
  | nil => exact hne
  | cons row rest ih =>
      obtain ⟨payload, hencode, hrest⟩ := encodes_head hlen
      obtain ⟨hidx, hidxs⟩ := List.forall_mem_cons.mp hidx
      obtain ⟨hfit, hfits⟩ := List.forall_mem_cons.mp hfit
      rw [recutSteps_cons hencode] at hcollide
      obtain ⟨hhere, hcollide⟩ := List.forall_mem_cons.mp hcollide
      obtain ⟨⟨p, epoch, hp, hverified⟩, hserved⟩ := hserved
      rw [recutSteps_cons hencode, List.map_cons, hashAfter, hashAfter, stepRow_contentHash]
      refine ih hidxs hfits hrest hcollide hserved fun heq => hne ?_
      -- the same hash is the same payload, and that carries what it was cut on
      have hhash : payloadSha256 p = payloadSha256 payload := by
        rw [Verified.contentHash hverified]
        exact Option.some.inj heq
      obtain rfl := hhere p hp hhash
      have hbuilt := ((parseEpoch_built P J hchain hidx hfit hencode).mp hverified.parsed).1
      rw [← hverified.prev, hbuilt]
      rfl

end

/-! ## Stopping between two rounds -/

/-- Epochs from the lowest stale one up. -/
def staleRows (cfg : ChainConfig) (d : Database) : List EpochRow :=
  d.epochRows.drop (currentCount cfg d none d.epochRows)

/-- No published payload of an epoch to rewrite has the hash of its new one and is
another payload. -/
def CollisionFree (Z : Zstd) (cfg : ChainConfig) (s : Site) : Prop :=
  ∀ step ∈ staleSteps cfg s.database, ∀ payload,
    payloadOf Z s.dir.epochs step.1.idx = some payload →
      payloadSha256 payload = payloadSha256 step.2.2 → payload = step.2.2

section

variable (Z : Zstd) {cfg : ChainConfig} {s : Site} {first : Nat} {pre cur : List EpochRow}
  {row : EpochRow} {rest : List EpochRow}

theorem Located.currentCount_eq (h : Located cfg s.database first pre cur row rest) :
    currentCount cfg s.database none s.database.epochRows = (pre ++ cur).length := by
  rw [h.rows, ← List.append_assoc, currentCount_append h.current, currentCount_stale h.stale]
  rfl

theorem Located.staleRows_eq (h : Located cfg s.database first pre cur row rest) :
    staleRows cfg s.database = row :: rest := by
  unfold staleRows
  rw [h.currentCount_eq, h.rows, ← List.append_assoc, List.drop_left]

theorem Located.staleSteps_eq (h : Located cfg s.database first pre cur row rest) :
    staleSteps cfg s.database =
      recutSteps cfg s.database (hashAfter none (pre ++ cur)) (row :: rest) := by
  unfold staleSteps
  simp only [h.currentCount_eq]
  rw [h.rows, ← List.append_assoc, List.drop_left, List.take_left]

theorem recutRounds_take (prev : Option Key) (rows : List EpochRow) (k : Nat) :
    (recutRounds Z cfg s.database prev rows).take k =
      recutRounds Z cfg s.database prev (rows.take k) := by
  unfold recutRounds
  rw [recutSteps_take, List.map_take]

/-- The rounds and the head of the run, whether or not the encoder panics later. -/
theorem Located.rounds (h : Located cfg s.database first pre cur row rest) :
    (recutEpochsFrom Z cfg s.database first).before = [.layout] ∧
      (recutEpochsFrom Z cfg s.database first).rounds =
        roundsFrom Z cfg s.database first (hashAfter none (pre ++ cur)) (row :: rest) := by
  by_cases hlen : (recutSteps cfg s.database (hashAfter none (pre ++ cur)) (row :: rest)).length =
      (row :: rest).length
  · obtain ⟨out, hrun⟩ := (h.run Z).1 hlen
    rw [hrun]
    exact ⟨rfl, rfl⟩
  · rw [(h.run Z).2 hlen]
    exact ⟨rfl, rfl⟩

/-- The site after `k` rounds. -/
def siteAfter (cfg : ChainConfig) (s : Site) (first k : Nat) : Site :=
  let run := recutEpochsFrom Z cfg s.database first
  Write.applyAll cfg s (run.before ++ (run.rounds.take k).flatten)

theorem Located.length_rounds (h : Located cfg s.database first pre cur row rest) :
    (recutEpochsFrom Z cfg s.database first).rounds.length =
      (recutSteps cfg s.database (hashAfter none (pre ++ cur)) (row :: rest)).length := by
  rw [(h.rounds Z).2, roundsFrom]
  unfold recutRounds
  cases recutSteps cfg s.database (hashAfter none (pre ++ cur)) (row :: rest) with
  | nil => rfl
  | cons step steps =>
      rw [List.map_cons]
      simp only [List.length_cons, List.length_map]

/-- Some rounds, in terms of the withdrawn site. -/
theorem Located.siteAfter_eq (h : Located cfg s.database first pre cur row rest) {k : Nat}
    (hpos : 0 < k) (hk : k ≤ (recutEpochsFrom Z cfg s.database first).rounds.length) :
    siteAfter Z cfg s first k = Write.applyAll cfg (withdrawn cfg s first)
      (recutRounds Z cfg s.database (hashAfter none (pre ++ cur)) ((row :: rest).take k)).flatten := by
  rw [h.length_rounds Z] at hk
  obtain ⟨hbefore, hrounds⟩ := h.rounds Z
  have hflatten : [Write.layout] ++ ((roundsFrom Z cfg s.database first (hashAfter none (pre ++ cur))
      (row :: rest)).take k).flatten = (.layout :: (withdrawSnapshotsFrom s.database first).1) ++
        (recutRounds Z cfg s.database (hashAfter none (pre ++ cur)) ((row :: rest).take k)).flatten := by
    rw [← recutRounds_take]
    unfold roundsFrom recutRounds
    cases hsteps : recutSteps cfg s.database (hashAfter none (pre ++ cur)) (row :: rest) with
    | nil =>
        rw [hsteps, List.length_nil] at hk
        omega
    | cons step steps =>
        obtain ⟨k, rfl⟩ := Nat.exists_eq_succ_of_ne_zero (Nat.ne_of_gt hpos)
        rw [List.map_cons]
        simp
  unfold siteAfter withdrawn
  simp only [hbefore, hrounds]
  rw [hflatten, Write.applyAll_append]

/-- A round ends with the manifest. -/
theorem rounds_end {d : Database} {prev : Option Key} {rows : List EpochRow}
    (h : recutSteps cfg d prev rows ≠ []) :
    ∃ ws, (recutRounds Z cfg d prev rows).flatten = ws ++ [Write.manifest] := by
  unfold recutRounds
  rcases List.eq_nil_or_concat' (recutSteps cfg d prev rows) with hnil | ⟨steps, step, hlast⟩
  · exact absurd hnil h
  · rw [hlast, List.map_append, List.flatten_append]
    refine ⟨(steps.map fun s => recutRound Z cfg d s.1 s.2.1 s.2.2).flatten ++
      [.epochFile step.1.idx (Z.compress step.2.2),
        .epochRow step.1.idx (recutRec Z cfg d step.1 step.2.1 step.2.2)], ?_⟩
    rw [List.append_assoc]
    rfl

theorem withdrawn_files (s : Site) (first : Nat) :
    (withdrawn cfg s first).dir.epochs = s.dir.epochs := by
  unfold withdrawn
  rw [Write.applyAll_files, List.foldl_cons, withdraw_files]
  rfl

theorem epochRows_idx_nodup {d : Database} (hcols : d.Columns64) :
    (d.epochRows.map (·.idx)).Nodup := by
  have hkeys := epochRows_nodup hcols
  have hcomp : (fun r : EpochRow => toI64 r.idx) = toI64 ∘ (fun r : EpochRow => r.idx) := by
    funext r
    rw [Function.comp_apply]
  rw [hcomp, ← List.map_map] at hkeys
  exact List.Nodup.of_map toI64 hkeys

/-- Rows, files and manifest after some rounds. -/
theorem Located.after (h : Located cfg s.database first pre cur row rest)
    (hcols : s.database.Columns64) {k : Nat} (hpos : 0 < k)
    (hk : k ≤ (recutEpochsFrom Z cfg s.database first).rounds.length) :
    let x := siteAfter Z cfg s first k
    let steps := recutSteps cfg s.database (hashAfter none (pre ++ cur)) ((row :: rest).take k)
    steps.length = ((row :: rest).take k).length ∧
      x.database.epochRows = (pre ++ cur) ++ (steps.map (stepRow Z cfg s.database) ++
        (row :: rest).drop k) ∧
      x.dir.epochs = insertAll s.dir.epochs (steps.map (stepFile Z)) ∧
      x.dir.manifest = some (manifestOf cfg x.database) := by
  intro x steps
  have hx : x = Write.applyAll cfg (withdrawn cfg s first) _ := h.siteAfter_eq Z hpos hk
  have hle := hk
  rw [h.length_rounds Z] at hle
  have hlen : steps.length = ((row :: rest).take k).length := by
    show (recutSteps cfg s.database (hashAfter none (pre ++ cur)) ((row :: rest).take k)).length = _
    rw [recutSteps_take, List.length_take, List.length_take]
    have hshort : ∀ (prev : Option Key) (rows : List EpochRow),
        (recutSteps cfg s.database prev rows).length ≤ rows.length := by
      intro prev rows
      induction rows generalizing prev with
      | nil => exact le_rfl
      | cons r rows ih =>
          rw [recutSteps]
          cases encodeEpoch (buildEpoch cfg s.database r.idx prev) with
          | none => exact Nat.zero_le _
          | some payload => exact Nat.succ_le_succ (ih _)
    have := hshort (hashAfter none (pre ++ cur)) (row :: rest)
    omega
  have hne : steps ≠ [] := by
    intro hnil
    rw [hnil, List.length_nil, List.length_take, List.length_cons] at hlen
    omega
  have hrows : (withdrawn cfg s first).database.epochRows =
      (pre ++ cur) ++ ((row :: rest).take k ++ (row :: rest).drop k) := by
    rw [epochRows_congr (withdrawn_epochs s first), h.rows, List.take_append_drop,
      List.append_assoc]
  refine ⟨hlen, ?_, ?_, ?_⟩
  · rw [hx]
    exact (rounds_rows Z hrows (withdrawn_columns64 hcols first) hlen).1
  · rw [hx, Write.applyAll_files, Write.foldl_filesStep, (all_rounds Z _ _).2, withdrawn_files]
  · obtain ⟨ws, hws⟩ := rounds_end Z hne
    rw [hx, hws]
    exact Write.applyAll_manifest cfg _ ws

end

section

variable {P : FeltParser} {J : JsonParser} {Z : Zstd} {cfg : ChainConfig} {s : Site} {first : Nat}
  {pre cur : List EpochRow} {row : EpochRow} {rest : List EpochRow}

/-- After some rounds the feed is one chain exactly if no old epoch is left above. -/
theorem Located.served_iff (h : Located cfg s.database first pre cur row rest)
    (hcols : s.database.Columns64) (hchain : PlainStr cfg.chainId)
    (hfit : ∀ r ∈ s.database.epochRows, (cfg.epochRange r.idx).2 < 2 ^ 63)
    (hserved : RowsServed P J Z s.dir.epochs none s.database.epochRows)
    (hcollide : CollisionFree Z cfg s) {k : Nat} (hpos : 0 < k)
    (hk : k ≤ (recutEpochsFrom Z cfg s.database first).rounds.length) :
    Served P J Z (siteAfter Z cfg s first k).dir ↔
      k = (row :: rest).length ∧ ∀ r ∈ row :: rest, LinkedBlocks cfg s.database r.idx := by
  obtain ⟨hlen, hrows, hfiles, hmanifest⟩ := h.after Z hcols hpos hk
  have hsteps := h.staleSteps_eq
  have hmem : ∀ r ∈ row :: rest, r ∈ s.database.epochRows := by
    intro r hr
    rw [h.rows]
    exact List.mem_append_right _ (List.mem_append_right _ hr)
  have hidx : ∀ r ∈ row :: rest, r.idx < 2 ^ 64 := fun r hr =>
    Database.epochRows_idx_lt (hmem r hr)
  have hnodup := epochRows_idx_nodup hcols
  rw [h.rows, ← List.append_assoc] at hserved hnodup
  rw [← List.take_append_drop k (row :: rest)] at hserved hnodup
  obtain ⟨hbelow, hold⟩ := RowsServed.append_iff.mp hserved
  have hsplit : ((row :: rest).take k ++ (row :: rest).drop k).map (·.idx) =
      ((row :: rest).take k).map (·.idx) ++ ((row :: rest).drop k).map (·.idx) := List.map_append
  rw [List.map_append, hsplit] at hnodup
  obtain ⟨-, hnodup, hdisjoint⟩ := List.nodup_append.mp hnodup
  obtain ⟨hkeys, -, hapart⟩ := List.nodup_append.mp hnodup
  have htake : ∀ r ∈ (row :: rest).take k, r ∈ row :: rest := fun r hr => List.mem_of_mem_take hr
  have hcollide' : ∀ step ∈ recutSteps cfg s.database (hashAfter none (pre ++ cur))
      ((row :: rest).take k), ∀ p, payloadOf Z s.dir.epochs step.1.idx = some p →
        payloadSha256 p = payloadSha256 step.2.2 → p = step.2.2 := by
    intro step hstep
    apply hcollide
    rw [hsteps]
    rw [recutSteps_take] at hstep
    exact List.mem_of_mem_take hstep
  have hrowsOf := map_row_steps hlen
  have hnames : ∀ r : EpochRow, r.idx ∈ ((recutSteps cfg s.database (hashAfter none (pre ++ cur))
      ((row :: rest).take k)).map (stepFile Z)).map Prod.fst ↔
        r.idx ∈ ((row :: rest).take k).map (·.idx) := by
    intro r
    conv_rhs => rw [← hrowsOf, List.map_map]
    rw [List.map_map]
    rfl
  have hnamesNodup : (((recutSteps cfg s.database (hashAfter none (pre ++ cur))
      ((row :: rest).take k)).map (stepFile Z)).map Prod.fst).Nodup := by
    rw [← hrowsOf, List.map_map] at hkeys
    rw [List.map_map]
    exact hkeys
  -- files of the other epochs are the published ones
  have hkept : ∀ r : EpochRow, r.idx ∉ ((row :: rest).take k).map (·.idx) →
      (siteAfter Z cfg s first k).dir.epochs[r.idx]? = s.dir.epochs[r.idx]? := by
    intro r hr
    rw [hfiles, getElem?_insertAll_of_not_mem]
    rw [hnames]
    exact hr
  have hwritten : ∀ step ∈ recutSteps cfg s.database (hashAfter none (pre ++ cur))
      ((row :: rest).take k),
      (siteAfter Z cfg s first k).dir.epochs[step.1.idx]? = some (Z.compress step.2.2) := by
    intro step hstep
    rw [hfiles]
    exact getElem?_insertAll_of_mem (List.mem_map_of_mem (f := stepFile Z) hstep) hnamesNodup _
  have hbelow' : RowsServed P J Z (siteAfter Z cfg s first k).dir.epochs none (pre ++ cur) := by
    refine (RowsServed.congr fun r hr => hkept r ?_).mpr hbelow
    intro hin
    exact hdisjoint _ (List.mem_map_of_mem hr) _ (List.mem_append_left _ hin) rfl
  have hnew := rowsServed_steps (P := P) (J := J) (Z := Z) hchain (fun r hr => hidx r (htake r hr))
    (fun r hr => hfit r (hmem r (htake r hr))) hlen hwritten
  rw [Indexer.served_iff hmanifest rfl, hrows, RowsServed.append_iff (a := pre ++ cur),
    RowsServed.append_iff (a := (recutSteps cfg s.database (hashAfter none (pre ++ cur))
      ((row :: rest).take k)).map (stepRow Z cfg s.database)), hnew]
  constructor
  · rintro ⟨-, hlinked, habove⟩
    obtain ⟨holdTake, holdDrop⟩ := RowsServed.append_iff.mp hold
    -- stopped short: the epoch after the last rewritten one is still published
    cases hdrop : (row :: rest).drop k with
    | nil =>
        have hall : (row :: rest).take k = row :: rest :=
          List.take_of_length_le (List.drop_eq_nil_iff.mp hdrop)
        rw [hall] at hlinked hlen
        have hlast := List.drop_eq_nil_iff.mp hdrop
        rw [h.length_rounds Z] at hk
        refine ⟨?_, hlinked⟩
        rw [hlen] at hk
        omega
    | cons r later =>
        -- the file of the next epoch carries the content hash from before
        exfalso
        rw [hdrop] at habove holdDrop hapart
        have hr : r.idx ∉ ((row :: rest).take k).map (·.idx) := fun hin =>
          hapart _ hin _ (List.mem_map_of_mem List.mem_cons_self) rfl
        have hcongr : RowsServed P J Z (siteAfter Z cfg s first k).dir.epochs
            (hashAfter (hashAfter none (pre ++ cur)) ((row :: rest).take k)) (r :: []) := by
          refine (RowsServed.congr fun r' hr' => ?_).mpr ⟨holdDrop.1, trivial⟩
          rw [List.mem_singleton.mp hr']
          exact hkept r hr
        have hsame := RowsServed.prev_unique hcongr habove
        obtain ⟨k, rfl⟩ := Nat.exists_eq_succ_of_ne_zero (Nat.ne_of_gt hpos)
        rw [List.take_succ_cons] at hsame hlen hcollide' holdTake htake
        obtain ⟨payload, hencode, hlen'⟩ := encodes_head hlen
        obtain ⟨-, hrest⟩ := holdTake
        rw [recutSteps_cons hencode] at hsame hcollide'
        refine hashAfter_steps_ne (P := P) (J := J) (Z := Z) hchain
          (fun r hr => hidx r (htake r (List.mem_cons_of_mem _ hr)))
          (fun r hr => hfit r (hmem r (htake r (List.mem_cons_of_mem _ hr)))) hlen'
          (fun step hstep => hcollide' step (List.mem_cons_of_mem _ hstep)) hrest ?_ hsame
        intro heq
        apply h.stale
        rw [epochHash, hencode, Option.map_some, heq]
  · rintro ⟨hall, hlinked⟩
    refine ⟨hbelow', fun r hr => hlinked r (htake r hr), ?_⟩
    rw [hall, List.drop_length]
    exact trivial

/-- **What a stopped re-cut serves.** Of a feed that verified as one chain, the re-cut
stopped after `k` rewritten epochs: manifest and files verify as one chain exactly if
nothing has been rewritten, or everything from the lowest stale epoch up, and that with
linked blocks. -/
theorem recut_served_iff (P : FeltParser) (J : JsonParser) (Z : Zstd) (cfg : ChainConfig) (s : Site)
    (first k : Nat) (manifest : ManifestFile) (hcols : s.database.Columns64)
    (hchain : PlainStr cfg.chainId)
    (hfit : ∀ r ∈ s.database.epochRows, (cfg.epochRange r.idx).2 < 2 ^ 63)
    (hmanifest : s.dir.manifest = some manifest)
    (hepochs : manifest.epochs = s.database.epochRows.map EpochRow.entry)
    (hserved : Served P J Z s.dir) (hcollide : CollisionFree Z cfg s)
    (hk : k ≤ (recutEpochsFrom Z cfg s.database first).rounds.length) :
    Served P J Z (siteAfter Z cfg s first k).dir ↔
      k = 0 ∨ (k = (staleRows cfg s.database).length ∧
        ∀ r ∈ staleRows cfg s.database, LinkedBlocks cfg s.database r.idx) := by
  have hbefore : (recutEpochsFrom Z cfg s.database first).before = [.layout] := by
    rcases recutEpochsFrom_cases Z (d := s.database) first with
      ⟨stop, hrun, -⟩ | ⟨pre, cur, row, rest, h⟩
    · rw [hrun]
    · exact (h.rounds Z).1
  -- no round yet: manifest and files are as they were
  rcases Nat.eq_zero_or_pos k with rfl | hpos
  · have hdir : (siteAfter Z cfg s first 0).dir.manifest = s.dir.manifest ∧
        (siteAfter Z cfg s first 0).dir.epochs = s.dir.epochs := by
      unfold siteAfter
      simp only [hbefore]
      exact ⟨rfl, rfl⟩
    obtain ⟨m, items, epochs, hm, hitems, hok⟩ := hserved
    refine ⟨fun _ => Or.inl rfl, fun _ => ⟨m, items, epochs, ?_, ?_, hok⟩⟩
    · rw [hdir.1, hm]
    · rw [hdir.2, hitems]
  · rcases recutEpochsFrom_cases Z (d := s.database) first with
      ⟨stop, hrun, -⟩ | ⟨pre, cur, row, rest, h⟩
    · -- a command that stops early has no round to be stopped after
      rw [hrun, List.length_nil] at hk
      omega
    · rw [h.served_iff hcols hchain hfit ((Indexer.served_iff hmanifest hepochs).mp hserved) hcollide
        hpos hk, h.staleRows_eq]
      constructor
      · exact Or.inr
      · rintro (hzero | hdone)
        · omega
        · exact hdone

end

/-! ## The repaired site -/

section

variable (P : FeltParser) (J : JsonParser)

def publishedRows : List EpochRow :=
  [⟨0, 0, 9, zeroKey, zeroKey, 0, none⟩, ⟨1, 10, 19, zeroKey, zeroKey, 0, none⟩]

theorem encodeEpoch_blockless (idx : Nat) (prev : Option Key) :
    encodeEpoch (buildEpoch smallConfig Database.new idx prev) =
      some (epochBytes (buildEpoch smallConfig Database.new idx prev)) := by
  have hblocks : (buildEpoch smallConfig Database.new idx prev).blocks = [] := rfl
  rw [encodeEpoch, if_pos, epochBytes]
  rw [hblocks]
  decide

theorem publishedSteps_length :
    (recutSteps smallConfig Database.new none publishedRows).length = publishedRows.length := by
  unfold publishedRows
  rw [recutSteps_cons (encodeEpoch_blockless _ _), recutSteps_cons (encodeEpoch_blockless _ _)]
  rfl

theorem insertBlock_epochs (d : Database) (b : BlockRow) : (d.insertBlock b).epochs = d.epochs := by
  have hfire : ∀ (n : Nat) (d : Database), (Nat.iterate Database.fire n d).epochs = d.epochs := by
    intro n
    induction n with
    | zero => exact fun d => rfl
    | succ n ih => exact fun d => ih d.fire
  exact hfire _ _

theorem publishedSite_eq : publishedSite =
    Write.applyAll smallConfig ⟨Database.new, emptyDir⟩
      (recutRounds plainZstd smallConfig Database.new none publishedRows).flatten := by
  rw [publishedSite, publishedRows]

theorem repairedSite_dir : repairedSite.dir = publishedSite.dir := by
  rw [repairedSite]

theorem repairedSite_epochs : repairedSite.database.epochs = publishedSite.database.epochs := by
  rw [repairedSite]
  exact insertBlock_epochs publishedSite.database _

theorem toList_two_epochs (a b : EpochRec) :
    ((insertAll (∅ : ExtTreeMap Int EpochRec) [(toI64 0, a), (toI64 1, b)]).toList.map fun e =>
      epochRowOf e.1 e.2) = [epochRowOf (toI64 0) a, epochRowOf (toI64 1) b] := rfl

theorem repairedSite_rows : repairedSite.database.epochRows =
    (recutSteps smallConfig Database.new none publishedRows).map
      (stepRow plainZstd smallConfig Database.new) := by
  rw [epochRows_congr repairedSite_epochs]
  unfold Database.epochRows
  rw [publishedSite_eq, Write.applyAll_epochs, Write.foldl_epochsStep, (all_rounds plainZstd _ _).1]
  unfold publishedRows
  rw [recutSteps_cons (encodeEpoch_blockless _ _), recutSteps_cons (encodeEpoch_blockless _ _)]
  exact toList_two_epochs _ _

theorem repairedSite_files : repairedSite.dir.epochs =
    insertAll ∅ ((recutSteps smallConfig Database.new none publishedRows).map
      (stepFile plainZstd)) := by
  rw [repairedSite_dir, publishedSite_eq, Write.applyAll_files, Write.foldl_filesStep, (all_rounds plainZstd _ _).2]
  rfl

theorem repairedSite_manifest :
    repairedSite.dir.manifest = some (manifestOf smallConfig publishedSite.database) := by
  have hne : recutSteps smallConfig Database.new none publishedRows ≠ [] := by
    intro hnil
    have hlen := publishedSteps_length
    rw [hnil] at hlen
    cases hlen
  obtain ⟨ws, hws⟩ := rounds_end plainZstd hne
  rw [repairedSite_dir, publishedSite_eq, hws]
  exact Write.applyAll_manifest smallConfig _ ws

theorem repairedSite_served : Served P J plainZstd repairedSite.dir := by
  have hepochs : (manifestOf smallConfig publishedSite.database).epochs =
      repairedSite.database.epochRows.map EpochRow.entry := by
    rw [epochRows_congr repairedSite_epochs]
    rfl
  rw [Indexer.served_iff repairedSite_manifest hepochs, repairedSite_rows]
  refine (rowsServed_steps (plainStr_literal (by decide)) ?_ ?_ publishedSteps_length ?_).mpr ?_
  · intro row hrow
    fin_cases hrow <;> norm_num
  · intro row hrow
    fin_cases hrow <;> decide
  · rw [repairedSite_files]
    unfold publishedRows
    rw [recutSteps_cons (encodeEpoch_blockless _ _), recutSteps_cons (encodeEpoch_blockless _ _)]
    generalize epochBytes (buildEpoch smallConfig Database.new _ none) = b
    generalize epochBytes (buildEpoch smallConfig Database.new _ (some (payloadSha256 b))) = b'
    intro step hstep
    fin_cases hstep <;> rfl
  · intro row _
    exact List.IsChain.nil

theorem repairedSite_fit :
    ∀ r ∈ repairedSite.database.epochRows, (smallConfig.epochRange r.idx).2 < 2 ^ 63 := by
  rw [repairedSite_rows]
  intro r hr
  have hidx : r.idx ∈ publishedRows.map (·.idx) := by
    rw [← map_idx_steps plainZstd publishedSteps_length
      (fun row hrow => by fin_cases hrow <;> norm_num)]
    exact List.mem_map_of_mem hr
  have hcases : r.idx = 0 ∨ r.idx = 1 := by
    simpa [publishedRows] using hidx
  rcases hcases with h | h <;> rw [h] <;> decide

theorem repairedSite_collisionFree : CollisionFree plainZstd smallConfig repairedSite := by
  have hall : ((staleSteps smallConfig repairedSite.database).all fun step =>
      (payloadOf plainZstd repairedSite.dir.epochs step.1.idx).all fun payload =>
        payloadSha256 payload != payloadSha256 step.2.2) = true := by
    decide +kernel
  intro step hstep payload hpayload hhash
  have hdiffer := List.all_eq_true.mp hall step hstep
  rw [hpayload, Option.all_some, hhash] at hdiffer
  exact absurd hdiffer (by simp)

theorem repairedSite_stale : (staleRows smallConfig repairedSite.database).map (·.idx) = [0, 1] := by
  decide +kernel

theorem repairedSite_rounds :
    (recutEpochsFrom plainZstd smallConfig repairedSite.database 0).rounds.length = 2 := by
  decide +kernel

/-- Stopped once both epochs are rewritten, and the new chain is served. -/
theorem recut_served_rewritten : Served hexParser Json.parser plainZstd
    (siteAfter plainZstd smallConfig repairedSite 0 2).dir := by
  have hepochs : (manifestOf smallConfig publishedSite.database).epochs =
      repairedSite.database.epochRows.map EpochRow.entry := by
    rw [epochRows_congr repairedSite_epochs]
    rfl
  have hstale := repairedSite_stale
  refine (recut_served_iff hexParser Json.parser plainZstd smallConfig repairedSite 0 2 _
    repairedSite_columns64 (plainStr_literal (by decide)) repairedSite_fit repairedSite_manifest
    hepochs (repairedSite_served _ _) repairedSite_collisionFree repairedSite_rounds.ge).mpr
      (Or.inr ⟨?_, fun r hr => ?_⟩)
  · rw [← List.length_map (fun r : EpochRow => r.idx), hstale]
    rfl
  · -- one block has no neighbour to link to
    have hidx : r.idx = 0 ∨ r.idx = 1 := by
      have hmem := List.mem_map_of_mem (f := fun r : EpochRow => r.idx) hr
      rw [hstale] at hmem
      simpa using hmem
    have hlines : ∀ idx, idx = 0 ∨ idx = 1 → (repairedSite.database.blocksAsLines
        (smallConfig.epochRange idx).1 (smallConfig.epochRange idx).2 none).length ≤ 1 := by
      rintro idx (rfl | rfl) <;> decide +kernel
    have hshort := hlines r.idx hidx
    unfold LinkedBlocks
    generalize repairedSite.database.blocksAsLines (smallConfig.epochRange r.idx).1
      (smallConfig.epochRange r.idx).2 none = lines at hshort
    rcases lines with _ | ⟨b, _ | ⟨c, rest⟩⟩
    · exact List.IsChain.nil
    · exact List.isChain_singleton b
    · simp at hshort

/-- Stopped after the first of two epochs, the feed is no chain: epoch 1 still carries
the content hash that epoch 0 had before. -/
theorem recut_not_served_between :
    Served hexParser Json.parser plainZstd repairedSite.dir ∧
      1 ≤ (recutEpochsFrom plainZstd smallConfig repairedSite.database 0).rounds.length ∧
      ¬ Served hexParser Json.parser plainZstd
        (siteAfter plainZstd smallConfig repairedSite 0 1).dir := by
  have hserved := repairedSite_served hexParser Json.parser
  have hepochs : (manifestOf smallConfig publishedSite.database).epochs =
      repairedSite.database.epochRows.map EpochRow.entry := by
    rw [epochRows_congr repairedSite_epochs]
    rfl
  obtain ⟨out, hout⟩ := repairedSite_accepted
  obtain ⟨pre, cur, row, rest, h⟩ := accepted_of_ok plainZstd hout
  have hlen : (row :: rest).length = 2 := by
    rw [← h.toLocated.staleRows_eq]
    decide +kernel
  have hrounds : 1 ≤ (recutEpochsFrom plainZstd smallConfig repairedSite.database 0).rounds.length := by
    rw [h.toLocated.length_rounds plainZstd, h.encodes, hlen]
    decide
  refine ⟨hserved, hrounds, ?_⟩
  rw [h.toLocated.served_iff repairedSite_columns64 (plainStr_literal (by decide)) repairedSite_fit
    ((Indexer.served_iff repairedSite_manifest hepochs).mp hserved) repairedSite_collisionFree
    Nat.one_pos hrounds, hlen]
  rintro ⟨hone, -⟩
  cases hone

end

end Strk20.Indexer
