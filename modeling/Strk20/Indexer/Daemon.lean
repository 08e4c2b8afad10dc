import Strk20.Indexer.Attribute
import Strk20.Indexer.Publish
import Strk20.Indexer.TrieWalk

/-!
# The poll loop and its recovery (`main.rs`, `recovery.rs`)

One pass ingests a cycle, publishes the tail and cuts. A root mismatch is put on record
and gets one attempt at repair: the storage trie is walked, the missing slots are
attributed to blocks, and those are ingested again; then the cut is tried once more.
While a divergence is on record no further attempt is made. Log lines and the server's
refreshes are left out.

- `cutEpochsWithRecovery`: the cut with its one attempt.
- `runPass`, `backfillPass`: one round of the two loops.
-/

namespace Strk20.Indexer

open Feed
open Effect (lift)

/-- How often a divergence that had its attempt is announced again. -/
def REPEAT_LOG_SECS : Nat := 600

def ATTEMPT_DEADLINE_SECS : Nat := 900

/-! ## The divergence on record -/

structure Divergence where
  block : Nat
  localRoot : Felt
  chainRoot : Felt
deriving DecidableEq

namespace Divergence

/-- `block:local_root:chain_root`. -/
def fingerprint (x : Divergence) : String :=
  x.block.repr ++ ":" ++ feltHex x.localRoot ++ ":" ++ feltHex x.chainRoot

def parse (P : FeltParser) (s : String) : Option Divergence :=
  match (s.toList.splitOn ':').map String.ofList with
  | [block, localRoot, chainRoot] => do
      let block ← Text.parseU64 block
      let localRoot ← (feltFromHex P localRoot).toOption
      let chainRoot ← (feltFromHex P chainRoot).toOption
      pure ⟨block, localRoot, chainRoot⟩
  | _ => none

def inProgressReason (x : Divergence) : String :=
  "mismatch at " ++ x.block.repr ++ ", recovery in progress (storage-trie walk)"

def outcomeReason (x : Divergence) (detail : String) : String :=
  "mismatch at " ++ x.block.repr ++ ", " ++ detail ++ ", operator repair required: " ++
    "enumerate-slots --attribute / rescan --blocks / recut-epochs"

end Divergence

inductive Decision where
  | attempt
  | skip (recorded : String) (same : Bool)
deriving DecidableEq

namespace Database

/-- A cleared record is an empty text. -/
def recordedDivergence (d : Database) : Option String :=
  (d.metaGet DIVERGENCE_KEY).filter fun s => s ≠ ""

def mismatchBlock (P : FeltParser) (d : Database) : Option Nat :=
  (d.recordedDivergence.bind (Divergence.parse P)).map Divergence.block

def recoveryReason (d : Database) : Option String :=
  (d.metaGet REASON_KEY).filter fun s => s ≠ ""

def recoveryAttempts (d : Database) : Nat := (d.metaU64 ATTEMPTS_KEY).getD 0

/-- `decide`: whether the fingerprint is the recorded one is reported, not acted on. -/
def decideRecovery (d : Database) (x : Divergence) : Decision :=
  match d.recordedDivergence with
  | none => .attempt
  | some recorded => .skip recorded (recorded == x.fingerprint)

end Database

/-- On record before the attempt starts. -/
def beginAttempt (x : Divergence) : Publishing PUnit := do
  writeDb fun d => d.metaSet DIVERGENCE_KEY x.fingerprint
  writeDb fun d => d.metaSet ATTEMPTS_KEY "1"
  writeDb fun d => d.metaSet REASON_KEY x.inProgressReason
  writeDb fun d => d.metaSet LOGGED_AT_KEY ""

def recordOutcome (x : Divergence) (detail : String) : Publishing PUnit :=
  writeDb fun d => d.metaSet REASON_KEY (x.outcomeReason detail)

/-- Whether the repeated line is due; a line that is due is noted. -/
def shouldLogRepeat (now interval : Nat) : Publishing Bool := do
  let d ← viewDb id
  let last := ((d.metaGet LOGGED_AT_KEY).filter fun s => s ≠ "").bind Text.parseU64
  let due := match last with
    | some t => decide (interval ≤ now - t)
    | none => true
  if due then do
    writeDb fun d => d.metaSet LOGGED_AT_KEY now.repr
    pure true
  else pure false

/-! ## One attempt -/

/-- Endpoints and clock of a pass: what the walk asks, how far it gets before the
deadline, and how many writes the repair does before it, `none` where it is in time. -/
structure Attempt where
  proofs : TrieWalk.ProofClient
  storage : Attribute.StorageClient
  fuel : Nat
  deadline : Option Nat
  now : Nat

/-- A call under a deadline: what it has written by then stays. -/
def withDeadline {α : Type} (deadline : Option Nat) (x : Publishing α) :
    Publishing (Option (Except Failure α)) := fun s =>
  match deadline with
  | none =>
      match attempt x s with
      | .ok r s' => .ok (some r) s'
      | .error e s' => .error e s'
  | some writes =>
      let granted := min writes s.host.budget
      let s' := Effect.final (x { s with host := { s.host with budget := granted } })
      let spent := granted - s'.host.budget
      .ok none { s' with host := { s'.host with budget := s.host.budget - spent } }

section

variable (P : FeltParser) (Z : Zstd) (pedersen : Felt → Felt → Felt)
variable (rpc : RpcClient) (cfg : ChainConfig) (chunkSize : Nat) (a : Attempt)

/-- The head is asked for as `detect_reorg` does. -/
def reorgInFlight : Publishing Bool := do
  let d ← viewDb id
  match d.metaU64 "head_number", d.metaGet "head_hash" with
  | some head, some stored => onHost (headGone P rpc head stored)
  | _, _ => pure false

/-- Blocks that the walk attributes the missing slots to; `none` where it takes longer
than there is time. -/
def attributedBlocks (d : Database) (block : Nat) : Option (Except Failure (List Nat)) :=
  match TrieWalk.enumerateMissingSlots P pedersen a.proofs (d.fullSlotSetAsOf block) block a.fuel with
  | none => none
  | some (.error e) => some (.error e)
  | some (.ok diff) =>
      if diff.missing.isEmpty then some (.ok [])
      else
        some (Attribute.attributeToBlocks P a.storage cfg.pool (diff.missing.map Prod.fst)
          cfg.genesisBlock block)

/-- `run_closure`, under its deadline. -/
def runClosure (block : Nat) : Publishing (Option (Except Failure (List Nat))) := do
  let d ← viewDb id
  match attributedBlocks P pedersen cfg a d block with
  | none => pure none
  | some (.error e) => pure (some (.error e))
  | some (.ok blocks) => do
      match ← withDeadline a.deadline (onHost (reingestBlocks P rpc cfg chunkSize blocks)) with
      | none => pure none
      | some (.error e) => pure (some (.error e))
      | some (.ok _) => pure (some (.ok blocks))

/-- `log_and_record`: a record that cannot be written is only logged. -/
def logAndRecord (x : Divergence) (detail : String) : Publishing PUnit := do
  let _ ← attempt (recordOutcome x detail)
  pure PUnit.unit

def cutOnce (l1Accepted : Nat) : Publishing (Except Failure Nat) := do
  let frontier ← viewDb fun d => d.cursor.getD 0
  attempt (cutReadyEpochs P Z pedersen rpc cfg l1Accepted frontier)

/-- The cut after the one attempt. -/
def retryCut (l1Accepted : Nat) : Publishing Nat := do
  match ← cutOnce P Z pedersen rpc cfg l1Accepted with
  | .ok n => pure n
  | .error (.rootMismatch block localRoot chainRoot) => do
      logAndRecord ⟨block, localRoot, chainRoot⟩
        ("recovery attempted once (storage-trie walk + targeted rescan) and the mirror still " ++
          "disagrees")
      pure 0
  | .error _ => do
      let d ← viewDb id
      match d.recordedDivergence.bind (Divergence.parse P) with
      | none => pure 0
      | some x => do
          logAndRecord x
            "recovery attempted once; the retried cut then failed for an unrelated reason"
          pure 0

def recover (x : Divergence) (l1Accepted : Nat) : Publishing Nat := do
  match ← attempt (beginAttempt x) with
  | .error _ => pure 0
  | .ok _ => do
      match ← runClosure P pedersen rpc cfg chunkSize a x.block with
      | some (.ok _) => retryCut P Z pedersen rpc cfg l1Accepted
      | some (.error .proofUnavailable) => do
          logAndRecord x
            ("recovery attempted once and no endpoint served a storage proof for the walk " ++
              "(UNAVAILABLE)")
          pure 0
      | some (.error _) => do
          logAndRecord x "recovery attempted once and failed"
          pure 0
      | none => do
          logAndRecord x ("recovery attempted once and hit its " ++ ATTEMPT_DEADLINE_SECS.repr ++
            "s deadline")
          pure 0

/-- `cut_epochs_with_recovery`. It returns whatever happens; `0` stands for a cut that
was halted as for one that found nothing to do. -/
def cutEpochsWithRecovery (l1Accepted : Nat) : Publishing Nat := do
  match ← cutOnce P Z pedersen rpc cfg l1Accepted with
  | .ok n => pure n
  | .error (.rootMismatch block localRoot chainRoot) => do
      match ← attempt (reorgInFlight P rpc) with
      | .ok false => do
          let d ← viewDb id
          match d.decideRecovery ⟨block, localRoot, chainRoot⟩ with
          | .skip _ _ => do
              let _ ← attempt (shouldLogRepeat a.now REPEAT_LOG_SECS)
              pure 0
          | .attempt => recover P Z pedersen rpc cfg chunkSize a ⟨block, localRoot, chainRoot⟩ l1Accepted
      | _ => pure 0
  | .error _ => pure 0

/-- The cut with its recovery, up to the call of `run_closure`: the divergence whose attempt
has begun. For proofs; no code calls it. -/
def closureDue (l1Accepted : Nat) : Publishing (Option Divergence) := do
  match ← cutOnce P Z pedersen rpc cfg l1Accepted with
  | .error (.rootMismatch block localRoot chainRoot) => do
      match ← attempt (reorgInFlight P rpc) with
      | .ok false => do
          let d ← viewDb id
          match d.decideRecovery ⟨block, localRoot, chainRoot⟩ with
          | .skip _ _ => pure none
          | .attempt => do
              match ← attempt (beginAttempt ⟨block, localRoot, chainRoot⟩) with
              | .error _ => pure none
              | .ok _ => pure (some ⟨block, localRoot, chainRoot⟩)
      | _ => pure none
  | _ => pure none

/-! ## The loops -/

/-- One pass of `run`, with the announced head if there is one. A cycle that fails is
logged; a head that cannot be written ends the process. -/
def runPass (head : Option BlockHeader) : Publishing PUnit := do
  match ← attempt (onHost (runCycleAnnounced P rpc cfg chunkSize head)) with
  | .error _ => pure PUnit.unit
  | .ok o => do
      onlyIf (o.headChanged || decide (0 < o.blocksIngested)) (regenHead P cfg)
      onlyIf o.reorged (writeAnchors cfg)
      let cut ← cutEpochsWithRecovery P Z pedersen rpc cfg chunkSize a o.l1Accepted
      onlyIf (decide (0 < cut)) (regenHead P cfg)

/-- A pass of `run`, up to there. -/
def passDue (head : Option BlockHeader) : Publishing (Option Divergence) := do
  match ← attempt (onHost (runCycleAnnounced P rpc cfg chunkSize head)) with
  | .error _ => pure none
  | .ok o => do
      onlyIf (o.headChanged || decide (0 < o.blocksIngested)) (regenHead P cfg)
      onlyIf o.reorged (writeAnchors cfg)
      closureDue P Z pedersen rpc cfg o.l1Accepted

/-- One pass of `backfill`, and whether it was the last. -/
def backfillPass : Publishing Bool := do
  let o ← onHost (runCycle P rpc cfg chunkSize)
  let _ ← cutEpochsWithRecovery P Z pedersen rpc cfg chunkSize a o.l1Accepted
  let frontier ← viewDb fun d => d.cursor.getD 0
  regenHead P cfg
  pure (o.blocksIngested == 0 && decide (o.headNumber ≤ frontier))

/-- A pass of `backfill`, up to the same call. -/
def backfillDue : Publishing (Option Divergence) := do
  let o ← onHost (runCycle P rpc cfg chunkSize)
  closureDue P Z pedersen rpc cfg o.l1Accepted

end

end Strk20.Indexer
