import Strk20.Indexer.RecutServed

/-!
# The forward cut (`cutter.rs`)

After a cycle the cutter checks the mirror's storage root against a proof, publishes
every epoch that is final and scanned, and, when the gate allows it, a snapshot of the
newest one. A publisher is a process with a feed directory; each file is written whole
or not at all. The raw proofs that are kept beside epochs and snapshots are left out.
-/

namespace Strk20.Indexer

open Feed Feed.Codec Tables Versioned
open Effect (lift)
open Consumer (toI64 toU64)
open Std (ExtTreeMap)

def SNAPSHOT_KEEP : Nat := 2

/-- Cycles over which a snapshot's basis proof is asked for. -/
def BASIS_PROBE_ATTEMPTS : Nat := 5

def PROBE_EPOCH_KEY : String := "snapshot_basis_probe_epoch"

def PROBE_ATTEMPTS_KEY : String := "snapshot_basis_probe_attempts"

/-- Anchors that the log keeps. -/
def ANCHOR_KEEP : Nat := 4096

def GROUNDING_REACHABILITY : String := "reachability"

def GROUNDING_BASIS_ANCHOR : String := "basis-anchor"

/-! ## Rows of anchors, epochs and snapshots (`db.rs`) -/

namespace Database

/-- Captured anchors, ascending by block. -/
def anchorRows (d : Database) : List Anchor := d.anchors.toList.map anchorOf

def insertAnchor (d : Database) (a : Anchor) : Database :=
  { d with anchors := d.anchors.insert (anchorRecOf a).1 (anchorRecOf a).2 }

/-- All but the newest `ANCHOR_KEEP` go. -/
def pruneAnchors (d : Database) : Database :=
  let kept := (d.anchors.keys.reverse).take ANCHOR_KEEP
  { d with anchors := d.anchors.filter fun n _ => kept.contains n }

def newestAnchorBlock (d : Database) : Option Nat := (d.anchors.keys.getLast?).map toU64

/-- Complete slot set with each slot's last write block. -/
def fullSlotSetWithBlocksAsOf (d : Database) (block : Nat) : List (Felt × Felt × Nat) :=
  ((latestRows d.storageLog (toI64 block)).map fun e => (e.1.1, e.2, toU64 e.1.2)).filter
    fun e => e.2.1 ≠ 0

/-- `insert_snapshot`. The anchor's texts go back to felts. -/
def insertSnapshot (P : FeltParser) (d : Database) (s : SnapshotEntry) : Database :=
  let felt := fun text => (P.fromHex text).getD 0
  { d with
    snapshots := d.snapshots.insert (toI64 s.e)
      { block := toI64 s.block
        epochHash := s.epochHash
        file := s.file
        hash := s.hash
        zst := s.zst
        bytes := toI64 s.bytes
        slots := toI64 s.slots
        storageRoot := s.storageRoot
        anchor := s.anchor.map fun a =>
          (toI64 a.block, ⟨felt a.blockHash, felt a.storageRoot, felt a.cls⟩)
        grounding := s.grounding } }

end Database

/-! ## The publisher -/

/-- A process with its feed directory. The anchor log is kept as its records. -/
structure Publisher where
  host : Host
  dir : FeedDir
  anchors : Option (List Anchor)

abbrev Publishing := EStateM Failure Publisher

/-- What the process does without the directory. -/
def onHost {α : Type} (x : Indexing α) : Publishing α := fun s =>
  match x s.host with
  | .ok a h => .ok a { s with host := h }
  | .error e h => .error e { s with host := h }

/-- One file operation, if the process gets to it. -/
def publish (f : Publisher → Publisher) : Publishing PUnit := fun s =>
  match s.host.budget with
  | 0 => .error (.other "process stopped") s
  | n + 1 => .ok PUnit.unit { f s with host := { s.host with budget := n } }

def putDir (f : FeedDir → FeedDir) : Publishing PUnit := publish fun s => { s with dir := f s.dir }

/-- `match … { Ok(a) => …, Err(e) => … }` around a call. -/
def attempt {α : Type} (x : Publishing α) : Publishing (Except Failure α) := fun s =>
  match x s with
  | .ok a s' => .ok (.ok a) s'
  | .error e s' => .ok (.error e) s'

/-- `if c { x }`. -/
def onlyIf (c : Bool) (x : Publishing PUnit) : Publishing PUnit := if c then x else pure PUnit.unit

def writeDb (f : Database → Database) : Publishing PUnit := onHost (write f)

def viewDb {α : Type} (f : Database → α) : Publishing α := onHost (readDb f)

/-! ## The directory -/

section

variable (P : FeltParser) (Z : Zstd) (pedersen : Felt → Felt → Felt)
variable (rpc : RpcClient) (cfg : ChainConfig)

/-- The genesis file is written once. -/
def ensureLayout : Publishing PUnit := do
  let s ← get
  match s.dir.genesis with
  | some _ => pure PUnit.unit
  | none => putDir fun dir =>
      { dir with genesis := some ⟨cfg.chainId, feltHex cfg.pool, cfg.genesisBlock, cfg.epochSize⟩ }

def rewriteManifest : Publishing PUnit := do
  let manifest ← viewDb (manifestOf cfg)
  putDir fun dir => { dir with manifest := some manifest }

/-- What an encoder's assertion leaves. -/
def encoded (payload : Option ByteArray) : Except Failure ByteArray :=
  match payload with
  | some bytes => .ok bytes
  | none => .error (.other "encoder assertion failed")

def regenHead : Publishing PUnit := do
  ensureLayout cfg
  let d ← viewDb id
  let head ← lift (buildHead cfg d P)
  let payload ← lift (encoded (encodeHead head))
  putDir fun dir => { dir with head := some payload }
  rewriteManifest cfg

/-- `encode_anchors` refuses a set that does not ascend. -/
def checkAnchors (records : List Anchor) : Except Failure Unit :=
  match (windows records).find? fun w => w.2.block ≤ w.1.block with
  | some w =>
      .error (.feed (.malformed ("anchors must be strictly ascending in block: " ++
        w.1.block.repr ++ " then " ++ w.2.block.repr)))
  | none => .ok ()

/-- An empty table takes the published log away. -/
def writeAnchors : Publishing PUnit := do
  let records ← viewDb Database.anchorRows
  if records.isEmpty then do
    let s ← get
    if s.anchors.isSome then publish fun s => { s with anchors := none }
    else pure PUnit.unit
  else do
    ensureLayout cfg
    lift (checkAnchors records)
    publish fun s => { s with anchors := some records }

/-- An anchor without a block hash is not published. -/
def recordAnchor (anchor : Anchor) : Publishing PUnit :=
  if anchor.blockHash = 0 then pure PUnit.unit
  else do
    writeDb fun d => d.insertAnchor anchor
    writeDb Database.pruneAnchors
    writeAnchors cfg

/-- The anchor of an epoch, if it has one. -/
def recordAnchors (anchors : List Anchor) : Publishing PUnit := anchors.forM (recordAnchor cfg)

/-! ## Proofs -/

/-- `bound_proof`: a proof is believed when it names the block's own hash. -/
def boundProofLoop (block : Nat) : Nat → Publishing StorageProof
  | 0 => throw .proofUnbound
  | attempts + 1 => do
      let proof ← onHost (ask fun t => rpc.getStorageProof t block)
      let header ← onHost (ask fun t => rpc.getBlock t (.number block))
      let chainHash ← lift (parseFelt P header.blockHash)
      match proof.blockHash with
      | none => throw .proofUnbound
      | some text => do
          if (← lift (parseFelt P text)) = chainHash then pure proof
          else boundProofLoop block attempts

def boundProof (block : Nat) : Publishing StorageProof := boundProofLoop P rpc block 2

def anchorBlockHash (proof : StorageProof) : Except Failure Felt :=
  match proof.blockHash with
  | some text => parseFelt P text
  | none => .error (.other "bound proof lost its global_roots.block_hash")

/-- The mirror's root, with the connection's caches. -/
def storageRootAt (block : Nat) : Indexing Felt := fun h =>
  match h.caches.storageRootAt pedersen h.database block with
  | (.ok root, caches) => .ok root { h with caches := caches }
  | (.error e, caches) => .error e { h with caches := caches }

/-- `verify_root`: the mirror's root against the proof's. -/
def verifyRoot (block : Nat) : Publishing Anchor := do
  let localRoot ← onHost (storageRootAt pedersen block)
  let proof ← boundProof P rpc block
  match proof.contractLeavesData.head? with
  | none => throw (.other "proof has no contract leaf")
  | some leaf => do
      let remoteRoot ← lift (parseFelt P leaf.storageRoot)
      let classHash ← lift (parseFelt P leaf.classHash)
      if localRoot ≠ remoteRoot then throw (.rootMismatch block localRoot remoteRoot)
      else do
        let blockHash ← lift (anchorBlockHash P proof)
        pure ⟨block, blockHash, remoteRoot, classHash⟩

inductive VerifyOutcome where
  | verified (a : Anchor)
  | unavailable
deriving DecidableEq

/-- A proof that nobody serves is no failure. -/
def verifyOutcome (r : Except Failure Anchor) : Publishing VerifyOutcome :=
  match r with
  | .ok anchor => pure (.verified anchor)
  | .error .proofUnavailable => pure .unavailable
  | .error e => throw e

/-- Never beyond the head that the endpoint reports. -/
def verifyRootAtTarget (frontier : Nat) : Publishing VerifyOutcome := do
  let head := match ← attempt (onHost (ask fun t => rpc.getBlock t .latest)) with
    | .ok h => h.blockNumber
    | .error _ => frontier
  verifyOutcome (← attempt (verifyRoot P pedersen rpc (min frontier head)))

/-! ## The record of a divergence (`recovery.rs`) -/

def DIVERGENCE_KEY : String := "recovery_divergence"

def ATTEMPTS_KEY : String := "recovery_attempts"

def REASON_KEY : String := "recovery_reason"

def LOGGED_AT_KEY : String := "recovery_logged_at"

/-- `recovery::clear`. -/
def clearDivergence : Publishing PUnit :=
  [DIVERGENCE_KEY, ATTEMPTS_KEY, REASON_KEY, LOGGED_AT_KEY].forM fun key =>
    writeDb fun d => d.metaSet key ""

/-- `verify_and_capture`. A mismatch is latched and leaves the frontier unrecorded. -/
def verifyAndCapture (frontier : Nat) : Publishing PUnit :=
  if frontier = 0 then pure PUnit.unit
  else do
    let probed ← viewDb fun d => d.metaU64 "anchor_probe_frontier"
    if probed = some frontier then pure PUnit.unit
    else do
      match ← attempt (verifyRootAtTarget P pedersen rpc frontier) with
      | .ok (.verified anchor) => do
          writeDb fun d => d.metaSet "verify_root_failed" ""
          clearDivergence
          recordAnchor cfg anchor
          writeDb fun d => d.metaSet "anchor_probe_frontier" frontier.repr
      | .ok .unavailable => writeDb fun d => d.metaSet "anchor_probe_frontier" frontier.repr
      | .error (.rootMismatch block localRoot chainRoot) => do
          writeDb fun d => d.metaSet "verify_root_failed" "1"
          throw (.rootMismatch block localRoot chainRoot)
      | .error .proofUnbound => throw .proofUnbound
      | .error _ => pure PUnit.unit

/-! ## Epochs -/

/-- The anchor of an epoch's last block, if a proof for it is to be had. -/
def epochAnchor (last : Nat) : Publishing (Option Anchor) := do
  match ← attempt (boundProof P rpc last) with
  | .ok proof =>
      match proof.contractLeavesData.head? with
      | none => pure none
      | some leaf => do
          let blockHash ← lift (anchorBlockHash P proof)
          let storageRoot ← lift (parseFelt P leaf.storageRoot)
          let classHash ← lift (parseFelt P leaf.classHash)
          pure (some ⟨last, blockHash, storageRoot, classHash⟩)
  | .error .proofUnbound => throw .proofUnbound
  | .error _ => pure none

/-- The row of an epoch cut from this payload. -/
def cutRec (idx : Nat) (prev : Option Key) (payload : ByteArray) (anchor : Option Anchor)
    (cutAt : Nat) : EpochRec :=
  let range := cfg.epochRange idx
  { fromBlock := toI64 range.1
    toBlock := toI64 range.2
    contentHash := payloadSha256 payload
    zstSha256 := payloadSha256 (Z.compress payload)
    fileSize := toI64 (Z.compress payload).size
    prevHash := prev
    anchor := anchor.map anchorRecOf
    cutAt := toI64 cutAt }

/-- One round of the cut: the file, the anchor, the row. -/
def cutEpoch (idx : Nat) : Publishing PUnit := do
  let d ← viewDb id
  let prev := d.lastEpoch.map fun e => e.2.1
  let payload ← lift (encoded (encodeEpoch (buildEpoch cfg d idx prev)))
  putDir fun dir => { dir with epochs := dir.epochs.insert idx (Z.compress payload) }
  let anchor ← epochAnchor P rpc (cfg.epochRange idx).2
  recordAnchors cfg anchor.toList
  let d' ← viewDb id
  writeDb fun d => d.insertEpoch idx (cutRec Z cfg idx prev payload anchor (cutAt d'))

/-- Epochs from `next` on whose range ends at or below a height. -/
def readyEpochs (upto next : Nat) : List Nat :=
  List.range' next ((upto + 1) / cfg.epochSize - next)

/-- First epoch that is not cut. -/
def nextEpoch (d : Database) : Nat :=
  match d.lastEpoch with
  | some (idx, _, _) => idx + 1
  | none => cfg.firstEpoch

/-! ## Snapshots -/

/-- What a snapshot of the epoch carries. -/
def buildSnapshot (d : Database) (epoch : Nat) (contentHash : Key) (basis : Nat) : Snapshot :=
  let rows := d.fullSlotSetWithBlocksAsOf basis
  { header :=
      { v := SNAPSHOT_VERSION
        kind := KIND_SNAPSHOT
        chainId := cfg.chainId
        pool := cfg.pool
        epoch := epoch
        block := basis
        epochHash := hexEncode contentHash
        storageRoot := Mpt.storageRoot pedersen (rows.map fun e => (e.1, e.2.1))
        cls := (d.classAsOf basis).getD 0 }
    slots := rows.map fun e => ⟨e.1, e.2.1, e.2.2⟩ }

/-- Attempts that were spent on this epoch's basis proof. -/
def spentProbes (d : Database) (epoch : Nat) : Nat :=
  if d.metaU64 PROBE_EPOCH_KEY = some epoch then (d.metaU64 PROBE_ATTEMPTS_KEY).getD 0 else 0

/-- A proof without a leaf counts as none. -/
def basisLeaf (basis : Nat) : Publishing (ContractLeafData × StorageProof) := do
  let proof ← boundProof P rpc basis
  match proof.contractLeavesData.head? with
  | some leaf => pure (leaf, proof)
  | none => throw (.other ("the proof for block " ++ basis.repr ++ " carries no contract leaf"))

/-- The basis proof while the budget lasts. A failed attempt is counted once it has
failed. -/
def basisProof (epoch basis spent : Nat) : Publishing (Option (ContractLeafData × StorageProof)) :=
  if BASIS_PROBE_ATTEMPTS ≤ spent then pure none
  else do
    match ← attempt (basisLeaf P rpc basis) with
    | .ok got => pure (some got)
    | .error .proofUnbound => throw .proofUnbound
    | .error _ => do
        writeDb fun d => d.metaSet PROBE_EPOCH_KEY epoch.repr
        writeDb fun d => d.metaSet PROBE_ATTEMPTS_KEY (spent + 1).repr
        pure none

/-- A basis proof has to agree with the slot set. -/
def groundSnapshot (basis : Nat) (localRoot : Felt)
    (got : Option (ContractLeafData × StorageProof)) : Publishing (Option Anchor) :=
  match got with
  | none => pure none
  | some (leaf, proof) => do
      let chainRoot ← lift (parseFelt P leaf.storageRoot)
      if chainRoot ≠ localRoot then do
        writeDb fun d => d.metaSet "verify_root_failed" "1"
        throw (.rootMismatch basis localRoot chainRoot)
      else do
        let blockHash ← lift (anchorBlockHash P proof)
        let classHash ← lift (parseFelt P leaf.classHash)
        pure (some ⟨basis, blockHash, chainRoot, classHash⟩)

/-- Without a basis proof, an anchor at or above the basis. -/
def reachable (d : Database) (basis : Nat) : Bool :=
  match d.newestAnchorBlock with
  | some block => decide (basis ≤ block)
  | none => false

def snapshotEntry (snap : Snapshot) (anchor : Option Anchor) : SnapshotEntry :=
  let payload := Snapshot.encode snap
  { e := snap.header.epoch
    block := snap.header.block
    epochHash := snap.header.epochHash
    file := snapshotFileName snap.header.epoch
    hash := hexEncode (payloadSha256 payload)
    zst := hexEncode (payloadSha256 (Z.compress payload))
    slots := snap.slots.length
    bytes := (Z.compress payload).size
    storageRoot := feltHex snap.header.storageRoot
    anchor := anchor.map epochAnchorOf
    grounding := if anchor.isSome then GROUNDING_BASIS_ANCHOR else GROUNDING_REACHABILITY }

/-- The newest `SNAPSHOT_KEEP` stay. -/
def pruneSnapshots : Publishing PUnit := do
  let d ← viewDb id
  (d.snapshotRows.take (d.snapshotRows.length - SNAPSHOT_KEEP)).forM fun old => do
    putDir fun dir => { dir with snapshots := dir.snapshots.erase old.file }
    writeDb fun d => d.deleteSnapshot old.e

/-- Publication of a snapshot that is grounded. -/
def publishSnapshot (snap : Snapshot) (anchor : Option Anchor) : Publishing PUnit := do
  ensureLayout cfg
  let entry := snapshotEntry Z snap anchor
  putDir fun dir =>
    { dir with snapshots := dir.snapshots.insert entry.file (Z.compress (Snapshot.encode snap)) }
  writeDb fun d => d.insertSnapshot P entry
  pruneSnapshots
  rewriteManifest cfg

/-- `maybe_publish_snapshot`, of the newest epoch. -/
def maybePublishSnapshot : Publishing PUnit := do
  let d ← viewDb id
  match d.lastEpoch with
  | none => pure PUnit.unit
  | some (epoch, contentHash, basis) =>
      if (d.snapshotRows.any fun s => s.e == epoch) || d.metaGet "verify_root_failed" == some "1" then
        pure PUnit.unit
      else do
        let snap := buildSnapshot pedersen cfg d epoch contentHash basis
        let got ← basisProof P rpc epoch basis (spentProbes d epoch)
        let anchor ← groundSnapshot P basis snap.header.storageRoot got
        let d' ← viewDb id
        if anchor.isSome || reachable d' basis then publishSnapshot P Z cfg snap anchor
        else pure PUnit.unit

/-! ## The cut -/

/-- `cut_ready_epochs`. -/
def cutReadyEpochs (l1Accepted frontier : Nat) : Publishing Nat := do
  ensureLayout cfg
  verifyAndCapture P pedersen rpc cfg frontier
  let next ← viewDb (nextEpoch cfg)
  let ready := readyEpochs cfg (min l1Accepted frontier) next
  ready.forM fun idx => cutEpoch P Z rpc cfg idx
  onlyIf (!ready.isEmpty) (rewriteManifest cfg)
  maybePublishSnapshot P Z pedersen rpc cfg
  pure ready.length

end

end Strk20.Indexer
