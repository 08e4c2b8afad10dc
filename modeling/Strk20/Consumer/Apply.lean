import Strk20.Foundation.Effect
import Strk20.Consumer.Rows

/-!
# Folding the feed (`apply.rs`)

`applyFeed` over any store and any transport. A transport is what it answers
during one call: no endpoint is asked the same question twice. Writes made
before a failure stay, which is what the state of an `error` is.
-/

namespace Strk20.Consumer

open Feed Json
open Effect (lift)

def MAX_DECOMPRESSED : Nat := 256 * 1024 * 1024

structure FeedTransport where
  fetchGenesis : Except Failure Genesis
  fetchManifest : Except Failure Manifest
  fetchEpoch : Nat → Except Failure ByteArray
  fetchSnapshot : Nat → Except Failure ByteArray
  /-- `none` is an unchanged head: the ETag matched. -/
  fetchHead : Option String → Except Failure (Option (ByteArray × String))
  decompress : ByteArray → Nat → String → Except Failure ByteArray

section

variable {S : Type} [ConsumerStore S] (P : FeltParser) (J : JsonParser) (t : FeedTransport)

/-- Pin the feed on the first sync, compare with the pin afterwards. -/
def pinGenesis (genesis : Genesis) : EStateM Failure S Unit := do
  match metaGet (← get) "pool" with
  | none =>
      modify fun s => metaSet s "pool" genesis.pool
      modify fun s => metaSet s "chain_id" genesis.chainId
      modify fun s => metaSet s "epoch_size" genesis.epochSize.repr
      modify fun s => metaSet s "genesis_block" genesis.genesisBlock.repr
  | some stored =>
      if stored ≠ genesis.pool then
        throw (.bail ("feed pool " ++ genesis.pool ++ " does not match local mirror " ++ stored))
      else pure ()

def checkChainId (genesis : Genesis) : EStateM Failure S Unit := do
  match metaGet (← get) "chain_id" with
  | none => pure ()
  | some stored =>
      if stored ≠ genesis.chainId then
        throw (.bail ("feed chain id " ++ genesis.chainId ++ " does not match local mirror " ++
          stored))
      else pure ()

/-- The manifest's chain id must be the genesis document's. -/
def fetchManifest (genesis : Genesis) : Except Failure Manifest := do
  let manifest ← t.fetchManifest
  if manifest.chainId ≠ genesis.chainId then
    throw (.bail ("feed disagrees with itself: genesis chain id " ++ genesis.chainId ++
      " != manifest " ++ manifest.chainId))
  else pure manifest

/-! ## Snapshot cold start -/

/-- The snapshot ladder with the host's decompression. -/
def verifySnapshot (compressed : ByteArray) (entry : ManifestSnapshot) (basisEpochHash : String)
    (expect : Snapshot.FeedIdentity) : Except Failure Snapshot := do
  let zstSha256 := hexEncode (payloadSha256 compressed)
  liftFeed (Snapshot.checkZstHash zstSha256 entry)
  let payload ← t.decompress compressed MAX_DECOMPRESSED entry.file
  liftFeed (Snapshot.decodeSnapshotPayload P J payload zstSha256 entry basisEpochHash expect)

/-- `e.checked_mul(size)?.checked_add(size)?.checked_sub(1)`. -/
def expectedEnd (e size : Nat) : Option Nat :=
  if e * size ≥ 2 ^ 64 then none
  else if e * size + size ≥ 2 ^ 64 then none
  else if e * size + size = 0 then none
  else some (e * size + size - 1)

/-- The snapshot of the manifest, verified and aligned. -/
def fetchSnapshot (manifest : Manifest) (entry : ManifestSnapshot) (genesis : Genesis)
    (feedPool : Felt) : Except Failure Snapshot :=
  match manifest.epoch entry.e with
  | none =>
      .error (.bail ("FEED_CHAIN_BROKEN: the manifest carries a snapshot at epoch " ++
        entry.e.repr ++ " but does not list that epoch"))
  | some basis => do
      let compressed ← t.fetchSnapshot entry.e
      let snap ← verifySnapshot P J t compressed entry basis.hash ⟨genesis.chainId, feedPool⟩
      match expectedEnd entry.e genesis.epochSize with
      | none =>
          throw (.bail ("FEED_MALFORMED: manifest snapshot epoch index " ++ entry.e.repr ++
            " overflows the epoch range arithmetic"))
      | some expected =>
          if snap.header.block ≠ expected then
            throw (.bail ("FEED_MALFORMED: snapshot basis " ++ snap.header.block.repr ++
              " is not the end block of epoch " ++ entry.e.repr))
          else pure snap

/-- The metadata `install_snapshot` writes. -/
def snapshotMeta (h : SnapshotHeader) : List (String × String) :=
  [("last_epoch_applied", h.epoch.repr), ("last_epoch_hash", h.epochHash),
    ("last_epoch_to", h.block.repr), ("history_floor", ((h.block + 1) % 2 ^ 64).repr),
    ("snapshot_basis", h.block.repr)]

def coldStartFromSnapshot (manifest : Manifest) (entry : ManifestSnapshot) (genesis : Genesis)
    (feedPool : Felt) : EStateM Failure S Unit := do
  let snap ← lift (fetchSnapshot P J t manifest entry genesis feedPool)
  modify fun s => ConsumerStore.installSnapshot s snap.slots (snapshotMeta snap.header)

/-- Taken only on an empty mirror. -/
def coldStart (mode : ColdStart) (manifest : Manifest) (genesis : Genesis) (feedPool : Felt) :
    EStateM Failure S Unit := do
  if mode ≠ .epochs ∧ ConsumerStore.isEmpty (← get) then
    match manifest.snapshot with
    | some entry => coldStartFromSnapshot P J t manifest entry genesis feedPool
    | none =>
        if mode = .snapshot then
          throw (.bail ("SNAPSHOT_UNAVAILABLE: this feed publishes no snapshot " ++
            "(manifest.snapshot is null), so --cold-start snapshot cannot be honoured. Use " ++
            "--cold-start auto to fall back to epoch replay, or --cold-start epochs to ask for " ++
            "it explicitly."))
        else pure ()
  else pure ()

/-! ## Epochs -/

/-- The content hash a mirror keeps as text. -/
def decodeStoredHash (text : String) : Except Failure Key :=
  match hexDecode text with
  | none => .error (.bail "invalid hex")
  | some (32, n) => .ok (keyOfNat n)
  | some _ => .error (.bail "bad stored epoch hash")

/-- `last_epoch_hash` decoded. -/
def storedHash (s : S) : Except Failure (Option Key) :=
  match metaGet s "last_epoch_hash" with
  | none => .ok none
  | some text => (decodeStoredHash text).map some

/-- The manifest's entry for the last applied epoch must carry our hash. -/
def checkDivergence (manifest : Manifest) (lastApplied : Option Nat) (prevHash : Option Key) :
    Except Failure Unit :=
  match lastApplied, prevHash with
  | some done, some localHash =>
      match manifest.epoch done with
      | some entry =>
          if entry.hash = hexEncode localHash then .ok ()
          else
            .error (.bail ("feed diverged: epoch " ++ done.repr ++ " hash " ++ entry.hash ++
              " != locally applied " ++ hexEncode localHash))
      | none =>
          .error (.bail ("feed diverged: manifest no longer lists applied epoch " ++ done.repr))
  | _, _ => .ok ()

/-- Stored rows of the range that contradict the epoch. -/
def epochContradiction (stored : List (Nat × Felt)) (epoch : Epoch) : Bool :=
  stored.any fun row => !epoch.blocks.any fun b => b.number == row.1 && b.hash == row.2

/-- The epoch a manifest entry names, fetched and verified. -/
def fetchEpoch (genesis : Genesis) (feedPool : Felt) (entry : ManifestEpoch)
    (prevHash : Option Key) : Except Failure (ByteArray × Epoch) := do
  let compressed ← t.fetchEpoch entry.e
  let payload ← t.decompress compressed MAX_DECOMPRESSED ("epoch " ++ entry.e.repr)
  let epoch ← liftFeed (Codec.verifyEpochAgainstManifest P J payload entry prevHash)
  liftFeed (Codec.verifyEpochBinding epoch genesis.chainId feedPool)
  pure (payload, epoch)

/-- The metadata an applied epoch writes. -/
def epochMeta (entry : ManifestEpoch) (payload : ByteArray) : List (String × String) :=
  [("last_epoch_applied", entry.e.repr), ("last_epoch_hash", hexEncode (payloadSha256 payload)),
    ("last_epoch_to", entry.last.repr)]

/-- What the epoch loop carries. -/
structure Progress where
  lastApplied : Option Nat
  prevHash : Option Key
  tailRewound : Bool
  epochsApplied : Nat

/-- The loop's skip rule. -/
def skips (lastApplied : Option Nat) (entry : ManifestEpoch) : Bool :=
  match lastApplied with
  | some done => entry.e ≤ done
  | none => false

def applyEpoch (genesis : Genesis) (feedPool : Felt) (entry : ManifestEpoch) (p : Progress) :
    EStateM Failure S Progress := do
  let (payload, epoch) ← lift (fetchEpoch P J t genesis feedPool entry p.prevHash)
  let range := Range.inclusive entry.first entry.last
  let stored ← lift (ConsumerStore.blockHashes (← get) range)
  let contradiction := epochContradiction stored epoch
  let s ← lift (ConsumerStore.replaceRange (← get) range (epoch.blocks.map fun b => (b, true))
    (epochMeta entry payload) contradiction)
  set s
  pure ⟨some entry.e, some (payloadSha256 payload), p.tailRewound || contradiction,
    p.epochsApplied + 1⟩

def applyEpochs (genesis : Genesis) (feedPool : Felt) : List ManifestEpoch → Progress →
    EStateM Failure S Progress
  | [], p => pure p
  | entry :: rest, p => do
      if skips p.lastApplied entry then applyEpochs genesis feedPool rest p
      else do
        let p ← applyEpoch P J t genesis feedPool entry p
        applyEpochs genesis feedPool rest p

/-- Phase 1: every epoch of the manifest that is not applied yet. -/
def syncEpochs (genesis : Genesis) (feedPool : Felt) (manifest : Manifest) :
    EStateM Failure S Progress := do
  let lastApplied := metaU64 (← get) "last_epoch_applied"
  let prevHash ← lift (storedHash (← get))
  lift (checkDivergence manifest lastApplied prevHash)
  applyEpochs P J t genesis feedPool manifest.epochs ⟨lastApplied, prevHash, false, 0⟩

/-! ## Head tail -/

/-- Stored tail rows that contradict the new tail file. -/
def headContradiction (stored : List (Nat × Felt)) (head : Head) : Bool :=
  stored.any fun row =>
    match head.blocks.find? fun b => b.number == row.1 with
    | some b => b.hash ≠ row.2
    | none => head.header.tailFrom ≤ row.1

/-- Tail blocks with their finality flag. -/
def tailBlocks (head : Head) : List (BlockLine × Bool) :=
  head.blocks.map fun b => (b, b.finality == some .l1)

def headMeta (h : HeadHeader) (etag : String) : List (String × String) :=
  [("head_etag", etag), ("head_number", h.head.repr), ("head_hash", feltHex h.headHash),
    ("l1_accepted", h.l1Accepted.repr)]

/-- Rebuild the tail above the epoch floor; the result is the rewind flag. -/
def applyHead (lastEpochTo : Nat) (payload : ByteArray) (etag : String) :
    EStateM Failure S (Head × Bool) := do
  let head ← lift (liftFeed (Codec.parseHead P J payload))
  if head.header.tailFrom > (lastEpochTo + 1) % 2 ^ 64 then
    throw (.bail ("feed advanced mid-sync (tail starts at " ++ head.header.tailFrom.repr ++
      ", our epoch floor is " ++ lastEpochTo.repr ++ "); retry"))
  else do
    let range := Range.above lastEpochTo
    let stored ← lift (ConsumerStore.blockHashes (← get) range)
    let contradiction := headContradiction stored head
    let s ← lift (ConsumerStore.replaceRange (← get) range (tailBlocks head)
      (headMeta head.header etag) contradiction)
    set s
    pure (head, contradiction)

def lastEpochTo (s : S) : Nat := (metaU64 s "last_epoch_to").getD 0

/-- Phase 2: the head tail, if it changed. -/
def syncHead (p : Progress) : EStateM Failure S ApplyOutcome := do
  let floor := lastEpochTo (← get)
  match ← lift (t.fetchHead (metaGet (← get) "head_etag")) with
  | some (payload, etag) => do
      let (head, contradiction) ← applyHead P J floor payload etag
      let s ← get
      pure ⟨p.epochsApplied % 2 ^ 64, p.tailRewound || contradiction, true, head.header.head,
        head.header.l1Accepted, floor, metaU64 s "snapshot_basis", historyFloor s⟩
  | none => do
      let s ← get
      pure ⟨p.epochsApplied % 2 ^ 64, p.tailRewound, false, (metaU64 s "head_number").getD 0,
        (metaU64 s "l1_accepted").getD 0, floor, metaU64 s "snapshot_basis", historyFloor s⟩

/-- Apply verified epochs and the head tail per the manifest. -/
def applyFeed (mode : ColdStart) : EStateM Failure S ApplyOutcome := do
  let genesis ← lift t.fetchGenesis
  pinGenesis genesis
  checkChainId genesis
  let manifest ← lift (fetchManifest t genesis)
  let feedPool ← lift (liftFeed (feltFromHex P genesis.pool))
  coldStart P J t mode manifest genesis feedPool
  let p ← syncEpochs P J t genesis feedPool manifest
  syncHead P J t p

end

end Strk20.Consumer
