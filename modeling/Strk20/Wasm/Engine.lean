import Strk20.Consumer.Sdk
import Strk20.Consumer.Shared

/-!
# The engine (`wasm/src/lib.rs`)

One folded `MemStore` behind a verification gate: a flag, a pending proof and
the store's own metadata. The host stages public bytes and calls in; it may be
stopped between any two writes of a discovery, which is what `budget` counts.
-/

namespace Strk20.Wasm

open Feed Consumer Checkpoint Json
open Effect (lift)

/-! ## Staged bytes (`staged.rs`) -/

structure StagedFeed where
  genesis : Option Genesis
  manifest : Option Manifest
  epochs : Std.ExtTreeMap Nat ByteArray
  snapshots : Std.ExtTreeMap Nat ByteArray
  head : Option (ByteArray × String)
  /-- By content hash: what the caller inflated. -/
  inflated : Std.ExtTreeMap Key ByteArray

namespace StagedFeed

def new : StagedFeed := ⟨none, none, ∅, ∅, none, ∅⟩

def putEpoch (f : StagedFeed) (e : Nat) (payload : ByteArray) : StagedFeed :=
  { f with
    inflated := f.inflated.insert (payloadSha256 payload) payload
    epochs := f.epochs.insert e payload }

def putSnapshot (f : StagedFeed) (e : Nat) (zst payload : ByteArray) : StagedFeed :=
  { f with
    inflated := f.inflated.insert (payloadSha256 zst) payload
    snapshots := f.snapshots.insert e zst }

def putHead (f : StagedFeed) (payload : ByteArray) (etag : String) : StagedFeed :=
  { f with head := some (payload, etag) }

def clearApplied (f : StagedFeed) : StagedFeed :=
  { f with epochs := ∅, snapshots := ∅, inflated := ∅ }

def staged {α : Type} (x : Option α) (what : String) : Except Failure α :=
  match x with
  | some a => .ok a
  | none => .error (.transport ("NOT_STAGED: " ++ what))

def decompress (f : StagedFeed) (bytes : ByteArray) (cap : Nat) (artifact : String) :
    Except Failure ByteArray :=
  match f.inflated[payloadSha256 bytes]? with
  | none =>
      .error (.transport ("NOT_STAGED: no inflated payload was staged for " ++ artifact ++
        ". This module does not link zstd; the caller must inflate and stage the result."))
  | some raw =>
      if raw.size > cap then
        .error (.transport ("DECOMPRESS_LIMIT: inflated " ++ artifact ++ " is " ++ raw.size.repr ++
          " bytes, past the " ++ cap.repr ++ "-byte cap"))
      else .ok raw

/-- The staged bytes as a transport. -/
def transport (f : StagedFeed) : FeedTransport where
  fetchGenesis := staged f.genesis "genesis.json was never staged"
  fetchManifest := staged f.manifest "manifest.json was never staged"
  fetchEpoch idx := staged f.epochs[idx]? ("epoch " ++ idx.repr ++ " was never staged")
  fetchSnapshot e := staged f.snapshots[e]? ("snapshot for epoch " ++ e.repr ++ " was never staged")
  fetchHead etag :=
    match f.head with
    | some (bytes, stagedEtag) =>
        if etag = some stagedEtag then .ok none else .ok (some (bytes, stagedEtag))
    | none => .ok none
  decompress := f.decompress

end StagedFeed

/-! ## The engine -/

/-- What the engine calls outside of this repository. -/
structure EngineCore (pedersen : Felt → Felt → Felt) where
  sdk : SdkCore (MemStore pedersen)
  poseidonHashMany : List Felt → Felt
  readGenesis : String → Except String Genesis
  readManifest : String → Except String Manifest
  writeManifest : Manifest → Except String String
  readRecipients : String → Except String (Option (List String))
  /-- `blob::encode` of a store and its manifest. -/
  encodeBlob : MemStore pedersen → Manifest → Except String ByteArray

structure Engine (pedersen : Felt → Felt → Felt) where
  store : MemStore pedersen
  feed : StagedFeed
  genesis : Genesis
  pending : Option (TrustedCheckpoint × Felt)
  failed : Bool
  revision : Nat

variable {pedersen : Felt → Felt → Felt}

/-- A viewing key from the bytes the host hands over. -/
def secret (bytes : ByteArray) : Except Failure Felt :=
  if bytes.size = 32 then
    let value := fromBytesBe (keyOfNat (Bytes.beNat bytes.data.toList))
    if value = 0 then .error (.bail "KEY_INVALID: zero viewing key") else .ok value
  else .error (.bail "KEY_INVALID: expected 32 bytes")

/-- The engine of a genesis document. -/
def Engine.build (genesis : Genesis) : Engine pedersen :=
  ⟨MemStore.new pedersen, { StagedFeed.new with genesis := some genesis }, genesis, none, false, 0⟩

section

variable (P : FeltParser) (J : JsonParser) (core : EngineCore pedersen)

/-- `new(genesis_json)`. -/
def Engine.new (genesisJson : String) : Except Failure (Engine pedersen) :=
  match core.readGenesis genesisJson with
  | .ok genesis => .ok (Engine.build genesis)
  | .error e =>
      .error (.bail ("FEED_MALFORMED: genesis.json is not a genesis document: " ++ e))

/-- The calls a host can make. -/
inductive Call where
  | stageManifest (json : String)
  | stageEpoch (epoch : Nat) (payload : ByteArray)
  | stageSnapshot (epoch : Nat) (compressed payload : ByteArray)
  | stageHead (payload : ByteArray) (etag : String)
  | stageCheckpoint (checkpointJson proofJson : String)
  | apply (coldStart : String)
  | discover (owner : String) (key : ByteArray) (budget : Nat)
  | channels (owner : String) (key : ByteArray) (recipientsJson : String)
  | requirement (owner : String) (key : ByteArray) (recipient token : String)
  | forgetOwner (owner : String) (budget : Nat)
  | exportState

/-- What a call gives back, if it succeeds. -/
inductive Reply where
  | done
  | applied (outcome : ApplyOutcome) (verifiedAt : Nat)
  | report (text : String)
  | channels (report : ChannelsReport)
  | requirement (n : Nat)
  | state (bytes : ByteArray)

namespace Engine

variable (e : Engine pedersen)

def felt (s : String) : Except Failure Felt := liftFeed (feltFromHex P s)

/-- The body of `stage_checkpoint`: the proof is checked before anything is
folded. -/
def proveCheckpoint (checkpointJson proofJson : String) :
    Except Failure (TrustedCheckpoint × Felt) := do
  let cp ← (core.sdk.readCheckpoint checkpointJson).mapError Failure.bail
  let pool ← felt P e.genesis.pool
  if ¬ (cp.chainId = e.genesis.chainId ∧ cp.pool = pool) then
    throw (.bail "CHAIN_MISMATCH: checkpoint identity")
  else do
    let root ← liftFeed (verifyCheckpoint P J pedersen core.poseidonHashMany cp proofJson)
    pure (cp, root)

def stageCheckpoint (checkpointJson proofJson : String) :
    Except Failure Reply × Engine pedersen :=
  let e := { e with failed := true, pending := none }
  match e.proveCheckpoint P J core checkpointJson proofJson with
  | .ok proved => (.ok .done, { e with pending := some proved })
  | .error err => (.error err, e)

def coldStartMode (coldStart : String) : Except Failure ColdStart :=
  if coldStart = "epochs" then .ok .epochs
  else if coldStart = "snapshot" then .ok .snapshot
  else if coldStart = "auto" then .ok .auto
  else .error (.bail "CONFIG_INVALID: cold start mode")

/-- A snapshot newer than the checkpoint cannot be checked against it. -/
def checkSnapshotBound (manifest : Manifest) (cp : TrustedCheckpoint) (coldStart : String) :
    Except Failure Unit :=
  if ConsumerStore.isEmpty e.store then
    match manifest.snapshot with
    | some s =>
        if coldStart = "epochs" ∨ s.block ≤ cp.blockNumber then .ok ()
        else .error (.bail "BOUND_BELOW_SNAPSHOT: snapshot is newer than checkpoint")
    | none => .ok ()
  else .ok ()

/-- The body of `apply`, on a fork of the store. -/
def candidate (coldStart : String) :
    Except Failure (ApplyOutcome × TrustedCheckpoint × MemStore pedersen) := do
  match e.pending with
  | none => throw (.bail "CHECKPOINT_REQUIRED: stage an independent proof")
  | some (cp, root) =>
      match e.feed.manifest with
      | none => throw (.bail "NOT_STAGED: manifest")
      | some manifest => do
          e.checkSnapshotBound manifest cp coldStart
          let mode ← coldStartMode coldStart
          match applyFeed P J e.feed.transport mode e.store.fork with
          | .error err _ => throw err
          | .ok outcome folded =>
              match verifyState P cp root folded with
              | .error err _ => throw err
              | .ok _ verified => do
                  let text ← (core.writeManifest manifest).mapError Failure.bail
                  pure (outcome, cp, metaSet verified "applied_manifest" text)

def apply (coldStart : String) : Except Failure Reply × Engine pedersen :=
  let e := { e with failed := true }
  match e.candidate P J core coldStart with
  | .ok (outcome, cp, store) =>
      (.ok (.applied outcome cp.blockNumber),
        { e with
          store := store
          revision := (e.revision + 1) % 2 ^ 32
          failed := false
          feed := e.feed.clearApplied })
  | .error err => (.error err, e)

def checkGate : Except Failure Unit :=
  if e.failed then .error (.bail "CHECKPOINT_FAILED: sync must succeed first") else .ok ()

/-- Discovery writes to the store as it goes, also where it fails. -/
def discover (owner : String) (key : ByteArray) (budget : Nat) :
    Except Failure Reply × Engine pedersen :=
  match e.checkGate, felt P owner, secret key with
  | .error err, _, _ => (.error err, e)
  | .ok _, .error err, _ => (.error err, e)
  | .ok _, .ok _, .error err => (.error err, e)
  | .ok _, .ok owner, .ok key =>
      match sdkDiscover core.sdk owner key ⟨e.store, budget, []⟩ with
      | .error err host => (.error err, { e with store := host.store })
      | .ok report host =>
          let stamp := cacheKey owner ++ "_stamp"
          (.ok (.report report),
            { e with
              store := host.store
              revision :=
                if metaGet host.store stamp ≠ metaGet e.store stamp then
                  (e.revision + 1) % 2 ^ 32
                else e.revision })

/-- The recipients asked for, if any are named. -/
def recipientFelts (recipientsJson : String) : Except Failure (Option (List Felt)) := do
  match ← (core.readRecipients recipientsJson).mapError Failure.bail with
  | none => pure none
  | some texts => do pure (some (← texts.mapM (felt P)))

def channels (owner : String) (key : ByteArray) (recipientsJson : String) : Except Failure Reply := do
  let key := secret key
  e.checkGate
  let recipients ← recipientFelts P core recipientsJson
  let owner ← felt P owner
  let report ← sdkChannels core.sdk e.store owner (← key) recipients
  pure (.channels report)

def requirement (owner : String) (key : ByteArray) (recipient token : String) :
    Except Failure Reply := do
  let key := secret key
  e.checkGate
  let owner ← felt P owner
  let key ← key
  let recipient ← felt P recipient
  let token ← felt P token
  let n ← sdkRequirement core.sdk e.store owner key recipient token
  pure (.requirement n)

def forgetOwner (owner : String) (budget : Nat) : Except Failure Reply × Engine pedersen :=
  let e := { e with revision := (e.revision + 1) % 2 ^ 32 }
  match felt P owner with
  | .error err => (.error err, e)
  | .ok owner =>
      match fullResync owner ⟨e.store, budget, []⟩ with
      | .error err host => (.error err, { e with store := host.store })
      | .ok _ host => (.ok .done, { e with store := host.store })

def exportState : Except Failure Reply := do
  let _ ← checkpoint core.sdk e.store
  match metaGet e.store "applied_manifest" with
  | none => throw (.bail "missing applied manifest")
  | some text => do
      let manifest ← (core.readManifest text).mapError Failure.bail
      let bytes ← (core.encodeBlob e.store manifest).mapError Failure.bail
      pure (.state bytes)

/-- One call: its answer, and the engine after it. -/
def exec : Call → Except Failure Reply × Engine pedersen
  | .stageManifest json =>
      match core.readManifest json with
      | .ok m => (.ok .done, { e with feed := { e.feed with manifest := some m } })
      | .error err =>
          (.error (.bail ("FEED_MALFORMED: manifest.json is not a manifest: " ++ err)), e)
  | .stageEpoch n payload => (.ok .done, { e with feed := e.feed.putEpoch n payload })
  | .stageSnapshot n zst payload => (.ok .done, { e with feed := e.feed.putSnapshot n zst payload })
  | .stageHead payload etag => (.ok .done, { e with feed := e.feed.putHead payload etag })
  | .stageCheckpoint cp proof => e.stageCheckpoint P J core cp proof
  | .apply coldStart => e.apply P J core coldStart
  | .discover owner key budget => e.discover P core owner key budget
  | .channels owner key recipients => (e.channels P core owner key recipients, e)
  | .requirement owner key recipient token =>
      (e.requirement P core owner key recipient token, e)
  | .forgetOwner owner budget => e.forgetOwner P owner budget
  | .exportState => (e.exportState core, e)

end Engine

end

end Strk20.Wasm
