import Strk20.Consumer.Anchors
import Strk20.Consumer.Rewind

/-!
# Spendable data over one verified state (`sdk.rs`)

Every entry starts from the checkpoint the store was verified at. Hashes, slot
addresses and `serde_json` are the caller's; a report is rendered by one of
them and kept as text.
-/

namespace Strk20.Consumer

open Feed Checkpoint
open Effect (lift Triple)

/-- A note as `discover` reports it. -/
structure SdkNote where
  token : Felt
  id : Felt
  amount : Nat
  sender : Felt
  spent : Bool
  knownByBlock : Nat
  reportedWriteBlock : Nat
  nullifier : Felt
  channelKey : Felt
  index : Nat
  salt : Nat

/-- What `discover` renders. -/
structure DiscoverReport where
  block : Nat
  blockHash : Felt
  notes : List SdkNote
  incomingCursor : DiscoveryCursor
  incomingComplete : Bool
  outgoingComplete : Bool
  historyFrom : Nat

structure SdkChannel where
  recipient : Felt
  publicKey : Felt
  key : Option Felt
  /-- Token, its index, the next note. -/
  tokens : List (Felt × Nat × Nat)

structure ChannelsReport where
  block : Nat
  total : Nat
  channels : List SdkChannel

/-- `discovery-core`, felts and `serde_json` as the sdk calls them. -/
structure SdkCore (S : Type) extends DiscoveryCore S where
  readCheckpoint : String → Except String TrustedCheckpoint
  displayFelt : Felt → String
  publicKeySlot : Felt → Felt
  channelExistsSlot : Felt → Felt
  subchannelExistsSlot : Felt → Felt
  /-- The salt's slot and the encrypted token's. -/
  subchannelTokensSlots : Felt → Felt × Felt
  computeChannelKey : Felt → Felt → Felt → Felt → Felt
  computeChannelMarker : Felt → Felt → Felt → Felt → Felt
  computeSubchannelId : Felt → Nat → Felt
  computeSubchannelMarker : Felt → Felt → Felt → Felt → Felt
  decryptSubchannelToken : Felt → Felt → Felt → Nat → Felt
  renderDiscover : DiscoverReport → String

section

variable {S : Type} [ConsumerStore S] (core : SdkCore S)

def metaNumber (s : S) (name : String) : Nat := (metaU64 s name).getD 0

/-- The checkpoint the store was verified at. -/
def checkpoint (s : S) : Except Failure TrustedCheckpoint := do
  if metaGet s "verification_failed" = some "1" then
    throw (.bail "CHECKPOINT_FAILED: state verification failed")
  else
    match metaGet s "verified_checkpoint" with
    | none => throw (.bail "CHECKPOINT_REQUIRED: verify state before discovery")
    | some text => (core.readCheckpoint text).mapError Failure.bail

def sdkCursor (s : S) (kind : Kind) (owner : Felt) : Except Failure DiscoveryCursor :=
  decodeCursor core.toDiscoveryCore ((metaGet s (keys kind owner).live).getD "\x7b\x7d")

def cacheKey (owner : Felt) : String := "sdk_" ++ feltHex owner

def sdkStamp (cp : TrustedCheckpoint) (generation : Nat) (key : Felt) : String :=
  core.displayFelt cp.blockHash ++ ":" ++ generation.repr ++ ":" ++ fingerprint key

/-- The bounds of a discovery at the checkpoint. -/
def checkpointOutcome (s : S) (cp : TrustedCheckpoint) : ApplyOutcome where
  epochsApplied := 0
  tailRewound := false
  tailChanged := false
  head := cp.blockNumber
  l1Accepted := min (metaNumber s "l1_accepted") cp.blockNumber
  lastEpochTo := min (metaNumber s "last_epoch_to") cp.blockNumber
  snapshotBasis := metaU64 s "snapshot_basis"
  historyFloor := metaNumber s "history_floor"

def knownKey (noteId : Felt) : String := "known_" ++ feltHex noteId

/-- A registry row as a note of the report; the block it is first known at is
kept for the next one. -/
def sdkNote (cp : TrustedCheckpoint) (incoming : DiscoveryCursor) (rewound : Bool) (n : NoteRow) :
    EStateM Failure (Host S) SdkNote := do
  match incoming.channels.lookup n.sender with
  | none => throw (.bail "missing note channel")
  | some channel => do
      let s := (← get).store
      let packed := (ConsumerStore.readSlotAsOf s (core.notesSlot n.noteId) cp.blockNumber).1
      let (amount, salt) := core.decryptPackedValue packed channel.channelKey n.token n.index
      let old := metaNumber s (knownKey n.noteId)
      let same := decide (metaGet s (knownKey n.noteId ++ "_value") = some (feltHex packed))
      let knownBy :=
        if same ∧ old > 0 ∧ old ≤ cp.blockNumber ∧ ¬ rewound then old else cp.blockNumber
      write fun s => metaSet s (knownKey n.noteId) knownBy.repr
      write fun s => metaSet s (knownKey n.noteId ++ "_value") (feltHex packed)
      pure ⟨n.token, n.noteId, amount, n.sender, n.spent, knownBy, n.block, n.nullifier,
        channel.channelKey, n.index, salt⟩

def sdkNotes (cp : TrustedCheckpoint) (incoming : DiscoveryCursor) (rewound : Bool) :
    List NoteRow → EStateM Failure (Host S) (List SdkNote)
  | [] => pure []
  | n :: rest => do
      let note ← sdkNote core cp incoming rewound n
      let notes ← sdkNotes cp incoming rewound rest
      pure (note :: notes)

/-- A checkpoint below the last one discovered at starts the owner over. -/
def resyncAbove (owner : Felt) (cp : TrustedCheckpoint) : EStateM Failure (Host S) PUnit := do
  if cp.blockNumber < metaNumber (← get).store (cacheKey owner ++ "_block") then fullResync owner
  else pure PUnit.unit

/-- A discovery that the cache does not answer. -/
def freshDiscover (owner key : Felt) (cp : TrustedCheckpoint) (stamp : String) :
    EStateM Failure (Host S) String := do
  resyncAbove owner cp
  let report ← discoverState core.toDiscoveryCore owner key
    (checkpointOutcome (← get).store cp) "rpc-verified"
  let incoming ← lift (sdkCursor core (← get).store .incoming owner)
  let notes ← sdkNotes core cp incoming report.tailRewound
    (ConsumerStore.notes (← get).store owner)
  let result := core.renderDiscover ⟨cp.blockNumber, cp.blockHash, notes, incoming,
    report.incomingComplete, report.outgoingComplete, report.historyFrom⟩
  write fun s => metaSet s (cacheKey owner) result
  write fun s => metaSet s (cacheKey owner ++ "_stamp") stamp
  write fun s => metaSet s (cacheKey owner ++ "_block") cp.blockNumber.repr
  pure result

def sdkDiscover (owner key : Felt) : EStateM Failure (Host S) String := do
  let s := (← get).store
  let cp ← lift (checkpoint core s)
  let stamp := sdkStamp core cp (ConsumerStore.tailGeneration s) key
  if metaGet s (cacheKey owner ++ "_stamp") = some stamp then
    match metaGet s (cacheKey owner) with
    | some report => pure report
    | none => freshDiscover core owner key cp stamp
  else freshDiscover core owner key cp stamp

/-- `last_subchannel_index.map_or(0, |n| n + 1)`. -/
def subchannelEnd (channel : ChannelCursor) : Nat :=
  (channel.lastSubchannelIndex.map (· + 1)).getD 0

/-- The token at an index of a channel, with the note index its cursor gives. -/
def channelToken (s : S) (block : Nat) (channelKey : Felt) (channel : ChannelCursor)
    (index : Nat) : Except Failure (Felt × Nat × Nat) := do
  let slots := core.subchannelTokensSlots (core.computeSubchannelId channelKey index)
  let salt := (ConsumerStore.readSlotAsOf s slots.1 block).1
  let encrypted := (ConsumerStore.readSlotAsOf s slots.2 block).1
  let token := core.decryptSubchannelToken salt encrypted channelKey index
  match channel.subchannels.lookup token with
  | none => throw (.bail "subchannel cursor mismatch")
  | some sub => pure (token, index, sub.totalNNotes.getD 0)

/-- The tokens of a channel, by index. -/
def channelTokens (s : S) (block : Nat) (channelKey : Felt) (channel : ChannelCursor) :
    Except Failure (List (Felt × Nat × Nat)) :=
  (List.range (subchannelEnd channel)).mapM (channelToken core s block channelKey channel)

/-- A recipient that registered a key, with the channel to it. -/
def sdkChannel (s : S) (block : Nat) (owner key : Felt) (outgoing : DiscoveryCursor)
    (recipient : Felt) : Except Failure (Option SdkChannel) := do
  let publicKey := (ConsumerStore.readSlotAsOf s (core.publicKeySlot recipient) block).1
  if publicKey = 0 then pure none
  else do
    let channelKey := core.computeChannelKey owner key recipient publicKey
    let marker := core.computeChannelMarker channelKey owner recipient publicKey
    let found :=
      decide ((ConsumerStore.readSlotAsOf s (core.channelExistsSlot marker) block).1 ≠ 0)
    let tokens ←
      match outgoing.channels.lookup recipient with
      | some channel => channelTokens core s block channelKey channel
      | none => pure []
    pure (some ⟨recipient, publicKey, if found then some channelKey else none, tokens⟩)

def sdkChannels (s : S) (owner key : Felt) (recipients : Option (List Felt)) :
    Except Failure ChannelsReport := do
  let block := (← checkpoint core s).blockNumber
  let outgoing ← sdkCursor core s .outgoing owner
  let total := outgoing.totalNChannels.getD outgoing.channels.length
  let asked := recipients.getD (outgoing.channels.map Prod.fst)
  let channels ← (asked.mergeSort fun a b => a.val ≤ b.val).dedup.mapM fun recipient =>
    sdkChannel core s block owner key outgoing recipient
  pure ⟨block, total, channels.filterMap id⟩

def sdkRequirement (s : S) (owner key recipient token : Felt) : Except Failure Nat := do
  let block := (← checkpoint core s).blockNumber
  let read := fun slot => (ConsumerStore.readSlotAsOf s slot block).1
  if read (core.publicKeySlot owner) = 0 then pure 0
  else do
    let publicKey := read (core.publicKeySlot recipient)
    let channel := core.computeChannelKey owner key recipient publicKey
    if read (core.channelExistsSlot
        (core.computeChannelMarker channel owner recipient publicKey)) = 0 then pure 1
    else if read (core.subchannelExistsSlot
        (core.computeSubchannelMarker channel recipient publicKey token)) = 0 then pure 2
    else pure 3

end

end Strk20.Consumer
