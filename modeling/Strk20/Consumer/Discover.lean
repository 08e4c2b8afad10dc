import Std.Data.ExtTreeMap
import Strk20.Foundation.Bytes
import Strk20.Foundation.Hoare
import Strk20.Consumer.Apply

/-!
# Discovery over a folded mirror (`sync.rs`)

`discoverState` for one owner: a checkpoint pass bound to the last epoch, a
live pass bound to the head, and the note registry behind them. The engine is
`discovery-core`, taken as a parameter. A host may be stopped between any two
writes: `budget` is how many it survives. A read that fails is such a stop before
the next write; the read behind the last write is counted with the writes.
-/

namespace Strk20.Consumer

open Feed
open Effect (lift)
open Std (ExtTreeMap)

/-! ## What the engine hands over -/

structure SubchannelCursor where
  noteDiscoveryComplete : Bool
  totalNNotes : Option Nat
  lastNoteIndex : Option Nat
deriving DecidableEq

structure ChannelCursor where
  channelKey : Felt
  subchannelDiscoveryComplete : Bool
  lastSubchannelIndex : Option Nat
  subchannels : List (Felt × SubchannelCursor)
deriving DecidableEq

/-- The engine's pagination cursor; its maps are listed. -/
structure DiscoveryCursor where
  channelDiscoveryComplete : Bool
  totalNChannels : Option Nat
  lastChannelIndex : Option Nat
  channels : List (Felt × ChannelCursor)
deriving DecidableEq

def DiscoveryCursor.default : DiscoveryCursor := ⟨false, none, none, []⟩

structure DecryptedNote where
  noteId : Felt
  senderAddr : Felt
  token : Felt
  index : Nat
  amount : Nat
  blockNumber : Nat
deriving DecidableEq

/-- `discovery-core` and `serde_json` as this code calls them. The engine reads
the store through the view it is given. -/
structure DiscoveryCore (S : Type) where
  isComplete : DiscoveryCursor → Bool
  syncIncomingState : S → View → Felt → Felt → DiscoveryCursor →
    Except String (DiscoveryCursor × List DecryptedNote)
  syncOutgoingState : S → View → Felt → Felt → DiscoveryCursor → Except String DiscoveryCursor
  computeNullifier : Felt → Felt → Nat → Felt → Felt
  computeNoteId : Felt → Felt → Nat → Felt
  decryptPackedValue : Felt → Felt → Felt → Nat → Nat × Nat
  notesSlot : Felt → Felt
  nullifiersSlot : Felt → Felt
  toJson : DiscoveryCursor → String
  fromJson : String → Except String DiscoveryCursor

/-! ## The host -/

inductive Kind where
  | incoming
  | outgoing
deriving DecidableEq

def Kind.name : Kind → String
  | incoming => "in"
  | outgoing => "out"

/-- An engine run: which pass it belongs to, the cursor it starts from, and the
store it is started on. -/
structure Pass (S : Type) where
  live : Bool
  kind : Kind
  start : DiscoveryCursor
  store : S

structure Host (S : Type) where
  store : S
  budget : Nat
  passes : List (Pass S)

section

variable {S : Type} [ConsumerStore S]

/-- One write to the store, if the host gets to it. -/
def write (f : S → S) : EStateM Failure (Host S) PUnit := fun h =>
  match h.budget with
  | 0 => .error (.transport "host stopped") h
  | n + 1 => .ok PUnit.unit { h with store := f h.store, budget := n }

/-- The read behind the last write. -/
def readNotes (owner : Felt) : EStateM Failure (Host S) (List NoteRow) := fun h =>
  match h.budget with
  | 0 => .error (.transport "host stopped") h
  | n + 1 => .ok (ConsumerStore.notes h.store owner) { h with budget := n }

/-- An engine run is entered. -/
def enter (live : Bool) (kind : Kind) (start : DiscoveryCursor) : EStateM Failure (Host S) PUnit :=
  modify fun h => { h with passes := h.passes ++ [⟨live, kind, start, h.store⟩] }

structure CursorKeys where
  live : String
  ckpt : String
  ckptAt : String

def keys (kind : Kind) (owner : Felt) : CursorKeys :=
  let a := feltHex owner
  ⟨"cur_" ++ kind.name ++ "_" ++ a, "ckpt_" ++ kind.name ++ "_" ++ a,
    "ckpt_at_" ++ kind.name ++ "_" ++ a⟩

def genKey (owner : Felt) : String := "gen_" ++ feltHex owner

def identityKey (owner : Felt) : String := "key_" ++ feltHex owner

/-- `hex::encode(payload_sha256(&key.to_bytes_be()))`. -/
def fingerprint (key : Felt) : String :=
  hexEncode (payloadSha256 ⟨(Bytes.beBytes 32 key.val).toArray⟩)

def MAX_PASSES : Nat := 1000

/-! ## Cursors -/

/-- Completion flags and totals dropped, positions kept. -/
def reopenCursor (cursor : DiscoveryCursor) : DiscoveryCursor :=
  { cursor with
    channelDiscoveryComplete := false
    totalNChannels := none
    channels := cursor.channels.map fun c =>
      (c.1, { c.2 with
        subchannelDiscoveryComplete := false
        subchannels := c.2.subchannels.map fun sub =>
          (sub.1, { sub.2 with noteDiscoveryComplete := false, totalNNotes := none }) }) }

/-- A complete cursor describes the whole state, old notes included. -/
def countNotes (cursor : DiscoveryCursor) : DiscoveryCursor :=
  { cursor with
    channels := cursor.channels.map fun c =>
      (c.1, { c.2 with
        subchannels := c.2.subchannels.map fun sub =>
          (sub.1, { sub.2 with totalNNotes := some ((sub.2.lastNoteIndex.map (· + 1)).getD 0) }) }) }

variable (core : DiscoveryCore S)

/-- `serde_json::from_str(&json)?`. -/
def decodeCursor (json : String) : Except Failure DiscoveryCursor :=
  (core.fromJson json).mapError Failure.bail

def loadCursor (s : S) (key : String) : Except Failure (Option DiscoveryCursor) :=
  match (metaGet s key).filter (· ≠ "") with
  | some json => (decodeCursor core json).map some
  | none => .ok none

def saveCursor (key : String) (cursor : DiscoveryCursor) : EStateM Failure (Host S) PUnit :=
  write fun s => metaSet s key (core.toJson cursor)

def incomingPasses (s : S) (v : View) (owner key : Felt) : Nat → DiscoveryCursor →
    List DecryptedNote → Except Failure (DiscoveryCursor × List DecryptedNote)
  | 0, _, _ =>
      .error (.bail ("incoming discovery did not complete in " ++ MAX_PASSES.repr ++ " passes"))
  | n + 1, cursor, notes => do
      let (cursor, more) ← (core.syncIncomingState s v owner key cursor).mapError fun e =>
        Failure.bail ("incoming discovery failed: " ++ e)
      if core.isComplete cursor then pure (countNotes cursor, notes ++ more)
      else incomingPasses s v owner key n cursor (notes ++ more)

def runIncoming (s : S) (bound : Nat) (owner key : Felt) (cursor : DiscoveryCursor) :
    Except Failure (DiscoveryCursor × List DecryptedNote) := do
  let v ← view s bound
  incomingPasses core s v owner key MAX_PASSES (reopenCursor cursor) []

def outgoingPasses (s : S) (v : View) (owner key : Felt) : Nat → DiscoveryCursor →
    Except Failure DiscoveryCursor
  | 0, _ =>
      .error (.bail ("outgoing discovery did not complete in " ++ MAX_PASSES.repr ++ " passes"))
  | n + 1, cursor => do
      let cursor ← (core.syncOutgoingState s v owner key cursor).mapError fun e =>
        Failure.bail ("outgoing discovery failed: " ++ e)
      if core.isComplete cursor then pure cursor
      else outgoingPasses s v owner key n cursor

def runOutgoing (s : S) (bound : Nat) (owner key : Felt) (cursor : DiscoveryCursor) :
    Except Failure DiscoveryCursor := do
  let v ← view s bound
  outgoingPasses core s v owner key MAX_PASSES (reopenCursor cursor)

/-! ## The registry -/

def noteRow (owner key : Felt) (channel : ChannelCursor) (n : DecryptedNote) : NoteRow :=
  ⟨n.noteId, owner, n.senderAddr, n.token, n.index,
    core.computeNullifier channel.channelKey n.token n.index key, n.amount, n.blockNumber, false⟩

/-- The engine's notes as registry rows; a note without a channel is skipped. -/
def registerNotes (owner key : Felt) (cursor : DiscoveryCursor) (notes : List DecryptedNote) :
    EStateM Failure (Host S) PUnit :=
  notes.forM fun n =>
    match cursor.channels.lookup n.senderAddr with
    | none => pure PUnit.unit
    | some channel => write fun s => ConsumerStore.upsertNote s (noteRow core owner key channel n)

/-- The notes the engine scanned and dropped: every index up to the scan's
high-water mark that the registry does not know. -/
def registerScannedNotes (owner key : Felt) (cursor : DiscoveryCursor) (bound : Nat) :
    EStateM Failure (Host S) PUnit := do
  let known := (ConsumerStore.notes (← get).store owner).map fun n => (n.sender, n.token, n.index)
  cursor.channels.forM fun (sender, channel) =>
    channel.subchannels.forM fun (token, sub) =>
      match sub.lastNoteIndex with
      | none => pure PUnit.unit
      | some last =>
          (List.range (last + 1)).forM fun index => do
            if known.contains (sender, token, index) then pure PUnit.unit
            else do
              let noteId := core.computeNoteId channel.channelKey token index
              let (packed, block) :=
                ConsumerStore.readSlotAsOf (← get).store (core.notesSlot noteId) bound
              if packed = 0 then pure PUnit.unit
              else
                let (amount, _) := core.decryptPackedValue packed channel.channelKey token index
                write fun s => ConsumerStore.upsertNote s
                  (noteRow core owner key channel ⟨noteId, sender, token, index, amount, block⟩)

/-- Spent-state from the nullifier slots; the nullifiers that flipped to spent. -/
def refreshSpent (owner : Felt) (block : Nat) : EStateM Failure (Host S) (List Felt) := do
  let notes := ConsumerStore.notes (← get).store owner
  let s := (← get).store
  let spent := fun n : NoteRow =>
    decide ((ConsumerStore.readSlotAsOf s (core.nullifiersSlot n.nullifier) block).1 ≠ 0)
  notes.forM fun n =>
    if spent n ≠ n.spent then write fun s => ConsumerStore.setNoteSpent s n.noteId (spent n)
    else pure PUnit.unit
  pure ((notes.filter fun n => spent n && !n.spent).map (·.nullifier))

/-- Registry rows whose note slot is gone from the mirror. -/
def pruneMissingNotes (owner : Felt) (asOf : Nat) : EStateM Failure (Host S) PUnit := do
  let s := (← get).store
  (ConsumerStore.notes s owner).forM fun n =>
    if (ConsumerStore.readSlotAsOf s (core.notesSlot n.noteId) asOf).1 = 0 then
      write fun s => ConsumerStore.deleteNote s n.noteId
    else pure PUnit.unit

/-! ## One owner -/

/-- Every cursor and registry row of an owner, dropped. -/
def fullResync (owner : Felt) : EStateM Failure (Host S) PUnit := do
  [Kind.incoming, Kind.outgoing].forM fun kind => do
    write fun s => metaSet s (keys kind owner).live ""
    write fun s => metaSet s (keys kind owner).ckpt ""
    write fun s => metaSet s (keys kind owner).ckptAt ""
  write fun s => metaSet s ("sdk_" ++ feltHex owner ++ "_stamp") ""
  write fun s => metaSet s ("sdk_" ++ feltHex owner ++ "_block") "0"
  write fun s => (ConsumerStore.deleteOwnerNotes s owner).2

/-- Another viewing key starts over. -/
def checkIdentity (owner key : Felt) : EStateM Failure (Host S) PUnit := do
  if metaGet (← get).store (identityKey owner) ≠ some (fingerprint key) then do
    fullResync owner
    write fun s => metaSet s (identityKey owner) (fingerprint key)
  else pure PUnit.unit

def ownerGeneration (s : S) (owner : Felt) : Nat := (metaU64 s (genKey owner)).getD 0

/-- Live cursors of an older generation are discarded. -/
def rewindLive (owner : Felt) (generation head : Nat) : EStateM Failure (Host S) Bool := do
  if ownerGeneration (← get).store owner ≠ generation then do
    write fun s => metaSet s (keys .incoming owner).live ""
    write fun s => metaSet s (keys .outgoing owner).live ""
    pruneMissingNotes core owner head
    pure true
  else pure false

/-- An incoming run at a bound, its notes registered, its cursor saved. -/
def incomingPass (live : Bool) (owner key : Felt) (bound : Nat) (start : DiscoveryCursor)
    (saveTo : String) : EStateM Failure (Host S) DiscoveryCursor := do
  enter live .incoming start
  let (cursor, notes) ← lift (runIncoming core (← get).store bound owner key start)
  registerNotes core owner key cursor notes
  registerScannedNotes core owner key cursor bound
  saveCursor core saveTo cursor
  pure cursor

def outgoingPass (live : Bool) (owner key : Felt) (bound : Nat) (start : DiscoveryCursor)
    (saveTo : String) : EStateM Failure (Host S) DiscoveryCursor := do
  enter live .outgoing start
  let cursor ← lift (runOutgoing core (← get).store bound owner key start)
  saveCursor core saveTo cursor
  pure cursor

/-- The pass bound to the last epoch; a verified host skips it. -/
def checkpointPass (owner key : Felt) (lastEpochTo : Nat) (verified : String) :
    EStateM Failure (Host S) PUnit := do
  if verified = "server-asserted" ∧ lastEpochTo > 0 then do
    if metaU64 (← get).store (keys .incoming owner).ckptAt ≠ some lastEpochTo then do
      let start ← lift (loadCursor core (← get).store (keys .incoming owner).ckpt)
      let _ ← incomingPass core false owner key lastEpochTo (start.getD .default)
        (keys .incoming owner).ckpt
      write fun s => metaSet s (keys .incoming owner).ckptAt lastEpochTo.repr
      let start ← lift (loadCursor core (← get).store (keys .outgoing owner).ckpt)
      let _ ← outgoingPass core false owner key lastEpochTo (start.getD .default)
        (keys .outgoing owner).ckpt
      write fun s => metaSet s (keys .outgoing owner).ckptAt lastEpochTo.repr
    else pure PUnit.unit
  else pure PUnit.unit

/-- Where a live pass starts: the live cursor, else the checkpoint, else
nothing. -/
def liveStart (s : S) (kind : Kind) (owner : Felt) : Except Failure DiscoveryCursor :=
  match (metaGet s (keys kind owner).live).filter (· ≠ "") with
  | some json => decodeCursor core json
  | none => (loadCursor core s (keys kind owner).ckpt).map fun c => c.getD .default

structure SyncReport where
  address : String
  head : Nat
  l1Accepted : Nat
  lastEpochTo : Nat
  tailRewound : Bool
  incomingComplete : Bool
  outgoingComplete : Bool
  incomingSenders : List String
  outgoingRecipients : List String
  notes : List NoteRow
  balances : List (String × Nat)
  newlySpent : List String
  historyFrom : Nat
  snapshotBasis : Option Nat
  verified : String

/-- Channel keys by value. -/
def sortedHex (felts : List Felt) : List String :=
  (felts.mergeSort fun a b => a.val ≤ b.val).map feltHex

/-- `*balances.entry(token).or_default() += amount`, in a `u128`. -/
def addBalance (balances : ExtTreeMap String Nat) (n : NoteRow) : ExtTreeMap String Nat :=
  balances.insert (feltHex n.token)
    (((balances[feltHex n.token]?).getD 0 + n.amount) % 2 ^ 128)

/-- The unspent amounts by token. -/
def balancesOf (notes : List NoteRow) : List (String × Nat) :=
  ((notes.filter fun n => !n.spent).foldl addBalance ∅).toList

/-- What `discoverState` has found once the owner's cursors are consistent with the
tail. -/
structure Discovery where
  generation : Nat
  rewound : Bool
  inCursor : DiscoveryCursor
  outCursor : DiscoveryCursor
  newlySpent : List Felt

/-- `discoverState` up to the stamp of the generation, its last write. -/
def discoverStamped (owner key : Felt) (outcome : ApplyOutcome) (verified : String) :
    EStateM Failure (Host S) Discovery := do
  checkIdentity owner key
  let generation := ConsumerStore.tailGeneration (← get).store
  let rewound ← rewindLive core owner generation outcome.head
  checkpointPass core owner key outcome.lastEpochTo verified
  let start ← lift (liveStart core (← get).store .incoming owner)
  let inCursor ← incomingPass core true owner key outcome.head start (keys .incoming owner).live
  let start ← lift (liveStart core (← get).store .outgoing owner)
  let outCursor ← outgoingPass core true owner key outcome.head start (keys .outgoing owner).live
  let newlySpent ← refreshSpent core owner outcome.head
  write fun s => metaSet s (genKey owner) generation.repr
  pure ⟨generation, rewound, inCursor, outCursor, newlySpent⟩

/-- Discovery for one owner over already folded state. -/
def discoverState (owner key : Felt) (outcome : ApplyOutcome) (verified : String) :
    EStateM Failure (Host S) SyncReport := do
  let found ← discoverStamped core owner key outcome verified
  let notes ← readNotes owner
  pure ⟨feltHex owner, outcome.head, outcome.l1Accepted, outcome.lastEpochTo,
    found.rewound && decide (0 < found.generation), core.isComplete found.inCursor,
    core.isComplete found.outCursor, sortedHex (found.inCursor.channels.map Prod.fst),
    sortedHex (found.outCursor.channels.map Prod.fst), notes, balancesOf notes,
    found.newlySpent.map feltHex, outcome.historyFloor, outcome.snapshotBasis, verified⟩

end

end Strk20.Consumer
