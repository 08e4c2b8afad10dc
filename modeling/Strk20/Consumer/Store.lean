import Strk20.Feed.Snapshot

/-!
# The consumer's store (`store.rs`)

`ConsumerStore` is the seam between the feed fold and its host: every method
the fold and the verification call, as a function of the store's state. A
method that can only fail by a broken disk is total here.
-/

namespace Strk20.Consumer

open Feed

/-- A contiguous span of mirrored blocks addressed by a write. -/
inductive Range where
  | inclusive (first last : Nat)
  | above (floor : Nat)
deriving DecidableEq

namespace Range

def contains (r : Range) (block : Nat) : Bool :=
  match r with
  | inclusive first last => first ≤ block && block ≤ last
  | above floor => floor < block

@[simp] theorem contains_inclusive (first last block : Nat) :
    (inclusive first last).contains block = true ↔ first ≤ block ∧ block ≤ last := by
  simp [contains]

@[simp] theorem contains_above (floor block : Nat) :
    (above floor).contains block = true ↔ floor < block := by
  simp [contains]

end Range

/-- How to populate an empty mirror. -/
inductive ColdStart where
  | auto
  | snapshot
  | epochs
deriving DecidableEq

/-- What `apply_feed` did and what the rest of the sync needs to know. -/
structure ApplyOutcome where
  epochsApplied : Nat
  tailRewound : Bool
  tailChanged : Bool
  head : Nat
  l1Accepted : Nat
  lastEpochTo : Nat
  snapshotBasis : Option Nat
  historyFloor : Nat
deriving DecidableEq

/-- Why a call did not return `Ok`. -/
inductive Failure where
  | feed (e : FeedError)
  | bail (message : String)
  | transport (message : String)
  | panicked
deriving DecidableEq

/-- A feed error passed on by `?`. -/
def liftFeed {α : Type} (x : Except FeedError α) : Except Failure α :=
  x.mapError Failure.feed

theorem liftFeed_eq_ok {α : Type} {x : Except FeedError α} {a : α} :
    liftFeed x = .ok a ↔ x = .ok a := by
  cases x <;> simp [liftFeed, Except.mapError]

structure BlockRec where
  hash : Felt
  parent : Felt
  timestamp : Nat
  l1Final : Bool
deriving DecidableEq

structure EventRec where
  txIndex : Nat
  txHash : Felt
  keys : List Felt
  data : List Felt
deriving DecidableEq

/-- What a block line is stored as. -/
def blockRec (b : BlockLine) (l1Final : Bool) : BlockRec := ⟨b.hash, b.parent, b.timestamp, l1Final⟩

def eventRec (e : EventLine) : EventRec := ⟨e.txIndex, e.txHash, e.keys, e.data⟩

/-- An event as a read view hands it out. -/
structure EmittedEvent where
  fromAddress : Felt
  keys : List Felt
  data : List Felt
  blockHash : Felt
  blockNumber : Nat
  transactionHash : Felt
  eventIndex : Nat
  transactionIndex : Nat
deriving DecidableEq

def emitted (block eventIndex : Nat) (hash : Felt) (e : EventRec) : EmittedEvent :=
  ⟨0, e.keys, e.data, hash, block, e.txHash, eventIndex, e.txIndex⟩

/-- A note an owner's discovery found. -/
structure NoteRow where
  noteId : Felt
  owner : Felt
  sender : Felt
  token : Felt
  index : Nat
  nullifier : Felt
  amount : Nat
  block : Nat
  spent : Bool
deriving DecidableEq

/-- Metadata `reset_mirror` removes; the identity of the feed survives. -/
def resetKeys : List String :=
  ["last_epoch_applied", "last_epoch_hash", "last_epoch_to", "head_etag", "head_number", "head_hash",
    "l1_accepted", "snapshot_basis", "history_floor", "snapshot_pending_grounding"]

/-- The mirror the feed is folded into and read back from. -/
class ConsumerStore (S : Type) where
  metaGet : S → String → Option String
  metaSet : S → String → String → S
  isEmpty : S → Bool
  blockHash : S → Nat → Option Felt
  blockHashes : S → Range → Except Failure (List (Nat × Felt))
  readSlotAsOf : S → Felt → Nat → Felt × Nat
  fullSlotSetAsOf : S → Nat → List (Felt × Felt)
  storageRootAt : S → Nat → Except Failure Felt × S
  /-- The events of the blocks `first ..= last` with their blocks' hashes, in
  order: the query under a view's `get_events`. -/
  eventRows : S → Nat → Nat → Except Failure (List EmittedEvent)
  installSnapshot : S → List SnapSlot → List (String × String) → S
  replaceRange : S → Range → List (BlockLine × Bool) → List (String × String) → Bool →
    Except Failure S
  resetMirror : S → S
  tailGeneration : S → Nat
  notes : S → Felt → List NoteRow
  upsertNote : S → NoteRow → S
  setNoteSpent : S → Felt → Bool → S
  deleteNote : S → Felt → S
  deleteOwnerNotes : S → Felt → Nat × S

export ConsumerStore (metaGet metaSet)

section

variable {S : Type} [ConsumerStore S]

/-- A number kept in the metadata table, `.and_then(|s| s.parse().ok())`. -/
def metaU64 (s : S) (key : String) : Option Nat := (metaGet s key).bind Text.parseU64

/-- Lowest block for which the mirror holds events. -/
def historyFloor (s : S) : Nat := (metaU64 s "history_floor").getD 0

/-- Snapshot basis guard: state below the basis does not exist locally. -/
def checkBoundAboveBasis (s : S) (block : Nat) : Except Failure Unit :=
  match metaU64 s "snapshot_basis" with
  | none => .ok ()
  | some basis =>
      if block < basis then
        .error (.bail ("BOUND_BELOW_SNAPSHOT \x7b\"bound\": " ++ block.repr ++ ", \"basis\": " ++
          basis.repr ++ "\x7d: this mirror was cold-started from a snapshot at block " ++
          basis.repr ++ " and holds no state below it"))
      else .ok ()

/-- For every key position with a nonempty filter, the event's key is in it. -/
def matchesKeys (filters : List (List Felt)) (keys : List Felt) : Bool :=
  filters.zipIdx.all fun f =>
    f.1.isEmpty || (match keys[f.2]? with
      | some k => f.1.contains k
      | none => false)

/-- `BlockId`: a number, or a tag or hash the views do not resolve. -/
inductive BlockId where
  | number (n : Nat)
  | other
deriving DecidableEq

def BlockId.num (id : BlockId) (default : Nat) : Nat :=
  match id with
  | number n => n
  | other => default

/-- A read view: it reads the store as it is then, up to its bound. The floor
is the one of the moment the view was made. -/
structure View where
  bound : Nat
  historyFloor : Nat
deriving DecidableEq

/-- A read view bound to a block. -/
def view (s : S) (block : Nat) : Except Failure View := do
  checkBoundAboveBasis s block
  pure ⟨block, historyFloor s⟩

namespace View

def readSlotsWithBlock (v : View) (s : S) (slots : List Felt) : List (Felt × Nat) :=
  slots.map fun slot => ConsumerStore.readSlotAsOf s slot v.bound

def getEvents (v : View) (s : S) (filters : List (List Felt)) (fromBlock toBlock : BlockId) :
    Except Failure (List EmittedEvent) := do
  let first := fromBlock.num 0
  let last := min (toBlock.num v.bound) v.bound
  if first < v.historyFloor then
    throw (.bail ("HISTORY_UNAVAILABLE \x7b\"floor\": " ++ v.historyFloor.repr ++
      "\x7d: this mirror was cold-started from a snapshot and holds no events below block " ++
      v.historyFloor.repr ++ "; the requested range starts at " ++ first.repr ++
      ". Full history requires --cold-start epochs."))
  else do
    let rows ← ConsumerStore.eventRows s first last
    pure (rows.filter fun e => matchesKeys filters e.keys)

theorem getEvents_of_le {v : View} {fromBlock : BlockId} (h : v.historyFloor ≤ fromBlock.num 0)
    (s : S) (filters : List (List Felt)) (toBlock : BlockId) :
    v.getEvents s filters fromBlock toBlock = (do
      let rows ← ConsumerStore.eventRows s (fromBlock.num 0) (min (toBlock.num v.bound) v.bound)
      pure (rows.filter fun e => matchesKeys filters e.keys)) :=
  if_neg (Nat.not_lt.mpr h)

end View

/-- `get_events` of the view bound to `bound`, for a numbered range. -/
def getEvents (s : S) (bound : Nat) (filters : List (List Felt)) (first last : Nat) :
    Except Failure (List EmittedEvent) :=
  View.getEvents ⟨bound, historyFloor s⟩ s filters (.number first) (.number last)

end

end Strk20.Consumer
