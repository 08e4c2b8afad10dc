import Strk20.Indexer.Scan

/-!
# Ingest (`ingest.rs`)

One cycle polls finality, checks that the stored head is still canonical, and
ingests what is new: block by block with every state diff while it follows the
chain (`ingestTail`), events first in segments while it is far behind. Every
`?` ends the cycle where it stands. Log lines and their counters are left out.
-/

namespace Strk20.Indexer

open Feed
open Effect (lift)
open Std (ExtTreeMap)

def SCAN_SEGMENT : Nat := MAX_SCAN_WINDOW

def TAIL_STATE_DIFF_SPAN : Nat := 256

def STATUS_ACCEPTED_ON_L1 : String := "ACCEPTED_ON_L1"

def L1_REJECTED_META : String := "l1_answer_rejected_total"

/-- A status that says the block is not final. -/
def unfinalized (status : Option String) : Option String :=
  status.filter fun s => s ≠ STATUS_ACCEPTED_ON_L1

/-- Why the finality poll's answer may not be believed, or `none` when it may. -/
def l1AnswerRejection (answer : BlockHeader) (latest : Nat) (persisted : Option Nat)
    (genesis : Nat) : Option String :=
  let n := answer.blockNumber
  match unfinalized answer.status with
  | some status =>
      some ("block " ++ n.repr ++ " is labelled " ++ status ++ ", not " ++ STATUS_ACCEPTED_ON_L1)
  | none =>
      if latest < n then some ("block " ++ n.repr ++ " is above latest " ++ latest.repr)
      else
        match persisted.filter fun p => n < p with
        | some p =>
            some ("block " ++ n.repr ++ " is below " ++ p.repr ++
              ", already recorded as L1-accepted")
        | none =>
            if n < genesis then
              some ("block " ++ n.repr ++ " is below the pool's genesis block " ++ genesis.repr)
            else none

/-! ## Felts in answers -/

def ensure (c : Bool) (message : String) : Indexing PUnit :=
  if c then pure PUnit.unit else throw (.other message)

section

variable (P : FeltParser)

def parseFelt (s : String) : Except Failure Felt :=
  match P.fromHex s with
  | some f => .ok f
  | none => .error (.other ("bad felt " ++ Text.debugStr s))

/-- Canonical minimal-hex form for address comparison. -/
def normalizeHex (s : String) : Except Failure String := (parseFelt P s).map feltHex

def touchesPool (update : StateUpdate) (pool : String) : Bool :=
  let matches_ := fun address =>
    match normalizeHex P address with
    | .ok a => a == pool
    | .error _ => false
  update.storageDiffs.any (fun d => matches_ d.address) ||
    update.replacedClasses.any (fun d => matches_ d.address) ||
      update.deployedContracts.any (fun d => matches_ d.address)

/-! ## One block -/

/-- Storage entries of the pool, by key. -/
def poolDiffs (update : StateUpdate) (pool : String) : Except Failure (List (Felt × Felt)) := do
  let diffs ← update.storageDiffs.foldlM (fun acc cd => do
    if (← normalizeHex P cd.address) = pool then
      let entries ← cd.storageEntries.mapM fun e => do
        pure (← parseFelt P e.1, ← parseFelt P e.2)
      pure (acc ++ entries)
    else pure acc) []
  pure (diffs.mergeSort fun a b => decide (a.1.val ≤ b.1.val))

/-- The last class that a list of contracts gives the pool. -/
def poolClass (contracts : List ContractClass) (pool : String) (before : Option Felt) :
    Except Failure (Option Felt) :=
  contracts.foldlM (fun replaced c => do
    if (← normalizeHex P c.address) = pool then
      pure (some (← parseFelt P c.classHash))
    else pure replaced) before

/-- Position of a transaction among those of the header. -/
def txIndexOf (header : BlockHeader) (txHash : String) : Option Nat :=
  match normalizeHex P txHash with
  | .error _ => none
  | .ok want =>
      header.transactions.findIdx? fun t =>
        match normalizeHex P t with
        | .ok h => h == want
        | .error _ => false

/-- One event of the block, as a row. -/
def eventRow (number : Nat) (header : BlockHeader) (headerHash : String) (index : Nat)
    (ev : RpcEvent) : Except Failure EventRow := do
  match ev.blockHash with
  | some eh =>
      if (← normalizeHex P eh) ≠ headerHash then
        throw (.other ("block " ++ number.repr ++ ": event block hash " ++ eh ++
          " disagrees with header (reorg/failover mid-fetch); retrying next cycle"))
  | none => pure ()
  let keys ← ev.keys.mapM (parseFelt P)
  let data ← ev.data.mapM (parseFelt P)
  match txIndexOf P header ev.transactionHash with
  | none =>
      throw (.other ("block " ++ number.repr ++ ": event tx " ++ ev.transactionHash ++
        " not in header transactions (cross-fork fetch); retrying next cycle"))
  | some txIndex => do
      let txHash ← parseFelt P ev.transactionHash
      pure ⟨number, index, txIndex, txHash, keys, data⟩

/-- Events of the block in emission order; others are passed over. -/
def eventRows (number : Nat) (header : BlockHeader) (headerHash : String)
    (events : List RpcEvent) : Except Failure (List EventRow) :=
  ((events.filter fun ev => ev.blockNumber == some number).zipIdx).mapM fun e =>
    eventRow P number header headerHash e.2 e.1

/-- Every artifact of a block carries the hash of its header. -/
def checkFork (number : Nat) (update : StateUpdate) (headerHash : String) : Except Failure Unit := do
  match update.blockHash with
  | some suHash =>
      if (← normalizeHex P suHash) ≠ headerHash then
        throw (.other ("block " ++ number.repr ++ ": state update hash " ++ suHash ++
          " disagrees with header " ++ headerHash ++
          " (reorg/failover mid-fetch); retrying next cycle"))
  | none => pure ()

def blockRow (number : Nat) (header : BlockHeader) : Except Failure BlockRow := do
  let hash ← parseFelt P header.blockHash
  let parentHash ← parseFelt P header.parentHash
  pure ⟨number, hash, parentHash, header.timestamp, header.status == some STATUS_ACCEPTED_ON_L1⟩

variable (rpc : RpcClient) (cfg : ChainConfig) (chunkSize : Nat)

/-- An unknown class degrades typed decoding. -/
def noteClass (number : Nat) (replaced : Option Felt) : Indexing PUnit :=
  match replaced with
  | some cls =>
      if cfg.decoderMap.contains cls then pure PUnit.unit
      else do
        write fun d => d.metaSet "decode_state" "degraded"
        write fun d => d.metaSet "degraded_since_block" number.repr
  | none => pure PUnit.unit

/-- The block's events: as the scan saw them, or asked for in one page. -/
def rawEvents (number : Nat) (events : Option (List RpcEvent)) : Indexing (List RpcEvent) :=
  match events with
  | some evs => pure evs
  | none => do
      let requested := max chunkSize 1000
      let page ← ask fun t => rpc.getEvents t number number requested
      if page.continuationToken.isSome then
        throw (.other ("block " ++ number.repr ++ ": this endpoint answered a ONE-BLOCK window " ++
          "with a continuation token (" ++ page.events.length.repr ++ " events returned for a " ++
          "requested chunk_size of " ++ requested.repr ++ "), so no single-page request can " ++
          "cover this block and the window is IRREDUCIBLE. Following the token is unsound " ++
          "(LIVE-8) and keeping the first page would truncate the block."))
      else pure page.events

/-- `store_block`: all ingest paths share the same checks. -/
def storeBlock (number : Nat) (header : BlockHeader) (update : StateUpdate)
    (events : Option (List RpcEvent)) : Indexing PUnit := do
  ensure (header.blockNumber == number) "RPC returned another block header"
  let pool := feltHex cfg.pool
  let diffs ← lift (poolDiffs P update pool)
  let replaced ← lift (poolClass P update.replacedClasses pool none)
  let replaced ← lift (poolClass P update.deployedContracts pool replaced)
  noteClass cfg number replaced
  let headerHash ← lift (normalizeHex P header.blockHash)
  lift (checkFork P number update headerHash)
  let raw ← rawEvents rpc chunkSize number events
  let rows ← lift (eventRows P number header headerHash raw)
  let row ← lift (blockRow P number header)
  transact fun d => d.insertBlockData row diffs rows replaced number

def ingestBlock (number : Nat) (events : Option (List RpcEvent)) : Indexing PUnit := do
  let header ← ask fun t => rpc.getBlock t (.number number)
  let update ← ask fun t => rpc.getStateUpdate t number
  storeBlock P rpc cfg chunkSize number header update events

/-! ## The tail -/

/-- The header of a block of the tail; the head's is at hand. -/
def tailHeader (latest : BlockHeader) (number : Nat) : Indexing BlockHeader :=
  if number = latest.blockNumber then pure latest
  else ask fun t => rpc.getBlock t (.number number)

/-- One block of a batch: stored when it has pool events or touches the pool. -/
def tailBlock (latest : BlockHeader) (events : ExtTreeMap Nat (List RpcEvent)) (number : Nat)
    (update : StateUpdate) : Indexing Nat := do
  let poolEvents := (events[number]?).getD []
  if !poolEvents.isEmpty || touchesPool P update (feltHex cfg.pool) then do
    let header ← tailHeader rpc latest number
    storeBlock P rpc cfg chunkSize number header update (some poolEvents)
    pass number
    pure 1
  else do
    pass number
    pure 0

/-- What a batch reads: events and state updates up to `rpcLast`, if any. -/
def tailReads (first : Nat) (rpcLast : Option Nat) :
    Indexing (List (Nat × List RpcEvent) × List StateUpdate) :=
  match rpcLast.filter fun n => first ≤ n with
  | some last => do
      let events ← scanActiveBlocks rpc chunkSize first last
      let updates ← (List.range' first (last + 1 - first)).mapM fun n =>
        ask fun t => rpc.getStateUpdate t n
      pure (events, updates)
  | none => pure ([], [])

/-- A batch of the tail. The announced block comes with its own data. -/
def tailBatch (latest : BlockHeader) (supplied : Option BlockData) (first : Nat) :
    Indexing Nat := do
  let last := min (first + 7) latest.blockNumber
  let own := if last = latest.blockNumber then supplied else none
  let rpcLast := if own.isSome then (if last = 0 then none else some (last - 1)) else some last
  let (active, updates) ← tailReads rpc chunkSize first rpcLast
  let events : ExtTreeMap Nat (List RpcEvent) := ExtTreeMap.ofList active
  let events := match own with
    | some data => events.insert last data.events
    | none => events
  let updates := match own with
    | some data => updates ++ [data.update]
    | none => updates
  let counts ← ((List.range' first (last + 1 - first)).zip updates).mapM fun e =>
    tailBlock P rpc cfg chunkSize latest events e.1 e.2
  write fun d => d.setIngestCursor last
  pure counts.sum

/-- `ingest_tail`: batches of eight blocks. -/
def ingestTail (first : Nat) (latest : BlockHeader) (supplied : Option BlockData) :
    Indexing Nat := do
  let counts ← (List.range' first ((latest.blockNumber + 1 - first + 7) / 8) 8).mapM fun start =>
    tailBatch P rpc cfg chunkSize latest supplied start
  pure counts.sum

/-! ## Segments -/

def ingestActive (active : List (Nat × List RpcEvent)) : Indexing PUnit :=
  active.forM fun e => do
    ingestBlock P rpc cfg chunkSize e.1 (some e.2)
    write fun d => d.setIngestCursor e.1

/-- A segment: the scan, its active blocks, and the frontier at its end. -/
def ingestSegment (latest first : Nat) : Indexing Nat := do
  let last := min (first + (SCAN_SEGMENT - 1)) latest
  let active ← scanActiveBlocks rpc chunkSize first last
  ingestActive P rpc cfg chunkSize active
  write fun d => d.setIngestCursor last
  pure active.length

def ingestSegments (first latest : Nat) : Indexing Nat := do
  let counts ← (List.range' first ((latest + 1 - first + (SCAN_SEGMENT - 1)) / SCAN_SEGMENT)
    SCAN_SEGMENT).mapM fun start => ingestSegment P rpc cfg chunkSize latest start
  pure counts.sum

/-! ## Canonicity -/

/-- A header by number, `none` when the chain has no such block. -/
def findBlock (number : Nat) : Indexing (Option BlockHeader) := fun h =>
  match rpc.getBlock h.moment (.number number) with
  | .ok header => .ok (some header) h.tick
  | .error .blockNotFound => .ok none h.tick
  | .error e => .error e h.tick

/-- Whether an announced header names the stored head, itself or as parent. -/
def namesHead (announced : Option BlockHeader) (head : Nat) (stored : String) : Bool :=
  match announced with
  | none => false
  | some h =>
      let hash :=
        if h.blockNumber = head then some h.blockHash
        else if h.blockNumber ≠ 0 ∧ h.blockNumber - 1 = head then some h.parentHash
        else none
      match hash with
      | none => false
      | some s =>
          match normalizeHex P s with
          | .ok t => t == stored
          | .error _ => false

/-- Whether the stored head is gone from the chain. -/
def headGone (head : Nat) (stored : String) : Indexing Bool := do
  match ← findBlock rpc head with
  | some h => pure ((← lift (normalizeHex P h.blockHash)) ≠ stored)
  | none => pure true

/-- The topmost stored block that is still canonical, down to the floor. -/
def walkback (finalUpto floor : Nat) : List BlockRow → Indexing Nat
  | [] => pure floor
  | b :: rest =>
      if b.l1Accepted && b.number ≤ finalUpto then pure b.number
      else do
        match ← findBlock rpc b.number with
        | some h =>
            if (← lift (parseFelt P h.blockHash)) = b.hash then pure b.number
            else walkback finalUpto floor rest
        | none => walkback finalUpto floor rest

namespace Database

/-- Last published epoch: its index, content hash and last block. -/
def lastEpoch (d : Database) : Option (Nat × Key × Nat) :=
  (d.epochs.toList.getLast?).map fun e =>
    (Consumer.toU64 e.1, e.2.contentHash, Consumer.toU64 e.2.toBlock)

/-- Last block of the last published epoch, `0` before the first. -/
def epochFloor (d : Database) : Nat :=
  match d.lastEpoch with
  | some (_, _, last) => last
  | none => 0

end Database

/-- `detect_reorg`: the ancestor to roll back to, if the stored head is gone. -/
def detectReorg (announced : Option BlockHeader) : Indexing (Option Nat) := do
  let d ← readDb id
  match d.metaU64 "head_number", d.metaGet "head_hash" with
  | some head, some stored =>
      if namesHead P announced head stored then pure none
      else if !(← headGone P rpc head stored) then pure none
      else do
        let floor := d.epochFloor
        let finalUpto := (d.metaU64 "l1_accepted_number").getD 0
        let ancestor ← walkback P rpc finalUpto floor (d.blocksInRange (floor + 1) head).reverse
        pure (some ancestor)
  | _, _ => pure none

/-! ## A cycle -/

structure CycleOutcome where
  headChanged : Bool
  reorged : Bool
  blocksIngested : Nat
  headNumber : Nat
  l1Accepted : Nat
deriving DecidableEq

/-- The header to ingest up to, and the block's data when the feeder has it. -/
def acquireHead (target : BlockRef) : Indexing (BlockHeader × Option BlockData) := do
  match ← ask fun t => rpc.getBlockData t target with
  | some data => pure (data.header, some data)
  | none =>
      match target with
      | .number number =>
          match ← findBlock rpc number with
          | some header =>
              ensure (header.blockNumber == number) "RPC returned another announced block"
              pure (header, none)
          | none => pure (← ask fun t => rpc.getBlock t .latest, none)
      | _ => pure (← ask fun t => rpc.getBlock t target, none)

/-- The subscription's header and the acquired one have to agree. -/
def checkAnnounced (announced : Option BlockHeader) (latest : BlockHeader) : Indexing PUnit :=
  match announced.filter fun h => h.blockNumber == latest.blockNumber with
  | none => pure PUnit.unit
  | some head => do
      let hash ← lift (normalizeHex P head.blockHash)
      let latestHash ← lift (normalizeHex P latest.blockHash)
      ensure (hash == latestHash) "block data disagrees with subscription hash"
      let parent ← lift (normalizeHex P head.parentHash)
      let latestParent ← lift (normalizeHex P latest.parentHash)
      ensure (parent == latestParent) "block data disagrees with subscription parent"
      let root ← lift (head.newRoot.mapM (normalizeHex P))
      let latestRoot ← lift (latest.newRoot.mapM (normalizeHex P))
      ensure (root == latestRoot) "block data disagrees with subscription state root"

def bumpL1Rejections : Indexing PUnit := do
  let d ← readDb id
  let n := min (((d.metaU64 L1_REJECTED_META).getD 0) + 1) (2 ^ 64 - 1)
  write fun d => d.metaSet L1_REJECTED_META n.repr

/-- The one height this cycle treats as final. -/
def pollFinality (l1 latest : BlockHeader) : Indexing (Option Nat) := do
  let d ← readDb id
  let persisted := d.metaU64 "l1_accepted_number"
  match l1AnswerRejection l1 latest.blockNumber persisted cfg.genesisBlock with
  | none => do
      write fun d => d.promoteL1 l1.blockNumber
      write fun d => d.metaSet "l1_accepted_number" l1.blockNumber.repr
      pure (some l1.blockNumber)
  | some _ => do
      bumpL1Rejections
      pure persisted

/-- Rolls back to the ancestor of a reorg. -/
def rollBack (reorg : Option Nat) : Indexing PUnit :=
  match reorg with
  | some ancestor => do
      write fun d => d.rollbackAbove ancestor
      unpass ancestor
  | none => pure PUnit.unit

/-- Last scanned block; before the first scan, the one under genesis. -/
def scanFrontier (d : Database) : Nat :=
  match d.cursor with
  | some f => f
  | none => cfg.genesisBlock - 1

/-- The tail when it is near, else segments. -/
def ingestUpTo (latest : BlockHeader) (supplied : Option BlockData) : Indexing Nat := do
  let d ← readDb id
  let frontier := scanFrontier cfg d
  if latest.blockNumber - frontier ≤ TAIL_STATE_DIFF_SPAN then
    ingestTail P rpc cfg chunkSize (frontier + 1) latest supplied
  else ingestSegments P rpc cfg chunkSize (frontier + 1) latest.blockNumber

/-- Head meta comes last: a stop before this point just rescans. -/
def recordHead (latest : BlockHeader) (latestHash : String) (finalHeight : Option Nat) :
    Indexing PUnit := do
  write fun d => d.metaSet "head_number" latest.blockNumber.repr
  write fun d => d.metaSet "head_hash" latestHash
  let hash ← lift (parseFelt P latest.blockHash)
  write fun d => d.recordSeenHead hash latest.blockNumber
  match finalHeight with
  | some height => write fun d => d.promoteL1 height
  | none => pure PUnit.unit

/-- A reorg looked for before the head is acquired, when a header was announced. -/
def announcedReorg (announced : Option BlockHeader) : Indexing (Option Nat) :=
  match announced with
  | some head => detectReorg P rpc (some head)
  | none => pure none

/-- The reorg a cycle acts on: without an announced header, the acquired one
decides. -/
def cycleReorg (announced : Option BlockHeader) (latest : BlockHeader) (found : Option Nat) :
    Indexing (Option Nat) :=
  match announced with
  | some _ => pure found
  | none => detectReorg P rpc (some latest)

/-- Without a reorg the head is not below the frontier. -/
def checkHead (latest : BlockHeader) (reorg : Option Nat) : Indexing PUnit := do
  let d ← readDb id
  let behind := match d.cursor with
    | some n => decide (n ≤ latest.blockNumber)
    | none => true
  ensure (reorg.isSome || behind) "RPC head trails stored frontier without a reorg"

/-- `run_cycle_bound`. -/
def runCycleBound (target : BlockRef) (announced : Option BlockHeader) :
    Indexing CycleOutcome := do
  let (latest, supplied) ← acquireHead rpc target
  let l1 ← ask fun t => rpc.getBlock t .l1Accepted
  let found ← announcedReorg P rpc announced
  checkAnnounced P announced latest
  let reorg ← cycleReorg P rpc announced latest found
  checkHead latest reorg
  let finalHeight ← pollFinality cfg l1 latest
  let d ← readDb id
  let latestHash ← lift (normalizeHex P latest.blockHash)
  let headChanged := d.metaGet "head_hash" ≠ some latestHash
  rollBack reorg
  let ingested ← ingestUpTo P rpc cfg chunkSize latest supplied
  recordHead P latest latestHash finalHeight
  pure ⟨headChanged || reorg.isSome, reorg.isSome, ingested, latest.blockNumber,
    finalHeight.getD 0⟩

def runCycle : Indexing CycleOutcome := runCycleBound P rpc cfg chunkSize .latest none

def runCycleAt (target : BlockRef) : Indexing CycleOutcome :=
  runCycleBound P rpc cfg chunkSize target none

def runCycleAnnounced (head : Option BlockHeader) : Indexing CycleOutcome :=
  runCycleBound P rpc cfg chunkSize
    (match head with | some h => .number h.blockNumber | none => .latest) head

/-! ## Repairs -/

/-- `reingest_blocks`. -/
def reingestBlocks (blocks : List Nat) : Indexing PUnit :=
  blocks.forM fun number => ingestBlock P rpc cfg chunkSize number none

/-- One block of a rescan: stored when its state diff touches the pool. -/
def rescanBlock (number : Nat) : Indexing PUnit := do
  let update ← ask fun t => rpc.getStateUpdate t number
  if touchesPool P update (feltHex cfg.pool) then do
    let header ← ask fun t => rpc.getBlock t (.number number)
    storeBlock P rpc cfg chunkSize number header update none
  else pure PUnit.unit

/-- `rescan_range`. -/
def rescanRange (first last : Nat) : Indexing PUnit :=
  (List.range' first (last + 1 - first)).forM fun number =>
    rescanBlock P rpc cfg chunkSize number

end

end Strk20.Indexer
