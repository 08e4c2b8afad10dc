import Strk20.Foundation.Hoare
import Strk20.Indexer.RootCache

/-!
# Chain answers and the process that asks (`rpc.rs`, `config.rs`, `feeder.rs`)

An endpoint is a function of the moment: the same question may be answered
differently each time, or not at all. Moments count the questions asked. The
process has the database, the caches of its connection, and a budget: how many
transactions it survives.
-/

namespace Strk20.Indexer

open Feed
open Std (ExtTreeMap)

structure ChainConfig where
  chainId : String
  pool : Felt
  genesisBlock : Nat
  epochSize : Nat
  decoderMap : ExtTreeMap Felt String

namespace ChainConfig

/-- Epoch index covering a block. -/
def epochOf (cfg : ChainConfig) (block : Nat) : Nat := block / cfg.epochSize

/-- Inclusive block range of an epoch (absolute alignment). -/
def epochRange (cfg : ChainConfig) (idx : Nat) : Nat × Nat :=
  (idx * cfg.epochSize, (idx + 1) * cfg.epochSize - 1)

/-- First epoch that can ever contain pool data. -/
def firstEpoch (cfg : ChainConfig) : Nat := cfg.epochOf cfg.genesisBlock

end ChainConfig

/-! ## Answers -/

inductive BlockRef where
  | number (n : Nat)
  | latest
  | l1Accepted
deriving DecidableEq

structure RpcEvent where
  keys : List String
  data : List String
  blockNumber : Option Nat
  blockHash : Option String
  transactionHash : String
deriving DecidableEq

structure EventsPage where
  events : List RpcEvent
  continuationToken : Option String
deriving DecidableEq

/-- Storage entries of one contract. -/
structure ContractStorageDiff where
  address : String
  storageEntries : List (String × String)
deriving DecidableEq

/-- A contract with a class: deployed, or its class replaced. -/
structure ContractClass where
  address : String
  classHash : String
deriving DecidableEq

structure StateUpdate where
  blockHash : Option String
  storageDiffs : List ContractStorageDiff
  deployedContracts : List ContractClass
  replacedClasses : List ContractClass
deriving DecidableEq

structure BlockHeader where
  blockNumber : Nat
  blockHash : String
  parentHash : String
  timestamp : Nat
  status : Option String
  newRoot : Option String
  transactions : List String
deriving DecidableEq

/-- One coherent block of the feeder. -/
structure BlockData where
  header : BlockHeader
  update : StateUpdate
  events : List RpcEvent
deriving DecidableEq

structure ContractLeafData where
  classHash : String
  storageRoot : String
deriving DecidableEq

/-- A storage proof without keys: the leaves of the asked contracts and
`global_roots.block_hash`. -/
structure StorageProof where
  contractLeavesData : List ContractLeafData
  blockHash : Option String
deriving DecidableEq

/-- The endpoints behind a client, as they answer at each moment. -/
structure RpcClient where
  getBlock : Nat → BlockRef → Except Failure BlockHeader
  getStateUpdate : Nat → Nat → Except Failure StateUpdate
  getEvents : Nat → Nat → Nat → Nat → Except Failure EventsPage
  getBlockData : Nat → BlockRef → Except Failure (Option BlockData)
  getStorageProof : Nat → Nat → Except Failure StorageProof

/-! ## The process -/

/-- `passed` is a record for proofs, read by no code: the blocks the tail has gone
past and no rollback has taken back. -/
structure Host where
  database : Database
  caches : Db
  moment : Nat
  budget : Nat
  passed : List Nat

abbrev Indexing := EStateM Failure Host

/-- One question to the endpoints. -/
def ask {α : Type} (answer : Nat → Except Failure α) : Indexing α := fun h =>
  match answer h.moment with
  | .ok a => .ok a { h with moment := h.moment + 1 }
  | .error e => .error e { h with moment := h.moment + 1 }

/-- One transaction on the database, if the process gets to it. -/
def transact (f : Database → Except Failure Database) : Indexing PUnit := fun h =>
  match h.budget with
  | 0 => .error (.other "process stopped") h
  | n + 1 =>
      match f h.database with
      | .ok d => .ok PUnit.unit { h with database := d, budget := n }
      | .error e => .error e { h with budget := n }

def write (f : Database → Database) : Indexing PUnit := transact fun d => .ok (f d)

def pass (number : Nat) : Indexing PUnit :=
  modify fun h => { h with passed := number :: h.passed }

def unpass (ancestor : Nat) : Indexing PUnit :=
  modify fun h => { h with passed := h.passed.filter fun n => n ≤ ancestor }

def readDb {α : Type} (f : Database → α) : Indexing α := do
  pure (f (← get).database)

/-- The next moment. -/
def Host.tick (h : Host) : Host := { h with moment := h.moment + 1 }

theorem ask_ok {α : Type} {answer : Nat → Except Failure α} {h h' : Host} {a : α} :
    ask answer h = .ok a h' ↔ answer h.moment = .ok a ∧ h' = h.tick := by
  unfold ask
  cases answer h.moment with
  | ok b =>
      simp only [EStateM.Result.ok.injEq, Except.ok.injEq]
      exact and_congr_right fun _ => eq_comm
  | error e => simp

theorem ask_error {α : Type} {answer : Nat → Except Failure α} {h h' : Host} {e : Failure} :
    ask answer h = .error e h' ↔ answer h.moment = .error e ∧ h' = h.tick := by
  unfold ask
  cases answer h.moment with
  | ok b => simp
  | error e' =>
      simp only [EStateM.Result.error.injEq, Except.error.injEq]
      exact and_congr_right fun _ => eq_comm

end Strk20.Indexer
