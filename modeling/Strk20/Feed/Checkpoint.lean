import Strk20.Foundation.Bytes
import Strk20.Foundation.Json
import Strk20.Feed.StorageProof

/-!
# Checkpoints (`checkpoint.rs`)

A contract proof bound to a trusted block header: the state root commits to the
contracts trie, its leaf for the pool commits to the pool's storage root.

The text of a `serde_json` error is not modelled; the message stops where the
source appends it.
-/

namespace Strk20.Feed

open Mpt Result Text

def MAX_PROOF_BYTES : Nat := 256 * 1024

def MAX_PROOF_NODES : Nat := 512

def STATE_COMMITMENT_TAG : List UInt8 := "STARKNET_STATE_V0".toList.map Char.toUInt8

/-- What the host independently trusts about one block. -/
structure TrustedCheckpoint where
  chainId : String
  pool : Felt
  blockNumber : Nat
  blockHash : Felt
  stateRoot : Felt
deriving DecidableEq

namespace Checkpoint

/-- The tag as big-endian ASCII. -/
def stateCommitmentTag : Felt := fromBytesBe (keyOfNat (Bytes.beNat STATE_COMMITMENT_TAG))

def stateCommitment (poseidonHashMany : List Felt → Felt)
    (contractsTreeRoot classesTreeRoot : Felt) : Felt :=
  poseidonHashMany [stateCommitmentTag, contractsTreeRoot, classesTreeRoot]

def contractLeafHash (pedersen : Felt → Felt → Felt) (classHash storageRoot nonce : Felt) : Felt :=
  pedersen (pedersen (pedersen classHash storageRoot) nonce) 0

/-! ## Proof shape -/

structure ContractLeaf where
  classHash : String
  nonce : String
  storageRoot : String
  contractAddress : Option String
  address : Option String
deriving DecidableEq

structure ContractsProof where
  nodes : List ProofNode
  contractLeavesData : List ContractLeaf
deriving DecidableEq

structure GlobalRoots where
  blockHash : String
  classesTreeRoot : String
  contractsTreeRoot : String
deriving DecidableEq

structure ProofResult where
  contractsProof : ContractsProof
  globalRoots : GlobalRoots
deriving DecidableEq

/-- The fields of a struct: by name from an object, by position from an array
that is not too long. -/
def structFields (names : List String) : Json → Option (List (Option Json))
  | .obj fields => some (names.map fun name => (Json.obj fields).get name)
  | .arr items =>
      if names.length < items.length then none
      else some (names.mapIdx fun i _ => items[i]?)
  | _ => none

def string (v : Option Json) : Option String := v.bind Json.asStr

/-- `#[serde(default)] Option<String>`. -/
def optionalString : Option Json → Option (Option String)
  | none => some none
  | some .null => some none
  | some (.str s) => some (some s)
  | some _ => none

/-- `Vec<T>`. -/
def vec {α : Type} (f : Json → Option α) (v : Option Json) : Option (List α) :=
  (v.bind Json.asArray).bind fun items => items.mapM f

/-- An untagged variant is read from an object only. -/
def proofNodeBody (v : Json) : Option ProofNodeBody :=
  match v with
  | .obj _ =>
      match string (v.get "left"), string (v.get "right") with
      | some left, some right => some (.binary left right)
      | _, _ =>
          match string (v.get "path"), (v.get "length").bind Json.asU64,
              string (v.get "child") with
          | some path, some length, some child => some (.edge path length child)
          | _, _, _ => none
  | _ => none

def proofNode (v : Json) : Option ProofNode :=
  match structFields ["node_hash", "node"] v with
  | some [hash, node] => do
      pure ⟨← string hash, ← node.bind proofNodeBody⟩
  | _ => none

def contractLeaf (v : Json) : Option ContractLeaf :=
  match structFields ["class_hash", "nonce", "storage_root", "contract_address", "address"] v with
  | some [classHash, nonce, storageRoot, contractAddress, address] => do
      pure ⟨← string classHash, ← string nonce, ← string storageRoot,
        ← optionalString contractAddress, ← optionalString address⟩
  | _ => none

def contractsProof (v : Json) : Option ContractsProof :=
  match structFields ["nodes", "contract_leaves_data"] v with
  | some [nodes, leaves] => do pure ⟨← vec proofNode nodes, ← vec contractLeaf leaves⟩
  | _ => none

def globalRoots (v : Json) : Option GlobalRoots :=
  match structFields ["block_hash", "classes_tree_root", "contracts_tree_root"] v with
  | some [blockHash, classes, contracts] => do
      pure ⟨← string blockHash, ← string classes, ← string contracts⟩
  | _ => none

/-- `serde_json::from_value::<ProofResult>`. -/
def proofResult (v : Json) : Option ProofResult :=
  match structFields ["contracts_proof", "global_roots"] v with
  | some [proof, roots] => do pure ⟨← proof.bind contractsProof, ← roots.bind globalRoots⟩
  | _ => none

/-! ## Verification -/

def malformed (message : String) : FeedError :=
  .malformed ("CHECKPOINT_PROOF_MALFORMED: " ++ message)

/-- A field that is present and not `null`. -/
def present (v : Json) (key : String) : Option Json :=
  match v.get key with
  | some .null => none
  | x => x

/-- Unwrap a bare `result` object or a JSON-RPC envelope. -/
def unwrapEnvelope : Json → Except FeedError Json
  | .obj fields =>
      match present (.obj fields) "error" with
      | some err =>
          .error (.malformed ("CHECKPOINT_RPC_ERROR: the endpoint returned a JSON-RPC error, " ++
            "not a proof: " ++ err.compact))
      | none => .ok ((present (.obj fields) "result").getD (.obj fields))
  | _ => .error (malformed "proof is not a JSON object")

def nodeCount (result : Json) : Nat :=
  match ((result.get "contracts_proof").bind (·.get "nodes")).bind Json.asArray with
  | some nodes => nodes.length
  | none => 0

/-- The checkpoint itself must be usable as a trust anchor. -/
def checkCheckpoint (cp : TrustedCheckpoint) : Except FeedError Unit :=
  if cp.chainId = "" then
    .error (.malformed "CHECKPOINT_INVALID: checkpoint has an empty chain_id")
  else if cp.pool = 0 ∨ isTrieKey cp.pool = false then
    .error (.malformed ("CHECKPOINT_INVALID: pool " ++ feltHex cp.pool ++
      " is not a contract address (must be non-zero and below 2^251; a larger felt would alias " ++
      "the address of its low 251 bits)"))
  else if cp.blockHash = 0 ∨ cp.stateRoot = 0 then
    .error (.malformed ("CHECKPOINT_INVALID: block " ++ cp.blockNumber.repr ++
      " has a zero block_hash or state_root"))
  else .ok ()

section

variable (P : FeltParser) (J : JsonParser) (pedersen : Felt → Felt → Felt)
  (poseidonHashMany : List Felt → Felt)

/-- Bounds before any work, then the shape of the proof. -/
def readProof (proofJson : String) : Except FeedError ProofResult :=
  if proofJson.utf8ByteSize > MAX_PROOF_BYTES then
    .error (.malformed ("CHECKPOINT_PROOF_TOO_LARGE: " ++ proofJson.utf8ByteSize.repr ++
      " bytes, past the " ++ MAX_PROOF_BYTES.repr ++ "-byte cap"))
  else
    match J.fromStr proofJson with
    | none => .error (malformed ("proof is not JSON: " ++ J.refusal proofJson))
    | some raw => do
        let result ← unwrapEnvelope raw
        if nodeCount result > MAX_PROOF_NODES then
          throw (.malformed ("CHECKPOINT_PROOF_TOO_LARGE: " ++ (nodeCount result).repr ++
            " contracts_proof nodes, past the " ++ MAX_PROOF_NODES.repr ++ "-node cap"))
        else
          match proofResult result with
          | none => throw (malformed "not a storage proof result: ")
          | some proof => pure proof

def felt (hex what : String) : Except FeedError Felt :=
  match P.fromHex hex with
  | some f => .ok f
  | none => .error (malformed (what ++ " " ++ debugStr hex ++ " is not a felt"))

def onlyLeaf (proof : ProofResult) : Except FeedError ContractLeaf :=
  match proof.contractsProof.contractLeavesData with
  | [one] => .ok one
  | other =>
      .error (malformed ("expected exactly one contract_leaves_data entry (the pool), got " ++
        other.length.repr))

/-- The proof is about the trusted block, and its global roots are the ones the
trusted state root commits to; the result is the contracts root. -/
def checkGlobalRoots (cp : TrustedCheckpoint) (roots : GlobalRoots) : Except FeedError Felt := do
  let proofBlockHash ← felt P roots.blockHash "global_roots.block_hash"
  if proofBlockHash ≠ cp.blockHash then
    throw (.malformed ("CHECKPOINT_BLOCK_HASH_MISMATCH: proof is about block hash " ++
      feltHex proofBlockHash ++ ", checkpoint block " ++ cp.blockNumber.repr ++ " is " ++
      feltHex cp.blockHash))
  else do
    let contractsTreeRoot ← felt P roots.contractsTreeRoot "global_roots.contracts_tree_root"
    let classesTreeRoot ← felt P roots.classesTreeRoot "global_roots.classes_tree_root"
    let commitment := stateCommitment poseidonHashMany contractsTreeRoot classesTreeRoot
    if commitment ≠ cp.stateRoot then
      throw (.malformed ("CHECKPOINT_STATE_ROOT_MISMATCH: global roots commit to " ++
        feltHex commitment ++ ", checkpoint block " ++ cp.blockNumber.repr ++
        " has state root " ++ feltHex cp.stateRoot))
    else pure contractsTreeRoot

/-- An endpoint that names the contract must not be naming a different one. -/
def checkAddress (cp : TrustedCheckpoint) (named : Option String) : Except FeedError Unit :=
  match named with
  | none => .ok ()
  | some text => do
      let addr ← felt P text "contract_leaves_data[0] address"
      if addr ≠ cp.pool then
        throw (.malformed ("CHECKPOINT_ADDRESS_MISMATCH: proof leaf is about contract " ++
          feltHex addr ++ ", not the pool " ++ feltHex cp.pool))
      else pure ()

/-- The contracts trie's leaf for the pool. -/
def poolLeaf (cp : TrustedCheckpoint) (contractsTreeRoot : Felt) (nodes : List ProofNode) :
    Except FeedError Felt :=
  match verifyStorageProof P pedersen contractsTreeRoot nodes cp.pool with
  | .error e => .error (.malformed ("CHECKPOINT_PROOF_INVALID: " ++ e.text))
  | .ok (.member h) => .ok h
  | .ok .nonMember =>
      .error (.malformed ("CHECKPOINT_NOT_DEPLOYED: contracts trie at block " ++
        cp.blockNumber.repr ++ " has no leaf for " ++ feltHex cp.pool))

/-- Verify a proof against a checkpoint; the result is the pool's authenticated
storage root. -/
def verifyCheckpoint (cp : TrustedCheckpoint) (proofJson : String) : Except FeedError Felt := do
  checkCheckpoint cp
  let proof ← readProof J proofJson
  let leaf ← onlyLeaf proof
  let contractsTreeRoot ← checkGlobalRoots P poseidonHashMany cp proof.globalRoots
  checkAddress P cp leaf.contractAddress
  checkAddress P cp leaf.address
  let classHash ← felt P leaf.classHash "contract_leaves_data[0].class_hash"
  let nonce ← felt P leaf.nonce "contract_leaves_data[0].nonce"
  let storageRoot ← felt P leaf.storageRoot "contract_leaves_data[0].storage_root"
  if classHash = 0 then
    throw (.malformed ("CHECKPOINT_NOT_DEPLOYED: proof leaf for " ++ feltHex cp.pool ++
      " carries class_hash 0x0"))
  else do
    let leafHash ← poolLeaf P pedersen cp contractsTreeRoot proof.contractsProof.nodes
    let expected := contractLeafHash pedersen classHash storageRoot nonce
    if leafHash ≠ expected then
      throw (.malformed ("CHECKPOINT_LEAF_MISMATCH: contracts trie leaf for " ++ feltHex cp.pool ++
        " is " ++ feltHex leafHash ++ ", but class_hash " ++ feltHex classHash ++
        " / storage_root " ++ feltHex storageRoot ++ " / nonce " ++ feltHex nonce ++
        " hash to " ++ feltHex expected))
    else pure storageRoot

end

end Checkpoint

end Strk20.Feed
