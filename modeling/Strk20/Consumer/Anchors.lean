import Strk20.Feed.Committed
import Strk20.Consumer.Apply
import Strk20.Consumer.MemStore
import Strk20.Consumer.FeedStore

/-!
# Checkpoint verification (`anchors.rs`)

A root match proves the complete state at one block. What it proves depends on
how a store computes its root: `MemStore` refuses slots outside of the trie's
key range, the trait's default folds them onto other keys.
-/

namespace Strk20.Feed

/-- A character inside a JSON string, escaped as `serde_json` does. -/
def jsonChar (c : Char) : List Char :=
  if c = '"' then ['\\', '"']
  else if c = '\\' then ['\\', '\\']
  else if c = '\n' then ['\\', 'n']
  else if c = '\r' then ['\\', 'r']
  else if c = '\t' then ['\\', 't']
  else if c.toNat = 8 then ['\\', 'b']
  else if c.toNat = 12 then ['\\', 'f']
  else if c.toNat < 0x20 then
    ['\\', 'u', '0', '0', Nat.digitChar (c.toNat / 16), Nat.digitChar (c.toNat % 16)]
  else [c]

def jsonText (s : String) : String := Json.quoted (String.ofList (s.toList.flatMap jsonChar))

/-- `serde_json::to_string` of a checkpoint. -/
def TrustedCheckpoint.toJson (cp : TrustedCheckpoint) : String :=
  "\x7b\"chain_id\":" ++ jsonText cp.chainId ++ ",\"pool\":" ++ Json.quoted (feltHex cp.pool) ++
    ",\"block_number\":" ++ cp.blockNumber.repr ++ ",\"block_hash\":" ++
    Json.quoted (feltHex cp.blockHash) ++ ",\"state_root\":" ++
    Json.quoted (feltHex cp.stateRoot) ++ "\x7d"

end Strk20.Feed

namespace Strk20.Consumer

open Feed Json Result Mpt Checkpoint
open Effect (lift)

section

variable {S : Type} [ConsumerStore S] (P : FeltParser)

/-- The checks of `verify_state` before the root is computed. -/
def checkComparable (cp : TrustedCheckpoint) (s : S) : Except Failure Unit := do
  checkBoundAboveBasis s cp.blockNumber
  if ¬ cp.blockNumber ≤ (metaU64 s "head_number").getD 0 then
    throw (.bail "CHECKPOINT_AHEAD: feed has not reached checkpoint")
  else if metaGet s "chain_id" ≠ some cp.chainId then
    throw (.bail "CHAIN_MISMATCH: checkpoint network")
  else
    match metaGet s "pool" with
    | none => throw (.bail "missing pool")
    | some text => do
        let pool ← liftFeed (feltFromHex P text)
        if pool ≠ cp.pool then throw (.bail "CHAIN_MISMATCH: checkpoint pool") else pure ()

/-- Validate a complete state at one independently chosen checkpoint. -/
def verifyState (cp : TrustedCheckpoint) (expectedRoot : Felt) : EStateM Failure S Unit := do
  modify fun s => metaSet s "verification_failed" "1"
  lift (checkComparable P cp (← get))
  let computed := ConsumerStore.storageRootAt (← get) cp.blockNumber
  set computed.2
  let root ← lift computed.1
  if root ≠ expectedRoot then
    throw (.bail ("CHECKPOINT_STATE_MISMATCH: complete pool state does not match block " ++
      cp.blockNumber.repr))
  else do
    modify fun s => metaSet s "verified_checkpoint" cp.toJson
    modify fun s => metaSet s "verification_failed" "0"

/-- A store that passed verification, and what it became. -/
theorem verifyState_ok {cp : TrustedCheckpoint} {r : Felt} {s s' : S} {u : Unit} :
    verifyState P cp r s = .ok u s' ↔
      let t := metaSet s "verification_failed" "1"
      checkComparable P cp t = .ok () ∧
        (ConsumerStore.storageRootAt t cp.blockNumber).1 = .ok r ∧
        s' = metaSet (metaSet (ConsumerStore.storageRootAt t cp.blockNumber).2
          "verified_checkpoint" cp.toJson) "verification_failed" "0" := by
  rw [verifyState, Effect.bind_of_ok (Effect.modify_apply _ _), Effect.get_bind]
  simp only
  constructor
  · intro h
    obtain ⟨_, hcheck, h⟩ := Effect.lift_bind_ok.mp h
    rw [Effect.get_bind, Effect.set_bind] at h
    obtain ⟨root, hroot, h⟩ := Effect.lift_bind_ok.mp h
    obtain ⟨heq, h⟩ := Effect.ite_throw_ok.mp h
    cases h
    exact ⟨hcheck, not_not.mp heq ▸ hroot, rfl⟩
  · rintro ⟨hcheck, hroot, rfl⟩
    refine Effect.lift_bind_ok.mpr ⟨(), hcheck, ?_⟩
    rw [Effect.get_bind, Effect.set_bind]
    refine Effect.lift_bind_ok.mpr ⟨r, hroot, ?_⟩
    exact Effect.ite_throw_ok.mpr ⟨not_not.mpr rfl, rfl⟩

end

/-! ## Roots of stores -/

/-- A store whose root, when it gives one, is that of its complete slot set,
and whose reads do not see metadata or cached roots. -/
class RootedStore (pedersen : outParam (Felt → Felt → Felt)) (S : Type) extends ConsumerStore S where
  mem_slotSet : ∀ (s : S) (bound : Nat) (k v : Felt),
    (k, v) ∈ fullSlotSetAsOf s bound ↔ v ≠ 0 ∧ (readSlotAsOf s k bound).1 = v
  rootAt_ok : ∀ {s : S} {block : Nat} {r : Felt}, (storageRootAt s block).1 = .ok r →
    r = storageRoot pedersen (fullSlotSetAsOf s block) ∧
      (((fullSlotSetAsOf s block).filter fun e => e.2 ≠ 0).map Prod.fst).Nodup
  readSlotAsOf_metaSet : ∀ (s : S) (k v : String), readSlotAsOf (metaSet s k v) = readSlotAsOf s
  slotSet_metaSet : ∀ (s : S) (k v : String), fullSlotSetAsOf (metaSet s k v) = fullSlotSetAsOf s
  readSlotAsOf_rootAt : ∀ (s : S) (block : Nat),
    readSlotAsOf (storageRootAt s block).2 = readSlotAsOf s

instance {pedersen : Felt → Felt → Felt} : RootedStore pedersen (FeedStore pedersen) where
  mem_slotSet := FeedStore.mem_fullSlotSetAsOf
  rootAt_ok {s block r} h := by
    refine ⟨(Except.ok.inj h).symm, ?_⟩
    have hrows : (((Versioned.latestRows s.storageLog (toI64 block)).map
        fun e => (e.1.1, e.2)).map Prod.fst).Nodup := by
      rw [List.map_map]
      exact List.pairwise_map.mpr (Versioned.latestRows_keys s.storageLog (toI64 block))
    exact (hrows.sublist (List.filter_sublist.map Prod.fst)).sublist
      (List.filter_sublist.map Prod.fst)
  readSlotAsOf_metaSet _ _ _ := rfl
  slotSet_metaSet _ _ _ := rfl
  readSlotAsOf_rootAt _ _ := rfl

theorem MemStore.rootAt_ok {pedersen : Felt → Felt → Felt} {s : MemStore pedersen} {block : Nat}
    {r : Felt} (h : (s.storageRootAt block).1 = .ok r) :
    r = storageRoot pedersen (s.fullSlotSetAsOf block) ∧ SlotSet (s.fullSlotSetAsOf block) := by
  have hok := liftFeed_eq_ok.mp h
  have hset : SlotSet (s.fullSlotSetAsOf block) := by
    cases hc : Trie.CachedTrie.collect (s.fullSlotSetAsOf block) with
    | ok next => exact Trie.CachedTrie.slotSet_of_collect hc
    | error e =>
        simp only [Trie.CachedTrie.update, hc] at hok
        cases hok
  rw [(Trie.CachedTrie.update_accepted s.trieValid hset).1] at hok
  exact ⟨(Except.ok.inj hok).symm, hset⟩

instance {pedersen : Felt → Felt → Felt} : RootedStore pedersen (MemStore pedersen) where
  mem_slotSet := MemStore.mem_fullSlotSetAsOf
  rootAt_ok h := ⟨(MemStore.rootAt_ok h).1, (MemStore.rootAt_ok h).2.nodup⟩
  readSlotAsOf_metaSet _ _ _ := rfl
  slotSet_metaSet _ _ _ := rfl
  readSlotAsOf_rootAt _ _ := rfl

/-! ## What a verified store reads -/

/-- The hash is collision-free on the tries of the store and of the chain. -/
def StateHashing (pedersen : Felt → Felt → Felt) (entries committed : List (Felt × Felt)) : Prop :=
  Patricia.CollisionFreeOn (feltHashing pedersen)
    (Patricia.nodes (feltHashing pedersen) TREE_HEIGHT (slotFn entries) ∪
      Patricia.nodes (feltHashing pedersen) TREE_HEIGHT (slotFn committed))

section

variable {S : Type} {pedersen : Felt → Felt → Felt} [RootedStore pedersen S]

/-- The slot set, looked up, is the read. -/
theorem RootedStore.slotValue_eq {s : S} {block : Nat}
    (hset : SlotSet (ConsumerStore.fullSlotSetAsOf s block)) (slot : Felt) :
    slotValue (ConsumerStore.fullSlotSetAsOf s block) slot =
      (ConsumerStore.readSlotAsOf s slot block).1 := by
  have hmem := RootedStore.mem_slotSet s block slot
  by_cases hz : (ConsumerStore.readSlotAsOf s slot block).1 = 0
  · rw [hz]
    by_contra hne
    have := (hmem _).mp ((slotValue_eq_iff hset hne).mp rfl)
    exact hne (this.2.symm.trans hz)
  · exact (slotValue_eq_iff hset hz).mpr ((hmem _).mpr ⟨hz, rfl⟩)

/-- A store whose root is the committed one, and whose slots are all trie keys,
reads what is committed. -/
theorem RootedStore.read_eq {s : S} {block : Nat} {committed : List (Felt × Felt)}
    (hset : SlotSet (ConsumerStore.fullSlotSetAsOf s block)) (hcommitted : SlotSet committed)
    (hcf : StateHashing pedersen (ConsumerStore.fullSlotSetAsOf s block) committed)
    (hroot : storageRoot pedersen (ConsumerStore.fullSlotSetAsOf s block) =
      storageRoot pedersen committed) (slot : Felt) :
    (ConsumerStore.readSlotAsOf s slot block).1 = slotValue committed slot := by
  rw [← RootedStore.slotValue_eq hset slot]
  rcases Nat.lt_or_ge slot.val (2 ^ 251) with hlt | hge
  · exact slotValue_eq_of_storageRoot hset hcommitted hcf hroot slot hlt
  · rw [SlotSet.slotValue_eq_zero hset hge, SlotSet.slotValue_eq_zero hcommitted hge]

end

section

variable {P : FeltParser} {J : JsonParser} {pedersen : Felt → Felt → Felt}
  {poseidonHashMany : List Felt → Felt} {w : WorldState} {cp : TrustedCheckpoint} {text : String}
  {r : Felt}

end

/-! ## A pool with one slot

Pool `7` with slot `1` holding `5`, alone in the contracts trie. The hashes are
those of Pedersen and Poseidon on the inputs that occur. -/

namespace OneSlot

def poolRoot : Felt := 0x7c5bc1cc68b7bc8ca2f632de98297e6da9594fa23ede872dd2abeafde353c3d
def inner : Felt := 0x60d4a626c40cf35f996fe22dea9f73de3b3aa58346a649681199854604d042
def middle : Felt := 0x530aa36df3f60539e85318bbcfe073d0ff588c56b328114315dc3474dd88ec3
def leafHash : Felt := 0x73b074089754f11089845ebdfe1e470d292e997607d694796c0b4cd729838ad
def contractsRoot : Felt := 0x569a4997165352bc78e14898ae9da8ebc54ec1b9ad198c5248b2e7e3152d32
def stateRoot : Felt := 0x996059f3b6bd8e05b03774c95fcae549092ad2e9b792b75aa05dca71e21536

def pedersen (a b : Felt) : Felt :=
  if a = 5 ∧ b = 1 then 0x7c5bc1cc68b7bc8ca2f632de98297e6da9594fa23ede872dd2abeafde353b42
  else if a = 2 ∧ b = poolRoot then inner
  else if a = inner ∧ b = 0 then middle
  else if a = middle ∧ b = 0 then leafHash
  else if a = leafHash ∧ b = 7 then
    0x569a4997165352bc78e14898ae9da8ebc54ec1b9ad198c5248b2e7e3152c37
  else 0

def poseidonHashMany (l : List Felt) : Felt :=
  if l = [stateCommitmentTag, contractsRoot, 3] then stateRoot else 0

def pool : ContractState := ⟨2, 0, [(1, 5)]⟩

def checkpoint : TrustedCheckpoint := ⟨"SN_MAIN", 7, 4, 9, stateRoot⟩

def node : ProofNode := ⟨feltHex contractsRoot, .edge "0x7" 251 (feltHex leafHash)⟩

def proof : ProofResult :=
  ⟨⟨[node], [⟨"0x2", "0x0", feltHex poolRoot, none, none⟩]⟩, ⟨"0x9", "0x3", feltHex contractsRoot⟩⟩

def proofJson : Json :=
  .obj [
    ("contracts_proof", .obj [
      ("nodes", .arr [.obj [
        ("node_hash", .str (feltHex contractsRoot)),
        ("node", .obj [("path", .str "0x7"), ("length", .num 251),
          ("child", .str (feltHex leafHash))])]]),
      ("contract_leaves_data", .arr [.obj [("class_hash", .str "0x2"), ("nonce", .str "0x0"),
        ("storage_root", .str (feltHex poolRoot))]])]),
    ("global_roots", .obj [("block_hash", .str "0x9"), ("classes_tree_root", .str "0x3"),
      ("contracts_tree_root", .str (feltHex contractsRoot))])]

theorem plain_proofJson : proofJson.Plain := by
  simp only [proofJson, Plain, PlainFields, PlainItems, Codec.plainStr_feltHex, and_true, true_and]
  simp only [plainStr_iff]
  and_intros <;> decide

theorem readable_proofJson : proofJson.Readable :=
  ⟨plain_proofJson, by simp [proofJson, depth, depthFields, depthItems, NESTING_LIMIT]⟩

theorem readProof_eq : readProof Json.parser proofJson.compact = .ok proof := by
  have hsize : ¬ proofJson.compact.utf8ByteSize > MAX_PROOF_BYTES := by decide +kernel
  rw [readProof, if_neg hsize, Json.parser.fromStr_compact _ readable_proofJson]
  decide

theorem verifyCheckpoint_eq : verifyCheckpoint hexParser Json.parser pedersen poseidonHashMany
    checkpoint proofJson.compact = .ok poolRoot := by
  rw [verifyCheckpoint, readProof_eq]
  decide +kernel

theorem storageRoot_eq : storageRoot pedersen [(1, 5)] = poolRoot := by
  rw [storageRoot_single (by decide) (by decide)]
  decide

/-- A mirror of the pool at block 4 with one row, `slot` holding 5. -/
def mirror (slot : Felt) : FeedStore pedersen :=
  metaSet (metaSet (metaSet (FeedStore.installSnapshot (FeedStore.new pedersen) [⟨slot, 5, 2⟩] [])
    "head_number" "4") "chain_id" "SN_MAIN") "pool" "0x7"

end OneSlot

end Strk20.Consumer
