import Strk20.Indexer.Reorg

/-!
# What a mirror says of a block hash (`db.rs`, `bridge.rs`, `compat/mod.rs`)

A hash is looked up among the stored blocks, then among the heads a cycle has seen; a
rollback leaves the hashes it forgets there as tombstones. Over runs of safe cycles the
live entries are on the chain of the last cycle that has ended, and no hash is ever
forgotten: what the mirror knows is a row or an entry.
-/

namespace Strk20.Indexer

open Feed Tables
open Effect (Triple)
open Consumer (toI64 toU64 toI64_of_lt)
open Std (ExtTreeMap)

namespace Database

variable (d : Database)

/-- `SELECT number FROM blocks WHERE hash = ?1`. -/
def rowOfHash (h : Felt) : Option (Int × BlockRec) := d.blocks.toList.find? fun e => e.2.hash == h

/-- `is_canonical`: a hash that was never observed counts as canonical. -/
def isCanonical (h : Felt) : Bool :=
  if (d.rowOfHash h).isSome then true
  else
    match d.seenHeads[h]? with
    | some s => !s.reorged
    | none => true

def blockNumberOfHash (h : Felt) : Option Nat :=
  match d.rowOfHash h with
  | some e => some (toU64 e.1)
  | none => (d.seenHeads[h]?).map fun s => toU64 s.number

end Database

/-! ## Pinned reads -/

inductive BlockTag where
  | latest
  | preConfirmed
  | l1Accepted
deriving DecidableEq

inductive BlockId where
  | hash (h : Felt)
  | number (n : Nat)
  | tag (t : BlockTag)
deriving DecidableEq

/-- `DbBackend::resolve`: the block a snapshot is bounded by, and the id it reports. -/
def resolve (P : FeltParser) (d : Database) (id : Option BlockId) :
    Except Failure (Nat × BlockId) :=
  let head := (d.metaU64 "head_number").getD 0
  let headHash := d.metaGet "head_hash"
  let atHead : Except Failure (Nat × BlockId) :=
    .ok (head, match headHash with
      | some s =>
          match P.fromHex s with
          | some h => .hash h
          | none => .number head
      | none => .number head)
  match id with
  | none => atHead
  | some (.tag .latest) => atHead
  | some (.tag .preConfirmed) => atHead
  | some (.tag .l1Accepted) =>
      let l1 := (d.metaU64 "l1_accepted_number").getD 0
      .ok (l1, .number l1)
  | some (.number n) =>
      if head < n then .error (.other ("block " ++ n.repr ++ " beyond ingested head " ++ head.repr))
      else .ok (n, .number n)
  | some (.hash h) =>
      if headHash = some (feltHex h) then .ok (head, .hash h)
      else
        match d.blockNumberOfHash h with
        | some n => .ok (n, .hash h)
        | none => .error (.other ("unknown block hash " ++ feltHex h))

/-! ## What a compat request goes through first (`compat/mod.rs`) -/

structure ApiError where
  status : Nat
  code : String
  message : String
deriving DecidableEq

/-- Reorg gate. -/
def checkLastKnown (d : Database) (lastKnown : Option Felt) : Except ApiError Unit :=
  match lastKnown with
  | none => .ok ()
  | some h =>
      if d.isCanonical h then .ok ()
      else .error ⟨409, "BLOCK_REORGED", "last_known_block is no longer canonical"⟩

/-- `snapshot_for`, with `DbBackend::snapshot`: every failure but the contract's is one of
the storage backend. -/
def snapshotFor (P : FeltParser) (d : Database) (pool contract : Felt) (ref : Option BlockId) :
    Except ApiError (Nat × BlockId) :=
  if contract ≠ pool then
    .error ⟨400, "CONTRACT_NOT_FOUND", "Contract not found at the configured address"⟩
  else
    match resolve P d ref with
    | .ok pinned => .ok pinned
    | .error _ => .error ⟨503, "STORAGE_ERROR", "Storage backend error"⟩

/-- Degraded-mode gate: from the block on at which an unknown class appeared, nothing typed
is answered. -/
def checkDegraded (d : Database) (resolved : Nat) : Except ApiError Unit :=
  if (d.metaGet "decode_state").getD "ok" = "degraded" then
    match d.metaU64 "degraded_since_block" with
    | some boundary =>
        if boundary ≤ resolved then
          .error ⟨503, "SERVICE_UNAVAILABLE", "typed decoding degraded: unknown pool class hash"⟩
        else .ok ()
    | none => .ok ()
  else .ok ()

/-- What the sync and history handlers do before they read: the block they are bound by
and the id they report. -/
def gatedSnapshot (P : FeltParser) (d : Database) (pool contract : Felt) (lastKnown : Option Felt)
    (ref : Option BlockId) : Except ApiError (Nat × BlockId) := do
  checkLastKnown d lastKnown
  let snapshot ← snapshotFor P d pool contract ref
  checkDegraded d snapshot.1
  .ok snapshot

/-! ## Tombstones -/

namespace Database

variable {d : Database}

theorem rowOfHash_some {h : Felt} {e : Int × BlockRec} (he : d.rowOfHash h = some e) :
    d.blocks[e.1]? = some e.2 ∧ e.2.hash = h :=
  ⟨ExtTreeMap.mem_toList_iff_getElem?_eq_some.mp (List.mem_of_find?_eq_some he),
    eq_of_beq (List.find?_some (p := fun e : Int × BlockRec => e.2.hash == h) he)⟩

theorem rowOfHash_isSome {h : Felt} :
    (d.rowOfHash h).isSome ↔ ∃ (k : Int) (r : BlockRec), d.blocks[k]? = some r ∧ r.hash = h := by
  unfold rowOfHash
  rw [List.find?_isSome]
  constructor
  · rintro ⟨e, he, hhash⟩
    exact ⟨e.1, e.2, ExtTreeMap.mem_toList_iff_getElem?_eq_some.mp he, eq_of_beq hhash⟩
  · rintro ⟨k, r, hr, hhash⟩
    exact ⟨(k, r), ExtTreeMap.mem_toList_iff_getElem?_eq_some.mpr hr, beq_iff_eq.mpr hhash⟩

/-- Block hashes that the database can tell of. -/
def Knows (d : Database) (h : Felt) : Prop :=
  (d.rowOfHash h).isSome ∨ (d.seenHeads[h]?).isSome

/-- Entries of a tombstoned database: those added, marked, and those before, marked above
the ancestor. -/
theorem getElem?_tombstone (d : Database) (ancestor : Nat) (h : Felt) :
    (d.tombstone ancestor).seenHeads[h]? =
      ((lastUnder ((d.blocks.toList.filter fun e => toI64 ancestor < e.1).map fun e =>
          (e.2.hash, (⟨e.1, true⟩ : SeenHead))) h).or d.seenHeads[h]?).map fun s =>
        if toI64 ancestor < s.number then { s with reorged := true } else s := by
  have hadded : (d.blocks.toList.filter fun e => toI64 ancestor < e.1).foldl
      (fun t e => t.insert e.2.hash ⟨e.1, true⟩) d.seenHeads =
        insertAll d.seenHeads ((d.blocks.toList.filter fun e => toI64 ancestor < e.1).map fun e =>
          (e.2.hash, (⟨e.1, true⟩ : SeenHead))) := by
    unfold insertAll
    rw [List.foldl_map]
  unfold tombstone
  simp only [hadded, ExtTreeMap.getElem?_map, getElem?_insertAll]

/-- A live entry of a tombstoned database was live before, at or below the ancestor. -/
theorem live_of_tombstone {ancestor : Nat} {h : Felt} {s : SeenHead}
    (hs : (d.tombstone ancestor).seenHeads[h]? = some s) (hlive : s.reorged = false) :
    d.seenHeads[h]? = some s ∧ s.number ≤ toI64 ancestor := by
  rw [getElem?_tombstone] at hs
  obtain ⟨s₀, hs₀, hmap⟩ := Option.map_eq_some_iff.mp hs
  have hlow : ¬ toI64 ancestor < s₀.number := by
    intro hlt
    rw [if_pos hlt] at hmap
    rw [← hmap] at hlive
    cases hlive
  rw [if_neg hlow] at hmap
  subst hmap
  refine ⟨?_, by omega⟩
  cases hlast : lastUnder ((d.blocks.toList.filter fun e => toI64 ancestor < e.1).map fun e =>
      (e.2.hash, (⟨e.1, true⟩ : SeenHead))) h with
  | none =>
      rw [hlast, Option.none_or] at hs₀
      exact hs₀
  | some s₁ =>
      -- an added entry is marked
      rw [hlast, Option.some_or] at hs₀
      cases hs₀
      obtain ⟨x, hx, rfl⟩ := Option.map_eq_some_iff.mp hlast
      obtain ⟨e, -, rfl⟩ := List.mem_map.mp (List.mem_filter.mp (List.mem_of_getLast? hx)).1
      cases hlive

theorem knows_tombstone {ancestor : Nat} {h : Felt} (hknown : (d.seenHeads[h]?).isSome) :
    ((d.tombstone ancestor).seenHeads[h]?).isSome := by
  rw [getElem?_tombstone, Option.isSome_map]
  cases lastUnder ((d.blocks.toList.filter fun e => toI64 ancestor < e.1).map fun e =>
      (e.2.hash, (⟨e.1, true⟩ : SeenHead))) h with
  | none => exact hknown
  | some s => rfl

/-- A row that a rollback deletes leaves an entry. -/
theorem knows_deleted {ancestor : Nat} {k : Int} {r : BlockRec} (hr : d.blocks[k]? = some r)
    (hk : toI64 ancestor < k) : ((d.tombstone ancestor).seenHeads[r.hash]?).isSome := by
  rw [getElem?_tombstone, Option.isSome_map]
  have hmem : r.hash ∈ (((d.blocks.toList.filter fun e => toI64 ancestor < e.1).map fun e =>
      (e.2.hash, (⟨e.1, true⟩ : SeenHead))).map Prod.fst) := by
    rw [List.map_map]
    exact List.mem_map.mpr ⟨(k, r), List.mem_filter.mpr
      ⟨ExtTreeMap.mem_toList_iff_getElem?_eq_some.mpr hr, decide_eq_true hk⟩, rfl⟩
  cases hlast : lastUnder ((d.blocks.toList.filter fun e => toI64 ancestor < e.1).map fun e =>
      (e.2.hash, (⟨e.1, true⟩ : SeenHead))) r.hash with
  | none => exact absurd hmem (lastUnder_eq_none_iff.mp hlast)
  | some s => rfl

theorem seenHeads_rollbackAbove (d : Database) (ancestor : Nat) :
    (d.rollbackAbove ancestor).seenHeads = (d.tombstone ancestor).seenHeads :=
  (sameBut_deleteBlocks (d.tombstone ancestor) fun n _ => toI64 ancestor < n).seenHeads

/-- A rollback forgets no hash. -/
theorem knows_rollbackAbove {ancestor : Nat} {h : Felt} (hknown : d.Knows h) :
    (d.rollbackAbove ancestor).Knows h := by
  rcases hknown with hrow | hseen
  · obtain ⟨k, r, hr, rfl⟩ := rowOfHash_isSome.mp hrow
    by_cases hk : k ≤ toI64 ancestor
    · left
      refine rowOfHash_isSome.mpr ⟨k, r, ?_, rfl⟩
      rw [getElem?_rollbackAbove, if_pos hk, hr]
    · right
      rw [seenHeads_rollbackAbove]
      exact knows_deleted hr (by omega)
  · right
    rw [seenHeads_rollbackAbove]
    exact knows_tombstone hseen

end Database

/-! ## Live entries -/

section

variable {L : Ledger} {C : Chain L} {d d' : Database}

/-- Every live entry is a block of the chain. -/
def SeenOn (C : Chain L) (d : Database) : Prop :=
  ∀ (h : Felt) (s : SeenHead), d.seenHeads[h]? = some s → s.reorged = false → C.Has s.number h

/-- The recorded hash is that of some block of the chain. -/
def HashOn (C : Chain L) (d : Database) : Prop :=
  ∃ n, n ≤ C.height ∧ d.metaGet "head_hash" = some (feltHex (C.hash n))

/-- What runs of safe cycles keep about live entries. Rows and live entries are on one
chain; and on any chain that has the recorded head, the live entries are. -/
structure Vouching (L : Ledger) (d : Database) : Prop where
  chain : ∃ D : Chain L, D.Holds d ∧ SeenOn D d
  frontier : ∀ f, d.ingestCursor = some f → 0 ≤ f ∧ f < 2 ^ 63
  epochs : d.epochs = ∅
  marked : ∀ C : Chain L, HashOn C d → SeenOn C d
  unmarked : d.metaGet "head_hash" = none →
    ∀ (h : Felt) (s : SeenHead), d.seenHeads[h]? = some s → s.reorged = true
  numbered : d.metaGet "head_hash" ≠ none → d.metaU64 "head_number" ≠ none

theorem Vouching.oneChain (h : Vouching L d) : OneChain L d := by
  obtain ⟨D, hD, -⟩ := h.chain
  exact ⟨⟨D, hD⟩, h.frontier, h.epochs⟩

theorem seenOn_congr (h : d'.seenHeads = d.seenHeads) (hd : SeenOn C d) : SeenOn C d' := by
  intro x s hs
  exact hd x s (h ▸ hs)

theorem hashOn_congr (h : d'.metaGet "head_hash" = d.metaGet "head_hash") (hd : HashOn C d') :
    HashOn C d := by
  obtain ⟨n, hn, hhash⟩ := hd
  exact ⟨n, hn, h ▸ hhash⟩

theorem Vouching.promoted (h : Vouching L d) (hp : Promoted d d') : Vouching L d' := by
  obtain ⟨D, hD, hseen⟩ := h.chain
  refine ⟨⟨D, hp.holds hD, seenOn_congr hp.seenHeads hseen⟩,
    fun f hf => h.frontier f (hp.ingestCursor ▸ hf), hp.epochs.trans h.epochs,
    fun C hC => seenOn_congr hp.seenHeads (h.marked C (hashOn_congr hp.headHash hC)),
    fun hnone x s hs => ?_, fun hsome => ?_⟩
  · exact h.unmarked (hp.headHash ▸ hnone) x s (hp.seenHeads ▸ hs)
  · unfold Database.metaU64
    rw [hp.headNumber]
    exact h.numbered (hp.headHash ▸ hsome)

theorem metaGet_rollbackAbove (d : Database) (ancestor : Nat) {key : String}
    (hrev : key ≠ "storage_revision") (hprobe : key ≠ "anchor_probe_frontier") :
    (d.rollbackAbove ancestor).metaGet key = d.metaGet key := by
  have hdelete := Database.sameBut_deleteBlocks (d.tombstone ancestor) fun n _ => toI64 ancestor < n
  show ((((d.tombstone ancestor).deleteBlocks _).metas).erase "anchor_probe_frontier")[key]? = _
  rw [getElem?_erase_eq, if_neg hprobe]
  exact hdelete.metas key hrev

theorem metaGet_rolledBack (reorg : Option Nat) (d : Database) {key : String}
    (hrev : key ≠ "storage_revision") (hprobe : key ≠ "anchor_probe_frontier") :
    (rolledBack reorg d).metaGet key = d.metaGet key := by
  cases reorg with
  | none => rfl
  | some ancestor => exact metaGet_rollbackAbove d ancestor hrev hprobe

/-- Live entries after the rollback of a cycle were live before. -/
theorem live_of_rolledBack {reorg : Option Nat} {h : Felt} {s : SeenHead}
    (hs : (rolledBack reorg d).seenHeads[h]? = some s) (hlive : s.reorged = false) :
    d.seenHeads[h]? = some s := by
  cases reorg with
  | none => exact hs
  | some ancestor =>
      have hs' : (d.rollbackAbove ancestor).seenHeads[h]? = some s := hs
      rw [Database.seenHeads_rollbackAbove] at hs'
      exact (Database.live_of_tombstone hs' hlive).1

variable {P : FeltParser} {rpc : RpcClient} {cfg : ChainConfig} {chunkSize : Nat}

/-- What stays live through a safe cycle's rollback is on its chain. -/
theorem seenOn_rolledBack (hd : Vouching L d) (hsafe : Safe C d) {reorg : Option Nat}
    {latest : BlockHeader} (hprepared : Prepared C P rpc d reorg d' latest) :
    SeenOn C (rolledBack reorg d') := by
  have hpromoted := hprepared.promoted
  cases reorg with
  | none =>
      refine seenOn_congr hpromoted.seenHeads ?_
      rcases hprepared.decided with hnone | ⟨n, hn, hrecorded⟩
      · -- no head is recorded, so no entry is live
        have hhash : d.metaGet "head_hash" = none := by
          by_contra hsome
          obtain ⟨s, hs⟩ := Option.ne_none_iff_exists'.mp hsome
          obtain ⟨head, hhead⟩ := Option.ne_none_iff_exists'.mp (hd.numbered hsome)
          unfold Database.recordedHead at hnone
          rw [hhead, hs] at hnone
          cases hnone
        intro h s hs hlive
        rw [hd.unmarked hhash h s hs] at hlive
        cases hlive
      · refine hd.marked C ⟨n, hn, ?_⟩
        unfold Database.recordedHead at hrecorded
        cases hnumber : d.metaU64 "head_number" with
        | none =>
            rw [hnumber] at hrecorded
            cases hrecorded
        | some head =>
            cases hhash : d.metaGet "head_hash" with
            | none =>
                rw [hnumber, hhash] at hrecorded
                cases hrecorded
            | some s =>
                rw [hnumber, hhash] at hrecorded
                rw [(Prod.mk.inj (Option.some.inj hrecorded)).2]
  | some ancestor =>
      obtain ⟨D, hD, hseen⟩ := hd.chain
      obtain ⟨hC, hle, hhash⟩ := stopsAt_shared hD hd.epochs hsafe hprepared.decided
      have hlt := D.height_lt
      intro h s hs hlive
      have hs' : (d'.rollbackAbove ancestor).seenHeads[h]? = some s := hs
      rw [Database.seenHeads_rollbackAbove] at hs'
      obtain ⟨hbefore, hlow⟩ := Database.live_of_tombstone hs' hlive
      rw [toI64_of_lt (by omega)] at hlow
      obtain ⟨m, hm, hnumber, hh⟩ := hseen h s (hpromoted.seenHeads ▸ hbefore) hlive
      refine ⟨m, by omega, hnumber, ?_⟩
      rw [hh]
      exact Chain.hash_eq_of_le hle hC hhash (by omega)

/-- The rest of what runs keep, after the rollback. -/
theorem vouching_rolledBack (hd : Vouching L d) (hsafe : Safe C d) {reorg : Option Nat}
    {latest : BlockHeader} (hprepared : Prepared C P rpc d reorg d' latest) :
    Vouching L (rolledBack reorg d') := by
  have hpromoted := hd.promoted hprepared.promoted
  have hready := safe_ready hd.oneChain hsafe hprepared
  have hhash : (rolledBack reorg d').metaGet "head_hash" = d'.metaGet "head_hash" :=
    metaGet_rolledBack reorg d' (by decide) (by decide)
  have hnumber : (rolledBack reorg d').metaGet "head_number" = d'.metaGet "head_number" :=
    metaGet_rolledBack reorg d' (by decide) (by decide)
  refine ⟨⟨C, hready.holds, seenOn_rolledBack hd hsafe hprepared⟩, hready.frontier,
    (epochs_rolledBack reorg d').trans hpromoted.epochs, fun E hE h s hs hlive => ?_,
    fun hnone h s hs => ?_, fun hsome => ?_⟩
  · exact hpromoted.marked E (hashOn_congr hhash hE) h s (live_of_rolledBack hs hlive) hlive
  · cases hr : s.reorged with
    | true => rfl
    | false =>
        have := hpromoted.unmarked (hhash ▸ hnone) h s (live_of_rolledBack hs hr)
        rw [hr] at this
        exact this
  · unfold Database.metaU64
    rw [hnumber]
    exact hpromoted.numbered (hhash ▸ hsome)

/-- A state with rows and live entries on the chain, and the recorded head unchanged. -/
theorem vouching_ingested {d₁ : Database} {p₀ p : List Nat} {start n : Nat} (hd : Vouching L d₁)
    (hseen : SeenOn C d₁) (hing : Ingested C d₁ p₀ start n d p) : Vouching L d ∧ SeenOn C d := by
  have hhash : d.metaGet "head_hash" = d₁.metaGet "head_hash" := hing.metas _ (by decide)
  have hnumber : d.metaGet "head_number" = d₁.metaGet "head_number" := hing.metas _ (by decide)
  have hseen' : SeenOn C d := seenOn_congr hing.seenHeads hseen
  refine ⟨⟨⟨C, hing.holds, hseen'⟩, fun f hf => ⟨(hing.frontier f hf).1, (hing.frontier f hf).2.2⟩,
    hing.epochs.trans hd.epochs, fun E hE => seenOn_congr hing.seenHeads
      (hd.marked E (hashOn_congr hhash hE)), fun hnone h s hs => ?_, fun hsome => ?_⟩, hseen'⟩
  · exact hd.unmarked (hhash ▸ hnone) h s (hing.seenHeads ▸ hs)
  · unfold Database.metaU64
    rw [hnumber]
    exact hd.numbered (hhash ▸ hsome)

theorem metaGet_metaSet (d : Database) (key value key' : String) :
    (d.metaSet key value).metaGet key' = if key' = key then some value else d.metaGet key' := by
  unfold Database.metaGet Database.metaSet
  rw [getElem?_insert_eq]

theorem metaU64_metaSet_self (d : Database) (key : String) {n : Nat} (hn : n < 2 ^ 64) :
    (d.metaSet key n.repr).metaU64 key = some n := by
  unfold Database.metaU64
  rw [metaGet_metaSet, if_pos rfl, Option.bind_some, Text.parseU64_repr hn]

/-- The recorded head is the head of the chain, and rows and live entries are on it. -/
structure Synced (C : Chain L) (d : Database) : Prop where
  holds : C.Holds d
  seen : SeenOn C d
  headHash : d.metaGet "head_hash" = some (feltHex (C.hash C.height))
  headNumber : d.metaU64 "head_number" = some C.height

namespace Synced

theorem promoted (h : Synced C d) (hp : Promoted d d') : Synced C d' := by
  refine ⟨hp.holds h.holds, seenOn_congr hp.seenHeads h.seen, hp.headHash.trans h.headHash, ?_⟩
  unfold Database.metaU64
  rw [hp.headNumber]
  exact h.headNumber

/-- Every chain that has the head has what is below it. -/
theorem seenOn (h : Synced C d) {E : Chain L} (hE : HashOn E d) : SeenOn E d := by
  obtain ⟨n, hn, htext⟩ := hE
  have hsame : C.hash C.height = E.hash n :=
    hexParser.feltHex_inj (Option.some.inj (h.headHash.symm.trans htext))
  have hheight : C.height = n := Chain.number_inj (le_refl _) hn hsame
  subst hheight
  intro x s hs hlive
  obtain ⟨m, hm, hnumber, hx⟩ := h.seen x s hs hlive
  exact ⟨m, by omega, hnumber, hx.trans (Chain.hash_eq_of_le (le_refl _) hn hsame hm)⟩

theorem vouching (h : Synced C d) (hfrontier : ∀ f, d.ingestCursor = some f → 0 ≤ f ∧ f < 2 ^ 63)
    (hepochs : d.epochs = ∅) : Vouching L d := by
  refine ⟨⟨C, h.holds, h.seen⟩, hfrontier, hepochs, fun E hE => h.seenOn hE, fun hnone => ?_,
    fun _ hnone => ?_⟩
  · rw [h.headHash] at hnone
    cases hnone
  · rw [h.headNumber] at hnone
    cases hnone

end Synced

/-- The database with both head metas. -/
theorem synced_metas (hholds : C.Holds d) (hseen : SeenOn C d) :
    Synced C ((d.metaSet "head_number" C.height.repr).metaSet "head_hash"
      (feltHex (C.hash C.height))) := by
  have hlt := C.height_lt
  refine ⟨hholds, hseen, ?_, ?_⟩
  · rw [metaGet_metaSet, if_pos rfl]
  · unfold Database.metaU64
    rw [metaGet_metaSet, if_neg (by decide)]
    exact metaU64_metaSet_self d "head_number" (by omega)

theorem vouching_recording (h : Vouching L d) (hholds : C.Holds d) (hseen : SeenOn C d)
    (hrec : Recording C.height (C.hash C.height) d d') : Vouching L d' := by
  have hlt := C.height_lt
  cases hrec with
  | number =>
      -- the hash that is still recorded is that of the head before
      have hhash : (d.metaSet "head_number" C.height.repr).metaGet "head_hash" =
          d.metaGet "head_hash" := by
        rw [metaGet_metaSet, if_neg (by decide)]
      refine ⟨h.chain, h.frontier, h.epochs, fun E hE => h.marked E (hashOn_congr hhash hE),
        fun hnone => h.unmarked (hhash ▸ hnone), fun _ hnone => ?_⟩
      rw [metaU64_metaSet_self d _ (by omega)] at hnone
      cases hnone
  | hash => exact (synced_metas hholds hseen).vouching h.frontier h.epochs

theorem synced_withHead (hholds : C.Holds d) (hseen : SeenOn C d) :
    Synced C (withHead C.height (C.hash C.height) d) := by
  have hmetas := synced_metas hholds hseen
  refine ⟨hholds, fun x s hs hlive => ?_, hmetas.headHash, hmetas.headNumber⟩
  have hs' : (d.seenHeads.insert (C.hash C.height) ⟨toI64 C.height, false⟩)[x]? = some s := hs
  rw [getElem?_insert_eq] at hs'
  split at hs'
  · rename_i hx
    have hnumber : s.number = C.height := by
      rw [← Option.some.inj hs']
      dsimp only
      rw [toI64_of_lt C.height_lt]
    exact ⟨C.height, le_refl _, hnumber, hx⟩
  · exact hseen x s hs' hlive

theorem synced_recorded (h : Vouching L d) (hholds : C.Holds d) (hseen : SeenOn C d)
    (hrec : Recorded C.height (C.hash C.height) d d') : Vouching L d' ∧ Synced C d' := by
  have hsynced := synced_withHead hholds hseen
  have hhead := hsynced.vouching h.frontier h.epochs
  rcases hrec with rfl | ⟨upto, rfl⟩
  · exact ⟨hhead, hsynced⟩
  · exact ⟨hhead.promoted (Promoted.promoteL1 _ upto), hsynced.promoted (Promoted.promoteL1 _ upto)⟩

/-! ## Nothing is forgotten -/

/-- Every hash that the mirror could tell of, it still can. -/
def Remembers (d d' : Database) : Prop := ∀ h, d.Knows h → d'.Knows h

namespace Remembers

theorem trans {d'' : Database} (h : Remembers d d') (h' : Remembers d' d'') : Remembers d d'' :=
  fun x hx => h' x (h x hx)

/-- Same rows but for their status, and entries that are kept. -/
theorem of_hashes (hhashes : ∀ k : Int, (d'.blocks[k]?).map BlockRec.hash =
      (d.blocks[k]?).map BlockRec.hash)
    (hseen : ∀ h : Felt, (d.seenHeads[h]?).isSome → (d'.seenHeads[h]?).isSome) :
    Remembers d d' := by
  rintro h (hrow | hentry)
  · obtain ⟨k, r, hr, rfl⟩ := Database.rowOfHash_isSome.mp hrow
    have hk := hhashes k
    rw [hr, Option.map_some] at hk
    obtain ⟨r', hr', hhash⟩ := Option.map_eq_some_iff.mp hk
    exact Or.inl (Database.rowOfHash_isSome.mpr ⟨k, r', hr', hhash⟩)
  · exact Or.inr (hseen h hentry)

theorem promoted (hp : Promoted d d') : Remembers d d' :=
  of_hashes hp.hashes fun h hentry => by
    rw [hp.seenHeads]
    exact hentry

theorem rolledBack (reorg : Option Nat) (d : Database) : Remembers d (rolledBack reorg d) := by
  cases reorg with
  | none => exact fun _ hx => hx
  | some ancestor => exact fun _ hx => Database.knows_rollbackAbove hx

/-- A block that is stored again is the same block. -/
theorem ingested {p₀ p : List Nat} {start n : Nat} (hholds : C.Holds d)
    (hing : Ingested C d p₀ start n d' p) : Remembers d d' := by
  rintro h (hrow | hentry)
  · obtain ⟨k, r, hr, rfl⟩ := Database.rowOfHash_isSome.mp hrow
    obtain ⟨r', hr'⟩ := Option.isSome_iff_exists.mp (hing.kept k (by rw [hr]; rfl))
    refine Or.inl (Database.rowOfHash_isSome.mpr ⟨k, r', hr', ?_⟩)
    obtain ⟨m, -, hm, hhash⟩ := hholds k r hr
    obtain ⟨m', -, hm', hhash'⟩ := hing.holds k r' hr'
    rw [hhash, hhash', show m' = m by omega]
  · right
    rw [hing.seenHeads]
    exact hentry

theorem recording {number : Nat} {hash : Felt} (hrec : Recording number hash d d') :
    Remembers d d' := by
  cases hrec with
  | number => exact fun _ hx => hx
  | hash => exact fun _ hx => hx

theorem recorded {number : Nat} {hash : Felt} (hrec : Recorded number hash d d') :
    Remembers d d' := by
  have hhead : Remembers d (withHead number hash d) := by
    refine of_hashes (fun _ => rfl) fun h hentry => ?_
    show ((d.seenHeads.insert hash ⟨toI64 number, false⟩)[h]?).isSome
    rw [getElem?_insert_eq]
    split
    · rfl
    · exact hentry
  rcases hrec with rfl | ⟨upto, rfl⟩
  · exact hhead
  · exact hhead.trans (promoted (Promoted.promoteL1 _ upto))

end Remembers

theorem knows_recorded {number : Nat} {hash : Felt} (hrec : Recorded number hash d d') :
    d'.Knows hash := by
  have hhead : ((withHead number hash d).seenHeads[hash]?).isSome := by
    show ((d.seenHeads.insert hash ⟨toI64 number, false⟩)[hash]?).isSome
    rw [getElem?_insert_eq, if_pos rfl]
    rfl
  rcases hrec with rfl | ⟨upto, rfl⟩
  · exact Or.inr hhead
  · exact Or.inr hhead

/-! ## A cycle -/

/-- A safe cycle keeps what runs keep and forgets nothing; if it ends, the mirror is in
sync with its chain. -/
theorem vouching_cycle (htruthful : C.Truthful P cfg chunkSize rpc) (htip : C.AtTip rpc)
    {p : List Nat} (hd : Vouching L d) (hsafe : Safe C d) :
    Triple (On (Is d p)) (runCycle P rpc cfg chunkSize)
      (fun _ => On fun d' _ => (Vouching L d' ∧ Remembers d d') ∧ Synced C d' ∧
        d'.Knows (C.hash C.height))
      (On fun d' _ => Vouching L d' ∧ Remembers d d') := by
  have hcycle : Triple (On (Is d p)) (runCycle P rpc cfg chunkSize)
      (fun o => On (CycleDone C P rpc cfg d p o)) (On (CycleState C P rpc cfg d p)) :=
    runCycle_triple htruthful fun _ _ _ hprepared => safe_ready hd.oneChain hsafe hprepared
  -- where the ingest phase begins, and what it keeps
  have hing : ∀ {reorg d₁ latest n d₂ p'}, Prepared C P rpc d reorg d₁ latest →
      Ingested C (rolledBack reorg d₁) (unpassed reorg p) (firstUnseen cfg (rolledBack reorg d₁)) n
        d₂ p' → (Vouching L d₂ ∧ SeenOn C d₂) ∧ Remembers d d₂ := by
    intro reorg d₁ latest n d₂ p' hprepared hing
    have hready := safe_ready hd.oneChain hsafe hprepared
    exact ⟨vouching_ingested (vouching_rolledBack hd hsafe hprepared)
        (seenOn_rolledBack hd hsafe hprepared) hing,
      ((Remembers.promoted hprepared.promoted).trans (Remembers.rolledBack reorg d₁)).trans
        (Remembers.ingested hready.holds hing)⟩
  refine (hcycle.weaken (fun _ h => h) ?_).relax ?_
  · rintro o s ⟨reorg, d₁, d₂, latest, hprepared, -, hingested, hrec⟩
    obtain ⟨⟨hvouching, hseen⟩, hremembers⟩ := hing hprepared hingested
    rw [htip.isLatest hprepared.isLatest] at hrec
    obtain ⟨hvouching', hsynced⟩ := synced_recorded hvouching hingested.holds hseen hrec
    refine ⟨⟨hvouching', hremembers.trans (Remembers.recorded hrec)⟩, hsynced, ?_⟩
    exact knows_recorded hrec
  · intro s hs
    cases hs with
    | polled hpromoted => exact ⟨hd.promoted hpromoted, Remembers.promoted hpromoted⟩
    | ingesting hprepared hingested =>
        obtain ⟨⟨hvouching, -⟩, hremembers⟩ := hing hprepared hingested
        exact ⟨hvouching, hremembers⟩
    | recording hprepared hingested hrec =>
        obtain ⟨⟨hvouching, hseen⟩, hremembers⟩ := hing hprepared hingested
        rw [htip.isLatest hprepared.isLatest] at hrec
        exact ⟨vouching_recording hvouching hingested.holds hseen hrec,
          hremembers.trans (Remembers.recording hrec)⟩
    | recorded hprepared hingested hrec =>
        obtain ⟨⟨hvouching, hseen⟩, hremembers⟩ := hing hprepared hingested
        rw [htip.isLatest hprepared.isLatest] at hrec
        exact ⟨(synced_recorded hvouching hingested.holds hseen hrec).1,
          hremembers.trans (Remembers.recorded hrec)⟩

/-! ## Runs -/

/-- What a mirror comes to by further safe cycles. -/
inductive Later (L : Ledger) (P : FeltParser) (cfg : ChainConfig) (chunkSize : Nat) (h₀ : Host) :
    Host → Prop
  | refl : Later L P cfg chunkSize h₀ h₀
  | cycle {h : Host} {C : Chain L} {rpc : RpcClient} (budget : Nat)
      (hlater : Later L P cfg chunkSize h₀ h) (htruthful : C.Truthful P cfg chunkSize rpc)
      (htip : C.AtTip rpc) (hsafe : Safe C h.database) :
      Later L P cfg chunkSize h₀
        (Effect.final (runCycle P rpc cfg chunkSize { h with budget := budget }))

theorem safeRun_vouching {h : Host} (hrun : SafeRun L P cfg chunkSize h) (D : Chain L) :
    Vouching L h.database := by
  induction hrun with
  | fresh hd =>
      rw [hd]
      refine ⟨⟨D, fun k r hr => ?_, fun x s hs => ?_⟩, fun f hf => ?_, rfl, fun E hE => ?_,
        fun _ x s hs => ?_, fun hsome => ?_⟩
      · simp [Database.new] at hr
      · simp [Database.new] at hs
      · cases hf
      · intro x s hs
        simp [Database.new] at hs
      · simp [Database.new] at hs
      · simp [Database.metaGet, Database.new] at hsome
  | cycle budget hrun htruthful htip hsafe ih =>
      refine Triple.final ((vouching_cycle htruthful htip ih hsafe).weaken (fun _ h => h) ?_
        |>.relax fun s hs => hs.1) ⟨rfl, rfl⟩
      rintro o s ⟨⟨hv, -⟩, -⟩
      exact hv

theorem later_remembers {h₀ h : Host} (hd : Vouching L h₀.database)
    (hlater : Later L P cfg chunkSize h₀ h) :
    Vouching L h.database ∧ Remembers h₀.database h.database := by
  induction hlater with
  | refl => exact ⟨hd, fun _ hx => hx⟩
  | @cycle h C rpc budget hlater htruthful htip hsafe ih =>
      obtain ⟨hvouching, hremembers⟩ := ih
      have hstep : Triple (On (Is h.database h.passed)) (runCycle P rpc cfg chunkSize)
          (fun _ => On fun d' _ => Vouching L d' ∧ Remembers h₀.database d')
          (On fun d' _ => Vouching L d' ∧ Remembers h₀.database d') := by
        refine ((vouching_cycle htruthful htip hvouching hsafe).weaken (fun _ h => h) ?_).relax ?_
        · rintro o s ⟨⟨hv, hr⟩, -⟩
          exact ⟨hv, hremembers.trans hr⟩
        · rintro s ⟨hv, hr⟩
          exact ⟨hv, hremembers.trans hr⟩
      exact hstep.final (s := { h with budget := budget }) ⟨rfl, rfl⟩

/-- A safe cycle on the chain `C` that ends. -/
def EndsOn (P : FeltParser) (cfg : ChainConfig) (chunkSize : Nat) (C : Chain L) (h h' : Host) : Prop :=
  ∃ (rpc : RpcClient) (budget : Nat) (o : CycleOutcome), C.Truthful P cfg chunkSize rpc ∧
    C.AtTip rpc ∧ Safe C h.database ∧
      runCycle P rpc cfg chunkSize { h with budget := budget } = .ok o h'

theorem EndsOn.synced {h h' : Host} (hends : EndsOn P cfg chunkSize C h h')
    (hd : Vouching L h.database) : (Vouching L h'.database ∧ Remembers h.database h'.database) ∧
      Synced C h'.database ∧ h'.database.Knows (C.hash C.height) := by
  obtain ⟨rpc, budget, o, htruthful, htip, hsafe, hok⟩ := hends
  exact (vouching_cycle (p := h.passed) htruthful htip hd hsafe).ok
    (s := { h with budget := budget }) ⟨rfl, rfl⟩ hok

/-- A live hash is on the chain that the mirror is in sync with. -/
theorem Synced.canonical (h : Synced C d) {x : Felt} (hknown : d.Knows x)
    (hx : d.isCanonical x = true) : ∃ m, m ≤ C.height ∧ x = C.hash m := by
  unfold Database.isCanonical at hx
  rcases hknown with hrow | hentry
  · obtain ⟨k, r, hr, rfl⟩ := Database.rowOfHash_isSome.mp hrow
    obtain ⟨m, hm, -, hhash⟩ := h.holds k r hr
    exact ⟨m, hm, hhash⟩
  · by_cases hrow : (d.rowOfHash x).isSome
    · obtain ⟨k, r, hr, rfl⟩ := Database.rowOfHash_isSome.mp hrow
      obtain ⟨m, hm, -, hhash⟩ := h.holds k r hr
      exact ⟨m, hm, hhash⟩
    · obtain ⟨s, hs⟩ := Option.isSome_iff_exists.mp hentry
      rw [if_neg hrow, hs] at hx
      obtain ⟨m, hm, -, hhash⟩ := h.seen x s hs (by simpa using hx)
      exact ⟨m, hm, hhash⟩

/-- The hash that a pinned read reports is known, or it is the recorded head. -/
theorem resolve_hash {ref : Option BlockId} {n : Nat} {x : Felt}
    (hresolve : resolve P d ref = .ok (n, .hash x)) :
    (d.metaGet "head_hash" = some (feltHex x) ∧ n = (d.metaU64 "head_number").getD 0) ∨
      (∃ s, d.metaGet "head_hash" = some s ∧ P.fromHex s = some x ∧
        n = (d.metaU64 "head_number").getD 0) ∨
      (ref = some (.hash x) ∧ d.blockNumberOfHash x = some n) := by
  -- the head answers by number where its hash is missing or does not parse
  have hhead : ∀ (m : Nat) (id : BlockId),
      (Except.ok ((d.metaU64 "head_number").getD 0, match d.metaGet "head_hash" with
        | some s =>
            match P.fromHex s with
            | some h => .hash h
            | none => .number ((d.metaU64 "head_number").getD 0)
        | none => .number ((d.metaU64 "head_number").getD 0)) : Except Failure (Nat × BlockId)) =
        .ok (m, id) → id = .hash x → ∃ s, d.metaGet "head_hash" = some s ∧ P.fromHex s = some x ∧
          m = (d.metaU64 "head_number").getD 0 := by
    intro m id heq hid
    subst hid
    obtain ⟨hm, hreported⟩ := Prod.mk.inj (Except.ok.inj heq)
    cases hhash : d.metaGet "head_hash" with
    | none =>
        rw [hhash] at hreported
        cases hreported
    | some s =>
        simp only [hhash] at hreported
        cases hparse : P.fromHex s with
        | none =>
            rw [hparse] at hreported
            cases hreported
        | some y =>
            rw [hparse] at hreported
            cases hreported
            exact ⟨s, rfl, hparse, hm.symm⟩
  unfold resolve at hresolve
  cases ref with
  | none => exact Or.inr (Or.inl (hhead n _ hresolve rfl))
  | some id =>
      cases id with
      | tag t =>
          cases t with
          | latest => exact Or.inr (Or.inl (hhead n _ hresolve rfl))
          | preConfirmed => exact Or.inr (Or.inl (hhead n _ hresolve rfl))
          | l1Accepted => cases hresolve
      | number m =>
          simp only at hresolve
          split at hresolve
          · cases hresolve
          · cases hresolve
      | hash y =>
          simp only at hresolve
          split at hresolve
          · rename_i hhash
            cases hresolve
            exact Or.inl ⟨hhash, rfl⟩
          · split at hresolve
            · rename_i m hm
              cases hresolve
              exact Or.inr (Or.inr ⟨rfl, hm⟩)
            · cases hresolve

/-- A pinned read in sync: the head of the chain, or a hash that is looked up. -/
theorem Synced.resolve_hash (h : Synced C d) {ref : Option BlockId} {n : Nat} {x : Felt}
    (hresolve : resolve P d ref = .ok (n, .hash x)) :
    (n = C.height ∧ x = C.hash C.height) ∨
      (ref = some (.hash x) ∧ d.blockNumberOfHash x = some n) := by
  rcases Indexer.resolve_hash hresolve with ⟨htext, hn⟩ | ⟨s, htext, hparse, hn⟩ | hlookup
  · left
    rw [h.headNumber, Option.getD_some] at hn
    exact ⟨hn, (hexParser.feltHex_inj (Option.some.inj (h.headHash.symm.trans htext))).symm⟩
  · left
    rw [h.headNumber, Option.getD_some] at hn
    rw [← Option.some.inj (h.headHash.symm.trans htext), P.fromHex_feltHex] at hparse
    exact ⟨hn, (Option.some.inj hparse).symm⟩
  · exact Or.inr hlookup

theorem Database.knows_of_number {x : Felt} {n : Nat} (h : d.blockNumberOfHash x = some n) :
    d.Knows x := by
  unfold Database.blockNumberOfHash at h
  cases hrow : d.rowOfHash x with
  | some e =>
      left
      rw [hrow]
      rfl
  | none =>
      rw [hrow] at h
      obtain ⟨s, hs, -⟩ := Option.map_eq_some_iff.mp h
      right
      rw [hs]
      rfl

/-- A live hash is looked up at its height on the chain. -/
theorem Synced.blockNumberOfHash (h : Synced C d) {x : Felt} {n : Nat}
    (hn : d.blockNumberOfHash x = some n) (hx : d.isCanonical x = true) :
    n ≤ C.height ∧ x = C.hash n := by
  have hlt := C.height_lt
  have hat : ∀ k : Int, C.Has k x → n = toU64 k → n ≤ C.height ∧ x = C.hash n := by
    rintro k ⟨m, hm, rfl, hhash⟩ hnk
    have hnm : n = m := by
      rw [hnk]
      unfold toU64
      omega
    subst hnm
    exact ⟨hm, hhash⟩
  unfold Database.blockNumberOfHash at hn
  unfold Database.isCanonical at hx
  cases hrow : d.rowOfHash x with
  | some e =>
      rw [hrow] at hn
      obtain ⟨hget, rfl⟩ := Database.rowOfHash_some hrow
      exact hat e.1 (h.holds e.1 e.2 hget) (Option.some.inj hn).symm
  | none =>
      rw [hrow] at hn hx
      obtain ⟨s, hs, hns⟩ := Option.map_eq_some_iff.mp hn
      rw [if_neg (by simp), hs] at hx
      exact hat s.number (h.seen x s hs (by simpa using hx)) hns.symm

/-- **A block reference that was handed out and is still accepted is on the chain.** The
mirror gave it after a cycle that ended; it passes the reorg gate after another one, with
any number of safe cycles in between, on any chains and cut off anywhere. -/
theorem lastKnown_on_chain {h₀ h₁ h₂ h₃ : Host} {B : Chain L} (hrun : SafeRun L P cfg chunkSize h₀)
    (hfirst : EndsOn P cfg chunkSize B h₀ h₁) {ref : Option BlockId} {n : Nat} {x : Felt}
    (hgiven : resolve P h₁.database ref = .ok (n, .hash x))
    (hlater : Later L P cfg chunkSize h₁ h₂) (hlast : EndsOn P cfg chunkSize C h₂ h₃)
    (hgate : checkLastKnown h₃.database (some x) = .ok ()) :
    ∃ m, m ≤ C.height ∧ x = C.hash m := by
  obtain ⟨⟨hvouching₁, -⟩, hsynced₁, hhead⟩ := hfirst.synced (safeRun_vouching hrun B)
  have hknown : h₁.database.Knows x := by
    rcases hsynced₁.resolve_hash hgiven with ⟨-, rfl⟩ | ⟨-, hlookup⟩
    · exact hhead
    · exact Database.knows_of_number hlookup
  obtain ⟨hvouching₂, hremembers⟩ := later_remembers hvouching₁ hlater
  obtain ⟨⟨-, hremembers'⟩, hsynced, -⟩ := hlast.synced hvouching₂
  refine hsynced.canonical (hremembers' x (hremembers x hknown)) ?_
  unfold checkLastKnown at hgate
  simp only at hgate
  split at hgate
  · assumption
  · cases hgate

/-- **What an admitted request is bound by.** It names the contract that is mirrored. After a
cycle that ended, the block that it reads at is the one of the chain whose hash it reports;
unless it named the hash itself and the mirror knows it as reorged. -/
theorem gated_on_chain {h h' : Host} (hrun : SafeRun L P cfg chunkSize h)
    (hends : EndsOn P cfg chunkSize C h h') {contract : Felt} {lastKnown : Option Felt}
    {ref : Option BlockId} {n : Nat} {id : BlockId}
    (hgated : gatedSnapshot P h'.database cfg.pool contract lastKnown ref = .ok (n, id)) :
    contract = cfg.pool ∧ ∀ x, id = .hash x → n ≤ C.height ∧ x = C.hash n ∨
      ref = some (.hash x) ∧ h'.database.isCanonical x = false := by
  obtain ⟨-, hsynced, -⟩ := hends.synced (safeRun_vouching hrun C)
  obtain ⟨_, -, hgated⟩ := Result.bind_eq_ok.mp hgated
  obtain ⟨pinned, hsnapshot, hgated⟩ := Result.bind_eq_ok.mp hgated
  obtain ⟨_, -, hgated⟩ := Result.bind_eq_ok.mp hgated
  cases hgated
  unfold snapshotFor at hsnapshot
  rw [Result.ite_error_eq_ok, not_not] at hsnapshot
  obtain ⟨hpool, hsnapshot⟩ := hsnapshot
  refine ⟨hpool, ?_⟩
  rintro x rfl
  split at hsnapshot
  · rename_i hresolve
    cases hsnapshot
    rcases hsynced.resolve_hash hresolve with ⟨rfl, rfl⟩ | ⟨href, hlookup⟩
    · exact Or.inl ⟨le_refl _, rfl⟩
    · cases hx : h'.database.isCanonical x with
      | true => exact Or.inl (hsynced.blockNumberOfHash hlookup hx)
      | false => exact Or.inr ⟨href, rfl⟩
  · cases hsnapshot

end

/-! ## A chain that grew by one block -/

def shorter : Chain Chain.digits := Chain.short 2 1 [1] Chain.two_lt_ten Chain.one_lt_ten

def firstCycle : EStateM.Result Failure Host CycleOutcome :=
  runCycle hexParser (shorter.served poolAtOne.pool) poolAtOne 1024 { freshHost with budget := 100 }

def secondCycle : EStateM.Result Failure Host CycleOutcome :=
  runCycle hexParser (afterFork.served poolAtOne.pool) poolAtOne 1024
    { Effect.final firstCycle with budget := 100 }

/-- Both cycles end; the reference given after the first is accepted after the second. -/
theorem secondCycle_gated : Effect.returns firstCycle = true ∧ Effect.returns secondCycle = true ∧
    (resolve hexParser (Effect.final firstCycle).database none).toOption =
      some (1, .hash (shorter.hash 1)) ∧
    (gatedSnapshot hexParser (Effect.final secondCycle).database poolAtOne.pool poolAtOne.pool
      (some (shorter.hash 1)) none).toOption = some (2, .hash (afterFork.hash 2)) := by
  decide +kernel

theorem eq_ok_of_toOption {ε α : Type} {x : Except ε α} {a : α} (h : x.toOption = some a) :
    x = .ok a := by
  cases x with
  | error e => cases h
  | ok b => rw [Option.some.inj h]

theorem freshHost_run : SafeRun Chain.digits hexParser poolAtOne 1024 freshHost := SafeRun.fresh rfl

theorem firstCycle_endsOn :
    EndsOn hexParser poolAtOne 1024 shorter freshHost (Effect.final firstCycle) := by
  cases hrun : firstCycle with
  | error e h =>
      have hreturns := secondCycle_gated.1
      rw [hrun] at hreturns
      cases hreturns
  | ok o h =>
      refine ⟨_, 100, o, Chain.served_truthful _ _ _, Chain.served_atTip _, Or.inl fun k r hr => ?_, hrun⟩
      simp [freshHost, Database.new] at hr

theorem secondCycle_endsOn : EndsOn hexParser poolAtOne 1024 afterFork (Effect.final firstCycle)
    (Effect.final secondCycle) := by
  cases hrun : secondCycle with
  | error e h =>
      have hreturns := secondCycle_gated.2.1
      rw [hrun] at hreturns
      cases hreturns
  | ok o h =>
      refine ⟨_, 100, o, Chain.served_truthful _ _ _, Chain.served_atTip _, Or.inl fun k r hr => ?_, hrun⟩
      -- rows of the shorter chain are rows of the longer one
      obtain ⟨-, hsynced, -⟩ := firstCycle_endsOn.synced (safeRun_vouching freshHost_run shorter)
      obtain ⟨m, hm, hkey, hhash⟩ := hsynced.holds k r hr
      exact ⟨m, hm.trans (by decide), hkey, hhash⟩

theorem lastKnown_on_chain_grown : ∃ m, m ≤ afterFork.height ∧ shorter.hash 1 = afterFork.hash m := by
  obtain ⟨-, -, hgiven, hgated⟩ := secondCycle_gated
  obtain ⟨_, hgate, -⟩ := Result.bind_eq_ok.mp (eq_ok_of_toOption hgated)
  exact lastKnown_on_chain freshHost_run firstCycle_endsOn (eq_ok_of_toOption hgiven)
    Later.refl secondCycle_endsOn hgate

theorem gated_on_chain_grown :
    gatedSnapshot hexParser (Effect.final secondCycle).database poolAtOne.pool poolAtOne.pool
      (some (shorter.hash 1)) none = .ok (2, .hash (afterFork.hash 2)) ∧ 2 ≤ afterFork.height := by
  have hgated := eq_ok_of_toOption secondCycle_gated.2.2.2
  have hrun : SafeRun Chain.digits hexParser poolAtOne 1024 (Effect.final firstCycle) :=
    SafeRun.cycle 100 freshHost_run (Chain.served_truthful _ _ _) (Chain.served_atTip _)
      (Or.inl fun k r hr => by simp [freshHost, Database.new] at hr)
  refine ⟨hgated, ?_⟩
  rcases (gated_on_chain hrun secondCycle_endsOn hgated).2 _ rfl with hon | ⟨href, -⟩
  · exact hon.1
  · cases href

end Strk20.Indexer
