import Strk20.Indexer.Canonical

/-!
# What a cycle leaves alone (`ingest.rs`, `db.rs`)

No truth is asked of the endpoints here but that a block hash stands for one height and
one parent. Then a cycle, wherever it stops, touches no row at or below the end of the
last epoch: its rollback goes down to there at most, what it stores lies above the
frontier, and a new block displaces no row of another height.
-/

namespace Strk20.Indexer

open Feed Tables
open Effect (Triple lift)
open Consumer (toI64 toU64 toI64_of_lt)
open Std (ExtTreeMap)

/-! ## Hashes that name heights -/

/-- A header with the height and the parent that its hash commits to. -/
structure Named (L : Ledger) (P : FeltParser) (h : BlockHeader) : Prop where
  height : h.blockNumber + 1 < 2 ^ 63
  hash : ∀ f, parseFelt P h.blockHash = .ok f → L.number f = h.blockNumber
  parent : 0 < h.blockNumber → ∀ f p, parseFelt P h.blockHash = .ok f →
    parseFelt P h.parentHash = .ok p → p = L.parent f

/-- Endpoints that keep to what block hashes commit to. Which block they name for a
height may change from one answer to the next, and everything else they may answer as
they like. -/
structure Names (L : Ledger) (P : FeltParser) (rpc : RpcClient) : Prop where
  header : ∀ t ref h, rpc.getBlock t ref = .ok h → Named L P h
  data : ∀ t ref data, rpc.getBlockData t ref = .ok (some data) → Named L P data.header

/-- A header of a chain has the height and the parent that its hash commits to. -/
theorem Chain.Describes.named {L : Ledger} {C : Chain L} {P : FeltParser} {h : BlockHeader}
    (hdescribes : C.Describes P h) (hroom : C.height + 1 < 2 ^ 63) : Named L P h := by
  have hheight := hdescribes.height
  constructor
  · omega
  · intro f hf
    rw [hdescribes.hash] at hf
    cases hf
    exact C.number_hash _ hheight
  · intro hpos f p hf hp
    rw [hdescribes.hash] at hf
    rw [hdescribes.parent hpos] at hp
    cases hf
    cases hp
    have hparent := C.parent_hash (h.blockNumber - 1) (by omega)
    rw [Nat.sub_add_cancel hpos] at hparent
    exact hparent.symm

theorem Chain.Truthful.names {L : Ledger} {C : Chain L} {P : FeltParser} {cfg : ChainConfig}
    {chunkSize : Nat} {rpc : RpcClient} (htruthful : C.Truthful P cfg chunkSize rpc)
    (hroom : C.height + 1 < 2 ^ 63) : Names L P rpc where
  header := fun t ref h ht => (htruthful.header t ref h ht).named hroom
  data := fun t ref data ht => (htruthful.dataHeader t ref data ht).named hroom

/-! ## Rows up to a height -/

/-- What a published line takes from a block row. -/
def BlockRec.facts (r : BlockRec) : Felt × Felt × Int := (r.hash, r.parentHash, r.timestamp)

/-- The frontier, 0 before the first scan. -/
def Database.frontier (d : Database) : Int := d.ingestCursor.getD 0

/-- The row of a block, under the height and with the parent that its hash commits to. -/
structure Ledger.Numbers (L : Ledger) (k : Int) (r : BlockRec) : Prop where
  height : (L.number r.hash : Int) = k
  height_lt : k + 1 < 2 ^ 63
  parent : 0 < k → r.parentHash = L.parent r.hash

def Database.NumberedBy (L : Ledger) (d : Database) : Prop :=
  ∀ (k : Int) (r : BlockRec), d.blocks[k]? = some r → L.Numbers k r

/-- Metas that ingest writes or clears. -/
def INGEST_KEYS : List String :=
  ["storage_revision", "anchor_probe_frontier", "decode_state", "degraded_since_block",
    "l1_accepted_number", L1_REJECTED_META, "head_number", "head_hash"]

/-- Rows up to `n` and everything published are as in `d₀`; the frontier is at `m` or
above, and the final height has not gone down. -/
structure Kept (L : Ledger) (n m : Int) (d₀ d : Database) : Prop where
  blocks : ∀ k : Int, k ≤ n → (d.blocks[k]?).map BlockRec.facts = (d₀.blocks[k]?).map BlockRec.facts
  storage : ∀ (slot : Felt) (k : Int), k ≤ n → d.storageLog[(slot, k)]? = d₀.storageLog[(slot, k)]?
  events : ∀ k i : Int, k ≤ n → d.eventRec k i = d₀.eventRec k i
  classes : ∀ k : Int, k ≤ n → d.classHistory[k]? = d₀.classHistory[k]?
  epochs : d.epochs = d₀.epochs
  snapshots : d.snapshots = d₀.snapshots
  anchors : ∀ (k : Int) (r : AnchorRec), d.anchors[k]? = some r → d₀.anchors[k]? = some r
  metas : ∀ key, key ∉ INGEST_KEYS → d.metaGet key = d₀.metaGet key
  frontier : 0 ≤ d.frontier ∧ m ≤ d.frontier ∧ d.frontier + 1 < 2 ^ 63
  final : d₀.finalUpto ≤ d.finalUpto
  numbered : d.NumberedBy L
  linked : d.Linked

theorem ne_of_ingestKey {key key' : String} (hkey : key ∈ INGEST_KEYS) (hkey' : key' ∉ INGEST_KEYS) :
    key' ≠ key := by
  rintro rfl
  exact hkey' hkey

/-! ## Published snapshots and anchors -/

/-- Snapshots and anchors are the same. -/
def SameProofs (d d' : Database) : Prop := d'.snapshots = d.snapshots ∧ d'.anchors = d.anchors

theorem sameProofs_iterate_fire (k : Nat) (d : Database) :
    SameProofs d (Nat.iterate Database.fire k d) := by
  induction k generalizing d with
  | zero => exact ⟨rfl, rfl⟩
  | succ k ih => exact ih d.fire

theorem snapshots_rollbackAbove (d : Database) (ancestor : Nat) :
    (d.rollbackAbove ancestor).snapshots = d.snapshots :=
  (sameProofs_iterate_fire _ ((d.tombstone ancestor).clearBlocks _)).1

/-- A rollback takes anchors away. -/
theorem anchors_rollbackAbove {d : Database} {ancestor : Nat} {k : Int} {r : AnchorRec}
    (h : (d.rollbackAbove ancestor).anchors[k]? = some r) : d.anchors[k]? = some r := by
  have hsame : ((d.tombstone ancestor).deleteBlocks fun n _ => toI64 ancestor < n).anchors = d.anchors :=
    (sameProofs_iterate_fire _ ((d.tombstone ancestor).clearBlocks _)).2
  have hfilter : (((d.tombstone ancestor).deleteBlocks fun n _ => toI64 ancestor < n).anchors.filter
      fun n _ => !(toI64 ancestor < n : Bool))[k]? = some r := h
  rw [hsame, getElem?_filter_key d.anchors fun n => !(toI64 ancestor < n : Bool)] at hfilter
  split at hfilter
  · exact hfilter
  · cases hfilter

theorem sameProofs_insertDiffs (block : Nat) (diffs : List (Felt × Felt)) (d : Database) :
    SameProofs d (diffs.foldl (Database.insertDiff block) d) := by
  induction diffs generalizing d with
  | nil => exact ⟨rfl, rfl⟩
  | cons w diffs ih => exact ih (Database.insertDiff block d w)

theorem sameProofs_insertBlockData {d d' : Database} {block : BlockRow}
    {diffs : List (Felt × Felt)} {events : List EventRow} {cls : Option Felt} {frontier : Nat}
    (h : d.insertBlockData block diffs events cls frontier = .ok d') : SameProofs d d' := by
  unfold Database.insertBlockData at h
  simp only at h
  split at h
  · cases h
  · rename_i filled hfilled
    obtain ⟨t, rfl⟩ := Database.insertEvents_rest hfilled
    rw [Database.insertClass_eq] at h
    cases h
    obtain ⟨hsnapshots, hanchors⟩ := sameProofs_insertDiffs block.number diffs (d.insertBlock block)
    obtain ⟨hsnapshots', hanchors'⟩ := sameProofs_iterate_fire
      (d.cascaded fun n r => n == toI64 block.number || r.hash == block.hash)
      (d.clearBlocks fun n r => n == toI64 block.number || r.hash == block.hash)
    exact ⟨hsnapshots.trans hsnapshots', hanchors.trans hanchors'⟩

namespace Kept

variable {L : Ledger} {n m : Int} {d₀ d d' : Database}

theorem start (hfrontier : 0 ≤ d.frontier ∧ m ≤ d.frontier ∧ d.frontier + 1 < 2 ^ 63)
    (hd : d.NumberedBy L) (hlinked : d.Linked) : Kept L n m d d :=
  ⟨fun _ _ => rfl, fun _ _ _ => rfl, fun _ _ _ => rfl, fun _ _ => rfl, rfl, rfl, fun _ _ h => h,
    fun _ _ => rfl, hfrontier, le_refl _, hd, hlinked⟩

theorem trans {d₁ : Database} (h : Kept L n m d₀ d₁) (h' : Kept L n m d₁ d) :
    Kept L n m d₀ d where
  blocks := fun k hk => (h'.blocks k hk).trans (h.blocks k hk)
  storage := fun slot k hk => (h'.storage slot k hk).trans (h.storage slot k hk)
  events := fun k i hk => (h'.events k i hk).trans (h.events k i hk)
  classes := fun k hk => (h'.classes k hk).trans (h.classes k hk)
  epochs := h'.epochs.trans h.epochs
  snapshots := h'.snapshots.trans h.snapshots
  anchors := fun k r hr => h.anchors k r (h'.anchors k r hr)
  metas := fun key hkey => (h'.metas key hkey).trans (h.metas key hkey)
  frontier := h'.frontier
  final := le_trans h.final h'.final
  numbered := h'.numbered
  linked := h'.linked

/-! ### Writes -/

theorem metas_metaSet (h : Kept L n m d₀ d) {key : String} (value : String) (hkey : key ∈ INGEST_KEYS)
    (key' : String) (hkey' : key' ∉ INGEST_KEYS) :
    (d.metaSet key value).metaGet key' = d₀.metaGet key' := by
  rw [metaGet_metaSet, if_neg (ne_of_ingestKey hkey hkey')]
  exact h.metas key' hkey'

theorem metaSet (h : Kept L n m d₀ d) {key : String} (value : String) (hkey : key ∈ INGEST_KEYS)
    (hne : key ≠ "l1_accepted_number") : Kept L n m d₀ (d.metaSet key value) := by
  refine ⟨h.blocks, h.storage, h.events, h.classes, h.epochs, h.snapshots, h.anchors,
    h.metas_metaSet value hkey, h.frontier, ?_, h.numbered, h.linked.storage, h.linked.events⟩
  have hsame : (d.metaSet key value).finalUpto = d.finalUpto := by
    unfold Database.finalUpto Database.metaU64
    rw [metaGet_metaSet, if_neg hne.symm]
  rw [hsame]
  exact h.final

theorem finalize (h : Kept L n m d₀ d) {p : Nat} (hp : d.finalUpto ≤ p) (hlt : p < 2 ^ 63) :
    Kept L n m d₀ (d.metaSet "l1_accepted_number" p.repr) := by
  refine ⟨h.blocks, h.storage, h.events, h.classes, h.epochs, h.snapshots, h.anchors,
    h.metas_metaSet _ (by decide), h.frontier, ?_, h.numbered, h.linked.storage, h.linked.events⟩
  have hnew : (d.metaSet "l1_accepted_number" p.repr).finalUpto = p := by
    unfold Database.finalUpto
    rw [metaU64_metaSet_self d _ (by omega), Option.getD_some]
  rw [hnew]
  exact le_trans h.final hp

theorem promoteL1 (h : Kept L n m d₀ d) (upto : Nat) : Kept L n m d₀ (d.promoteL1 upto) := by
  have hrow : ∀ k : Int, ((d.promoteL1 upto).blocks[k]?).map BlockRec.facts =
      (d.blocks[k]?).map BlockRec.facts := by
    intro k
    unfold Database.promoteL1
    rw [ExtTreeMap.getElem?_map]
    cases d.blocks[k]? with
    | none => rw [Option.map_none]
    | some r =>
        rw [Option.map_some, Option.map_some, Option.map_some, Option.some_inj]
        split
        · rfl
        · rfl
  have hsome : ∀ k : Int, ((d.promoteL1 upto).blocks[k]?).isSome = (d.blocks[k]?).isSome := by
    intro k
    have heq := congrArg Option.isSome (hrow k)
    rwa [Option.isSome_map, Option.isSome_map] at heq
  refine ⟨fun k hk => (hrow k).trans (h.blocks k hk), h.storage, h.events, h.classes, h.epochs,
    h.snapshots, h.anchors, h.metas, h.frontier, h.final, fun k r hr => ?_, ⟨fun slot k hs => ?_, fun k i hs => ?_⟩⟩
  rotate_left
  · rw [hsome]
    exact h.linked.storage slot k hs
  · rw [hsome]
    exact h.linked.events k i hs
  have hfacts := hrow k
  rw [hr, Option.map_some] at hfacts
  obtain ⟨r₀, hr₀, heq⟩ := Option.map_eq_some_iff.mp hfacts.symm
  have hhash : r₀.hash = r.hash := congrArg Prod.fst heq
  have hparent : r₀.parentHash = r.parentHash := congrArg (fun x => x.2.1) heq
  have hnumbers := h.numbered k r₀ hr₀
  refine ⟨hhash ▸ hnumbers.height, hnumbers.height_lt, fun hk => ?_⟩
  rw [← hparent, ← hhash]
  exact hnumbers.parent hk

theorem recordSeenHead (h : Kept L n m d₀ d) (hash : Felt) (number : Nat) :
    Kept L n m d₀ (d.recordSeenHead hash number) :=
  ⟨h.blocks, h.storage, h.events, h.classes, h.epochs, h.snapshots, h.anchors, h.metas, h.frontier, h.final,
    h.numbered, h.linked.storage, h.linked.events⟩

theorem setIngestCursor (h : Kept L n m d₀ d) {f : Nat} (hm : m ≤ f) (hlt : f + 1 < 2 ^ 63) :
    Kept L n m d₀ (d.setIngestCursor f) := by
  refine ⟨h.blocks, h.storage, h.events, h.classes, h.epochs, h.snapshots, h.anchors, h.metas, ?_, h.final,
    h.numbered, h.linked.storage, h.linked.events⟩
  have hcursor : (d.setIngestCursor f).frontier = f := by
    unfold Database.frontier Database.setIngestCursor
    rw [Option.getD_some, toI64_of_lt (by omega)]
  rw [hcursor]
  omega

/-- Rows that a deletion spares keep what refers to them. -/
theorem slot_clearBlocks {p : Int → BlockRec → Bool} {k : Int} (hk : d.selects p k = false)
    (slot : Felt) : (d.clearBlocks p).storageLog[(slot, k)]? = d.storageLog[(slot, k)]? := by
  show (d.storageLog.filter fun key _ => !d.selects p key.2)[(slot, k)]? = _
  rw [getElem?_filter_key d.storageLog fun key => !d.selects p key.2]
  simp [hk]

theorem event_clearBlocks {p : Int → BlockRec → Bool} {k : Int} (hk : d.selects p k = false)
    (i : Int) : (d.clearBlocks p).eventRec k i = d.eventRec k i := by
  show (d.events.filter fun key _ => !d.selects p key.1)[(k, i)]? = d.events[(k, i)]?
  rw [getElem?_filter_key d.events fun key => !d.selects p key.1]
  simp [hk]

theorem blocks_clearBlocks {p : Int → BlockRec → Bool} {k : Int} (hk : d.selects p k = false) :
    (d.clearBlocks p).blocks[k]? = d.blocks[k]? := by
  rw [Database.getElem?_clearBlocks]
  unfold Database.selects at hk
  cases hr : d.blocks[k]? with
  | none => rfl
  | some r =>
      rw [hr] at hk
      simp [Option.filter, hk]

theorem rollbackAbove (h : Kept L n m d₀ d) {ancestor : Nat} (hn : n ≤ ancestor)
    (hm : m ≤ ancestor) (hlt : ancestor < 2 ^ 63) : Kept L n m d₀ (d.rollbackAbove ancestor) := by
  have hkey : toI64 ancestor = ancestor := toI64_of_lt hlt
  have hdelete := Database.sameBut_deleteBlocks (d.tombstone ancestor) fun k _ => toI64 ancestor < k
  -- the delete triggers spare blocks up to the ancestor
  have hspared : ∀ k : Int, k ≤ ancestor →
      (d.tombstone ancestor).selects (fun k _ => decide (toI64 ancestor < k)) k = false := by
    intro k hk
    unfold Database.selects
    split
    · rw [hkey]
      exact decide_eq_false (by omega)
    · rfl
  refine ⟨fun k hk => ?_, fun slot k hk => ?_, fun k i hk => ?_, fun k hk => ?_, ?_, ?_,
    fun k r hr => h.anchors k r (anchors_rollbackAbove hr), fun key hkeys => ?_, ?_, ?_, fun k r hr => ?_,
    (Database.rollbackAbove_rolledBack h.linked ancestor).linked⟩
  · rw [getElem?_rollbackAbove, hkey, if_pos (by omega)]
    exact h.blocks k hk
  · have hslot : (d.rollbackAbove ancestor).storageLog[(slot, k)]? =
        ((d.tombstone ancestor).clearBlocks fun k _ => toI64 ancestor < k).storageLog[(slot, k)]? := by
      rw [← hdelete.storageLog]
      rfl
    rw [hslot, slot_clearBlocks (hspared k (by omega))]
    exact h.storage slot k hk
  · have hevent : (d.rollbackAbove ancestor).eventRec k i =
        ((d.tombstone ancestor).clearBlocks fun k _ => toI64 ancestor < k).eventRec k i := by
      unfold Database.eventRec
      rw [← hdelete.events]
      rfl
    rw [hevent, event_clearBlocks (hspared k (by omega))]
    exact h.events k i hk
  · have hclass : (d.rollbackAbove ancestor).classHistory = d.classHistory := hdelete.classHistory
    rw [hclass]
    exact h.classes k hk
  · exact (epochs_rollbackAbove d ancestor).trans h.epochs
  · exact (snapshots_rollbackAbove d ancestor).trans h.snapshots
  · rw [metaGet_rollbackAbove d ancestor (ne_of_ingestKey (by decide) hkeys)
      (ne_of_ingestKey (by decide) hkeys)]
    exact h.metas key hkeys
  · have hfrontier := h.frontier
    have hcursor := ingestCursor_rollbackAbove d ancestor
    rw [hkey] at hcursor
    unfold Database.frontier at hfrontier ⊢
    rw [hcursor]
    cases hc : d.ingestCursor with
    | none =>
        rw [hc] at hfrontier
        exact hfrontier
    | some f =>
        rw [hc] at hfrontier
        simp only [Option.getD_some, Option.map_some] at hfrontier ⊢
        omega
  · have hfinal : (d.rollbackAbove ancestor).finalUpto = d.finalUpto := by
      unfold Database.finalUpto Database.metaU64
      rw [metaGet_rollbackAbove d ancestor (by decide) (by decide)]
    rw [hfinal]
    exact h.final
  · rw [getElem?_rollbackAbove] at hr
    split at hr
    · exact h.numbered k r hr
    · cases hr

/-- A block above both marks goes in. -/
theorem insertBlockData (h : Kept L n m d₀ d) {row : BlockRow} {diffs : List (Felt × Felt)}
    {events : List EventRow} {cls : Option Felt} (hown : ∀ e ∈ events, e.block = row.number)
    (hn : n < row.number) (hlt : row.number + 1 < 2 ^ 63) (hname : L.number row.hash = row.number)
    (hparent : 0 < row.number → row.parentHash = L.parent row.hash)
    (hinsert : d.insertBlockData row diffs events cls row.number = .ok d') :
    Kept L n m d₀ d' := by
  have hkey : toI64 row.number = row.number := toI64_of_lt (by omega)
  obtain ⟨d'', hok, hstored⟩ := Database.insertBlockData_stored d ⟨row, diffs, events, cls, row.number, hown⟩
  have hsame : d'' = d' := Except.ok.inj (hok.symm.trans hinsert)
  subst hsame
  obtain ⟨-, hcursor, -, hepochs, hmetas⟩ := Database.insertBlockData_rest hinsert
  -- rows of other heights have other hashes
  have hspared : ∀ k : Int, k ≠ row.number →
      d.selects (Database.replaces ⟨row, diffs, events, cls, row.number, hown⟩) k = false := by
    intro k hk
    unfold Database.selects
    split
    · rename_i r hr
      have hnumber := (h.numbered k r hr).height
      have hne : r.hash ≠ row.hash := by
        intro heq
        rw [heq, hname] at hnumber
        exact hk hnumber.symm
      show (k == toI64 row.number || r.hash == row.hash) = false
      rw [hkey, beq_false_of_ne hk, beq_false_of_ne hne]
      rfl
    · rfl
  have hbkey : (⟨row, diffs, events, cls, row.number, hown⟩ : BlockInsert).key = row.number := hkey
  refine ⟨fun k hk => ?_, fun slot k hk => ?_, fun k i hk => ?_, fun k hk => ?_,
    hepochs.trans h.epochs, (sameProofs_insertBlockData hinsert).1.trans h.snapshots,
    fun k r hr => h.anchors k r ((sameProofs_insertBlockData hinsert).2 ▸ hr), fun key hkeys => ?_, ?_, ?_, fun k r hr => ?_, hstored.linked h.linked⟩
  · rw [hstored.getElem?_of_ne (by rw [hbkey]; omega), blocks_clearBlocks (hspared k (by omega))]
    exact h.blocks k hk
  · rw [hstored.slot_eq, if_neg (by rw [hbkey]; omega), slot_clearBlocks (hspared k (by omega))]
    exact h.storage slot k hk
  · rw [hstored.event_eq, if_neg (by rw [hbkey]; omega), event_clearBlocks (hspared k (by omega))]
    exact h.events k i hk
  · rw [hstored.classHistory, getElem?_insertAll_of_not_mem]
    · exact h.classes k hk
    · intro hmem
      obtain ⟨e, he, rfl⟩ := List.mem_map.mp hmem
      rw [Option.mem_toList, BlockInsert.classRow, Option.map_eq_some_iff] at he
      obtain ⟨c, -, rfl⟩ := he
      rw [hbkey] at hk
      omega
  · rw [hmetas key (ne_of_ingestKey (by decide) hkeys)]
    exact h.metas key hkeys
  · have hfrontier := h.frontier
    unfold Database.frontier at hfrontier ⊢
    rw [hcursor, hkey]
    cases hc : d.ingestCursor with
    | none =>
        rw [hc] at hfrontier
        simp only [Option.getD_none, Option.getD_some] at hfrontier ⊢
        omega
    | some f =>
        rw [hc] at hfrontier
        simp only [Option.getD_some] at hfrontier ⊢
        omega
  · have hfinal : d''.finalUpto = d.finalUpto := by
      unfold Database.finalUpto Database.metaU64
      rw [hmetas _ (by decide)]
    rw [hfinal]
    exact h.final
  · by_cases hk : k = row.number
    · have hrow := hstored.getElem?_key
      rw [hbkey, ← hk, hr] at hrow
      rw [Option.some.inj hrow]
      refine ⟨?_, by omega, fun hpos => hparent (by omega)⟩
      show (L.number row.hash : Int) = k
      rw [hname, hk]
    · rw [hstored.getElem?_of_ne (by rw [hbkey]; exact hk), blocks_clearBlocks (hspared k hk)] at hr
      exact h.numbered k r hr

end Kept

/-! ## Phases of a cycle -/

section

variable {L : Ledger} {n m : Int} {d₀ : Database}
variable {P : FeltParser} {rpc : RpcClient} {cfg : ChainConfig} {chunkSize : Nat}

/-- `Kept`, whatever was passed. -/
def Keeps (L : Ledger) (n m : Int) (d₀ : Database) : Database → List Nat → Prop :=
  fun d _ => Kept L n m d₀ d

theorem noteStable_keeps : NoteStable (Keeps L n m d₀) := by
  intro d p key value hkey h
  rcases hkey with rfl | rfl
  · exact h.metaSet value (by decide) (by decide)
  · exact h.metaSet value (by decide) (by decide)

theorem storeBlock_keeps {number : Nat} {header : BlockHeader} (hheader : Named L P header)
    (hn : n < number) (update : StateUpdate) (events : Option (List RpcEvent)) :
    Triple (On (Keeps L n m d₀)) (storeBlock P rpc cfg chunkSize number header update events)
      (fun _ => On (Keeps L n m d₀)) (On (Keeps L n m d₀)) := by
  refine storeBlock_rule noteStable_keeps
    (fun d d' p row diffs rows replaced hnumber hrow hown hd hinsert => ?_) update events
  unfold blockRow at hrow
  obtain ⟨hash, hhash, hrow⟩ := Result.bind_eq_ok.mp hrow
  obtain ⟨parent, hparent, hrow⟩ := Result.bind_eq_ok.mp hrow
  cases hrow
  have hheight := hheader.height
  have hlinks := hheader.parent
  rw [hnumber] at hheight hlinks
  exact hd.insertBlockData hown hn hheight ((hheader.hash hash hhash).trans hnumber)
    (fun hpos => hlinks hpos hash parent hhash hparent) hinsert

theorem ingestBlock_keeps (hnames : Names L P rpc) {number : Nat} (hn : n < number)
    (events : Option (List RpcEvent)) :
    Triple (On (Keeps L n m d₀)) (ingestBlock P rpc cfg chunkSize number events)
      (fun _ => On (Keeps L n m d₀)) (On (Keeps L n m d₀)) := by
  unfold ingestBlock
  refine ask_then (fun _ h => h) ?_
  rintro header ⟨t, ht⟩
  refine ask_then (fun _ h => h) fun update _ => ?_
  exact storeBlock_keeps (hnames.header t _ header ht) hn update events

/-- Repairs of blocks above `n`, in any order. -/
theorem reingestBlocks_keeps (hnames : Names L P rpc) {blocks : List Nat}
    (hn : ∀ number ∈ blocks, n < (number : Nat)) :
    Triple (On (Keeps L n m d₀)) (reingestBlocks P rpc cfg chunkSize blocks)
      (fun _ => On (Keeps L n m d₀)) (On (Keeps L n m d₀)) :=
  Triple.forM fun number hnumber => ingestBlock_keeps hnames (hn number hnumber) none

theorem rescanRange_keeps (hnames : Names L P rpc) {first : Nat} (hn : n < first) (last : Nat) :
    Triple (On (Keeps L n m d₀)) (rescanRange P rpc cfg chunkSize first last)
      (fun _ => On (Keeps L n m d₀)) (On (Keeps L n m d₀)) := by
  refine Triple.forM fun number hnumber => ?_
  have hfirst := (List.mem_range'_1.mp hnumber).1
  unfold rescanBlock
  refine ask_then (fun _ h => h) fun update _ => ?_
  refine Triple.ite (fun _ => ?_) fun _ => Triple.pure fun _ h => h
  refine ask_then (fun _ h => h) ?_
  rintro header ⟨t, ht⟩
  exact storeBlock_keeps (hnames.header t _ header ht) (by omega) update none

/-! ### The tail -/

theorem scan_keeps {Q : Database → List Nat → Prop} (first last : Nat) :
    Triple (On Q) (scanActiveBlocks rpc chunkSize first last) (fun _ => On Q) (On Q) := by
  intro h hQ
  cases hrun : scanActiveBlocks rpc chunkSize first last h with
  | ok active h' =>
      obtain ⟨-, -, -, k, rfl, -⟩ := scanActiveBlocks_used hrun
      exact hQ
  | error e h' =>
      obtain ⟨k, -, rfl, -⟩ := scanActiveBlocks_failed hrun
      exact hQ

theorem tailReads_keeps {Q : Database → List Nat → Prop} (first : Nat) (rpcLast : Option Nat) :
    Triple (On Q) (tailReads rpc chunkSize first rpcLast) (fun _ => On Q) (On Q) := by
  unfold tailReads
  cases rpcLast.filter fun n => first ≤ n with
  | none => exact Triple.pure fun _ h => h
  | some last =>
      refine Triple.bind (scan_keeps first last) fun active => ?_
      refine Triple.bind (Triple.mapM_mem fun number _ => ?_) fun updates => Triple.pure fun _ h => h
      exact (ask_triple _).weaken (fun _ h => h) fun _ _ h => h.2

theorem tailBlock_keeps (hnames : Names L P rpc) {latest : BlockHeader} (hlatest : Named L P latest)
    {number : Nat} (hn : n < number) (events : ExtTreeMap Nat (List RpcEvent)) (update : StateUpdate) :
    Triple (On (Keeps L n m d₀)) (tailBlock P rpc cfg chunkSize latest events number update)
      (fun _ => On (Keeps L n m d₀)) (On (Keeps L n m d₀)) := by
  unfold tailBlock
  simp only
  refine Triple.ite (fun _ => ?_) fun _ => ?_
  · have hheader : Triple (On (Keeps L n m d₀)) (tailHeader rpc latest number)
        (fun header h => Named L P header ∧ On (Keeps L n m d₀) h) (On (Keeps L n m d₀)) := by
      unfold tailHeader
      refine Triple.ite (fun _ => Triple.pure fun _ h => ⟨hlatest, h⟩) fun _ => ?_
      refine (ask_triple _).weaken (fun _ h => h) ?_
      rintro header h ⟨⟨t, ht⟩, hQ⟩
      exact ⟨hnames.header t _ header ht, hQ⟩
    refine Triple.bind hheader fun header => Triple.of_and fun hnamed => ?_
    refine Triple.bind (storeBlock_keeps hnamed hn update _) fun _ => ?_
    exact Triple.bind (pass_triple fun d p h => h) fun _ => Triple.pure fun _ h => h
  · exact Triple.bind (pass_triple fun d p h => h) fun _ => Triple.pure fun _ h => h

theorem tailBatch_keeps (hnames : Names L P rpc) {latest : BlockHeader} (hlatest : Named L P latest)
    {first : Nat} (hn : n < first) (hfirst : first ≤ latest.blockNumber)
    (supplied : Option BlockData) :
    Triple (On (Keeps L n n d₀)) (tailBatch P rpc cfg chunkSize latest supplied first)
      (fun _ => On (Keeps L n n d₀)) (On (Keeps L n n d₀)) := by
  have hheight := hlatest.height
  unfold tailBatch
  simp only
  refine Triple.bind (tailReads_keeps first _) fun r => ?_
  obtain ⟨active, updates⟩ := r
  refine Triple.bind (Triple.mapM_mem fun e he => ?_) fun counts => ?_
  · have hmem : e.1 ∈ List.range' first (min (first + 7) latest.blockNumber + 1 - first) :=
      (List.of_mem_zip he).1
    obtain ⟨i, -, hi⟩ := List.mem_range'.mp hmem
    exact tailBlock_keeps hnames hlatest (by omega) _ _
  · refine write_then (fun _ h => h) (fun d p h => ?_) (Triple.pure fun _ h => h)
    exact h.setIngestCursor (by omega) (by omega)

theorem ingestTail_keeps (hnames : Names L P rpc) {latest : BlockHeader} (hlatest : Named L P latest)
    {first : Nat} (hn : n < first) (supplied : Option BlockData) :
    Triple (On (Keeps L n n d₀)) (ingestTail P rpc cfg chunkSize first latest supplied)
      (fun _ => On (Keeps L n n d₀)) (On (Keeps L n n d₀)) := by
  unfold ingestTail
  refine Triple.bind (Triple.mapM_mem fun start hstart => ?_) fun counts => Triple.pure fun _ h => h
  obtain ⟨i, hi, rfl⟩ := List.mem_range'.mp hstart
  exact tailBatch_keeps hnames hlatest (by omega) (by omega) supplied

/-! ### Segments -/

/-- A scan returns blocks of its range only, whatever the pages hold. -/
theorem mem_active_of_tiles {last requested cursor : Nat} {ws : List Window}
    (htiles : Tiles rpc last requested cursor ws) {e : Nat × List RpcEvent}
    (he : e ∈ (gather ∅ ws).toList) : cursor ≤ e.1 ∧ e.1 ≤ last := by
  have hrange : ∀ (cursor : Nat) (ws : List Window), Tiles rpc last requested cursor ws →
      ∀ w ∈ ws, cursor ≤ w.first ∧ w.last ≤ last := by
    intro cursor ws
    induction ws generalizing cursor with
    | nil => exact fun _ w hw => absurd hw List.not_mem_nil
    | cons w ws ih =>
        rintro ⟨rfl, hle, hlast, -, -, hrest⟩ w' hw'
        rcases List.mem_cons.mp hw' with rfl | hw'
        · exact ⟨le_refl _, hlast⟩
        · have := ih _ hrest w' hw'
          omega
  rw [ExtTreeMap.mem_toList_iff_getElem?_eq_some (k := e.1) (v := e.2),
    groups_gather ws groups_empty e.1] at he
  simp only [List.nil_append] at he
  split at he
  · cases he
  · rename_i hne
    obtain ⟨ev, hev⟩ := List.exists_mem_of_ne_nil _ hne
    obtain ⟨w, hw, hev⟩ := List.mem_flatMap.mp hev
    have hblock := of_decide_eq_true (List.mem_filter.mp hev).2
    have hwindow := hrange cursor ws htiles w hw
    unfold Scan.blockIn at hblock
    split at hblock
    · cases hblock
    · split at hblock
      · cases hblock
      · have := Option.some.inj hblock
        omega

theorem scan_range {Q : Database → List Nat → Prop} (first last : Nat) :
    Triple (On Q) (scanActiveBlocks rpc chunkSize first last)
      (fun active h => (∀ e ∈ active, first ≤ e.1 ∧ e.1 ≤ last) ∧ On Q h) (On Q) := by
  intro h hQ
  cases hrun : scanActiveBlocks rpc chunkSize first last h with
  | ok active h' =>
      obtain ⟨ws, htiles, rfl, k, rfl, -⟩ := scanActiveBlocks_used hrun
      exact ⟨fun e he => mem_active_of_tiles htiles he, hQ⟩
  | error e h' =>
      obtain ⟨k, -, rfl, -⟩ := scanActiveBlocks_failed hrun
      exact hQ

theorem ingestActive_keeps (hnames : Names L P rpc) {active : List (Nat × List RpcEvent)}
    (hactive : ∀ e ∈ active, n < e.1 ∧ e.1 + 1 < 2 ^ 63) :
    Triple (On (Keeps L n n d₀)) (ingestActive P rpc cfg chunkSize active)
      (fun _ => On (Keeps L n n d₀)) (On (Keeps L n n d₀)) := by
  unfold ingestActive
  refine Triple.forM fun e he => ?_
  obtain ⟨hn, hlt⟩ := hactive e he
  refine Triple.bind (ingestBlock_keeps hnames hn _) fun _ => ?_
  exact write_triple fun d p h => h.setIngestCursor (by omega) hlt

theorem ingestSegment_keeps (hnames : Names L P rpc) {latest first : Nat} (hn : n < first)
    (hfirst : first ≤ latest) (hlatest : latest + 1 < 2 ^ 63) :
    Triple (On (Keeps L n n d₀)) (ingestSegment P rpc cfg chunkSize latest first)
      (fun _ => On (Keeps L n n d₀)) (On (Keeps L n n d₀)) := by
  unfold ingestSegment
  simp only
  refine Triple.bind (scan_range first _) fun active => Triple.of_and fun hactive => ?_
  refine Triple.bind (ingestActive_keeps hnames fun e he => ?_) fun _ => ?_
  · have := hactive e he
    omega
  · refine write_then (fun _ h => h) (fun d p h => ?_) (Triple.pure fun _ h => h)
    exact h.setIngestCursor (by omega) (by omega)

theorem ingestSegments_keeps (hnames : Names L P rpc) {latest first : Nat} (hn : n < first)
    (hlatest : latest + 1 < 2 ^ 63) :
    Triple (On (Keeps L n n d₀)) (ingestSegments P rpc cfg chunkSize first latest)
      (fun _ => On (Keeps L n n d₀)) (On (Keeps L n n d₀)) := by
  unfold ingestSegments
  refine Triple.bind (Triple.mapM_mem fun start hstart => ?_) fun counts => Triple.pure fun _ h => h
  obtain ⟨i, hi, rfl⟩ := List.mem_range'.mp hstart
  unfold SCAN_SEGMENT MAX_SCAN_WINDOW at hi ⊢
  exact ingestSegment_keeps hnames (by omega) (by omega) hlatest

/-! ### The cycle -/

theorem le_scanFrontier {d : Database} (h : Kept L n n d₀ d) (hn : -1 ≤ n) :
    n < (scanFrontier cfg d + 1 : Nat) := by
  obtain ⟨-, hlow, hhigh⟩ := h.frontier
  unfold Database.frontier at hlow hhigh
  unfold scanFrontier Database.cursor
  cases hc : d.ingestCursor with
  | none =>
      rw [hc, Option.getD_none] at hlow hhigh
      rw [Option.map_none]
      simp only
      omega
  | some f =>
      rw [hc, Option.getD_some] at hlow hhigh
      rw [Option.map_some]
      simp only [toU64]
      omega

theorem ingestUpTo_keeps (hnames : Names L P rpc) {latest : BlockHeader} (hlatest : Named L P latest)
    (hn : -1 ≤ n) (supplied : Option BlockData) :
    Triple (On (Keeps L n n d₀)) (ingestUpTo P rpc cfg chunkSize latest supplied)
      (fun _ => On (Keeps L n n d₀)) (On (Keeps L n n d₀)) := by
  have hheight := hlatest.height
  refine on_fixed fun d p hd => ?_
  have hstart : ∀ h, On (Is d p) h → On (Keeps L n n d₀) h := by
    rintro h ⟨hh, -⟩
    show Kept L n n d₀ h.database
    rw [hh]
    exact hd
  unfold ingestUpTo
  refine readDb_then ?_
  simp only [id]
  have hfirst : n < (scanFrontier cfg d + 1 : Nat) := le_scanFrontier hd hn
  refine Triple.ite (fun _ => ?_) fun _ => ?_
  · exact (ingestTail_keeps hnames hlatest hfirst supplied).weaken hstart fun _ _ h => h
  · exact (ingestSegments_keeps hnames hfirst (by omega)).weaken hstart fun _ _ h => h

theorem findBlock_keeps {Q : Database → List Nat → Prop} (number : Nat) :
    Triple (On Q) (findBlock rpc number) (fun _ => On Q) (On Q) :=
  (findBlock_triple number).weaken (fun _ h => h) fun _ _ h => h.2

theorem headGone_keeps {Q : Database → List Nat → Prop} (head : Nat) (stored : String) :
    Triple (On Q) (headGone P rpc head stored) (fun _ => On Q) (On Q) := by
  unfold headGone
  refine Triple.bind (findBlock_keeps head) fun found => ?_
  cases found with
  | none => exact Triple.pure fun _ h => h
  | some header => exact lift_then (fun _ h => h) fun s _ => Triple.pure fun _ h => h

/-- The walk over stored rows ends at one of them or at the floor. -/
theorem walkback_ends {Q : Database → List Nat → Prop} (finalUpto floor : Nat) :
    ∀ rows : List BlockRow, Triple (On Q) (walkback P rpc finalUpto floor rows)
      (fun ancestor h => (ancestor = floor ∨ ∃ b ∈ rows, b.number = ancestor) ∧ On Q h) (On Q)
  | [] => Triple.pure fun _ h => ⟨Or.inl rfl, h⟩
  | b :: rows => by
      have hrest : Triple (On Q) (walkback P rpc finalUpto floor rows)
          (fun ancestor h => (ancestor = floor ∨ ∃ r ∈ b :: rows, r.number = ancestor) ∧ On Q h)
          (On Q) := by
        refine (walkback_ends finalUpto floor rows).weaken (fun _ h => h) ?_
        rintro ancestor h ⟨hfloor | ⟨r, hr, hnumber⟩, hQ⟩
        · exact ⟨Or.inl hfloor, hQ⟩
        · exact ⟨Or.inr ⟨r, List.mem_cons_of_mem b hr, hnumber⟩, hQ⟩
      have hhere : ∀ h, On Q h →
          (b.number = floor ∨ ∃ r ∈ b :: rows, r.number = b.number) ∧ On Q h :=
        fun h hQ => ⟨Or.inr ⟨b, List.mem_cons_self, rfl⟩, hQ⟩
      unfold walkback
      refine Triple.ite (fun _ => Triple.pure hhere) fun _ => ?_
      refine Triple.bind (findBlock_keeps b.number) fun found => ?_
      cases found with
      | none => exact hrest
      | some header =>
          refine lift_then (fun _ h => h) fun f _ => ?_
          exact Triple.ite (fun _ => Triple.pure hhere) fun _ => hrest

/-- What a rollback may go down to. -/
def Above (d : Database) (reorg : Option Nat) : Prop :=
  ∀ ancestor, reorg = some ancestor → d.epochFloor ≤ ancestor ∧ ancestor < 2 ^ 63

theorem above_none (d : Database) : Above d none := by
  rintro ancestor heq
  cases heq

theorem above_of_row {d : Database} (hd : d.NumberedBy L) (hfloor : d.epochFloor + 1 < 2 ^ 63)
    {head : Nat} {b : BlockRow} (hb : b ∈ d.blocksInRange (d.epochFloor + 1) head) :
    d.epochFloor ≤ b.number ∧ b.number < 2 ^ 63 := by
  unfold Database.blocksInRange at hb
  obtain ⟨e, he, rfl⟩ := List.mem_map.mp hb
  obtain ⟨he, hrange⟩ := List.mem_filter.mp he
  rw [decide_eq_true_eq, toI64_of_lt hfloor] at hrange
  have hrow := (hd e.1 e.2 (ExtTreeMap.mem_toList_iff_getElem?_eq_some.mp he)).height_lt
  unfold Database.rowToBlock
  simp only [toU64]
  omega

theorem detectReorg_above (announced : Option BlockHeader) {d₀ : Database} {p₀ : List Nat}
    (hd : d₀.NumberedBy L) (hfloor : d₀.epochFloor + 1 < 2 ^ 63) :
    Triple (On (Is d₀ p₀)) (detectReorg P rpc announced)
      (fun r h => Above d₀ r ∧ On (Is d₀ p₀) h) (On (Is d₀ p₀)) := by
  unfold detectReorg
  refine readDb_then ?_
  simp only [id]
  cases d₀.metaU64 "head_number" with
  | none => exact Triple.pure fun _ h => ⟨above_none d₀, h⟩
  | some head =>
      cases d₀.metaGet "head_hash" with
      | none => exact Triple.pure fun _ h => ⟨above_none d₀, h⟩
      | some stored =>
          simp only
          refine Triple.ite (fun _ => Triple.pure fun _ h => ⟨above_none d₀, h⟩) fun _ => ?_
          refine Triple.bind (headGone_keeps head stored) fun gone => ?_
          refine Triple.ite (fun _ => Triple.pure fun _ h => ⟨above_none d₀, h⟩) fun _ => ?_
          refine Triple.bind (walkback_ends _ _ _) fun ancestor => Triple.of_and fun hends => ?_
          refine Triple.pure fun _ h => ⟨?_, h⟩
          rintro a heq
          cases heq
          rcases hends with rfl | ⟨b, hb, rfl⟩
          · exact ⟨le_refl _, by omega⟩
          · exact above_of_row hd hfloor (List.mem_reverse.mp hb)

theorem acquireHead_named (hnames : Names L P rpc) {Q : Database → List Nat → Prop}
    (target : BlockRef) :
    Triple (On Q) (acquireHead rpc target) (fun r h => Named L P r.1 ∧ On Q h) (On Q) := by
  unfold acquireHead
  refine ask_then (fun _ h => h) ?_
  rintro found ⟨t, ht⟩
  have hask : ∀ ref, Triple (On Q)
      ((ask fun t => rpc.getBlock t ref) >>= fun header => pure (header, (none : Option BlockData)))
      (fun r h => Named L P r.1 ∧ On Q h) (On Q) := by
    intro ref
    refine ask_then (fun _ h => h) ?_
    rintro header ⟨t', ht'⟩
    exact Triple.pure fun _ h => ⟨hnames.header t' ref header ht', h⟩
  cases found with
  | some data => exact Triple.pure fun _ h => ⟨hnames.data t target data ht, h⟩
  | none =>
      cases target with
      | number n =>
          refine Triple.bind (findBlock_triple n) fun found => Triple.of_and fun hfound => ?_
          cases found with
          | none => exact hask .latest
          | some header =>
              obtain ⟨t', ht'⟩ := hfound header rfl
              refine ensure_then (fun _ h => h) fun _ => ?_
              exact Triple.pure fun _ h => ⟨hnames.header t' _ header ht', h⟩
      | latest => exact hask .latest
      | l1Accepted => exact hask .l1Accepted

theorem checkAnnounced_keeps {Q : Database → List Nat → Prop} (announced : Option BlockHeader)
    (latest : BlockHeader) :
    Triple (On Q) (checkAnnounced P announced latest) (fun _ => On Q) (On Q) := by
  unfold checkAnnounced
  split
  · exact Triple.pure fun _ h => h
  · refine lift_then (fun _ h => h) fun hash _ => lift_then (fun _ h => h) fun latestHash _ => ?_
    refine ensure_then (fun _ h => h) fun _ => ?_
    refine lift_then (fun _ h => h) fun parent _ => lift_then (fun _ h => h) fun latestParent _ => ?_
    refine ensure_then (fun _ h => h) fun _ => ?_
    refine lift_then (fun _ h => h) fun root _ => lift_then (fun _ h => h) fun latestRoot _ => ?_
    exact ensure_triple.weaken (fun _ h => h) fun _ _ h => h.2

/-- An accepted height is not below the one before. -/
theorem finalUpto_le_of_accepted {l1 : BlockHeader} {head : Nat} {d : Database}
    (h : l1AnswerRejection l1 head (d.metaU64 "l1_accepted_number") cfg.genesisBlock = none) :
    d.finalUpto ≤ l1.blockNumber := by
  unfold Database.finalUpto
  unfold l1AnswerRejection at h
  cases hp : d.metaU64 "l1_accepted_number" with
  | none => exact Nat.zero_le _
  | some p =>
      rw [hp] at h
      rw [Option.getD_some]
      by_contra hlt
      have hlower : (some p).filter (fun q => decide (l1.blockNumber < q)) = some p :=
        Option.filter_some_pos (by simpa using hlt)
      simp only [hlower] at h
      split at h
      · cases h
      · split at h
        · cases h
        · cases h

/-- What a cycle reports as final is on record. -/
theorem pollFinality_keeps {l1 : BlockHeader} (hl1 : Named L P l1) (latest : BlockHeader) :
    Triple (On (Keeps L n m d₀)) (pollFinality cfg l1 latest)
      (fun r => On fun d _ => Kept L n m d₀ d ∧ r.getD 0 ≤ d.finalUpto)
      (On (Keeps L n m d₀)) := by
  have hheight := hl1.height
  refine on_fixed fun d p hd => ?_
  have hstart : ∀ h, On (Is d p) h → On (Keeps L n m d₀) h := by
    rintro h ⟨hh, -⟩
    show Kept L n m d₀ h.database
    rw [hh]
    exact hd
  unfold pollFinality
  refine readDb_then ?_
  simp only [id]
  cases hanswer : l1AnswerRejection l1 latest.blockNumber (d.metaU64 "l1_accepted_number")
      cfg.genesisBlock with
  | none =>
      have hle := finalUpto_le_of_accepted hanswer
      refine write_then (R := fun d' _ => Kept L n m d₀ d' ∧ d'.finalUpto = d.finalUpto) hstart ?_ ?_
      · rintro d' p' ⟨rfl, rfl⟩
        exact ⟨hd.promoteL1 _, rfl⟩
      · refine write_then (R := fun d' _ => Kept L n m d₀ d' ∧ d'.finalUpto = l1.blockNumber)
          (fun _ h => h.1) ?_ ?_
        · rintro d' p' ⟨hd', hsame⟩
          refine ⟨hd'.finalize (by omega) (by omega), ?_⟩
          unfold Database.finalUpto
          rw [metaU64_metaSet_self d' _ (by omega), Option.getD_some]
        · exact Triple.pure fun _ h => ⟨h.1, h.2.ge⟩
  | some reason =>
      refine Triple.bind (M := fun _ => On fun d' _ => Kept L n m d₀ d' ∧ d.finalUpto ≤ d'.finalUpto)
        ?_ fun _ => Triple.pure fun _ h => h
      unfold bumpL1Rejections
      refine readDb_then ?_
      refine (write_triple ?_).relax hstart
      rintro d' p' ⟨rfl, rfl⟩
      have hkey : L1_REJECTED_META ∈ INGEST_KEYS := by decide
      have hkeep := (Kept.start hd.frontier hd.numbered hd.linked).metaSet (L := L) (n := n) (m := m)
        (min (((d'.metaU64 L1_REJECTED_META).getD 0) + 1) (2 ^ 64 - 1)).repr
        hkey (by decide)
      exact ⟨hd.trans hkeep, hkeep.final⟩

theorem rollBack_keeps {reorg : Option Nat}
    (habove : ∀ ancestor, reorg = some ancestor → n ≤ ancestor ∧ ancestor < 2 ^ 63) :
    Triple (On (Keeps L n n d₀)) (rollBack reorg) (fun _ => On (Keeps L n n d₀))
      (On (Keeps L n n d₀)) := by
  unfold rollBack
  cases reorg with
  | none => exact Triple.pure fun _ h => h
  | some ancestor =>
      obtain ⟨hn, hlt⟩ := habove ancestor rfl
      refine write_then (R := Keeps L n n d₀) (fun _ h => h)
        (fun d p h => h.rollbackAbove hn hn hlt) ?_
      exact unpass_triple fun d p h => h

theorem recordHead_keeps (latest : BlockHeader) (hash : String) (finalHeight : Option Nat) :
    Triple (On (Keeps L n m d₀)) (recordHead P latest hash finalHeight)
      (fun _ => On (Keeps L n m d₀)) (On (Keeps L n m d₀)) := by
  unfold recordHead
  have hmeta : ∀ (key value : String), key ∈ INGEST_KEYS → key ≠ "l1_accepted_number" →
      ∀ d p, Keeps L n m d₀ d p → Keeps L n m d₀ (d.metaSet key value) p :=
    fun key value hkey hne d p h => h.metaSet value hkey hne
  refine write_then (fun _ h => h) (hmeta "head_number" _ (by decide) (by decide)) ?_
  refine write_then (fun _ h => h) (hmeta "head_hash" _ (by decide) (by decide)) ?_
  refine lift_then (fun _ h => h) fun f _ => ?_
  refine write_then (R := Keeps L n m d₀) (fun _ h => h) (fun d p h => h.recordSeenHead _ _) ?_
  cases finalHeight with
  | none => exact Triple.pure fun _ h => h
  | some height => exact write_triple fun d p h => h.promoteL1 height

/-- Last block of the last epoch, or below every block. -/
def Database.settledUpto (d : Database) : Int :=
  match d.lastEpoch with
  | some (_, _, last) => last
  | none => -1

theorem Database.settledUpto_le (d : Database) : d.settledUpto ≤ d.epochFloor := by
  unfold Database.settledUpto Database.epochFloor
  cases d.lastEpoch with
  | none => exact (by decide : (-1 : Int) ≤ 0)
  | some e => exact le_refl _

theorem Database.le_settledUpto (d : Database) : -1 ≤ d.settledUpto := by
  unfold Database.settledUpto
  cases d.lastEpoch with
  | none => exact le_refl _
  | some e =>
      simp only
      omega

/-- A cycle may start: the frontier is not below the last epoch, and rows are under the
heights that their hashes name. -/
structure Steady (L : Ledger) (d : Database) : Prop where
  frontier : 0 ≤ d.frontier ∧ d.settledUpto ≤ d.frontier ∧ d.frontier + 1 < 2 ^ 63
  numbered : d.NumberedBy L
  linked : d.Linked

theorem Steady.floor {d : Database} (h : Steady L d) : d.epochFloor + 1 < 2 ^ 63 := by
  obtain ⟨-, hlow, hhigh⟩ := h.frontier
  unfold Database.settledUpto at hlow
  unfold Database.epochFloor
  cases hlast : d.lastEpoch with
  | none => exact (by norm_num : 0 + 1 < 2 ^ 63)
  | some e =>
      rw [hlast] at hlow
      simp only at hlow ⊢
      omega

/-- **A cycle and the published range.** Whatever is announced and whatever the endpoints
say, a cycle leaves every row up to the last epoch and every published row as it is,
wherever it stops. If it returns, the height it reports is on record as final. -/
theorem runCycleBound_keeps (hnames : Names L P rpc) (target : BlockRef)
    (announced : Option BlockHeader) (hd₀ : Steady L d₀) {p₀ : List Nat} :
    Triple (On (Is d₀ p₀)) (runCycleBound P rpc cfg chunkSize target announced)
      (fun o => On fun d _ => Kept L d₀.settledUpto d₀.settledUpto d₀ d ∧
        o.l1Accepted ≤ d.finalUpto)
      (On (Keeps L d₀.settledUpto d₀.settledUpto d₀)) := by
  have hstart : ∀ h, On (Is d₀ p₀) h → On (Keeps L d₀.settledUpto d₀.settledUpto d₀) h := by
    rintro h ⟨hh, -⟩
    show Kept L d₀.settledUpto d₀.settledUpto d₀ h.database
    rw [hh]
    exact Kept.start hd₀.frontier hd₀.numbered hd₀.linked
  have hdetect : ∀ announced, Triple (On (Is d₀ p₀)) (detectReorg P rpc announced)
      (fun r h => Above d₀ r ∧ On (Is d₀ p₀) h) (On (Is d₀ p₀)) :=
    fun announced => detectReorg_above announced hd₀.numbered hd₀.floor
  unfold runCycleBound
  refine Triple.bind ((acquireHead_named hnames target).relax hstart) fun r => ?_
  obtain ⟨latest, supplied⟩ := r
  refine Triple.of_and fun hlatest => ?_
  refine ask_then hstart ?_
  rintro l1 ⟨t, hl1⟩
  have hfound : Triple (On (Is d₀ p₀)) (announcedReorg P rpc announced)
      (fun r h => Above d₀ r ∧ On (Is d₀ p₀) h) (On (Is d₀ p₀)) := by
    unfold announcedReorg
    cases announced with
    | none => exact Triple.pure fun _ h => ⟨above_none d₀, h⟩
    | some head => exact hdetect (some head)
  refine Triple.bind (hfound.relax hstart) fun found => Triple.of_and fun hdecided => ?_
  refine Triple.bind ((checkAnnounced_keeps announced latest).relax hstart) fun _ => ?_
  have hreorg : Triple (On (Is d₀ p₀)) (cycleReorg P rpc announced latest found)
      (fun r h => Above d₀ r ∧ On (Is d₀ p₀) h) (On (Is d₀ p₀)) := by
    unfold cycleReorg
    cases announced with
    | none => exact hdetect (some latest)
    | some head => exact Triple.pure fun _ h => ⟨hdecided, h⟩
  refine Triple.bind (hreorg.relax hstart) fun reorg => Triple.of_and fun habove => ?_
  have hcheck : Triple (On (Is d₀ p₀)) (checkHead latest reorg) (fun _ => On (Is d₀ p₀))
      (On (Is d₀ p₀)) := by
    unfold checkHead
    refine readDb_then ?_
    exact ensure_triple.weaken (fun _ h => h) fun _ _ h => h.2
  refine Triple.bind (hcheck.relax hstart) fun _ => ?_
  refine Triple.bind ((pollFinality_keeps (hnames.header t _ l1 hl1) latest).weaken hstart
    fun _ _ h => h) fun finalHeight => ?_
  refine on_fixed fun d₁ p₁ h₁ => ?_
  obtain ⟨h₁, hfinal⟩ := h₁
  -- from here on against the database with finality noted
  have hfrom : ∀ h, On (Is d₁ p₁) h → On (Keeps L d₀.settledUpto d₀.settledUpto d₁) h := by
    rintro h ⟨hh, -⟩
    show Kept L d₀.settledUpto d₀.settledUpto d₁ h.database
    rw [hh]
    exact Kept.start h₁.frontier h₁.numbered h₁.linked
  have hback : ∀ h, On (Keeps L d₀.settledUpto d₀.settledUpto d₁) h →
      On (Keeps L d₀.settledUpto d₀.settledUpto d₀) h := fun h hk => h₁.trans hk
  refine readDb_then (lift_then (fun h hh => hback h (hfrom h hh)) fun latestHash _ => ?_)
  refine Triple.entails hfrom ?_
  refine Triple.bind ((rollBack_keeps fun ancestor heq => ?_).relax hback) fun _ => ?_
  · obtain ⟨hlow, hhigh⟩ := habove ancestor heq
    have := d₀.settledUpto_le
    exact ⟨by omega, hhigh⟩
  refine Triple.bind ((ingestUpTo_keeps hnames hlatest d₀.le_settledUpto supplied).relax hback)
    fun ingested => ?_
  refine Triple.bind ((recordHead_keeps latest latestHash finalHeight).relax hback) fun _ => ?_
  exact Triple.pure fun h hk => ⟨h₁.trans hk, le_trans hfinal hk.final⟩

end

end Strk20.Indexer
