import Strk20.Feed.TrieCache
import Strk20.Indexer.Db

/-!
# Root cache of a connection (`Db::storage_root_at`)

Every connection keeps the last root with its height and the revision it was
read at, and the incremental trie. The cached root is reused when the revision
stands and no row lies between the two heights. Connections come and go, and any
of them may write.
-/

namespace Strk20.Indexer

open Feed Versioned Tables
open Consumer (toI64 toU64 toI64_of_lt)
open Consumer.FeedStore (castInteger castInteger_repr)
open Trie (CachedTrie)
open Std (ExtTreeMap)

/-- A connection: `root_cache` and `root_state`. -/
structure Db where
  rootCache : CachedTrie
  rootState : Option (Nat × Nat × Felt)

namespace Db

/-- The caches `Db::open` starts with. -/
def opened : Db := ⟨CachedTrie.default, none⟩

end Db

namespace Database

/-- `meta_get("storage_revision")?.map(|s| s.parse()).transpose()?.unwrap_or(0)`. -/
def revision (d : Database) : Except Failure Nat :=
  match d.metaGet "storage_revision" with
  | none => .ok 0
  | some text =>
      match Text.parseU64 text with
      | some n => .ok n
      | none => .error (.other "storage_revision is not a number")

/-- `EXISTS(SELECT 1 FROM storage_log WHERE block > ?1 AND block <= ?2)`. -/
def writtenBetween (d : Database) (low high : Nat) : Bool :=
  d.storageLog.toList.any fun e => decide (toI64 low < e.1.2 ∧ e.1.2 ≤ toI64 high)

end Database

section

variable (pedersen : Felt → Felt → Felt)

namespace Db

/-- The slot set is read and the trie brought to it. -/
def recompute (db : Db) (d : Database) (block revision : Nat) : Except Failure Felt × Db :=
  match db.rootCache.update pedersen (d.fullSlotSetAsOf block) with
  | (.error e, cache) => (.error (.feed e), { db with rootCache := cache })
  | (.ok root, cache) => (.ok root, ⟨cache, some (block, revision, root)⟩)

/-- `storage_root_at`: one read transaction. -/
def storageRootAt (db : Db) (d : Database) (block : Nat) : Except Failure Felt × Db :=
  match d.revision with
  | .error e => (.error e, db)
  | .ok revision =>
      match db.rootState with
      | none => db.recompute pedersen d block revision
      | some (height, previous, root) =>
          if revision ≠ previous ∨ d.writtenBetween (min height block) (max height block) then
            db.recompute pedersen d block revision
          else (.ok root, { db with rootState := some (block, revision, root) })

end Db

/-! ## Connections on one file -/

structure Session where
  database : Database
  conns : List Db

namespace Session

def new : Session := ⟨Database.new, []⟩

inductive Op where
  | connect
  | insertBlockData (block : BlockRow) (diffs : List (Felt × Felt)) (events : List EventRow)
      (replacedClass : Option Felt) (newFrontier : Nat)
  | rollbackAbove (ancestor : Nat)
  | storageRootAt (conn block : Nat)

/-- An operation on the file. A transaction that fails leaves nothing behind. -/
def Op.write (d : Database) : Op → Database
  | .insertBlockData block diffs events replacedClass newFrontier =>
      match d.insertBlockData block diffs events replacedClass newFrontier with
      | .ok d' => d'
      | .error _ => d
  | .rollbackAbove ancestor => d.rollbackAbove ancestor
  | _ => d

def exec (s : Session) : Op → Session
  | .connect => { s with conns := s.conns ++ [Db.opened] }
  | .storageRootAt conn block =>
      match s.conns[conn]? with
      | some db => { s with conns := s.conns.set conn (db.storageRootAt pedersen s.database block).2 }
      | none => s
  | op => { s with database := op.write s.database }

def run (ops : List Op) : Session := ops.foldl (exec pedersen) new

/-- Keys below `2^251`, heights below `2^63`. -/
def Op.Plain : Op → Prop
  | .insertBlockData _ diffs _ _ _ => ∀ w ∈ diffs, w.1.val < 2 ^ 251
  | .storageRootAt _ block => block < 2 ^ 63
  | _ => True

end Session

end

/-! ## Rows that come and go -/

open Database

/-- How often the storage triggers fire. -/
def Session.Op.firings (d : Database) : Session.Op → Nat
  | .insertBlockData block diffs events replacedClass newFrontier =>
      match d.insertBlockData block diffs events replacedClass newFrontier with
      | .ok _ => d.cascaded (fun n r => n == toI64 block.number || r.hash == block.hash) + diffs.length
      | .error _ => 0
  | .rollbackAbove ancestor => d.cascaded fun n _ => toI64 ancestor < n
  | _ => 0

/-- Over a whole run. -/
def Session.firings (pedersen : Felt → Felt → Felt) : Session → List Session.Op → Nat
  | _, [] => 0
  | s, op :: ops => op.firings s.database + Session.firings pedersen (s.exec pedersen op) ops

/-! ## The revision counts -/

namespace Database

/-- The revision row after `c` firings. -/
def Counted (d : Database) (c : Nat) : Prop :=
  d.metaGet "storage_revision" = if c = 0 then none else some c.repr

theorem metaGet_metaSet (d : Database) (key value other : String) :
    (d.metaSet key value).metaGet other = if other = key then some value else d.metaGet other :=
  getElem?_insert_eq d.metas key other value

theorem increment_repr {n : Nat} (h : n + 1 < 2 ^ 63) : increment n.repr = (n + 1).repr := by
  unfold increment
  rw [castInteger_repr (by omega), if_pos (by omega)]
  rfl

theorem Counted.fire {d : Database} {c : Nat} (h : d.Counted c) (hc : c + 1 < 2 ^ 63) :
    d.fire.Counted (c + 1) := by
  unfold Database.fire Counted
  rw [metaGet_metaSet, if_pos rfl, if_neg (Nat.succ_ne_zero c), h]
  by_cases hzero : c = 0
  · subst hzero
    rfl
  · rw [if_neg hzero]
    exact congrArg some (increment_repr hc)

theorem Counted.revision {d : Database} {c : Nat} (h : d.Counted c) (hc : c < 2 ^ 63) :
    d.revision = .ok c := by
  unfold Database.revision
  rw [h]
  by_cases hzero : c = 0
  · subst hzero
    rfl
  · rw [if_neg hzero]
    simp only [Text.parseU64_repr (by omega : c < 2 ^ 64)]

/-- Every stored slot is a trie key. -/
def Keyed (d : Database) : Prop :=
  ∀ (k : Felt) (n : Int), (d.storageLog[(k, n)]?).isSome → k.val < 2 ^ 251

/-- What a write says about the cache: `k` firings, which the revision shows,
and none only when no storage row moved. -/
structure Logged (d d' : Database) (k : Nat) : Prop where
  counted : ∀ c, c + k < 2 ^ 63 → d.Counted c → d'.Counted (c + k)
  same : k = 0 → d'.storageLog = d.storageLog
  keyed : d.Keyed → d'.Keyed

namespace Logged

variable {d d' d'' : Database} {j k : Nat}

theorem trans (h : Logged d d' j) (h' : Logged d' d'' k) : Logged d d'' (j + k) where
  counted c hc hd := by
    rw [← Nat.add_assoc]
    exact h'.counted (c + j) (by omega) (h.counted c (by omega) hd)
  same hjk := by
    rw [h'.same (by omega), h.same (by omega)]
  keyed hd := h'.keyed (h.keyed hd)

/-- A write to other tables and to other keys of `meta`. -/
theorem frame (hlog : d'.storageLog = d.storageLog)
    (hrev : d'.metaGet "storage_revision" = d.metaGet "storage_revision") : Logged d d' 0 where
  counted c _ hd := by
    unfold Counted at hd ⊢
    rw [hrev, hd]
    rfl
  same _ := hlog
  keyed hd := by
    unfold Keyed
    rw [hlog]
    exact hd

theorem fire (hkeyed : d.Keyed → d'.Keyed)
    (hrev : d'.metaGet "storage_revision" = d.metaGet "storage_revision") :
    Logged d d'.fire 1 where
  counted c hc hd := by
    have hd' : d'.Counted c := by
      unfold Counted at hd ⊢
      rw [hrev, hd]
    exact hd'.fire hc
  same h := absurd h (by decide)
  keyed := hkeyed

/-- Triggers that fire on a database touch nothing but the revision. -/
theorem iterate (hkeyed : d.Keyed → d'.Keyed) (hsame : k = 0 → d'.storageLog = d.storageLog)
    (hrev : d'.metaGet "storage_revision" = d.metaGet "storage_revision") :
    Logged d (Nat.iterate Database.fire k d') k := by
  induction k generalizing d d' with
  | zero =>
      have hlog := hsame rfl
      exact frame hlog hrev
  | succ k ih =>
      -- the first firing carries the change of the rows, the others nothing
      have hfirst : Logged d d'.fire 1 := fire hkeyed hrev
      have hrest : Logged d'.fire (Nat.iterate Database.fire k d'.fire) k :=
        ih (fun h => h) (fun _ => rfl) rfl
      have hboth := hfirst.trans hrest
      rw [Nat.add_comm] at hboth
      exact hboth

end Logged

/-- A cascade without rows changes none. -/
theorem clearBlocks_storageLog {d : Database} {p : Int → BlockRec → Bool}
    (hzero : d.cascaded p = 0) : (d.clearBlocks p).storageLog = d.storageLog := by
  refine ExtTreeMap.ext_getElem? fun k => ?_
  unfold clearBlocks
  rw [getElem?_filter_key d.storageLog fun k => !d.selects p k.2]
  have hempty : (d.storageLog.filter fun k _ => d.selects p k.2).isEmpty = true := by
    rw [ExtTreeMap.isEmpty_eq_size_beq_zero]
    exact beq_iff_eq.mpr hzero
  have hnone := (isEmpty_iff_getElem? _).mp hempty k
  rw [getElem?_filter_key d.storageLog fun k => d.selects p k.2] at hnone
  cases hs : d.selects p k.2 with
  | false => rfl
  | true =>
      rw [hs, if_pos rfl] at hnone
      rw [hnone]
      rfl

theorem keyed_clearBlocks {d : Database} (p : Int → BlockRec → Bool) (hd : d.Keyed) :
    (d.clearBlocks p).Keyed := by
  intro k n hsome
  unfold clearBlocks at hsome
  rw [getElem?_filter_key d.storageLog fun k => !d.selects p k.2] at hsome
  split at hsome
  · exact hd k n hsome
  · cases hsome

theorem logged_deleteBlocks (d : Database) (p : Int → BlockRec → Bool) :
    Logged d (d.deleteBlocks p) (d.cascaded p) := by
  unfold deleteBlocks
  exact Logged.iterate (keyed_clearBlocks p) clearBlocks_storageLog rfl

theorem logged_insertBlock (d : Database) (b : BlockRow) :
    Logged d (d.insertBlock b)
      (d.cascaded fun n r => n == toI64 b.number || r.hash == b.hash) := by
  have hrow : Logged (d.deleteBlocks fun n r => n == toI64 b.number || r.hash == b.hash)
      (d.insertBlock b) 0 := Logged.frame rfl rfl
  exact (logged_deleteBlocks d _).trans hrow

theorem logged_insertDiffs (block : Nat) (diffs : List (Felt × Felt))
    (hkeys : ∀ w ∈ diffs, w.1.val < 2 ^ 251) (d : Database) :
    Logged d (diffs.foldl (insertDiff block) d) diffs.length := by
  induction diffs generalizing d with
  | nil => exact Logged.frame rfl rfl
  | cons w diffs ih =>
      have hw : Logged d (insertDiff block d w) 1 := by
        refine Logged.fire ?_ rfl
        intro hd k n hsome
        rw [getElem?_insert_eq d.storageLog (w.1, toI64 block) (k, n)] at hsome
        split at hsome
        · rename_i hkey
          rw [(Prod.mk.inj hkey).1]
          exact hkeys w List.mem_cons_self
        · exact hd k n hsome
      have hrest := ih (fun v hv => hkeys v (List.mem_cons_of_mem _ hv)) (insertDiff block d w)
      rw [List.length_cons, Nat.add_comm]
      exact hw.trans hrest

theorem logged_insertEvents (events : List EventRow) {d d' : Database}
    (h : events.foldlM insertEvent d = .ok d') : Logged d d' 0 := by
  induction events generalizing d with
  | nil =>
      obtain rfl : d = d' := Except.ok.inj h
      exact Logged.frame rfl rfl
  | cons e events ih =>
      rw [List.foldlM_cons] at h
      obtain ⟨d₁, he, h⟩ := Result.bind_eq_ok.mp h
      have hfirst : Logged d d₁ 0 := by
        unfold insertEvent at he
        split at he
        · obtain rfl := Except.ok.inj he
          exact Logged.frame rfl rfl
        · cases he
      exact hfirst.trans (ih h)

theorem logged_insertBlockData {d d' : Database} {block : BlockRow} {diffs : List (Felt × Felt)}
    {events : List EventRow} {replacedClass : Option Felt} {newFrontier : Nat}
    (hkeys : ∀ w ∈ diffs, w.1.val < 2 ^ 251)
    (h : d.insertBlockData block diffs events replacedClass newFrontier = .ok d') :
    Logged d d' (d.cascaded (fun n r => n == toI64 block.number || r.hash == block.hash) +
      diffs.length) := by
  unfold insertBlockData at h
  simp only at h
  split at h
  · cases h
  · rename_i filled hevents
    obtain rfl := Except.ok.inj h
    have hrows := (logged_insertBlock d block).trans
      ((logged_insertDiffs block.number diffs hkeys _).trans (logged_insertEvents events hevents))
    have hrest : Logged filled
        ((filled.insertClass block.number replacedClass).advanceCursor newFrontier) 0 := by
      cases replacedClass <;> exact Logged.frame rfl rfl
    exact hrows.trans hrest

theorem logged_rewindMarkers (d : Database) (ancestor : Nat) :
    Logged d (d.rewindMarkers ancestor) 0 := by
  refine Logged.frame rfl ?_
  unfold rewindMarkers metaGet
  rw [getElem?_erase_eq, if_neg (by decide)]

theorem logged_rollbackAbove (d : Database) (ancestor : Nat) :
    Logged d (d.rollbackAbove ancestor) (d.cascaded fun n _ => toI64 ancestor < n) := by
  have htomb : Logged d (d.tombstone ancestor) 0 := Logged.frame rfl rfl
  have hdelete := logged_deleteBlocks (d.tombstone ancestor) fun n _ => toI64 ancestor < n
  have hall := htomb.trans (hdelete.trans (logged_rewindMarkers _ ancestor))
  rw [Nat.zero_add] at hall
  exact hall

/-! ## Slot sets -/

/-- Nothing written between two heights: both read the same. -/
theorem asOf_of_not_writtenBetween {d : Database} {m n : Nat} (hle : toI64 m ≤ toI64 n)
    (h : d.writtenBetween m n = false) (k : Felt) :
    asOf d.storageLog k (toI64 m) = asOf d.storageLog k (toI64 n) := by
  have hnone : ∀ i : Int, toI64 m < i → i ≤ toI64 n → d.storageLog[(k, i)]? = none := by
    intro i hlow hhigh
    by_contra hne
    obtain ⟨v, hv⟩ := Option.ne_none_iff_exists'.mp hne
    have hmem : ((k, i), v) ∈ d.storageLog.toList :=
      ExtTreeMap.mem_toList_iff_getElem?_eq_some.mpr hv
    unfold writtenBetween at h
    rw [List.any_eq_false] at h
    exact h _ hmem (decide_eq_true ⟨hlow, hhigh⟩)
  cases hn : asOf d.storageLog k (toI64 n) with
  | none =>
      rw [asOf_eq_none_iff] at hn ⊢
      intro i hi
      exact hn i (le_trans hi hle)
  | some e =>
      obtain ⟨v, b⟩ := e
      obtain ⟨hb, hv, hmax⟩ := asOf_eq_some_iff.mp hn
      have hbm : b ≤ toI64 m := by
        by_contra hgt
        rw [hnone b (not_le.mp hgt) hb] at hv
        cases hv
      exact asOf_eq_some_iff.mpr ⟨hbm, hv, fun i hi hsome => hmax i (le_trans hi hle) hsome⟩

theorem fullSlotSetAsOf_of_not_writtenBetween {d : Database} {m n : Nat}
    (hle : toI64 m ≤ toI64 n) (h : d.writtenBetween m n = false) :
    d.fullSlotSetAsOf m = d.fullSlotSetAsOf n := by
  unfold fullSlotSetAsOf latestRows
  simp only [asOf_of_not_writtenBetween hle h]

theorem slotSet_fullSlotSetAsOf {d : Database} (hd : d.Keyed) (block : Nat) :
    Mpt.SlotSet (d.fullSlotSetAsOf block) where
  isTrieKey e he := by
    unfold fullSlotSetAsOf at he
    obtain ⟨row, hrow, rfl⟩ := List.mem_map.mp (List.mem_filter.mp he).1
    obtain ⟨-, hv, -⟩ := asOf_eq_some_iff.mp (mem_latestRows.mp hrow)
    exact hd row.1.1 row.1.2 (by rw [hv]; rfl)
  nodup := by
    have hkeys : (((latestRows d.storageLog (toI64 block)).map fun e => (e.1.1, e.2)).map
        Prod.fst).Nodup := by
      rw [List.map_map, List.Nodup, List.pairwise_map]
      exact latestRows_keys d.storageLog (toI64 block)
    unfold fullSlotSetAsOf
    exact hkeys.sublist (List.Sublist.map _ (List.filter_sublist.trans List.filter_sublist))

end Database

/-! ## What a connection may trust -/

section

variable (pedersen : Felt → Felt → Felt)

/-- The cached root is the root of its height for as long as the revision is the
one it was read at. -/
structure Db.Current (db : Db) (d : Database) (c : Nat) : Prop where
  trie : CachedTrie.Valid pedersen db.rootCache
  state : ∀ height previous root, db.rootState = some (height, previous, root) →
    height < 2 ^ 63 ∧ previous ≤ c ∧
      (previous = c → root = Mpt.storageRoot pedersen (d.fullSlotSetAsOf height))

variable {pedersen}

theorem Db.current_opened (d : Database) (c : Nat) : Db.opened.Current pedersen d c where
  trie := CachedTrie.valid_default pedersen
  state height previous root h := by
    unfold Db.opened at h
    cases h

/-- A write through any connection leaves the caches of all to be trusted. -/
theorem Db.Current.write {db : Db} {d d' : Database} {c k : Nat} (h : db.Current pedersen d c)
    (hwrite : Logged d d' k) : db.Current pedersen d' (c + k) where
  trie := h.trie
  state height previous root hstate := by
    obtain ⟨hheight, hle, hroot⟩ := h.state height previous root hstate
    refine ⟨hheight, by omega, fun heq => ?_⟩
    -- an old revision that is still the current one: nothing has fired
    have hlog := hwrite.same (by omega)
    rw [hroot (by omega)]
    unfold fullSlotSetAsOf
    rw [hlog]

theorem Db.recompute_eq {db : Db} {d : Database} (h : CachedTrie.Valid pedersen db.rootCache)
    (hkeyed : d.Keyed) (block c : Nat) :
    ∃ cache, CachedTrie.Valid pedersen cache ∧ db.recompute pedersen d block c =
      (.ok (Mpt.storageRoot pedersen (d.fullSlotSetAsOf block)),
        ⟨cache, some (block, c, Mpt.storageRoot pedersen (d.fullSlotSetAsOf block))⟩) := by
  obtain ⟨hok, hvalid⟩ := CachedTrie.update_accepted h (slotSet_fullSlotSetAsOf hkeyed block)
  unfold Db.recompute
  generalize db.rootCache.update pedersen (d.fullSlotSetAsOf block) = updated at hok hvalid ⊢
  obtain ⟨result, cache⟩ := updated
  obtain rfl : result = .ok (Mpt.storageRoot pedersen (d.fullSlotSetAsOf block)) := hok
  exact ⟨cache, hvalid, rfl⟩

theorem Db.recompute_spec {db : Db} {d : Database} {c block : Nat} (h : db.Current pedersen d c)
    (hkeyed : d.Keyed) (hblock : block < 2 ^ 63) :
    (db.recompute pedersen d block c).1 =
        .ok (Mpt.storageRoot pedersen (d.fullSlotSetAsOf block)) ∧
      (db.recompute pedersen d block c).2.Current pedersen d c := by
  obtain ⟨cache, hvalid, heq⟩ := Db.recompute_eq h.trie hkeyed block c
  rw [heq]
  refine ⟨rfl, hvalid, fun height previous root hstate => ?_⟩
  obtain ⟨rfl, hrest⟩ := Prod.mk.inj (Option.some.inj hstate)
  obtain ⟨rfl, rfl⟩ := Prod.mk.inj hrest
  exact ⟨hblock, le_refl _, fun _ => rfl⟩

theorem Db.rootState_opened {d : Database} {c : Nat} (hrev : d.revision = .ok c)
    (hkeyed : d.Keyed) (block : Nat) :
    (Db.opened.storageRootAt pedersen d block).2.rootState =
      some (block, c, Mpt.storageRoot pedersen (d.fullSlotSetAsOf block)) := by
  have hvalid : CachedTrie.Valid pedersen Db.opened.rootCache := CachedTrie.valid_default pedersen
  obtain ⟨cache, -, heq⟩ := Db.recompute_eq hvalid hkeyed block c
  unfold Db.storageRootAt
  rw [hrev]
  show (Db.opened.recompute pedersen d block c).2.rootState = _
  rw [heq]

theorem Db.storageRootAt_spec {db : Db} {d : Database} {c block : Nat}
    (h : db.Current pedersen d c) (hcounted : d.Counted c) (hc : c < 2 ^ 63) (hkeyed : d.Keyed)
    (hblock : block < 2 ^ 63) :
    (db.storageRootAt pedersen d block).1 =
        .ok (Mpt.storageRoot pedersen (d.fullSlotSetAsOf block)) ∧
      (db.storageRootAt pedersen d block).2.Current pedersen d c := by
  unfold Db.storageRootAt
  rw [hcounted.revision hc]
  cases hstate : db.rootState with
  | none => exact Db.recompute_spec h hkeyed hblock
  | some cached =>
      obtain ⟨height, previous, root⟩ := cached
      obtain ⟨hheight, -, hroot⟩ := h.state height previous root hstate
      simp only
      split
      · exact Db.recompute_spec h hkeyed hblock
      · rename_i hunchanged
        rw [not_or, not_not, Bool.not_eq_true] at hunchanged
        obtain ⟨rfl, hgap⟩ := hunchanged
        have hsame : d.fullSlotSetAsOf height = d.fullSlotSetAsOf block := by
          rcases le_total height block with hle | hle
          · rw [min_eq_left hle, max_eq_right hle] at hgap
            refine fullSlotSetAsOf_of_not_writtenBetween ?_ hgap
            rw [toI64_of_lt hheight, toI64_of_lt hblock]
            exact_mod_cast hle
          · rw [min_eq_right hle, max_eq_left hle] at hgap
            refine (fullSlotSetAsOf_of_not_writtenBetween ?_ hgap).symm
            rw [toI64_of_lt hheight, toI64_of_lt hblock]
            exact_mod_cast hle
        rw [← hsame]
        refine ⟨congrArg Except.ok (hroot rfl), h.trie, ?_⟩
        intro height' previous' root' hnew
        obtain ⟨rfl, hrest⟩ := Prod.mk.inj (Option.some.inj hnew)
        obtain ⟨rfl, rfl⟩ := Prod.mk.inj hrest
        refine ⟨hblock, le_refl _, fun _ => ?_⟩
        rw [← hsame]
        exact hroot rfl

end

/-! ## Past the last revision -/

section Wrap

variable {pedersen : Felt → Felt → Felt}

def onlyBlock : BlockRow := ⟨1, 1, 0, 0, false⟩

/-- One block with one slot, and some revision text. -/
def onlySlot (text : String) (v : Felt) : Database :=
  { Database.new with
    metas := (∅ : ExtTreeMap String String).insert "storage_revision" text
    blocks := (∅ : ExtTreeMap Int BlockRec).insert 1 ⟨1, 0, 0, 0⟩
    storageLog := (∅ : Table Felt Int Felt).insert (1, 1) v
    ingestCursor := some 1 }

/-- Writing the slot of the block anew. -/
def rewrite (v : Felt) : Session.Op := .insertBlockData onlyBlock [(1, v)] [] none 1

theorem plain_rewrite (v : Felt) : (rewrite v).Plain := by
  intro w hw
  obtain rfl := List.mem_singleton.mp hw
  show (1 : Felt).val < 2 ^ 251
  decide

theorem toI64_onlyBlock : toI64 onlyBlock.number = 1 := toI64_of_lt (by decide)

theorem insert_insert {α β : Type} {cmp : α → α → Ordering} [Std.TransCmp cmp]
    [Std.LawfulEqCmp cmp] [DecidableEq α] (k : α) (v w : β) :
    ((∅ : ExtTreeMap α β cmp).insert k v).insert k w = (∅ : ExtTreeMap α β cmp).insert k w := by
  refine ExtTreeMap.ext_getElem? fun a => ?_
  rw [getElem?_insert_eq, getElem?_insert_eq, getElem?_insert_eq]
  split
  · rfl
  · rfl

theorem selects_onlySlot (text : String) (v : Felt) (n : Int) :
    (onlySlot text v).selects (fun n r => n == toI64 1 || r.hash == 1) n = decide (n = 1) := by
  unfold selects onlySlot
  simp only
  rw [getElem?_insert_eq]
  by_cases hn : n = 1
  · subst hn
    rfl
  · rw [if_neg hn, ExtTreeMap.getElem?_empty, decide_eq_false hn]

theorem cascaded_onlySlot (text : String) (v : Felt) :
    (onlySlot text v).cascaded (fun n r => n == toI64 1 || r.hash == 1) = 1 := by
  have hall : ((onlySlot text v).storageLog.filter fun k _ =>
      (onlySlot text v).selects (fun n r => n == toI64 1 || r.hash == 1) k.2) =
        (onlySlot text v).storageLog := by
    refine ExtTreeMap.ext_getElem? fun k => ?_
    rw [getElem?_filter_key _ fun k : Felt × Int => _, selects_onlySlot]
    unfold onlySlot
    simp only
    rw [getElem?_insert_eq]
    by_cases hk : k = (1, 1)
    · subst hk
      rfl
    · rw [if_neg hk, ExtTreeMap.getElem?_empty, ite_self]
  unfold cascaded
  rw [hall]
  unfold onlySlot
  rw [ExtTreeMap.size_insert, if_neg (by simp), ExtTreeMap.size_empty]

theorem clearBlocks_onlySlot (text : String) (v : Felt) :
    (onlySlot text v).clearBlocks (fun n r => n == toI64 1 || r.hash == 1) =
      { onlySlot text v with blocks := ∅, storageLog := ∅ } := by
  have hblocks : ((onlySlot text v).blocks.filter fun n r => !(n == toI64 1 || r.hash == 1)) = ∅ := by
    refine ExtTreeMap.ext_getElem? fun n => ?_
    rw [ExtTreeMap.getElem?_filter']
    unfold onlySlot
    simp only
    rw [getElem?_insert_eq]
    by_cases hn : n = 1
    · subst hn
      rfl
    · rw [if_neg hn, ExtTreeMap.getElem?_empty]
      rfl
  have hlog : ((onlySlot text v).storageLog.filter fun k _ =>
      !(onlySlot text v).selects (fun n r => n == toI64 1 || r.hash == 1) k.2) = ∅ := by
    refine ExtTreeMap.ext_getElem? fun k => ?_
    rw [getElem?_filter_key _ fun k : Felt × Int => !_, selects_onlySlot]
    unfold onlySlot
    simp only
    rw [getElem?_insert_eq]
    by_cases hk : k = (1, 1)
    · subst hk
      rfl
    · rw [if_neg hk, ExtTreeMap.getElem?_empty, ite_self]
  have hevents : ((onlySlot text v).events.filter fun k _ =>
      !(onlySlot text v).selects (fun n r => n == toI64 1 || r.hash == 1) k.1) = ∅ := by
    refine ExtTreeMap.ext_getElem? fun k => ?_
    rw [getElem?_filter_key _ fun k : Int × Int => !_]
    unfold onlySlot Database.new
    simp only
    rw [ExtTreeMap.getElem?_empty, ite_self]
  unfold clearBlocks
  rw [hblocks, hlog, hevents]
  rfl

theorem fire_text (text : String) {d : Database}
    (hd : d.metas = (∅ : ExtTreeMap String String).insert "storage_revision" text) :
    d.fire = { d with
      metas := (∅ : ExtTreeMap String String).insert "storage_revision" (increment text) } := by
  unfold Database.fire metaSet metaGet
  rw [hd, getElem?_insert_eq, if_pos rfl]
  simp only [insert_insert]

/-- A rewrite deletes one row and inserts one: the revision moves by two. -/
theorem write_rewrite (text : String) (v w : Felt) :
    (rewrite w).write (onlySlot text v) = onlySlot (increment (increment text)) w := by
  have hdelete : (onlySlot text v).deleteBlocks (fun n r => n == toI64 1 || r.hash == 1) =
      { onlySlot (increment text) v with blocks := ∅, storageLog := ∅ } := by
    unfold deleteBlocks
    rw [cascaded_onlySlot, clearBlocks_onlySlot]
    show Database.fire _ = _
    rw [fire_text text rfl]
    rfl
  have hblock : (onlySlot text v).insertBlock onlyBlock =
      { onlySlot (increment text) v with storageLog := ∅ } := by
    unfold insertBlock onlyBlock
    simp only
    rw [hdelete]
    rfl
  have hdiff : insertDiff onlyBlock.number ((onlySlot text v).insertBlock onlyBlock) (1, w) =
      onlySlot (increment (increment text)) w := by
    rw [hblock]
    unfold insertDiff
    rw [fire_text (increment text) rfl, toI64_onlyBlock]
    rfl
  simp only [rewrite, Session.Op.write, insertBlockData, List.foldl_cons, List.foldl_nil, hdiff]
  rfl

theorem write_rewrite_new (w : Felt) : (rewrite w).write Database.new = onlySlot "1" w := by
  have hselects : ∀ n, Database.new.selects (fun n r => n == toI64 1 || r.hash == 1) n = false := by
    intro n
    unfold selects Database.new
    rw [ExtTreeMap.getElem?_empty]
  have hdelete : Database.new.deleteBlocks (fun n r => n == toI64 1 || r.hash == 1) =
      Database.new := by
    have hcascaded : Database.new.cascaded (fun n r => n == toI64 1 || r.hash == 1) = 0 := by
      unfold cascaded
      simp only [hselects]
      exact ExtTreeMap.eq_empty_iff_size_eq_zero.mp (by
        refine ExtTreeMap.ext_getElem? fun k => ?_
        rw [getElem?_filter_key _ fun _ => false]
        simp)
    have hclear : Database.new.clearBlocks (fun n r => n == toI64 1 || r.hash == 1) =
        Database.new := by
      unfold clearBlocks
      simp only [hselects]
      rfl
    unfold deleteBlocks
    rw [hcascaded, hclear]
    rfl
  have hblock : Database.new.insertBlock onlyBlock =
      { Database.new with
        blocks := (∅ : ExtTreeMap Int BlockRec).insert 1 ⟨1, 0, 0, 0⟩ } := by
    unfold insertBlock onlyBlock
    simp only
    rw [hdelete]
    rfl
  have hdiff : insertDiff onlyBlock.number (Database.new.insertBlock onlyBlock) (1, w) =
      { onlySlot "1" w with ingestCursor := none } := by
    rw [hblock]
    unfold insertDiff Database.fire metaSet metaGet Database.new
    rw [toI64_onlyBlock]
    simp only [ExtTreeMap.getElem?_empty]
    rfl
  simp only [rewrite, Session.Op.write, insertBlockData, List.foldl_cons, List.foldl_nil, hdiff]
  rfl

/-- Rewrites of the slot, one after the other. -/
theorem foldl_rewrite (n : Nat) (text : String) (v w : Felt) (conns : List Db) :
    (List.replicate n (rewrite w)).foldl (Session.exec pedersen) ⟨onlySlot text v, conns⟩ =
      ⟨onlySlot (Nat.iterate (increment ∘ increment) n text) (if n = 0 then v else w), conns⟩ := by
  induction n generalizing text v with
  | zero => rfl
  | succ n ih =>
      have hstep : Session.exec pedersen ⟨onlySlot text v, conns⟩ (rewrite w) =
          ⟨onlySlot (increment (increment text)) w, conns⟩ :=
        congrArg (fun d => (⟨d, conns⟩ : Session)) (write_rewrite text v w)
      rw [List.replicate_succ, List.foldl_cons, hstep, ih, ite_self,
        if_neg (Nat.succ_ne_zero n)]
      rfl

theorem iterate_increment (k n : Nat) (h : n + 2 * k < 2 ^ 63) :
    Nat.iterate (increment ∘ increment) k n.repr = (n + 2 * k).repr := by
  induction k generalizing n with
  | zero => rfl
  | succ k ih =>
      have htwo : (increment ∘ increment) n.repr = (n + 2).repr := by
        rw [Function.comp_apply, increment_repr (by omega), increment_repr (by omega)]
      rw [Function.iterate_succ_apply, htwo, ih (n + 2) (by omega)]
      exact congrArg Nat.repr (by omega)

theorem increment_last {n : Nat} (h : n + 1 = 2 ^ 63) :
    increment n.repr = "9.2233720368547758e+18" := by
  unfold increment
  rw [castInteger_repr (by omega), if_neg (by omega)]

theorem increment_float : increment "9.2233720368547758e+18" = "10" := by decide

/-- The revision comes round to where it was. -/
theorem iterate_increment_wraps {k : Nat} (hk : 11 + 2 * k + 1 = 2 ^ 63) :
    Nat.iterate (increment ∘ increment) (2 + (k + (1 + k))) "11" = "11" := by
  have hodd : Nat.iterate (increment ∘ increment) k "11" = (11 + 2 * k).repr :=
    iterate_increment k 11 (by omega)
  have heven : Nat.iterate (increment ∘ increment) k "10" = (10 + 2 * k).repr :=
    iterate_increment k 10 (by omega)
  have hround : (increment ∘ increment) (11 + 2 * k).repr = "10" := by
    rw [Function.comp_apply, increment_last hk, increment_float]
  have hclose : Nat.iterate (increment ∘ increment) 2 (10 + 2 * k).repr = "11" := by
    have hnext : increment (10 + 2 * k).repr = (11 + 2 * k).repr := by
      rw [increment_repr (by omega), show 10 + 2 * k + 1 = 11 + 2 * k by omega]
    have hten : increment "10" = "11" := by decide
    rw [Function.iterate_succ_apply, Function.iterate_one, Function.comp_apply,
      Function.comp_apply, hnext, increment_last hk, increment_float, hten]
  rw [Function.iterate_add_apply, Function.iterate_add_apply, Function.iterate_add_apply, hodd,
    Function.iterate_one, hround, heven, hclose]

theorem keyed_onlySlot (text : String) (v : Felt) : (onlySlot text v).Keyed := by
  intro k n hsome
  unfold onlySlot at hsome
  rw [getElem?_insert_eq] at hsome
  split at hsome
  · rename_i hkey
    rw [(Prod.mk.inj hkey).1]
    decide
  · simp at hsome

theorem revision_onlySlot (v : Felt) : (onlySlot "11" v).revision = .ok 11 := by
  unfold Database.revision onlySlot metaGet
  rw [getElem?_insert_eq, if_pos rfl]
  decide

theorem fullSlotSetAsOf_onlySlot_one : (onlySlot "11" 1).fullSlotSetAsOf 1 = [(1, 1)] := by
  decide

theorem fullSlotSetAsOf_onlySlot_two : (onlySlot "11" 2).fullSlotSetAsOf 1 = [(1, 2)] := by
  decide

/-- Six rewrites, a root, and rewrites to another value until the revision is
what it was. -/
def wrapOps (k : Nat) : List Session.Op :=
  .connect :: rewrite 1 :: (List.replicate 5 (rewrite 1) ++
    .storageRootAt 0 1 :: List.replicate (2 + (k + (1 + k))) (rewrite 2))

theorem run_wrapOps {k : Nat} (hk : 11 + 2 * k + 1 = 2 ^ 63) :
    Session.run pedersen (wrapOps k) =
      ⟨onlySlot "11" 2, [(Db.opened.storageRootAt pedersen (onlySlot "11" 1) 1).2]⟩ := by
  have hfirst : Session.exec pedersen (Session.exec pedersen Session.new .connect) (rewrite 1) =
      ⟨onlySlot "1" 1, [Db.opened]⟩ :=
    congrArg (fun d => (⟨d, [Db.opened]⟩ : Session)) (write_rewrite_new 1)
  have hfive : Nat.iterate (increment ∘ increment) 5 "1" = "11" :=
    iterate_increment 5 1 (by norm_num)
  have hroot : Session.exec pedersen ⟨onlySlot "11" 1, [Db.opened]⟩ (.storageRootAt 0 1) =
      ⟨onlySlot "11" 1, [(Db.opened.storageRootAt pedersen (onlySlot "11" 1) 1).2]⟩ := rfl
  unfold Session.run wrapOps
  rw [List.foldl_cons, List.foldl_cons, hfirst, List.foldl_append, foldl_rewrite, hfive,
    if_neg (by decide), List.foldl_cons, hroot, foldl_rewrite, iterate_increment_wraps hk,
    if_neg (by omega)]

end Wrap
/-! ## Whole runs -/

section

variable {pedersen : Felt → Felt → Felt}

/-- The state of a session after `c` firings. -/
structure Session.Inv (pedersen : Felt → Felt → Felt) (s : Session) (c : Nat) : Prop where
  counted : s.database.Counted c
  keyed : s.database.Keyed
  conns : ∀ db ∈ s.conns, db.Current pedersen s.database c

theorem Session.inv_new : Session.new.Inv pedersen 0 where
  counted := by
    unfold Database.Counted Session.new Database.new metaGet
    simp
  keyed k n hsome := by
    unfold Session.new Database.new at hsome
    simp at hsome
  conns db hdb := by
    unfold Session.new at hdb
    cases hdb

/-- What an operation writes is what it fires. -/
theorem Session.Op.logged (d : Database) {op : Session.Op} (hplain : op.Plain) :
    Logged d (op.write d) (op.firings d) := by
  cases op with
  | connect => exact Logged.frame rfl rfl
  | storageRootAt conn block => exact Logged.frame rfl rfl
  | rollbackAbove ancestor => exact logged_rollbackAbove d ancestor
  | insertBlockData block diffs events replacedClass newFrontier =>
      simp only [Session.Op.write, Session.Op.firings]
      cases hins : d.insertBlockData block diffs events replacedClass newFrontier with
      | error e => exact Logged.frame rfl rfl
      | ok d' => exact logged_insertBlockData hplain hins

theorem Session.Inv.write {s : Session} {c k : Nat} {d' : Database} (h : s.Inv pedersen c)
    (hwrite : Logged s.database d' k) (hroom : c + k < 2 ^ 63) :
    Session.Inv pedersen { s with database := d' } (c + k) where
  counted := hwrite.counted c hroom h.counted
  keyed := hwrite.keyed h.keyed
  conns db hdb := (h.conns db hdb).write hwrite

theorem Session.Inv.exec {s : Session} {c : Nat} (h : s.Inv pedersen c) {op : Session.Op}
    (hplain : op.Plain) (hroom : c + op.firings s.database < 2 ^ 63) :
    (s.exec pedersen op).Inv pedersen (c + op.firings s.database) := by
  have hlogged := Session.Op.logged s.database hplain
  cases op with
  | connect =>
      refine ⟨h.counted, h.keyed, fun db hdb => ?_⟩
      rcases List.mem_append.mp hdb with hold | hnew
      · exact h.conns db hold
      · rw [List.mem_singleton.mp hnew]
        exact Db.current_opened s.database c
  | storageRootAt conn block =>
      unfold Session.exec
      simp only
      split
      · rename_i db hconn
        have hdb := h.conns db (List.mem_of_getElem? hconn)
        have hspec := Db.storageRootAt_spec hdb h.counted (by omega) h.keyed hplain
        refine ⟨h.counted, h.keyed, fun db' hdb' => ?_⟩
        rcases List.mem_or_eq_of_mem_set hdb' with hold | rfl
        · exact h.conns db' hold
        · exact hspec.2
      · exact h
  | insertBlockData block diffs events replacedClass newFrontier => exact h.write hlogged hroom
  | rollbackAbove ancestor => exact h.write hlogged hroom

theorem Session.Inv.foldl {ops : List Session.Op} : ∀ {s : Session} {c : Nat},
    s.Inv pedersen c → (∀ op ∈ ops, op.Plain) → c + s.firings pedersen ops < 2 ^ 63 →
      (ops.foldl (Session.exec pedersen) s).Inv pedersen (c + s.firings pedersen ops) := by
  induction ops with
  | nil =>
      intro s c h _ _
      exact h
  | cons op ops ih =>
      intro s c h hplain hroom
      obtain ⟨hop, hops⟩ := List.forall_mem_cons.mp hplain
      unfold Session.firings at hroom ⊢
      have hstep := h.exec hop (by omega)
      have hrest := ih hstep hops (by omega)
      rw [Nat.add_assoc] at hrest
      exact hrest

/-- **The root cache is never stale** while the revision has room: after any
interleaving of writes and root reads, through any connections, every
connection answers every height with the root of the slot set at that height. -/
theorem storageRootAt_eq_storageRoot (pedersen : Felt → Felt → Felt) (ops : List Session.Op)
    (hplain : ∀ op ∈ ops, op.Plain) (hroom : Session.new.firings pedersen ops < 2 ^ 63)
    (db : Db) (hdb : db ∈ (Session.run pedersen ops).conns) (block : Nat) (hblock : block < 2 ^ 63) :
    (db.storageRootAt pedersen (Session.run pedersen ops).database block).1 =
      .ok (Mpt.storageRoot pedersen
        ((Session.run pedersen ops).database.fullSlotSetAsOf block)) := by
  have hinv : (Session.run pedersen ops).Inv pedersen (0 + Session.new.firings pedersen ops) :=
    Session.inv_new.foldl hplain (by omega)
  rw [Nat.zero_add] at hinv
  exact (Db.storageRootAt_spec (hinv.conns db hdb) hinv.counted hroom hinv.keyed hblock).1

end

/-- A slot is written, its root read, and the slot rewritten. -/
def rewrittenOps : List Session.Op := [.connect, rewrite 1, .storageRootAt 0 1, rewrite 2]

/-- The connection answers with the new root. -/
theorem storageRootAt_eq_storageRoot_rewritten :
    (Session.run (fun a b => a + b) rewrittenOps).conns.length = 1 ∧
      ∀ db ∈ (Session.run (fun a b => a + b) rewrittenOps).conns,
        (db.storageRootAt (fun a b => a + b)
            (Session.run (fun a b => a + b) rewrittenOps).database 1).1 =
          .ok (Mpt.storageRoot (fun a b => a + b) [(1, 2)]) := by
  refine ⟨by decide, fun db hdb => ?_⟩
  have hplain : ∀ op ∈ rewrittenOps, op.Plain := by
    intro op hop
    unfold rewrittenOps at hop
    simp only [List.mem_cons, List.not_mem_nil, or_false] at hop
    rcases hop with rfl | rfl | rfl | rfl
    · trivial
    · exact plain_rewrite 1
    · show 1 < 2 ^ 63
      norm_num
    · exact plain_rewrite 2
  have hroom : Session.new.firings (fun a b => a + b) rewrittenOps < 2 ^ 63 := by decide +kernel
  have hslots : (Session.run (fun a b => a + b) rewrittenOps).database.fullSlotSetAsOf 1 =
      [(1, 2)] := by decide +kernel
  rw [← hslots]
  exact storageRootAt_eq_storageRoot _ rewrittenOps hplain hroom db hdb 1 (by norm_num)

/-- A counter that has come round hides a write: the cached root is answered
for a slot set that is not its own. -/
theorem storageRootAt_stale_after_wrap :
    ∃ ops : List Session.Op, (∀ op ∈ ops, op.Plain) ∧
      ∃ db ∈ (Session.run (fun a b => a + b) ops).conns, ∃ root,
        (db.storageRootAt (fun a b => a + b)
            (Session.run (fun a b => a + b) ops).database 1).1 = .ok root ∧
          root ≠ Mpt.storageRoot (fun a b => a + b)
            ((Session.run (fun a b => a + b) ops).database.fullSlotSetAsOf 1) := by
  obtain ⟨k, hk⟩ : ∃ k : Nat, 11 + 2 * k + 1 = 2 ^ 63 := ⟨2 ^ 62 - 6, by norm_num⟩
  refine ⟨wrapOps k, ?_, ?_⟩
  · intro op hop
    unfold wrapOps at hop
    simp only [List.mem_cons, List.mem_append, List.mem_replicate] at hop
    rcases hop with rfl | rfl | ⟨-, rfl⟩ | rfl | ⟨-, rfl⟩
    · trivial
    · exact plain_rewrite 1
    · exact plain_rewrite 1
    · show 1 < 2 ^ 63
      norm_num
    · exact plain_rewrite 2
  · rw [run_wrapOps hk]
    refine ⟨_, List.mem_singleton.mpr rfl, Mpt.storageRoot (fun a b => a + b) [(1, 1)], ?_, ?_⟩
    · have hcached : (Db.opened.storageRootAt (fun a b => a + b) (onlySlot "11" 1) 1).2.rootState =
          some (1, 11, Mpt.storageRoot (fun a b => a + b) [(1, 1)]) := by
        rw [← fullSlotSetAsOf_onlySlot_one]
        exact Db.rootState_opened (revision_onlySlot 1) (keyed_onlySlot "11" 1) 1
      generalize (Db.opened.storageRootAt (fun a b => a + b) (onlySlot "11" 1) 1).2 = db at hcached ⊢
      have hgap : (onlySlot "11" 2).writtenBetween 1 1 = false := by decide
      unfold Db.storageRootAt
      rw [revision_onlySlot, hcached]
      simp [hgap]
    · rw [fullSlotSetAsOf_onlySlot_two]
      decide +kernel

end Strk20.Indexer
