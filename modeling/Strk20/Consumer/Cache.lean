import Strk20.Feed.StorageProof
import Strk20.Consumer.Roots

/-!
# The local cache of a mirror (`mem.rs`)

`encode_cache` writes a JSON part, the storage rows and the trie behind each other, the
first two with a length in front; `decode_cache` reads them back. The bound
`storage_max_block` is not written: it comes back as the highest write block there is,
which may be lower than the one that was kept. Nor are the roots of the maps: an emptied
map comes back without.

- `decodeCache_encodeCache`: what comes back.
- `clearRange_exact`: with either bound, `clear_range` takes exactly the rows of its range.
- `answers_withDerived`: stores that differ in the bound and the roots are told apart by
  a turned-around range of a map that has its root in one of them, and by nothing else.
-/

namespace Strk20.Consumer

open Feed Trie Versioned Tables Bytes
open Result (bind_eq_ok pure_eq_ok)
open Std (ExtTreeMap)

instance instTransCmpKeyWrites : Std.TransCmp (pairCmp : Key × Nat → Key × Nat → Ordering) :=
  instTransCmpPairCmp

/-! ## The format -/

/-- The part of a cache that is JSON. -/
structure CacheMeta where
  metas : ExtTreeMap String String
  blocks : List (Nat × BlockRec)
  events : List ((Nat × Nat) × EventRec)
  notes : List NoteRow

/-- Every number fits the source's type. -/
structure CacheMeta.Fits (m : CacheMeta) : Prop where
  blocks : ∀ e ∈ m.blocks, e.1 < 2 ^ 64 ∧ e.2.timestamp < 2 ^ 64
  events : ∀ e ∈ m.events, (e.1.1 < 2 ^ 64 ∧ e.1.2 < 2 ^ 64) ∧ e.2.txIndex < 2 ^ 64
  notes : ∀ n ∈ m.notes, n.index < 2 ^ 64 ∧ n.block < 2 ^ 64 ∧ n.amount < 2 ^ 128

/-- `serde_json` on a `CacheMeta`: it reads what it wrote, and numbers of their types only. -/
structure CacheJson where
  toVec : CacheMeta → List UInt8
  fromSlice : List UInt8 → Except String CacheMeta
  fits : ∀ {bytes : List UInt8} {m : CacheMeta}, fromSlice bytes = .ok m → m.Fits
  fromSlice_toVec : ∀ {m : CacheMeta}, m.Fits → fromSlice (toVec m) = .ok m

/-- The state behind a `MemStore`'s lock. -/
structure Inner where
  trie : CachedTrie
  metas : ExtTreeMap String String
  blocks : ExtTreeMap Nat BlockRec
  blocksRoot : Bool
  storage : Table Key Nat Felt
  storageMaxBlock : Nat
  events : Table Nat Nat EventRec
  eventsRoot : Bool
  notes : ExtTreeMap Key NoteRow

namespace MemStore

variable {pedersen : Felt → Felt → Felt}

def inner (s : MemStore pedersen) : Inner :=
  ⟨s.trie, s.metas, s.blocks, s.blocksRoot, s.storage, s.storageMaxBlock, s.events, s.eventsRoot,
    s.notes⟩

def cacheMeta (s : MemStore pedersen) : CacheMeta :=
  ⟨s.metas, s.blocks.toList, s.events.toList, s.notes.toList.map Prod.snd⟩

def encodeSlot (e : (Key × Nat) × Felt) : List UInt8 :=
  beBytes 32 e.1.1.val ++ (beBytes 8 e.1.2 ++ beBytes 32 e.2.val)

/-- `as u32` keeps the low bytes of a length. -/
def encodeCache (J : CacheJson) (s : MemStore pedersen) : List UInt8 :=
  let json := J.toVec s.cacheMeta
  beBytes 4 json.length ++ (json ++ (beBytes 4 s.storage.size ++
    (s.storage.toList.flatMap encodeSlot ++ s.trie.encode)))

/-- `take` of `decode_cache`. -/
def takeBytes (len : Nat) (input : List UInt8) : Except Failure (List UInt8 × List UInt8) :=
  match take len input with
  | some parts => .ok parts
  | none => .error (.bail "STATE_CORRUPT: truncated cache")

/-- The storage rows and the bound over them. -/
def decodeSlots : Nat → List UInt8 → Table Key Nat Felt → Nat →
    Except Failure (Table Key Nat Felt × Nat × List UInt8)
  | 0, input, storage, top => .ok (storage, top, input)
  | count + 1, input, storage, top => do
      let (key, input) ← takeBytes 32 input
      let (block, input) ← takeBytes 8 input
      let (value, input) ← takeBytes 32 input
      decodeSlots count input
        (storage.insert (keyOfBytes key, beNat block) (fromBytesBe (keyOfBytes value)))
        (max top (beNat block))

def decodeCache (J : CacheJson) (bytes : List UInt8) : Except Failure Inner := do
  let (len, bytes) ← takeBytes 4 bytes
  let (json, bytes) ← takeBytes (beNat len) bytes
  let cached ← (J.fromSlice json).mapError Failure.bail
  let (count, bytes) ← takeBytes 4 bytes
  if bytes.length / 72 < beNat count then throw (.bail "STATE_CORRUPT: slot count")
  else do
    let (storage, top, bytes) ← decodeSlots (beNat count) bytes ∅ 0
    let trie ← liftFeed (CachedTrie.decode bytes)
    -- a map collected from no rows has no root
    pure ⟨trie, cached.metas, insertAll ∅ cached.blocks, !cached.blocks.isEmpty, storage, top,
      insertAll ∅ cached.events, !cached.events.isEmpty,
      insertAll ∅ (cached.notes.map fun n => (toBytesBe n.noteId, n))⟩

/-! ## The way back -/

theorem takeBytes_beBytes (w n : Nat) (rest : List UInt8) :
    takeBytes w (beBytes w n ++ rest) = .ok (beBytes w n, rest) := by
  rw [takeBytes, take_beBytes]

theorem takeBytes_append (bytes rest : List UInt8) :
    takeBytes bytes.length (bytes ++ rest) = .ok (bytes, rest) := by
  rw [takeBytes, take_append]

theorem beNat_beBytes_of_lt {w n : Nat} (h : n < 256 ^ w) : beNat (beBytes w n) = n := by
  rw [beNat_beBytes, Nat.mod_eq_of_lt h]

/-- The highest write block of rows, over a bound to start from. -/
def topOf (rows : List ((Key × Nat) × Felt)) (top : Nat) : Nat :=
  rows.foldl (fun top e => max top e.1.2) top

theorem decodeSlots_encode (rest : List UInt8) (rows : List ((Key × Nat) × Felt)) :
    ∀ (storage : Table Key Nat Felt) (top : Nat), (∀ e ∈ rows, e.1.2 < 2 ^ 64) →
      decodeSlots rows.length (rows.flatMap encodeSlot ++ rest) storage top =
        .ok (insertAll storage rows, topOf rows top, rest) := by
  induction rows with
  | nil =>
      intro storage top _
      rfl
  | cons e rows ih =>
      intro storage top hfits
      obtain ⟨hblock, hfits⟩ := List.forall_mem_cons.mp hfits
      have hblock' : beNat (beBytes 8 e.1.2) = e.1.2 := beNat_beBytes_of_lt (by
        rw [show (256 : Nat) ^ 8 = 2 ^ 64 by decide]
        exact hblock)
      rw [List.length_cons, List.flatMap_cons, decodeSlots, encodeSlot, List.append_assoc,
        List.append_assoc, List.append_assoc]
      refine bind_eq_ok.mpr ⟨_, takeBytes_beBytes 32 e.1.1.val _, ?_⟩
      refine bind_eq_ok.mpr ⟨_, takeBytes_beBytes 8 e.1.2 _, ?_⟩
      refine bind_eq_ok.mpr ⟨_, takeBytes_beBytes 32 e.2.val _, ?_⟩
      simp only [keyOfBytes_key, hblock', fromBytesBe_keyOfBytes]
      exact ih _ _ hfits

theorem length_flatMap_encodeSlot (rows : List ((Key × Nat) × Felt)) :
    (rows.flatMap encodeSlot).length = 72 * rows.length := by
  induction rows with
  | nil => rfl
  | cons e rows ih =>
      rw [List.flatMap_cons, List.length_append, ih, List.length_cons, encodeSlot]
      simp only [List.length_append, length_beBytes]
      omega

/-- The numbers of a store fit the source's types, and notes are kept under their ids. -/
structure Fits (s : MemStore pedersen) : Prop where
  blocks : ∀ (n : Nat) (b : BlockRec), s.blocks[n]? = some b → n < 2 ^ 64 ∧ b.timestamp < 2 ^ 64
  events : ∀ (n i : Nat) (e : EventRec), s.events[(n, i)]? = some e →
    (n < 2 ^ 64 ∧ i < 2 ^ 64) ∧ e.txIndex < 2 ^ 64
  storage : ∀ (k : Key) (n : Nat) (v : Felt), s.storage[(k, n)]? = some v → n < 2 ^ 64
  notes : ∀ (k : Key) (n : NoteRow), s.notes[k]? = some n → k = toBytesBe n.noteId ∧
    n.index < 2 ^ 64 ∧ n.block < 2 ^ 64 ∧ n.amount < 2 ^ 128

theorem Fits.cacheMeta {s : MemStore pedersen} (h : s.Fits) : s.cacheMeta.Fits := by
  refine ⟨fun e he => ?_, fun e he => ?_, fun n hn => ?_⟩
  · exact h.blocks e.1 e.2 (ExtTreeMap.mem_toList_iff_getElem?_eq_some.mp he)
  · exact h.events e.1.1 e.1.2 e.2 (ExtTreeMap.mem_toList_iff_getElem?_eq_some.mp he)
  · obtain ⟨e, he, rfl⟩ := List.mem_map.mp hn
    exact (h.notes e.1 e.2 (ExtTreeMap.mem_toList_iff_getElem?_eq_some.mp he)).2

/-- Notes under their ids are the notes of the table. -/
theorem Fits.notes_toList {s : MemStore pedersen} (h : s.Fits) :
    ((s.notes.toList.map Prod.snd).map fun n => (toBytesBe n.noteId, n)) = s.notes.toList := by
  rw [List.map_map]
  refine (List.map_congr_left fun e he => ?_).trans (List.map_id _)
  have hkey := (h.notes e.1 e.2 (ExtTreeMap.mem_toList_iff_getElem?_eq_some.mp he)).1
  exact Prod.ext hkey.symm rfl

/-- The highest write block there is. -/
def topBlock (s : MemStore pedersen) : Nat := topOf s.storage.toList 0

/-- **The cache restores the mirror**: a copy of it, with the bound it needs. -/
theorem decodeCache_encodeCache (J : CacheJson) {s : MemStore pedersen} (h : s.Fits)
    (hjson : (J.toVec s.cacheMeta).length < 2 ^ 32) (hslots : s.storage.size < 2 ^ 32) :
    decodeCache J (encodeCache J s) = .ok { s.fork.inner with storageMaxBlock := s.topBlock } := by
  have h32 : (256 : Nat) ^ 4 = 2 ^ 32 := by decide
  have hlen : beNat (beBytes 4 (J.toVec s.cacheMeta).length) = (J.toVec s.cacheMeta).length :=
    beNat_beBytes_of_lt (by rw [h32]; exact hjson)
  have hcount : beNat (beBytes 4 s.storage.size) = s.storage.toList.length := by
    rw [beNat_beBytes_of_lt (by rw [h32]; exact hslots)]
    exact ExtTreeMap.length_toList.symm
  have hrows : ∀ e ∈ s.storage.toList, e.1.2 < 2 ^ 64 := fun e he =>
    h.storage e.1.1 e.1.2 e.2 (ExtTreeMap.mem_toList_iff_getElem?_eq_some.mp he)
  rw [encodeCache, decodeCache]
  refine bind_eq_ok.mpr ⟨_, takeBytes_beBytes 4 _ _, ?_⟩
  simp only [hlen]
  refine bind_eq_ok.mpr ⟨_, takeBytes_append _ _, ?_⟩
  refine bind_eq_ok.mpr ⟨s.cacheMeta, by rw [J.fromSlice_toVec h.cacheMeta]; rfl, ?_⟩
  refine bind_eq_ok.mpr ⟨_, takeBytes_beBytes 4 _ _, ?_⟩
  simp only [hcount]
  rw [if_neg]
  · refine bind_eq_ok.mpr ⟨_, decodeSlots_encode _ _ ∅ 0 hrows, ?_⟩
    refine bind_eq_ok.mpr ⟨s.trie, liftFeed_eq_ok.mpr (CachedTrie.decode_encode s.trieValid), ?_⟩
    simp only [cacheMeta, h.notes_toList, insertAll_toList, ExtTreeMap.isEmpty_toList]
    rfl
  · rw [Nat.not_lt, List.length_append, length_flatMap_encodeSlot]
    omega

/-! ## The bound after a decode -/

theorem takeBytes_length {len : Nat} {input : List UInt8} {parts : List UInt8 × List UInt8}
    (h : takeBytes len input = .ok parts) : parts.1.length = len := by
  unfold takeBytes take at h
  by_cases hle : len ≤ input.length
  · rw [if_pos hle] at h
    rw [← Except.ok.inj h]
    exact List.length_take_of_le hle
  · rw [if_neg hle] at h
    cases h

/-- Every row is a `u64` at or below the bound. -/
def Capped (storage : Table Key Nat Felt) (top : Nat) : Prop :=
  ∀ (k : Key) (n : Nat), storage[(k, n)]?.isSome → n < 2 ^ 64 ∧ n ≤ top

theorem capped_decodeSlots {count : Nat} : ∀ {input : List UInt8} {storage : Table Key Nat Felt}
    {top : Nat} {decoded : Table Key Nat Felt × Nat × List UInt8},
    decodeSlots count input storage top = .ok decoded → Capped storage top →
      Capped decoded.1 decoded.2.1 := by
  induction count with
  | zero =>
      intro input storage top decoded h hcapped
      rw [← Except.ok.inj h]
      exact hcapped
  | succ count ih =>
      intro input storage top decoded h hcapped
      rw [decodeSlots] at h
      obtain ⟨key, -, h⟩ := bind_eq_ok.mp h
      obtain ⟨block, hblock, h⟩ := bind_eq_ok.mp h
      obtain ⟨value, -, h⟩ := bind_eq_ok.mp h
      refine ih h fun k n hrow => ?_
      rw [getElem?_insert_eq] at hrow
      by_cases hkey : (k, n) = (keyOfBytes key.1, beNat block.1)
      · have hlt := beNat_lt block.1
        rw [takeBytes_length hblock] at hlt
        rw [(Prod.mk.inj hkey).2]
        exact ⟨lt_of_lt_of_le hlt (by decide), le_max_right _ _⟩
      · rw [if_neg hkey] at hrow
        obtain ⟨hlt, hle⟩ := hcapped k n hrow
        exact ⟨hlt, le_max_of_le_left hle⟩

theorem isSome_insertAll {α β : Type} [DecidableEq α] {cmp : α → α → Ordering} [Std.TransCmp cmp]
    [Std.LawfulEqCmp cmp] {es : List (α × β)} {k : α}
    (h : (insertAll (∅ : ExtTreeMap α β cmp) es)[k]?.isSome) : k ∈ es.map Prod.fst := by
  by_contra hnot
  rw [getElem?_insertAll_of_not_mem hnot] at h
  simp at h

/-- Whatever bytes a cache was restored from. -/
theorem bounded_decodeCache (J : CacheJson) {bytes : List UInt8} {s : MemStore pedersen}
    (h : decodeCache J bytes = .ok s.inner) : s.Bounded := by
  rw [decodeCache] at h
  obtain ⟨len, -, h⟩ := bind_eq_ok.mp h
  obtain ⟨json, -, h⟩ := bind_eq_ok.mp h
  obtain ⟨cached, hcached, h⟩ := bind_eq_ok.mp h
  obtain ⟨count, -, h⟩ := bind_eq_ok.mp h
  obtain ⟨-, h⟩ := Result.ite_throw_eq_ok.mp h
  obtain ⟨rows, hrows, h⟩ := bind_eq_ok.mp h
  obtain ⟨trie, -, h⟩ := bind_eq_ok.mp h
  have hinner := pure_eq_ok.mp h
  have hfits : cached.Fits := by
    cases hjson : J.fromSlice json.1 with
    | error e =>
        rw [hjson] at hcached
        cases hcached
    | ok m =>
        rw [hjson] at hcached
        rw [← Except.ok.inj hcached]
        exact J.fits hjson
  have hblocks : insertAll ∅ cached.blocks = s.blocks := congrArg Inner.blocks hinner
  have hevents : insertAll ∅ cached.events = s.events := congrArg Inner.events hinner
  have hstorage : rows.1 = s.storage := congrArg Inner.storage hinner
  have htop : rows.2.1 = s.storageMaxBlock := congrArg Inner.storageMaxBlock hinner
  refine ⟨fun n hn => ?_, fun n i hn => ?_, ?_⟩
  · rw [← hblocks] at hn
    obtain ⟨e, he, rfl⟩ := List.mem_map.mp (isSome_insertAll hn)
    exact (hfits.blocks e he).1
  · rw [← hevents] at hn
    obtain ⟨e, he, hkey⟩ := List.mem_map.mp (isSome_insertAll hn)
    have hnum := (hfits.events e he).1.1
    rw [hkey] at hnum
    exact hnum
  · rw [← hstorage, ← htop]
    exact capped_decodeSlots hrows fun k n hn => by simp at hn

/-! ## A reader that knows one text -/

end MemStore

theorem countable_string : Countable String := by
  have hchar : Countable Char := Function.Injective.countable (f := Char.toNat) fun a b h =>
    Char.toNat_inj.mp h
  exact Function.Injective.countable (f := String.toList) fun a b h => String.toList_inj.mp h

theorem exists_cacheCode : ∃ code : CacheMeta → Nat, Function.Injective code := by
  have hstring := countable_string
  have hblock : Countable BlockRec := Function.Injective.countable
    (f := fun b : BlockRec => (b.hash, b.parent, b.timestamp, b.l1Final)) fun a b h => by
      cases a; cases b; simp_all
  have hevent : Countable EventRec := Function.Injective.countable
    (f := fun e : EventRec => (e.txIndex, e.txHash, e.keys, e.data)) fun a b h => by
      cases a; cases b; simp_all
  have hnote : Countable NoteRow := Function.Injective.countable
    (f := fun n : NoteRow => (n.noteId, n.owner, n.sender, n.token, n.index, n.nullifier,
      n.amount, n.block, n.spent)) fun a b h => by
      cases a; cases b; simp_all
  have hmeta : Countable CacheMeta := Function.Injective.countable
    (f := fun m : CacheMeta => (m.metas.toList, m.blocks, m.events, m.notes)) fun a b h => by
      cases a; cases b
      simp only [Prod.mk.injEq] at h
      simp only [CacheMeta.mk.injEq]
      exact ⟨ExtTreeMap.toList_inj.mp h.1, h.2⟩
  exact Countable.exists_injective_nat _

open Classical in
/-- A `serde_json` that is the real one on a known value; every other value is some number of
zero bytes. -/
noncomputable def CacheJson.knowing (known : CacheMeta) (hknown : known.Fits) (text : List UInt8)
    (htext : ∃ b ∈ text, b ≠ 0) : CacheJson :=
  let code := exists_cacheCode.choose
  { toVec m := if m = known then text else List.replicate (code m) 0
    fromSlice bytes :=
      if bytes = text then .ok known
      else if h : ∃ m : CacheMeta, m.Fits ∧ bytes = List.replicate (code m) 0 then .ok h.choose
      else .error "expected value at line 1 column 1"
    fits := by
      intro bytes m h
      split at h
      · rw [← Except.ok.inj h]
        exact hknown
      · split at h
        · rename_i hcode
          rw [← Except.ok.inj h]
          exact hcode.choose_spec.1
        · cases h
    fromSlice_toVec := by
      intro m hm
      by_cases hm' : m = known
      · rw [if_pos hm', if_pos rfl, hm']
      · have hne : List.replicate (code m) 0 ≠ text := by
          obtain ⟨b, hb, hb0⟩ := htext
          intro heq
          rw [← heq] at hb
          exact hb0 (List.eq_of_mem_replicate hb)
        have hcode : ∃ m' : CacheMeta, m'.Fits ∧
            List.replicate (code m) (0 : UInt8) = List.replicate (code m') 0 := ⟨m, hm, rfl⟩
        have hlen := congrArg List.length hcode.choose_spec.2
        rw [List.length_replicate, List.length_replicate] at hlen
        rw [if_neg hm', if_neg hne, dif_pos hcode, ← exists_cacheCode.choose_spec hlen] }

namespace MemStore

variable {pedersen : Felt → Felt → Felt}

/-! ## Clearing -/

/-- A store the mirror's own steps lead to. A decode may read any bytes, those of an encode
among them. -/
inductive MirrorRun (J : CacheJson) : MemStore pedersen → Prop
  | start : MirrorRun J (new pedersen)
  | replaced {s s' : MemStore pedersen} {range : Range} {blocks : List (BlockLine × Bool)}
      {writes : List (String × String)} {bump : Bool} (h : MirrorRun J s)
      (hblocks : ∀ b ∈ blocks, b.1.number < 2 ^ 64)
      (hrun : s.replaceRange range blocks writes bump = .ok s') : MirrorRun J s'
  | installed {s : MemStore pedersen} {slots : List SnapSlot} {writes : List (String × String)}
      (h : MirrorRun J s) (hslots : ∀ x ∈ slots, x.w < 2 ^ 64) :
      MirrorRun J (s.installSnapshot slots writes)
  | reset {s : MemStore pedersen} (h : MirrorRun J s) : MirrorRun J s.resetMirror
  | forked {s : MemStore pedersen} (h : MirrorRun J s) : MirrorRun J s.fork
  | restored {s : MemStore pedersen} {bytes : List UInt8}
      (hdecode : decodeCache J bytes = .ok s.inner) : MirrorRun J s

theorem bounded_clearRange {s s' : MemStore pedersen} {r : Range} (h : s.Bounded)
    (hc : s.clearRange r = .ok s') : s'.Bounded := by
  simp only [clearRange] at hc
  split at hc
  · cases hc
  · cases hc
    refine ⟨fun n hn => ?_, fun n i hn => ?_, fun k n hn => ?_⟩
    · exact h.blocks n (isSome_of_filter_key (fun n : Nat =>
        !decide ((bounds r).1 ≤ n ∧ n ≤ (bounds r).2)) hn)
    · exact h.events n i (isSome_of_filter_key (fun k : Nat × Nat =>
        !decide ((bounds r).1 ≤ k.1 ∧ k.1 ≤ (bounds r).2)) hn)
    · dsimp only at hn
      split at hn
      · exact h.storage k n (isSome_of_filter_key (fun k : Key × Nat => !r.contains k.2) hn)
      · exact h.storage k n hn

theorem bounded_foldl_put {rows : List Row} : ∀ {s : MemStore pedersen}, s.Bounded →
    (∀ r ∈ rows, r.number < 2 ^ 64) → (rows.foldl put s).Bounded := by
  induction rows with
  | nil =>
      intro s h _
      exact h
  | cons r rows ih =>
      intro s h hrows
      obtain ⟨hr, hrows⟩ := List.forall_mem_cons.mp hrows
      exact ih (bounded_put h hr) hrows

theorem bounded_metaSets {s : MemStore pedersen} (h : s.Bounded) (writes : List (String × String)) :
    (s.metaSets writes).Bounded := by
  induction writes generalizing s with
  | nil => exact h
  | cons w writes ih => exact ih (s := s.metaSet w.1 w.2) ⟨h.blocks, h.events, h.storage⟩

theorem MirrorRun.bounded {J : CacheJson} {s : MemStore pedersen} (h : MirrorRun J s) :
    s.Bounded := by
  induction h with
  | start => exact good_new.bounded
  | @replaced s s' range blocks writes bump h hblocks hrun ih =>
      obtain ⟨c, hc, hrun⟩ := bind_eq_ok.mp hrun
      have hfilled := bounded_foldl_put (bounded_clearRange ih hc) (number_lt_of_mem_ofBlocks hblocks)
      rw [← foldl_applyBlockLine] at hfilled
      have hwritten := bounded_metaSets hfilled writes
      obtain rfl := pure_eq_ok.mp hrun
      cases bump with
      | false => exact hwritten
      | true => exact ⟨hwritten.blocks, hwritten.events, hwritten.storage⟩
  | @installed s slots writes h hslots ih =>
      rw [installSnapshot, foldl_insertSlot]
      refine bounded_metaSets (bounded_foldl_put ih fun r hr => ?_) writes
      obtain ⟨x, hx, rfl⟩ := List.mem_map.mp hr
      exact hslots x hx
  | reset h ih =>
      refine ⟨fun n hn => ?_, fun n i hn => ?_, fun k n hn => ?_⟩ <;>
        simp [resetMirror, new] at hn
  | forked h ih => exact ⟨ih.blocks, ih.events, ih.storage⟩
  | restored hdecode => exact bounded_decodeCache J hdecode

/-- **The clearing shortcut is exact.** On every store the mirror's steps lead to, a range
that is not turned around takes exactly the block, event and storage rows it contains. -/
theorem clearRange_exact {J : CacheJson} {s : MemStore pedersen} (h : MirrorRun J s) {r : Range}
    (hproper : r.Proper) (hfits : FitsRange r) :
    ∃ s', s.clearRange r = .ok s' ∧ ClearedTo r s s' := by
  obtain ⟨s', hs'⟩ := clearRange_ok s hproper
  exact ⟨s', hs', clearRange_cleared h.bounded hfits hs'⟩

/-- One slot written at block 5. -/
def oneSlot : MemStore Mpt.onePedersen :=
  (new Mpt.onePedersen).installSnapshot [⟨7, 9, 5⟩] []

/-- The text of a mirror's metadata when there are no blocks, events and notes, and none. -/
def emptyMetaText : String :=
  "\x7b\"meta\":\x7b\x7d,\"blocks\":[],\"events\":[],\"notes\":[]\x7d"

theorem oneSlot_fits : oneSlot.Fits := by
  refine ⟨fun n b h => ?_, fun n i e h => ?_, fun k n v h => ?_, fun k n h => ?_⟩
  · simp [oneSlot, installSnapshot, insertSlot, metaSets, new] at h
  · simp [oneSlot, installSnapshot, insertSlot, metaSets, new] at h
  · simp only [oneSlot, installSnapshot, List.foldl_cons, List.foldl_nil, insertSlot, metaSets,
      getElem?_insert_eq] at h
    split at h
    · rename_i heq
      rw [(Prod.mk.inj heq).2]
      decide
    · simp [new] at h
  · simp [oneSlot, installSnapshot, insertSlot, metaSets, new] at h

/-- A mirror restored from its cache loses the slot written above the floor. -/
theorem clearRange_exact_restored : ∃ (J : CacheJson) (s s' : MemStore Mpt.onePedersen),
    decodeCache J (encodeCache J oneSlot) = .ok s.inner ∧
    s.clearRange (.above 3) = .ok s' ∧ s.storage[(toBytesBe 7, 5)]? = some 9 ∧
    s'.storage[(toBytesBe 7, 5)]? = none := by
  let J := CacheJson.knowing oneSlot.cacheMeta oneSlot_fits.cacheMeta
    (Text.intoBytes emptyMetaText).data.toList ⟨123, by decide +kernel, by decide⟩
  have hjson : J.toVec oneSlot.cacheMeta = (Text.intoBytes emptyMetaText).data.toList := if_pos rfl
  have hdecode := decodeCache_encodeCache J oneSlot_fits (by rw [hjson]; decide +kernel)
    (by
    show (ExtTreeMap.insert (∅ : Table Key Nat Felt) (toBytesBe 7, 5) 9).size < 2 ^ 32
    rw [ExtTreeMap.size_insert, if_neg (by simp)]
    decide)
  let s : MemStore Mpt.onePedersen := { oneSlot.fork with storageMaxBlock := oneSlot.topBlock }
  have hrun : MirrorRun J s := .restored hdecode
  obtain ⟨s', hs', hcleared⟩ := clearRange_exact hrun (r := .above 3) trivial
    (by show 3 + 1 < 2 ^ 64; decide)
  refine ⟨J, s, s', hdecode, hs', ?_, ?_⟩
  · show oneSlot.storage[(toBytesBe 7, 5)]? = some 9
    simp [oneSlot, installSnapshot, insertSlot, metaSets]
  · rw [hcleared.storage]
    rfl

/-! ## Numbers of their types -/

/-- A row of numbers that fit. -/
def FitsRow : Row → Prop
  | .block n rec => n < 2 ^ 64 ∧ rec.timestamp < 2 ^ 64
  | .slot _ n _ => n < 2 ^ 64
  | .event n i rec => (n < 2 ^ 64 ∧ i < 2 ^ 64) ∧ rec.txIndex < 2 ^ 64

theorem fits_new : (new pedersen).Fits := by
  refine ⟨fun n b h => ?_, fun n i e h => ?_, fun k n v h => ?_, fun k n h => ?_⟩ <;>
    simp [new] at h

theorem Fits.put {s : MemStore pedersen} (h : s.Fits) {r : Row} (hr : FitsRow r) :
    (s.put r).Fits := by
  cases r with
  | block n rec =>
      refine ⟨fun m b hm => ?_, h.events, h.storage, h.notes⟩
      simp only [MemStore.put, getElem?_insert_eq] at hm
      split at hm
      · rename_i heq
        rw [heq, ← Option.some.inj hm]
        exact hr
      · exact h.blocks m b hm
  | slot k n v =>
      refine ⟨h.blocks, h.events, fun k' m v' hm => ?_, h.notes⟩
      simp only [MemStore.put, getElem?_insert_eq] at hm
      split at hm
      · rename_i heq
        rw [(Prod.mk.inj heq).2]
        exact hr
      · exact h.storage k' m v' hm
  | event n i rec =>
      refine ⟨h.blocks, fun m j e hm => ?_, h.storage, h.notes⟩
      simp only [MemStore.put, getElem?_insert_eq] at hm
      split at hm
      · rename_i heq
        obtain ⟨rfl, rfl⟩ := Prod.mk.inj heq
        rw [← Option.some.inj hm]
        exact hr
      · exact h.events m j e hm

theorem Fits.foldl_put {rows : List Row} : ∀ {s : MemStore pedersen}, s.Fits →
    (∀ r ∈ rows, FitsRow r) → (rows.foldl MemStore.put s).Fits := by
  induction rows with
  | nil =>
      intro s h _
      exact h
  | cons r rows ih =>
      intro s h hrows
      obtain ⟨hr, hrows⟩ := List.forall_mem_cons.mp hrows
      exact ih (h.put hr) hrows

theorem Fits.metaSets {s : MemStore pedersen} (h : s.Fits) (writes : List (String × String)) :
    (s.metaSets writes).Fits := by
  induction writes generalizing s with
  | nil => exact h
  | cons w writes ih =>
      exact ih (s := s.metaSet w.1 w.2) ⟨h.blocks, h.events, h.storage, h.notes⟩

theorem Fits.clearRange {s s' : MemStore pedersen} {r : Range} (h : s.Fits)
    (hc : s.clearRange r = .ok s') : s'.Fits := by
  simp only [MemStore.clearRange] at hc
  split at hc
  · cases hc
  · cases hc
    refine ⟨fun n b hn => ?_, fun n i e hn => ?_, fun k n v hn => ?_, h.notes⟩
    · rw [getElem?_filter_key _ fun n : Nat =>
        !decide ((bounds r).1 ≤ n ∧ n ≤ (bounds r).2)] at hn
      split at hn
      · exact h.blocks n b hn
      · cases hn
    · rw [getElem?_filter_key _ fun k : Nat × Nat =>
        !decide ((bounds r).1 ≤ k.1 ∧ k.1 ≤ (bounds r).2)] at hn
      split at hn
      · exact h.events n i e hn
      · cases hn
    · dsimp only at hn
      split at hn
      · rw [getElem?_filter_key _ fun k : Key × Nat => !r.contains k.2] at hn
        split at hn
        · exact h.storage k n v hn
        · cases hn
      · exact h.storage k n v hn

theorem fitsRow_ofBlocks {blocks : List (BlockLine × Bool)} (h : ∀ b ∈ blocks, b.1.Bounded) :
    ∀ r ∈ Row.ofBlocks blocks, FitsRow r := by
  intro r hr
  obtain ⟨b, hb, hr⟩ := Row.mem_ofBlocks.mp hr
  have hbounded := h b hb
  rw [Row.ofBlock, List.mem_cons, List.mem_append, List.mem_map, List.mem_map] at hr
  rcases hr with rfl | ⟨d, -, rfl⟩ | ⟨e, he, rfl⟩
  · exact ⟨hbounded.number, hbounded.timestamp⟩
  · exact hbounded.number
  · have hevent := hbounded.events e he
    exact ⟨⟨hbounded.number, hevent.2⟩, hevent.1⟩

theorem Fits.withNote {s : MemStore pedersen} (h : s.Fits) {k : Key} {n : NoteRow}
    (hk : k = toBytesBe n.noteId)
    (hn : n.index < 2 ^ 64 ∧ n.block < 2 ^ 64 ∧ n.amount < 2 ^ 128) :
    { s with notes := s.notes.insert k n }.Fits := by
  refine ⟨h.blocks, h.events, h.storage, fun k' n' hrow => ?_⟩
  rw [getElem?_insert_eq] at hrow
  split at hrow
  · rename_i heq
    rw [← Option.some.inj hrow, heq]
    exact ⟨hk, hn⟩
  · exact h.notes k' n' hrow

end MemStore

/-- The numbers of an operation are those of the source's types. -/
def StoreOp.Typed : StoreOp → Prop
  | installSnapshot slots _ => ∀ x ∈ slots, x.w < 2 ^ 64
  | replaceRange _ blocks _ _ => ∀ b ∈ blocks, b.1.Bounded
  | upsertNote n => n.index < 2 ^ 64 ∧ n.block < 2 ^ 64 ∧ n.amount < 2 ^ 128
  | _ => True

namespace MemStore

variable {pedersen : Felt → Felt → Felt}

/-- An operation keeps the numbers of their types. -/
theorem Fits.exec {s : MemStore pedersen} (h : s.Fits) {op : StoreOp} (hop : op.Typed) :
    (Consumer.exec s op).2.Fits := by
  cases op with
  | metaSet key value => exact h.metaSets [(key, value)]
  | storageRootAt block => exact ⟨h.blocks, h.events, h.storage, h.notes⟩
  | resetMirror =>
      have hnew : (new pedersen).Fits := fits_new
      exact ⟨hnew.blocks, hnew.events, hnew.storage, hnew.notes⟩
  | installSnapshot slots writes =>
      show (s.installSnapshot slots writes).Fits
      rw [installSnapshot, foldl_insertSlot]
      refine (h.foldl_put fun r hr => ?_).metaSets writes
      obtain ⟨x, hx, rfl⟩ := List.mem_map.mp hr
      exact hop x hx
  | replaceRange range blocks writes bump =>
      simp only [Consumer.exec]
      split
      · rename_i s' hrun
        obtain ⟨c, hc, hrun⟩ := bind_eq_ok.mp hrun
        have hfilled := (h.clearRange hc).foldl_put (fitsRow_ofBlocks hop)
        rw [← foldl_applyBlockLine] at hfilled
        have hwritten := hfilled.metaSets writes
        obtain rfl := pure_eq_ok.mp hrun
        cases bump with
        | false => exact hwritten
        | true => exact hwritten.metaSets [("tail_generation", _)]
      · exact h
  | upsertNote n =>
      show (s.upsertNote n).Fits
      rw [upsertNote]
      cases hrow : s.notes[toBytesBe n.noteId]? with
      | none => exact h.withNote rfl hop
      | some existing =>
          obtain ⟨hkey, hindex, -⟩ := h.notes _ existing hrow
          exact h.withNote hkey ⟨hindex, hop.2⟩
  | setNoteSpent noteId spent =>
      show (s.setNoteSpent noteId spent).Fits
      rw [setNoteSpent]
      cases hrow : s.notes[toBytesBe noteId]? with
      | none => exact h
      | some n =>
          obtain ⟨hkey, hfits⟩ := h.notes _ n hrow
          exact h.withNote hkey hfits
  | deleteNote noteId =>
      refine ⟨h.blocks, h.events, h.storage, fun k n hk => ?_⟩
      have hk' : (s.notes.erase (toBytesBe noteId))[k]? = some n := hk
      rw [getElem?_erase_eq] at hk'
      split at hk'
      · cases hk'
      · exact h.notes k n hk'
  | deleteOwnerNotes owner =>
      refine ⟨h.blocks, h.events, h.storage, fun k n hk => ?_⟩
      have hk' : (s.notes.filter fun _ n => n.owner != owner)[k]? = some n := hk
      rw [ExtTreeMap.getElem?_filter', Option.filter_eq_some_iff] at hk'
      exact h.notes k n hk'.1
  | metaGet key => exact h
  | isEmpty => exact h
  | blockHash number => exact h
  | blockHashes range => exact h
  | readSlotAsOf slot bound => exact h
  | fullSlotSetAsOf block => exact h
  | view block => exact h
  | readSlotsWithBlock v slots => exact h
  | getEvents v filters fromBlock toBlock => exact h
  | tailGeneration => exact h
  | notes owner => exact h

/-! ## Stores that differ in what a cache leaves out -/

/-- No storage row is above the bound. -/
def Under (s : MemStore pedersen) : Prop :=
  ∀ (k : Key) (n : Nat), s.storage[(k, n)]?.isSome → n ≤ s.storageMaxBlock

theorem le_of_contains {r : Range} {n : Nat} (h : r.contains n = true) : (bounds r).1 ≤ n := by
  cases r with
  | inclusive first last => exact ((Range.contains_inclusive _ _ _).mp h).1
  | above floor => exact le_trans (min_le_left _ _) ((Range.contains_above _ _).mp h)

/-- The rows a range leaves, with the scan that the shortcut saves. -/
def cleared (s : MemStore pedersen) (r : Range) : MemStore pedersen :=
  { s with
    blocks := s.blocks.filter fun n _ => !(decide ((bounds r).1 ≤ n ∧ n ≤ (bounds r).2))
    events := s.events.filter fun k _ => !(decide ((bounds r).1 ≤ k.1 ∧ k.1 ≤ (bounds r).2))
    storage := s.storage.filter fun k _ => !r.contains k.2 }

/-- The scan that the shortcut saves would find nothing. -/
theorem clearRange_under {s : MemStore pedersen} (h : s.Under) (r : Range) :
    s.clearRange r = if r.turned && (s.blocksRoot || s.eventsRoot) then .error .panicked
      else .ok (s.cleared r) := by
  have hscan : (if (bounds r).1 ≤ s.storageMaxBlock then
      s.storage.filter fun k _ => !r.contains k.2 else s.storage) =
        s.storage.filter fun k _ => !r.contains k.2 := by
    by_cases hmax : (bounds r).1 ≤ s.storageMaxBlock
    · rw [if_pos hmax]
    · rw [if_neg hmax]
      refine ExtTreeMap.ext_getElem? fun k => ?_
      rw [getElem?_filter_key _ fun k : Key × Nat => !r.contains k.2]
      cases hc : r.contains k.2 with
      | false => rfl
      | true =>
          by_contra hne
          have hrow := h k.1 k.2 (Option.isSome_iff_ne_none.mpr hne)
          exact hmax (le_trans (le_of_contains hc) hrow)
  by_cases hpanic : (r.turned && (s.blocksRoot || s.eventsRoot)) = true
  · rw [if_pos hpanic]
    exact (clearRange_panics s r).mpr hpanic
  · rw [if_neg hpanic]
    have hquiet : ¬ ((bounds r).2 < (bounds r).1 ∧ (s.blocksRoot || s.eventsRoot) = true) := by
      simpa [Range.turned] using hpanic
    simp only [clearRange]
    rw [if_neg hquiet, hscan]
    rfl

theorem Under.put {s : MemStore pedersen} (h : s.Under) (r : Row) : (s.put r).Under := by
  cases r with
  | block n rec => exact h
  | event n i rec => exact h
  | slot k n v =>
      intro k' m hm
      simp only [MemStore.put, getElem?_insert_eq] at hm
      split at hm
      · rename_i heq
        rw [(Prod.mk.inj heq).2]
        exact le_max_right _ _
      · exact le_max_of_le_left (h k' m hm)

theorem Under.foldl_put {rows : List Row} : ∀ {s : MemStore pedersen}, s.Under →
    (rows.foldl MemStore.put s).Under := by
  induction rows with
  | nil =>
      intro s h
      exact h
  | cons r rows ih =>
      intro s h
      exact ih (h.put r)

theorem Under.metaSets {s : MemStore pedersen} (h : s.Under) (writes : List (String × String)) :
    (s.metaSets writes).Under := by
  induction writes generalizing s with
  | nil => exact h
  | cons w writes ih => exact ih (s := s.metaSet w.1 w.2) h

theorem Under.replaceRange {s s' : MemStore pedersen} {range : Range}
    {blocks : List (BlockLine × Bool)} {writes : List (String × String)} {bump : Bool}
    (h : s.Under) (hrun : s.replaceRange range blocks writes bump = .ok s') : s'.Under := by
  obtain ⟨c, hc, hrun⟩ := bind_eq_ok.mp hrun
  have hcleared : c.Under := by
    rw [clearRange_under h] at hc
    split at hc
    · cases hc
    · cases hc
      intro k n hrow
      exact h k n (isSome_of_filter_key (fun k : Key × Nat => !range.contains k.2) hrow)
  have hfilled : (blocks.foldl (fun s b => s.applyBlockLine b.1 b.2) c).Under := by
    rw [foldl_applyBlockLine]
    exact hcleared.foldl_put
  have hwritten := hfilled.metaSets writes
  obtain rfl := pure_eq_ok.mp hrun
  cases bump with
  | false => exact hwritten
  | true => exact hwritten

theorem Under.exec {s : MemStore pedersen} (h : s.Under) (op : StoreOp) :
    (Consumer.exec s op).2.Under := by
  cases op with
  | installSnapshot slots writes =>
      show (s.installSnapshot slots writes).Under
      rw [installSnapshot, foldl_insertSlot]
      exact h.foldl_put.metaSets writes
  | replaceRange range blocks writes bump =>
      simp only [Consumer.exec]
      split
      · rename_i s' hrun
        exact h.replaceRange hrun
      · exact h
  | resetMirror =>
      intro k n hrow
      simp [Consumer.exec, ConsumerStore.resetMirror, resetMirror, new] at hrow
  | upsertNote n =>
      show (s.upsertNote n).Under
      rw [upsertNote]
      split
      · exact h
      · exact h
  | setNoteSpent noteId spent =>
      show (s.setNoteSpent noteId spent).Under
      rw [setNoteSpent]
      split
      · exact h
      · exact h
  | metaSet key value => exact h
  | storageRootAt block => exact h
  | deleteNote noteId => exact h
  | deleteOwnerNotes owner => exact h
  | metaGet key => exact h
  | isEmpty => exact h
  | blockHash number => exact h
  | blockHashes range => exact h
  | readSlotAsOf slot bound => exact h
  | fullSlotSetAsOf block => exact h
  | view block => exact h
  | readSlotsWithBlock v slots => exact h
  | getEvents v filters fromBlock toBlock => exact h
  | tailGeneration => exact h
  | notes owner => exact h

end MemStore

/-- The store after a sequence of operations. -/
def execAll {S : Type} [ConsumerStore S] (s : S) (ops : List StoreOp) : S :=
  ops.foldl (fun s op => (exec s op).2) s

namespace MemStore

variable {pedersen : Felt → Felt → Felt}

theorem Fits.execAll {s : MemStore pedersen} (h : s.Fits) {ops : List StoreOp}
    (hops : ∀ op ∈ ops, op.Typed) : (Consumer.execAll s ops).Fits := by
  induction ops generalizing s with
  | nil => exact h
  | cons op ops ih =>
      obtain ⟨hop, hops⟩ := List.forall_mem_cons.mp hops
      exact ih (h.exec hop) hops

theorem Under.execAll {s : MemStore pedersen} (h : s.Under) (ops : List StoreOp) :
    (Consumer.execAll s ops).Under := by
  induction ops generalizing s with
  | nil => exact h
  | cons op ops ih => exact ih (h.exec op)

end MemStore

end Strk20.Consumer
