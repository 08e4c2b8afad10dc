import Strk20.Consumer.Store

/-!
# The rows of a mirror

What a store is for, whatever it keeps its bytes in: three tables of rows
addressed by block, and a metadata table. `Rows` is the abstract state,
`LawfulStore` what an implementation owes to it.

A store need not be able to address every `u64`: `Fits` and `FitsRange` say
which blocks and ranges it can, and the laws are about those.
-/

namespace Strk20.Consumer

open Feed

/-- A row of one of the tables. -/
inductive Row where
  | block (n : Nat) (rec : BlockRec)
  | slot (k : Felt) (n : Nat) (v : Felt)
  | event (n i : Nat) (rec : EventRec)
deriving DecidableEq

namespace Row

/-- The block a row belongs to. -/
def number : Row → Nat
  | block n _ => n
  | slot _ n _ => n
  | event n _ _ => n

/-- Two rows under one primary key. -/
def SameKey : Row → Row → Prop
  | block n _, block n' _ => n = n'
  | slot k n _, slot k' n' _ => k = k' ∧ n = n'
  | event n i _, event n' i' _ => n = n' ∧ i = i'
  | _, _ => False

/-- The rows a block line is stored as. -/
def ofBlock (b : BlockLine) (l1Final : Bool) : List Row :=
  block b.number (blockRec b l1Final) ::
    (b.diffs.map (fun d => slot d.1 b.number d.2) ++
      b.events.map fun e => event b.number e.eventIndex (eventRec e))

def ofBlocks (blocks : List (BlockLine × Bool)) : List Row := blocks.flatMap fun b => ofBlock b.1 b.2

/-- The rows a snapshot's slots are stored as. -/
def ofSlots (slots : List SnapSlot) : List Row := slots.map fun s => slot s.k s.w s.v

theorem SameKey.refl (row : Row) : SameKey row row := by
  cases row <;> simp [SameKey]

theorem SameKey.number_eq {a b : Row} (h : SameKey a b) : a.number = b.number := by
  cases a <;> cases b <;> simp_all [SameKey, number]

theorem SameKey.symm {a b : Row} (h : SameKey a b) : SameKey b a := by
  cases a <;> cases b <;> simp_all [SameKey]

theorem number_of_mem_ofBlock {b : BlockLine} {fin : Bool} {row : Row} (h : row ∈ ofBlock b fin) :
    row.number = b.number := by
  rw [ofBlock, List.mem_cons, List.mem_append, List.mem_map, List.mem_map] at h
  rcases h with rfl | ⟨d, -, rfl⟩ | ⟨e, -, rfl⟩ <;> rfl

theorem mem_ofBlocks {blocks : List (BlockLine × Bool)} {row : Row} :
    row ∈ ofBlocks blocks ↔ ∃ b ∈ blocks, row ∈ ofBlock b.1 b.2 :=
  List.mem_flatMap

end Row

open Row (SameKey)

/-- Rows by key: block, slot and write block, block and event index. -/
structure Rows where
  blocks : Nat → Option BlockRec
  slots : Felt → Nat → Option Felt
  events : Nat → Nat → Option EventRec

namespace Rows

@[ext] theorem ext {a b : Rows} (hb : ∀ n, a.blocks n = b.blocks n)
    (hs : ∀ k n, a.slots k n = b.slots k n) (he : ∀ n i, a.events n i = b.events n i) : a = b := by
  cases a
  cases b
  simp only [Rows.mk.injEq]
  exact ⟨funext hb, funext fun k => funext (hs k), funext fun n => funext (he n)⟩

def empty : Rows := ⟨fun _ => none, fun _ _ => none, fun _ _ => none⟩

def clear (m : Rows) (r : Range) : Rows where
  blocks n := if r.contains n then none else m.blocks n
  slots k n := if r.contains n then none else m.slots k n
  events n i := if r.contains n then none else m.events n i

/-- `INSERT OR REPLACE` of one row. -/
def put (m : Rows) : Row → Rows
  | .block n rec => { m with blocks := fun n' => if n' = n then some rec else m.blocks n' }
  | .slot k n v =>
      { m with slots := fun k' n' => if k' = k ∧ n' = n then some v else m.slots k' n' }
  | .event n i rec =>
      { m with events := fun n' i' => if n' = n ∧ i' = i then some rec else m.events n' i' }

def putAll (m : Rows) (rows : List Row) : Rows := rows.foldl put m

/-- A range replaced by blocks. -/
def replace (m : Rows) (r : Range) (blocks : List (BlockLine × Bool)) : Rows :=
  (m.clear r).putAll (Row.ofBlocks blocks)

/-- A snapshot's slots folded in. -/
def install (m : Rows) (slots : List SnapSlot) : Rows := m.putAll (Row.ofSlots slots)

def Has (m : Rows) : Row → Prop
  | .block n rec => m.blocks n = some rec
  | .slot k n v => m.slots k n = some v
  | .event n i rec => m.events n i = some rec

theorem has_empty (row : Row) : ¬ empty.Has row := by
  cases row <;> exact fun h => by cases h

theorem has_clear {m : Rows} {r : Range} {row : Row} :
    (m.clear r).Has row ↔ r.contains row.number = false ∧ m.Has row := by
  cases row <;> simp only [Has, clear, Row.number] <;> split <;> simp_all

theorem has_put {m : Rows} {r row : Row} :
    (m.put r).Has row ↔ row = r ∨ (¬ SameKey row r ∧ m.Has row) := by
  cases r with
  | block n rec =>
      cases row with
      | block n' rec' =>
          by_cases h : n' = n
          · simp [Has, put, SameKey, h, eq_comm]
          · simp [Has, put, SameKey, h]
      | slot k n' v => simp [Has, put, SameKey]
      | event n' i rec' => simp [Has, put, SameKey]
  | slot k n v =>
      cases row with
      | block n' rec => simp [Has, put, SameKey]
      | event n' i rec => simp [Has, put, SameKey]
      | slot k' n' v' =>
          by_cases h : k' = k ∧ n' = n
          · simp [Has, put, SameKey, h, eq_comm]
          · have hne : ¬ (k' = k ∧ n' = n ∧ v' = v) := fun h' => h ⟨h'.1, h'.2.1⟩
            simp [Has, put, SameKey, h, hne]
  | event n i rec =>
      cases row with
      | block n' rec' => simp [Has, put, SameKey]
      | slot k n' v => simp [Has, put, SameKey]
      | event n' i' rec' =>
          by_cases h : n' = n ∧ i' = i
          · simp [Has, put, SameKey, h, eq_comm]
          · have hne : ¬ (n' = n ∧ i' = i ∧ rec' = rec) := fun h' => h ⟨h'.1, h'.2.1⟩
            simp [Has, put, SameKey, h, hne]

theorem putAll_cons (m : Rows) (r : Row) (rows : List Row) :
    m.putAll (r :: rows) = (m.put r).putAll rows := rfl

theorem putAll_append (m : Rows) (a b : List Row) :
    m.putAll (a ++ b) = (m.putAll a).putAll b :=
  List.foldl_append

theorem putAll_flatMap {α : Type} (f : α → List Row) : ∀ (xs : List α) (m : Rows),
    m.putAll (xs.flatMap f) = xs.foldl (fun m x => m.putAll (f x)) m
  | [], _ => rfl
  | x :: xs, m => by
      rw [List.flatMap_cons, putAll_append, putAll_flatMap f xs, List.foldl_cons]

/-- Rows that do not contradict each other land as they are; a row of another
key stays. -/
theorem has_putAll_of_functional : ∀ {rows : List Row} {m : Rows} {row : Row},
    (∀ a ∈ rows, ∀ b ∈ rows, SameKey a b → a = b) →
    ((m.putAll rows).Has row ↔ row ∈ rows ∨ ((∀ r ∈ rows, ¬ SameKey row r) ∧ m.Has row))
  | [], m, row, _ => by simp [putAll]
  | r :: rows, m, row, h => by
      have hrows : ∀ a ∈ rows, ∀ b ∈ rows, SameKey a b → a = b := fun a ha b hb =>
        h a (List.mem_cons_of_mem r ha) b (List.mem_cons_of_mem r hb)
      have ih := @has_putAll_of_functional rows (m.put r) row hrows
      rw [putAll, List.foldl_cons, ← putAll, ih, has_put, List.mem_cons, List.forall_mem_cons]
      constructor
      · rintro (hmem | ⟨hall, rfl | ⟨hne, hm⟩⟩)
        · exact .inl (.inr hmem)
        · exact .inl (.inl rfl)
        · exact .inr ⟨⟨hne, hall⟩, hm⟩
      · rintro ((rfl | hmem) | ⟨⟨hne, hall⟩, hm⟩)
        · by_cases hmem : row ∈ rows
          · exact .inl hmem
          · refine .inr ⟨fun x hx hk => hmem ?_, .inl rfl⟩
            rw [h row List.mem_cons_self x (List.mem_cons_of_mem _ hx) hk]
            exact hx
        · exact .inl hmem
        · exact .inr ⟨hall, .inr ⟨hne, hm⟩⟩

/-- Rows with distinct keys land as they are; a row of another key stays. -/
theorem has_putAll {rows : List Row} {m : Rows} {row : Row}
    (h : rows.Pairwise fun a b => ¬ SameKey a b) :
    (m.putAll rows).Has row ↔ row ∈ rows ∨ ((∀ r ∈ rows, ¬ SameKey row r) ∧ m.Has row) := by
  refine has_putAll_of_functional fun a ha b hb hk => ?_
  have : Std.Symm fun a b : Row => ¬ SameKey a b := ⟨fun _ _ hab hba => hab hba.symm⟩
  by_contra hne
  exact h.forall ha hb hne hk

/-- A row outside the written blocks is not touched by writes. -/
theorem has_putAll_of_number {rows : List Row} {m : Rows} {row : Row}
    (h : ∀ r ∈ rows, r.number ≠ row.number) : (m.putAll rows).Has row ↔ m.Has row := by
  induction rows generalizing m with
  | nil => rfl
  | cons r rows ih =>
      obtain ⟨hr, hrows⟩ := List.forall_mem_cons.mp h
      have hne : ¬ SameKey row r := fun hk => hr hk.number_eq.symm
      have hrow : row ≠ r := fun heq => hr (by rw [heq])
      rw [putAll, List.foldl_cons, ← putAll, ih hrows, has_put]
      simp [hne, hrow]

end Rows

/-! ## Rows of well-formed blocks -/

/-- Blocks ascend and each is sorted: what every parsed payload satisfies. -/
structure Sorted (blocks : List BlockLine) : Prop where
  ascending : blocks.IsChain fun a b => a.number < b.number
  sorted : ∀ b ∈ blocks, Codec.BlockLine.Sorted b

theorem Sorted.of_wf {blocks : List BlockLine} (h : Codec.BlocksWf blocks) : Sorted blocks :=
  ⟨h.linked.imp fun _ _ hab => hab.1, h.sorted⟩

theorem Row.ofBlock_pairwise {b : BlockLine} (h : Codec.BlockLine.Sorted b) (fin : Bool) :
    (Row.ofBlock b fin).Pairwise fun x y => ¬ SameKey x y := by
  have hd : b.diffs.Pairwise fun x y => x.1.val < y.1.val := List.isChain_iff_pairwise.mp h.diffs
  have he : b.events.Pairwise fun x y => x.eventIndex < y.eventIndex :=
    List.isChain_iff_pairwise.mp h.events
  rw [Row.ofBlock, List.pairwise_cons, List.pairwise_append, List.pairwise_map, List.pairwise_map]
  refine ⟨fun r hr => ?_, hd.imp fun hxy hk => ?_, he.imp fun hxy hk => ?_, ?_⟩
  · rcases List.mem_append.mp hr with hr | hr <;> obtain ⟨_, -, rfl⟩ := List.mem_map.mp hr <;>
      exact fun hk => hk
  · rw [hk.1] at hxy
    exact absurd hxy (lt_irrefl _)
  · rw [hk.2] at hxy
    exact absurd hxy (lt_irrefl _)
  · intro x hx y hy
    obtain ⟨_, -, rfl⟩ := List.mem_map.mp hx
    obtain ⟨_, -, rfl⟩ := List.mem_map.mp hy
    exact fun hk => hk

theorem Row.ofBlocks_pairwise {blocks : List (BlockLine × Bool)}
    (h : Sorted (blocks.map Prod.fst)) :
    (Row.ofBlocks blocks).Pairwise fun x y => ¬ SameKey x y := by
  have hasc : (blocks.map Prod.fst).Pairwise fun a b => a.number < b.number :=
    List.isChain_iff_pairwise.mp h.ascending
  rw [List.pairwise_map] at hasc
  rw [Row.ofBlocks, List.pairwise_flatMap]
  refine ⟨fun b hb => Row.ofBlock_pairwise (h.sorted _ (List.mem_map_of_mem hb)) b.2,
    hasc.imp fun {a b} hab x hx y hy hk => ?_⟩
  have hnum := hk.number_eq
  rw [Row.number_of_mem_ofBlock hx, Row.number_of_mem_ofBlock hy] at hnum
  exact absurd hnum (Nat.ne_of_lt hab)

/-- What a range holds after it was replaced by blocks of its own, and what
lies outside of it. -/
theorem Rows.has_replace {m : Rows} {r : Range} {blocks : List (BlockLine × Bool)} {row : Row}
    (h : Sorted (blocks.map Prod.fst)) (hr : ∀ b ∈ blocks, r.contains b.1.number = true) :
    (m.replace r blocks).Has row ↔
      row ∈ Row.ofBlocks blocks ∨ (r.contains row.number = false ∧ m.Has row) := by
  rw [Rows.replace, Rows.has_putAll (Row.ofBlocks_pairwise h), Rows.has_clear]
  refine or_congr_right ⟨fun hm => hm.2, fun hm => ⟨fun x hx hk => ?_, hm⟩⟩
  obtain ⟨b, hb, hx⟩ := Row.mem_ofBlocks.mp hx
  have hnum : row.number = b.1.number := hk.number_eq.trans (Row.number_of_mem_ofBlock hx)
  have := hr b hb
  rw [← hnum, hm.1] at this
  cases this

/-! ## Reads -/

/-- The latest value at or below a bound with its block, `(0, 0)` if there is
none. -/
def latest (f : Nat → Option Felt) : Nat → Felt × Nat
  | 0 => ((f 0).getD 0, 0)
  | n + 1 =>
      match f (n + 1) with
      | some v => (v, n + 1)
      | none => latest f n

theorem latest_eq_of_max {f : Nat → Option Felt} {v : Felt} {n : Nat} (hv : f n = some v) :
    ∀ {bound : Nat}, n ≤ bound → (∀ m ≤ bound, (f m).isSome → m ≤ n) → latest f bound = (v, n)
  | 0, hn, _ => by
      obtain rfl := Nat.le_zero.mp hn
      rw [latest, hv]
      rfl
  | bound + 1, hn, hmax => by
      by_cases heq : n = bound + 1
      · subst heq
        simp only [latest, hv]
      · have hnone : f (bound + 1) = none := by
          by_contra hne
          have := hmax (bound + 1) le_rfl (Option.isSome_iff_ne_none.mpr hne)
          omega
        simp only [latest, hnone]
        exact latest_eq_of_max hv (by omega) fun m hm => hmax m (by omega)

theorem latest_eq_of_none {f : Nat → Option Felt} : ∀ {bound : Nat}, (∀ m ≤ bound, f m = none) →
    latest f bound = (0, 0)
  | 0, h => by rw [latest, h 0 le_rfl]; rfl
  | bound + 1, h => by
      simp only [latest, h (bound + 1) le_rfl]
      exact latest_eq_of_none fun m hm => h m (by omega)

theorem latest_congr {f g : Nat → Option Felt} : ∀ {bound : Nat}, (∀ m ≤ bound, f m = g m) →
    latest f bound = latest g bound
  | 0, h => by rw [latest, latest, h 0 le_rfl]
  | bound + 1, h => by
      rw [latest, latest, h (bound + 1) le_rfl, latest_congr fun m hm => h m (by omega)]

def Rows.readSlot (m : Rows) (slot : Felt) (bound : Nat) : Felt × Nat := latest (m.slots slot) bound

/-! ## What a store owes to the rows -/

/-- A range that is not turned around. -/
def Range.Proper : Range → Prop
  | inclusive first last => first ≤ last
  | above _ => True

/-- The value of a key after a list of metadata writes. -/
def metaAfter (writes : List (String × String)) (key : String) (old : Option String) :
    Option String :=
  writes.foldl (fun v w => if key = w.1 then some w.2 else v) old

/-- An implementation of the mirror's rows. `Good` is its own invariant, and
`tail_generation` the one key a replacement writes by itself. -/
class LawfulStore (S : Type) extends ConsumerStore S where
  rows : S → Rows
  Good : S → Prop
  Fits : Nat → Prop
  FitsRange : Range → Prop
  metaGet_metaSet : ∀ (s : S) (k v key : String),
    metaGet (metaSet s k v) key = if key = k then some v else metaGet s key
  rows_metaSet : ∀ (s : S) (k v : String), rows (metaSet s k v) = rows s
  good_metaSet : ∀ (s : S) (k v : String), Good s → Good (metaSet s k v)
  isEmpty_meta : ∀ s : S, isEmpty s = true → metaGet s "last_epoch_applied" = none
  isEmpty_metaSet : ∀ (s : S) {k : String} (v : String), k ≠ "last_epoch_applied" →
    isEmpty (metaSet s k v) = isEmpty s
  isEmpty_iff : ∀ s : S, Good s → (isEmpty s = true ↔
    metaGet s "last_epoch_applied" = none ∧ (∀ n, (rows s).blocks n = none) ∧
      ∀ k n, (rows s).slots k n = none)
  blockHash_eq : ∀ (s : S) (n : Nat), Fits n → blockHash s n = ((rows s).blocks n).map (·.hash)
  mem_blockHashes : ∀ {s : S} {r : Range} {l : List (Nat × Felt)}, Good s → FitsRange r →
    blockHashes s r = .ok l →
    ∀ n h, (n, h) ∈ l ↔ r.contains n = true ∧ ((rows s).blocks n).map (·.hash) = some h
  readSlotAsOf_eq : ∀ {s : S} (k : Felt) {bound : Nat}, Good s → Fits bound →
    readSlotAsOf s k bound = (rows s).readSlot k bound
  mem_fullSlotSetAsOf : ∀ (s : S) (bound : Nat) (k v : Felt),
    (k, v) ∈ fullSlotSetAsOf s bound ↔ v ≠ 0 ∧ (readSlotAsOf s k bound).1 = v
  blockHashes_ok : ∀ (s : S) {r : Range}, r.Proper → ∃ l, blockHashes s r = .ok l
  rows_installSnapshot : ∀ {s : S} {slots : List SnapSlot} {writes : List (String × String)},
    Good s → (∀ x ∈ slots, Fits x.w) →
    rows (installSnapshot s slots writes) = (rows s).install slots ∧
      Good (installSnapshot s slots writes)
  metaGet_installSnapshot : ∀ (s : S) (slots : List SnapSlot) (writes : List (String × String))
    (key : String), metaGet (installSnapshot s slots writes) key =
      metaAfter writes key (metaGet s key)
  rows_replaceRange : ∀ {s s' : S} {r : Range} {blocks : List (BlockLine × Bool)}
    {writes : List (String × String)} {bump : Bool}, Good s → FitsRange r →
    (∀ b ∈ blocks, Fits b.1.number ∧ b.1.Bounded) →
    replaceRange s r blocks writes bump = .ok s' →
    rows s' = (rows s).replace r blocks ∧ Good s'
  metaGet_replaceRange : ∀ {s s' : S} {r : Range} {blocks : List (BlockLine × Bool)}
    {writes : List (String × String)} {bump : Bool} {key : String}, key ≠ "tail_generation" →
    replaceRange s r blocks writes bump = .ok s' →
    metaGet s' key = metaAfter writes key (metaGet s key)
  replaceRange_ok : ∀ (s : S) {r : Range} (blocks : List (BlockLine × Bool))
    (writes : List (String × String)) (bump : Bool), r.Proper →
    ∃ s', replaceRange s r blocks writes bump = .ok s'

/-- A store nothing was written to. -/
structure Fresh {S : Type} [LawfulStore S] (s : S) : Prop where
  good : LawfulStore.Good s
  metas : ∀ key, metaGet s key = none
  rows : LawfulStore.rows s = Rows.empty

end Strk20.Consumer
