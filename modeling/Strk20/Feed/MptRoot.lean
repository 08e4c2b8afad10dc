import Mathlib.Data.List.TakeWhile
import Strk20.Feed.Mpt

/-!
# `storage_root` is the Patricia root of the slot set

`subtree` recurses over slices of a sorted list, the abstract `summary` over
the height. `subtree_eq_summary` identifies the two on sorted, zero-free
entries, and `storageRoot_eq_root` on every slot set whose nonzero entries
have distinct keys below `2^251`: the root is a function of the slots alone.
-/

namespace Strk20.Feed.Mpt

open BitPath Strk20.Lists Patricia

variable (pedersen : Felt → Felt → Felt)

/-- The trie's two node hashes, an edge being given by its path. -/
def feltHashing : Hashing Felt where
  binary := binaryHash pedersen
  edge := fun child path => edgeHash pedersen child (bitsToFelt path) path.length

theorem resolve_eq (n : SubNode) : resolve pedersen n = (feltHashing pedersen).resolve n := by
  simp [resolve, Hashing.resolve, feltHashing, edgeHash]

/-- Strictly ascending in the lexicographic order of the keys. -/
def BitSorted (es : List (List Bool × Felt)) : Prop :=
  es.Pairwise fun a b => le a.1 b.1 = true ∧ a.1 ≠ b.1

/-- The entries with the first `d` key bits removed. -/
def suffixes (d : Nat) (es : List (List Bool × Felt)) : List (List Bool × Felt) :=
  es.map fun e => (e.1.drop d, e.2)

theorem suffixes_zero (es : List (List Bool × Felt)) : suffixes 0 es = es := by
  simp [suffixes]

theorem drop_eq_bitAt_cons {bits : List Bool} {d : Nat} (h : d < bits.length) :
    bits.drop d = bitAt bits d :: bits.drop (d + 1) := by
  rw [bitAt, List.drop_eq_getElem_cons h, List.getD_eq_getElem bits false h]

/-! ## One step of the recursion -/

/-- The keys that continue with bit `b` at depth `d`. -/
def side (d : Nat) (b : Bool) (es : List (List Bool × Felt)) : List (List Bool × Felt) :=
  es.filter fun e => bitAt e.1 d == b

/-- A side of the split reads like the half of the slot function behind its
bit. -/
theorem assoc_suffixes_side {d : Nat} (b : Bool) (k : List Bool) :
    ∀ (es : List (List Bool × Felt)), (∀ e ∈ es, d < e.1.length) →
      assoc (suffixes (d + 1) (side d b es)) k = assoc (suffixes d es) (b :: k)
  | [], _ => rfl
  | e :: es, hlen => by
      have ih := assoc_suffixes_side b k es
        (fun e' he' => hlen e' (List.mem_cons_of_mem _ he'))
      have hdrop := drop_eq_bitAt_cons (hlen e List.mem_cons_self)
      by_cases hb : bitAt e.1 d = b
      · have hside : side d b (e :: es) = e :: side d b es := by simp [side, hb]
        rw [hside]
        simp only [suffixes, List.map_cons, assoc_cons] at ih ⊢
        rw [hdrop, hb, ih]
        simp
      · have hside : side d b (e :: es) = side d b es := by simp [side, hb]
        rw [hside, ih]
        simp only [suffixes, List.map_cons, assoc_cons, hdrop]
        have hne : b :: k ≠ bitAt e.1 d :: e.1.drop (d + 1) := fun h =>
          hb (List.cons.inj h).1.symm
        rw [if_neg hne]

theorem suffixes_side_sorted {d : Nat} {b : Bool} {es : List (List Bool × Felt)}
    (hlen : ∀ e ∈ es, d < e.1.length) (hs : BitSorted (suffixes d es)) :
    BitSorted (suffixes (d + 1) (side d b es)) := by
  simp only [BitSorted, suffixes, side, List.pairwise_map, List.pairwise_filter] at hs ⊢
  refine hs.imp_of_mem fun {a c} ha hc hac hba hbc => ?_
  have hba' : bitAt a.1 d = b := by simpa using hba
  have hbc' : bitAt c.1 d = b := by simpa using hbc
  rw [drop_eq_bitAt_cons (hlen a ha), drop_eq_bitAt_cons (hlen c hc), hba', hbc'] at hac
  exact ⟨by simpa [le] using hac.1, fun heq => hac.2 (by rw [heq])⟩

/-- On a sorted list the keys that continue with `false` come first. -/
theorem partitioned_bit {d : Nat} {es : List (List Bool × Felt)}
    (hlen : ∀ e ∈ es, d < e.1.length) (hs : BitSorted (suffixes d es)) :
    Partitioned (fun e : List Bool × Felt => !bitAt e.1 d) es := by
  simp only [BitSorted, suffixes, List.pairwise_map] at hs
  refine hs.imp_of_mem fun {a c} ha hc hac hc0 => ?_
  rw [drop_eq_bitAt_cons (hlen a ha), drop_eq_bitAt_cons (hlen c hc)] at hac
  have hc1 : bitAt c.1 d = false := by simpa using hc0
  have hle := hac.1
  rw [hc1] at hle
  cases hab : bitAt a.1 d with
  | false => simp [hab]
  | true => rw [hab] at hle; simp [le] at hle

/-- `subtree` computes the abstract summary. The induction is on the number of
bits left; each step splits the list by the bit the summary splits on. -/
theorem subtree_eq_summary : ∀ (fuel d : Nat) (es : List (List Bool × Felt)),
    (∀ e ∈ es, e.1.length = d + fuel ∧ e.2 ≠ 0) → BitSorted (suffixes d es) →
    subtree pedersen fuel es d =
      summary (feltHashing pedersen) fuel (assoc (suffixes d es))
  | fuel, d, [], _, _ => by
      have h0 : summary (feltHashing pedersen) fuel (assoc (suffixes d [])) = none :=
        summary_eq_none_iff.mpr fun k _ => rfl
      rw [h0]
      cases fuel <;> rfl
  | fuel, d, [(bits, value)], hes, _ => by
      obtain ⟨hlen, hv⟩ := hes (bits, value) (by simp)
      have hk : (bits.drop d).length = fuel := by
        rw [List.length_drop]
        simp only at hlen
        omega
      have hval : assoc (suffixes d [(bits, value)]) (bits.drop d) = value := by
        simp [suffixes, assoc_cons]
      have hs := summary_single (H := feltHashing pedersen) (k := bits.drop d)
        (f := assoc (suffixes d [(bits, value)])) (by rw [hval]; exact hv)
        (fun k' _ hne => by simp [suffixes, assoc_cons, hne])
      rw [hk, hval] at hs
      rw [hs]
      cases fuel <;> rfl
  | 0, d, e₁ :: e₂ :: es, hes, hs => by
      -- two keys of the same length with no bits left would be equal
      have h₁ := (hes e₁ (by simp)).1
      have h₂ := (hes e₂ (by simp)).1
      have hne := ((List.pairwise_cons.mp hs).1 (e₂.1.drop d, e₂.2) (by simp)).2
      refine absurd ?_ hne
      show e₁.1.drop d = e₂.1.drop d
      rw [List.drop_eq_nil_of_le (by omega), List.drop_eq_nil_of_le (by omega)]
  | fuel + 1, d, e₁ :: e₂ :: es, hes, hs => by
      have hlen : ∀ e ∈ e₁ :: e₂ :: es, d < e.1.length := fun e he => by
        have := (hes e he).1
        omega
      have hpart := partitioned_bit hlen hs
      have htake := take_partitionPoint hpart
      have hdrop := drop_partitionPoint hpart
      have hleft : (e₁ :: e₂ :: es).filter (fun e => !bitAt e.1 d) =
          side d false (e₁ :: e₂ :: es) := by
        simp [side]
      have hright : (e₁ :: e₂ :: es).filter (fun e => !!bitAt e.1 d) =
          side d true (e₁ :: e₂ :: es) := by
        simp [side]
      have hside : ∀ b, ∀ e ∈ side d b (e₁ :: e₂ :: es), e.1.length = (d + 1) + fuel ∧ e.2 ≠ 0 := by
        intro b e he
        have := hes e (List.mem_of_mem_filter he)
        exact ⟨by omega, this.2⟩
      have ihl := subtree_eq_summary fuel (d + 1) _ (hside false) (suffixes_side_sorted hlen hs)
      have ihr := subtree_eq_summary fuel (d + 1) _ (hside true) (suffixes_side_sorted hlen hs)
      have hfl : assoc (suffixes (d + 1) (side d false (e₁ :: e₂ :: es))) =
          fun k => assoc (suffixes d (e₁ :: e₂ :: es)) (false :: k) :=
        funext fun k => assoc_suffixes_side false k _ hlen
      have hfr : assoc (suffixes (d + 1) (side d true (e₁ :: e₂ :: es))) =
          fun k => assoc (suffixes d (e₁ :: e₂ :: es)) (true :: k) :=
        funext fun k => assoc_suffixes_side true k _ hlen
      rw [hfl] at ihl
      rw [hfr] at ihr
      rw [subtree, htake, hdrop, hleft, hright, ihl, ihr, summary]
      cases summary (feltHashing pedersen) fuel
          (fun k => assoc (suffixes d (e₁ :: e₂ :: es)) (false :: k)) <;>
        cases summary (feltHashing pedersen) fuel
          (fun k => assoc (suffixes d (e₁ :: e₂ :: es)) (true :: k)) <;>
        simp [join, resolve_eq, feltHashing, binaryHash]

/-! ## The sorted entries -/

theorem bitEntries_sorted (entries : List (Felt × Felt)) : BitSorted (bitEntries entries) := by
  set withBits := (entries.filter fun e => e.2 ≠ 0).map fun e => (keyBits e.1, e.2)
    with hwb
  have hsorted : (withBits.mergeSort fun a b => le a.1 b.1).Pairwise
      fun a b => le a.1 b.1 = true :=
    List.pairwise_mergeSort
      (fun a b c hab hbc => BitPath.le_trans (a := a.1) (b := b.1) (c := c.1) hab hbc)
      (fun a b => BitPath.le_total a.1 b.1) withBits
  have hle : (bitEntries entries).Pairwise fun a b => le a.1 b.1 = true :=
    hsorted.sublist (List.destutter_sublist _ _)
  have hchain : (bitEntries entries).IsChain fun a b => a.1 ≠ b.1 :=
    List.isChain_destutter _ _
  -- adjacent keys differ and the list ascends, so all keys differ
  have hlt : (bitEntries entries).IsChain fun a b => le a.1 b.1 = true ∧ a.1 ≠ b.1 := by
    rw [List.isChain_iff_forall_rel_of_append_cons_cons] at hchain ⊢
    intro a b l₁ l₂ heq
    have hab := List.isChain_iff_forall_rel_of_append_cons_cons.mp hle.isChain heq
    exact ⟨hab, hchain heq⟩
  have : IsTrans (List Bool × Felt) fun a b => le a.1 b.1 = true ∧ a.1 ≠ b.1 :=
    ⟨fun a b c hab hbc => ⟨BitPath.le_trans hab.1 hbc.1, fun hac =>
      hab.2 (BitPath.le_antisymm hab.1 (by rw [hac]; exact hbc.1))⟩⟩
  exact List.isChain_iff_pairwise.mp hlt

theorem mem_of_mem_bitEntries {entries : List (Felt × Felt)} {bits : List Bool} {v : Felt}
    (h : (bits, v) ∈ bitEntries entries) :
    ∃ k, (k, v) ∈ entries ∧ v ≠ 0 ∧ bits = keyBits k := by
  have hmem := (List.destutter_sublist _ _).subset h
  rw [List.mem_mergeSort, List.mem_map] at hmem
  obtain ⟨e, he, heq⟩ := hmem
  obtain ⟨hin, hnz⟩ := List.mem_filter.mp he
  obtain ⟨rfl, rfl⟩ := Prod.mk.inj heq
  exact ⟨e.1, hin, by simpa using hnz, rfl⟩

/-- The root of any entry list, as the abstract root of its sorted form. -/
theorem storageRoot_eq_root_bitEntries (entries : List (Felt × Felt)) :
    storageRoot pedersen entries =
      root (feltHashing pedersen) TREE_HEIGHT (assoc (bitEntries entries)) := by
  have hall : entriesWithPrefix (bitEntries entries) [] = bitEntries entries := by
    have hlo : partitionPoint (fun e : List Bool × Felt => !le [] (e.1.take 0))
        (bitEntries entries) = 0 := by
      cases bitEntries entries <;> simp [partitionPoint, le]
    have hhi : (bitEntries entries).takeWhile (fun e => le (e.1.take 0) []) =
        bitEntries entries :=
      List.takeWhile_eq_self_iff.mpr fun e _ => by simp
    simp only [entriesWithPrefix, List.length_nil]
    rw [hlo, partitionPoint, hhi, List.take_length, List.drop_zero]
  have hsub := subtree_eq_summary pedersen TREE_HEIGHT 0 (bitEntries entries)
    (fun e he => by
      obtain ⟨k, -, hnz, hk⟩ := mem_of_mem_bitEntries he
      rw [hk]
      exact ⟨by simp, hnz⟩)
    (by rw [suffixes_zero]; exact bitEntries_sorted entries)
  rw [suffixes_zero] at hsub
  simp only [storageRoot, subtreeHashAt, hall, List.length_nil, Nat.sub_zero, root, hsub]
  cases summary (feltHashing pedersen) TREE_HEIGHT (assoc (bitEntries entries)) with
  | none => rfl
  | some n => exact resolve_eq pedersen n

/-! ## Slot sets -/

/-- A slot set the trie can hold: keys below `2^251`, no key twice among the
nonzero entries. Zero-valued entries are ignored. -/
structure SlotSet (entries : List (Felt × Felt)) : Prop where
  isTrieKey : ∀ e ∈ entries, e.1.val < 2 ^ 251
  nodup : ((entries.filter fun e => e.2 ≠ 0).map Prod.fst).Nodup

/-- The value of `key` in a slot set, `0` when absent. -/
def slotValue (entries : List (Felt × Felt)) (key : Felt) : Felt :=
  assoc (entries.filter fun e => e.2 ≠ 0) key

theorem slotValue_eq_iff {entries : List (Felt × Felt)} (h : SlotSet entries) {key v : Felt}
    (hv : v ≠ 0) : slotValue entries key = v ↔ (key, v) ∈ entries := by
  constructor
  · rintro rfl
    exact List.mem_of_mem_filter (mem_of_assoc_ne_zero hv)
  · intro hmem
    exact assoc_of_mem h.nodup (List.mem_filter.mpr ⟨hmem, by simpa using hv⟩)

/-- The slot function of the trie: 251-bit paths to values. -/
def slotFn (entries : List (Felt × Felt)) (bits : List Bool) : Felt :=
  slotValue entries (bitsToFelt bits)

theorem slotFn_keyBits {entries : List (Felt × Felt)} {key : Felt}
    (hk : key.val < 2 ^ 251) : slotFn entries (keyBits key) = slotValue entries key := by
  have : bitsToFelt (keyBits key) = key :=
    keyBits_inj (bitsToFelt_lt (by simp)) hk (keyBits_bitsToFelt (by simp))
  rw [slotFn, this]

theorem mem_bitEntries_iff {entries : List (Felt × Felt)} (h : SlotSet entries)
    {key v : Felt} (hv : v ≠ 0) (hk : key.val < 2 ^ 251) :
    (keyBits key, v) ∈ bitEntries entries ↔ (key, v) ∈ entries := by
  constructor
  · intro hmem
    obtain ⟨k, hin, -, hbits⟩ := mem_of_mem_bitEntries hmem
    rwa [keyBits_inj hk (h.isTrieKey _ hin) hbits]
  · intro hmem
    -- nothing is dropped: the nonzero keys have distinct bits already
    have hnd : ((entries.filter fun e => e.2 ≠ 0).map fun e => (keyBits e.1, e.2)).Pairwise
        fun a b => a.1 ≠ b.1 := by
      rw [List.pairwise_map]
      have hne := List.pairwise_map.mp h.nodup
      refine hne.imp_of_mem fun {a b} ha hb hab hbits => hab ?_
      exact keyBits_inj (h.isTrieKey _ (List.mem_of_mem_filter ha))
        (h.isTrieKey _ (List.mem_of_mem_filter hb)) hbits
    have hperm := List.mergeSort_perm
      ((entries.filter fun e => e.2 ≠ 0).map fun e => (keyBits e.1, e.2))
      (fun a b => le a.1 b.1)
    have hnd' := hperm.symm.pairwise hnd (fun h => Ne.symm h)
    rw [bitEntries, List.destutter_of_isChain _ _ hnd'.isChain, List.mem_mergeSort,
      List.mem_map]
    exact ⟨(key, v), List.mem_filter.mpr ⟨hmem, by simpa using hv⟩, rfl⟩

/-- The sorted entries read like the slots. -/
theorem assoc_bitEntries {entries : List (Felt × Felt)} (h : SlotSet entries) {bits : List Bool}
    (hbits : bits.length = TREE_HEIGHT) : assoc (bitEntries entries) bits = slotFn entries bits := by
  have hkey := keyBits_bitsToFelt hbits
  have hlt := bitsToFelt_lt hbits
  have hnd : ((bitEntries entries).map Prod.fst).Nodup :=
    List.pairwise_map.mpr ((bitEntries_sorted entries).imp fun h => h.2)
  by_cases hz : slotFn entries bits = 0
  · rw [hz]
    by_contra hne
    have hmem := mem_of_assoc_ne_zero hne
    rw [← hkey] at hmem
    have hin := (mem_bitEntries_iff h (by rw [hkey]; exact hne) hlt).mp hmem
    have := (slotValue_eq_iff h (by rw [hkey]; exact hne)).mpr hin
    rw [hkey] at this
    exact hne (this.symm.trans hz)
  · have hin := (slotValue_eq_iff h hz).mp rfl
    have hmem := (mem_bitEntries_iff h hz hlt).mpr hin
    rw [hkey] at hmem
    exact assoc_of_mem hnd hmem

/-- **The storage root is the Patricia root of the slots.** -/
theorem storageRoot_eq_root {entries : List (Felt × Felt)} (h : SlotSet entries) :
    storageRoot pedersen entries =
      root (feltHashing pedersen) TREE_HEIGHT (slotFn entries) := by
  rw [storageRoot_eq_root_bitEntries]
  exact root_congr fun bits hbits => assoc_bitEntries h hbits

end Strk20.Feed.Mpt
