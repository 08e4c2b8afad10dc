import Mathlib.Data.List.Destutter
import Strk20.Foundation.Lists
import Strk20.Foundation.Patricia
import Strk20.Feed.Felt

/-!
# The contract-storage trie (`mpt.rs`)

Starknet's Merkle-Patricia trie of height 251, computed from a complete slot
set. `pedersen` is a parameter: nothing below looks inside it.

- binary node: `pedersen left right`
- edge node: `pedersen child path + length`, the addition in the field
- leaf: the value; empty subtree: `0`
-/

namespace Strk20.Feed.Mpt

open BitPath Strk20.Lists Patricia

def TREE_HEIGHT : Nat := 251

/-- Bit of the key at `depth`, counting from the top of its 251 bits. -/
def keyBit (bytes : Key) (depth : Nat) : Bool :=
  bytes.val.testBit (TREE_HEIGHT - 1 - depth)

def keyBits (f : Felt) : List Bool :=
  (List.range TREE_HEIGHT).map (keyBit (toBytesBe f))

/-- Every bit at index `bits` or above (from the least significant) is clear. -/
def fitsInBits (bytes : Key) (bits : Nat) : Bool :=
  if 256 ≤ bits then true
  else (List.range' bits (256 - bits)).all fun i => !bytes.val.testBit i

/-- A trie key must be below `2^251`: the walk reads exactly 251 bits. -/
def isTrieKey (f : Felt) : Bool := fitsInBits (toBytesBe f) TREE_HEIGHT

section Hashing

variable (pedersen : Felt → Felt → Felt)

def binaryHash (left right : Felt) : Felt := pedersen left right

def edgeHash (child path : Felt) (length : Nat) : Felt :=
  pedersen child path + Fin.ofNat STARK_PRIME length

/-- Most-significant-first bit path to felt. -/
def bitsToFelt (bits : List Bool) : Felt := Fin.ofNat STARK_PRIME (ofBits bits)

/-- An internal subtree summarised as a possibly zero-length edge over a
bottom hash. -/
abbrev SubNode := Summary Felt

def resolve (n : SubNode) : Felt :=
  if n.path.isEmpty then n.bottom
  else pedersen n.bottom (bitsToFelt n.path) + Fin.ofNat STARK_PRIME n.path.length

/-- `bits[depth]`. -/
def bitAt (bits : List Bool) (depth : Nat) : Bool := bits.getD depth false

/-- `fuel` is the number of bits below `depth`. It runs out only on two
entries with one key, which the source asserts away. -/
def subtree : Nat → List (List Bool × Felt) → Nat → Option SubNode
  | _, [], _ => none
  | _, [(bits, value)], depth => some ⟨bits.drop depth, value⟩
  | 0, _ :: _ :: _, _ => none
  | fuel + 1, entries@(_ :: _ :: _), depth =>
      -- entries are sorted by bits, so the split point is the first `true`
      let split := partitionPoint (fun e => !bitAt e.1 depth) entries
      let left := subtree fuel (entries.take split) (depth + 1)
      let right := subtree fuel (entries.drop split) (depth + 1)
      match left, right with
      | some l, some r => some ⟨[], pedersen (resolve pedersen l) (resolve pedersen r)⟩
      | some l, none => some ⟨false :: l.path, l.bottom⟩
      | none, some r => some ⟨true :: r.path, r.bottom⟩
      | none, none => none

/-- Sort a slot set into the bit-keyed, zero-free form. -/
def bitEntries (entries : List (Felt × Felt)) : List (List Bool × Felt) :=
  let withBits := (entries.filter fun e => e.2 ≠ 0).map fun e => (keyBits e.1, e.2)
  let sorted := withBits.mergeSort fun a b => le a.1 b.1
  sorted.destutter fun a b => a.1 ≠ b.1

/-- The entries whose key begins with `pre`: a contiguous run of the sorted
list. -/
def entriesWithPrefix (sorted : List (List Bool × Felt)) (pre : List Bool) :
    List (List Bool × Felt) :=
  let d := pre.length
  let lo := partitionPoint (fun e => !le pre (e.1.take d)) sorted
  let hi := partitionPoint (fun e => le (e.1.take d) pre) sorted
  (sorted.take hi).drop lo

/-- The hash a parent stores for the child covering every key that begins
with `pre`. -/
def subtreeHashAt (sorted : List (List Bool × Felt)) (pre : List Bool) : Felt :=
  let slice := entriesWithPrefix sorted pre
  match subtree pedersen (TREE_HEIGHT - pre.length) slice pre.length with
  | none => 0
  | some n => resolve pedersen n

/-- A contract's storage root from its complete slot set. -/
def storageRoot (entries : List (Felt × Felt)) : Felt :=
  subtreeHashAt pedersen (bitEntries entries) []

end Hashing

/-! ## Key bits -/

theorem keyBits_eq_bitsOf (f : Felt) : keyBits f = bitsOf TREE_HEIGHT f.val := by
  rw [bitsOf_eq_map]
  rfl

@[simp] theorem length_keyBits (f : Felt) : (keyBits f).length = TREE_HEIGHT := by
  simp [keyBits_eq_bitsOf]

theorem fitsInBits_iff (k : Key) (bits : Nat) :
    fitsInBits k bits = true ↔ k.val < 2 ^ bits := by
  by_cases hb : 256 ≤ bits
  · simp only [fitsInBits, if_pos hb, true_iff]
    exact Nat.lt_of_lt_of_le k.isLt (Nat.pow_le_pow_right (by decide) hb)
  · simp only [fitsInBits, if_neg hb, List.all_eq_true, List.mem_range'_1,
      Bool.not_eq_true']
    constructor
    · intro h
      refine Nat.lt_pow_two_of_testBit _ fun i hi => ?_
      by_cases hi' : i < 256
      · exact h i ⟨hi, by omega⟩
      · exact Nat.testBit_lt_two_pow
          (Nat.lt_of_lt_of_le k.isLt (Nat.pow_le_pow_right (by decide) (by omega)))
    · intro h i hi
      exact Nat.testBit_lt_two_pow
        (Nat.lt_of_lt_of_le h (Nat.pow_le_pow_right (by decide) hi.1))

theorem isTrieKey_iff (f : Felt) : isTrieKey f = true ↔ f.val < 2 ^ 251 :=
  fitsInBits_iff _ _

theorem keyBits_inj {f g : Felt} (hf : f.val < 2 ^ 251) (hg : g.val < 2 ^ 251)
    (h : keyBits f = keyBits g) : f = g := by
  rw [keyBits_eq_bitsOf, keyBits_eq_bitsOf] at h
  exact Fin.ext (bitsOf_inj hf hg h)

theorem bitsToFelt_val {bits : List Bool} (h : bits.length ≤ TREE_HEIGHT) :
    (bitsToFelt bits).val = ofBits bits := by
  have hlt : ofBits bits < STARK_PRIME :=
    calc ofBits bits < 2 ^ bits.length := ofBits_lt bits
      _ ≤ 2 ^ 251 := Nat.pow_le_pow_right (by decide) h
      _ < STARK_PRIME := two_pow_251_lt_prime
  simp [bitsToFelt, Nat.mod_eq_of_lt hlt]

/-- Every 251-bit path is the path of one trie key. -/
theorem keyBits_bitsToFelt {bits : List Bool} (h : bits.length = TREE_HEIGHT) :
    keyBits (bitsToFelt bits) = bits := by
  rw [keyBits_eq_bitsOf, bitsToFelt_val (le_of_eq h), ← h, bitsOf_ofBits]

theorem bitsToFelt_lt {bits : List Bool} (h : bits.length = TREE_HEIGHT) :
    (bitsToFelt bits).val < 2 ^ 251 := by
  rw [bitsToFelt_val (le_of_eq h)]
  exact lt_of_lt_of_eq (ofBits_lt bits) (by rw [h]; rfl)

theorem bitsToFelt_keyBits {key : Felt} (hk : key.val < 2 ^ 251) : bitsToFelt (keyBits key) = key :=
  keyBits_inj (bitsToFelt_lt (length_keyBits key)) hk (keyBits_bitsToFelt (length_keyBits key))

theorem bitsToFelt_inj {a b : List Bool} (ha : a.length = TREE_HEIGHT) (hb : b.length = TREE_HEIGHT)
    (h : bitsToFelt a = bitsToFelt b) : a = b := by
  rw [← keyBits_bitsToFelt ha, h, keyBits_bitsToFelt hb]

end Strk20.Feed.Mpt
