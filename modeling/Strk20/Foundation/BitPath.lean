import Mathlib.Data.Nat.Bitwise
import Mathlib.Data.List.Basic
import Mathlib.Tactic.Ring

/-!
# Bit paths

Fixed-width, most-significant-first bit lists of natural numbers. `bitsOf w n`
reads the low `w` bits of `n`, `ofBits` is its inverse on lists of length `w`,
and the lexicographic order of the lists is the order of the numbers.
-/

namespace Strk20.BitPath

/-- The low `w` bits of `n`, most significant first. -/
def bitsOf : Nat → Nat → List Bool
  | 0, _ => []
  | w + 1, n => n.testBit w :: bitsOf w n

/-- The number a most-significant-first bit list spells. -/
def ofBits (bits : List Bool) : Nat :=
  bits.foldl (fun n b => 2 * n + b.toNat) 0

@[simp] theorem length_bitsOf : ∀ (w n : Nat), (bitsOf w n).length = w
  | 0, _ => rfl
  | w + 1, n => by simp [bitsOf, length_bitsOf w n]

theorem drop_bitsOf : ∀ (w d n : Nat), (bitsOf w n).drop d = bitsOf (w - d) n
  | w, 0, n => by simp
  | 0, d + 1, n => by simp [bitsOf]
  | w + 1, d + 1, n => by
      rw [Nat.add_sub_add_right]
      simpa [bitsOf] using drop_bitsOf w d n

theorem getElem?_bitsOf : ∀ (w d n : Nat), d < w →
    (bitsOf w n)[d]? = some (n.testBit (w - 1 - d))
  | 0, _, _, h => absurd h (Nat.not_lt_zero _)
  | w + 1, 0, n, _ => by simp [bitsOf]
  | w + 1, d + 1, n, h => by
      have hd : d < w := Nat.lt_of_succ_lt_succ h
      have ih := getElem?_bitsOf w d n hd
      have hidx : w + 1 - 1 - (d + 1) = w - 1 - d := by omega
      rw [hidx, ← ih]
      rfl

/-- Reading the bits one position at a time gives the same list. -/
theorem bitsOf_eq_map (w n : Nat) :
    bitsOf w n = (List.range w).map fun d => n.testBit (w - 1 - d) := by
  refine List.ext_getElem? fun d => ?_
  by_cases hd : d < w
  · rw [getElem?_bitsOf w d n hd, List.getElem?_map, List.getElem?_range hd]
    rfl
  · have h₁ : (bitsOf w n)[d]? = none := by simp; omega
    have h₂ : ((List.range w).map fun d => n.testBit (w - 1 - d))[d]? = none := by
      simp; omega
    rw [h₁, h₂]

/-! ## Lists and numbers determine each other -/

theorem foldl_ofBits (bits : List Bool) : ∀ n : Nat,
    bits.foldl (fun n b => 2 * n + b.toNat) n = n * 2 ^ bits.length + ofBits bits := by
  induction bits with
  | nil => intro n; simp [ofBits]
  | cons b bits ih =>
      intro n
      simp only [ofBits, List.foldl_cons, List.length_cons, Nat.mul_zero, Nat.zero_add]
      rw [ih, ih b.toNat, Nat.pow_succ]
      ring

theorem ofBits_cons (b : Bool) (bits : List Bool) :
    ofBits (b :: bits) = b.toNat * 2 ^ bits.length + ofBits bits := by
  have h := foldl_ofBits bits b.toNat
  simpa [ofBits] using h

theorem ofBits_lt : ∀ bits : List Bool, ofBits bits < 2 ^ bits.length
  | [] => by simp [ofBits]
  | b :: bits => by
      have ih := ofBits_lt bits
      rw [ofBits_cons, List.length_cons, Nat.pow_succ]
      cases b
      · simp only [Bool.toNat_false, Nat.zero_mul]; omega
      · simp only [Bool.toNat_true, Nat.one_mul]; omega

theorem bitsOf_mod : ∀ (w n m : Nat), w ≤ m → bitsOf w (n % 2 ^ m) = bitsOf w n
  | 0, _, _, _ => rfl
  | w + 1, n, m, h => by
      simp only [bitsOf, Nat.testBit_mod_two_pow]
      rw [bitsOf_mod w n m (by omega)]
      simp [show w < m from h]

theorem bitsOf_ofBits : ∀ bits : List Bool, bitsOf bits.length (ofBits bits) = bits
  | [] => rfl
  | b :: bits => by
      have ih := bitsOf_ofBits bits
      have hlt := ofBits_lt bits
      have hhead : (ofBits (b :: bits)).testBit bits.length = b := by
        rw [ofBits_cons, Nat.mul_comm, Nat.testBit_two_pow_mul_add _ hlt]
        cases b <;> simp
      have htail : ofBits (b :: bits) % 2 ^ bits.length = ofBits bits := by
        rw [ofBits_cons, Nat.mul_add_mod_self_right, Nat.mod_eq_of_lt hlt]
      rw [List.length_cons, bitsOf, hhead,
        ← bitsOf_mod _ (ofBits (b :: bits)) _ (Nat.le_refl _), htail, ih]

theorem ofBits_bitsOf : ∀ (w n : Nat), ofBits (bitsOf w n) = n % 2 ^ w
  | 0, n => by simp [bitsOf, ofBits, Nat.mod_one]
  | w + 1, n => by
      rw [bitsOf, ofBits_cons, ofBits_bitsOf w n, length_bitsOf, Nat.mod_pow_succ,
        Nat.toNat_testBit]
      ring

theorem bitsOf_inj {w n m : Nat} (hn : n < 2 ^ w) (hm : m < 2 ^ w)
    (h : bitsOf w n = bitsOf w m) : n = m := by
  have := congrArg ofBits h
  rwa [ofBits_bitsOf, ofBits_bitsOf, Nat.mod_eq_of_lt hn, Nat.mod_eq_of_lt hm] at this

/-! ## Lexicographic order -/

/-- Lexicographic `≤` on bit paths, `false` before `true`. -/
def le : List Bool → List Bool → Bool
  | [], _ => true
  | _ :: _, [] => false
  | a :: as, b :: bs => if a = b then le as bs else !a

@[simp] theorem le_refl : ∀ a : List Bool, le a a = true
  | [] => rfl
  | x :: a => by simp [le, le_refl a]

theorem le_total : ∀ a b : List Bool, (le a b || le b a) = true
  | [], _ => by simp [le]
  | _ :: _, [] => by simp [le]
  | x :: a, y :: b => by
      by_cases h : x = y
      · subst h
        simpa [le] using le_total a b
      · cases x <;> cases y <;> simp_all [le]

theorem le_trans : ∀ {a b c : List Bool}, le a b = true → le b c = true → le a c = true
  | [], _, _, _, _ => by simp [le]
  | _ :: _, [], _, h, _ => by simp [le] at h
  | _ :: _, _ :: _, [], _, h => by simp [le] at h
  | x :: a, y :: b, z :: c, hab, hbc => by
      have ih := @le_trans a b c
      cases x <;> cases y <;> cases z <;> simp_all [le]

theorem le_antisymm : ∀ {a b : List Bool}, le a b = true → le b a = true → a = b
  | [], [], _, _ => rfl
  | [], _ :: _, _, h => by simp [le] at h
  | _ :: _, [], h, _ => by simp [le] at h
  | x :: a, y :: b, hab, hba => by
      have ih := @le_antisymm a b
      cases x <;> cases y <;> simp_all [le]

theorem le_append_left_iff : ∀ (p a b : List Bool), le (p ++ a) (p ++ b) = le a b
  | [], _, _ => rfl
  | x :: p, a, b => by simpa [le] using le_append_left_iff p a b

/-- The order of bit paths of one width is the order of the numbers. -/
theorem le_bitsOf : ∀ {w n m : Nat}, n ≤ m → m < 2 ^ w → le (bitsOf w n) (bitsOf w m) = true
  | 0, _, _, _, _ => rfl
  | w + 1, n, m, h, hm => by
      rw [Nat.pow_succ] at hm
      by_cases hbm : m < 2 ^ w
      · have hbn : n < 2 ^ w := Nat.lt_of_le_of_lt h hbm
        simp [bitsOf, le, Nat.testBit_lt_two_pow hbn, Nat.testBit_lt_two_pow hbm,
          le_bitsOf h hbm]
      · have hm1 : m.testBit w = true :=
          Nat.testBit_of_two_pow_le_and_two_pow_add_one_gt (by omega)
            (by rw [Nat.pow_succ]; omega)
        by_cases hbn : n < 2 ^ w
        · simp [bitsOf, le, Nat.testBit_lt_two_pow hbn, hm1]
        · have hn1 : n.testBit w = true :=
            Nat.testBit_of_two_pow_le_and_two_pow_add_one_gt (by omega)
              (by rw [Nat.pow_succ]; omega)
          -- both numbers carry the top bit: compare what is left of them
          have hsub : ∀ x, 2 ^ w ≤ x → x < 2 ^ w * 2 → bitsOf w x = bitsOf w (x - 2 ^ w) := by
            intro x hx hx'
            rw [← bitsOf_mod w x w (Nat.le_refl _), Nat.mod_eq_sub_mod hx,
              Nat.mod_eq_of_lt (by omega)]
          simp only [bitsOf, hn1, hm1, le, if_true]
          rw [hsub n (by omega) (by omega), hsub m (by omega) hm]
          exact le_bitsOf (by omega) (by omega)

/-- Everything between two lists with a common prefix has that prefix. -/
theorem prefix_of_between : ∀ {p a b e : List Bool}, p <+: a → p <+: b →
    p.length ≤ e.length → le a e = true → le e b = true → p <+: e
  | [], _, _, _, _, _, _, _, _ => List.nil_prefix
  | x :: p, [], _, _, ha, _, _, _, _ => by simp at ha
  | x :: p, _ :: _, [], _, _, hb, _, _, _ => by simp at hb
  | x :: p, _ :: _, _ :: _, [], _, _, hlen, _, _ => by simp at hlen
  | x :: p, y :: a, z :: b, w :: e, ha, hb, hlen, hae, heb => by
      obtain ⟨rfl, ha'⟩ := List.cons_prefix_cons.mp ha
      obtain ⟨rfl, hb'⟩ := List.cons_prefix_cons.mp hb
      have hw : x = w := by
        by_contra hne
        cases x <;> cases w <;> simp_all [le]
      subst hw
      simp only [le, if_true] at hae heb
      exact List.cons_prefix_cons.mpr
        ⟨rfl, prefix_of_between ha' hb' (by simpa using hlen) hae heb⟩

end Strk20.BitPath
