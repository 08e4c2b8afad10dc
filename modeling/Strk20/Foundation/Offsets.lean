import Mathlib.Data.List.Basic

/-!
# Cutting a text at offsets

A text is its characters. An offset into it counts units, and what a unit is
depends on the language: bytes of UTF-8 for one, UTF-16 code units for another. `size`
gives the units of a character. Where a text is cut beside a character that is one
unit wide in both, the offsets differ and the pieces do not.
-/

namespace Strk20.Offsets

section

variable (size : Char → Nat)

/-- The units of a text. -/
def width : List Char → Nat
  | [] => 0
  | c :: cs => size c + width cs

/-- Offset of the first `d`. -/
def indexOf (d : Char) : List Char → Option Nat
  | [] => none
  | c :: cs => if c = d then some 0 else (indexOf d cs).map (size c + ·)

/-- Offset of the last `d`. -/
def lastIndexOf (d : Char) : List Char → Option Nat
  | [] => none
  | c :: cs =>
      match lastIndexOf d cs with
      | some i => some (size c + i)
      | none => if c = d then some 0 else none

/-- Offset of the last `d` that starts at or before `bound`. -/
def lastIndexUpTo (d : Char) : Nat → List Char → Option Nat
  | _, [] => none
  | bound, c :: cs =>
      match if size c ≤ bound then lastIndexUpTo d (bound - size c) cs else none with
      | some i => some (size c + i)
      | none => if c = d then some 0 else none

/-- The text before an offset. -/
def upTo : Nat → List Char → List Char
  | _, [] => []
  | n, c :: cs => if n = 0 then [] else c :: upTo (n - size c) cs

/-- The text from an offset on. -/
def onFrom : Nat → List Char → List Char
  | _, [] => []
  | n, c :: cs => if n = 0 then c :: cs else onFrom (n - size c) cs

/-- The text between two offsets. -/
def slice (first last : Nat) (cs : List Char) : List Char := onFrom size first (upTo size last cs)

/-- Every character is at least one unit wide, and `d` exactly one. -/
structure Unit (d : Char) : Prop where
  pos : ∀ c, 0 < size c
  one : size d = 1

end

variable {size : Char → Nat} {d : Char}

theorem width_append (a b : List Char) : width size (a ++ b) = width size a + width size b := by
  induction a with
  | nil => simp [width]
  | cons c a ih =>
      rw [List.cons_append, width, width, ih]
      omega

theorem indexOf_append {a : List Char} (ha : d ∉ a) (b : List Char) :
    indexOf size d (a ++ d :: b) = some (width size a) := by
  induction a with
  | nil => simp [indexOf, width]
  | cons c a ih =>
      obtain ⟨hc, ha⟩ := not_or.mp (fun h => ha (List.mem_cons.mpr h))
      rw [List.cons_append, indexOf, if_neg (Ne.symm hc), ih ha]
      rfl

theorem lastIndexOf_eq_none {cs : List Char} (h : d ∉ cs) : lastIndexOf size d cs = none := by
  induction cs with
  | nil => rfl
  | cons c cs ih =>
      obtain ⟨hc, h⟩ := not_or.mp (fun hm => h (List.mem_cons.mpr hm))
      rw [lastIndexOf, ih h]
      exact if_neg (Ne.symm hc)

theorem mem_of_lastIndexOf {cs : List Char} {i : Nat} (h : lastIndexOf size d cs = some i) :
    d ∈ cs := by
  by_contra hnot
  rw [lastIndexOf_eq_none hnot] at h
  cases h

theorem lastIndexOf_append (a : List Char) {b : List Char} (hb : d ∉ b) :
    lastIndexOf size d (a ++ d :: b) = some (width size a) := by
  induction a with
  | nil =>
      rw [List.nil_append, lastIndexOf, lastIndexOf_eq_none hb]
      exact if_pos rfl
  | cons c a ih =>
      rw [List.cons_append, lastIndexOf, ih]
      rfl

/-- Past the bound nothing counts. -/
theorem lastIndexUpTo_eq_none {z : List Char} (hz : d ∉ z) {bound : Nat}
    (hbound : bound < width size z) (b : List Char) : lastIndexUpTo size d bound (z ++ b) = none := by
  induction z generalizing bound with
  | nil => exact absurd hbound (Nat.not_lt_zero _)
  | cons c z ih =>
      obtain ⟨hc, hz⟩ := not_or.mp (fun h => hz (List.mem_cons.mpr h))
      rw [width] at hbound
      rw [List.cons_append, lastIndexUpTo]
      by_cases hle : size c ≤ bound
      · rw [if_pos hle, ih hz (by omega)]
        exact if_neg (Ne.symm hc)
      · rw [if_neg hle]
        exact if_neg (Ne.symm hc)

/-- The last `d` but one, looked for two units before the end. -/
theorem lastIndexUpTo_append (hu : Unit size d) (a : List Char) {z : List Char} (hz : d ∉ z) :
    lastIndexUpTo size d (width size (a ++ d :: (z ++ [d])) - 2) (a ++ d :: (z ++ [d])) =
      some (width size a) := by
  have hwidth : width size (a ++ d :: (z ++ [d])) - 2 = width size a + width size z := by
    rw [width_append, width, width_append, width, width, hu.one]
    omega
  rw [hwidth]
  clear hwidth
  induction a with
  | nil =>
      have hnone : (if size d ≤ width size [] + width size z then
          lastIndexUpTo size d (width size [] + width size z - size d) (z ++ [d]) else none) =
            none := by
        rw [width, Nat.zero_add, hu.one]
        by_cases hpos : 1 ≤ width size z
        · rw [if_pos hpos]
          exact lastIndexUpTo_eq_none hz (by omega) [d]
        · exact if_neg hpos
      rw [List.nil_append, lastIndexUpTo, hnone]
      exact if_pos rfl
  | cons c a ih =>
      have hle : size c ≤ width size (c :: a) + width size z := by
        rw [width]
        omega
      have hleft : width size (c :: a) + width size z - size c = width size a + width size z := by
        rw [width]
        omega
      rw [List.cons_append, lastIndexUpTo, if_pos hle, hleft, ih]
      rfl

theorem upTo_append (hu : Unit size d) (a b : List Char) : upTo size (width size a) (a ++ b) = a := by
  induction a with
  | nil =>
      cases b with
      | nil => rfl
      | cons c b => exact if_pos rfl
  | cons c a ih =>
      have hne : width size (c :: a) ≠ 0 := by
        have := hu.pos c
        rw [width]
        omega
      have hleft : width size (c :: a) - size c = width size a := by
        rw [width]
        omega
      rw [List.cons_append, upTo, if_neg hne, hleft, ih]

theorem onFrom_append (hu : Unit size d) (a b : List Char) :
    onFrom size (width size a) (a ++ b) = b := by
  induction a with
  | nil =>
      cases b with
      | nil => rfl
      | cons c b => exact if_pos rfl
  | cons c a ih =>
      have hne : width size (c :: a) ≠ 0 := by
        have := hu.pos c
        rw [width]
        omega
      have hleft : width size (c :: a) - size c = width size a := by
        rw [width]
        omega
      rw [List.cons_append, onFrom, if_neg hne, hleft, ih]

theorem slice_append (hu : Unit size d) (a b c : List Char) :
    slice size (width size a) (width size (a ++ b)) (a ++ b ++ c) = b := by
  rw [slice, upTo_append hu, onFrom_append hu]

theorem width_le {size' : Char → Nat} (h : ∀ c, size c ≤ size' c) (cs : List Char) :
    width size cs ≤ width size' cs := by
  induction cs with
  | nil => exact Nat.le_refl _
  | cons c cs ih => exact Nat.add_le_add (h c) ih

end Strk20.Offsets
