import Mathlib.Data.Nat.Basic
import Mathlib.Data.List.Basic
import Mathlib.Tactic.Ring

/-!
# Big-endian bytes

Fixed-width big-endian encodings of natural numbers and the reader step every
hand-written binary decoder is made of: take exactly `n` bytes or fail.
-/

namespace Strk20.Bytes

/-- The `w` big-endian bytes of `n`. -/
def beBytes : Nat → Nat → List UInt8
  | 0, _ => []
  | w + 1, n => UInt8.ofNat (n / 256 ^ w) :: beBytes w n

/-- The number big-endian bytes spell. -/
def beNat (bytes : List UInt8) : Nat :=
  bytes.foldl (fun n b => 256 * n + b.toNat) 0

/-- The first `n` bytes and the rest, `none` when the input is shorter. -/
def take (n : Nat) (input : List UInt8) : Option (List UInt8 × List UInt8) :=
  if n ≤ input.length then some (input.take n, input.drop n) else none

@[simp] theorem length_beBytes : ∀ w n : Nat, (beBytes w n).length = w
  | 0, _ => rfl
  | w + 1, n => by simp [beBytes, length_beBytes w n]

theorem foldl_beNat (bytes : List UInt8) : ∀ n : Nat,
    bytes.foldl (fun n b => 256 * n + b.toNat) n = n * 256 ^ bytes.length + beNat bytes := by
  induction bytes with
  | nil => intro n; simp [beNat]
  | cons b bytes ih =>
      intro n
      simp only [beNat, List.foldl_cons, List.length_cons, Nat.mul_zero, Nat.zero_add]
      rw [ih, ih b.toNat, Nat.pow_succ]
      ring

theorem beNat_beBytes : ∀ w n : Nat, beNat (beBytes w n) = n % 256 ^ w
  | 0, n => by simp [beBytes, beNat, Nat.mod_one]
  | w + 1, n => by
      have h := foldl_beNat (beBytes w n) (UInt8.ofNat (n / 256 ^ w)).toNat
      have hhead : beNat (beBytes (w + 1) n) =
          (n / 256 ^ w % 256) * 256 ^ w + beNat (beBytes w n) := by
        simpa [beBytes, beNat] using h
      rw [hhead, beNat_beBytes w n, Nat.mod_pow_succ]
      ring

theorem beNat_lt : ∀ bytes : List UInt8, beNat bytes < 256 ^ bytes.length := by
  intro bytes
  induction bytes with
  | nil => decide
  | cons b bytes ih =>
      have hb : b.toNat < 256 := b.toNat_lt
      have hsplit : beNat (b :: bytes) = b.toNat * 256 ^ bytes.length + beNat bytes := by
        rw [beNat, List.foldl_cons, foldl_beNat, Nat.mul_zero, Nat.zero_add]
      have hmul : (b.toNat + 1) * 256 ^ bytes.length ≤ 256 * 256 ^ bytes.length :=
        Nat.mul_le_mul_right _ hb
      rw [hsplit, List.length_cons, Nat.pow_succ', ← Nat.add_one_le_iff] at *
      calc b.toNat * 256 ^ bytes.length + beNat bytes + 1
          ≤ b.toNat * 256 ^ bytes.length + 256 ^ bytes.length := Nat.add_le_add_left ih _
        _ = (b.toNat + 1) * 256 ^ bytes.length := (Nat.succ_mul _ _).symm
        _ ≤ 256 * 256 ^ bytes.length := hmul

theorem take_append (a rest : List UInt8) : take a.length (a ++ rest) = some (a, rest) := by
  simp [take]

theorem take_beBytes (w n : Nat) (rest : List UInt8) :
    take w (beBytes w n ++ rest) = some (beBytes w n, rest) := by
  have h := take_append (beBytes w n) rest
  rwa [length_beBytes] at h

end Strk20.Bytes
