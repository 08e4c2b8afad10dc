import Mathlib
import Strk20.Foundation.BitPath

/-!
# Field elements and their spellings

A `Felt` is a residue modulo the Starknet prime, a `Key` the 32 big-endian
bytes of one (or of any 256-bit number: a raw key read back from a cache need
not be canonical). The order of keys is the byte order.

`feltHex` is the canonical rendering. The parser `Felt::from_hex` belongs to
`starknet-types-core`; `FeltParser` takes it as a parameter together with the
one fact the feed relies on, that it reads a canonical rendering back.
-/

namespace Strk20.Feed

open BitPath

/-- The Starknet prime `2^251 + 17 * 2^192 + 1`. -/
def STARK_PRIME : Nat := 2 ^ 251 + 17 * 2 ^ 192 + 1

instance : NeZero STARK_PRIME := ⟨by decide⟩

/-- An element of the Starknet field; `+` is the field addition. -/
abbrev Felt := Fin STARK_PRIME

/-- `Felt::ZERO`, fixed as the zero of every slot function. -/
instance : Zero Felt := ⟨Fin.ofNat STARK_PRIME 0⟩

/-- 32 big-endian bytes, as the number they spell. -/
abbrev Key := Fin (2 ^ 256)

theorem key_ne_zero : NeZero (2 ^ 256) := ⟨by decide⟩

/-- The bytes of a number. -/
def keyOfNat (n : Nat) : Key := @Fin.ofNat (2 ^ 256) key_ne_zero n

@[simp] theorem keyOfNat_val (k : Key) : keyOfNat k.val = k :=
  Fin.ext (Nat.mod_eq_of_lt k.isLt)

/-- Keys compare as their bytes do. -/
instance : Std.TransCmp (compare : Key → Key → Ordering) := Fin.instTransOrd _

instance : Std.LawfulEqCmp (compare : Key → Key → Ordering) := Fin.instLawfulEqOrd _

theorem felt_lt (f : Felt) : f.val < 2 ^ 252 :=
  Nat.lt_of_lt_of_le f.isLt (by decide)

/-- `Felt::to_bytes_be`. -/
def toBytesBe (f : Felt) : Key :=
  ⟨f.val, Nat.lt_trans (felt_lt f) (by decide)⟩

/-- `Felt::from_bytes_be`, which reduces modulo the prime. -/
def fromBytesBe (k : Key) : Felt := Fin.ofNat STARK_PRIME k.val

@[simp] theorem toBytesBe_val (f : Felt) : (toBytesBe f).val = f.val := rfl

@[simp] theorem fromBytesBe_toBytesBe (f : Felt) : fromBytesBe (toBytesBe f) = f := by
  apply Fin.ext
  simp [fromBytesBe]

theorem toBytesBe_inj {f g : Felt} : toBytesBe f = toBytesBe g ↔ f = g := by
  constructor
  · intro h
    have := congrArg Fin.val h
    exact Fin.ext this
  · rintro rfl; rfl

/-- A felt below `2^251`, as every path of the trie is. -/
theorem two_pow_251_lt_prime : 2 ^ 251 < STARK_PRIME := by decide

theorem fromBytesBe_val_of_lt {k : Key} (h : k.val < 2 ^ 251) :
    (fromBytesBe k).val = k.val := by
  simp [fromBytesBe, Nat.mod_eq_of_lt (Nat.lt_trans h two_pow_251_lt_prime)]

/-! ## Hexadecimal text -/

/-- The `w` lowercase hexadecimal digits of `n`, most significant first. -/
def hexDigits (n w : Nat) : List Char :=
  (List.range w).map fun i => Nat.digitChar (n / 16 ^ (w - 1 - i) % 16)

/-- `hex::encode` of 32 bytes: 64 digits. -/
def hexEncode (k : Key) : String := String.ofList (hexDigits k.val 64)

/-- Canonical felt rendering: lowercase `0x`-prefixed minimal hex, zero is
`0x0`. -/
def feltHex (f : Felt) : String :=
  let hex := hexDigits (toBytesBe f).val 64
  let trimmed := hex.dropWhile (· == '0')
  if trimmed.isEmpty then "0x0" else "0x" ++ String.ofList trimmed

/-- `Felt::from_hex`, with the read-back of canonical renderings. -/
structure FeltParser where
  fromHex : String → Option Felt
  fromHex_feltHex : ∀ f, fromHex (feltHex f) = some f

theorem FeltParser.feltHex_inj (P : FeltParser) {f g : Felt} (h : feltHex f = feltHex g) :
    f = g := by
  have := congrArg P.fromHex h
  rwa [P.fromHex_feltHex, P.fromHex_feltHex, Option.some.injEq] at this

/-! ## A parser of hexadecimal text

`decodeHex` is one parser with that property: an optional `0x`, then up to 64 digits of
either case, the number they spell taken modulo the prime. -/

def hexDigit (c : Char) : Option Nat :=
  if '0' ≤ c ∧ c ≤ '9' then some (c.toNat - '0'.toNat)
  else if 'a' ≤ c ∧ c ≤ 'f' then some (c.toNat - 'a'.toNat + 10)
  else if 'A' ≤ c ∧ c ≤ 'F' then some (c.toNat - 'A'.toNat + 10)
  else none

/-- The number a list of hexadecimal digits spells after the value `n`. -/
def hexValue : Nat → List Char → Option Nat
  | n, [] => some n
  | n, c :: cs => do hexValue (16 * n + (← hexDigit c)) cs

def decodeHex (s : String) : Option Felt :=
  let digits :=
    match s.toList with
    | '0' :: 'x' :: rest => rest
    | rest => rest
  if digits.isEmpty || 64 < digits.length then none
  else (hexValue 0 digits).map (Fin.ofNat STARK_PRIME)

theorem hexDigit_digitChar : ∀ d : Nat, d < 16 → hexDigit (Nat.digitChar d) = some d := by
  decide

theorem hexValue_append : ∀ (n : Nat) (a b : List Char),
    hexValue n (a ++ b) = (hexValue n a).bind fun m => hexValue m b
  | n, [], b => rfl
  | n, c :: a, b => by
      cases hc : hexDigit c with
      | none => simp [hexValue, hc]
      | some d => simp [hexValue, hc, hexValue_append]

/-- Leading zeros do not count. -/
theorem hexValue_dropWhile : ∀ cs : List Char,
    hexValue 0 (cs.dropWhile (· == '0')) = hexValue 0 cs
  | [] => rfl
  | c :: cs => by
      by_cases hc : c = '0'
      · have h0 : hexDigit '0' = some 0 := by decide
        simp [hc, hexValue, h0, hexValue_dropWhile cs]
      · rw [List.dropWhile_cons_of_neg (by simpa using hc)]

theorem hexDigits_succ (n w : Nat) :
    hexDigits n (w + 1) = hexDigits (n / 16) w ++ [Nat.digitChar (n % 16)] := by
  rw [hexDigits, List.range_succ, List.map_append]
  refine congr (congrArg _ (List.map_congr_left fun i hi => ?_)) (by simp)
  have hi' := List.mem_range.mp hi
  have hexp : w + 1 - 1 - i = (w - 1 - i) + 1 := by omega
  rw [hexp, Nat.pow_succ', Nat.div_div_eq_div_mul]

theorem hexValue_hexDigits : ∀ w n : Nat, hexValue 0 (hexDigits n w) = some (n % 16 ^ w)
  | 0, n => by simp [hexDigits, hexValue, Nat.mod_one]
  | w + 1, n => by
      have hd := hexDigit_digitChar (n % 16) (Nat.mod_lt _ (by decide))
      rw [hexDigits_succ, hexValue_append, hexValue_hexDigits w (n / 16)]
      simp only [hexValue, hd, Option.bind_some, Option.bind_eq_bind, Option.some.injEq]
      rw [Nat.pow_succ', Nat.mod_mul]
      omega

theorem length_hexDigits (n w : Nat) : (hexDigits n w).length = w := by simp [hexDigits]

theorem hexEncode_eq (k : Key) : (hexEncode k).toList = hexDigits k.val 64 := by
  simp [hexEncode]

theorem decodeHex_feltHex (f : Felt) : decodeHex (feltHex f) = some f := by
  have hval : hexValue 0 ((hexDigits (toBytesBe f).val 64).dropWhile (· == '0')) =
      some f.val := by
    rw [hexValue_dropWhile, hexValue_hexDigits, toBytesBe_val,
      Nat.mod_eq_of_lt (Nat.lt_of_lt_of_le (felt_lt f) (by decide))]
  unfold feltHex
  dsimp only
  cases hd : (hexDigits (toBytesBe f).val 64).dropWhile (· == '0') with
  | nil =>
      rw [hd, hexValue, Option.some.injEq] at hval
      have hzero : f = Fin.ofNat STARK_PRIME 0 := Fin.ext hval.symm
      subst hzero
      decide
  | cons c cs =>
      have hlen : (c :: cs).length ≤ 64 := by
        rw [← hd]
        exact le_trans (List.dropWhile_sublist _).length_le (length_hexDigits _ _).le
      rw [hd] at hval
      have hlist : ("0x" ++ String.ofList (c :: cs)).toList = '0' :: 'x' :: c :: cs := by simp
      simp only [List.isEmpty_cons, Bool.false_eq_true, if_false, decodeHex, hlist, hval,
        Bool.false_or, decide_eq_true_eq, Nat.not_lt.mpr hlen, Option.map_some, Option.some.injEq]
      exact Fin.ext (Nat.mod_eq_of_lt f.isLt)

/-- `hex::decode`: the number of bytes and the number they spell. -/
def hexDecode (s : String) : Option (Nat × Nat) :=
  if s.toList.length % 2 = 1 then none
  else (hexValue 0 s.toList).map fun n => (s.toList.length / 2, n)

theorem hexDecode_hexEncode (k : Key) : hexDecode (hexEncode k) = some (32, k.val) := by
  have hlen : (hexEncode k).toList.length = 64 := by rw [hexEncode_eq, length_hexDigits]
  have hval : hexValue 0 (hexEncode k).toList = some k.val := by
    rw [hexEncode_eq, hexValue_hexDigits, Nat.mod_eq_of_lt]
    exact Nat.lt_of_lt_of_le k.isLt (by decide)
  simp [hexDecode, hlen, hval]

theorem hexEncode_inj {a b : Key} (h : hexEncode a = hexEncode b) : a = b := by
  have := congrArg hexDecode h
  rw [hexDecode_hexEncode, hexDecode_hexEncode, Option.some.injEq, Prod.mk.injEq] at this
  exact Fin.ext this.2

def hexParser : FeltParser := ⟨decodeHex, decodeHex_feltHex⟩

/-! ## Errors -/

inductive FeedError where
  | badFelt (text : String)
  | malformed (message : String)
  | json (message : String)
  | hashMismatch (epoch : Nat) (expected actual : String)
  | chainBroken (epoch : Nat) (expected actual : String)
  | decompress (message : String)
  | decompressLimit (artifact : String) (cap : Nat)
deriving DecidableEq, Repr

/-- The `Display` of an error. -/
def FeedError.text : FeedError → String
  | badFelt text => "invalid felt hex: " ++ text
  | malformed message => "malformed feed file: " ++ message
  | json message => "json: " ++ message
  | hashMismatch epoch expected actual =>
      "content hash mismatch for epoch " ++ epoch.repr ++ ": expected " ++ expected ++ ", got " ++
        actual
  | chainBroken epoch expected actual =>
      "hash chain broken at epoch " ++ epoch.repr ++ ": prev is " ++ actual ++ ", expected " ++
        expected
  | decompress message => "decompression: " ++ message
  | decompressLimit artifact cap =>
      "DECOMPRESS_LIMIT: " ++ artifact ++ " expands past the " ++ cap.repr ++ "-byte output cap"

/-- `ok_or_else(|| FeedError::Malformed(..))`. -/
def orMalformed {α : Type} (x : Option α) (message : String) : Except FeedError α :=
  match x with
  | some a => .ok a
  | none => .error (.malformed message)

@[simp] theorem orMalformed_some {α : Type} (a : α) (message : String) :
    orMalformed (some a) message = .ok a := rfl

theorem orMalformed_eq_ok {α : Type} {x : Option α} {message : String} {a : α} :
    orMalformed x message = .ok a ↔ x = some a := by
  cases x <;> simp [orMalformed]

/-- `felt_from_hex`. -/
def feltFromHex (P : FeltParser) (s : String) : Except FeedError Felt :=
  match P.fromHex s with
  | some f => .ok f
  | none => .error (.badFelt s)

@[simp] theorem feltFromHex_feltHex (P : FeltParser) (f : Felt) :
    feltFromHex P (feltHex f) = .ok f := by
  simp [feltFromHex, P.fromHex_feltHex]

end Strk20.Feed
