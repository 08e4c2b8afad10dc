import Mathlib

/-!
# Text

The text operations of the Rust standard library the feed relies on: decimal
numbers (`u64::from_str`), `str::lines`, and UTF-8 bytes.
-/

namespace Strk20.Text

/-! ## Decimal numbers -/

/-- A nonempty run of ASCII digits as a number. -/
def digitsValue : List Char → Option Nat
  | [] => none
  | c :: cs => if (c :: cs).all Char.isDigit then some (Nat.ofDigitChars 10 (c :: cs) 0) else none

/-- `str::parse` of an unsigned type of some width: an optional `+`, digits, no
overflow. -/
def parseUnsigned (bits : Nat) (s : String) : Option Nat :=
  let digits :=
    match s.toList with
    | '+' :: rest => rest
    | rest => rest
  (digitsValue digits).filter (· < 2 ^ bits)

def parseU64 (s : String) : Option Nat := parseUnsigned 64 s

def parseU128 (s : String) : Option Nat := parseUnsigned 128 s

theorem digitsValue_toDigits (n : Nat) : digitsValue (Nat.toDigits 10 n) = some n := by
  cases h : Nat.toDigits 10 n with
  | nil => exact absurd h Nat.toDigits_ne_nil
  | cons c cs =>
      have hall : (c :: cs).all Char.isDigit = true := by
        rw [← h, List.all_eq_true]
        exact fun d hd => Nat.isDigit_of_mem_toDigits (by decide) (by decide) hd
      rw [digitsValue, if_pos hall, ← h, Nat.ofDigitChars_ten_toDigits]

theorem parseUnsigned_repr {bits n : Nat} (h : n < 2 ^ bits) :
    parseUnsigned bits n.repr = some n := by
  have hlist : n.repr.toList = Nat.toDigits 10 n := Nat.toList_repr
  have hplus : ∀ cs, Nat.toDigits 10 n ≠ '+' :: cs := by
    intro cs heq
    have := Nat.isDigit_of_mem_toDigits (b := 10) (n := n) (c := '+') (by decide) (by decide)
      (by rw [heq]; exact List.mem_cons_self)
    exact absurd this (by decide)
  have hsame : (match Nat.toDigits 10 n with
      | '+' :: rest => rest
      | rest => rest) = Nat.toDigits 10 n := by
    split
    · rename_i rest heq
      exact absurd heq (hplus rest)
    · rfl
  rw [parseUnsigned, hlist, hsame, digitsValue_toDigits]
  simpa using h

theorem parseU64_repr {n : Nat} (h : n < 2 ^ 64) : parseU64 n.repr = some n :=
  parseUnsigned_repr h

/-- A control character, or the one soft hyphen of Latin-1. -/
def unprintable (c : Char) : Bool :=
  c.toNat < 0x20 || (0x7f ≤ c.toNat && c.toNat < 0xa0) || c.toNat == 0xad

/-- `char::escape_debug` inside a string; the tables that say which characters beyond
Latin-1 do not print are left out. -/
def escapeDebug (c : Char) : List Char :=
  if c = '"' then ['\\', '"']
  else if c = '\\' then ['\\', '\\']
  else if c = '\n' then ['\\', 'n']
  else if c = '\r' then ['\\', 'r']
  else if c = '\t' then ['\\', 't']
  else if c.toNat = 0 then ['\\', '0']
  else if unprintable c then
    '\\' :: 'u' :: '\x7b' :: (Nat.toDigits 16 c.toNat ++ ['\x7d'])
  else [c]

/-- `{s:?}` of a string: quotes, with the escapes of `char::escape_debug`. -/
def debugStr (s : String) : String :=
  "\"" ++ String.ofList (s.toList.flatMap escapeDebug) ++ "\""

/-! ## Lines -/

/-- `str::lines`: pieces ended by a newline (the last one may go without), a
carriage return before the newline removed with it. -/
def stripCr (line : List Char) : List Char :=
  if line.getLast? = some '\r' then line.dropLast else line

def linesAux : List Char → List Char → List (List Char)
  | acc, [] => if acc.isEmpty then [] else [acc.reverse]
  | acc, c :: cs => if c = '\n' then stripCr acc.reverse :: linesAux [] cs else linesAux (c :: acc) cs

def lines (text : String) : List String := (linesAux [] text.toList).map String.ofList

/-- A line as an encoder writes it: no newline inside, no carriage return at
the end. -/
def PlainLine (line : String) : Prop :=
  '\n' ∉ line.toList ∧ line.toList.getLast? ≠ some '\r'

theorem linesAux_line : ∀ (acc line rest : List Char), '\n' ∉ line →
    linesAux acc (line ++ '\n' :: rest) = stripCr (acc.reverse ++ line) :: linesAux [] rest
  | acc, [], rest, _ => by simp [linesAux]
  | acc, c :: line, rest, h => by
      have hc : c ≠ '\n' := fun heq => h (heq ▸ List.mem_cons_self)
      have hrest : '\n' ∉ line := fun hmem => h (List.mem_cons_of_mem _ hmem)
      simp [linesAux, hc, linesAux_line (c :: acc) line rest hrest]

/-- The text that ends every line with a newline. -/
def unlines (ls : List String) : String := ls.foldr (fun l acc => l ++ "\n" ++ acc) ""

@[simp] theorem unlines_nil : unlines [] = "" := rfl

@[simp] theorem unlines_cons (l : String) (ls : List String) :
    unlines (l :: ls) = l ++ "\n" ++ unlines ls := rfl

theorem unlines_append : ∀ a b : List String, unlines (a ++ b) = unlines a ++ unlines b
  | [], b => by simp
  | l :: a, b => by simp [unlines_append a b, String.append_assoc]

theorem lines_unlines : ∀ {ls : List String}, (∀ l ∈ ls, PlainLine l) → lines (unlines ls) = ls
  | [], _ => rfl
  | l :: ls, h => by
      have hl := h l List.mem_cons_self
      have ih := lines_unlines fun l' hl' => h l' (List.mem_cons_of_mem _ hl')
      have htext : (unlines (l :: ls)).toList = l.toList ++ '\n' :: (unlines ls).toList := by
        simp
      have hcr : stripCr l.toList = l.toList := by simp [stripCr, hl.2]
      rw [lines] at ih ⊢
      rw [htext, linesAux_line [] _ _ hl.1]
      simp [hcr, ih]

theorem length_linesAux_le : ∀ cs acc : List Char,
    (linesAux acc cs).length ≤ acc.length + cs.length
  | [], [] => Nat.zero_le _
  | [], a :: acc => by simp [linesAux]
  | c :: cs, acc => by
      rw [linesAux]
      split
      · have ih := length_linesAux_le cs []
        simp only [List.length_cons, List.length_nil] at ih ⊢
        omega
      · have ih := length_linesAux_le cs (c :: acc)
        simp only [List.length_cons] at ih ⊢
        omega

theorem length_lines_le (text : String) : (lines text).length ≤ text.toList.length := by
  have h := length_linesAux_le text.toList []
  rw [lines, List.length_map]
  simpa using h

theorem length_stripCr_le (line : List Char) : (stripCr line).length ≤ line.length := by
  rw [stripCr]
  split
  · rw [List.length_dropLast]
    omega
  · exact Nat.le_refl _

theorem sum_length_linesAux : ∀ cs acc : List Char,
    ((linesAux acc cs).map List.length).sum ≤ acc.length + cs.length
  | [], acc => by
      rw [linesAux]
      split
      · simp
      · simp
  | c :: cs, acc => by
      rw [linesAux]
      split
      · have hcr := length_stripCr_le acc.reverse
        have ih := sum_length_linesAux cs []
        simp only [List.map_cons, List.sum_cons, List.length_cons, List.length_reverse,
          List.length_nil] at hcr ih ⊢
        omega
      · have ih := sum_length_linesAux cs (c :: acc)
        simp only [List.length_cons] at ih ⊢
        omega

/-- The lines of a text are no longer than the text. -/
theorem sum_length_lines (text : String) :
    ((lines text).map fun l => l.toList.length).sum ≤ text.toList.length := by
  have h := sum_length_linesAux text.toList []
  rw [lines, List.map_map]
  simpa [Function.comp_def] using h

/-- `text.ends_with('\n')`. -/
def endsWithNewline (text : String) : Bool := text.toList.getLast? == some '\n'

theorem endsWithNewline_unlines {ls : List String} (h : ls ≠ []) :
    endsWithNewline (unlines ls) = true := by
  have hsplit := List.dropLast_append_getLast h
  rw [← hsplit, unlines_append]
  simp [endsWithNewline]

/-! ## Bytes -/

/-- `str::from_utf8`. -/
def fromUtf8 (bytes : ByteArray) : Option String := String.fromUTF8? bytes

/-- `String::into_bytes`. -/
def intoBytes (s : String) : ByteArray := s.toUTF8

@[simp] theorem fromUtf8_intoBytes (s : String) : fromUtf8 (intoBytes s) = some s := by
  show String.fromUTF8? s.toByteArray = some s
  rw [String.fromUTF8?, dif_pos s.isValidUTF8]
  rfl

theorem length_le_size_utf8Encode : ∀ cs : List Char, cs.length ≤ cs.utf8Encode.size
  | [] => Nat.zero_le _
  | c :: cs => by
      have ih := length_le_size_utf8Encode cs
      have hc := c.utf8Size_pos
      rw [List.utf8Encode_cons, ByteArray.size_append, List.utf8Encode_singleton,
        List.size_toByteArray, String.length_utf8EncodeChar, List.length_cons]
      omega

/-- A text has no more characters than bytes. -/
theorem length_le_size_of_fromUtf8 {bytes : ByteArray} {text : String}
    (h : fromUtf8 bytes = some text) : text.toList.length ≤ bytes.size := by
  rw [fromUtf8, String.fromUTF8?] at h
  split at h
  · cases h
    have hle := length_le_size_utf8Encode (String.fromUTF8 bytes ‹_›).toList
    rwa [String.utf8Encode_toList] at hle
  · cases h

end Strk20.Text
