import Strk20.Foundation.Text

/-!
# JSON values

`Json` is a parsed document: what `serde_json::Value` lets a reader see. An
object keeps its fields in text order and answers `get` with the last one of a
name, as a map filled from the text does. `num` is a number that fits `u64`;
every other number is only known not to.

`compact` is the text without whitespace, `text` the same with the characters
escaped that JSON escapes. A `JsonParser` reads a compact text back when its strings
need no escapes (`Plain`), a `JsonReader` every text of a value with `u64` numbers
(`Sound`), both up to the nesting `serde_json` allows; `Json.reader` is one.
-/

namespace Strk20

inductive Json where
  | null
  | bool (b : Bool)
  | num (n : Nat)
  | other
  | str (s : String)
  | arr (items : List Json)
  | obj (fields : List (String × Json))

namespace Json

/-! ## Reading -/

/-- `Value::get` on an object. -/
def get : Json → String → Option Json
  | .obj fields, key => fields.reverse.lookup key
  | _, _ => none

def asStr : Json → Option String
  | .str s => some s
  | _ => none

/-- A number that fits `u64`. -/
def asU64 : Json → Option Nat
  | .num n => if n < 2 ^ 64 then some n else none
  | _ => none

def asArray : Json → Option (List Json)
  | .arr items => some items
  | _ => none

/-! ## Compact text -/

/-- Pieces joined by commas. -/
def commas : List String → String
  | [] => ""
  | [x] => x
  | x :: y :: rest => x ++ "," ++ commas (y :: rest)

def quoted (s : String) : String := "\"" ++ s ++ "\""

mutual
def compact : Json → String
  | .null => "null"
  | .bool b => if b then "true" else "false"
  | .num n => n.repr
  | .other => "-1"
  | .str s => quoted s
  | .arr items => "[" ++ commas (compactItems items) ++ "]"
  | .obj fields => "\x7b" ++ commas (compactFields fields) ++ "\x7d"
def compactItems : List Json → List String
  | [] => []
  | v :: vs => compact v :: compactItems vs
def compactFields : List (String × Json) → List String
  | [] => []
  | (k, v) :: fs => (quoted k ++ ":" ++ compact v) :: compactFields fs
end

/-- A character a JSON string holds as itself. -/
def plainChar (c : Char) : Bool := c != '"' && c != '\\' && 0x20 ≤ c.toNat

def PlainStr (s : String) : Prop := ∀ c ∈ s.toList, plainChar c = true

theorem plainStr_iff {s : String} : PlainStr s ↔ s.toList.all plainChar = true :=
  List.all_eq_true.symm

mutual
/-- No string needs an escape and every number fits `u64`. -/
def Plain : Json → Prop
  | .null => True
  | .bool _ => True
  | .num n => n < 2 ^ 64
  | .other => False
  | .str s => PlainStr s
  | .arr items => PlainItems items
  | .obj fields => PlainFields fields
def PlainItems : List Json → Prop
  | [] => True
  | v :: vs => Plain v ∧ PlainItems vs
def PlainFields : List (String × Json) → Prop
  | [] => True
  | (k, v) :: fs => PlainStr k ∧ Plain v ∧ PlainFields fs
end

/-! ## Escapes -/

/-- What `serde_json` writes for a character of a string. -/
def escapeChar (c : Char) : List Char :=
  if c = '"' then ['\\', '"']
  else if c = '\\' then ['\\', '\\']
  else if c = '\n' then ['\\', 'n']
  else if c = '\r' then ['\\', 'r']
  else if c = '\t' then ['\\', 't']
  else if c = '\x08' then ['\\', 'b']
  else if c = '\x0c' then ['\\', 'f']
  else if c.toNat < 0x20 then
    ['\\', 'u', '0', '0', Nat.digitChar (c.toNat / 16), Nat.digitChar (c.toNat % 16)]
  else [c]

def escape (s : String) : String := String.ofList (s.toList.flatMap escapeChar)

mutual
def escaped : Json → Json
  | .str s => .str (escape s)
  | .arr items => .arr (escapedItems items)
  | .obj fields => .obj (escapedFields fields)
  | .null => .null
  | .bool b => .bool b
  | .num n => .num n
  | .other => .other
def escapedItems : List Json → List Json
  | [] => []
  | v :: vs => escaped v :: escapedItems vs
def escapedFields : List (String × Json) → List (String × Json)
  | [] => []
  | (k, v) :: fs => (escape k, escaped v) :: escapedFields fs
end

/-- `Value::to_string`. -/
def text (v : Json) : String := v.escaped.compact

mutual
/-- Every number fits `u64`. -/
def Sound : Json → Prop
  | .null => True
  | .bool _ => True
  | .num n => n < 2 ^ 64
  | .other => False
  | .str _ => True
  | .arr items => SoundItems items
  | .obj fields => SoundFields fields
def SoundItems : List Json → Prop
  | [] => True
  | v :: vs => Sound v ∧ SoundItems vs
def SoundFields : List (String × Json) → Prop
  | [] => True
  | (_, v) :: fs => Sound v ∧ SoundFields fs
end

/-! ## Nesting -/

mutual
/-- How deep arrays and objects are nested. -/
def depth : Json → Nat
  | .null => 0
  | .bool _ => 0
  | .num _ => 0
  | .other => 0
  | .str _ => 0
  | .arr items => depthItems items + 1
  | .obj fields => depthFields fields + 1
def depthItems : List Json → Nat
  | [] => 0
  | v :: vs => max (depth v) (depthItems vs)
def depthFields : List (String × Json) → Nat
  | [] => 0
  | (_, v) :: fs => max (depth v) (depthFields fs)
end

/-- `serde_json` gives up at the array or object that is nested so deep. -/
def NESTING_LIMIT : Nat := 128

/-- A plain document that `serde_json` does not find nested too deep. -/
structure Readable (v : Json) : Prop where
  plain : v.Plain
  shallow : v.depth < NESTING_LIMIT

theorem depthItems_map_le {α : Type} {f : α → Json} {n : Nat} {xs : List α}
    (h : ∀ x ∈ xs, (f x).depth ≤ n) : depthItems (xs.map f) ≤ n := by
  induction xs with
  | nil => exact Nat.zero_le n
  | cons x xs ih =>
      obtain ⟨hx, hxs⟩ := List.forall_mem_cons.mp h
      rw [List.map_cons, depthItems]
      exact max_le hx (ih hxs)

theorem depthFields_append (a b : List (String × Json)) :
    depthFields (a ++ b) = max (depthFields a) (depthFields b) := by
  induction a with
  | nil => simp [depthFields]
  | cons x a ih =>
      obtain ⟨k, v⟩ := x
      rw [List.cons_append, depthFields, depthFields, ih, max_assoc]

end Json

/-- `serde_json::from_str`, with the read-back of plain documents; `refusal` is the
`Display` of the error where it fails. -/
structure JsonParser where
  fromStr : String → Option Json
  refusal : String → String
  fromStr_compact : ∀ v : Json, v.Readable → fromStr v.compact = some v

/-- A parser that reads back what `Value::to_string` writes. -/
structure JsonReader extends JsonParser where
  fromStr_text : ∀ v : Json, v.Sound → v.depth < Json.NESTING_LIMIT → fromStr v.text = some v

namespace Json

/-! ## A parser

A recursive descent over characters. The fuel bounds the number of nested
calls; the length of the text is enough. -/

/-- The character of a two-character escape. -/
def escapeOf (c : Char) : Option Char :=
  if c = '"' then some '"'
  else if c = '\\' then some '\\'
  else if c = '/' then some '/'
  else if c = 'n' then some '\n'
  else if c = 'r' then some '\r'
  else if c = 't' then some '\t'
  else if c = 'b' then some '\x08'
  else if c = 'f' then some '\x0c'
  else none

def nibble (c : Char) : Option Nat :=
  if '0' ≤ c ∧ c ≤ '9' then some (c.toNat - '0'.toNat)
  else if 'a' ≤ c ∧ c ≤ 'f' then some (c.toNat - 'a'.toNat + 10)
  else if 'A' ≤ c ∧ c ≤ 'F' then some (c.toNat - 'A'.toNat + 10)
  else none

/-- The character of four hex digits; surrogates are not read. -/
def hexEscape (d₁ d₂ d₃ d₄ : Char) : Option Char := do
  let n := (((← nibble d₁) * 16 + (← nibble d₂)) * 16 + (← nibble d₃)) * 16 + (← nibble d₄)
  if n < 0xd800 ∨ 0xdfff < n then some (Char.ofNat n) else none

/-- The characters of a string literal up to its closing quote. -/
def scanString : List Char → Option (List Char × List Char)
  | [] => none
  | c :: cs =>
      if c = '"' then some ([], cs)
      else if c = '\\' then
        match cs with
        | [] => none
        | e :: es =>
            if e = 'u' then
              match es with
              | d₁ :: d₂ :: d₃ :: d₄ :: rest =>
                  (hexEscape d₁ d₂ d₃ d₄).bind fun x =>
                    (scanString rest).map fun (s, rest) => (x :: s, rest)
              | _ => none
            else (escapeOf e).bind fun x => (scanString es).map fun (s, rest) => (x :: s, rest)
      else if plainChar c then (scanString cs).map fun (s, rest) => (c :: s, rest)
      else none

/-- A literal word. -/
def expect (word : String) (cs : List Char) : Option (List Char) :=
  if word.toList.isPrefixOf cs then some (cs.drop word.toList.length) else none

mutual
def parseValue : Nat → List Char → Option (Json × List Char)
  | 0, _ => none
  | _, [] => none
  | fuel + 1, c :: cs =>
      if c = '"' then (scanString cs).map fun (s, rest) => (.str (String.ofList s), rest)
      else if c = '[' then
        if cs.head? = some ']' then some (.arr [], cs.tail)
        else (parseItems fuel cs).map fun (vs, rest) => (.arr vs, rest)
      else if c = '\x7b' then
        if cs.head? = some '\x7d' then some (.obj [], cs.tail)
        else (parseFields fuel cs).map fun (fs, rest) => (.obj fs, rest)
      else if c.isDigit then
        let digits := (c :: cs).takeWhile Char.isDigit
        (Text.digitsValue digits).bind fun n =>
          if n < 2 ^ 64 then some (.num n, (c :: cs).dropWhile Char.isDigit) else none
      else if c = 'n' then (expect "null" (c :: cs)).map fun rest => (.null, rest)
      else if c = 't' then (expect "true" (c :: cs)).map fun rest => (.bool true, rest)
      else if c = 'f' then (expect "false" (c :: cs)).map fun rest => (.bool false, rest)
      else none
def parseItems : Nat → List Char → Option (List Json × List Char)
  | 0, _ => none
  | fuel + 1, cs => do
      let (v, rest) ← parseValue fuel cs
      match rest with
      | ',' :: rest => do
          let (vs, rest) ← parseItems fuel rest
          some (v :: vs, rest)
      | ']' :: rest => some ([v], rest)
      | _ => none
def parseFields : Nat → List Char → Option (List (String × Json) × List Char)
  | 0, _ => none
  | _, [] => none
  | fuel + 1, q :: cs => do
      if q ≠ '"' then none
      else
        let (k, rest) ← scanString cs
        match rest with
        | ':' :: rest => do
            let (v, rest) ← parseValue fuel rest
            match rest with
            | ',' :: rest => do
                let (fs, rest) ← parseFields fuel rest
                some ((String.ofList k, v) :: fs, rest)
            | '\x7d' :: rest => some ([(String.ofList k, v)], rest)
            | _ => none
        | _ => none
end

def parse (s : String) : Option Json :=
  match parseValue (s.toList.length + 1) s.toList with
  | some (v, []) => some v
  | _ => none

/-! ## Reading compact text back -/

/-- What may follow a value: not a digit, which would extend a number. -/
def NoDigit (rest : List Char) : Prop := ∀ c ∈ rest.head?, c.isDigit = false

theorem noDigit_cons {c : Char} {rest : List Char} (h : c.isDigit = false) :
    NoDigit (c :: rest) := by
  intro d hd
  rw [List.head?_cons, Option.mem_some_iff] at hd
  rw [← hd]
  exact h

theorem scanString_pair {e x : Char} (hu : e ≠ 'u') (hx : escapeOf e = some x) (cs : List Char) :
    scanString ('\\' :: e :: cs) = (scanString cs).map fun (s, rest) => (x :: s, rest) := by
  rw [scanString.eq_def]
  simp [hu, hx]

theorem scanString_escapeChar (c : Char) (cs : List Char) :
    scanString (escapeChar c ++ cs) = (scanString cs).map fun (s, rest) => (c :: s, rest) := by
  unfold escapeChar
  split
  · rename_i h
    subst h
    exact scanString_pair (by decide) rfl cs
  split
  · rename_i h
    subst h
    exact scanString_pair (by decide) rfl cs
  split
  · rename_i h
    subst h
    exact scanString_pair (by decide) rfl cs
  split
  · rename_i h
    subst h
    exact scanString_pair (by decide) rfl cs
  split
  · rename_i h
    subst h
    exact scanString_pair (by decide) rfl cs
  split
  · rename_i h
    subst h
    exact scanString_pair (by decide) rfl cs
  split
  · rename_i h
    subst h
    exact scanString_pair (by decide) rfl cs
  split
  · -- the remaining control codes
    rename_i h
    have hread : ∀ n, n < 0x20 →
        hexEscape '0' '0' (Nat.digitChar (n / 16)) (Nat.digitChar (n % 16)) = some (Char.ofNat n) := by
      decide
    have hchar := hread c.toNat h
    rw [Char.ofNat_toNat] at hchar
    rw [List.cons_append, scanString.eq_def]
    simp [hchar]
  · rename_i hquote hslash _ _ _ _ _ hcontrol
    have hplain : plainChar c = true := by
      simp [plainChar, hquote, hslash, Nat.not_lt.mp hcontrol]
    rw [List.cons_append, scanString.eq_def]
    simp [hquote, hslash, hplain]

theorem scanString_escape (s rest : List Char) :
    scanString (s.flatMap escapeChar ++ '"' :: rest) = some (s, rest) := by
  induction s with
  | nil =>
      rw [List.flatMap_nil, List.nil_append, scanString.eq_def]
      simp
  | cons c s ih =>
      rw [List.flatMap_cons, List.append_assoc, scanString_escapeChar, ih]
      rfl

@[simp] theorem toList_escape (s : String) : (escape s).toList = s.toList.flatMap escapeChar := by
  simp [escape]

theorem toList_quoted (s : String) : (quoted s).toList = '"' :: (s.toList ++ ['"']) := by
  simp [quoted]

theorem takeWhile_digits {ds rest : List Char} (hd : ∀ c ∈ ds, c.isDigit = true)
    (hr : NoDigit rest) :
    (ds ++ rest).takeWhile Char.isDigit = ds ∧ (ds ++ rest).dropWhile Char.isDigit = rest := by
  have hrest : rest.takeWhile Char.isDigit = [] ∧ rest.dropWhile Char.isDigit = rest := by
    cases rest with
    | nil => exact ⟨rfl, rfl⟩
    | cons c cs =>
        have hc : c.isDigit = false := hr c (by simp)
        simp [hc]
  rw [List.takeWhile_append_of_pos hd, List.dropWhile_append_of_pos hd, hrest.1, hrest.2]
  exact ⟨List.append_nil _, rfl⟩

theorem parseValue_num {n fuel : Nat} {rest : List Char} (hn : n < 2 ^ 64) (hf : 0 < fuel)
    (hr : NoDigit rest) :
    parseValue fuel (n.repr.toList ++ rest) = some (.num n, rest) := by
  obtain ⟨fuel, rfl⟩ : ∃ m, fuel = m + 1 := ⟨fuel - 1, by omega⟩
  have hdigits : ∀ c ∈ Nat.toDigits 10 n, c.isDigit = true := fun c hc =>
    Nat.isDigit_of_mem_toDigits (by decide) (by decide) hc
  have hspan := takeWhile_digits hdigits hr
  have hval := Text.digitsValue_toDigits n
  rw [Nat.toList_repr]
  cases hd : Nat.toDigits 10 n with
  | nil => exact absurd hd Nat.toDigits_ne_nil
  | cons c cs =>
      have hc : c.isDigit = true := hdigits c (by rw [hd]; exact List.mem_cons_self)
      have hsyntax : c ≠ '"' ∧ c ≠ '[' ∧ c ≠ '\x7b' := by
        refine ⟨?_, ?_, ?_⟩ <;>
        · rintro rfl
          exact absurd hc (by decide)
      rw [hd] at hspan hval
      rw [List.cons_append] at hspan ⊢
      rw [parseValue, if_neg hsyntax.1, if_neg hsyntax.2.1, if_neg hsyntax.2.2, if_pos hc]
      simp only [hspan.1, hspan.2, hval, Option.bind_some, if_pos hn]

/-- The text of a value starts with a character that closes nothing. -/
theorem compact_head (v : Json) (h : v ≠ .other) :
    ∃ c cs, v.compact.toList = c :: cs ∧ c ≠ ']' ∧ c ≠ '\x7d' := by
  cases v with
  | null => exact ⟨'n', ['u', 'l', 'l'], by simp [compact], by decide, by decide⟩
  | bool b => cases b <;> simp [compact]
  | num n =>
      rw [compact, Nat.toList_repr]
      cases hd : Nat.toDigits 10 n with
      | nil => exact absurd hd Nat.toDigits_ne_nil
      | cons c cs =>
          have hc : c.isDigit = true := Nat.isDigit_of_mem_toDigits (b := 10) (n := n) (by decide)
            (by decide) (by rw [hd]; exact List.mem_cons_self)
          refine ⟨c, cs, rfl, ?_, ?_⟩ <;>
          · rintro rfl
            exact absurd hc (by decide)
  | other => exact absurd rfl h
  | str s => exact ⟨'"', _, toList_quoted s, by decide, by decide⟩
  | arr items => simp [compact]
  | obj fields => simp [compact]

theorem toList_commas_cons (x : String) (xs : List String) (tail : List Char) :
    (commas (x :: xs)).toList ++ tail = x.toList ++
      (match xs with
        | [] => tail
        | y :: ys => ',' :: ((commas (y :: ys)).toList ++ tail)) := by
  cases xs with
  | nil => rfl
  | cons y ys => simp [commas]

theorem compact_arr (items : List Json) :
    (Json.arr items).compact = "[" ++ commas (compactItems items) ++ "]" := by
  rw [compact]

theorem compact_obj (fields : List (String × Json)) :
    (Json.obj fields).compact = "\x7b" ++ commas (compactFields fields) ++ "\x7d" := by
  rw [compact]

theorem compactItems_cons (v : Json) (vs : List Json) :
    compactItems (v :: vs) = v.compact :: compactItems vs := by
  rw [compactItems]

theorem compactFields_cons (k : String) (v : Json) (fs : List (String × Json)) :
    compactFields ((k, v) :: fs) = (quoted k ++ ":" ++ v.compact) :: compactFields fs := by
  rw [compactFields]

theorem escaped_ne_other {v : Json} (h : v.Sound) : v.escaped ≠ .other := by
  cases v <;> simp_all [escaped, Sound]

theorem toList_arr (items : List Json) (rest : List Char) :
    (Json.arr items).compact.toList ++ rest =
      '[' :: ((commas (compactItems items)).toList ++ ']' :: rest) := by
  simp [compact]

theorem toList_obj (fields : List (String × Json)) (rest : List Char) :
    (Json.obj fields).compact.toList ++ rest =
      '\x7b' :: ((commas (compactFields fields)).toList ++ '\x7d' :: rest) := by
  simp [compact]

theorem toList_items (v w : Json) (ws : List Json) (tail : List Char) :
    (commas (compactItems (v :: w :: ws))).toList ++ tail =
      v.compact.toList ++ ',' :: ((commas (compactItems (w :: ws))).toList ++ tail) := by
  rw [compactItems_cons v, toList_commas_cons, compactItems_cons w]

theorem toList_field (k : String) (v : Json) :
    (commas (compactFields [(escape k, v)])).toList =
      '"' :: (k.toList.flatMap escapeChar ++ '"' :: ':' :: v.compact.toList) := by
  simp [compactFields, commas, toList_quoted]

theorem toList_fields (k k' : String) (v v' : Json) (fs : List (String × Json)) (tail : List Char) :
    (commas (compactFields ((escape k, v) :: (k', v') :: fs))).toList ++ tail =
      '"' :: (k.toList.flatMap escapeChar ++ '"' :: ':' :: (v.compact.toList ++
        ',' :: ((commas (compactFields ((k', v') :: fs))).toList ++ tail))) := by
  rw [compactFields_cons (escape k), toList_commas_cons, compactFields_cons k']
  simp [toList_quoted]

theorem parseFields_scan {fuel : Nat} {k : String} {v : Json} {text rest : List Char}
    (hv : parseValue fuel text = some (v, '\x7d' :: rest)) :
    parseFields (fuel + 1) ('"' :: (k.toList.flatMap escapeChar ++ '"' :: ':' :: text)) =
      some ([(k, v)], rest) := by
  simp [parseFields, scanString_escape, hv]

theorem parseFields_more {fuel : Nat} {k : String} {v : Json} {text more rest : List Char}
    {fs : List (String × Json)} (hv : parseValue fuel text = some (v, ',' :: more))
    (hfs : parseFields fuel more = some (fs, rest)) :
    parseFields (fuel + 1) ('"' :: (k.toList.flatMap escapeChar ++ '"' :: ':' :: text)) =
      some ((k, v) :: fs, rest) := by
  simp [parseFields, scanString_escape, hv, hfs]

/-- The parser gives `v` back, whatever follows its text. -/
def ValueRead (v : Json) : Prop :=
  ∀ (fuel : Nat) (rest : List Char), v.escaped.compact.toList.length < fuel → NoDigit rest →
    parseValue fuel (v.escaped.compact.toList ++ rest) = some (v, rest)

def ItemsRead (v : Json) (vs : List Json) : Prop :=
  ∀ (fuel : Nat) (rest : List Char),
    (commas (compactItems (v.escaped :: escapedItems vs))).toList.length + 1 < fuel →
    parseItems fuel ((commas (compactItems (v.escaped :: escapedItems vs))).toList ++ ']' :: rest) =
      some (v :: vs, rest)

def FieldsRead (k : String) (v : Json) (fs : List (String × Json)) : Prop :=
  ∀ (fuel : Nat) (rest : List Char),
    (commas (compactFields ((escape k, v.escaped) :: escapedFields fs))).toList.length + 1 < fuel →
    parseFields fuel ((commas (compactFields ((escape k, v.escaped) :: escapedFields fs))).toList ++
        '\x7d' :: rest) =
      some ((k, v) :: fs, rest)

theorem fuel_succ {n fuel : Nat} (h : n < fuel) : ∃ m, fuel = m + 1 := ⟨fuel - 1, by omega⟩

theorem valueRead_arr {v : Json} {vs : List Json} (hv : v.Sound) (h : ItemsRead v vs) :
    ValueRead (.arr (v :: vs)) := by
  intro fuel rest hf hr
  obtain ⟨fuel, rfl⟩ := fuel_succ hf
  rw [escaped, escapedItems] at hf ⊢
  have hlen := congrArg List.length (toList_arr (v.escaped :: escapedItems vs) [])
  simp only [List.append_nil, List.length_cons, List.length_append, List.length_nil] at hlen
  have hhead : ((commas (compactItems (v.escaped :: escapedItems vs))).toList ++
      ']' :: rest).head? ≠ some ']' := by
    obtain ⟨c, cs, hc, hne, -⟩ := compact_head v.escaped (escaped_ne_other hv)
    rw [compactItems_cons, toList_commas_cons, hc]
    simpa using hne
  rw [toList_arr, parseValue, if_neg (by decide), if_pos rfl, if_neg hhead, h fuel rest (by omega)]
  rfl

theorem valueRead_obj {k : String} {v : Json} {fs : List (String × Json)} (h : FieldsRead k v fs) :
    ValueRead (.obj ((k, v) :: fs)) := by
  intro fuel rest hf hr
  obtain ⟨fuel, rfl⟩ := fuel_succ hf
  rw [escaped, escapedFields] at hf ⊢
  have hlen := congrArg List.length (toList_obj ((escape k, v.escaped) :: escapedFields fs) [])
  simp only [List.append_nil, List.length_cons, List.length_append, List.length_nil] at hlen
  have hhead : ((commas (compactFields ((escape k, v.escaped) :: escapedFields fs))).toList ++
      '\x7d' :: rest).head? ≠ some '\x7d' := by
    rw [compactFields_cons, toList_commas_cons]
    simp [toList_quoted]
  rw [toList_obj, parseValue, if_neg (by decide), if_neg (by decide), if_pos rfl, if_neg hhead,
    h fuel rest (by omega)]
  rfl

theorem itemsRead_nil {v : Json} (hv : ValueRead v) : ItemsRead v [] := by
  intro fuel rest hf
  obtain ⟨fuel, rfl⟩ := fuel_succ hf
  have htext : (commas (compactItems [v.escaped])).toList = v.escaped.compact.toList := by
    rw [compactItems_cons]
    rfl
  rw [escapedItems, htext] at hf ⊢
  simp [parseItems, hv fuel (']' :: rest) (by omega) (noDigit_cons (by decide))]

theorem itemsRead_cons {v w : Json} {ws : List Json} (hv : ValueRead v) (hws : ItemsRead w ws) :
    ItemsRead v (w :: ws) := by
  intro fuel rest hf
  obtain ⟨fuel, rfl⟩ := fuel_succ hf
  rw [escapedItems] at hf ⊢
  have hlen := congrArg List.length (toList_items v.escaped w.escaped (escapedItems ws) [])
  simp only [List.append_nil, List.length_append, List.length_cons] at hlen
  have hv := hv fuel
    (',' :: ((commas (compactItems (w.escaped :: escapedItems ws))).toList ++ ']' :: rest))
    (by omega) (noDigit_cons (by decide))
  rw [toList_items]
  simp [parseItems, hv, hws fuel rest (by omega)]

theorem fieldsRead_nil {k : String} {v : Json} (hv : ValueRead v) : FieldsRead k v [] := by
  intro fuel rest hf
  obtain ⟨fuel, rfl⟩ := fuel_succ hf
  rw [escapedFields, toList_field] at hf ⊢
  simp only [List.length_cons, List.length_append] at hf
  rw [List.cons_append, List.append_assoc]
  exact parseFields_scan (hv fuel ('\x7d' :: rest) (by omega) (noDigit_cons (by decide)))

theorem fieldsRead_cons {k k' : String} {v v' : Json} {fs : List (String × Json)}
    (hv : ValueRead v) (hfs : FieldsRead k' v' fs) : FieldsRead k v ((k', v') :: fs) := by
  intro fuel rest hf
  obtain ⟨fuel, rfl⟩ := fuel_succ hf
  rw [escapedFields] at hf ⊢
  have hlen := congrArg List.length
    (toList_fields k (escape k') v.escaped v'.escaped (escapedFields fs) [])
  simp only [List.append_nil, List.length_append, List.length_cons] at hlen
  rw [toList_fields]
  exact parseFields_more (hv fuel _ (by omega) (noDigit_cons (by decide)))
    (hfs fuel rest (by omega))

mutual
theorem parseValue_text : ∀ v : Json, v.Sound → ValueRead v
  | .null, _ => by
      intro fuel rest hf _
      obtain ⟨fuel, rfl⟩ := fuel_succ hf
      simp [escaped, compact, parseValue, expect]
  | .bool b, _ => by
      intro fuel rest hf _
      obtain ⟨fuel, rfl⟩ := fuel_succ hf
      cases b <;> simp [escaped, compact, parseValue, expect]
  | .num n, h => by
      intro fuel rest hf hr
      rw [Sound] at h
      rw [escaped, compact]
      exact parseValue_num h (Nat.zero_lt_of_lt hf) hr
  | .other, h => absurd h (by simp [Sound])
  | .str s, _ => by
      intro fuel rest hf _
      obtain ⟨fuel, rfl⟩ := fuel_succ hf
      have hscan := scanString_escape s.toList rest
      rw [escaped, compact, toList_quoted, toList_escape]
      simp [parseValue, hscan]
  | .arr [], _ => by
      intro fuel rest hf _
      obtain ⟨fuel, rfl⟩ := fuel_succ hf
      simp [escaped, escapedItems, compact, compactItems, commas, parseValue]
  | .arr (v :: vs), h => by
      rw [Sound] at h
      have hv := h
      rw [SoundItems] at hv
      exact valueRead_arr hv.1 (parseItems_text (v :: vs) h v vs rfl)
  | .obj [], _ => by
      intro fuel rest hf _
      obtain ⟨fuel, rfl⟩ := fuel_succ hf
      simp [escaped, escapedFields, compact, compactFields, commas, parseValue]
  | .obj ((k, v) :: fs), h => by
      rw [Sound] at h
      exact valueRead_obj (parseFields_text ((k, v) :: fs) h k v fs rfl)
theorem parseItems_text : ∀ vs : List Json, SoundItems vs →
    ∀ (v : Json) (ws : List Json), vs = v :: ws → ItemsRead v ws
  | [], _ => by
      rintro _ _ ⟨⟩
  | [v], h => by
      rintro _ _ ⟨⟩
      rw [SoundItems] at h
      exact itemsRead_nil (parseValue_text v h.1)
  | v :: w :: ws, h => by
      rintro _ _ ⟨⟩
      rw [SoundItems] at h
      exact itemsRead_cons (parseValue_text v h.1) (parseItems_text (w :: ws) h.2 w ws rfl)
theorem parseFields_text : ∀ fs : List (String × Json), SoundFields fs →
    ∀ (k : String) (v : Json) (gs : List (String × Json)), fs = (k, v) :: gs → FieldsRead k v gs
  | [], _ => by
      rintro _ _ _ ⟨⟩
  | [(k, v)], h => by
      rintro _ _ _ ⟨⟩
      rw [SoundFields] at h
      exact fieldsRead_nil (parseValue_text v h.1)
  | (k, v) :: (k', v') :: fs, h => by
      rintro _ _ _ ⟨⟩
      rw [SoundFields] at h
      exact fieldsRead_cons (parseValue_text v h.1) (parseFields_text ((k', v') :: fs) h.2 k' v' fs rfl)
end

/-! ## Plain values have no escapes -/

theorem escape_plain {s : String} (h : PlainStr s) : escape s = s := by
  have hflat : ∀ cs : List Char, (∀ c ∈ cs, plainChar c = true) → cs.flatMap escapeChar = cs := by
    intro cs hcs
    induction cs with
    | nil => rfl
    | cons c cs ih =>
        obtain ⟨hc, hcs⟩ := List.forall_mem_cons.mp hcs
        simp only [plainChar, Bool.and_eq_true, bne_iff_ne, decide_eq_true_eq] at hc
        have hne : ∀ d : Char, d.toNat < 0x20 → c ≠ d := by
          rintro d hd rfl
          omega
        rw [List.flatMap_cons, ih hcs, escapeChar, if_neg hc.1.1, if_neg hc.1.2,
          if_neg (hne '\n' (by decide)), if_neg (hne '\r' (by decide)),
          if_neg (hne '\t' (by decide)), if_neg (hne '\x08' (by decide)),
          if_neg (hne '\x0c' (by decide)), if_neg (Nat.not_lt.mpr hc.2)]
        rfl
  rw [escape, hflat _ h, String.ofList_toList]

mutual
theorem Plain.sound_escaped : ∀ v : Json, v.Plain → v.Sound ∧ v.escaped = v
  | .null, _ => by simp [Sound, escaped]
  | .bool _, _ => by simp [Sound, escaped]
  | .num n, h => by
      rw [Plain] at h
      rw [Sound, escaped]
      exact ⟨h, rfl⟩
  | .other, h => absurd h (by simp [Plain])
  | .str s, h => by
      rw [Plain] at h
      simp [Sound, escaped, escape_plain h]
  | .arr items, h => by
      rw [Plain] at h
      obtain ⟨hs, he⟩ := PlainItems.sound_escaped items h
      simp [Sound, escaped, hs, he]
  | .obj fields, h => by
      rw [Plain] at h
      obtain ⟨hs, he⟩ := PlainFields.sound_escaped fields h
      simp [Sound, escaped, hs, he]
theorem PlainItems.sound_escaped : ∀ vs : List Json, PlainItems vs →
    SoundItems vs ∧ escapedItems vs = vs
  | [], _ => by simp [SoundItems, escapedItems]
  | v :: vs, h => by
      rw [PlainItems] at h
      obtain ⟨hs, he⟩ := Plain.sound_escaped v h.1
      obtain ⟨hss, hes⟩ := PlainItems.sound_escaped vs h.2
      simp [SoundItems, escapedItems, hs, he, hss, hes]
theorem PlainFields.sound_escaped : ∀ fs : List (String × Json), PlainFields fs →
    SoundFields fs ∧ escapedFields fs = fs
  | [], _ => by simp [SoundFields, escapedFields]
  | (k, v) :: fs, h => by
      rw [PlainFields] at h
      obtain ⟨hs, he⟩ := Plain.sound_escaped v h.2.1
      obtain ⟨hss, hes⟩ := PlainFields.sound_escaped fs h.2.2
      simp [SoundFields, escapedFields, escape_plain h.1, hs, he, hss, hes]
end

/-! ## Compact text is printable -/

/-- Every character is at or above the space: no newline, no control code. -/
def Printable (s : String) : Prop := ∀ c ∈ s.toList, 0x20 ≤ c.toNat

theorem printable_append {a b : String} (ha : Printable a) (hb : Printable b) :
    Printable (a ++ b) := by
  intro c hc
  rw [String.toList_append, List.mem_append] at hc
  rcases hc with hc | hc
  · exact ha c hc
  · exact hb c hc

theorem printable_quoted {s : String} (h : PlainStr s) : Printable (quoted s) := by
  intro c hc
  rw [toList_quoted] at hc
  rcases List.mem_cons.mp hc with rfl | hc
  · decide
  rcases List.mem_append.mp hc with hc | hc
  · have := h c hc
    simp only [plainChar, Bool.and_eq_true, decide_eq_true_eq] at this
    exact this.2
  · rw [List.mem_singleton.mp hc]
    decide

theorem printable_repr (n : Nat) : Printable n.repr := by
  intro c hc
  rw [Nat.toList_repr] at hc
  have := Nat.isDigit_of_mem_toDigits (by decide) (by decide) hc
  simp only [Char.isDigit, Bool.and_eq_true, decide_eq_true_eq] at this
  have h48 : (48 : UInt32) ≤ c.val := this.1
  have : 48 ≤ c.toNat := h48
  omega

theorem printable_commas : ∀ {xs : List String}, (∀ x ∈ xs, Printable x) → Printable (commas xs)
  | [], _ => by simp [commas, Printable]
  | [x], h => h x List.mem_cons_self
  | x :: y :: rest, h => by
      have hcomma : Printable "," := by simp [Printable]
      exact printable_append (printable_append (h x List.mem_cons_self) hcomma)
        (printable_commas fun z hz => h z (List.mem_cons_of_mem _ hz))

mutual
theorem printable_compact : ∀ v : Json, v.Plain → Printable v.compact
  | .null, _ => by simp [compact, Printable]
  | .bool b, _ => by cases b <;> simp [compact, Printable]
  | .num n, _ => by
      rw [compact]
      exact printable_repr n
  | .other, h => absurd h (by simp [Plain])
  | .str s, h => by
      rw [compact]
      exact printable_quoted (by simpa [Plain] using h)
  | .arr items, h => by
      rw [compact]
      refine printable_append (printable_append (by simp [Printable]) (printable_commas ?_))
        (by simp [Printable])
      exact printable_compactItems items (by simpa [Plain] using h)
  | .obj fields, h => by
      rw [compact]
      refine printable_append (printable_append (by simp [Printable]) (printable_commas ?_))
        (by simp [Printable])
      exact printable_compactFields fields (by simpa [Plain] using h)
theorem printable_compactItems : ∀ vs : List Json, PlainItems vs →
    ∀ x ∈ compactItems vs, Printable x
  | [], _, x, hx => by simp [compactItems] at hx
  | v :: vs, h, x, hx => by
      have hp : v.Plain ∧ PlainItems vs := by simpa [PlainItems] using h
      rw [compactItems_cons] at hx
      rcases List.mem_cons.mp hx with rfl | hx
      · exact printable_compact v hp.1
      · exact printable_compactItems vs hp.2 x hx
theorem printable_compactFields : ∀ fs : List (String × Json), PlainFields fs →
    ∀ x ∈ compactFields fs, Printable x
  | [], _, x, hx => by simp [compactFields] at hx
  | (k, v) :: fs, h, x, hx => by
      have hp : PlainStr k ∧ v.Plain ∧ PlainFields fs := by simpa [PlainFields] using h
      rw [compactFields_cons] at hx
      rcases List.mem_cons.mp hx with rfl | hx
      · exact printable_append (printable_append (printable_quoted hp.1) (by simp [Printable]))
          (printable_compact v hp.2.1)
      · exact printable_compactFields fs hp.2.2 x hx
end

/-- The text of a plain value is one line. -/
theorem plainLine_compact {v : Json} (h : v.Plain) : Text.PlainLine v.compact := by
  have hp := printable_compact v h
  constructor
  · intro hmem
    exact absurd (hp _ hmem) (by decide)
  · intro hlast
    exact absurd (hp _ (List.mem_of_getLast? hlast)) (by decide)

theorem parse_text (v : Json) (h : v.Sound) : parse v.text = some v := by
  have hv := parseValue_text v h (v.text.toList.length + 1) [] (Nat.lt_succ_self _)
    (fun c hc => absurd hc (by simp))
  rw [List.append_nil] at hv
  rw [parse]
  unfold text at hv ⊢
  rw [hv]

theorem parse_compact (v : Json) (h : v.Plain) : parse v.compact = some v := by
  obtain ⟨hsound, hescaped⟩ := Plain.sound_escaped v h
  have hv := parse_text v hsound
  rwa [text, hescaped] at hv

def parser : JsonParser :=
  ⟨parse, fun _ => "expected value at line 1 column 1", fun v h => parse_compact v h.plain⟩

def reader : JsonReader := ⟨parser, fun v h _ => parse_text v h⟩

/-! ## Size

Every value of a document takes at least one character of its text. -/

mutual
/-- The number of values in a document. -/
def weight : Json → Nat
  | .null => 1
  | .bool _ => 1
  | .num _ => 1
  | .other => 1
  | .str _ => 1
  | .arr items => 1 + weightItems items
  | .obj fields => 1 + weightFields fields
def weightItems : List Json → Nat
  | [] => 0
  | v :: vs => weight v + weightItems vs
def weightFields : List (String × Json) → Nat
  | [] => 0
  | (_, v) :: fs => weight v + weightFields fs
end

theorem weight_pos (v : Json) : 0 < v.weight := by
  cases v <;> simp only [weight] <;> omega

theorem length_le_weightItems : ∀ vs : List Json, vs.length ≤ weightItems vs
  | [] => Nat.zero_le _
  | v :: vs => by
      have hv := weight_pos v
      have ih := length_le_weightItems vs
      rw [weightItems, List.length_cons]
      omega

theorem weight_le_weightFields {k : String} {v : Json} : ∀ {fs : List (String × Json)},
    (k, v) ∈ fs → v.weight ≤ weightFields fs
  | (k', w) :: fs, h => by
      rw [weightFields]
      rcases List.mem_cons.mp h with h | h
      · cases h
        omega
      · have ih := weight_le_weightFields h
        omega

theorem mem_of_lookup {k : String} {v : Json} {fs : List (String × Json)}
    (h : fs.lookup k = some v) : (k, v) ∈ fs := by
  obtain ⟨l₁, l₂, rfl, -⟩ := List.lookup_eq_some_iff.mp h
  simp

theorem weight_get {v w : Json} {k : String} (h : v.get k = some w) : w.weight < v.weight := by
  cases v with
  | obj fields =>
      have hle := weight_le_weightFields (List.mem_reverse.mp (mem_of_lookup h))
      rw [weight]
      omega
  | null => cases h
  | bool b => cases h
  | num n => cases h
  | other => cases h
  | str s => cases h
  | arr items => cases h

theorem length_lt_weight {v : Json} {items : List Json} (h : v.asArray = some items) :
    items.length < v.weight := by
  cases v with
  | arr xs =>
      cases h
      have hle := length_le_weightItems items
      rw [weight]
      omega
  | null => cases h
  | bool b => cases h
  | num n => cases h
  | other => cases h
  | str s => cases h
  | obj fields => cases h

theorem scanString_shorter : ∀ {cs s rest : List Char}, scanString cs = some (s, rest) →
    rest.length < cs.length := by
  intro cs
  fun_induction scanString cs with
  | case1 => intro s rest h; cases h
  | case2 cs => intro s rest h; cases h; simp
  | case3 => intro s rest h; cases h
  | case4 d₁ d₂ d₃ d₄ tail _ ih =>
      intro s rest h
      obtain ⟨x, -, h⟩ := Option.bind_eq_some_iff.mp h
      obtain ⟨p, hp, h⟩ := Option.map_eq_some_iff.mp h
      cases h
      have hlt := ih hp
      simp only [List.length_cons]
      omega
  | case5 => intro s rest h; cases h
  | case6 e es _ _ ih =>
      intro s rest h
      obtain ⟨x, -, h⟩ := Option.bind_eq_some_iff.mp h
      obtain ⟨p, hp, h⟩ := Option.map_eq_some_iff.mp h
      cases h
      have hlt := ih hp
      simp only [List.length_cons]
      omega
  | case7 c cs _ _ _ ih =>
      intro s rest h
      obtain ⟨p, hp, h⟩ := Option.map_eq_some_iff.mp h
      cases h
      exact Nat.lt_succ_of_lt (ih hp)
  | case8 => intro s rest h; cases h

theorem expect_shorter {word : String} {cs rest : List Char} (hword : word.toList ≠ [])
    (h : expect word cs = some rest) : rest.length < cs.length := by
  rw [expect] at h
  split at h
  · rename_i hpre
    cases h
    have hle := (List.isPrefixOf_iff_prefix.mp hpre).length_le
    have hpos := List.length_pos_iff.mpr hword
    rw [List.length_drop]
    omega
  · cases h

/-- What is read takes up the text, value by value. -/
structure Fits (fuel : Nat) : Prop where
  value : ∀ {cs v rest}, parseValue fuel cs = some (v, rest) → v.weight + rest.length ≤ cs.length
  items : ∀ {cs vs rest}, parseItems fuel cs = some (vs, rest) →
    weightItems vs + rest.length ≤ cs.length
  fields : ∀ {cs fs rest}, parseFields fuel cs = some (fs, rest) →
    weightFields fs + rest.length ≤ cs.length

theorem parseValue_fits {fuel : Nat} (ih : Fits fuel) {cs rest : List Char} {v : Json}
    (h : parseValue (fuel + 1) cs = some (v, rest)) : v.weight + rest.length ≤ cs.length := by
  cases cs with
  | nil => cases h
  | cons c cs =>
      rw [parseValue] at h
      split at h
      · obtain ⟨p, hp, h⟩ := Option.map_eq_some_iff.mp h
        cases h
        have hlt := scanString_shorter hp
        simp only [weight, List.length_cons]
        omega
      split at h
      · split at h
        · cases h
          simp only [weight, weightItems, List.length_tail, List.length_cons]
          omega
        · obtain ⟨p, hp, h⟩ := Option.map_eq_some_iff.mp h
          cases h
          have hle := ih.items hp
          simp only [weight, List.length_cons]
          omega
      split at h
      · split at h
        · cases h
          simp only [weight, weightFields, List.length_tail, List.length_cons]
          omega
        · obtain ⟨p, hp, h⟩ := Option.map_eq_some_iff.mp h
          cases h
          have hle := ih.fields hp
          simp only [weight, List.length_cons]
          omega
      split at h
      · rename_i hdigit
        obtain ⟨n, -, h⟩ := Option.bind_eq_some_iff.mp h
        split at h
        · cases h
          have hle := (List.dropWhile_sublist Char.isDigit (l := cs)).length_le
          rw [List.dropWhile_cons_of_pos hdigit, weight, List.length_cons]
          omega
        · cases h
      -- the three words: each takes its letters and leaves the rest
      have hword : ∀ {word : String} {w : Json}, word.toList ≠ [] → w.weight = 1 →
          (expect word (c :: cs)).map (fun rest => (w, rest)) = some (v, rest) →
            v.weight + rest.length ≤ (c :: cs).length := by
        intro word w hne hw h
        obtain ⟨r, hr, h⟩ := Option.map_eq_some_iff.mp h
        cases h
        have hlt := expect_shorter hne hr
        omega
      split at h
      · exact hword (by decide) (by rw [weight]) h
      split at h
      · exact hword (by decide) (by rw [weight]) h
      split at h
      · exact hword (by decide) (by rw [weight]) h
      · cases h

theorem parseItems_fits {fuel : Nat} (ih : Fits fuel) {cs rest : List Char} {vs : List Json}
    (h : parseItems (fuel + 1) cs = some (vs, rest)) :
    weightItems vs + rest.length ≤ cs.length := by
  rw [parseItems] at h
  obtain ⟨⟨v, tail⟩, hv, h⟩ := Option.bind_eq_some_iff.mp h
  have hle := ih.value hv
  dsimp only at h
  split at h
  · obtain ⟨⟨ws, tail'⟩, hws, h⟩ := Option.bind_eq_some_iff.mp h
    cases h
    have hle' := ih.items hws
    simp only [weightItems, List.length_cons] at hle ⊢
    omega
  · cases h
    simp only [weightItems, List.length_cons] at hle ⊢
    omega
  · cases h

theorem parseFields_fits {fuel : Nat} (ih : Fits fuel) {cs rest : List Char}
    {fs : List (String × Json)} (h : parseFields (fuel + 1) cs = some (fs, rest)) :
    weightFields fs + rest.length ≤ cs.length := by
  cases cs with
  | nil => cases h
  | cons q cs =>
      rw [parseFields] at h
      split at h
      · cases h
      obtain ⟨⟨k, tail⟩, hk, h⟩ := Option.bind_eq_some_iff.mp h
      have hlt := scanString_shorter hk
      dsimp only at h
      split at h
      · obtain ⟨⟨v, tail'⟩, hv, h⟩ := Option.bind_eq_some_iff.mp h
        have hle := ih.value hv
        dsimp only at h
        split at h
        · obtain ⟨⟨gs, tail''⟩, hgs, h⟩ := Option.bind_eq_some_iff.mp h
          cases h
          have hle' := ih.fields hgs
          simp only [weightFields, List.length_cons] at hlt hle ⊢
          omega
        · cases h
          simp only [weightFields, List.length_cons] at hlt hle ⊢
          omega
        · cases h
      · cases h

theorem fits : ∀ fuel : Nat, Fits fuel
  | 0 => by
      constructor
      · intro cs v rest h
        cases h
      · intro cs vs rest h
        cases h
      · intro cs fs rest h
        cases h
  | fuel + 1 =>
      ⟨parseValue_fits (fits fuel), parseItems_fits (fits fuel), parseFields_fits (fits fuel)⟩

theorem parse_weight {s : String} {v : Json} (h : parse s = some v) :
    v.weight ≤ s.toList.length := by
  rw [parse] at h
  split at h
  · rename_i w hw
    cases h
    have hle := (fits _).value hw
    simpa using hle
  · cases h

end Json

/-- Every value of a parsed document takes at least a character of its text. -/
def JsonParser.Frugal (J : JsonParser) : Prop :=
  ∀ (raw : String) (v : Json), J.fromStr raw = some v → v.weight ≤ raw.toList.length

theorem Json.parser_frugal : Json.parser.Frugal := fun _ _ h => Json.parse_weight h

end Strk20
