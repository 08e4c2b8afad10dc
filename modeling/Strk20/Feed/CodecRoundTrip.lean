import Strk20.Feed.Codec

/-!
# The codec round trip

Every line an encoder writes is the compact text of a JSON value (`blkJson`,
`endJson`, ...), so a parser that reads compact text back hands the decoder
that value, and the decoder rebuilds the record from it field by field.

- `EpochWf`, `HeadWf`: the payloads the decoder accepts.
- `parseEpoch_epochBytes`, `parseHead_headBytes`: the round trips.
-/

namespace Strk20.Feed.Codec

open Text Json Result

/-! ## Lines as JSON values -/

def feltJson (f : Felt) : Json := .str (feltHex f)

def diffJson (d : Felt × Felt) : Json := .arr [feltJson d.1, feltJson d.2]

def eventJson (e : EventLine) : Json :=
  .arr [.num e.txIndex, .num e.eventIndex, feltJson e.txHash, .arr (e.keys.map feltJson),
    .arr (e.data.map feltJson)]

/-- The fields every block line has. -/
def blkFields (b : BlockLine) : List (String × Json) :=
  [("t", .str "blk"), ("b", .num b.number), ("h", feltJson b.hash), ("p", feltJson b.parent),
    ("ts", .num b.timestamp), ("d", .arr (b.diffs.map diffJson)),
    ("e", .arr (b.events.map eventJson))]

def blkJson (b : BlockLine) : Json :=
  .obj (blkFields b ++
    (match b.replacedClass with
      | some rc => [("rc", feltJson rc)]
      | none => []) ++
    (match b.finality with
      | some fin => [("fin", .str (finalityText fin))]
      | none => []))

def endJson (f : Footer) : Json :=
  .obj [("t", .str "end"), ("blocks", .num f.blocks), ("diffs", .num f.diffs),
    ("events", .num f.events), ("class", feltJson f.cls)]

def epochHeaderJson (h : EpochHeader) : Json :=
  .obj [("t", .str "hdr"), ("v", .num FORMAT_VERSION), ("kind", .str KIND_EPOCH),
    ("chain_id", .str h.chainId), ("pool", feltJson h.pool), ("epoch", .num h.epoch),
    ("from", .num h.first), ("to", .num h.last),
    ("prev", match h.prev with
      | some p => .str (hexEncode p)
      | none => .null)]

def headHeaderJson (h : HeadHeader) : Json :=
  .obj [("t", .str "hdr"), ("v", .num FORMAT_VERSION), ("kind", .str KIND_HEAD),
    ("tail_from", .num h.tailFrom), ("head", .num h.head), ("head_hash", feltJson h.headHash),
    ("l1_accepted", .num h.l1Accepted)]

theorem compactItems_map {α : Type} (f : α → Json) : ∀ xs : List α,
    compactItems (xs.map f) = xs.map fun x => (f x).compact
  | [] => by simp [compactItems]
  | x :: xs => by rw [List.map_cons, compactItems_cons, compactItems_map f xs, List.map_cons]

theorem compact_feltJson (f : Felt) : (feltJson f).compact = quoted (feltHex f) := by
  rw [feltJson, compact]

theorem compact_feltArray (felts : List Felt) :
    (Json.arr (felts.map feltJson)).compact = feltArray felts := by
  simp [compact_arr, compactItems_map, compact_feltJson, feltArray]

theorem compact_diffJson (d : Felt × Felt) : (diffJson d).compact = encodeDiff d := by
  simp [diffJson, compact_arr, compactItems, commas, compact_feltJson, encodeDiff,
    String.append_assoc]

theorem compact_num (n : Nat) : (Json.num n).compact = n.repr := by
  rw [compact]

theorem compact_str (s : String) : (Json.str s).compact = quoted s := by
  rw [compact]

theorem compact_eventJson (e : EventLine) : (eventJson e).compact = encodeEvent e := by
  rw [eventJson, compact_arr]
  simp [compactItems, commas, compact_num, compact_feltJson, compact_feltArray, encodeEvent,
    String.append_assoc]

theorem compact_diffs (diffs : List (Felt × Felt)) :
    (Json.arr (diffs.map diffJson)).compact = "[" ++ commas (diffs.map encodeDiff) ++ "]" := by
  simp [compact_arr, compactItems_map, compact_diffJson]

theorem compact_events (events : List EventLine) :
    (Json.arr (events.map eventJson)).compact = "[" ++ commas (events.map encodeEvent) ++ "]" := by
  simp [compact_arr, compactItems_map, compact_eventJson]

theorem compact_record (fields : List (String × Json)) :
    (Json.obj fields).compact = record (fields.map fun f => (f.1, f.2.compact)) := by
  have hfields : ∀ fs : List (String × Json), compactFields fs =
      (fs.map fun f => (f.1, f.2.compact)).map fun f => quoted f.1 ++ ":" ++ f.2 := by
    intro fs
    induction fs with
    | nil => rw [compactFields]; rfl
    | cons f fs ih => rw [compactFields_cons f.1 f.2, ih]; rfl
  rw [compact_obj, hfields, record]

theorem compact_blkJson (b : BlockLine) : (blkJson b).compact = encodeBlkLine b := by
  rw [blkJson, compact_record, encodeBlkLine, blkFields]
  cases b.replacedClass <;> cases b.finality <;>
    simp only [List.map_append, List.map_cons, List.map_nil, compact_num, compact_str,
      compact_feltJson, compact_diffs, compact_events]

theorem compact_endJson (f : Footer) : (endJson f).compact = encodeEndLine f := by
  rw [endJson, compact_record, encodeEndLine]
  simp only [List.map_cons, List.map_nil, compact_num, compact_str, compact_feltJson]

theorem compact_epochHeaderJson (h : EpochHeader) :
    (epochHeaderJson h).compact = encodeEpochHeader h := by
  have hnull : Json.null.compact = "null" := by rw [compact]
  rw [epochHeaderJson, compact_record, encodeEpochHeader]
  cases h.prev <;>
    simp only [List.map_cons, List.map_nil, compact_num, compact_str, compact_feltJson, hnull]

theorem compact_headHeaderJson (h : HeadHeader) :
    (headHeaderJson h).compact = encodeHeadHeader h := by
  rw [headHeaderJson, compact_record, encodeHeadHeader]
  simp only [List.map_cons, List.map_nil, compact_num, compact_str, compact_feltJson]

/-! ## The values are plain -/

theorem plainChar_digitChar : ∀ d : Nat, d < 16 → plainChar (Nat.digitChar d) = true := by
  decide

theorem plainChar_hexDigits (n w : Nat) : ∀ c ∈ hexDigits n w, plainChar c = true := by
  intro c hc
  rw [hexDigits, List.mem_map] at hc
  obtain ⟨i, -, rfl⟩ := hc
  exact plainChar_digitChar _ (Nat.mod_lt _ (by decide))

theorem plainStr_hexEncode (k : Key) : PlainStr (hexEncode k) := by
  intro c hc
  rw [hexEncode_eq] at hc
  exact plainChar_hexDigits _ _ c hc

theorem plainStr_feltHex (f : Felt) : PlainStr (feltHex f) := by
  have hplain := plainChar_hexDigits (toBytesBe f).val 64
  have hlead : ∀ c ∈ "0x".toList, plainChar c = true := by simp; decide
  rw [feltHex]
  generalize hexDigits (toBytesBe f).val 64 = digits at hplain
  have htrim : ∀ c ∈ digits.dropWhile (· == '0'), plainChar c = true := fun c hc =>
    hplain c ((List.dropWhile_sublist _).subset hc)
  generalize digits.dropWhile (· == '0') = trimmed at htrim
  cases trimmed with
  | nil =>
      show ∀ c ∈ "0x0".toList, plainChar c = true
      simp
      decide
  | cons d ds =>
      intro c hc
      have hc' : c ∈ "0x".toList ++ d :: ds := by simpa using hc
      rcases List.mem_append.mp hc' with hc | hc
      · exact hlead c hc
      · exact htrim c hc

theorem plain_feltJson (f : Felt) : (feltJson f).Plain := by
  rw [feltJson, Plain]
  exact plainStr_feltHex f

theorem plainItems_map {α : Type} {f : α → Json} : ∀ {xs : List α}, (∀ x ∈ xs, (f x).Plain) →
    PlainItems (xs.map f)
  | [], _ => by simp [PlainItems]
  | x :: xs, h => by
      rw [List.map_cons, PlainItems]
      exact ⟨h x List.mem_cons_self, plainItems_map fun y hy => h y (List.mem_cons_of_mem _ hy)⟩

theorem plain_arr_map {α : Type} {f : α → Json} {xs : List α} (h : ∀ x ∈ xs, (f x).Plain) :
    (Json.arr (xs.map f)).Plain := by
  rw [Plain]
  exact plainItems_map h

theorem plain_diffJson (d : Felt × Felt) : (diffJson d).Plain := by
  simp [diffJson, Plain, PlainItems, plain_feltJson]

theorem plain_eventJson {e : EventLine} (h : e.Bounded) : (eventJson e).Plain := by
  have hk : ∀ felts : List Felt, (Json.arr (felts.map feltJson)).Plain := fun felts =>
    plain_arr_map fun f _ => plain_feltJson f
  rw [eventJson, Plain]
  simp only [PlainItems, plain_feltJson, hk, and_true]
  simp only [Plain]
  exact h

theorem plainStr_literal {s : String} (h : s.toList.all plainChar = true) : PlainStr s := by
  intro c hc
  exact List.all_eq_true.mp h c hc

theorem plainFields_append : ∀ {a b : List (String × Json)}, PlainFields a → PlainFields b →
    PlainFields (a ++ b)
  | [], _, _, hb => hb
  | (k, v) :: a, b, ha, hb => by
      rw [PlainFields] at ha
      rw [List.cons_append, PlainFields]
      exact ⟨ha.1, ha.2.1, plainFields_append ha.2.2 hb⟩

theorem plain_blkJson {b : BlockLine} (h : b.Bounded) : (blkJson b).Plain := by
  rw [blkJson, Plain]
  refine plainFields_append (plainFields_append ?_ ?_) ?_
  · have hd : (Json.arr (b.diffs.map diffJson)).Plain := plain_arr_map fun d _ => plain_diffJson d
    have he : (Json.arr (b.events.map eventJson)).Plain :=
      plain_arr_map fun e he => plain_eventJson (h.events e he)
    simp only [blkFields, PlainFields, plain_feltJson, hd, he, and_true, true_and]
    simp only [Plain]
    exact ⟨plainStr_literal (by decide), plainStr_literal (by decide),
      plainStr_literal (by decide), h.number, plainStr_literal (by decide),
      plainStr_literal (by decide), plainStr_literal (by decide), h.timestamp,
      plainStr_literal (by decide), plainStr_literal (by decide)⟩
  · cases b.replacedClass with
    | none => simp [PlainFields]
    | some rc =>
        simp only [PlainFields, plain_feltJson, and_true]
        exact plainStr_literal (by decide)
  · cases b.finality with
    | none => simp [PlainFields]
    | some fin =>
        simp only [PlainFields, Plain, and_true]
        refine ⟨plainStr_literal (by decide), ?_⟩
        cases fin <;> exact plainStr_literal (by decide)

theorem plain_endJson {f : Footer} (hb : f.blocks < 2 ^ 64) (hd : f.diffs < 2 ^ 64)
    (he : f.events < 2 ^ 64) : (endJson f).Plain := by
  rw [endJson, Plain]
  simp only [PlainFields, plain_feltJson, and_true]
  simp only [Plain]
  exact ⟨plainStr_literal (by decide), plainStr_literal (by decide), plainStr_literal (by decide),
    hb, plainStr_literal (by decide), hd, plainStr_literal (by decide), he,
    plainStr_literal (by decide)⟩

theorem depth_diffJson (d : Felt × Felt) : (diffJson d).depth ≤ 1 := by
  simp [diffJson, feltJson, depth, depthItems]

theorem depth_eventJson (e : EventLine) : (eventJson e).depth ≤ 2 := by
  have hfelts : ∀ felts : List Felt, depthItems (felts.map feltJson) ≤ 0 := fun felts =>
    depthItems_map_le fun f _ => by simp [feltJson, depth]
  have hkeys := hfelts e.keys
  have hdata := hfelts e.data
  simp only [eventJson, feltJson, depth, depthItems] at *
  omega

theorem readable_blkJson {b : BlockLine} (h : b.Bounded) : (blkJson b).Readable := by
  refine ⟨plain_blkJson h, ?_⟩
  have hdiffs : depthItems (b.diffs.map diffJson) ≤ 1 :=
    depthItems_map_le fun d _ => depth_diffJson d
  have hevents : depthItems (b.events.map eventJson) ≤ 2 :=
    depthItems_map_le fun e _ => depth_eventJson e
  have hfields : depthFields (blkFields b) ≤ 3 := by
    simp only [blkFields, feltJson, depth, depthFields]
    omega
  rw [blkJson, depth, depthFields_append, depthFields_append, NESTING_LIMIT]
  cases b.replacedClass <;> cases b.finality <;>
    simp only [feltJson, depth, depthFields] <;> omega

theorem readable_endJson {f : Footer} (hb : f.blocks < 2 ^ 64) (hd : f.diffs < 2 ^ 64)
    (he : f.events < 2 ^ 64) : (endJson f).Readable :=
  ⟨plain_endJson hb hd he, by simp [endJson, feltJson, depth, depthFields, NESTING_LIMIT]⟩

/-- The numbers of an epoch header fit `u64` and its chain id needs no escape. -/
structure EpochHeader.Bounded (h : EpochHeader) : Prop where
  chainId : PlainStr h.chainId
  epoch : h.epoch < 2 ^ 64
  first : h.first < 2 ^ 64
  last : h.last < 2 ^ 64

theorem plain_epochHeaderJson {h : EpochHeader} (hb : EpochHeader.Bounded h) :
    (epochHeaderJson h).Plain := by
  have hprev : (match h.prev with
      | some p => Json.str (hexEncode p)
      | none => Json.null).Plain := by
    cases h.prev with
    | none => simp [Plain]
    | some p =>
        rw [Plain]
        exact plainStr_hexEncode p
  rw [epochHeaderJson, Plain]
  simp only [PlainFields, plain_feltJson, hprev, and_true, true_and]
  simp only [Plain]
  exact ⟨plainStr_literal (by decide), plainStr_literal (by decide), plainStr_literal (by decide),
    by decide, plainStr_literal (by decide), plainStr_literal (by decide),
    plainStr_literal (by decide), hb.chainId, plainStr_literal (by decide),
    plainStr_literal (by decide), hb.epoch, plainStr_literal (by decide), hb.first,
    plainStr_literal (by decide), hb.last, plainStr_literal (by decide)⟩

theorem readable_epochHeaderJson {h : EpochHeader} (hb : EpochHeader.Bounded h) :
    (epochHeaderJson h).Readable := by
  refine ⟨plain_epochHeaderJson hb, ?_⟩
  cases hp : h.prev <;>
    simp [epochHeaderJson, hp, feltJson, depth, depthFields, NESTING_LIMIT]

/-- The numbers of a head header fit `u64`. -/
structure HeadHeader.Bounded (h : HeadHeader) : Prop where
  tailFrom : h.tailFrom < 2 ^ 64
  head : h.head < 2 ^ 64
  l1Accepted : h.l1Accepted < 2 ^ 64

theorem plain_headHeaderJson {h : HeadHeader} (hb : HeadHeader.Bounded h) :
    (headHeaderJson h).Plain := by
  rw [headHeaderJson, Plain]
  simp only [PlainFields, plain_feltJson, and_true, true_and]
  simp only [Plain]
  exact ⟨plainStr_literal (by decide), plainStr_literal (by decide), plainStr_literal (by decide),
    by decide, plainStr_literal (by decide), plainStr_literal (by decide),
    plainStr_literal (by decide), hb.tailFrom, plainStr_literal (by decide), hb.head,
    plainStr_literal (by decide), plainStr_literal (by decide), hb.l1Accepted⟩

theorem readable_headHeaderJson {h : HeadHeader} (hb : HeadHeader.Bounded h) :
    (headHeaderJson h).Readable :=
  ⟨plain_headHeaderJson hb,
    by simp [headHeaderJson, feltJson, depth, depthFields, NESTING_LIMIT]⟩

/-! ## Decoding the values -/

section

variable (P : FeltParser) (J : JsonParser)

theorem feltOf_feltJson (f : Felt) : feltOf P (feltJson f) = .ok f := by
  simp [feltOf, feltJson, asStr]

theorem mapM_map_ok {ε α β : Type} {f : β → Except ε α} {g : α → β} : ∀ (xs : List α),
    (∀ x ∈ xs, f (g x) = .ok x) → (xs.map g).mapM f = .ok xs
  | [], _ => rfl
  | x :: xs, h => by
      have ih := mapM_map_ok (f := f) (g := g) xs fun y hy => h y (List.mem_cons_of_mem _ hy)
      rw [List.map_cons, List.mapM_cons, h x List.mem_cons_self, ih]
      rfl

theorem parseDiff_diffJson (line : Nat) (d : Felt × Felt) :
    parseDiff P line (diffJson d) = .ok d := by
  simp only [parseDiff, diffJson, asArray, feltOf_feltJson]
  rfl

theorem parseFelts_map (line : Nat) (felts : List Felt) :
    parseFelts P line (.arr (felts.map feltJson)) = .ok felts := by
  show (felts.map feltJson).mapM (feltOf P) = .ok felts
  exact mapM_map_ok felts fun f _ => feltOf_feltJson P f

theorem parseEvent_eventJson (line : Nat) {e : EventLine} (h : e.Bounded) :
    parseEvent P line (eventJson e) = .ok e := by
  simp only [parseEvent, eventJson, asArray, asU64, if_pos h.1, if_pos h.2, feltOf_feltJson,
    parseFelts_map, orMalformed_some]
  rfl

theorem getU64_of (line : Nat) {v : Json} {k : String} {n : Nat} (hget : v.get k = some (.num n))
    (hn : n < 2 ^ 64) : getU64 v k line = .ok n := by
  simp only [getU64, hget, Option.bind_some, asU64, if_pos hn, orMalformed_some]

theorem getStr_of (line : Nat) {v : Json} {k s : String} (hget : v.get k = some (.str s)) :
    getStr v k line = .ok s := by
  simp only [getStr, hget, Option.bind_some, asStr, orMalformed_some]

theorem getFelt_of (line : Nat) {v : Json} {k : String} {f : Felt}
    (hget : v.get k = some (feltJson f)) : getFelt P v k line = .ok f := by
  rw [getFelt, getStr_of line hget]
  exact feltFromHex_feltHex P f

theorem getArray_of (line : Nat) {v : Json} {k : String} {items : List Json}
    (hget : v.get k = some (.arr items)) : getArray v k line = .ok items := by
  simp only [getArray, hget, Option.bind_some, asArray, orMalformed_some]

theorem blkJson_get (b : BlockLine) {k : String} (hrc : k ≠ "rc") (hfin : k ≠ "fin") :
    (blkJson b).get k = (Json.obj (blkFields b)).get k := by
  cases hr : b.replacedClass <;> cases hf : b.finality <;>
    simp [blkJson, Json.get, hr, hf, List.lookup_cons, beq_eq_false_iff_ne.mpr hrc,
      beq_eq_false_iff_ne.mpr hfin]

theorem blkJson_get_rc (b : BlockLine) : (blkJson b).get "rc" = b.replacedClass.map feltJson := by
  cases hr : b.replacedClass <;> cases hf : b.finality <;>
    simp [blkJson, blkFields, Json.get, hr, hf, List.lookup]

theorem parseFinality_blkJson (b : BlockLine) (line : Nat) :
    parseFinality (blkJson b) line = .ok b.finality := by
  cases hr : b.replacedClass <;> rcases hf : b.finality with _ | (_ | _) <;>
    simp [parseFinality, blkJson, blkFields, Json.get, hr, hf, List.lookup, asStr, finalityText]

theorem parseBlk_blkJson (line : Nat) {b : BlockLine} (h : b.Bounded) :
    parseBlk P (blkJson b) line = .ok b := by
  have hget : ∀ {k : String} {v : Json}, k ≠ "rc" → k ≠ "fin" →
      (Json.obj (blkFields b)).get k = some v → (blkJson b).get k = some v :=
    fun hrc hfin hv => (blkJson_get b hrc hfin).trans hv
  have hd := getArray_of line (hget (k := "d") (by decide) (by decide) rfl)
  have he := getArray_of line (hget (k := "e") (by decide) (by decide) rfl)
  have hdiffs := mapM_map_ok (f := parseDiff P line) (g := diffJson) b.diffs
    fun d _ => parseDiff_diffJson P line d
  have hevents := mapM_map_ok (f := parseEvent P line) (g := eventJson) b.events
    fun e he => parseEvent_eventJson P line (h.events e he)
  have hrc : parseReplacedClass P (blkJson b) = .ok b.replacedClass := by
    rw [parseReplacedClass, blkJson_get_rc]
    cases b.replacedClass with
    | none => rfl
    | some rc => simp only [Option.map_some, feltOf_feltJson, Except.map]
  have hfin := parseFinality_blkJson b line
  have hnum := getU64_of line (hget (k := "b") (by decide) (by decide) rfl) h.number
  have hhash := getFelt_of P line (hget (k := "h") (by decide) (by decide) rfl)
  have hparent := getFelt_of P line (hget (k := "p") (by decide) (by decide) rfl)
  have hts := getU64_of line (hget (k := "ts") (by decide) (by decide) rfl) h.timestamp
  simp only [parseBlk, hd, he, hdiffs, hevents, hrc, hfin, hnum, hhash, hparent, hts, bind,
    Except.bind, pure, Except.pure]

theorem parseFooter_endJson (line : Nat) {f : Footer} (hb : f.blocks < 2 ^ 64)
    (hd : f.diffs < 2 ^ 64) (he : f.events < 2 ^ 64) : parseFooter P (endJson f) line = .ok f := by
  have h₁ := getU64_of line (v := endJson f) (k := "blocks") rfl hb
  have h₂ := getU64_of line (v := endJson f) (k := "diffs") rfl hd
  have h₃ := getU64_of line (v := endJson f) (k := "events") rfl he
  have h₄ := getFelt_of P line (v := endJson f) (k := "class") rfl
  simp only [parseFooter, h₁, h₂, h₃, h₄, bind, Except.bind, pure, Except.pure]

/-! ## Lines -/

theorem fromStr_compact {v : Json} (h : v.Readable) : fromStr J v.compact = .ok v := by
  rw [fromStr, J.fromStr_compact v h]

/-- A header line is accepted as the first line of its kind. -/
theorem parseLine_header {kind : String} {v : Json} (s : Collected) (h : v.Readable)
    (ht : v.get "t" = some (.str "hdr")) (hk : v.get "kind" = some (.str kind))
    (hv : v.get "v" = some (.num FORMAT_VERSION)) :
    parseLine P J kind s 1 v.compact = .ok { s with header := some v } := by
  have h₁ := getStr_of 1 ht
  have h₂ := getStr_of 1 hk
  have h₃ := getU64_of 1 hv (by decide)
  simp [parseLine, fromStr_compact J h, h₁, h₂, h₃, bind, Except.bind, pure, Except.pure]

theorem parseLine_blk (kind : String) {b : BlockLine} {s : Collected} (lineNo : Nat)
    (h : b.Bounded) (hs : s.footer = none) :
    parseLine P J kind s lineNo (encodeBlkLine b) =
      .ok { s with blocks := s.blocks ++ [b] } := by
  have ht := getStr_of lineNo ((blkJson_get b (k := "t") (by decide) (by decide)).trans rfl)
  rw [← compact_blkJson]
  simp [parseLine, fromStr_compact J (readable_blkJson h), ht, hs, parseBlk_blkJson P lineNo h, bind,
    Except.bind, pure, Except.pure]

theorem parseLine_end (kind : String) {f : Footer} {s : Collected} (lineNo : Nat)
    (hb : f.blocks < 2 ^ 64) (hd : f.diffs < 2 ^ 64) (he : f.events < 2 ^ 64)
    (hs : s.footer = none) :
    parseLine P J kind s lineNo (encodeEndLine f) = .ok { s with footer := some f } := by
  have ht := getStr_of lineNo (v := endJson f) (k := "t") rfl
  rw [← compact_endJson]
  simp [parseLine, fromStr_compact J (readable_endJson hb hd he), ht, hs,
    parseFooter_endJson P lineNo hb hd he, bind, Except.bind, pure, Except.pure]

theorem parseLoop_append (kind : String) : ∀ (a : List String) {b : List String} {s t : Collected}
    (lineNo : Nat), parseLoop P J kind s lineNo a = .ok t →
      parseLoop P J kind s lineNo (a ++ b) = parseLoop P J kind t (lineNo + a.length) b
  | [], b, s, t, lineNo, h => by
      rw [parseLoop, Except.ok.injEq] at h
      rw [h]
      rfl
  | raw :: a, b, s, t, lineNo, h => by
      rw [parseLoop, bind_eq_ok] at h
      obtain ⟨s', hs', hrest⟩ := h
      have ih := parseLoop_append kind a (b := b) (lineNo + 1) hrest
      rw [List.cons_append, parseLoop, hs', List.length_cons]
      rw [show lineNo + 1 + a.length = lineNo + (a.length + 1) by omega] at ih
      exact ih

theorem parseLoop_blocks (kind : String) : ∀ (blocks : List BlockLine) {s : Collected}
    (lineNo : Nat), (∀ b ∈ blocks, b.Bounded) → s.footer = none →
      parseLoop P J kind s lineNo (blocks.map encodeBlkLine) =
        .ok { s with blocks := s.blocks ++ blocks }
  | [], s, lineNo, _, _ => by simp [parseLoop]
  | b :: blocks, s, lineNo, h, hs => by
      have ih := parseLoop_blocks kind blocks (s := { s with blocks := s.blocks ++ [b] })
        (lineNo + 1) (fun c hc => h c (List.mem_cons_of_mem _ hc)) hs
      rw [List.map_cons, parseLoop, parseLine_blk P J kind lineNo (h b List.mem_cons_self) hs]
      simpa [bind, Except.bind] using ih

end

/-! ## Structural checks -/

theorem windows_all_iff {α : Type} (p : α × α → Bool) : ∀ xs : List α,
    (windows xs).all p = true ↔ xs.IsChain fun a b => p (a, b) = true
  | [] => by simp [windows]
  | [x] => by simp [windows]
  | x :: y :: xs => by
      have ih := windows_all_iff p (y :: xs)
      simp only [windows, List.tail_cons, List.zip_cons_cons, List.all_cons, Bool.and_eq_true,
        List.isChain_cons_cons] at ih ⊢
      rw [ih]

/-- Numerically adjacent blocks are linked by the parent hash. -/
def Linked (a b : BlockLine) : Prop :=
  a.number < b.number ∧ (b.number = a.number + 1 → b.parent = a.hash)

theorem checkLinks_ok_iff : ∀ blocks : List BlockLine,
    checkLinks blocks = .ok () ↔ blocks.IsChain Linked
  | [] => by simp [checkLinks]
  | [b] => by simp [checkLinks]
  | a :: b :: rest => by
      rw [checkLinks, ite_error_eq_ok, ite_error_eq_ok, checkLinks_ok_iff (b :: rest),
        List.isChain_cons_cons, Linked, ← and_assoc]
      refine and_congr_left fun _ => ?_
      constructor
      · rintro ⟨h₁, h₂⟩
        refine ⟨by omega, fun hn => ?_⟩
        by_contra hp
        exact h₂ ⟨hn, hp⟩
      · rintro ⟨h₁, h₂⟩
        exact ⟨by omega, fun h => h.2 (h₂ h.1)⟩

/-- Diffs ascend by slot bytes, events by event index. -/
structure BlockLine.Sorted (b : BlockLine) : Prop where
  diffs : b.diffs.IsChain fun x y => x.1.val < y.1.val
  events : b.events.IsChain fun x y => x.eventIndex < y.eventIndex

theorem any_ge_iff {α : Type} (f : α → Nat) (xs : List α) :
    (windows xs).any (fun w => f w.1 ≥ f w.2) = false ↔ xs.IsChain fun x y => f x < f y := by
  have h := windows_all_iff (fun w : α × α => decide (f w.1 < f w.2)) xs
  simp only [decide_eq_true_eq] at h
  rw [← h, List.any_eq_false, List.all_eq_true]
  simp

theorem checkSorted_ok_iff : ∀ blocks : List BlockLine,
    checkSorted blocks = .ok () ↔ ∀ b ∈ blocks, BlockLine.Sorted b
  | [] => by simp [checkSorted]
  | b :: rest => by
      have hd := any_ge_iff (fun d : Felt × Felt => (toBytesBe d.1).val) b.diffs
      have he := any_ge_iff (fun e : EventLine => e.eventIndex) b.events
      rw [checkSorted, ite_error_eq_ok, ite_error_eq_ok, checkSorted_ok_iff rest,
        List.forall_mem_cons, ← and_assoc]
      refine and_congr_left fun _ => ?_
      rw [Bool.not_eq_true, Bool.not_eq_true, hd, he]
      exact ⟨fun h => ⟨h.1, h.2⟩, fun h => ⟨h.diffs, h.events⟩⟩

/-- A block list a payload can carry. -/
structure BlocksWf (blocks : List BlockLine) : Prop where
  bounded : ∀ b ∈ blocks, b.Bounded
  linked : blocks.IsChain Linked
  sorted : ∀ b ∈ blocks, BlockLine.Sorted b

/-- The footer counts what the payload carries. -/
structure Footer.Counts (f : Footer) (bs : List BlockLine) : Prop where
  blocks : f.blocks = countBlocks bs
  diffs : f.diffs = countDiffs bs
  events : f.events = countEvents bs

theorem assertInvariants_of_wf {blocks : List BlockLine} (h : BlocksWf blocks) :
    assertInvariants blocks = true := by
  rw [assertInvariants, Bool.and_eq_true, windows_all_iff, List.all_eq_true]
  refine ⟨h.linked.imp fun _ _ hab => by simpa using hab.1, fun b hb => ?_⟩
  rw [Bool.and_eq_true, windows_all_iff, windows_all_iff]
  exact ⟨(h.sorted b hb).diffs.imp fun _ _ hxy => by simpa using hxy,
    (h.sorted b hb).events.imp fun _ _ hxy => by simpa using hxy⟩

section

variable (P : FeltParser) (J : JsonParser)

/-- The counts of a footer fit `u64`. -/
structure Footer.Bounded (f : Footer) : Prop where
  blocks : f.blocks < 2 ^ 64
  diffs : f.diffs < 2 ^ 64
  events : f.events < 2 ^ 64

theorem Footer.Counts.bounded {f : Footer} {blocks : List BlockLine}
    (h : Footer.Counts f blocks) : Footer.Bounded f := by
  have hpos : 0 < 2 ^ 64 := by decide
  refine ⟨?_, ?_, ?_⟩
  · rw [h.blocks]
    exact Nat.mod_lt _ hpos
  · rw [h.diffs]
    exact Nat.mod_lt _ hpos
  · rw [h.events]
    exact Nat.mod_lt _ hpos

/-- Header, block and end lines are lines: none of them has a newline inside. -/
theorem plainLine_encoded {v : Json} {blocks : List BlockLine} {f : Footer} (hv : v.Readable)
    (hbounded : ∀ b ∈ blocks, b.Bounded) (hf : Footer.Bounded f) :
    ∀ l ∈ v.compact :: (blocks.map encodeBlkLine ++ [encodeEndLine f]), PlainLine l := by
  intro l hl
  rcases List.mem_cons.mp hl with rfl | hl
  · exact plainLine_compact hv.plain
  rcases List.mem_append.mp hl with hl | hl
  · obtain ⟨b, hb, rfl⟩ := List.mem_map.mp hl
    rw [← compact_blkJson]
    exact plainLine_compact (plain_blkJson (hbounded b hb))
  · rw [List.mem_singleton.mp hl, ← compact_endJson]
    exact plainLine_compact (plain_endJson hf.blocks hf.diffs hf.events)

/-- The loop reads header, block and end lines back. -/
theorem parseLoop_encoded {kind : String} {v : Json} {blocks : List BlockLine} {f : Footer}
    (hv : v.Readable) (ht : v.get "t" = some (.str "hdr")) (hk : v.get "kind" = some (.str kind))
    (hver : v.get "v" = some (.num FORMAT_VERSION)) (hbounded : ∀ b ∈ blocks, b.Bounded)
    (hf : Footer.Bounded f) :
    parseLoop P J kind ⟨none, [], none⟩ 1
      (v.compact :: (blocks.map encodeBlkLine ++ [encodeEndLine f])) =
        .ok ⟨some v, blocks, some f⟩ := by
  have hblocks := parseLoop_blocks P J kind blocks (s := ⟨some v, [], none⟩) 2 hbounded rfl
  rw [parseLoop, parseLine_header P J ⟨none, [], none⟩ hv ht hk hver]
  show parseLoop P J kind ⟨some v, [], none⟩ 2 (blocks.map encodeBlkLine ++ [encodeEndLine f]) = _
  rw [parseLoop_append P J kind _ 2 hblocks, parseLoop,
    parseLine_end P J kind _ hf.blocks hf.diffs hf.events rfl]
  simp [parseLoop, bind, Except.bind]

/-- Of a payload of header, block and end lines only the checks after the loop are open. -/
theorem parseLines_looped {kind : String} {v : Json} {blocks : List BlockLine} {f : Footer}
    (hv : v.Readable) (ht : v.get "t" = some (.str "hdr")) (hk : v.get "kind" = some (.str kind))
    (hver : v.get "v" = some (.num FORMAT_VERSION)) (hbounded : ∀ b ∈ blocks, b.Bounded)
    (hf : Footer.Bounded f) {parsed : Parsed}
    (h : parseLines P J (intoBytes (unlines
      (v.compact :: (blocks.map encodeBlkLine ++ [encodeEndLine f])))) kind = .ok parsed) :
    parsed = ⟨v, blocks, f⟩ := by
  rw [parseLines] at h
  obtain ⟨text, htext, h⟩ := bind_eq_ok.mp h
  rw [fromUtf8_intoBytes, orMalformed_eq_ok, Option.some.injEq] at htext
  subst htext
  obtain ⟨-, h⟩ := ite_throw_eq_ok.mp h
  rw [lines_unlines (plainLine_encoded hv hbounded hf),
    parseLoop_encoded P J hv ht hk hver hbounded hf] at h
  obtain ⟨s, hs, h⟩ := bind_eq_ok.mp h
  cases hs
  obtain ⟨header, hheader, h⟩ := bind_eq_ok.mp h
  obtain ⟨footer, hfooter, h⟩ := bind_eq_ok.mp h
  obtain ⟨-, h⟩ := ite_throw_eq_ok.mp h
  obtain ⟨-, h⟩ := ite_throw_eq_ok.mp h
  obtain ⟨_, -, h⟩ := bind_eq_ok.mp h
  obtain ⟨_, -, h⟩ := bind_eq_ok.mp h
  obtain rfl := pure_eq_ok.mp h
  cases orMalformed_eq_ok.mp hheader
  cases orMalformed_eq_ok.mp hfooter
  rfl

/-- Of a payload of header, block and end lines that counts right only the block checks are
open. -/
theorem parseLines_encoded {kind : String} {v : Json} {blocks : List BlockLine} {f : Footer}
    (hv : v.Readable) (ht : v.get "t" = some (.str "hdr")) (hk : v.get "kind" = some (.str kind))
    (hver : v.get "v" = some (.num FORMAT_VERSION)) (hbounded : ∀ b ∈ blocks, b.Bounded)
    (hf : Footer.Counts f blocks) :
    parseLines P J (intoBytes (unlines
      (v.compact :: (blocks.map encodeBlkLine ++ [encodeEndLine f])))) kind = (do
        checkLinks blocks
        checkSorted blocks
        pure ⟨v, blocks, f⟩) := by
  have hplain := plainLine_encoded hv hbounded hf.bounded
  have hloop := parseLoop_encoded P J hv ht hk hver hbounded hf.bounded
  have hnl : endsWithNewline (unlines
      (v.compact :: (blocks.map encodeBlkLine ++ [encodeEndLine f]))) = true :=
    endsWithNewline_unlines (by simp)
  simp only [parseLines, fromUtf8_intoBytes, orMalformed_some, hnl, lines_unlines hplain, hloop,
    hf.blocks, hf.diffs, hf.events, bind, Except.bind, pure, Except.pure]
  simp

/-- A payload of header, block and end lines parses into what it was made of. -/
theorem parseLines_payload {kind : String} {v : Json} {blocks : List BlockLine} {f : Footer}
    (hv : v.Readable) (ht : v.get "t" = some (.str "hdr")) (hk : v.get "kind" = some (.str kind))
    (hver : v.get "v" = some (.num FORMAT_VERSION)) (hwf : BlocksWf blocks)
    (hf : Footer.Counts f blocks) :
    parseLines P J (intoBytes (unlines
      (v.compact :: (blocks.map encodeBlkLine ++ [encodeEndLine f])))) kind =
        .ok ⟨v, blocks, f⟩ := by
  have hlinks := (checkLinks_ok_iff blocks).mpr hwf.linked
  have hsorted := (checkSorted_ok_iff blocks).mpr hwf.sorted
  rw [parseLines_encoded P J hv ht hk hver hwf.bounded hf, hlinks, hsorted]
  rfl

end

/-! ## Round trips -/

theorem checkEpochBlocks_ok_iff (first last : Nat) : ∀ blocks : List BlockLine,
    checkEpochBlocks first last blocks = .ok () ↔
      ∀ b ∈ blocks, (first ≤ b.number ∧ b.number ≤ last) ∧ b.finality = none
  | [] => by simp [checkEpochBlocks]
  | b :: rest => by
      rw [checkEpochBlocks, ite_error_eq_ok, ite_error_eq_ok,
        checkEpochBlocks_ok_iff first last rest, List.forall_mem_cons, ← and_assoc]
      refine and_congr_left fun _ => ?_
      rw [not_or, Nat.not_lt, Nat.not_lt, Bool.not_eq_true, Option.isSome_eq_false_iff,
        Option.isNone_iff_eq_none]

theorem checkHeadBlocks_ok_iff (tailFrom : Nat) : ∀ blocks : List BlockLine,
    checkHeadBlocks tailFrom blocks = .ok () ↔
      ∀ b ∈ blocks, b.finality.isSome ∧ tailFrom ≤ b.number
  | [] => by simp [checkHeadBlocks]
  | b :: rest => by
      rw [checkHeadBlocks, ite_error_eq_ok, ite_error_eq_ok,
        checkHeadBlocks_ok_iff tailFrom rest, List.forall_mem_cons, ← and_assoc]
      refine and_congr_left fun _ => ?_
      rw [Nat.not_lt, Bool.not_eq_true, Option.isNone_eq_false_iff]

/-- An epoch its encoder writes and `parse_epoch` accepts. -/
structure EpochWf (e : Epoch) : Prop where
  header : EpochHeader.Bounded e.header
  blocks : BlocksWf e.blocks
  inside : ∀ b ∈ e.blocks, (e.header.first ≤ b.number ∧ b.number ≤ e.header.last) ∧
    b.finality = none
  footer : Footer.Counts e.footer e.blocks

/-- A head its encoder writes and `parse_head` accepts. -/
structure HeadWf (h : Head) : Prop where
  header : HeadHeader.Bounded h.header
  blocks : BlocksWf h.blocks
  tail : ∀ b ∈ h.blocks, b.finality.isSome ∧ h.header.tailFrom ≤ b.number
  footer : Footer.Counts h.footer h.blocks

/-- The bytes of an epoch that passes the encoder's assertion. -/
def epochBytes (e : Epoch) : ByteArray :=
  intoBytes (unlines
    (encodeEpochHeader e.header :: (e.blocks.map encodeBlkLine ++ [encodeEndLine e.footer])))

def headBytes (h : Head) : ByteArray :=
  intoBytes (unlines
    (encodeHeadHeader h.header :: (h.blocks.map encodeBlkLine ++ [encodeEndLine h.footer])))

theorem encodeEpoch_eq_some {e : Epoch} (h : BlocksWf e.blocks) :
    encodeEpoch e = some (epochBytes e) := by
  rw [encodeEpoch, if_pos (assertInvariants_of_wf h), epochBytes]

theorem encodeHead_eq_some {h : Head} (hwf : BlocksWf h.blocks) :
    encodeHead h = some (headBytes h) := by
  rw [encodeHead, if_pos (assertInvariants_of_wf hwf), headBytes]

section

variable (P : FeltParser) (J : JsonParser)

theorem parsePrev_epochHeaderJson (h : EpochHeader) :
    parsePrev (epochHeaderJson h) = .ok h.prev := by
  cases hp : h.prev with
  | none => simp [parsePrev, epochHeaderJson, Json.get, hp]
  | some p =>
      simp [parsePrev, epochHeaderJson, Json.get, hp, hexDecode_hexEncode]

/-- Of the bytes of an epoch only the block checks are open. -/
theorem parseEpoch_encoded {e : Epoch} (hheader : EpochHeader.Bounded e.header)
    (hbounded : ∀ b ∈ e.blocks, b.Bounded) (hcounts : Footer.Counts e.footer e.blocks) :
    parseEpoch P J (epochBytes e) = (do
      checkLinks e.blocks
      checkSorted e.blocks
      checkEpochBlocks e.header.first e.header.last e.blocks
      pure e) := by
  have hlines : parseLines P J (epochBytes e) KIND_EPOCH = (do
      checkLinks e.blocks
      checkSorted e.blocks
      pure ⟨epochHeaderJson e.header, e.blocks, e.footer⟩) := by
    rw [epochBytes, ← compact_epochHeaderJson]
    exact parseLines_encoded P J (readable_epochHeaderJson hheader) rfl rfl rfl hbounded hcounts
  have hprev := parsePrev_epochHeaderJson e.header
  have hchain := getStr_of 1 (v := epochHeaderJson e.header) (k := "chain_id") rfl
  have hpool := getFelt_of P 1 (v := epochHeaderJson e.header) (k := "pool") rfl
  have hepoch := getU64_of 1 (v := epochHeaderJson e.header) (k := "epoch") rfl hheader.epoch
  have hfirst := getU64_of 1 (v := epochHeaderJson e.header) (k := "from") rfl hheader.first
  have hlast := getU64_of 1 (v := epochHeaderJson e.header) (k := "to") rfl hheader.last
  rw [parseEpoch, hlines]
  cases checkLinks e.blocks with
  | error err => rfl
  | ok _ =>
      cases checkSorted e.blocks with
      | error err => rfl
      | ok _ =>
          simp only [hprev, hchain, hpool, hepoch, hfirst, hlast, bind, Except.bind, pure,
            Except.pure]

theorem parseEpoch_epochBytes {e : Epoch} (h : EpochWf e) :
    parseEpoch P J (epochBytes e) = .ok e := by
  have hlinks := (checkLinks_ok_iff e.blocks).mpr h.blocks.linked
  have hsorted := (checkSorted_ok_iff e.blocks).mpr h.blocks.sorted
  have hinside := (checkEpochBlocks_ok_iff e.header.first e.header.last e.blocks).mpr h.inside
  rw [parseEpoch_encoded P J h.header h.blocks.bounded h.footer, hlinks, hsorted, hinside]
  rfl

theorem parseHead_headBytes {h : Head} (hwf : HeadWf h) :
    parseHead P J (headBytes h) = .ok h := by
  have hlines : parseLines P J (headBytes h) KIND_HEAD =
      .ok ⟨headHeaderJson h.header, h.blocks, h.footer⟩ := by
    rw [headBytes, ← compact_headHeaderJson]
    exact parseLines_payload P J (readable_headHeaderJson hwf.header) rfl rfl rfl hwf.blocks
      hwf.footer
  have htail := getU64_of 1 (v := headHeaderJson h.header) (k := "tail_from") rfl
    hwf.header.tailFrom
  have hhead := getU64_of 1 (v := headHeaderJson h.header) (k := "head") rfl hwf.header.head
  have hhash := getFelt_of P 1 (v := headHeaderJson h.header) (k := "head_hash") rfl
  have hl1 := getU64_of 1 (v := headHeaderJson h.header) (k := "l1_accepted") rfl
    hwf.header.l1Accepted
  have hblocks := (checkHeadBlocks_ok_iff h.header.tailFrom h.blocks).mpr hwf.tail
  simp only [parseHead, hlines, htail, hhead, hhash, hl1, hblocks, bind, Except.bind, pure,
    Except.pure]

end

end Strk20.Feed.Codec
