import Strk20.Live.Stream

/-!
# The head assembler (`live-head.ts`)

The page keeps the last head document and puts a change onto it. It cuts the old
artifact by UTF-16 offsets where the server cut it by bytes. Over every sequence of
states a connection picks up, the page holds the document the server last sent.

- `InStep`: what the page holds against what the connection sent.
- `live_heads_exact`: no gap, and after each event the artifact announced.
-/

namespace Strk20

namespace Json

/-- A value tested as a condition; `none` is `undefined`. -/
def truthy : Option Json → Bool
  | none => false
  | some .null => false
  | some (.bool b) => b
  | some (.num n) => n ≠ 0
  | some (.str s) => s ≠ ""
  | some _ => true

/-- The double nearest to an integer, ties to even. -/
def toDouble (n : Nat) : Nat :=
  let e := n.log2 - 52
  let q := n / 2 ^ e
  let r := n % 2 ^ e
  if 2 * r < 2 ^ e ∨ 2 * r = 2 ^ e ∧ q % 2 = 0 then q * 2 ^ e else (q + 1) * 2 ^ e

/-- `===`, where two objects are never the same one. -/
def strictEq : Option Json → Option Json → Bool
  | none, none => true
  | some .null, some .null => true
  | some (.bool a), some (.bool b) => a == b
  | some (.num a), some (.num b) => toDouble a == toDouble b
  | some (.str a), some (.str b) => a == b
  | _, _ => false

/-- `delete value[key]`. -/
def eraseField (v : Json) (key : String) : Json :=
  match v with
  | .obj fields => .obj (fields.filter fun f => f.1 ≠ key)
  | v => v

end Json

namespace Live

open Feed Feed.Codec Text Offsets

inductive LiveError where
  | gap
  | typeError
  | syntaxError
deriving DecidableEq

def utf16Size (c : Char) : Nat := if c.toNat < 0x10000 then 1 else 2

/-- The payload a change gives: `receive` up to the size check. -/
def changedPayload (current : Option Json) (update delta : Json) : Except LiveError (Option Json) :=
  let old := current.bind (·.get "payload")
  if !Json.truthy old ||
      !Json.strictEq (current.bind (·.get "etag")) (delta.get "base_etag") ||
      !Json.strictEq (current.bind (·.get "tail_from")) (update.get "tail_from") then .error .gap
  else
    match (delta.get "header").bind (·.asStr), (delta.get "append").bind (·.asStr),
      (delta.get "end").bind (·.asStr), old with
    | some header, some append, some last, some (.str old) =>
        if !endsWithNewline header || !endsWithNewline last ||
            (append ≠ "" && !endsWithNewline append) then .error .gap
        else
          -- an absent newline is offset -1, and 0 after the increment
          let first := ((indexOf utf16Size '\n' old.toList).map (· + 1)).getD 0
          let final := ((lastIndexUpTo utf16Size '\n' (width utf16Size old.toList - 2)
            old.toList).map (· + 1)).getD 0
          if first = 0 ∨ final < first ∨ endsWithNewline old = false then .error .gap
          else .ok (some (.str (header ++ String.ofList (slice utf16Size first final old.toList) ++
            append ++ last)))
    | some _, some _, some _, _ => .error .typeError
    | _, _, _, _ => .error .gap

/-- `payload == null` or a string within the limits. -/
def inlineSized : Option Json → Bool
  | none => true
  | some .null => true
  | some (.str s) => width utf16Size s.toList ≤ MAX_INLINE ∧ s.utf8ByteSize ≤ MAX_INLINE
  | some _ => false

/-- `LiveHeadAssembler.receive`: the assembled head and what is kept of it. -/
def receive (current : Option Json) (update : Json) : Except LiveError (Json × Option Json) := do
  let payload ←
    match update.get "delta" with
    | some delta =>
        if Json.truthy (some delta) then changedPayload current update delta
        else pure (update.get "payload")
    | none => pure (update.get "payload")
  if !inlineSized payload then throw .gap
  else
    let withPayload := match payload with
      | some p => update.setField "payload" p
      | none => update.eraseField "payload"
    let assembled := withPayload.eraseField "delta"
    pure (assembled, if Json.truthy payload then some assembled else none)

/-- The head events of one connection, each read and assembled in turn. -/
def receiveAll (B : JsonReader) : Option Json → List String → Except LiveError (List Json)
  | _, [] => .ok []
  | current, data :: later =>
      match B.fromStr data with
      | none => .error .syntaxError
      | some update => do
          let (assembled, current) ← receive current update
          let rest ← receiveAll B current later
          pure (assembled :: rest)

/-! ## What the page holds -/

theorem utf16Size_le (c : Char) : utf16Size c ≤ c.utf8Size := by
  have hpos := c.utf8Size_pos
  unfold utf16Size
  split
  · exact hpos
  · rename_i hlarge
    have hval : 0x10000 ≤ c.val.toNat := Nat.not_lt.mp hlarge
    unfold Char.utf8Size
    dsimp only
    split
    · -- one byte holds no such character
      rename_i hbyte
      have hle := UInt32.le_iff_toNat_le.mp hbyte
      rw [UInt32.toNat_ofNatLT] at hle
      omega
    · split
      · exact Nat.le_refl _
      · split
        · exact Nat.le_succ _
        · exact Nat.le_succ_of_le (Nat.le_succ _)

theorem unit_utf16 : Offsets.Unit utf16Size '\n' := by
  refine ⟨fun c => ?_, rfl⟩
  unfold utf16Size
  split <;> omega

theorem width_utf8 (cs : List Char) : width Char.utf8Size cs = (String.ofList cs).utf8ByteSize := by
  induction cs with
  | nil => rfl
  | cons c cs ih =>
      have hsplit : String.ofList (c :: cs) = String.singleton c ++ String.ofList cs := by
        apply String.toList_inj.mp
        simp
      rw [width, ih, hsplit, String.utf8ByteSize_append, String.utf8ByteSize_singleton]

theorem inlineSized_str {s : String} (h : s.utf8ByteSize ≤ MAX_INLINE) :
    inlineSized (some (.str s)) = true := by
  have hunits : width utf16Size s.toList ≤ s.utf8ByteSize := by
    have hle := width_le utf16Size_le s.toList
    rwa [width_utf8, String.ofList_toList] at hle
  simp [inlineSized, h, hunits.trans h]

section

variable {P : FeltParser} {J : JsonParser} {R B : JsonReader}

/-- An artifact that parsed is text and ends with a newline. -/
theorem Document.payload {t : String} {bytes : ByteArray} {head : Head}
    (d : Document P J t bytes head) (hsize : bytes.size ≤ MAX_INLINE) :
    ∃ s, inlinePayload bytes = some s ∧ intoBytes s = bytes ∧ endsWithNewline s = true ∧
      s.utf8ByteSize ≤ MAX_INLINE := by
  have hparse := d.parsed
  rw [parseHead] at hparse
  obtain ⟨parsed, hlines, -⟩ := Result.bind_eq_ok.mp hparse
  rw [parseLines] at hlines
  obtain ⟨s, hs, hrest⟩ := Result.bind_eq_ok.mp hlines
  rw [orMalformed_eq_ok] at hs
  have hbytes : intoBytes s = bytes := by
    unfold fromUtf8 String.fromUTF8? at hs
    split at hs
    · rw [← Option.some.inj hs]
      rfl
    · cases hs
  refine ⟨s, ?_, hbytes, ?_, ?_⟩
  · rw [inlinePayload, if_pos hsize, hs]
  · by_contra hno
    rw [Bool.not_eq_true] at hno
    rw [hno] at hrest
    cases hrest
  · rw [← hbytes] at hsize
    exact hsize

theorem inlinePayload_large {bytes : ByteArray} (h : ¬ bytes.size ≤ MAX_INLINE) :
    inlinePayload bytes = none := if_neg h

/-- The whole document is taken as it is. -/
theorem receive_full {t : String} {bytes : ByteArray} {head : Head} (d : Document P J t bytes head)
    (current : Option Json) :
    receive current (headJson bytes head.header) =
      .ok (headJson bytes head.header,
        if bytes.size ≤ MAX_INLINE then some (headJson bytes head.header) else none) := by
  have hdelta : (headJson bytes head.header).get "delta" = none := rfl
  have hpayload : (headJson bytes head.header).get "payload" =
      some (((inlinePayload bytes).map Json.str).getD .null) := rfl
  have hsame : ((headJson bytes head.header).setField "payload"
      (((inlinePayload bytes).map Json.str).getD .null)).eraseField "delta" =
        headJson bytes head.header := rfl
  unfold receive
  rw [hdelta, hpayload]
  by_cases hsize : bytes.size ≤ MAX_INLINE
  · obtain ⟨s, hs, -, hline, hbytes⟩ := d.payload hsize
    have hne : s ≠ "" := by
      rintro rfl
      exact absurd hline (by decide)
    rw [hs] at hsame ⊢
    rw [if_pos hsize]
    have hfit := inlineSized_str hbytes
    have htrue : Json.truthy (some (.str s)) = true := by simp [Json.truthy, hne]
    simp only [Option.map_some, Option.getD_some] at hsame ⊢
    simp only [pure_bind, hfit, Bool.not_true, Bool.false_eq_true, if_false, htrue, if_true, hsame]
    rfl
  · rw [inlinePayload_large hsize] at hsame ⊢
    rw [if_neg hsize]
    simp only [Option.map_none, Option.getD_none] at hsame ⊢
    simp only [pure_bind, inlineSized, Bool.not_true, Bool.false_eq_true, if_false, Json.truthy, hsame]
    rfl

theorem endsWithNewline_concat (cs : List Char) :
    endsWithNewline (String.ofList (cs ++ ['\n'])) = true := by
  simp [endsWithNewline]

theorem strictEq_str (s : String) : Json.strictEq (some (.str s)) (some (.str s)) = true :=
  beq_self_eq_true s

theorem strictEq_num (n : Nat) : Json.strictEq (some (.num n)) (some (.num n)) = true :=
  beq_self_eq_true (Json.toDouble n)

/-- The checks of `receive` on a change, all passed. -/
theorem changedPayload_eq {current : Option Json} {update delta : Json}
    {old header append last : String} {first final : Nat}
    (hold : current.bind (·.get "payload") = some (.str old)) (hne : old ≠ "")
    (hetag : Json.strictEq (current.bind (·.get "etag")) (delta.get "base_etag") = true)
    (htail : Json.strictEq (current.bind (·.get "tail_from")) (update.get "tail_from") = true)
    (hheader : delta.get "header" = some (.str header)) (happend : delta.get "append" = some (.str append))
    (hlast : delta.get "end" = some (.str last)) (hlines : endsWithNewline header = true ∧
      endsWithNewline last = true ∧ (append = "" ∨ endsWithNewline append = true))
    (hfirst : ((indexOf utf16Size '\n' old.toList).map (· + 1)).getD 0 = first)
    (hfinal : ((lastIndexUpTo utf16Size '\n' (width utf16Size old.toList - 2)
      old.toList).map (· + 1)).getD 0 = final)
    (hordered : 0 < first ∧ first ≤ final) (hline : endsWithNewline old = true) :
    changedPayload current update delta = .ok (some (.str (header ++
      String.ofList (slice utf16Size first final old.toList) ++ append ++ last))) := by
  have htrue : Json.truthy (some (.str old)) = true := by simp [Json.truthy, hne]
  have hcuts : ¬ (first = 0 ∨ final < first ∨ endsWithNewline old = false) := by
    rw [hline]
    simp
    omega
  have hmiddle : (append ≠ "" && !endsWithNewline append) = false := by
    rcases hlines.2.2 with rfl | hends
    · rfl
    · simp [hends]
  unfold changedPayload
  dsimp only
  rw [hetag, htail, hheader, happend, hlast, hold, htrue]
  simp only [Option.bind_some, Json.asStr, hlines.1, hlines.2.1, hmiddle, hfirst, hfinal, if_neg hcuts]
  rfl

/-- **A change onto the document it was made for gives the new document.** -/
theorem receive_delta {t' : String} {bytes bytes' : ByteArray} {head head' : Head}
    (d' : Document P J t' bytes' head') {p q : String}
    {first₀ last₀ first records append last : List Char}
    (htail : head.header.tailFrom = head'.header.tailFrom) (hp : inlinePayload bytes = some p)
    (hq : inlinePayload bytes' = some q) (hold : Parts p.toList first₀ records last₀)
    (hnew : Parts q.toList first (records ++ append) last) :
    receive (some (headJson bytes head.header))
        (deltaJson bytes' head'.header (etagOf bytes) first append last) =
      .ok (headJson bytes' head'.header, some (headJson bytes' head'.header)) := by
  have hsize' : bytes'.size ≤ MAX_INLINE := by
    by_contra hlarge
    rw [inlinePayload_large hlarge] at hq
    cases hq
  obtain ⟨q', hq', -, hline', hbytes'⟩ := d'.payload hsize'
  obtain rfl := Option.some.inj (hq'.symm.trans hq)
  have hline : endsWithNewline p = true := by
    obtain ⟨z, -, hz⟩ := hold.last
    have heq := hold.eq
    rw [hz, ← List.append_assoc] at heq
    rw [← String.ofList_toList (s := p), heq]
    exact endsWithNewline_concat _
  have hne : p ≠ "" := by
    rintro rfl
    exact absurd hline (by decide)
  have hne' : q' ≠ "" := by
    rintro rfl
    exact absurd hline' (by decide)
  -- the three pieces end where lines end
  have hfirst : endsWithNewline (String.ofList first) = true := by
    obtain ⟨a, -, rfl⟩ := hnew.header
    exact endsWithNewline_concat a
  have hlast : endsWithNewline (String.ofList last) = true := by
    obtain ⟨z, -, rfl⟩ := hnew.last
    exact endsWithNewline_concat z
  have happend : append = [] ∨ ∃ m, append = m ++ ['\n'] := by
    rcases List.eq_nil_or_concat append with rfl | ⟨m, c, rfl⟩
    · exact Or.inl rfl
    · rcases hnew.records with hnil | ⟨m', hm'⟩
      · simp at hnil
      · rw [List.concat_eq_append, ← List.append_assoc] at hm'
        obtain ⟨-, hc⟩ := List.append_inj' hm' rfl
        exact Or.inr ⟨m, by rw [List.concat_eq_append, hc]⟩
  have hmiddle : String.ofList append = "" ∨ endsWithNewline (String.ofList append) = true := by
    rcases happend with rfl | ⟨m, rfl⟩
    · exact Or.inl rfl
    · exact Or.inr (endsWithNewline_concat m)
  -- the page's offsets cut out the records
  have hfrom : ((indexOf utf16Size '\n' p.toList).map (· + 1)).getD 0 = width utf16Size first₀ := by
    rw [hold.indexOf_eq unit_utf16]
    rfl
  have hto : ((lastIndexUpTo utf16Size '\n' (width utf16Size p.toList - 2) p.toList).map
      (· + 1)).getD 0 = width utf16Size (first₀ ++ records) := by
    rw [hold.lastIndexUpTo_eq unit_utf16]
    rfl
  have hslice : slice utf16Size (width utf16Size first₀) (width utf16Size (first₀ ++ records))
      p.toList = records := hold.slice_eq unit_utf16
  have hordered : 0 < width utf16Size first₀ ∧
      width utf16Size first₀ ≤ width utf16Size (first₀ ++ records) := by
    constructor
    · obtain ⟨a, -, rfl⟩ := hold.header
      rw [width_append, width, width, unit_utf16.one]
      omega
    · rw [width_append]
      exact Nat.le_add_right _ _
  have hbuilt : String.ofList first ++ String.ofList records ++ String.ofList append ++
      String.ofList last = q' := by
    apply String.toList_inj.mp
    rw [hnew.eq]
    simp
  have hchanged : changedPayload (some (headJson bytes head.header))
      (deltaJson bytes' head'.header (etagOf bytes) first append last)
      (changeJson (etagOf bytes) first append last) = .ok (some (.str q')) := by
    have hbase : (some (headJson bytes head.header)).bind (·.get "payload") = some (.str p) := by
      show some (((inlinePayload bytes).map Json.str).getD .null) = _
      rw [hp]
      rfl
    have htailFrom : Json.strictEq ((some (headJson bytes head.header)).bind (·.get "tail_from"))
        ((deltaJson bytes' head'.header (etagOf bytes) first append last).get "tail_from") = true := by
      show Json.strictEq (some (.num head.header.tailFrom)) (some (.num head'.header.tailFrom)) = _
      rw [htail]
      exact strictEq_num _
    have hetag : Json.strictEq ((some (headJson bytes head.header)).bind (·.get "etag"))
        ((changeJson (etagOf bytes) first append last).get "base_etag") = true :=
      strictEq_str (etagOf bytes)
    rw [changedPayload_eq hbase hne hetag htailFrom rfl rfl rfl
      ⟨hfirst, hlast, hmiddle⟩ hfrom hto hordered hline, hslice, hbuilt]
  have hfit := inlineSized_str hbytes'
  have htrue : Json.truthy (some (.str q')) = true := by simp [Json.truthy, hne']
  have hdoc : ((deltaJson bytes' head'.header (etagOf bytes) first append last).setField "payload"
      (.str q')).eraseField "delta" = headJson bytes' head'.header := by
    unfold headJson
    rw [hq]
    unfold deltaJson
    rw [hq]
    rfl
  unfold receive
  show (changedPayload _ _ _ >>= _) = _
  rw [hchanged]
  show (if !inlineSized (some (.str q')) then _ else _) = _
  rw [hfit]
  show Except.ok (_, if Json.truthy (some (.str q')) then _ else _) = _
  rw [htrue, hdoc]
  rfl

/-! ## A connection -/

/-- The page holds the document sent last, or nothing where that one was too large. -/
def InStep (P : FeltParser) (J : JsonParser) (sent : Option String) (current : Option Json) : Prop :=
  ∀ t, sent = some t → ∃ bytes head, Document P J t bytes head ∧
    current = if bytes.size ≤ MAX_INLINE then some (headJson bytes head.header) else none

/-- **One head event.** -/
theorem receive_update {sent : Option String} {current : Option Json} {t : String} {bytes : ByteArray}
    {head : Head} (hstep : InStep P J sent current) (d : Document P J t bytes head) :
    ∃ update, B.fromStr (headUpdate R t sent) = some update ∧
      receive current update = .ok (headJson bytes head.header,
        if bytes.size ≤ MAX_INLINE then some (headJson bytes head.header) else none) := by
  have hfull : ∃ update, B.fromStr t = some update ∧
      receive current update = .ok (headJson bytes head.header,
        if bytes.size ≤ MAX_INLINE then some (headJson bytes head.header) else none) :=
    ⟨_, d.read, receive_full d current⟩
  unfold headUpdate
  cases hdelta : headDelta R t sent with
  | none => exact hfull
  | some v =>
      show ∃ update, B.fromStr (if v.text.utf8ByteSize < t.utf8ByteSize then v.text else t) =
        some update ∧ _
      by_cases hshort : v.text.utf8ByteSize < t.utf8ByteSize
      · rw [if_pos hshort]
        cases sent with
        | none => cases hdelta
        | some t₀ =>
            obtain ⟨bytes₀, head₀, d₀, rfl⟩ := hstep t₀ rfl
            obtain ⟨p, q, first₀, last₀, first, records, append, last, htail, hp, hq, hold, hnew, rfl⟩ :=
              headDelta_some d₀ d hdelta
            have hsmall : ∀ {b : ByteArray} {s : String}, inlinePayload b = some s →
                b.size ≤ MAX_INLINE := by
              intro b s hs
              by_contra hlarge
              rw [inlinePayload_large hlarge] at hs
              cases hs
            refine ⟨_, B.fromStr_text _ (sound_deltaJson (parseHead_wf P J d.parsed).header ..)
              (depth_deltaJson ..), ?_⟩
            rw [if_pos (hsmall hp), if_pos (hsmall hq)]
            exact receive_delta d htail hp hq hold hnew
      · rw [if_neg hshort]
        exact hfull

/-- The heads a connection announces, in order. -/
def announcedHeads : Option String → List FeedState → List String
  | _, [] => []
  | sent, current :: later =>
      (match current.head with
        | some t => if some t ≠ sent then [t] else []
        | none => []) ++ announcedHeads current.head later

/-- The data of the head events. -/
def headData (events : List LiveEvent) : List String :=
  (events.filter fun e => e.name = "head").map LiveEvent.data

theorem headData_append (a b : List LiveEvent) : headData (a ++ b) = headData a ++ headData b := by
  unfold headData
  rw [List.filter_append, List.map_append]

theorem headData_announce (name : String) {wire : String → Option String → String}
    {next prev : Option String} (h : name ≠ "head") : headData (announce name wire next prev) = [] := by
  unfold announce headData
  cases next with
  | none => rfl
  | some data =>
      by_cases hnew : some data ≠ prev
      · simp [hnew, h]
      · simp [hnew]

theorem headData_round (sent current : FeedState) :
    headData (streamRound R sent current) =
      match current.head with
      | some t => if some t ≠ sent.head then [headUpdate R t sent.head] else []
      | none => [] := by
  unfold streamRound
  simp only [headData_append]
  rw [headData_announce "epoch" (by decide), headData_announce "proof" (by decide),
    headData_announce "snapshot" (by decide), headData_announce "status" (by decide), List.nil_append, List.append_nil, List.append_nil, List.append_nil]
  unfold announce headData
  cases current.head with
  | none => rfl
  | some t =>
      by_cases hnew : some t ≠ sent.head
      · simp [hnew]
      · simp [hnew]

/-- **A whole connection**: after each head event the page holds the document of the
head announced. -/
theorem receiveAll_stream {F : ByteArray → Prop} {sent : FeedState} {current : Option Json}
    {states : List FeedState} (hstep : InStep P J sent.head current)
    (hstates : ∀ s ∈ states, ∀ t, s.head = some t →
      ∃ bytes head, F bytes ∧ Document P J t bytes head) :
    ∃ heads, receiveAll B current (headData (streamTo R sent states)) = .ok heads ∧
      List.Forall₂ (fun t v => ∃ bytes head, F bytes ∧ Document P J t bytes head ∧
        v = headJson bytes head.header) (announcedHeads sent.head states) heads := by
  induction states generalizing sent current with
  | nil => exact ⟨[], rfl, List.Forall₂.nil⟩
  | cons next later ih =>
      obtain ⟨hnext, hlater⟩ := List.forall_mem_cons.mp hstates
      rw [streamTo, headData_append, headData_round]
      cases hhead : next.head with
      | none =>
          have hidle : InStep P J next.head current := by
            intro t ht
            rw [hhead] at ht
            cases ht
          obtain ⟨heads, hrun, hall⟩ := ih hidle hlater
          refine ⟨heads, hrun, ?_⟩
          rw [announcedHeads, hhead]
          rw [hhead] at hall
          exact hall
      | some t =>
          by_cases hnew : some t ≠ sent.head
          · obtain ⟨bytes, head, hfile, d⟩ := hnext t hhead
            obtain ⟨update, hread, hreceive⟩ := receive_update (R := R) (B := B) hstep d
            have hheld : InStep P J next.head
                (if bytes.size ≤ MAX_INLINE then some (headJson bytes head.header) else none) := by
              intro t' ht'
              rw [hhead] at ht'
              obtain rfl := Option.some.inj ht'
              exact ⟨bytes, head, d, rfl⟩
            obtain ⟨heads, hrun, hall⟩ := ih hheld hlater
            refine ⟨headJson bytes head.header :: heads, ?_, ?_⟩
            · show receiveAll B current ((if some t ≠ sent.head then _ else _) ++ _) = _
              rw [if_pos hnew, List.singleton_append, receiveAll, hread]
              show (receive current update >>= _) = _
              rw [hreceive]
              show (receiveAll B _ _ >>= _) = _
              rw [hrun]
              rfl
            · rw [announcedHeads, hhead]
              show List.Forall₂ _ ((if some t ≠ sent.head then _ else _) ++ _) _
              rw [if_pos hnew, List.singleton_append]
              rw [hhead] at hall
              exact List.Forall₂.cons ⟨bytes, head, hfile, d, rfl⟩ hall
          · -- the same document as before: nothing is sent
            have hsame : next.head = sent.head := by
              rw [hhead]
              exact Classical.not_not.mp hnew
            obtain ⟨heads, hrun, hall⟩ := ih (hsame ▸ hstep) hlater
            refine ⟨heads, ?_, ?_⟩
            · show receiveAll B current ((if some t ≠ sent.head then _ else _) ++ _) = _
              rw [if_neg hnew]
              exact hrun
            · rw [announcedHeads, hhead]
              show List.Forall₂ _ ((if some t ≠ sent.head then _ else _) ++ _) _
              rw [if_neg hnew]
              rw [hhead] at hall
              exact hall

end

/-- The state a connection borrows in one round: the head of some refresh (or none
yet), and what the other fields say then. -/
structure Observation where
  refresh : Nat
  epoch : Option String
  snapshot : Option String
  status : Option String
  proof : Option String

def observe (heads : List (Option String)) (o : Observation) : FeedState :=
  ⟨heads.getD o.refresh none, o.epoch, o.snapshot, o.status, o.proof⟩

/-- **No head is lost.** Whatever `head.ndjson` held at each refresh and whichever
states a connection picks up, a fresh page takes every head event without a gap, and
after each one holds the bytes of the artifact announced, or null where these are over
the limit. -/
theorem live_heads_exact (P : FeltParser) (J : JsonParser) (R B : JsonReader)
    (files : List (Option ByteArray)) (seen : List Observation) :
    let states := seen.map (observe (publishedHeads P J ⟨"", none⟩ files))
    ∃ heads, receiveAll B none (headData (streamTo R FeedState.default states)) = .ok heads ∧
      List.Forall₂ (fun t v => ∃ bytes head, some bytes ∈ files ∧ Document P J t bytes head ∧
        if bytes.size ≤ MAX_INLINE then
          ∃ payload, v.get "payload" = some (.str payload) ∧ intoBytes payload = bytes
        else v.get "payload" = some .null) (announcedHeads none states) heads := by
  intro states
  have hdocs : ∀ s ∈ states, ∀ t, s.head = some t →
      ∃ bytes head, some bytes ∈ files ∧ Document P J t bytes head := by
    intro s hs t ht
    obtain ⟨o, -, rfl⟩ := List.mem_map.mp hs
    have hmem : some t ∈ publishedHeads P J ⟨"", none⟩ files := by
      change (publishedHeads P J ⟨"", none⟩ files).getD o.refresh none = some t at ht
      rw [List.getD_eq_getElem?_getD] at ht
      cases hget : (publishedHeads P J ⟨"", none⟩ files)[o.refresh]? with
      | none =>
          rw [hget] at ht
          cases ht
      | some head =>
          rw [hget] at ht
          obtain rfl : head = some t := ht
          exact List.mem_of_getElem? hget
    refine publishedHeads_of (D := fun t => ∃ bytes head, some bytes ∈ files ∧
      Document P J t bytes head) ?_ ?_ hmem
    · intro t h
      cases h
    · intro bytes hbytes head hparse
      exact ⟨bytes, head, hbytes, hparse, rfl⟩
  have hidle : InStep P J FeedState.default.head none := by
    intro t ht
    cases ht
  obtain ⟨heads, hrun, hall⟩ := receiveAll_stream (R := R) (B := B) (F := fun bytes => some bytes ∈ files)
    hidle hdocs
  refine ⟨heads, hrun, hall.imp ?_⟩
  rintro t v ⟨bytes, head, hfile, d, rfl⟩
  refine ⟨bytes, head, hfile, d, ?_⟩
  have hget : (headJson bytes head.header).get "payload" =
      some (((inlinePayload bytes).map Json.str).getD .null) := rfl
  split
  · rename_i hsize
    obtain ⟨payload, hpayload, hbytes, -, -⟩ := d.payload hsize
    refine ⟨payload, ?_, hbytes⟩
    rw [hget, hpayload]
    rfl
  · rename_i hlarge
    rw [hget, inlinePayload_large hlarge]
    rfl

end Live

end Strk20
