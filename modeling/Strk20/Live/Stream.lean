import Strk20.Foundation.Offsets
import Strk20.Feed.CodecParsed
import Strk20.Feed.Manifest

/-!
# The live head stream (`live.rs`)

The hub publishes the head artifact as one JSON document. A connection remembers the
document it sent last and, where the new one only appends records to the old one's,
sends the appended records with the new first and last line instead.

- `Parts`: first line, records and last line of a head artifact.
- `headParts_eq_some`: the source's byte offsets cut exactly there.
- `headUpdate_cases`: what goes on the wire for one document after another.
-/

namespace Strk20

namespace Json

mutual
/-- `Value` equality; numbers outside `u64` count as different. -/
def same : Json → Json → Bool
  | .null, .null => true
  | .bool a, .bool b => a == b
  | .num a, .num b => a == b
  | .str a, .str b => a == b
  | .arr a, .arr b => sameItems a b
  | .obj a, .obj b => sameFields a b
  | _, _ => false
def sameItems : List Json → List Json → Bool
  | [], [] => true
  | a :: as, b :: bs => same a b && sameItems as bs
  | _, _ => false
def sameFields : List (String × Json) → List (String × Json) → Bool
  | [], [] => true
  | (k, a) :: as, (l, b) :: bs => k == l && same a b && sameFields as bs
  | _, _ => false
end

/-- `value[key]`: null where there is no such field. -/
def field (v : Json) (key : String) : Json := (v.get key).getD .null

/-- The fields of an object, which keep the order of their names. -/
def insertField (key : String) (val : Json) : List (String × Json) → List (String × Json)
  | [] => [(key, val)]
  | (k, v) :: fs =>
      if k = key then (key, val) :: fs
      else if key.toList < k.toList then (key, val) :: (k, v) :: fs
      else (k, v) :: insertField key val fs

/-- `value[key] = val`. -/
def setField (v : Json) (key : String) (val : Json) : Json :=
  match v with
  | .obj fields => .obj (insertField key val fields)
  | v => v

end Json

namespace Live

open Feed Feed.Codec Text Offsets

/-- Oversized artifacts use HTTP catch-up. -/
def MAX_INLINE : Nat := 2 * 1024 * 1024

/-! ## The published documents -/

/-- `FeedState`: the data of one event per field. -/
structure FeedState where
  head : Option String
  epoch : Option String
  snapshot : Option String
  status : Option String
  proof : Option String
deriving DecidableEq

/-- `FeedState::default`. -/
def FeedState.default : FeedState := ⟨none, none, none, none, none⟩

/-- The head part of `HeadCache`. -/
structure HeadCache where
  etag : String
  data : Option String

def etagOf (bytes : ByteArray) : String := "\"" ++ hexEncode (payloadSha256 bytes) ++ "\""

/-- The artifact as text, unless it is too large. -/
def inlinePayload (bytes : ByteArray) : Option String :=
  if bytes.size ≤ MAX_INLINE then fromUtf8 bytes else none

/-- The document of a head artifact. -/
def headJson (bytes : ByteArray) (header : HeadHeader) : Json :=
  .obj [
    ("etag", .str (etagOf bytes)),
    ("head", .num header.head),
    ("head_hash", .str (feltHex header.headHash)),
    ("l1_accepted", .num header.l1Accepted),
    ("payload", ((inlinePayload bytes).map Json.str).getD .null),
    ("resync", .bool (inlinePayload bytes).isNone),
    ("tail_from", .num header.tailFrom)]

section

variable (P : FeltParser) (J : JsonParser)

def headEvent (bytes : ByteArray) (cache : HeadCache) : Option String × HeadCache :=
  let etag := etagOf bytes
  if etag = cache.etag then (cache.data, cache)
  else
    match parseHead P J bytes with
    | .error _ => (none, cache)
    | .ok head =>
        let data := (headJson bytes head.header).text
        (some data, ⟨etag, some data⟩)

/-- The heads of one `refresh` after another: `none` where `head.ndjson` cannot be
read, or does not parse. -/
def publishedHeads : HeadCache → List (Option ByteArray) → List (Option String)
  | _, [] => []
  | cache, none :: files => none :: publishedHeads cache files
  | cache, some bytes :: files =>
      (headEvent P J bytes cache).1 :: publishedHeads (headEvent P J bytes cache).2 files

end

/-! ## One update -/

/-- `payload.strip_suffix('\n')`. -/
def stripNewline (payload : List Char) : Option (List Char) :=
  if payload.getLast? = some '\n' then some payload.dropLast else none

def headParts (payload : List Char) : Option (List Char × List Char × List Char) := do
  let first := (← indexOf Char.utf8Size '\n' payload) + 1
  let last := (← lastIndexOf Char.utf8Size '\n' (← stripNewline payload)) + 1
  if first ≤ last then
    some (upTo Char.utf8Size first payload, slice Char.utf8Size first last payload,
      onFrom Char.utf8Size last payload)
  else none

section

variable (R : JsonReader)

/-- The closure `delta` of `head_update`, before it is written out. -/
def headDelta (next : String) (prev : Option String) : Option Json := do
  let previous ← R.fromStr (← prev)
  let current ← R.fromStr next
  if !(previous.field "tail_from").same (current.field "tail_from") then none
  else
    let (_, oldRecords, _) ← headParts (← (previous.field "payload").asStr).toList
    let (header, records, last) ← headParts (← (current.field "payload").asStr).toList
    let append ← oldRecords.isPrefixOf? records
    let change := Json.obj [
      ("append", .str (String.ofList append)),
      ("base_etag", .str (← (previous.field "etag").asStr)),
      ("end", .str (String.ofList last)),
      ("header", .str (String.ofList header))]
    some ((current.setField "payload" .null).setField "delta" change)

def headUpdate (next : String) (prev : Option String) : String :=
  match headDelta R next prev with
  | some delta => if delta.text.utf8ByteSize < next.utf8ByteSize then delta.text else next
  | none => next

/-! ## The stream -/

structure LiveEvent where
  name : String
  data : String
deriving DecidableEq

/-- One field of the state: an event if it says something new. -/
def announce (name : String) (wire : String → Option String → String) (next prev : Option String) :
    List LiveEvent :=
  match next with
  | some data => if some data ≠ prev then [⟨name, wire data prev⟩] else []
  | none => []

/-- One round of the loop: what it writes after `sent`. -/
def streamRound (sent current : FeedState) : List LiveEvent :=
  announce "epoch" (fun data _ => data) current.epoch sent.epoch ++
  announce "head" (headUpdate R) current.head sent.head ++
  announce "proof" (fun data _ => data) current.proof sent.proof ++
  announce "snapshot" (fun data _ => data) current.snapshot sent.snapshot ++
  announce "status" (fun data _ => data) current.status sent.status

/-- The loop of `stream_to`: the state borrowed in each round, in order. -/
def streamTo : FeedState → List FeedState → List LiveEvent
  | _, [] => []
  | sent, current :: later => streamRound R sent current ++ streamTo current later

end

/-! ## Cutting an artifact -/

/-- First line, records and last line, newlines included. -/
structure Parts (payload header records last : List Char) : Prop where
  eq : payload = header ++ records ++ last
  header : ∃ a, '\n' ∉ a ∧ header = a ++ ['\n']
  records : records = [] ∨ ∃ m, records = m ++ ['\n']
  last : ∃ z, '\n' ∉ z ∧ last = z ++ ['\n']

namespace Parts

variable {payload header records last : List Char}

/-- The lines before the last one end with a newline. -/
theorem upper (h : Parts payload header records last) : ∃ m, header ++ records = m ++ ['\n'] := by
  rcases h.records with rfl | ⟨m, rfl⟩
  · obtain ⟨a, -, rfl⟩ := h.header
    exact ⟨a, by rw [List.append_nil]⟩
  · exact ⟨header ++ m, (List.append_assoc _ _ _).symm⟩

section

variable {size : Char → Nat}

theorem indexOf_eq (h : Parts payload header records last) (hu : Offsets.Unit size '\n') :
    (indexOf size '\n' payload).map (· + 1) = some (width size header) := by
  obtain ⟨a, ha, rfl⟩ := h.header
  rw [h.eq, List.append_assoc, List.append_assoc, List.singleton_append, indexOf_append ha,
    width_append, width, width, hu.one]
  rfl

theorem lastIndexOf_eq (h : Parts payload header records last) (hu : Offsets.Unit size '\n') :
    ((stripNewline payload).bind (lastIndexOf size '\n')).map (· + 1) =
      some (width size (header ++ records)) := by
  obtain ⟨z, hz, rfl⟩ := h.last
  obtain ⟨m, hm⟩ := h.upper
  have hpayload : payload = m ++ '\n' :: z ++ ['\n'] := by
    rw [h.eq, hm, List.append_assoc, List.append_assoc, List.singleton_append, List.cons_append]
  have hstrip : stripNewline payload = some (m ++ '\n' :: z) := by
    rw [stripNewline, hpayload, List.getLast?_concat, if_pos rfl, List.dropLast_concat]
  rw [hstrip, Option.bind_some, lastIndexOf_append m hz, hm, width_append, width, width, hu.one]
  rfl

theorem lastIndexUpTo_eq (h : Parts payload header records last) (hu : Offsets.Unit size '\n') :
    (lastIndexUpTo size '\n' (width size payload - 2) payload).map (· + 1) =
      some (width size (header ++ records)) := by
  obtain ⟨z, hz, rfl⟩ := h.last
  obtain ⟨m, hm⟩ := h.upper
  have hpayload : payload = m ++ '\n' :: (z ++ ['\n']) := by
    rw [h.eq, hm, List.append_assoc, List.singleton_append]
  rw [hpayload, lastIndexUpTo_append hu m hz, hm, width_append, width, width, hu.one]
  rfl

theorem slice_eq (h : Parts payload header records last) (hu : Offsets.Unit size '\n') :
    slice size (width size header) (width size (header ++ records)) payload = records := by
  rw [h.eq]
  exact slice_append hu header records last

end

end Parts

theorem unit_utf8 : Offsets.Unit Char.utf8Size '\n' := ⟨Char.utf8Size_pos, rfl⟩

theorem headParts_of_parts {payload header records last : List Char}
    (h : Parts payload header records last) : headParts payload = some (header, records, last) := by
  obtain ⟨i, hi, hfirst⟩ := Option.map_eq_some_iff.mp (h.indexOf_eq unit_utf8)
  obtain ⟨j, hj, hlast⟩ := Option.map_eq_some_iff.mp (h.lastIndexOf_eq unit_utf8)
  obtain ⟨stripped, hstrip, hj⟩ := Option.bind_eq_some_iff.mp hj
  have hle : i + 1 ≤ j + 1 := by
    rw [hfirst, hlast, width_append]
    exact Nat.le_add_right _ _
  have hheader : upTo Char.utf8Size (width Char.utf8Size header) payload = header := by
    rw [h.eq, List.append_assoc]
    exact upTo_append unit_utf8 header _
  have hend : onFrom Char.utf8Size (width Char.utf8Size (header ++ records)) payload = last := by
    rw [h.eq]
    exact onFrom_append unit_utf8 _ last
  unfold headParts
  simp only [hi, hstrip, hj, Option.bind_eq_bind, Option.bind_some, if_pos hle]
  rw [hfirst, hlast, hheader, hend, h.slice_eq unit_utf8]

theorem exists_parts {payload : List Char} (hlast : payload.getLast? = some '\n')
    (hlines : '\n' ∈ payload.dropLast) :
    ∃ header records last, Parts payload header records last := by
  have hpayload : payload = payload.dropLast ++ ['\n'] := by
    obtain ⟨init, rfl⟩ := List.getLast?_eq_some_iff.mp hlast
    rw [List.dropLast_concat]
  obtain ⟨a, b, hfirst, ha⟩ := List.eq_append_cons_of_mem hlines
  by_cases hb : '\n' ∈ b
  · -- a newline further on ends the records
    obtain ⟨z, m, hrev, hz⟩ := List.eq_append_cons_of_mem (List.mem_reverse.mpr hb)
    have hsplit : b = m.reverse ++ '\n' :: z.reverse := by
      rw [← List.reverse_reverse b, hrev]
      simp
    refine ⟨a ++ ['\n'], m.reverse ++ ['\n'], z.reverse ++ ['\n'], ?_, ⟨a, ha, rfl⟩,
      Or.inr ⟨_, rfl⟩, ⟨_, fun hmem => hz (List.mem_reverse.mp hmem), rfl⟩⟩
    rw [hpayload, hfirst, hsplit]
    simp
  · refine ⟨a ++ ['\n'], [], b ++ ['\n'], ?_, ⟨a, ha, rfl⟩, Or.inl rfl, ⟨b, hb, rfl⟩⟩
    rw [hpayload, hfirst]
    simp

/-- **The byte offsets cut an artifact into its first line, records and last line.** -/
theorem headParts_eq_some {payload header records last : List Char} :
    headParts payload = some (header, records, last) ↔ Parts payload header records last := by
  constructor
  · intro h
    have hcut := h
    unfold headParts at hcut
    simp only [Option.bind_eq_bind, Option.bind_eq_some_iff] at hcut
    obtain ⟨i, hi, stripped, hstrip, j, hj, -⟩ := hcut
    unfold stripNewline at hstrip
    split at hstrip
    · rename_i hlast
      obtain rfl := Option.some.inj hstrip
      obtain ⟨header', records', last', hparts⟩ := exists_parts hlast (mem_of_lastIndexOf hj)
      have hsame := (headParts_of_parts hparts).symm.trans h
      obtain ⟨rfl, hrest⟩ := Prod.mk.inj (Option.some.inj hsame)
      obtain ⟨rfl, rfl⟩ := Prod.mk.inj hrest
      exact hparts
    · cases hstrip
  · exact headParts_of_parts

/-! ## Documents -/

/-- `t` announces an artifact that parsed. -/
structure Document (P : FeltParser) (J : JsonParser) (t : String) (bytes : ByteArray) (head : Head) :
    Prop where
  parsed : parseHead P J bytes = .ok head
  text : t = (headJson bytes head.header).text

section

variable {P : FeltParser} {J : JsonParser} {R : JsonReader}

theorem headEvent_keeps {D : String → Prop} {bytes : ByteArray} {cache : HeadCache}
    (hcache : ∀ t, cache.data = some t → D t)
    (hfile : ∀ head, parseHead P J bytes = .ok head → D (headJson bytes head.header).text) :
    (∀ t, (headEvent P J bytes cache).1 = some t → D t) ∧
      ∀ t, (headEvent P J bytes cache).2.data = some t → D t := by
  unfold headEvent
  dsimp only
  split
  · exact ⟨hcache, hcache⟩
  · split
    · exact ⟨fun t h => absurd h (by simp), hcache⟩
    · rename_i head hparse
      have hnew : ∀ t, some (headJson bytes head.header).text = some t → D t := by
        intro t h
        rw [← Option.some.inj h]
        exact hfile head hparse
      exact ⟨hnew, hnew⟩

/-- Every published head announces one of the files read. -/
theorem publishedHeads_of {D : String → Prop} {cache : HeadCache} {files : List (Option ByteArray)}
    (hcache : ∀ t, cache.data = some t → D t)
    (hfiles : ∀ bytes, some bytes ∈ files → ∀ head, parseHead P J bytes = .ok head →
      D (headJson bytes head.header).text)
    {t : String} (h : some t ∈ publishedHeads P J cache files) : D t := by
  induction files generalizing cache with
  | nil => exact absurd h List.not_mem_nil
  | cons file files ih =>
      have hrest : ∀ bytes, some bytes ∈ files → ∀ head, parseHead P J bytes = .ok head →
          D (headJson bytes head.header).text := fun bytes hb =>
        hfiles bytes (List.mem_cons_of_mem _ hb)
      cases file with
      | none =>
          rcases List.mem_cons.mp h with h | h
          · cases h
          · exact ih hcache hrest h
      | some bytes =>
          obtain ⟨hhead, hkept⟩ := headEvent_keeps (P := P) (J := J) hcache
            (hfiles bytes List.mem_cons_self)
          rcases List.mem_cons.mp h with h | h
          · exact hhead t h.symm
          · exact ih hkept hrest h

theorem sound_headJson {bytes : ByteArray} {header : HeadHeader} (h : HeadHeader.Bounded header) :
    (headJson bytes header).Sound := by
  have hpayload : (((inlinePayload bytes).map Json.str).getD .null).Sound := by
    cases inlinePayload bytes <;> simp [Json.Sound]
  unfold headJson
  simp only [Json.Sound, Json.SoundFields, hpayload, true_and, and_true]
  exact ⟨h.head, h.l1Accepted, h.tailFrom⟩

theorem depth_headJson (bytes : ByteArray) (header : HeadHeader) :
    (headJson bytes header).depth < Json.NESTING_LIMIT := by
  unfold headJson
  cases inlinePayload bytes <;> simp [Json.depth, Json.depthFields, Json.NESTING_LIMIT]

theorem Document.read {t : String} {bytes : ByteArray} {head : Head} (d : Document P J t bytes head) :
    R.fromStr t = some (headJson bytes head.header) := by
  rw [d.text]
  exact R.fromStr_text _ (sound_headJson (parseHead_wf P J d.parsed).header) (depth_headJson _ _)

/-- The `delta` field. -/
def changeJson (baseEtag : String) (first append last : List Char) : Json :=
  .obj [
    ("append", .str (String.ofList append)),
    ("base_etag", .str baseEtag),
    ("end", .str (String.ofList last)),
    ("header", .str (String.ofList first))]

/-- The document with a change in place of the payload. -/
def deltaJson (bytes : ByteArray) (header : HeadHeader) (baseEtag : String)
    (first append last : List Char) : Json :=
  .obj [
    ("delta", changeJson baseEtag first append last),
    ("etag", .str (etagOf bytes)),
    ("head", .num header.head),
    ("head_hash", .str (feltHex header.headHash)),
    ("l1_accepted", .num header.l1Accepted),
    ("payload", .null),
    ("resync", .bool (inlinePayload bytes).isNone),
    ("tail_from", .num header.tailFrom)]

theorem sound_deltaJson {bytes : ByteArray} {header : HeadHeader} (h : HeadHeader.Bounded header)
    (baseEtag : String) (first append last : List Char) :
    (deltaJson bytes header baseEtag first append last).Sound := by
  unfold deltaJson changeJson
  simp only [Json.Sound, Json.SoundFields, true_and, and_true]
  exact ⟨h.head, h.l1Accepted, h.tailFrom⟩

theorem depth_deltaJson (bytes : ByteArray) (header : HeadHeader) (baseEtag : String)
    (first append last : List Char) :
    (deltaJson bytes header baseEtag first append last).depth < Json.NESTING_LIMIT := by
  simp [deltaJson, changeJson, Json.depth, Json.depthFields, Json.NESTING_LIMIT]

theorem setField_headJson (bytes : ByteArray) (header : HeadHeader) (baseEtag : String)
    (first append last : List Char) :
    ((headJson bytes header).setField "payload" .null).setField "delta"
        (changeJson baseEtag first append last) =
      deltaJson bytes header baseEtag first append last := by
  rfl

/-- A change is sent only for records that extend the records sent. -/
theorem headDelta_some {t t' : String} {bytes bytes' : ByteArray} {head head' : Head} {v : Json}
    (d : Document P J t bytes head) (d' : Document P J t' bytes' head')
    (h : headDelta R t' (some t) = some v) :
    ∃ p q first₀ last₀ first records append last,
      head.header.tailFrom = head'.header.tailFrom ∧
      inlinePayload bytes = some p ∧ inlinePayload bytes' = some q ∧
      Parts p.toList first₀ records last₀ ∧ Parts q.toList first (records ++ append) last ∧
      v = deltaJson bytes' head'.header (etagOf bytes) first append last := by
  have hfield : ∀ (bytes : ByteArray) (header : HeadHeader),
      (headJson bytes header).field "payload" = ((inlinePayload bytes).map Json.str).getD .null :=
    fun _ _ => rfl
  have hstr : ∀ (o : Option String) (s : String),
      ((o.map Json.str).getD .null).asStr = some s → o = some s := by
    intro o s ho
    cases o with
    | none => cases ho
    | some s' => rw [← Option.some.inj ho]
  unfold headDelta at h
  rw [Option.bind_eq_bind, Option.bind_some, d.read, Option.bind_eq_bind, Option.bind_some, d'.read,
    Option.bind_eq_bind, Option.bind_some] at h
  split at h
  · cases h
  rename_i htail
  simp only [Option.bind_eq_bind, Option.bind_eq_some_iff, hfield] at h
  obtain ⟨p, hp, ⟨first₀, records₀, last₀⟩, hold, q, hq, ⟨first, records, last⟩, hnew, append,
    happend, etag, hetag, hv⟩ := h
  obtain rfl := Option.some.inj hetag
  have hrecords := List.isPrefixOf?_eq_some_iff_append_eq.mp happend
  dsimp only at hrecords hnew
  rw [← hrecords] at hnew
  refine ⟨p, q, first₀, last₀, first, records₀, append, last, ?_, hstr _ _ hp, hstr _ _ hq,
    headParts_eq_some.mp hold, headParts_eq_some.mp hnew, ?_⟩
  · have hsame : ((headJson bytes head.header).field "tail_from").same
        ((headJson bytes' head'.header).field "tail_from") = true := by
      simpa using htail
    exact of_decide_eq_true hsame
  · rw [← Option.some.inj hv]
    exact setField_headJson ..

end

end Live

end Strk20
