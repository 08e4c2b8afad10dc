import Strk20.Foundation.Json
import Strk20.Foundation.Result
import Strk20.Feed.Felt

/-!
# The epoch and head codec (`codec.rs`)

Encoding emits text field by field; decoding parses each line as JSON and
checks the structure afterwards. Bytes are `ByteArray`s, `u64` values are
`Nat`s, and the JSON parser is a parameter.
-/

namespace Strk20.Feed

open Text Json

def FORMAT_VERSION : Nat := 1
def KIND_EPOCH : String := "strk20-epoch"
def KIND_HEAD : String := "strk20-head"

structure EventLine where
  txIndex : Nat
  eventIndex : Nat
  txHash : Felt
  keys : List Felt
  data : List Felt
deriving DecidableEq

/-- Finality of a tail block (head file only). -/
inductive Finality where
  | l2
  | l1
deriving DecidableEq

structure BlockLine where
  number : Nat
  hash : Felt
  parent : Felt
  timestamp : Nat
  diffs : List (Felt × Felt)
  events : List EventLine
  replacedClass : Option Felt
  finality : Option Finality
deriving DecidableEq

/-- The numbers of an event fit `u64`. -/
def EventLine.Bounded (e : EventLine) : Prop := e.txIndex < 2 ^ 64 ∧ e.eventIndex < 2 ^ 64

/-- The numbers of a block line fit `u64`. -/
structure BlockLine.Bounded (b : BlockLine) : Prop where
  number : b.number < 2 ^ 64
  timestamp : b.timestamp < 2 ^ 64
  events : ∀ e ∈ b.events, e.Bounded

structure EpochHeader where
  chainId : String
  pool : Felt
  epoch : Nat
  first : Nat
  last : Nat
  prev : Option Key
deriving DecidableEq

structure HeadHeader where
  tailFrom : Nat
  head : Nat
  headHash : Felt
  l1Accepted : Nat
deriving DecidableEq

structure Footer where
  blocks : Nat
  diffs : Nat
  events : Nat
  cls : Felt
deriving DecidableEq

structure Epoch where
  header : EpochHeader
  blocks : List BlockLine
  footer : Footer
deriving DecidableEq

structure Head where
  header : HeadHeader
  blocks : List BlockLine
  footer : Footer
deriving DecidableEq

namespace Codec

/-! ## Encoding -/

def feltArray (felts : List Felt) : String :=
  "[" ++ commas (felts.map fun f => quoted (feltHex f)) ++ "]"

def encodeDiff (d : Felt × Felt) : String :=
  "[" ++ quoted (feltHex d.1) ++ "," ++ quoted (feltHex d.2) ++ "]"

def encodeEvent (e : EventLine) : String :=
  "[" ++ e.txIndex.repr ++ "," ++ e.eventIndex.repr ++ "," ++ quoted (feltHex e.txHash) ++ "," ++
    feltArray e.keys ++ "," ++ feltArray e.data ++ "]"

def finalityText : Finality → String
  | .l2 => "l2"
  | .l1 => "l1"

/-- One line of a feed file: named fields, already rendered, in braces. -/
def record (fields : List (String × String)) : String :=
  "\x7b" ++ commas (fields.map fun f => quoted f.1 ++ ":" ++ f.2) ++ "\x7d"

/-- `encode_blk_line`, without the newline. -/
def encodeBlkLine (b : BlockLine) : String :=
  record ([("t", quoted "blk"), ("b", b.number.repr), ("h", quoted (feltHex b.hash)),
      ("p", quoted (feltHex b.parent)), ("ts", b.timestamp.repr),
      ("d", "[" ++ commas (b.diffs.map encodeDiff) ++ "]"),
      ("e", "[" ++ commas (b.events.map encodeEvent) ++ "]")] ++
    (match b.replacedClass with
      | some rc => [("rc", quoted (feltHex rc))]
      | none => []) ++
    (match b.finality with
      | some fin => [("fin", quoted (finalityText fin))]
      | none => []))

/-- `encode_end_line`, without the newline. -/
def encodeEndLine (f : Footer) : String :=
  record [("t", quoted "end"), ("blocks", f.blocks.repr), ("diffs", f.diffs.repr),
    ("events", f.events.repr), ("class", quoted (feltHex f.cls))]

def encodeEpochHeader (h : EpochHeader) : String :=
  record [("t", quoted "hdr"), ("v", FORMAT_VERSION.repr), ("kind", quoted KIND_EPOCH),
    ("chain_id", quoted h.chainId), ("pool", quoted (feltHex h.pool)), ("epoch", h.epoch.repr),
    ("from", h.first.repr), ("to", h.last.repr),
    ("prev", match h.prev with
      | some p => quoted (hexEncode p)
      | none => "null")]

def encodeHeadHeader (h : HeadHeader) : String :=
  record [("t", quoted "hdr"), ("v", FORMAT_VERSION.repr), ("kind", quoted KIND_HEAD),
    ("tail_from", h.tailFrom.repr), ("head", h.head.repr),
    ("head_hash", quoted (feltHex h.headHash)), ("l1_accepted", h.l1Accepted.repr)]

/-- Adjacent pairs, `slice::windows(2)`. -/
def windows {α : Type} (xs : List α) : List (α × α) := xs.zip xs.tail

/-- `assert_invariants`: the panic of an encoder given unsorted data. -/
def assertInvariants (blocks : List BlockLine) : Bool :=
  (windows blocks).all (fun w => w.1.number < w.2.number) &&
  blocks.all fun b =>
    (windows b.diffs).all (fun w => (toBytesBe w.1.1).val < (toBytesBe w.2.1).val) &&
    (windows b.events).all fun w => w.1.eventIndex < w.2.eventIndex

/-- Canonical epoch payload bytes; `none` is the assertion's panic. -/
def encodeEpoch (e : Epoch) : Option ByteArray :=
  if assertInvariants e.blocks then
    some (intoBytes (unlines
      (encodeEpochHeader e.header :: (e.blocks.map encodeBlkLine ++ [encodeEndLine e.footer]))))
  else none

/-- Canonical head payload bytes; `none` is the assertion's panic. -/
def encodeHead (h : Head) : Option ByteArray :=
  if assertInvariants h.blocks then
    some (intoBytes (unlines
      (encodeHeadHeader h.header :: (h.blocks.map encodeBlkLine ++ [encodeEndLine h.footer]))))
  else none

/-! ## Decoding -/

def getStr (v : Json) (k : String) (line : Nat) : Except FeedError String :=
  orMalformed ((v.get k).bind asStr)
    ("line " ++ line.repr ++ ": missing string field " ++ debugStr k)

def getU64 (v : Json) (k : String) (line : Nat) : Except FeedError Nat :=
  orMalformed ((v.get k).bind asU64)
    ("line " ++ line.repr ++ ": missing integer field " ++ debugStr k)

section

variable (P : FeltParser) (J : JsonParser)

def getFelt (v : Json) (k : String) (line : Nat) : Except FeedError Felt := do
  feltFromHex P (← getStr v k line)

/-- `felt_from_hex(x.as_str().unwrap_or_default())`. -/
def feltOf (v : Json) : Except FeedError Felt := feltFromHex P (v.asStr.getD "")

def getArray (v : Json) (k : String) (line : Nat) : Except FeedError (List Json) :=
  orMalformed ((v.get k).bind asArray) ("line " ++ line.repr ++ ": missing " ++ k)

def parseDiff (line : Nat) (d : Json) : Except FeedError (Felt × Felt) :=
  match d.asArray with
  | some [slot, value] => do
      let slot ← feltOf P slot
      let value ← feltOf P value
      pure (slot, value)
  | _ => .error (.malformed ("line " ++ line.repr ++ ": bad diff pair"))

def parseFelts (line : Nat) (v : Json) : Except FeedError (List Felt) := do
  (← orMalformed v.asArray ("line " ++ line.repr ++ ": bad felt array")).mapM (feltOf P)

def parseEvent (line : Nat) (e : Json) : Except FeedError EventLine :=
  match e.asArray with
  | some [tx, idx, hash, keys, data] => do
      let txIndex ← orMalformed tx.asU64 ("line " ++ line.repr ++ ": bad tx_index")
      let eventIndex ← orMalformed idx.asU64 ("line " ++ line.repr ++ ": bad event_index")
      let txHash ← feltOf P hash
      let keys ← parseFelts P line keys
      let data ← parseFelts P line data
      pure ⟨txIndex, eventIndex, txHash, keys, data⟩
  | _ => .error (.malformed ("line " ++ line.repr ++ ": bad event tuple"))

def parseFinality (v : Json) (line : Nat) : Except FeedError (Option Finality) :=
  match (v.get "fin").bind asStr with
  | some "l2" => .ok (some .l2)
  | some "l1" => .ok (some .l1)
  | some text => .error (.malformed ("line " ++ line.repr ++ ": bad fin " ++ debugStr text))
  | none => .ok none

def parseReplacedClass (v : Json) : Except FeedError (Option Felt) :=
  match v.get "rc" with
  | some rc => (feltOf P rc).map some
  | none => .ok none

def parseBlk (v : Json) (line : Nat) : Except FeedError BlockLine := do
  let diffs ← (← getArray v "d" line).mapM (parseDiff P line)
  let events ← (← getArray v "e" line).mapM (parseEvent P line)
  let replacedClass ← parseReplacedClass P v
  let finality ← parseFinality v line
  let number ← getU64 v "b" line
  let hash ← getFelt P v "h" line
  let parent ← getFelt P v "p" line
  let timestamp ← getU64 v "ts" line
  pure ⟨number, hash, parent, timestamp, diffs, events, replacedClass, finality⟩

def parseFooter (v : Json) (line : Nat) : Except FeedError Footer := do
  let blocks ← getU64 v "blocks" line
  let diffs ← getU64 v "diffs" line
  let events ← getU64 v "events" line
  let cls ← getFelt P v "class" line
  pure ⟨blocks, diffs, events, cls⟩

/-- `serde_json::from_str(raw)?`. -/
def fromStr (raw : String) : Except FeedError Json :=
  match J.fromStr raw with
  | some v => .ok v
  | none => .error (.json (J.refusal raw))

/-- What the line loop has collected. -/
structure Collected where
  header : Option Json
  blocks : List BlockLine
  footer : Option Footer

structure Parsed where
  header : Json
  blocks : List BlockLine
  footer : Footer

/-- One line of the loop; `lineNo` counts from 1. -/
def parseLine (expectedKind : String) (s : Collected) (lineNo : Nat) (raw : String) :
    Except FeedError Collected := do
  let v ← fromStr J raw
  let t ← getStr v "t" lineNo
  if t = "hdr" then
    if lineNo ≠ 1 then
      throw (.malformed ("hdr on line " ++ lineNo.repr ++ ", must be line 1"))
    else do
      let kind ← getStr v "kind" lineNo
      if kind ≠ expectedKind then
        throw (.malformed ("kind " ++ debugStr kind ++ ", expected " ++ debugStr expectedKind))
      else do
        let version ← getU64 v "v" lineNo
        if version ≠ FORMAT_VERSION then
          throw (.malformed ("unsupported format version " ++ version.repr))
        else pure { s with header := some v }
  else if t = "blk" then
    if s.footer.isSome then throw (.malformed "blk after end")
    else do
      let b ← parseBlk P v lineNo
      pure { s with blocks := s.blocks ++ [b] }
  else if t = "end" then
    if s.footer.isSome then throw (.malformed "duplicate end")
    else do
      let f ← parseFooter P v lineNo
      pure { s with footer := some f }
  else throw (.malformed ("line " ++ lineNo.repr ++ ": unknown t " ++ debugStr t))

/-- The loop over the lines from number `lineNo` on. -/
def parseLoop (expectedKind : String) : Collected → Nat → List String → Except FeedError Collected
  | s, _, [] => .ok s
  | s, lineNo, raw :: rest => do
      parseLoop expectedKind (← parseLine P J expectedKind s lineNo raw) (lineNo + 1) rest

/-- The first adjacent pair of blocks that is out of order or unlinked. -/
def checkLinks : List BlockLine → Except FeedError Unit
  | a :: b :: rest =>
      if a.number ≥ b.number then
        .error (.malformed ("blocks not ascending at " ++ b.number.repr))
      else if b.number = a.number + 1 ∧ b.parent ≠ a.hash then
        .error (.malformed ("parent linkage broken at block " ++ b.number.repr))
      else checkLinks (b :: rest)
  | _ => .ok ()

def checkSorted : List BlockLine → Except FeedError Unit
  | [] => .ok ()
  | b :: rest =>
      if (windows b.diffs).any fun w => (toBytesBe w.1.1).val ≥ (toBytesBe w.2.1).val then
        .error (.malformed ("diffs not sorted in block " ++ b.number.repr))
      else if (windows b.events).any fun w => w.1.eventIndex ≥ w.2.eventIndex then
        .error (.malformed ("events not sorted in block " ++ b.number.repr))
      else checkSorted rest

/-- `blocks.len() as u64` and the two `u64` sums. -/
def countBlocks (blocks : List BlockLine) : Nat := blocks.length % 2 ^ 64

def countDiffs (blocks : List BlockLine) : Nat := (blocks.map (·.diffs.length)).sum % 2 ^ 64

def countEvents (blocks : List BlockLine) : Nat := (blocks.map (·.events.length)).sum % 2 ^ 64

def parseLines (payload : ByteArray) (expectedKind : String) : Except FeedError Parsed := do
  let text ← orMalformed (fromUtf8 payload) "payload is not utf-8"
  if !endsWithNewline text then throw (.malformed "payload must end with a newline")
  else do
    let s ← parseLoop P J expectedKind ⟨none, [], none⟩ 1 (lines text)
    let header ← orMalformed s.header "missing hdr"
    let footer ← orMalformed s.footer "missing end"
    if footer.blocks ≠ countBlocks s.blocks then
      throw (.malformed ("footer.blocks " ++ footer.blocks.repr ++ " != actual " ++
        (countBlocks s.blocks).repr))
    else if footer.diffs ≠ countDiffs s.blocks ∨ footer.events ≠ countEvents s.blocks then
      throw (.malformed ("footer counts diffs=" ++ footer.diffs.repr ++ " events=" ++
        footer.events.repr ++ " != actual diffs=" ++ (countDiffs s.blocks).repr ++ " events=" ++
        (countEvents s.blocks).repr))
    else do
      checkLinks s.blocks
      checkSorted s.blocks
      pure ⟨header, s.blocks, footer⟩

def parsePrev (h : Json) : Except FeedError (Option Key) :=
  match h.get "prev" with
  | some .null => .ok none
  | none => .ok none
  | some (.str s) =>
      match hexDecode s with
      | none => .error (.malformed ("bad prev hex " ++ debugStr s))
      | some (32, n) => .ok (some (keyOfNat n))
      | some _ => .error (.malformed "prev must be 32 bytes")
  | some _ => .error (.malformed "bad prev")

/-- The block checks of `parse_epoch`: inside the range, without finality. -/
def checkEpochBlocks (first last : Nat) : List BlockLine → Except FeedError Unit
  | [] => .ok ()
  | b :: rest =>
      if b.number < first ∨ b.number > last then
        .error (.malformed ("block " ++ b.number.repr ++ " outside epoch range [" ++ first.repr ++
          ", " ++ last.repr ++ "]"))
      else if b.finality.isSome then
        .error (.malformed ("epoch block " ++ b.number.repr ++ " carries fin"))
      else checkEpochBlocks first last rest

def parseEpoch (payload : ByteArray) : Except FeedError Epoch := do
  let parsed ← parseLines P J payload KIND_EPOCH
  let prev ← parsePrev parsed.header
  let chainId ← getStr parsed.header "chain_id" 1
  let pool ← getFelt P parsed.header "pool" 1
  let epoch ← getU64 parsed.header "epoch" 1
  let first ← getU64 parsed.header "from" 1
  let last ← getU64 parsed.header "to" 1
  checkEpochBlocks first last parsed.blocks
  pure ⟨⟨chainId, pool, epoch, first, last, prev⟩, parsed.blocks, parsed.footer⟩

/-- The block checks of `parse_head`: with finality, not before the tail. -/
def checkHeadBlocks (tailFrom : Nat) : List BlockLine → Except FeedError Unit
  | [] => .ok ()
  | b :: rest =>
      if b.finality.isNone then
        .error (.malformed ("head block " ++ b.number.repr ++ " missing fin"))
      else if b.number < tailFrom then
        .error (.malformed ("head block " ++ b.number.repr ++ " before tail_from " ++
          tailFrom.repr))
      else checkHeadBlocks tailFrom rest

def parseHead (payload : ByteArray) : Except FeedError Head := do
  let parsed ← parseLines P J payload KIND_HEAD
  let tailFrom ← getU64 parsed.header "tail_from" 1
  let head ← getU64 parsed.header "head" 1
  let headHash ← getFelt P parsed.header "head_hash" 1
  let l1Accepted ← getU64 parsed.header "l1_accepted" 1
  checkHeadBlocks tailFrom parsed.blocks
  pure ⟨⟨tailFrom, head, headHash, l1Accepted⟩, parsed.blocks, parsed.footer⟩

end

end Codec

end Strk20.Feed
