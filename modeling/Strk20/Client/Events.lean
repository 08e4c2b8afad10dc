import Strk20.Foundation.Chunks
import Strk20.Foundation.Text

/-!
# The client's event stream (`events.rs`)

Bytes of `/feed/live` are kept in a buffer, and every arrival takes the complete event
blocks out of it. A block ends with its blank line, and a cut anywhere inside one, also
between the two newlines, does not show: `receive_chunks`.
-/

namespace Strk20.Client

/-! ## Blocks -/

/-- `buf.windows(2).position(|w| w == b"\n\n")`. -/
def position : List UInt8 → Option Nat
  | a :: b :: rest => if a = 10 ∧ b = 10 then some 0 else (position (b :: rest)).map (· + 1)
  | _ => none

/-- `buf.drain(..end + 2)`. -/
def cutBlock (buf : List UInt8) : Option (List UInt8 × List UInt8) :=
  (position buf).map fun i => (buf.take (i + 2), buf.drop (i + 2))

theorem position_lt {buf : List UInt8} : ∀ {i : Nat}, position buf = some i →
    i + 2 ≤ buf.length := by
  induction buf with
  | nil =>
      intro i h
      cases h
  | cons a buf ih =>
      intro i h
      cases buf with
      | nil => cases h
      | cons b rest =>
          rw [position] at h
          split at h
          · rw [← Option.some.inj h]
            simp
          · obtain ⟨j, hj, rfl⟩ := Option.map_eq_some_iff.mp h
            have hlen := ih hj
            rw [List.length_cons]
            omega

/-- A blank line stays the first one when more arrives. -/
theorem position_append {buf : List UInt8} (more : List UInt8) : ∀ {i : Nat},
    position buf = some i → position (buf ++ more) = some i := by
  induction buf with
  | nil =>
      intro i h
      cases h
  | cons a buf ih =>
      intro i h
      cases buf with
      | nil => cases h
      | cons b rest =>
          rw [position] at h
          rw [List.cons_append, List.cons_append, position]
          split at h
          · rename_i hblank
            rw [if_pos hblank]
            exact h
          · rename_i hblank
            obtain ⟨j, hj, rfl⟩ := Option.map_eq_some_iff.mp h
            rw [if_neg hblank, ← List.cons_append, ih hj]
            rfl

theorem cutBlock_eq_some {buf block rest : List UInt8} (h : cutBlock buf = some (block, rest)) :
    ∃ i, position buf = some i ∧ block = buf.take (i + 2) ∧ rest = buf.drop (i + 2) := by
  obtain ⟨i, hi, heq⟩ := Option.map_eq_some_iff.mp h
  cases heq
  exact ⟨i, hi, rfl, rfl⟩

/-- Blocks come off the front of the buffer. -/
def blockCutter : Cutter UInt8 where
  cut := cutBlock
  whole := by
    intro buf block rest h
    obtain ⟨i, -, rfl, rfl⟩ := cutBlock_eq_some h
    exact (List.take_append_drop _ _).symm
  shorter := by
    intro buf block rest h
    obtain ⟨i, hi, -, rfl⟩ := cutBlock_eq_some h
    have hlen := position_lt hi
    rw [List.length_drop]
    omega
  stable := by
    intro buf block rest more h
    obtain ⟨i, hi, rfl, rfl⟩ := cutBlock_eq_some h
    have hlen := position_lt hi
    rw [cutBlock, position_append more hi, Option.map_some, List.take_append_of_le_length hlen,
      List.drop_append_of_le_length hlen]

/-! ## Notices -/

inductive FeedNotice where
  | hello (payload : String)
  | head (payload : String)
  | epoch (payload : String)
  | snapshot (payload : String)
  | status (payload : String)
  | other (payload : String)
deriving DecidableEq

/-- `line.split_once(':')`. -/
def splitOnce (line : String) : Option (String × String) :=
  if ':' ∈ line.toList then
    some (String.ofList (line.toList.takeWhile (· ≠ ':')),
      String.ofList (line.toList.dropWhile (· ≠ ':')).tail)
  else none

/-- `v.strip_prefix(' ').unwrap_or(v)`. -/
def stripSpace (v : String) : String :=
  if v.toList.head? = some ' ' then String.ofList v.toList.tail else v

/-- The name of an event and its lines of data, after one more line. -/
def readLine (fields : Option String × List String) (line : String) :
    Option String × List String :=
  if line.toList.head? = some ':' ∨ line.isEmpty then fields
  else
    let (field, value) :=
      match splitOnce line with
      | some (f, v) => (f, stripSpace v)
      | none => (line, "")
    if field = "event" then (some value, fields.2)
    else if field = "data" then (fields.1, fields.2 ++ [value])
    else fields

/-- The body of the loop: a block that is no text, or has no name, is no notice. -/
def noticeOf (block : List UInt8) : Option FeedNotice := do
  let block ← Text.fromUtf8 block.toByteArray
  let fields := (Text.lines block).foldl readLine (none, [])
  let name ← fields.1
  let payload := "\n".intercalate fields.2
  some (if name = "hello" then .hello payload
    else if name = "head" then .head payload
    else if name = "epoch" then .epoch payload
    else if name = "snapshot" then .snapshot payload
    else if name = "status" then .status payload
    else .other payload)

/-- The loop of `drain_events`. -/
def drainLoop (buf : List UInt8) (out : List FeedNotice) : List FeedNotice × List UInt8 :=
  match _h : cutBlock buf with
  | none => (out, buf)
  | some (block, buf) => drainLoop buf (out ++ (noticeOf block).toList)
termination_by buf.length
decreasing_by exact blockCutter.shorter _h

/-- The notices, and the buffer after it. -/
def drainEvents (buf : List UInt8) : List FeedNotice × List UInt8 := drainLoop buf []

/-- The loop is a drain that reads each block. -/
theorem drainLoop_eq (buf : List UInt8) : ∀ out : List FeedNotice,
    drainLoop buf out =
      (out ++ (blockCutter.drain buf).1.filterMap noticeOf, (blockCutter.drain buf).2) := by
  induction buf using blockCutter.drain_induction with
  | @hnone buf h =>
      intro out
      have hcut : cutBlock buf = none := h
      rw [blockCutter.drain_of_none h, drainLoop]
      split
      · simp
      · rename_i heq
        rw [hcut] at heq
        cases heq
  | @hsome buf block rest h ih =>
      intro out
      have hcut : cutBlock buf = some (block, rest) := h
      rw [blockCutter.drain_of_some h, drainLoop]
      split
      · rename_i heq
        rw [hcut] at heq
        cases heq
      · rename_i heq
        rw [hcut] at heq
        cases heq
        rw [ih, List.append_assoc, List.filterMap_cons]
        cases noticeOf block <;> rfl

theorem drainEvents_eq (buf : List UInt8) : drainEvents buf =
    ((blockCutter.drain buf).1.filterMap noticeOf, (blockCutter.drain buf).2) := by
  rw [drainEvents, drainLoop_eq, List.nil_append]

/-! ## The stream -/

/-- The closure of `subscribe`: a failed read leaves the buffer as it is. -/
def onChunk (buf : List UInt8) : Except String (List UInt8) → List FeedNotice × List UInt8
  | .ok bytes => drainEvents (buf ++ bytes)
  | .error _ => ([], buf)

/-- Every notice of a subscription, and the buffer in the end. -/
def receive : List UInt8 → List (Except String (List UInt8)) → List FeedNotice × List UInt8
  | buf, [] => ([], buf)
  | buf, chunk :: chunks =>
      let now := onChunk buf chunk
      let later := receive now.2 chunks
      (now.1 ++ later.1, later.2)

/-- The bytes that did arrive. -/
def arrived (chunks : List (Except String (List UInt8))) : List UInt8 :=
  (chunks.filterMap Except.toOption).flatten

theorem receive_eq {chunks : List (Except String (List UInt8))} : ∀ {buf : List UInt8},
    receive buf chunks =
      ((blockCutter.receive buf (chunks.filterMap Except.toOption)).1.filterMap noticeOf,
        (blockCutter.receive buf (chunks.filterMap Except.toOption)).2) := by
  induction chunks with
  | nil =>
      intro buf
      rfl
  | cons chunk chunks ih =>
      intro buf
      cases chunk with
      | error e =>
          rw [receive, onChunk, ih]
          rfl
      | ok bytes =>
          rw [receive, onChunk, drainEvents_eq, ih]
          show _ = (List.filterMap noticeOf (blockCutter.receive buf (bytes :: _)).1,
            (blockCutter.receive buf (bytes :: _)).2)
          rw [Cutter.receive, List.filterMap_append]

/-! ## Blank lines -/

/-- A block: its blank line is the only one, and the end. -/
def Block (block : List UInt8) : Prop :=
  ∃ text, block = text ++ [10, 10] ∧ ¬ [10, 10] <:+: text ++ [10]

theorem position_eq_none {buf : List UInt8} (h : position buf = none) : ¬ [10, 10] <:+: buf := by
  rintro ⟨front, back, rfl⟩
  induction front with
  | nil => simp [position] at h
  | cons a front ih =>
      cases hrest : front ++ [10, 10] ++ back with
      | nil => simp at hrest
      | cons b rest =>
          rw [List.cons_append, List.cons_append, hrest, position] at h
          split at h
          · cases h
          · rw [hrest] at ih
            exact ih (Option.map_eq_none_iff.mp h)

/-- Up to its second newline there is no blank line before the first one. -/
theorem position_take {buf : List UInt8} : ∀ {i : Nat}, position buf = some i →
    position (buf.take (i + 1)) = none ∧ buf.take (i + 2) = buf.take i ++ [10, 10] := by
  induction buf with
  | nil =>
      intro i h
      cases h
  | cons a buf ih =>
      intro i h
      cases buf with
      | nil => cases h
      | cons b rest =>
          rw [position] at h
          split at h
          · rename_i hblank
            rw [← Option.some.inj h, hblank.1, hblank.2]
            exact ⟨rfl, rfl⟩
          · rename_i hblank
            obtain ⟨j, hj, rfl⟩ := Option.map_eq_some_iff.mp h
            obtain ⟨hnone, htake⟩ := ih hj
            rw [List.take_succ_cons] at hnone
            constructor
            · rw [List.take_succ_cons, List.take_succ_cons, position, if_neg hblank, hnone]
              rfl
            · rw [List.take_succ_cons, htake]
              rfl

theorem block_of_cutBlock {buf block rest : List UInt8} (h : cutBlock buf = some (block, rest)) :
    Block block := by
  obtain ⟨i, hi, rfl, -⟩ := cutBlock_eq_some h
  obtain ⟨hnone, htake⟩ := position_take hi
  have hsecond : buf.take i ++ [10] = buf.take (i + 1) := by
    have hcut := congrArg (List.take (i + 1)) htake
    rw [List.take_take, Nat.min_eq_left (by omega)] at hcut
    have hlen : (buf.take i).length = i :=
      List.length_take_of_le (le_trans (by omega) (position_lt hi))
    have hall : (buf.take i).take (i + 1) = buf.take i := List.take_of_length_le (by omega)
    rw [hcut, List.take_append, hall, hlen, Nat.add_sub_cancel_left]
    rfl
  exact ⟨buf.take i, htake, hsecond ▸ position_eq_none hnone⟩

/-- **Framing does not depend on the chunks.** Whatever pieces a stream arrives in, and
reads that fail between them, give the notices and the leftover of one drain of all bytes.
The notices are those of the blocks that are complete, and no blank line is left over. -/
theorem receive_chunks (chunks : List (Except String (List UInt8))) :
    receive [] chunks = drainEvents (arrived chunks) ∧
    ∃ blocks : List (List UInt8), arrived chunks = blocks.flatten ++ (receive [] chunks).2 ∧
      (receive [] chunks).1 = blocks.filterMap noticeOf ∧ (∀ block ∈ blocks, Block block) ∧
      ¬ [10, 10] <:+: (receive [] chunks).2 := by
  have hreceive : receive [] chunks = drainEvents (arrived chunks) := by
    rw [receive_eq, blockCutter.receive_flatten rfl, List.nil_append, drainEvents_eq]
    rfl
  refine ⟨hreceive, (blockCutter.drain (arrived chunks)).1, ?_, ?_, ?_, ?_⟩
  · rw [hreceive, drainEvents_eq, blockCutter.flatten_drain]
  · rw [hreceive, drainEvents_eq]
  · intro block hblock
    obtain ⟨rest, hcut⟩ := blockCutter.cut_of_mem_drain _ block hblock
    exact block_of_cutBlock hcut
  · rw [hreceive, drainEvents_eq]
    have hcut : cutBlock (blockCutter.drain (arrived chunks)).2 = none :=
      blockCutter.cut_drain (arrived chunks)
    exact position_eq_none (Option.map_eq_none_iff.mp hcut)

end Strk20.Client
