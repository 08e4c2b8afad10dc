import Mathlib.Data.List.Basic

/-!
# Frames of a stream

A `Cutter` takes the first frame off a buffer, and takes the same one when more has arrived
behind it. Taking frames until there is none left then does not depend on the pieces a
stream arrives in (`drain_append`, `receive_flatten`).
-/

namespace Strk20

structure Cutter (α : Type) where
  cut : List α → Option (List α × List α)
  whole : ∀ {buf frame rest : List α}, cut buf = some (frame, rest) → buf = frame ++ rest
  shorter : ∀ {buf frame rest : List α}, cut buf = some (frame, rest) → rest.length < buf.length
  stable : ∀ {buf frame rest : List α} (more : List α),
    cut buf = some (frame, rest) → cut (buf ++ more) = some (frame, rest ++ more)

namespace Cutter

variable {α : Type} (C : Cutter α)

/-- The frames of a buffer and what is left behind them. -/
def drain (buf : List α) : List (List α) × List α :=
  match _h : C.cut buf with
  | none => ([], buf)
  | some (frame, rest) => (frame :: (drain rest).1, (drain rest).2)
termination_by buf.length
decreasing_by all_goals exact C.shorter _h

theorem drain_of_none {buf : List α} (h : C.cut buf = none) : C.drain buf = ([], buf) := by
  rw [drain]
  split
  · rfl
  · rename_i heq
    rw [h] at heq
    cases heq

theorem drain_of_some {buf frame rest : List α} (h : C.cut buf = some (frame, rest)) :
    C.drain buf = (frame :: (C.drain rest).1, (C.drain rest).2) := by
  rw [drain]
  split
  · rename_i heq
    rw [h] at heq
    cases heq
  · rename_i heq
    rw [h] at heq
    cases heq
    rfl

/-- To show something of every buffer: where nothing can be cut, and where a frame is cut
off a buffer whose rest has it. -/
theorem drain_induction {P : List α → Prop} (hnone : ∀ {buf : List α}, C.cut buf = none → P buf)
    (hsome : ∀ {buf frame rest : List α}, C.cut buf = some (frame, rest) → P rest → P buf)
    (buf : List α) : P buf := by
  induction hn : buf.length using Nat.strongRecOn generalizing buf with
  | _ n ih =>
      cases hcut : C.cut buf with
      | none => exact hnone hcut
      | some parts => exact hsome hcut (ih _ (hn ▸ C.shorter hcut) parts.2 rfl)

/-- Nothing can be cut off what is left. -/
theorem cut_drain (buf : List α) : C.cut (C.drain buf).2 = none := by
  induction buf using C.drain_induction with
  | hnone h =>
      rw [C.drain_of_none h]
      exact h
  | hsome h ih =>
      rw [C.drain_of_some h]
      exact ih

theorem flatten_drain (buf : List α) : (C.drain buf).1.flatten ++ (C.drain buf).2 = buf := by
  induction buf using C.drain_induction with
  | hnone h => rw [C.drain_of_none h, List.flatten_nil, List.nil_append]
  | hsome h ih => rw [C.drain_of_some h, List.flatten_cons, List.append_assoc, ih, C.whole h]

theorem cut_of_mem_drain (buf : List α) :
    ∀ frame ∈ (C.drain buf).1, ∃ rest, C.cut (frame ++ rest) = some (frame, rest) := by
  induction buf using C.drain_induction with
  | hnone h =>
      intro frame hframe
      rw [C.drain_of_none h] at hframe
      cases hframe
  | @hsome buf first rest h ih =>
      intro frame hframe
      rw [C.drain_of_some h] at hframe
      rcases List.mem_cons.mp hframe with rfl | hframe
      · exact ⟨rest, C.whole h ▸ h⟩
      · exact ih frame hframe

/-- What is left waits for what arrives next. -/
theorem drain_append (buf more : List α) :
    C.drain (buf ++ more) = ((C.drain buf).1 ++ (C.drain ((C.drain buf).2 ++ more)).1,
      (C.drain ((C.drain buf).2 ++ more)).2) := by
  induction buf using C.drain_induction with
  | hnone h => rw [C.drain_of_none h, List.nil_append]
  | hsome h ih =>
      rw [C.drain_of_some (C.stable more h), ih, C.drain_of_some h]
      rfl

/-- The frames taken as each chunk arrives, and what is left in the end. -/
def receive : List α → List (List α) → List (List α) × List α
  | buf, [] => ([], buf)
  | buf, chunk :: chunks =>
      let taken := C.drain (buf ++ chunk)
      let later := receive taken.2 chunks
      (taken.1 ++ later.1, later.2)

theorem receive_flatten {chunks : List (List α)} : ∀ {buf : List α}, C.cut buf = none →
    C.receive buf chunks = C.drain (buf ++ chunks.flatten) := by
  induction chunks with
  | nil =>
      intro buf h
      rw [List.flatten_nil, List.append_nil, C.drain_of_none h]
      rfl
  | cons chunk chunks ih =>
      intro buf _
      rw [receive, ih (C.cut_drain (buf ++ chunk)), List.flatten_cons, ← List.append_assoc,
        C.drain_append (buf ++ chunk)]

end Cutter

end Strk20
