import Strk20.Consumer.Observe

/-!
# Where the in-memory store panics (`mem.rs`)

`BTreeMap::range` panics on a start above the end in a map that has a root. `Roots` says
which of the two maps asked for ranges have one and follows it through every operation;
an operation panics exactly where it asks such a map for a turned-around range.
-/

namespace Strk20.Consumer

open Feed Versioned Tables
open Result (bind_eq_ok pure_eq_ok)

/-- Which of the two maps that are asked for ranges have a root. -/
structure Roots where
  blocks : Bool
  events : Bool
deriving DecidableEq

/-- The start of a range lies above its end. -/
def Range.turned (r : Range) : Bool := (MemStore.bounds r).2 < (MemStore.bounds r).1

namespace Roots

/-- The operations that ask a map with a root for a turned-around range. -/
def panics (r : Roots) : StoreOp → Bool
  | .blockHashes range => range.turned && r.blocks
  | .getEvents v _ fromBlock toBlock =>
      v.historyFloor ≤ fromBlock.num 0 && min (toBlock.num v.bound) v.bound < fromBlock.num 0 &&
        r.events
  | .replaceRange range _ _ _ => range.turned && (r.blocks || r.events)
  | _ => false

/-- The roots after an operation. -/
def after (r : Roots) : StoreOp → Roots
  | .resetMirror => ⟨false, false⟩
  | .replaceRange range blocks writes bump =>
      if r.panics (.replaceRange range blocks writes bump) then r
      else ⟨r.blocks || !blocks.isEmpty, r.events || blocks.any fun b => !b.1.events.isEmpty⟩
  | _ => r

/-- Two stores with these roots panic at the same operations of a sequence. -/
def PanicAlike (r r' : Roots) : List StoreOp → Prop
  | [] => True
  | op :: ops => r.panics op = r'.panics op ∧ PanicAlike (r.after op) (r'.after op) ops

theorem PanicAlike.refl (ops : List StoreOp) : ∀ r : Roots, r.PanicAlike r ops := by
  induction ops with
  | nil =>
      intro r
      trivial
  | cons op ops ih =>
      intro r
      exact ⟨rfl, ih (r.after op)⟩

end Roots

namespace MemStore

variable {pedersen : Felt → Felt → Felt}

def roots (s : MemStore pedersen) : Roots := ⟨s.blocksRoot, s.eventsRoot⟩

theorem clearRange_panics (s : MemStore pedersen) (r : Range) :
    s.clearRange r = .error .panicked ↔ (r.turned && (s.blocksRoot || s.eventsRoot)) = true := by
  simp only [clearRange, Range.turned, Bool.and_eq_true, decide_eq_true_eq]
  split
  · rename_i hpanic
    exact iff_of_true rfl hpanic
  · rename_i hquiet
    exact iff_of_false (by intro heq; cases heq) hquiet

theorem getEvents_panics (s : MemStore pedersen) (v : View) (filters : List (List Felt))
    (fromBlock toBlock : BlockId) :
    v.getEvents s filters fromBlock toBlock = .error .panicked ↔
      s.roots.panics (.getEvents v filters fromBlock toBlock) = true := by
  simp only [Roots.panics, roots, Bool.and_eq_true, decide_eq_true_eq]
  by_cases hfloor : v.historyFloor ≤ fromBlock.num 0
  · rw [View.getEvents_of_le hfloor]
    by_cases hpanic : min (toBlock.num v.bound) v.bound < fromBlock.num 0 ∧ s.eventsRoot = true
    · have hrows : ConsumerStore.eventRows s (fromBlock.num 0) (min (toBlock.num v.bound) v.bound) =
          .error .panicked := if_pos hpanic
      rw [hrows]
      exact iff_of_true rfl ⟨⟨hfloor, hpanic.1⟩, hpanic.2⟩
    · obtain ⟨rows, hrows⟩ : ∃ rows, ConsumerStore.eventRows s (fromBlock.num 0)
          (min (toBlock.num v.bound) v.bound) = .ok rows := ⟨_, if_neg hpanic⟩
      rw [hrows]
      refine iff_of_false ?_ fun h => hpanic ⟨h.1.2, h.2⟩
      intro heq
      cases heq
  · rw [View.getEvents, if_pos (Nat.not_le.mp hfloor)]
    refine iff_of_false ?_ fun h => hfloor h.1.1
    intro heq
    cases heq

end MemStore

end Strk20.Consumer
