import Strk20.Foundation.Effect

/-!
# Triples for stateful fallible computations

`Triple pre x post exc`: from a state in `pre`, `x` ends in `post` or fails in a
state of `exc`. The rules follow the combinators a program is written with.
-/

namespace Strk20.Effect

universe u

variable {ε σ α β γ : Type u}

open EStateM (Result)

def Triple (pre : σ → Prop) (x : EStateM ε σ α) (post : α → σ → Prop) (exc : σ → Prop) : Prop :=
  ∀ s, pre s →
    match x s with
    | .ok a s' => post a s'
    | .error _ s' => exc s'

/-- The state a computation ends in, either way. -/
def final : Result ε σ α → σ
  | .ok _ s => s
  | .error _ s => s

namespace Triple

variable {pre pre' exc : σ → Prop} {post post' : α → σ → Prop} {x : EStateM ε σ α}

theorem ok (h : Triple pre x post exc) {s s' : σ} {a : α} (hs : pre s) (hx : x s = .ok a s') :
    post a s' := by
  have := h s hs
  rwa [hx] at this

theorem error (h : Triple pre x post exc) {s s' : σ} {e : ε} (hs : pre s)
    (hx : x s = .error e s') : exc s' := by
  have := h s hs
  rwa [hx] at this

/-- A computation that does not fail. -/
theorem total (h : Triple pre x post fun _ => False) {s : σ} (hs : pre s) :
    ∃ a s', x s = .ok a s' ∧ post a s' := by
  cases hx : x s with
  | ok a s' => exact ⟨a, s', rfl, h.ok hs hx⟩
  | error e s' => exact (h.error hs hx).elim

/-- What holds however it ends. -/
theorem final {P : σ → Prop} (h : Triple pre x (fun _ => P) P) {s : σ} (hs : pre s) :
    P (Effect.final (x s)) := by
  have := h s hs
  cases hx : x s with
  | ok a s' =>
      rw [hx] at this
      exact this
  | error e s' =>
      rw [hx] at this
      exact this

theorem pure {a : α} (h : ∀ s, pre s → post a s) :
    Triple pre (Pure.pure a : EStateM ε σ α) post exc := h

theorem throw {e : ε} (h : ∀ s, pre s → exc s) :
    Triple pre (MonadExcept.throw e : EStateM ε σ α) post exc := h

theorem lift {r : Except ε α} (hok : ∀ a s, r = .ok a → pre s → post a s)
    (herr : ∀ s, pre s → exc s) : Triple pre (Effect.lift r : EStateM ε σ α) post exc := by
  intro s hs
  cases r with
  | ok a => exact hok a s rfl hs
  | error e => exact herr s hs

theorem bind {M : β → σ → Prop} {y : EStateM ε σ β} {f : β → EStateM ε σ α}
    (hy : Triple pre y M exc) (hf : ∀ b, Triple (M b) (f b) post exc) :
    Triple pre (y >>= f) post exc := by
  intro s hs
  cases hys : y s with
  | ok b s' =>
      rw [bind_of_ok hys]
      exact hf b s' (hy.ok hs hys)
  | error e s' =>
      rw [bind_of_error hys]
      exact hy.error hs hys

theorem at_state (h : Triple pre x post exc) {s : σ} (hs : pre s) : Triple (· = s) x post exc := by
  rintro t rfl
  exact h t hs

/-- What follows a computation from a known state may use what it has really come to. -/
theorem bind_ran {M : β → σ → Prop} {y : EStateM ε σ β} {f : β → EStateM ε σ α} {s : σ}
    (hy : Triple pre y M exc) (hs : pre s)
    (hf : ∀ b t, y s = .ok b t → M b t → Triple (· = t) (f b) post exc) :
    Triple (· = s) (y >>= f) post exc := by
  rintro t rfl
  cases hys : y t with
  | ok b u =>
      rw [bind_of_ok hys]
      exact hf b u hys (hy.ok hs hys) u rfl
  | error e u =>
      rw [bind_of_error hys]
      exact hy.error hs hys

/-- What follows a read may use that it was read. -/
theorem get {f : σ → EStateM ε σ α} (h : ∀ t, Triple (fun s => s = t ∧ pre s) (f t) post exc) :
    Triple pre ((MonadState.get : EStateM ε σ σ) >>= f) post exc :=
  fun s hs => h s s ⟨rfl, hs⟩

/-- A read changes nothing. -/
theorem read {f : σ → EStateM ε σ α} (h : ∀ t, Triple pre (f t) post exc) :
    Triple pre ((MonadState.get : EStateM ε σ σ) >>= f) post exc :=
  fun s hs => h s s hs

/-- A fact in the precondition that is not about the state. -/
theorem of_and {p : Prop} (h : p → Triple pre x post exc) :
    Triple (fun s => p ∧ pre s) x post exc :=
  fun s hs => h hs.1 s hs.2

theorem of_exists {ι : Type u} {pre : ι → σ → Prop} (h : ∀ i, Triple (pre i) x post exc) :
    Triple (fun s => ∃ i, pre i s) x post exc := by
  rintro s ⟨i, hs⟩
  exact h i s hs

theorem and (h : Triple pre x post exc) (h' : Triple pre' x post' exc) :
    Triple (fun s => pre s ∧ pre' s) x (fun a s => post a s ∧ post' a s) exc := by
  rintro s ⟨hs, hs'⟩
  cases hx : x s with
  | ok a s' => exact ⟨h.ok hs hx, h'.ok hs' hx⟩
  | error e s' => exact h.error hs hx

theorem both {exc' : σ → Prop} (h : Triple pre x post exc) (h' : Triple pre' x post' exc') :
    Triple (fun s => pre s ∧ pre' s) x (fun a s => post a s ∧ post' a s)
      (fun s => exc s ∧ exc' s) := by
  rintro s ⟨hs, hs'⟩
  cases hx : x s with
  | ok a s' => exact ⟨h.ok hs hx, h'.ok hs' hx⟩
  | error e s' => exact ⟨h.error hs hx, h'.error hs' hx⟩

theorem weaken (h : Triple pre' x post' exc) (hpre : ∀ s, pre s → pre' s)
    (hpost : ∀ a s, post' a s → post a s) : Triple pre x post exc := by
  intro s hs
  cases hx : x s with
  | ok a s' => exact hpost a s' (h.ok (hpre s hs) hx)
  | error e s' => exact h.error (hpre s hs) hx

theorem entails (hpre : ∀ s, pre s → pre' s) (h : Triple pre' x post exc) : Triple pre x post exc :=
  h.weaken hpre fun _ _ h => h

theorem relax {P : σ → Prop} (h : Triple pre x post exc) (hexc : ∀ s, exc s → P s) :
    Triple pre x post P := by
  intro s hs
  cases hx : x s with
  | ok a s' => exact h.ok hs hx
  | error e s' => exact hexc s' (h.error hs hx)

/-- A second triple that says nothing of a failure. -/
theorem also (h : Triple pre x post exc) (h' : Triple pre' x post' fun _ => True) :
    Triple (fun s => pre s ∧ pre' s) x (fun a s => post a s ∧ post' a s) exc :=
  (h.both h').relax fun _ hs => hs.1

theorem ite {c : Prop} [Decidable c] {y : EStateM ε σ α}
    (hx : c → Triple pre x post exc) (hy : ¬ c → Triple pre y post exc) :
    Triple pre (if c then x else y) post exc := by
  by_cases hc : c
  · rw [if_pos hc]
    exact hx hc
  · rw [if_neg hc]
    exact hy hc

/-- A loop keeps what every round keeps. -/
theorem forM {f : γ → EStateM ε σ PUnit} {inv : σ → Prop} :
    ∀ {xs : List γ}, (∀ a ∈ xs, Triple inv (f a) (fun _ => inv) exc) →
      Triple inv (xs.forM f) (fun _ => inv) exc
  | [], _ => Triple.pure fun _ hs => hs
  | a :: xs, h => by
      obtain ⟨ha, hxs⟩ := List.forall_mem_cons.mp h
      exact Triple.bind ha fun _ => Triple.forM hxs

/-- The same with results. -/
theorem mapM_mem {f : γ → EStateM ε σ β} {inv : σ → Prop} :
    ∀ {xs : List γ}, (∀ a ∈ xs, Triple inv (f a) (fun _ => inv) exc) →
      Triple inv (xs.mapM f) (fun _ => inv) exc
  | [], _ => by
      rw [List.mapM_nil]
      exact Triple.pure fun _ hs => hs
  | a :: xs, h => by
      obtain ⟨ha, hxs⟩ := List.forall_mem_cons.mp h
      rw [List.mapM_cons]
      refine Triple.bind ha fun b => Triple.bind (Triple.mapM_mem hxs) fun bs => ?_
      exact Triple.pure fun _ hs => hs

/-- A loop over a list, one result for each element. -/
theorem mapM {f : γ → EStateM ε σ β} {inv : σ → Prop} {R : γ → β → Prop}
    (h : ∀ a, Triple inv (f a) (fun b s => R a b ∧ inv s) exc) :
    ∀ xs : List γ, Triple inv (xs.mapM f) (fun bs s => List.Forall₂ R xs bs ∧ inv s) exc
  | [] => by
      rw [List.mapM_nil]
      exact Triple.pure fun _ hs => ⟨List.Forall₂.nil, hs⟩
  | a :: xs => by
      rw [List.mapM_cons]
      refine Triple.bind (h a) fun b => Triple.of_and fun hb => ?_
      refine Triple.bind (Triple.mapM h xs) fun bs => Triple.of_and fun hbs => ?_
      exact Triple.pure fun _ hs => ⟨List.Forall₂.cons hb hbs, hs⟩

/-- A loop in steps of `w` up to `top`, the last one cut off there. -/
theorem mapM_steps {f : Nat → EStateM ε σ β} {I : Nat → σ → Prop} {w top : Nat} (hw : 0 < w)
    (h : ∀ s, s ≤ top → Triple (I s) (f s) (fun _ => I (min (s + (w - 1)) top + 1)) exc) :
    ∀ k s, s ≤ top + 1 → (top + 1 - s + (w - 1)) / w = k →
      Triple (I s) ((List.range' s k w).mapM f) (fun _ => I (top + 1)) exc
  | 0, s, hs, hk => by
      have hend : s = top + 1 := by
        rcases Nat.div_eq_zero_iff.mp hk with hzero | hless <;> omega
      rw [List.range'_zero, List.mapM_nil, hend]
      exact Triple.pure fun _ h => h
  | k + 1, s, hs, hk => by
      have hlt : s ≤ top := by
        by_contra hgt
        rw [show top + 1 - s = 0 by omega, Nat.zero_add, Nat.div_eq_of_lt (by omega)] at hk
        cases hk
      rw [List.range'_succ, List.mapM_cons]
      refine Triple.bind (h s hlt) fun b => ?_
      refine Triple.bind (M := fun _ => I (top + 1)) ?_ fun bs => Triple.pure fun _ hs => hs
      by_cases hmore : s + w ≤ top + 1
      · rw [show min (s + (w - 1)) top + 1 = s + w by omega]
        refine Triple.mapM_steps hw h k (s + w) hmore ?_
        have hsplit : top + 1 - s + (w - 1) = (top + 1 - (s + w) + (w - 1)) + w := by omega
        rw [hsplit, Nat.add_div_right _ hw] at hk
        exact Nat.succ_inj.mp hk
      · have hone : k = 0 := by
          have hdiv : (top + 1 - s + (w - 1)) / w < 2 := Nat.div_lt_of_lt_mul (by omega)
          omega
        rw [show min (s + (w - 1)) top + 1 = top + 1 by omega, hone, List.range'_zero,
          List.mapM_nil]
        exact Triple.pure fun _ h => h

end Triple

end Strk20.Effect
