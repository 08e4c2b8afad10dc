import Mathlib.Data.List.Basic

/-!
# Fallible computations

Inversion rules for `Except`: what a successful bind, guard or fold has gone
through. A proof about a monadic function peels it apart with these and never
unfolds the monad.
-/

namespace Strk20.Result

universe u v w

variable {ε : Type u} {α β : Type v}

theorem bind_eq_ok {x : Except ε α} {f : α → Except ε β} {b : β} :
    x >>= f = .ok b ↔ ∃ a, x = .ok a ∧ f a = .ok b := by
  cases x with
  | error e => simp [bind, Except.bind]
  | ok a => simp [bind, Except.bind]

/-- A guard that was passed: the refused condition does not hold. -/
theorem ite_error_eq_ok {c : Prop} [Decidable c] {e : ε} {x : Except ε α} {a : α} :
    (if c then .error e else x) = .ok a ↔ ¬ c ∧ x = .ok a := by
  by_cases hc : c <;> simp [hc]

theorem ite_throw_eq_ok {c : Prop} [Decidable c] {e : ε} {x : Except ε α} {a : α} :
    (if c then throw e else x) = .ok a ↔ ¬ c ∧ x = .ok a :=
  ite_error_eq_ok

theorem mapError_eq_ok {ε' : Type w} {f : ε → ε'} {x : Except ε α} {a : α} :
    x.mapError f = .ok a ↔ x = .ok a := by
  cases x <;> simp [Except.mapError]

theorem pure_eq_ok {a b : α} : (pure a : Except ε α) = .ok b ↔ a = b := by
  simp [pure, Except.pure]

/-- Everything a successful `mapM` returns comes from some element. -/
theorem mem_of_mapM_ok {γ : Type v} {f : γ → Except ε α} : ∀ {l : List γ} {r : List α},
    l.mapM f = .ok r → ∀ a ∈ r, ∃ c ∈ l, f c = .ok a
  | [], r, h, a, ha => by
      rw [List.mapM_nil, pure_eq_ok] at h
      rw [← h] at ha
      cases ha
  | c :: l, r, h, a, ha => by
      rw [List.mapM_cons] at h
      obtain ⟨x, hx, h⟩ := bind_eq_ok.mp h
      obtain ⟨xs, hxs, h⟩ := bind_eq_ok.mp h
      obtain rfl := pure_eq_ok.mp h
      rcases List.mem_cons.mp ha with rfl | ha
      · exact ⟨c, List.mem_cons_self, hx⟩
      · obtain ⟨d, hd, hfd⟩ := mem_of_mapM_ok hxs a ha
        exact ⟨d, List.mem_cons_of_mem _ hd, hfd⟩

/-- A `mapM` whose every element succeeds, and what it returns. -/
theorem exists_mapM_ok {γ : Type v} {f : γ → Except ε α} : ∀ {l : List γ},
    (∀ c ∈ l, ∃ a, f c = .ok a) → ∃ r, l.mapM f = .ok r ∧ ∀ c ∈ l, ∀ a, f c = .ok a → a ∈ r
  | [], _ => ⟨[], rfl, fun _ hc => by cases hc⟩
  | c :: l, h => by
      obtain ⟨x, hx⟩ := h c List.mem_cons_self
      obtain ⟨xs, hxs, hall⟩ := exists_mapM_ok fun d hd => h d (List.mem_cons_of_mem _ hd)
      refine ⟨x :: xs, ?_, fun d hd a ha => ?_⟩
      · rw [List.mapM_cons]
        exact bind_eq_ok.mpr ⟨x, hx, bind_eq_ok.mpr ⟨xs, hxs, rfl⟩⟩
      · rcases List.mem_cons.mp hd with rfl | hd
        · rw [Except.ok.inj (ha.symm.trans hx)]
          exact List.mem_cons_self
        · exact List.mem_cons_of_mem _ (hall d hd a ha)

theorem length_of_mapM_ok {γ : Type v} {f : γ → Except ε α} : ∀ {l : List γ} {r : List α},
    l.mapM f = .ok r → r.length = l.length
  | [], r, h => by
      rw [List.mapM_nil, pure_eq_ok] at h
      rw [← h]
      rfl
  | c :: l, r, h => by
      rw [List.mapM_cons] at h
      obtain ⟨x, -, h⟩ := bind_eq_ok.mp h
      obtain ⟨xs, hxs, h⟩ := bind_eq_ok.mp h
      obtain rfl := pure_eq_ok.mp h
      rw [List.length_cons, List.length_cons, length_of_mapM_ok hxs]

/-- Whatever every successful step keeps, a successful fold keeps. -/
theorem foldlM_ok_inv {σ : Type v} {γ : Type w} {f : σ → γ → Except ε σ} {I : σ → Prop} :
    ∀ {l : List γ} {s t : σ}, l.foldlM f s = .ok t → I s →
      (∀ s a s', a ∈ l → I s → f s a = .ok s' → I s') → I t
  | [], s, t, h, hs, _ => by
      rw [List.foldlM_nil, pure_eq_ok] at h
      exact h ▸ hs
  | a :: l, s, t, h, hs, hstep => by
      rw [List.foldlM_cons, bind_eq_ok] at h
      obtain ⟨s', hs', hrest⟩ := h
      exact foldlM_ok_inv hrest (hstep s a s' List.mem_cons_self hs hs')
        fun s a s' ha => hstep s a s' (List.mem_cons_of_mem _ ha)

end Strk20.Result
