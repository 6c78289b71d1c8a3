import Mathlib

/-! Systems whose parts take their steps in any order. A run is recorded as its events, each of them
with the state in which it happens. -/
namespace Interleaving

section Runs
variable {σ ε : Type}

/-- Events one after another. -/
inductive Run (step : σ → ε → σ → Prop) (s : σ) : List (σ × ε) → σ → Prop
  | start : Run step s [] s
  | next {trace : List (σ × ε)} {t u : σ} (e : ε) : Run step s trace t → step t e u →
      Run step s (trace ++ [(t, e)]) u

variable {step : σ → ε → σ → Prop} {s t u : σ} {trace trace' : List (σ × ε)}

/-- What every step keeps holds at the end of a run. -/
theorem Run.invariant {P : List (σ × ε) → σ → Prop} (h : Run step s trace t) (h0 : P [] s)
    (hstep : ∀ trace t e u, P trace t → step t e u → P (trace ++ [(t, e)]) u) : P trace t := by
  induction h with
  | start => exact h0
  | next e _ he ih => exact hstep _ _ e _ ih he

theorem Run.append (h : Run step s trace t) (k : Run step t trace' u) :
    Run step s (trace ++ trace') u := by
  induction k with
  | start => rwa [List.append_nil]
  | next e _ he ih =>
    rw [← List.append_assoc]
    exact ih.next e he

theorem Run.single {e : ε} (he : step s e t) : Run step s [(s, e)] t := Run.start.next e he

theorem Run.mono {step' : σ → ε → σ → Prop} (h : Run step s trace t)
    (hsub : ∀ a e b, step a e b → step' a e b) : Run step' s trace t := by
  induction h with
  | start => exact .start
  | next e _ he ih => exact ih.next e (hsub _ _ _ he)

/-- A run whose steps all lower a rank is not longer than the rank it starts with. -/
theorem Run.length_le (P : σ → Prop) (rank : σ → ℕ) (h : Run step s trace t) (h0 : P s)
    (hstep : ∀ a e b, P a → step a e b → P b ∧ rank b < rank a) :
    trace.length + rank t ≤ rank s := by
  have hrun : P t ∧ trace.length + rank t ≤ rank s := by
    induction h with
    | start => exact ⟨h0, by simp⟩
    | next e _ he ih =>
      obtain ⟨hP, hlt⟩ := hstep _ e _ ih.1 he
      refine ⟨hP, ?_⟩
      rw [List.length_append, List.length_singleton]
      omega
  exact hrun.2

end Runs

section Threads
variable {α β : Type} {threads : List α} {i : ℕ} {a : α}

/-- One thread, apart from the others. -/
theorem exists_others (h : threads[i]? = some a) :
    ∃ others, threads.Perm (a :: others) ∧ ∀ b, (threads.set i b).Perm (b :: others) := by
  obtain ⟨hi, rfl⟩ := List.getElem?_eq_some_iff.mp h
  exact ⟨threads.eraseIdx i, (List.getElem_cons_eraseIdx_perm hi).symm,
    fun b => List.set_perm_cons_eraseIdx hi b⟩

/-- A thread goes from `a` to `b`: what is summed up over all threads changes by the difference. -/
theorem sum_move (h : threads[i]? = some a) (b : α) (f : α → ℕ) :
    ((threads.set i b).map f).sum+f a = (threads.map f).sum+f b := by
  obtain ⟨others, hperm, hset⟩ := exists_others h
  have hbefore := (hperm.map f).sum_eq
  have hafter := ((hset b).map f).sum_eq
  rw [List.map_cons, List.sum_cons] at hbefore hafter
  omega

end Threads

end Interleaving
