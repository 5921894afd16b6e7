import Mathlib.Tactic

/-!
# Simulation between machines

A machine is a step function, and a run of it a list of actions. One machine
simulates another one if each of its steps is answered by some steps of the
other, none of them or several, that keep the two states related. Then each of
its runs looks like a run of the other.

Often the state of the other machine is a `view` of the first one's, which keeps
an invariant of its own; `Through` is the relation then.
-/

def Simulates {σ τ α β : Type} (step : σ → α → σ) (step' : τ → β → τ) (R : σ → τ → Prop) : Prop :=
  ∀ s t a, R s t → ∃ actions : List β, R (step s a) (actions.foldl step' t)

def Through {σ τ : Type} (Inv : σ → Prop) (view : σ → τ) (s : σ) (t : τ) : Prop :=
  Inv s ∧ view s = t

namespace Simulates

variable {σ τ α β : Type} {step : σ → α → σ} {step' : τ → β → τ} {R : σ → τ → Prop}
  {Inv : σ → Prop} {view : σ → τ} {s : σ} {t : τ}

theorem run (h : Simulates step step' R) (hs : R s t) (actions : List α) :
    ∃ actions' : List β, R (actions.foldl step s) (actions'.foldl step' t) := by
  induction actions using List.reverseRecOn with
  | nil => exact ⟨[], hs⟩
  | append_singleton actions a ih =>
    obtain ⟨actions', hrun⟩ := ih
    obtain ⟨more, hstep⟩ := h _ _ a hrun
    refine ⟨actions' ++ more, ?_⟩
    rw [List.foldl_append, List.foldl_append]
    exact hstep

theorem through (hkeeps : ∀ s a, Inv s → Inv (step s a))
    (hmatched : ∀ s a, Inv s → ∃ actions : List β, view (step s a) = actions.foldl step' (view s)) :
    Simulates step step' (Through Inv view) := by
  rintro s _ a ⟨hs, rfl⟩
  obtain ⟨actions, hview⟩ := hmatched s a hs
  exact ⟨actions, hkeeps s a hs, hview⟩

theorem invariant (h : Simulates step step' (Through Inv view)) (hs : Inv s) (actions : List α) :
    Inv (actions.foldl step s) := by
  obtain ⟨_, hlast, -⟩ := h.run ⟨hs, rfl⟩ actions
  exact hlast

theorem view_run (h : Simulates step step' (Through Inv view)) (hs : Inv s) (actions : List α) :
    ∃ actions' : List β, view (actions.foldl step s) = actions'.foldl step' (view s) := by
  obtain ⟨actions', -, hview⟩ := h.run ⟨hs, rfl⟩ actions
  exact ⟨actions', hview⟩

end Simulates
