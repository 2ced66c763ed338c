import Mathlib.Data.List.Pairwise

/-!
# Labelled runs of state machines

A machine whose steps carry labels (the calls it answers, the messages it sends) is reasoned
about through the labels of its runs. `Trace step s evs s'` holds when the steps labelled `evs`
lead from `s` to `s'`. This module gives the three rules a model of such a machine is proved
with:
- `Trace.induction`: an invariant of a state and the labels that led to it, kept by every step;
- `Trace.pairwise`: labels that each stand in a relation to every earlier label are pairwise
  related, which is how an order on the answers of a whole run is obtained from one step;
- `Trace.project`: a machine whose steps are either silent for another machine or one of its
  steps runs, through a projection of its states and labels, a trace of the other machine.

Nothing here is specific to one program.
-/

namespace Run

section Trace
variable {σ ε : Type} (step : σ → ε → σ → Prop)

/-- The steps labelled `evs` lead from `s` to `s'`. -/
inductive Trace : σ → List ε → σ → Prop where
  | nil (s : σ) : Trace s [] s
  | snoc {s s' s'' : σ} {evs : List ε} {e : ε} :
      Trace s evs s' → step s' e s'' → Trace s (evs ++ [e]) s''

variable {step}

/-- An invariant of a state and of the labels that led to it: it holds of the start with no
labels, and every step keeps it. -/
theorem Trace.induction {I : List ε → σ → Prop} {s : σ} (h0 : I [] s)
    (hstep : ∀ evs s' e s'', I evs s' → step s' e s'' → I (evs ++ [e]) s'')
    {evs : List ε} {s' : σ} (h : Trace step s evs s') : I evs s' := by
  induction h with
  | nil => exact h0
  | snoc _ hs ih => exact hstep _ _ _ _ ih hs

/-- If an invariant holds along a run and every step's label is `R`-after every earlier label
from a state with the invariant, the labels are pairwise `R`. -/
theorem Trace.pairwise {I : List ε → σ → Prop} {R : ε → ε → Prop} {s : σ} (h0 : I [] s)
    (hstep : ∀ evs s' e s'', I evs s' → step s' e s'' → I (evs ++ [e]) s'' ∧ ∀ a ∈ evs, R a e)
    {evs : List ε} {s' : σ} (h : Trace step s evs s') : I evs s' ∧ evs.Pairwise R := by
  induction h with
  | nil => exact ⟨h0, List.Pairwise.nil⟩
  | snoc _ hs ih =>
    obtain ⟨hI, hR⟩ := hstep _ _ _ _ ih.1 hs
    exact ⟨hI, List.pairwise_append.2 ⟨ih.2, List.pairwise_singleton _ _, fun a ha b hb => by
      rw [List.mem_singleton] at hb
      exact hb ▸ hR a ha⟩⟩

/-- A run of one machine projects to a run of another when each step either is silent for the
other (no label, same projected state) or projects to one of its steps. -/
theorem Trace.project {τ δ : Type} {step' : τ → δ → τ → Prop} (f : σ → τ) (g : ε → Option δ)
    (hstep : ∀ s e s', step s e s' →
      (g e = none ∧ f s' = f s) ∨ ∃ d, g e = some d ∧ step' (f s) d (f s'))
    {s s' : σ} {evs : List ε} (h : Trace step s evs s') :
    Trace step' (f s) (evs.filterMap g) (f s') := by
  induction h with
  | nil => exact .nil _
  | snoc _ hs ih =>
    rw [List.filterMap_append]
    rcases hstep _ _ _ hs with ⟨hg, hf⟩ | ⟨d, hg, hd⟩
    · rw [List.filterMap_cons_none hg, List.filterMap_nil, List.append_nil, hf]
      exact ih
    · rw [List.filterMap_cons_some hg, List.filterMap_nil]
      exact .snoc ih hd

/-- A run of one machine is a run of another whose steps it simulates: a step from related
states is matched by a step with the same label to related states. -/
theorem Trace.simulate {τ : Type} {step' : τ → ε → τ → Prop} {rel : σ → τ → Prop}
    (hsim : ∀ s t e s', rel s t → step s e s' → ∃ t', step' t e t' ∧ rel s' t')
    {s s' : σ} {evs : List ε} (h : Trace step s evs s') {t : τ} (ht : rel s t) :
    ∃ t', Trace step' t evs t' ∧ rel s' t' := by
  induction h with
  | nil => exact ⟨t, .nil _, ht⟩
  | snoc _ hs ih =>
    obtain ⟨t₁, h₁, hr₁⟩ := ih
    obtain ⟨t₂, h₂, hr₂⟩ := hsim _ _ _ _ hr₁ hs
    exact ⟨t₂, .snoc h₁ h₂, hr₂⟩

end Trace

end Run
