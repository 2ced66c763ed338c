import Mathlib.Logic.Relation

/-!
# Runs of state machines and of monadic loops

Two induction rules a model of stateful code is proved with. `Reachable init step` holds of the
states a machine reaches from its initial ones by any finite number of steps, and
`Reachable.induction` turns "the initial states have a property and every step keeps it" into
"every reachable state has it". For loops written as a left fold in a state monad over `Option`
(the `Option` standing for a panic), `foldlM_range_run_inv` does the same for the accumulator of
a loop over `0, …, n - 1`: what each pass advances holds after every run that does not panic.
Nothing here is specific to one program.
-/

namespace Run

/-! ## Reachable states -/

section Reachable
variable {σ : Type} (init : σ → Prop) (step : σ → σ → Prop)

/-- The states reached from an initial state by finitely many steps. -/
inductive Reachable : σ → Prop where
  | init {s : σ} : init s → Reachable s
  | step {s s' : σ} : Reachable s → step s s' → Reachable s'

variable {init step}

/-- An invariant: it holds initially and every step keeps it, so every reachable state has it. -/
theorem Reachable.induction {I : σ → Prop} (hinit : ∀ s, init s → I s)
    (hstep : ∀ s s', I s → step s s' → I s') {s : σ} (h : Reachable init step s) : I s := by
  induction h with
  | init hs => exact hinit _ hs
  | step _ hs ih => exact hstep _ _ ih hs

/-- A step from a reachable state reaches a state. -/
theorem Reachable.tail {s s' : σ} (h : Reachable init step s) (hs : step s s') :
    Reachable init step s' :=
  .step h hs

/-- A machine whose steps are among another's reaches only states the other reaches. -/
theorem Reachable.mono {step' : σ → σ → Prop} (hstep : ∀ s s', step s s' → step' s s') {s : σ}
    (h : Reachable init step s) : Reachable init step' s :=
  Reachable.induction (fun _ hs => .init hs) (fun _ _ hs hst => .step hs (hstep _ _ hst)) h

end Reachable

/-! ## Loops in a state monad over `Option` -/

section Loops
variable {σ β : Type}

/-- A loop over `0, 1, …, n - 1`: an invariant indexed by the number of passes done, that each pass
advances by one, holds after all `n` passes whenever the loop does not fail. -/
theorem foldlM_range_run_inv {f : β → Nat → StateT σ Option β} {P : Nat → β → Prop} :
    ∀ {n : Nat}, (∀ k < n, ∀ b s b' s', P k b → (f b k).run s = some (b', s') → P (k + 1) b') →
      ∀ {b : β} {s : σ} {b' : β} {s' : σ}, P 0 b →
        ((List.range n).foldlM f b).run s = some (b', s') → P n b'
  | 0, _, _, _, _, _, hb, h => by
    simp only [List.range_zero, List.foldlM_nil, StateT.run_pure, Option.pure_def,
      Option.some.injEq, Prod.mk.injEq] at h
    exact h.1 ▸ hb
  | n + 1, hstep, b, s, b', s', hb, h => by
    simp only [List.range_succ, List.foldlM_append, List.foldlM_cons, List.foldlM_nil,
      StateT.run_bind] at h
    obtain ⟨⟨b₁, s₁⟩, h₁, h₂⟩ := Option.bind_eq_some_iff.1 h
    obtain ⟨⟨b₂, s₂⟩, h₃, h₄⟩ := Option.bind_eq_some_iff.1 h₂
    simp only [StateT.run_pure, Option.pure_def, Option.some.injEq, Prod.mk.injEq] at h₄
    obtain ⟨rfl, rfl⟩ := h₄
    have hn : P n b₁ := foldlM_range_run_inv (fun k hk => hstep k (Nat.lt_succ_of_lt hk)) hb h₁
    exact hstep n (Nat.lt_succ_self n) b₁ s₁ b₂ s₂ hn h₃

end Loops

end Run
