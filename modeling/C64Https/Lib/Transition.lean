import Mathlib.Tactic

/-!
# Transition — reachable states of a transition system and their invariants
-/

namespace C64Https
namespace Transition

universe u

variable {σ : Type u}

/-- The states reached from an initial one by any number of steps. -/
inductive Reachable (init : σ → Prop) (step : σ → σ → Prop) : σ → Prop where
  | start {s : σ} : init s → Reachable init step s
  | next {s s' : σ} : Reachable init step s → step s s' → Reachable init step s'

/-- An invariant of the initial states that every step keeps holds in every reachable state. -/
theorem Reachable.invariant {init : σ → Prop} {step : σ → σ → Prop} (I : σ → Prop)
    (hinit : ∀ s, init s → I s) (hstep : ∀ s s', I s → step s s' → I s') {s : σ}
    (h : Reachable init step s) : I s := by
  induction h with
  | start h₀ =>
      exact hinit _ h₀
  | next _ hs ih =>
      exact hstep _ _ ih hs

end Transition
end C64Https
