import C64Https.Lib.Loop

/-!
# Fallible — routines that return success in a flag

A routine of an assembly program changes the state and returns a flag; the next routine runs only
if the flag says success.  `Routine` is such a step, with `none` for a run that never returns, and
`Routine.next` the sequencing.  `Triple P f Q X` says of a routine started in `P` that it succeeds
into `Q` and fails into `X`, if it returns.
-/

namespace C64Https
namespace Fallible

open Loop

universe u

variable {σ : Type u}

/-- From a state to the state after and the flag (`true` for success), if the routine returns. -/
abbrev Routine (σ : Type u) : Type u :=
  σ → Option (σ × Bool)

namespace Routine

/-- A step that cannot fail. -/
def pure (f : σ → σ) : Routine σ :=
  fun s => some (f s, true)

/-- Run the second routine if the first one succeeds. -/
def next (f g : Routine σ) : Routine σ := fun s =>
  match f s with
  | some (s', true) => g s'
  | some (s', false) => some (s', false)
  | none => none

/-- What is done on the way out of a failure. -/
def onFail (f : Routine σ) (h : σ → σ) : Routine σ := fun s =>
  match f s with
  | some (s', false) => some (h s', false)
  | x => x

theorem next_of_none {f g : Routine σ} {s : σ} (h : f s = none) : f.next g s = none := by
  unfold next
  rw [h]

theorem next_of_success {f g : Routine σ} {s t : σ} (h : f s = some (t, true)) :
    f.next g s = g t := by
  unfold next
  rw [h]

theorem next_of_failure {f g : Routine σ} {s t : σ} (h : f s = some (t, false)) :
    f.next g s = some (t, false) := by
  unfold next
  rw [h]

theorem next_assoc (f g h : Routine σ) : (f.next g).next h = f.next (g.next h) := by
  funext s
  cases hf : f s with
  | none => rw [next_of_none hf, next_of_none (next_of_none hf)]
  | some r =>
      rcases r with ⟨t, flag⟩
      cases flag with
      | true =>
          rw [next_of_success hf]
          unfold next
          rw [hf]
      | false => rw [next_of_failure hf, next_of_failure (next_of_failure hf)]

/-- Success of a sequence, taken apart. -/
theorem next_success {f g : Routine σ} {s s' : σ} (h : f.next g s = some (s', true)) :
    ∃ t, f s = some (t, true) ∧ g t = some (s', true) := by
  unfold next at h
  cases hf : f s with
  | none =>
      rw [hf] at h
      cases h
  | some r =>
      rcases r with ⟨t, flag⟩
      rw [hf] at h
      cases flag with
      | true => exact ⟨t, rfl, h⟩
      | false => cases h

theorem onFail_of_failure {f : Routine σ} {h : σ → σ} {s t : σ} (hf : f s = some (t, false)) :
    f.onFail h s = some (h t, false) := by
  unfold onFail
  rw [hf]

theorem onFail_of_none {f : Routine σ} {h : σ → σ} {s : σ} (hf : f s = none) :
    f.onFail h s = none := by
  unfold onFail
  rw [hf]

theorem onFail_success {f : Routine σ} {h : σ → σ} {s s' : σ}
    (hr : f.onFail h s = some (s', true)) : f s = some (s', true) := by
  unfold onFail at hr
  cases hf : f s with
  | none =>
      rw [hf] at hr
      cases hr
  | some r =>
      rcases r with ⟨t, flag⟩
      rw [hf] at hr
      cases flag with
      | true => exact hr
      | false => cases hr

end Routine

/-! ## What a run comes to -/

/-- If the run succeeds, it does so in `Q`. -/
def Lands (Q : σ → Prop) (r : Option (σ × Bool)) : Prop :=
  ∀ s, r = some (s, true) → Q s

section Lands

variable {Q : σ → Prop}

theorem lands_none (Q : σ → Prop) : Lands Q none := by
  intro s h
  cases h

theorem lands_fail (Q : σ → Prop) (s : σ) : Lands Q (some (s, false)) := by
  intro s' h
  cases h

theorem lands_success {s : σ} (h : Q s) : Lands Q (some (s, true)) := by
  intro s' hs
  cases hs
  exact h

/-- A loop whose turns leave with the outcome of a whole routine. -/
theorem loop_lands {τ : Type*} {turn : τ → Turn τ (Option (σ × Bool))} (I : τ → Prop)
    (hturn : ∀ x, I x → (turn x).Post I (Lands Q)) {n : Nat} {x : τ} {s : σ} (hx : I x)
    (hr : (loop turn n x).join = some (s, true)) : Q s :=
  loop_rule I (Lands Q) hturn n x _ hx (Option.join_eq_some_iff.1 hr) s rfl

end Lands

/-- If the run returns, it does so in `Q` or in `X`, by its flag. -/
def Ends (Q X : σ → Prop) (r : Option (σ × Bool)) : Prop :=
  ∀ s ok, r = some (s, ok) → if ok = true then Q s else X s

section Ends

variable {Q X : σ → Prop}

theorem ends_none (Q X : σ → Prop) : Ends Q X none := by
  intro s ok h
  cases h

theorem ends_fail (Q : σ → Prop) {s : σ} (h : X s) : Ends Q X (some (s, false)) := by
  intro s' ok hs
  cases hs
  exact h

theorem ends_success (X : σ → Prop) {s : σ} (h : Q s) : Ends Q X (some (s, true)) := by
  intro s' ok hs
  cases hs
  exact h

theorem Ends.and_lands {Q' : σ → Prop} {r : Option (σ × Bool)} (h : Ends Q X r)
    (h' : Lands Q' r) : Ends (fun s => Q s ∧ Q' s) X r := by
  intro s ok hs
  have hends := h s ok hs
  cases ok with
  | true => exact ⟨hends, h' s hs⟩
  | false => exact hends

theorem loop_ends {τ : Type*} {turn : τ → Turn τ (Option (σ × Bool))} (I : τ → Prop)
    (hturn : ∀ x, I x → (turn x).Post I (Ends Q X)) {n : Nat} {x : τ} (hx : I x) :
    Ends Q X (loop turn n x).join := by
  intro s ok hr
  exact loop_rule I (Ends Q X) hturn n x _ hx (Option.join_eq_some_iff.1 hr) s ok rfl

end Ends

/-- Partial correctness, with a postcondition for each flag. -/
def Triple (P : σ → Prop) (f : Routine σ) (Q X : σ → Prop) : Prop :=
  ∀ s, P s → ∀ s' ok, f s = some (s', ok) → if ok = true then Q s' else X s'

section Rules

variable {P P' Q Q' R X X' : σ → Prop} {f g : Routine σ}

theorem Triple.success (h : Triple P f Q X) {s s' : σ} (hs : P s) (hr : f s = some (s', true)) :
    Q s' := by
  simpa using h s hs s' true hr

theorem Triple.failure (h : Triple P f Q X) {s s' : σ} (hs : P s) (hr : f s = some (s', false)) :
    X s' := by
  simpa using h s hs s' false hr

theorem Triple.mono (h : Triple P f Q X) (hP : ∀ s, P' s → P s) (hQ : ∀ s, Q s → Q' s)
    (hX : ∀ s, X s → X' s) : Triple P' f Q' X' := by
  intro s hs s' ok hr
  have hpost := h s (hP s hs) s' ok hr
  cases ok with
  | true => exact hQ s' hpost
  | false => exact hX s' hpost

theorem Triple.and (h : Triple P f Q X) (h' : Triple P' f Q' X') :
    Triple (fun s => P s ∧ P' s) f (fun s => Q s ∧ Q' s) (fun s => X s ∧ X' s) := by
  intro s hs s' ok hr
  have hpost := h s hs.1 s' ok hr
  have hpost' := h' s hs.2 s' ok hr
  cases ok with
  | true => exact ⟨hpost, hpost'⟩
  | false => exact ⟨hpost, hpost'⟩

/-- Where failure is of no interest. -/
theorem Triple.of_lands (h : ∀ s, P s → Lands Q (f s)) : Triple P f Q (fun _ => True) := by
  intro s hs s' ok hr
  cases ok with
  | true => exact h s hs s' hr
  | false => trivial

theorem Triple.of_ends (h : ∀ s, P s → Ends Q X (f s)) : Triple P f Q X := by
  intro s hs s' ok hr
  exact h s hs s' ok hr

theorem Triple.exists {α : Type*} {P : α → σ → Prop} (h : ∀ a, Triple (P a) f Q X) :
    Triple (fun s => ∃ a, P a s) f Q X := by
  rintro s ⟨a, hs⟩
  exact h a s hs

theorem Triple.next (hf : Triple P f Q X) (hg : Triple Q g R X) : Triple P (f.next g) R X := by
  intro s hs s' ok hr
  unfold Routine.next at hr
  cases hfs : f s with
  | none =>
      rw [hfs] at hr
      cases hr
  | some r =>
      rcases r with ⟨t, flag⟩
      rw [hfs] at hr
      cases flag with
      | true => exact hg t (hf.success hs hfs) s' ok hr
      | false =>
          cases hr
          exact hf.failure hs hfs

theorem Triple.pure {f : σ → σ} (h : ∀ s, P s → Q (f s)) : Triple P (Routine.pure f) Q X := by
  intro s hs s' ok hr
  cases hr
  exact h s hs

theorem Triple.onFail {h : σ → σ} (hf : Triple P f Q X) (hh : ∀ s, X s → X' (h s)) :
    Triple P (f.onFail h) Q X' := by
  intro s hs s' ok hr
  unfold Routine.onFail at hr
  cases hfs : f s with
  | none =>
      rw [hfs] at hr
      cases hr
  | some r =>
      rcases r with ⟨t, flag⟩
      rw [hfs] at hr
      cases flag with
      | true =>
          cases hr
          exact hf.success hs hfs
      | false =>
          cases hr
          exact hh t (hf.failure hs hfs)

/-- The rule for a routine that is a loop: the turns keep `I` and leave into the postconditions. -/
theorem Triple.loop {turn : σ → Turn σ (σ × Bool)} {fuel : σ → Nat} {I : σ → Prop}
    (hP : ∀ s, P s → I s)
    (hturn : ∀ s, I s → (turn s).Post I (fun r => if r.2 = true then Q r.1 else X r.1)) :
    Triple P (fun s => Loop.loop turn (fuel s) s) Q X := by
  intro s hs s' ok hr
  exact loop_rule I (fun r : σ × Bool => if r.2 = true then Q r.1 else X r.1) hturn _ s (s', ok)
    (hP s hs) hr

end Rules

end Fallible
end C64Https
