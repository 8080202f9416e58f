import Mathlib.Tactic

/-!
# Loop — a loop as the iteration of one turn

A loop of an imperative program is given by its *turn*: from a state, either go round again or
leave with a result.  `loop` iterates a turn with a bound on the number of turns; leaving before
the bound is a theorem (`loop_total`), never an assumption.

The rules are those of a program logic for loops:

* `loop_rule` — an invariant kept by every turn holds of what the loop leaves with;
* `loop_total` — a measure that every turn lowers makes the loop leave within the bound;
* `loop_mono` — a larger bound changes nothing once the loop has left;
* `loop_of_chain` — a chain of turns up to one that leaves is a run;
* `loop_of_visits`, `visits_of_loop`, `loop_diverges` — a measure on the states that are visited, the state
  that a loop leaves in, and no measure.

`feed` runs a machine that takes one symbol a step over a string of them; `feed_append` says that
the string may be fed in pieces, and `feed_rule` is its invariant rule.
-/

namespace C64Https
namespace Loop

universe u v

variable {σ : Type u} {ρ : Type v}

/-- The outcome of one turn. -/
inductive Turn (σ : Type u) (ρ : Type v) where
  | again (s : σ)
  | leave (r : ρ)
  deriving DecidableEq, Repr

def loop (turn : σ → Turn σ ρ) : Nat → σ → Option ρ
  | 0, _ => none
  | n + 1, s =>
      match turn s with
      | .again s' => loop turn n s'
      | .leave r => some r

variable {turn : σ → Turn σ ρ}

theorem loop_again {n : Nat} {s s' : σ} (h : turn s = .again s') :
    loop turn (n + 1) s = loop turn n s' := by
  simp [loop, h]

theorem loop_leave {n : Nat} {s : σ} {r : ρ} (h : turn s = .leave r) :
    loop turn (n + 1) s = some r := by
  simp [loop, h]

/-- What holds after a turn: `P` of the state it goes round with, `Q` of what it leaves with. -/
def Turn.Post (P : σ → Prop) (Q : ρ → Prop) : Turn σ ρ → Prop
  | .again s => P s
  | .leave r => Q r

@[simp] theorem Turn.post_again (P : σ → Prop) (Q : ρ → Prop) (s : σ) :
    (Turn.again s : Turn σ ρ).Post P Q ↔ P s :=
  Iff.rfl

@[simp] theorem Turn.post_leave (P : σ → Prop) (Q : ρ → Prop) (r : ρ) :
    (Turn.leave r : Turn σ ρ).Post P Q ↔ Q r :=
  Iff.rfl

theorem Turn.Post.mono {P P' : σ → Prop} {Q Q' : ρ → Prop} {t : Turn σ ρ} (h : t.Post P Q)
    (hP : ∀ s, P s → P' s) (hQ : ∀ r, Q r → Q' r) : t.Post P' Q' := by
  cases t with
  | again s => exact hP s h
  | leave r => exact hQ r h

theorem Turn.Post.and {P P' : σ → Prop} {Q Q' : ρ → Prop} {t : Turn σ ρ} (h : t.Post P Q)
    (h' : t.Post P' Q') : t.Post (fun s => P s ∧ P' s) (fun r => Q r ∧ Q' r) := by
  cases t with
  | again s => exact ⟨h, h'⟩
  | leave r => exact ⟨h, h'⟩

/-- The invariant rule: what holds at the top of every turn gives the exit condition on leaving. -/
theorem loop_rule (I : σ → Prop) (Q : ρ → Prop) (hturn : ∀ s, I s → (turn s).Post I Q) :
    ∀ (n : Nat) (s : σ) (r : ρ), I s → loop turn n s = some r → Q r := by
  intro n
  induction n with
  | zero =>
      intro s r _ h
      simp [loop] at h
  | succ n ih =>
      intro s r hI h
      have hpost := hturn s hI
      cases ht : turn s with
      | again s' =>
          rw [loop_again ht] at h
          rw [ht] at hpost
          exact ih s' r hpost h
      | leave r' =>
          rw [loop_leave ht] at h
          rw [ht] at hpost
          have : r' = r := by
            simpa using h
          subst this
          exact hpost

/-- The total rule: a measure lowered by every turn makes the loop leave within the bound. -/
theorem loop_total (I : σ → Prop) (Q : ρ → Prop) (μ : σ → Nat)
    (hturn : ∀ s, I s → (turn s).Post (fun s' => I s' ∧ μ s' < μ s) Q) :
    ∀ (n : Nat) (s : σ), I s → μ s < n → ∃ r, loop turn n s = some r ∧ Q r := by
  intro n
  induction n with
  | zero =>
      intro s _ h
      omega
  | succ n ih =>
      intro s hI hμ
      have hpost := hturn s hI
      cases ht : turn s with
      | again s' =>
          rw [ht] at hpost
          rw [loop_again ht]
          exact ih s' hpost.1 (by have := hpost.2; omega)
      | leave r =>
          rw [ht] at hpost
          exact ⟨r, loop_leave ht, hpost⟩

theorem loop_mono {n : Nat} {r : ρ} :
    ∀ {m : Nat} {s : σ}, n ≤ m → loop turn n s = some r → loop turn m s = some r := by
  induction n with
  | zero =>
      intro m s _ h
      simp [loop] at h
  | succ n ih =>
      intro m s hle h
      obtain ⟨m, rfl⟩ : ∃ k, m = k + 1 := ⟨m - 1, by omega⟩
      cases ht : turn s with
      | again s' =>
          rw [loop_again ht] at h ⊢
          exact ih (by omega) h
      | leave r' =>
          rw [loop_leave ht] at h ⊢
          exact h

/-- Two bounds that both suffice give the same result. -/
theorem loop_unique {m n : Nat} {s : σ} {r r' : ρ} (h : loop turn m s = some r)
    (h' : loop turn n s = some r') : r = r' := by
  have hm := loop_mono (Nat.le_max_left m n) h
  have hn := loop_mono (Nat.le_max_right m n) h'
  rw [hm] at hn
  exact Option.some.inj hn

/-- Turns that go round again, and then one that leaves. -/
theorem loop_of_chain {s s' : σ} {r : ρ}
    (h : Relation.ReflTransGen (fun s s' => turn s = .again s') s s') (hr : turn s' = .leave r) :
    ∃ n, loop turn n s = some r := by
  induction h using Relation.ReflTransGen.head_induction_on with
  | refl => exact ⟨1, loop_leave hr⟩
  | head hstep _ ih =>
      rcases ih with ⟨n, hn⟩
      exact ⟨n + 1, (loop_again hstep).trans hn⟩

/-- The states that a loop comes to. -/
def Visits (turn : σ → Turn σ ρ) : σ → σ → Prop :=
  Relation.ReflTransGen fun s s' => turn s = .again s'

/-- A loop that lowers a measure in every state that it comes to leaves. -/
theorem loop_of_visits (μ : σ → Nat) {s₀ : σ}
    (hturn : ∀ s s', Visits turn s₀ s → turn s = .again s' → μ s' < μ s) :
    ∃ n r, loop turn n s₀ = some r := by
  have hall : ∀ s, Visits turn s₀ s →
      (turn s).Post (fun s' => Visits turn s₀ s' ∧ μ s' < μ s) (fun _ => True) := by
    intro s hs
    cases ht : turn s with
    | again s' => exact ⟨hs.tail ht, hturn s s' hs ht⟩
    | leave r => exact True.intro
  obtain ⟨r, hr, -⟩ :=
    loop_total (Visits turn s₀) (fun _ => True) μ hall _ s₀ .refl (Nat.lt_succ_self _)
  exact ⟨_, r, hr⟩

/-- What a loop leaves with, it leaves with in a state that it comes to. -/
theorem visits_of_loop {r : ρ} : ∀ {n : Nat} {s : σ}, loop turn n s = some r →
    ∃ s', Visits turn s s' ∧ turn s' = .leave r := by
  intro n
  induction n with
  | zero =>
      intro s h
      cases h
  | succ n ih =>
      intro s h
      cases ht : turn s with
      | again s' =>
          rw [loop_again ht] at h
          obtain ⟨t, hvisits, hleave⟩ := ih h
          exact ⟨t, Relation.ReflTransGen.head ht hvisits, hleave⟩
      | leave r' =>
          rw [loop_leave ht] at h
          exact ⟨s, .refl, ht.trans (congrArg Turn.leave (Option.some.inj h))⟩

/-- A loop that stays where every turn goes round again does not leave. -/
theorem loop_diverges (I : σ → Prop) (hturn : ∀ s, I s → ∃ s', turn s = .again s' ∧ I s') :
    ∀ (n : Nat) (s : σ), I s → loop turn n s = none := by
  intro n
  induction n with
  | zero =>
      intro s _
      rfl
  | succ n ih =>
      intro s hI
      obtain ⟨s', ht, hI'⟩ := hturn s hI
      rw [loop_again ht]
      exact ih s' hI'

/-! ## Machines fed one symbol at a time -/

universe w

variable {α : Type w} {τ : Type u}

/-- Go on from a turn that did not leave. -/
def Turn.bind (t : Turn σ ρ) (f : σ → Turn τ ρ) : Turn τ ρ :=
  match t with
  | .again s => f s
  | .leave r => .leave r

@[simp] theorem Turn.again_bind (s : σ) (f : σ → Turn τ ρ) : (Turn.again s).bind f = f s :=
  rfl

@[simp] theorem Turn.leave_bind (r : ρ) (f : σ → Turn τ ρ) :
    (Turn.leave r : Turn σ ρ).bind f = .leave r :=
  rfl

def feed (step : σ → α → Turn σ ρ) : σ → List α → Turn σ ρ
  | s, [] => .again s
  | s, a :: as => (step s a).bind fun s' => feed step s' as

variable {step : σ → α → Turn σ ρ}

@[simp] theorem feed_nil (s : σ) : feed step s [] = .again s :=
  rfl

theorem feed_cons (s : σ) (a : α) (as : List α) :
    feed step s (a :: as) = (step s a).bind fun s' => feed step s' as :=
  rfl

theorem feed_append (s : σ) (as bs : List α) :
    feed step s (as ++ bs) = (feed step s as).bind fun s' => feed step s' bs := by
  induction as generalizing s with
  | nil => rfl
  | cons a as ih =>
      rw [List.cons_append, feed_cons, feed_cons]
      cases step s a with
      | again s' => exact ih s'
      | leave r => rfl

/-- The invariant rule for a string: what every step keeps holds behind all of them. -/
theorem feed_rule (I : σ → Prop) (Q : ρ → Prop) (hstep : ∀ s a, I s → (step s a).Post I Q) :
    ∀ (as : List α) (s : σ), I s → (feed step s as).Post I Q := by
  intro as
  induction as with
  | nil =>
      intro s hI
      exact hI
  | cons a as ih =>
      intro s hI
      have hpost := hstep s a hI
      rw [feed_cons]
      cases ha : step s a with
      | again s' =>
          rw [ha] at hpost
          exact ih s' hpost
      | leave r =>
          rw [ha] at hpost
          exact hpost

end Loop
end C64Https
