import Mathlib.Tactic

/-!
# History — what each event of a log has before it

A log is a list of events, the oldest first.  `Preceded F l` says of every event of the log that `F`
relates what came before to it: the form of "no answer without its question".  A log grows at its
end, and there the property asks only for the new event.
-/

namespace C64Https
namespace History

universe u

variable {ε : Type u} {F G : List ε → ε → Prop} {l : List ε}

def Preceded (F : List ε → ε → Prop) (l : List ε) : Prop :=
  ∀ pre e post, l = pre ++ e :: post → F pre e

theorem preceded_nil (F : List ε → ε → Prop) : Preceded F [] := by
  intro pre e post h
  cases pre with
  | nil => cases h
  | cons a pre => cases h

theorem preceded_concat_iff (e : ε) : Preceded F (l ++ [e]) ↔ Preceded F l ∧ F l e := by
  constructor
  · intro h
    refine ⟨fun pre x post hl => h pre x (post ++ [e]) ?_, h l e [] rfl⟩
    rw [hl, List.append_assoc, List.cons_append]
  · rintro ⟨hl, he⟩ pre x post hsplit
    rcases List.eq_nil_or_concat post with rfl | ⟨post', y, rfl⟩
    · -- the event at the end
      obtain ⟨rfl, hx⟩ := List.append_inj' hsplit rfl
      cases hx
      exact he
    · rw [List.concat_eq_append, ← List.cons_append, ← List.append_assoc] at hsplit
      obtain ⟨hfront, -⟩ := List.append_inj' hsplit rfl
      exact hl pre x post' hfront

theorem Preceded.concat (h : Preceded F l) {e : ε} (he : F l e) : Preceded F (l ++ [e]) :=
  (preceded_concat_iff e).2 ⟨h, he⟩

/-- An event of the log, with some of what came before it. -/
theorem Preceded.of_mem (h : Preceded F l) {e : ε} (he : e ∈ l) : ∃ pre, F pre e := by
  obtain ⟨pre, post, hsplit⟩ := List.append_of_mem he
  exact ⟨pre, h pre e post hsplit⟩

end History
end C64Https
