import C64Https.Tls.DeframeSafety

/-!
# Trace — what a run of the deframer did, read off its trace

The trace of a run holds the accesses to the buffers, which `DeframeSafety` bounds, and the *marks*:
what was folded, admitted, dispatched, copied to `cert_buf` and handed to the key extractor.  The
results about runs are stated on the marks; a step that leaves none is *quiet*.
-/

namespace C64Https
namespace Tls

/-- Whether an event is more than an access to a buffer. -/
def Event.isMark : Event → Bool
  | .read _ _ _ => false
  | .carryWrite _ _ => false
  | .sub _ _ => false
  | _ => true

def marks (tr : List Event) : List Event :=
  tr.filter Event.isMark

@[simp] theorem marks_append (tr tr' : List Event) : marks (tr ++ tr') = marks tr ++ marks tr' := by
  simp [marks]

def Event.copied : Event → List UInt8
  | .certWrite _ bs => bs
  | _ => []

def Event.leaf? : Event → List (List UInt8 × Bool)
  | .leaf cert ok => [(cert, ok)]
  | _ => []

def Event.folded : Event → List UInt8
  | .fold bs => bs
  | _ => []

/-- A dispatched message: its type, its body, the snapshot its handler saw, and the verdict. -/
structure Dispatched where
  ty : UInt8
  body : List UInt8
  snap : List UInt8
  ok : Bool
  deriving DecidableEq, Repr

def Event.dispatched : Event → List Dispatched
  | .dispatch ty body snap ok => [⟨ty, body, snap, ok⟩]
  | _ => []

/-- The bytes written to `cert_buf`, in order. -/
def copied (tr : List Event) : List UInt8 :=
  tr.flatMap Event.copied

/-- What the key extractor was handed, with its answers. -/
def leaves (tr : List Event) : List (List UInt8 × Bool) :=
  tr.flatMap Event.leaf?

/-- The bytes folded into the transcript, in order. -/
def folded (tr : List Event) : List UInt8 :=
  tr.flatMap Event.folded

def dispatched (tr : List Event) : List Dispatched :=
  tr.flatMap Event.dispatched

@[simp] theorem copied_append (tr tr' : List Event) : copied (tr ++ tr') = copied tr ++ copied tr' :=
  List.flatMap_append

@[simp] theorem leaves_append (tr tr' : List Event) : leaves (tr ++ tr') = leaves tr ++ leaves tr' :=
  List.flatMap_append

@[simp] theorem folded_append (tr tr' : List Event) : folded (tr ++ tr') = folded tr ++ folded tr' :=
  List.flatMap_append

@[simp] theorem dispatched_append (tr tr' : List Event) :
    dispatched (tr ++ tr') = dispatched tr ++ dispatched tr' :=
  List.flatMap_append

/-- A projection that is empty on accesses reads the marks only. -/
theorem flatMap_marks {α : Type} (f : Event → List α) (hf : ∀ e, e.isMark = false → f e = [])
    (tr : List Event) : (marks tr).flatMap f = tr.flatMap f := by
  induction tr with
  | nil => rfl
  | cons e tr ih =>
      unfold marks at ih ⊢
      rw [List.filter_cons]
      split
      · rw [List.flatMap_cons, List.flatMap_cons, ih]
      · rename_i h
        rw [List.flatMap_cons, hf e (by simpa using h), ih, List.nil_append]

section Quiet

variable {tr tr' : List Event}

theorem copied_congr (h : marks tr = marks tr') : copied tr = copied tr' := by
  have hf : ∀ e : Event, e.isMark = false → e.copied = [] := by
    intro e he
    cases e <;> simp_all [Event.isMark, Event.copied]
  unfold copied
  rw [← flatMap_marks _ hf tr, h, flatMap_marks _ hf]

theorem leaves_congr (h : marks tr = marks tr') : leaves tr = leaves tr' := by
  have hf : ∀ e : Event, e.isMark = false → e.leaf? = [] := by
    intro e he
    cases e <;> simp_all [Event.isMark, Event.leaf?]
  unfold leaves
  rw [← flatMap_marks _ hf tr, h, flatMap_marks _ hf]

theorem folded_congr (h : marks tr = marks tr') : folded tr = folded tr' := by
  have hf : ∀ e : Event, e.isMark = false → e.folded = [] := by
    intro e he
    cases e <;> simp_all [Event.isMark, Event.folded]
  unfold folded
  rw [← flatMap_marks _ hf tr, h, flatMap_marks _ hf]

theorem dispatched_congr (h : marks tr = marks tr') : dispatched tr = dispatched tr' := by
  have hf : ∀ e : Event, e.isMark = false → e.dispatched = [] := by
    intro e he
    cases e <;> simp_all [Event.isMark, Event.dispatched]
  unfold dispatched
  rw [← flatMap_marks _ hf tr, h, flatMap_marks _ hf]

end Quiet

end Tls
end C64Https
