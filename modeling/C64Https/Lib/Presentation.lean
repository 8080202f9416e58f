import C64Https.Lib.BigEndian

/-!
# Presentation — fields, vectors and lists of a message format

A message is a run of fields: numbers of a fixed width, strings of a fixed length, and *vectors*,
which carry their own length in front in a fixed number of bytes.  A `Reader` takes a field off the
front of a string; `Reads` says that it takes back what was written, whatever follows.
-/

namespace C64Https
namespace Presentation

open BigEndian

universe u v

variable {α : Type u} {β : Type v}

/-- What is read, and what is left. -/
abbrev Reader (α : Type u) : Type u :=
  List UInt8 → Option (α × List UInt8)

/-- The reader takes `bs` off the front, as `x`. -/
def Reads (r : Reader α) (bs : List UInt8) (x : α) : Prop :=
  ∀ rest, r (bs ++ rest) = some (x, rest)

/-! ## Fields -/

/-- A string of `n` bytes. -/
def fixed (n : Nat) : Reader (List UInt8) := fun bs =>
  if n ≤ bs.length then some (bs.take n, bs.drop n) else none

/-- A number of `k` bytes. -/
def number (k : Nat) : Reader Nat := fun bs =>
  (fixed k bs).map fun r => (value r.1, r.2)

/-- The encoding of a vector: its length in `k` bytes, then its contents. -/
def vector (k : Nat) (bs : List UInt8) : List UInt8 :=
  padded k bs.length ++ bs

/-- A vector whose length is between `lo` and `hi`. -/
def vectorBetween (k lo hi : Nat) : Reader (List UInt8) := fun bs =>
  match number k bs with
  | none => none
  | some (n, rest) => if lo ≤ n ∧ n ≤ hi then fixed n rest else none

/-- All of a string, and nothing behind it. -/
def whole (r : Reader α) (bs : List UInt8) : Option α :=
  match r bs with
  | some (x, []) => some x
  | _ => none

/-- One item after the other, at most `n`, until the string is used up. -/
def items (r : Reader α) : Nat → List UInt8 → Option (List α)
  | _, [] => some []
  | 0, _ :: _ => none
  | n + 1, b :: bs =>
      match r (b :: bs) with
      | none => none
      | some (x, rest) => (items r n rest).map (x :: ·)

/-- A string as a list of items. -/
def list (r : Reader α) (bs : List UInt8) : Option (List α) :=
  items r bs.length bs

/-! ## Sequences -/

/-- One reader after the other. -/
def andThen (r : Reader α) (f : α → Reader β) : Reader β := fun bs =>
  match r bs with
  | none => none
  | some (x, rest) => f x rest

/-- A value that is there already, if it is. -/
def ofOption (x : Option α) : Reader α := fun bs =>
  x.map fun x => (x, bs)

/-! ## What is written is read back -/

theorem reads_fixed (bs : List UInt8) : Reads (fixed bs.length) bs bs := by
  intro rest
  unfold fixed
  rw [if_pos (by simp), List.take_left, List.drop_left]

theorem reads_fixed_of_length {n : Nat} {bs : List UInt8} (h : bs.length = n) :
    Reads (fixed n) bs bs := by
  subst h
  exact reads_fixed bs

theorem reads_number {k n : Nat} (h : n < 256 ^ k) : Reads (number k) (padded k n) n := by
  intro rest
  unfold number
  rw [reads_fixed_of_length (length_padded h), Option.map_some, value_padded]

theorem reads_vector {k lo hi : Nat} {bs : List UInt8} (hk : bs.length < 256 ^ k)
    (hlo : lo ≤ bs.length) (hhi : bs.length ≤ hi) :
    Reads (vectorBetween k lo hi) (vector k bs) bs := by
  intro rest
  unfold vectorBetween vector
  rw [List.append_assoc, reads_number hk]
  dsimp only
  rw [if_pos ⟨hlo, hhi⟩]
  exact reads_fixed bs rest

theorem Reads.andThen {r : Reader α} {f : α → Reader β} {as bs : List UInt8} {x : α} {y : β}
    (h : Reads r as x) (h' : Reads (f x) bs y) : Reads (andThen r f) (as ++ bs) y := by
  intro rest
  unfold Presentation.andThen
  rw [List.append_assoc, h]
  exact h' rest

theorem reads_ofOption {x : Option α} {y : α} (h : x = some y) : Reads (ofOption x) [] y := by
  intro rest
  rw [h]
  rfl

/-- A reader whose value is worked on without reading. -/
theorem Reads.ofOption {r : Reader α} {f : α → Option β} {bs : List UInt8} {x : α} {y : β}
    (h : Reads r bs x) (hf : f x = some y) :
    Reads (Presentation.andThen r fun x => Presentation.ofOption (f x)) bs y := by
  have hseq : Reads (Presentation.andThen r fun x => Presentation.ofOption (f x)) (bs ++ []) y :=
    h.andThen (reads_ofOption hf)
  rwa [List.append_nil] at hseq

theorem Reads.whole {r : Reader α} {bs : List UInt8} {x : α} (h : Reads r bs x) :
    Presentation.whole r bs = some x := by
  have hread := h []
  rw [List.append_nil] at hread
  unfold Presentation.whole
  rw [hread]

/-- The items of a list, each of at least one byte. -/
theorem items_flatMap {r : Reader α} {write : α → List UInt8} (xs : List α) :
    ∀ n, (xs.flatMap write).length ≤ n → (∀ x ∈ xs, Reads r (write x) x ∧ write x ≠ []) →
      items r n (xs.flatMap write) = some xs := by
  induction xs with
  | nil =>
      intro n _ _
      cases n <;> rfl
  | cons x xs ih =>
      intro n hn hitem
      obtain ⟨hread, hne⟩ := hitem x (List.mem_cons_self ..)
      have hstep := hread (xs.flatMap write)
      rw [List.flatMap_cons] at hn ⊢
      cases hx : write x with
      | nil => exact absurd hx hne
      | cons b bs =>
          rw [hx] at hn hstep
          cases n with
          | zero => exact absurd hn (by simp)
          | succ n =>
              have hrest : (xs.flatMap write).length ≤ n := by
                rw [List.length_append, List.length_cons] at hn
                omega
              have htail := ih n hrest fun y hy => hitem y (List.mem_cons_of_mem x hy)
              rw [List.cons_append] at hstep ⊢
              show (match r (b :: (bs ++ xs.flatMap write)) with
                | none => none
                | some (x, rest) => (items r n rest).map (x :: ·)) = some (x :: xs)
              rw [hstep]
              dsimp only
              rw [htail, Option.map_some]

theorem list_flatMap {r : Reader α} {write : α → List UInt8} {xs : List α}
    (h : ∀ x ∈ xs, Reads r (write x) x ∧ write x ≠ []) :
    list r (xs.flatMap write) = some xs :=
  items_flatMap xs _ (Nat.le_refl _) h

end Presentation
end C64Https
