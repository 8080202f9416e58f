import C64Https.Lib.Bytes

/-!
# Footprint — what a function of a memory looks at

A function of a memory is *determined* below `n` at a memory when no other memory with the same
cells below `n` gives another value.  A list of cells that the value depends on, all of them below
`n`, shows that it is; a memory that differs behind `n` only, with another value, shows that it is
not.
-/

namespace C64Https
namespace Footprint

open Bytes

variable {β : Type} {n : Nat} {f : Buffer → β} {v v' : Buffer}

/-- The same cells below `n`. -/
def Agrees (n : Nat) (v v' : Buffer) : Prop :=
  ∀ i < n, v' i = v i

/-- No memory with the same cells below `n` gives another value. -/
def Determined (n : Nat) (f : Buffer → β) (v : Buffer) : Prop :=
  ∀ v', Agrees n v v' → f v' = f v

theorem Agrees.symm (h : Agrees n v v') : Agrees n v' v :=
  fun i hi => (h i hi).symm

theorem Agrees.trans {w : Buffer} (h : Agrees n v v') (h' : Agrees n v' w) : Agrees n v w :=
  fun i hi => (h' i hi).trans (h i hi)

theorem Agrees.mono {m : Nat} (h : Agrees n v v') (hm : m ≤ n) : Agrees m v v' :=
  fun i hi => h i (Nat.lt_of_lt_of_le hi hm)

/-- The same bytes are the same cells. -/
theorem bytesAt_inj {off off' : Nat} :
    bytesAt v off n = bytesAt v' off' n ↔ ∀ i < n, v (off + i) = v' (off' + i) := by
  refine ⟨fun h i hi => ?_, bytesAt_congr⟩
  have hget : (bytesAt v off n)[i]? = (bytesAt v' off' n)[i]? := by
    rw [h]
  rwa [List.getElem?_eq_getElem (by simpa using hi), List.getElem?_eq_getElem (by simpa using hi),
    getElem_bytesAt, getElem_bytesAt, Option.some_inj] at hget

/-- The memory with `b` in every cell from `n` on. -/
def beyond (n : Nat) (v : Buffer) (b : UInt8) : Buffer :=
  fun i => if i < n then v i else b

theorem beyond_of_lt {i : Nat} (b : UInt8) (h : i < n) : beyond n v b i = v i :=
  if_pos h

theorem beyond_of_le {i : Nat} (b : UInt8) (h : n ≤ i) : beyond n v b i = b :=
  if_neg (Nat.not_lt.2 h)

theorem agrees_beyond (n : Nat) (v : Buffer) (b : UInt8) : Agrees n v (beyond n v b) :=
  fun _ hi => beyond_of_lt b hi

theorem agrees_update {i : Nat} (h : n ≤ i) (b : UInt8) : Agrees n v (Function.update v i b) :=
  fun _ hj => Function.update_of_ne (Nat.ne_of_lt (Nat.lt_of_lt_of_le hj h)) b v

/-- The cells that decide the value lie below `n`. -/
theorem Determined.of_reads {cells : List Nat} (hreads : ∀ i ∈ cells, i < n)
    (hcongr : ∀ v', (∀ i ∈ cells, v' i = v i) → f v' = f v) : Determined n f v :=
  fun v' hv' => hcongr v' fun i hi => hv' i (hreads i hi)

theorem Determined.of_const {b : β} (h : ∀ v', Agrees n v v' → f v' = b) : Determined n f v :=
  fun v' hv' => (h v' hv').trans (h v fun _ _ => rfl).symm

/-- What is determined is the same from every memory with these cells. -/
theorem Determined.congr (h : Determined n f v) (hv : Agrees n v v') : Determined n f v' :=
  fun w hw => (h w (hv.trans hw)).trans (h v' hv).symm

/-- Two functions that agree where the cells do. -/
theorem Determined.congr_fun {g : Buffer → β} (h : ∀ v', Agrees n v v' → f v' = g v') :
    Determined n f v ↔ Determined n g v := by
  have hself : f v = g v := h v fun _ _ => rfl
  constructor
  · intro hf v' hv'
    rw [← h v' hv', ← hself]
    exact hf v' hv'
  · intro hg v' hv'
    rw [h v' hv', hself]
    exact hg v' hv'

theorem Determined.mono {m : Nat} (h : Determined m f v) (hm : m ≤ n) : Determined n f v :=
  fun v' hv' => h v' (hv'.mono hm)

end Footprint
end C64Https
