import Mathlib.Data.Nat.Digits.Lemmas
import Mathlib.Tactic

/-!
# BigEndian — byte strings as numbers

`value` reads a string of bytes as a number, the first byte the highest; `shortest` writes a number
with as few bytes as it takes, and `padded` with a given number of them.
-/

namespace C64Https
namespace BigEndian

def value (bs : List UInt8) : Nat :=
  Nat.ofDigits 256 (bs.reverse.map UInt8.toNat)

@[simp] theorem value_nil : value [] = 0 :=
  rfl

theorem value_append (as bs : List UInt8) :
    value (as ++ bs) = value as * 256 ^ bs.length + value bs := by
  unfold value
  rw [List.reverse_append, List.map_append, Nat.ofDigits_append, List.length_map,
    List.length_reverse, Nat.add_comm, Nat.mul_comm]

theorem value_singleton (b : UInt8) : value [b] = b.toNat := by
  simp [value]

theorem value_cons (b : UInt8) (bs : List UInt8) :
    value (b :: bs) = b.toNat * 256 ^ bs.length + value bs := by
  rw [← value_singleton, ← value_append, List.singleton_append]

theorem digit_lt (bs : List UInt8) : ∀ d ∈ bs.reverse.map UInt8.toNat, d < 256 := by
  intro d hd
  rcases List.mem_map.1 hd with ⟨b, -, rfl⟩
  exact b.toNat_lt

theorem value_lt (bs : List UInt8) : value bs < 256 ^ bs.length := by
  have h := Nat.ofDigits_lt_base_pow_length (by decide : 1 < 256) (digit_lt bs)
  simpa [value] using h

/-- Zeros in front count for nothing. -/
theorem value_zeros (n : Nat) (bs : List UInt8) :
    value (List.replicate n 0 ++ bs) = value bs := by
  induction n with
  | zero => rfl
  | succ n ih =>
      rw [List.replicate_succ, List.cons_append, value_cons, ih]
      simp

/-- Of a given length, a string is known by its value. -/
theorem value_inj {as bs : List UInt8} (hlen : as.length = bs.length) (h : value as = value bs) :
    as = bs := by
  have hdigits := Nat.ofDigits_inj_of_len_eq (by decide : 1 < 256)
    (by simpa using hlen) (digit_lt as) (digit_lt bs) h
  have hinj : Function.Injective UInt8.toNat := fun _ _ => UInt8.toNat.inj
  exact List.reverse_injective (List.map_injective_iff.2 hinj hdigits)

/-! ## Writing numbers -/

def shortest (n : Nat) : List UInt8 :=
  ((Nat.digits 256 n).map UInt8.ofNat).reverse

theorem value_shortest (n : Nat) : value (shortest n) = n := by
  have hmap : ((Nat.digits 256 n).map UInt8.ofNat).map UInt8.toNat = Nat.digits 256 n := by
    rw [List.map_map]
    conv_rhs => rw [← List.map_id (Nat.digits 256 n)]
    refine List.map_congr_left ?_
    intro d hd
    exact UInt8.toNat_ofNat_of_lt (Nat.digits_lt_base (by decide) hd)
  unfold value shortest
  rw [List.reverse_reverse, hmap, Nat.ofDigits_digits]

theorem length_shortest_le_iff {n k : Nat} : (shortest n).length ≤ k ↔ n < 256 ^ k := by
  unfold shortest
  rw [List.length_reverse, List.length_map]
  exact Nat.digits_length_le_iff (by decide) n

@[simp] theorem shortest_zero : shortest 0 = [] := by
  simp [shortest]

/-- The first byte of a number is not zero. -/
theorem shortest_head {n : Nat} {b : UInt8} {bs : List UInt8} (h : shortest n = b :: bs) :
    b ≠ 0 := by
  rintro rfl
  -- without the zero the string would still do
  have hvalue : value bs = n := by
    rw [← value_shortest n, h, value_cons]
    simp
  have hlt : n < 256 ^ bs.length := by
    rw [← hvalue]
    exact value_lt bs
  have hle := length_shortest_le_iff.2 hlt
  rw [h, List.length_cons] at hle
  exact absurd hle (Nat.not_succ_le_self _)

/-- A string that does not begin with zero is the shortest one. -/
theorem eq_shortest {b : UInt8} {bs : List UInt8} (hb : b ≠ 0) :
    b :: bs = shortest (value (b :: bs)) := by
  have hpos : 0 < b.toNat := Nat.pos_of_ne_zero fun h => hb (UInt8.toNat.inj h)
  have hle : 256 ^ bs.length ≤ value (b :: bs) := by
    rw [value_cons]
    calc 256 ^ bs.length ≤ b.toNat * 256 ^ bs.length := Nat.le_mul_of_pos_left _ hpos
      _ ≤ b.toNat * 256 ^ bs.length + value bs := Nat.le_add_right _ _
  have hlength : (b :: bs).length = (shortest (value (b :: bs))).length := by
    refine le_antisymm ?_ (length_shortest_le_iff.2 (value_lt _))
    refine Nat.le_of_not_lt fun hlt => ?_
    exact absurd (length_shortest_le_iff.1 (Nat.le_of_lt_succ hlt)) (Nat.not_lt_of_le hle)
  exact value_inj hlength (value_shortest _).symm

/-- `n` in `k` bytes. -/
def padded (k n : Nat) : List UInt8 :=
  List.replicate (k - (shortest n).length) 0 ++ shortest n

theorem value_padded (k n : Nat) : value (padded k n) = n := by
  unfold padded
  rw [value_zeros, value_shortest]

theorem length_padded {k n : Nat} (h : n < 256 ^ k) : (padded k n).length = k := by
  unfold padded
  rw [List.length_append, List.length_replicate]
  exact Nat.sub_add_cancel (length_shortest_le_iff.2 h)

/-- The one string of `k` bytes with the value `n`. -/
theorem eq_padded {k n : Nat} {bs : List UInt8} (hlen : bs.length = k) (hvalue : value bs = n) :
    bs = padded k n := by
  have hlt : n < 256 ^ k := by
    rw [← hlen, ← hvalue]
    exact value_lt bs
  refine value_inj ?_ ?_
  · rw [hlen, length_padded hlt]
  · rw [hvalue, value_padded]

end BigEndian
end C64Https
