import Mathlib.Tactic
import Mathlib.Data.List.GetD

/-!
# Bytes — buffers as total functions and the byte strings read from them

A buffer is a function from offsets to bytes: it has contents at every offset, in or out of the
bounds that the program is supposed to respect, as the memory of a small machine has.  `bytesAt`
reads a block of a buffer and `store` writes one.
-/

namespace C64Https
namespace Bytes

abbrev Buffer := Nat → UInt8

/-- What holds of the 256 bytes holds of every byte. -/
theorem forall_byte {p : UInt8 → Prop} (h : ∀ n : Fin 256, p (UInt8.ofFin n)) (b : UInt8) : p b :=
  h b.toFin

/-- The `n` bytes of `m` from offset `off` on. -/
def bytesAt (m : Buffer) (off n : Nat) : List UInt8 :=
  (List.range n).map fun i => m (off + i)

/-- `m` with `bs` written from offset `off` on. -/
def store (m : Buffer) (off : Nat) (bs : List UInt8) : Buffer :=
  fun i => if off ≤ i ∧ i < off + bs.length then bs.getD (i - off) 0 else m i

@[simp] theorem bytesAt_zero (m : Buffer) (off : Nat) : bytesAt m off 0 = [] := by
  simp [bytesAt]

@[simp] theorem length_bytesAt (m : Buffer) (off n : Nat) : (bytesAt m off n).length = n := by
  simp [bytesAt]

theorem getElem_bytesAt (m : Buffer) (off n i : Nat) (h : i < (bytesAt m off n).length) :
    (bytesAt m off n)[i] = m (off + i) := by
  simp [bytesAt]

theorem bytesAt_congr {m m' : Buffer} {off off' n : Nat}
    (h : ∀ i < n, m (off + i) = m' (off' + i)) : bytesAt m off n = bytesAt m' off' n := by
  unfold bytesAt
  refine List.map_congr_left ?_
  intro i hi
  exact h i (List.mem_range.1 hi)

theorem bytesAt_add (m : Buffer) (off a b : Nat) :
    bytesAt m off (a + b) = bytesAt m off a ++ bytesAt m (off + a) b := by
  simp [bytesAt, List.range_add, Nat.add_assoc]

theorem bytesAt_succ (m : Buffer) (off n : Nat) :
    bytesAt m off (n + 1) = m off :: bytesAt m (off + 1) n := by
  have h := bytesAt_add m off 1 n
  rw [Nat.add_comm 1 n] at h
  rw [h]
  simp [bytesAt]

theorem bytesAt_eq_iff {m : Buffer} {off n : Nat} {bs : List UInt8} :
    bytesAt m off n = bs ↔ bs.length = n ∧ ∀ i < n, m (off + i) = bs.getD i 0 := by
  constructor
  · rintro rfl
    refine ⟨by simp, ?_⟩
    intro i hi
    simp [bytesAt, List.getD_eq_getElem?_getD, hi]
  · rintro ⟨rfl, h⟩
    refine List.ext_getElem (by simp) ?_
    intro i h₁ h₂
    rw [getElem_bytesAt, h i h₂]
    simp [List.getD_eq_getElem?_getD, h₂]

theorem take_bytesAt (m : Buffer) (off : Nat) {k n : Nat} (h : k ≤ n) :
    (bytesAt m off n).take k = bytesAt m off k := by
  obtain ⟨d, rfl⟩ := Nat.exists_eq_add_of_le h
  rw [bytesAt_add]
  simp

theorem drop_bytesAt (m : Buffer) (off : Nat) {k n : Nat} (h : k ≤ n) :
    (bytesAt m off n).drop k = bytesAt m (off + k) (n - k) := by
  obtain ⟨d, rfl⟩ := Nat.exists_eq_add_of_le h
  rw [bytesAt_add]
  simp

@[simp] theorem bytesAt_store_self (m : Buffer) (off : Nat) (bs : List UInt8) :
    bytesAt (store m off bs) off bs.length = bs := by
  rw [bytesAt_eq_iff]
  refine ⟨rfl, ?_⟩
  intro i hi
  simp [store, hi]

theorem bytesAt_store_of_disjoint (m : Buffer) {off off' n : Nat} (bs : List UInt8)
    (h : off' + n ≤ off ∨ off + bs.length ≤ off') :
    bytesAt (store m off bs) off' n = bytesAt m off' n := by
  refine bytesAt_congr ?_
  intro i hi
  have : ¬ (off ≤ off' + i ∧ off' + i < off + bs.length) := by
    omega
  simp [store, this]

/-- Writing a block just after a block that is already there. -/
theorem bytesAt_store_append (m : Buffer) (off : Nat) (n : Nat) (bs : List UInt8) :
    bytesAt (store m (off + n) bs) off (n + bs.length) = bytesAt m off n ++ bs := by
  rw [bytesAt_add, bytesAt_store_self, bytesAt_store_of_disjoint m bs (Or.inl (le_refl _))]

/-- Two writes that adjoin are one write. -/
theorem store_store (m : Buffer) (off : Nat) (as bs : List UInt8) :
    store (store m off as) (off + as.length) bs = store m off (as ++ bs) := by
  funext i
  unfold store
  rw [List.length_append]
  by_cases h₁ : off + as.length ≤ i ∧ i < off + as.length + bs.length
  · have h₂ : off ≤ i ∧ i < off + (as.length + bs.length) := by
      omega
    have h₃ : as.length ≤ i - off := by
      omega
    rw [if_pos h₁, if_pos h₂, List.getD_append_right _ _ _ _ h₃]
    congr 1
    omega
  · rw [if_neg h₁]
    by_cases h₂ : off ≤ i ∧ i < off + as.length
    · have h₃ : off ≤ i ∧ i < off + (as.length + bs.length) := by
        omega
      have h₄ : i - off < as.length := by
        omega
      rw [if_pos h₂, if_pos h₃, List.getD_append _ _ _ _ h₄]
    · have h₃ : ¬ (off ≤ i ∧ i < off + (as.length + bs.length)) := by
        omega
      rw [if_neg h₂, if_neg h₃]

/-- A write over a block of the same length. -/
theorem store_overwrite (m : Buffer) (off : Nat) {as bs : List UInt8}
    (h : as.length = bs.length) : store (store m off as) off bs = store m off bs := by
  funext i
  unfold store
  rw [h]
  split
  case isTrue => rfl
  case isFalse => rfl

/-- Outside of the block nothing is written. -/
theorem store_of_outside (m : Buffer) {off i : Nat} {bs : List UInt8}
    (h : i < off ∨ off + bs.length ≤ i) : store m off bs i = m i := by
  unfold store
  rw [if_neg]
  rintro ⟨hle, hlt⟩
  rcases h with h | h
  · exact absurd hle (Nat.not_le_of_lt h)
  · exact absurd hlt (Nat.not_lt_of_le h)

@[simp] theorem store_nil (m : Buffer) (off : Nat) : store m off [] = m := by
  funext i
  have : ¬ (off ≤ i ∧ i < off + 0) := by
    omega
  simp [store]

/-- A write of one byte. -/
theorem update_eq_store (m : Buffer) (off : Nat) (b : UInt8) :
    Function.update m off b = store m off [b] := by
  funext i
  unfold store
  rcases Nat.lt_trichotomy i off with hlt | heq | hgt
  · rw [Function.update_of_ne (Nat.ne_of_lt hlt), if_neg (fun h => absurd h.1 (Nat.not_le_of_lt hlt))]
  · subst heq
    simp
  · rw [Function.update_of_ne (Nat.ne_of_gt hgt), if_neg]
    rintro ⟨_, hlt⟩
    rw [List.length_singleton] at hlt
    omega

/-- A buffer holding `bs` from offset 0 and `rest` beyond. -/
def ofList (bs : List UInt8) (rest : Buffer) : Buffer :=
  store rest 0 bs

theorem bytesAt_ofList (bs : List UInt8) (rest : Buffer) :
    bytesAt (ofList bs rest) 0 bs.length = bs :=
  bytesAt_store_self rest 0 bs

theorem bytesAt_ofList_sub (bs : List UInt8) (rest : Buffer) {off n : Nat}
    (h : off + n ≤ bs.length) : bytesAt (ofList bs rest) off n = (bs.drop off).take n := by
  have hall : bytesAt (ofList bs rest) 0 bs.length = bs := bytesAt_ofList bs rest
  have hd : (bytesAt (ofList bs rest) 0 bs.length).drop off =
      bytesAt (ofList bs rest) (0 + off) (bs.length - off) :=
    drop_bytesAt _ _ (by omega)
  rw [hall] at hd
  rw [hd, take_bytesAt _ _ (by omega), Nat.zero_add]

theorem getD_bytesAt (m : Buffer) (off : Nat) {n i : Nat} (h : i < n) :
    (bytesAt m off n).getD i 0 = m (off + i) :=
  ((bytesAt_eq_iff.1 (rfl : bytesAt m off n = bytesAt m off n)).2 i h).symm

/-- Blocks that agree agree on every part. -/
theorem bytesAt_sub {m m' : Buffer} {off off' n : Nat} (h : bytesAt m off n = bytesAt m' off' n)
    {j k : Nat} (hjk : j + k ≤ n) : bytesAt m (off + j) k = bytesAt m' (off' + j) k := by
  have hpart := congrArg (fun bs => (bs.drop j).take k) h
  simp only [drop_bytesAt _ _ (show j ≤ n by omega)] at hpart
  rw [take_bytesAt _ _ (by omega), take_bytesAt _ _ (by omega)] at hpart
  exact hpart

theorem bytesAt_getD (bs : List UInt8) : bytesAt (fun i => bs.getD i 0) 0 bs.length = bs := by
  rw [bytesAt_eq_iff]
  refine ⟨rfl, ?_⟩
  intro i _
  rw [Nat.zero_add]

/-- The bytes of a block that was just written. -/
theorem bytesAt_store_of_length (m : Buffer) (off : Nat) {bs : List UInt8} {n : Nat}
    (h : bs.length = n) : bytesAt (store m off bs) off n = bs := by
  rw [← h, bytesAt_store_self]

/-- A block written back where it was read. -/
theorem store_bytesAt (m : Buffer) (off n : Nat) : store m off (bytesAt m off n) = m := by
  funext i
  unfold store
  split
  · rename_i h
    rw [length_bytesAt] at h
    rw [getD_bytesAt _ _ (by omega)]
    congr 1
    omega
  · rfl

/-- What is read behind the front part of a block of zeros. -/
theorem bytesAt_store_zeros (m : Buffer) {bs : List UInt8} {k n : Nat} (hk : bs.length ≤ k)
    (hn : k ≤ n) : bytesAt (store (store m 0 (List.replicate n 0)) 0 bs) 0 k =
      bs ++ List.replicate (k - bs.length) 0 := by
  have hsplit : k = bs.length + (k - bs.length) := by
    omega
  have hzeros : bytesAt (store m 0 (List.replicate n 0)) (0 + bs.length) (k - bs.length) =
      List.replicate (k - bs.length) 0 := by
    rw [bytesAt_eq_iff]
    refine ⟨List.length_replicate, ?_⟩
    intro i hi
    unfold store
    rw [List.length_replicate, if_pos (by omega), List.getD_replicate _ (by omega),
      List.getD_replicate _ (by omega)]
  conv_lhs => rw [hsplit]
  rw [bytesAt_add, bytesAt_store_self, bytesAt_store_of_disjoint _ _ (Or.inr (le_refl _)), hzeros]

end Bytes
end C64Https
