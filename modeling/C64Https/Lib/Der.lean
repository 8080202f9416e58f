import C64Https.Lib.Word
import C64Https.Lib.BigEndian

/-!
# Der — tag, length, value

`element` writes an element with a tag of one byte the one way that is distinguished, and `integer` the
contents of a number (`IsInteger.eq_integer`).
-/

namespace C64Https
namespace Der

open BigEndian

/-! ## Writing elements -/

/-- The length field of a value of `n` bytes. -/
def lengthField (n : Nat) : List UInt8 :=
  if n < 0x80 then [UInt8.ofNat n]
  else UInt8.ofNat (0x80 + (shortest n).length) :: shortest n

def element (tag : UInt8) (value : List UInt8) : List UInt8 :=
  tag :: (lengthField value.length ++ value)

theorem element_short {tag : UInt8} {value : List UInt8} (h : value.length < 0x80) :
    element tag value = tag :: UInt8.ofNat value.length :: value := by
  unfold element lengthField
  rw [if_pos h, List.singleton_append]

/-! ## INTEGERs -/

/-- The contents of the INTEGER of a number. -/
def integer (n : Nat) : List UInt8 :=
  match shortest n with
  | [] => [0]
  | b :: bs => if b < 0x80 then b :: bs else 0 :: b :: bs

/-- The contents of an INTEGER that is not negative, in as few bytes as it takes. -/
structure IsInteger (content : List UInt8) : Prop where
  nonempty : content ≠ []
  sign : ∀ b bs, content = b :: bs → b < 0x80
  noPad : ∀ b bs, content = 0 :: b :: bs → 0x80 ≤ b

theorem isInteger_integer (n : Nat) : IsInteger (integer n) := by
  unfold integer
  split
  case h_1 => exact ⟨by simp, by rintro b bs ⟨⟩; decide, by rintro b bs ⟨⟩⟩
  case h_2 b bs hb =>
    split
    case isTrue hsmall =>
      refine ⟨by simp, ?_, ?_⟩
      · rintro _ _ ⟨⟩
        exact hsmall
      · rintro c cs ⟨⟩
        exact absurd rfl (shortest_head hb)
    case isFalse hlarge =>
      refine ⟨by simp, ?_, ?_⟩
      · rintro _ _ ⟨⟩
        decide
      · rintro _ _ ⟨⟩
        exact UInt8.not_lt.1 hlarge

theorem value_integer (n : Nat) : value (integer n) = n := by
  unfold integer
  split
  case h_1 h =>
    have hzero : value (shortest n) = 0 := by
      rw [h, value_nil]
    rw [value_shortest] at hzero
    rw [hzero]
    rfl
  case h_2 b bs h =>
    have hvalue : value (b :: bs) = n := by
      rw [← h, value_shortest]
    split
    case isTrue => exact hvalue
    case isFalse =>
      rw [value_cons, hvalue]
      simp

/-- Contents are known by their value. -/
theorem IsInteger.eq_integer {content : List UInt8} (h : IsInteger content) :
    content = integer (value content) := by
  match content, h with
  | [], h => exact absurd rfl h.nonempty
  | b :: bs, h =>
      by_cases hb : b = 0
      · subst hb
        match bs, h with
        | [], _ => rfl
        | c :: cs, h =>
            have hc : 0x80 ≤ c := h.noPad c cs rfl
            have hne : c ≠ 0 := by
              rintro rfl
              exact absurd hc (by decide)
            have hvalue : value (0 :: c :: cs) = value (c :: cs) := value_zeros 1 (c :: cs)
            unfold integer
            rw [hvalue, ← eq_shortest hne]
            dsimp only
            rw [if_neg (UInt8.not_lt.2 hc)]
      · unfold integer
        rw [← eq_shortest hb]
        dsimp only
        rw [if_pos (h.sign b bs rfl)]

theorem length_integer_le {n k : Nat} (h : n < 256 ^ k) : (integer n).length ≤ k + 1 := by
  have hle := length_shortest_le_iff.2 h
  unfold integer
  split
  case h_1 =>
    rw [List.length_singleton]
    exact Nat.le_add_left 1 k
  case h_2 b bs hb =>
    rw [hb] at hle
    split
    case isTrue => exact Nat.le_succ_of_le hle
    case isFalse =>
      rw [List.length_cons]
      exact Nat.succ_le_succ hle

/-- A number of `k` bytes has contents of one byte more only behind a zero. -/
theorem head_integer {n k : Nat} (h : n < 256 ^ k) (hlen : (integer n).length = k + 1) (hk : 0 < k) :
    ∃ bs, integer n = 0 :: bs := by
  have hle := length_shortest_le_iff.2 h
  revert hlen
  unfold integer
  split
  case h_1 =>
    intro hlen
    rw [List.length_singleton] at hlen
    omega
  case h_2 b bs hb =>
    rw [hb] at hle
    split
    case isTrue =>
      intro hlen
      rw [hlen] at hle
      exact absurd hle (Nat.not_succ_le_self k)
    case isFalse => exact fun _ => ⟨b :: bs, rfl⟩

end Der
end C64Https
