import Mathlib.Tactic

/-!
# Word — fixed-width counters kept as natural numbers

An 8-bit machine builds its 16-bit cursors from pairs of bytes and lets every sum and difference
wrap silently.  Here a cursor is a natural number and each operation states its own wrap, so that
"the subtraction did not underflow" is a fact to be proved and not a property of the type.

* `add16`, `sub16` — the two-byte `adc`/`sbc` pairs;
* `inc8`, `inc16`, `inc24` — the increment of a one-, two- and three-byte counter;
* `dec24` — the decrement of a three-byte counter;
* `word` — the value of a big-endian byte pair.
-/

namespace C64Https
namespace Word

def add16 (a b : Nat) : Nat :=
  (a + b) % 65536

def sub16 (a b : Nat) : Nat :=
  (a + 65536 - b % 65536) % 65536

def inc8 (a : Nat) : Nat :=
  (a + 1) % 256

def inc16 (a : Nat) : Nat :=
  (a + 1) % 65536

def inc24 (a : Nat) : Nat :=
  (a + 1) % 16777216

def dec24 (a : Nat) : Nat :=
  (a + 16777215) % 16777216

/-- The value of a big-endian byte pair. -/
def word (hi lo : UInt8) : Nat :=
  hi.toNat * 256 + lo.toNat

theorem toNat_lt (b : UInt8) : b.toNat < 256 :=
  b.toNat_lt

theorem word_lt (hi lo : UInt8) : word hi lo < 65536 := by
  have h₁ := toNat_lt hi
  have h₂ := toNat_lt lo
  unfold word
  omega

/-- The high and the low byte of a 16-bit value, as a big-endian field holds them. -/
def hi (n : Nat) : UInt8 :=
  UInt8.ofNat (n / 256)

def lo (n : Nat) : UInt8 :=
  UInt8.ofNat n

theorem word_hi_lo {n : Nat} (h : n < 65536) : word (hi n) (lo n) = n := by
  unfold word hi lo
  simp only [UInt8.toNat_ofNat']
  omega

theorem hi_word (a b : UInt8) : hi (word a b) = a := by
  have ha := toNat_lt a
  have hb := toNat_lt b
  refine UInt8.toNat.inj ?_
  unfold hi word
  rw [UInt8.toNat_ofNat']
  omega

theorem lo_word (a b : UInt8) : lo (word a b) = b := by
  have hb := toNat_lt b
  refine UInt8.toNat.inj ?_
  unfold lo word
  rw [UInt8.toNat_ofNat']
  omega

theorem add16_of_lt {a b : Nat} (h : a + b < 65536) : add16 a b = a + b := by
  unfold add16
  omega

theorem sub16_of_le {a b : Nat} (h : b ≤ a) (ha : a < 65536) : sub16 a b = a - b := by
  unfold sub16
  omega

/-- The distance back from a counter of any width, when two bytes hold it. -/
theorem sub16_of_near {a b : Nat} (h : b ≤ a) (hnear : a < b + 65536) : sub16 a b = a - b := by
  unfold sub16
  omega

/-- Stepping back and on again, even across the origin. -/
theorem add16_sub16 {a k i : Nat} (h : a + i < 65536) :
    add16 (sub16 a k) (k + i) = a + i := by
  unfold add16 sub16
  omega

theorem inc8_of_lt {a : Nat} (h : a + 1 < 256) : inc8 a = a + 1 := by
  unfold inc8
  omega

theorem inc16_of_lt {a : Nat} (h : a + 1 < 65536) : inc16 a = a + 1 := by
  unfold inc16
  omega

theorem inc24_of_lt {a : Nat} (h : a + 1 < 16777216) : inc24 a = a + 1 := by
  unfold inc24
  omega

theorem dec24_of_pos {a : Nat} (h : 0 < a) (hlt : a < 16777216) : dec24 a = a - 1 := by
  unfold dec24
  omega

theorem inc8_lt (a : Nat) : inc8 a < 256 := by
  unfold inc8
  omega

theorem add16_lt (a b : Nat) : add16 a b < 65536 := by
  unfold add16
  omega

theorem sub16_lt (a b : Nat) : sub16 a b < 65536 := by
  unfold sub16
  omega

-- The wraps stay folded: a cursor is compared through the lemmas above, never by unfolding.
attribute [irreducible] add16 sub16 inc8 inc16 inc24 dec24

end Word
end C64Https
