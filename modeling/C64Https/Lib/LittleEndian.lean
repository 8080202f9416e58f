import C64Https.Lib.Word32

/-!
# LittleEndian — numbers of many bytes, and the chains that work on them

`value` reads a string of bytes as a number, the first byte the lowest, and `num m off n` reads the
`n` bytes of a buffer from `off` on.  An operation on such numbers is a loop over their bytes that
hands a carry on:

* `adcLoop` — addition, from the lowest byte up;
* `rorLoop` — halving, from the highest byte down;
* `carryLoop` — a carry that runs up until it is taken.

What each chain does is one equation between numbers, in which the carry that falls off the end has
its weight; where the result fits, nothing falls off.
-/

namespace C64Https
namespace LittleEndian

open Bytes Word32

def value (bs : List UInt8) : Nat :=
  Nat.ofDigits 256 (bs.map UInt8.toNat)

@[simp] theorem value_nil : value [] = 0 :=
  rfl

theorem value_cons (b : UInt8) (bs : List UInt8) :
    value (b :: bs) = b.toNat + 256 * value bs := by
  unfold value
  rw [List.map_cons, Nat.ofDigits_cons]

theorem value_append (as bs : List UInt8) :
    value (as ++ bs) = value as + 256 ^ as.length * value bs := by
  unfold value
  rw [List.map_append, Nat.ofDigits_append, List.length_map]

theorem value_singleton (b : UInt8) : value [b] = b.toNat := by
  rw [value_cons, value_nil, Nat.mul_zero, Nat.add_zero]

theorem value_zeros (n : Nat) : value (List.replicate n 0) = 0 := by
  induction n with
  | zero => rfl
  | succ n ih =>
      rw [List.replicate_succ, value_cons, ih]
      rfl

theorem digit_lt (bs : List UInt8) : ∀ d ∈ bs.map UInt8.toNat, d < 256 := by
  intro d hd
  rcases List.mem_map.1 hd with ⟨b, -, rfl⟩
  exact b.toNat_lt

theorem value_lt (bs : List UInt8) : value bs < 256 ^ bs.length := by
  have h := Nat.ofDigits_lt_base_pow_length (by decide : 1 < 256) (digit_lt bs)
  rwa [List.length_map] at h

/-- Of a given length, a string is known by its value. -/
theorem value_inj {as bs : List UInt8} (hlen : as.length = bs.length) (h : value as = value bs) :
    as = bs := by
  have hdigits := Nat.ofDigits_inj_of_len_eq (by decide : 1 < 256)
    (by rwa [List.length_map, List.length_map]) (digit_lt as) (digit_lt bs) h
  have hinj : Function.Injective UInt8.toNat := fun _ _ => UInt8.toNat.inj
  exact List.map_injective_iff.2 hinj hdigits

/-- A mask works on each byte by itself. -/
theorem value_and : ∀ as bs : List UInt8, as.length = bs.length →
    value (List.zipWith (· &&& ·) as bs) = value as &&& value bs := by
  intro as
  induction as with
  | nil =>
      intro bs _
      simp
  | cons a as ih =>
      intro bs hlen
      cases bs with
      | nil => simp at hlen
      | cons b bs =>
          have hrest := ih bs (Nat.succ.inj hlen)
          have ha := a.toNat_lt
          have hb := b.toNat_lt
          have hlow : (a.toNat + 256 * value as &&& b.toNat + 256 * value bs) % 2 ^ 8 =
              a.toNat &&& b.toNat := by
            rw [Nat.and_mod_two_pow]
            congr 1 <;> omega
          have hhigh : (a.toNat + 256 * value as &&& b.toNat + 256 * value bs) / 2 ^ 8 =
              value as &&& value bs := by
            rw [Nat.and_div_two_pow]
            congr 1 <;> omega
          rw [List.zipWith_cons_cons, value_cons, value_cons, value_cons, hrest, UInt8.toNat_and,
            ← hlow, ← hhigh]
          omega

/-- `n` in `k` bytes; what does not fit is dropped. -/
def padded (k n : Nat) : List UInt8 :=
  match k with
  | 0 => []
  | k + 1 => UInt8.ofNat n :: padded k (n / 256)

@[simp] theorem length_padded (k : Nat) : ∀ n, (padded k n).length = k := by
  induction k with
  | zero =>
      intro n
      rfl
  | succ k ih =>
      intro n
      unfold padded
      rw [List.length_cons, ih]

theorem value_padded (k : Nat) : ∀ n, value (padded k n) = n % 256 ^ k := by
  induction k with
  | zero =>
      intro n
      rw [Nat.pow_zero, Nat.mod_one]
      rfl
  | succ k ih =>
      intro n
      unfold padded
      have hpow : 256 ^ (k + 1) = 256 * 256 ^ k := Nat.pow_succ'
      have hbyte : (UInt8.ofNat n).toNat = n % 256 := UInt8.toNat_ofNat'
      rw [value_cons, ih, hbyte, hpow, Nat.mod_mul]

/-- The bytes of a number are known by it. -/
theorem eq_padded {bs : List UInt8} {k n : Nat} (hlen : bs.length = k)
    (h : value bs = n % 256 ^ k) : bs = padded k n :=
  value_inj (by rw [hlen, length_padded]) (by rw [h, value_padded])

/-! ## Numbers in a buffer -/

/-- The number in the `n` bytes from `off` on. -/
def num (m : Buffer) (off n : Nat) : Nat :=
  value (bytesAt m off n)

@[simp] theorem num_zero (m : Buffer) (off : Nat) : num m off 0 = 0 := by
  unfold num
  rw [bytesAt_zero, value_nil]

theorem num_add (m : Buffer) (off a b : Nat) :
    num m off (a + b) = num m off a + 256 ^ a * num m (off + a) b := by
  unfold num
  rw [bytesAt_add, value_append, length_bytesAt]

theorem num_one (m : Buffer) (off : Nat) : num m off 1 = (m off).toNat := by
  unfold num
  rw [bytesAt_succ, bytesAt_zero, value_singleton]

/-- The highest byte apart. -/
theorem num_succ (m : Buffer) (off n : Nat) :
    num m off (n + 1) = num m off n + 256 ^ n * (m (off + n)).toNat := by
  rw [num_add, num_one]

/-- The lowest byte apart. -/
theorem num_cons (m : Buffer) (off n : Nat) :
    num m off (n + 1) = (m off).toNat + 256 * num m (off + 1) n := by
  rw [Nat.add_comm n 1, num_add, num_one, Nat.pow_one]

theorem num_lt (m : Buffer) (off n : Nat) : num m off n < 256 ^ n := by
  have h := value_lt (bytesAt m off n)
  rwa [length_bytesAt] at h

theorem num_congr {m m' : Buffer} {off off' n : Nat}
    (h : ∀ i < n, m (off + i) = m' (off' + i)) : num m off n = num m' off' n :=
  congrArg value (bytesAt_congr h)

theorem num_update_of_outside (m : Buffer) (off n : Nat) {a : Nat} (b : UInt8)
    (h : a < off ∨ off + n ≤ a) : num (Function.update m a b) off n = num m off n := by
  refine num_congr fun i hi => ?_
  rw [Function.update_of_ne]
  omega

/-- A byte written anew counts with its weight. -/
theorem num_update (m : Buffer) (off : Nat) {n i : Nat} (b : UInt8) (h : i < n) :
    num (Function.update m (off + i) b) off n + 256 ^ i * (m (off + i)).toNat =
      num m off n + 256 ^ i * b.toNat := by
  obtain ⟨k, rfl⟩ := Nat.exists_eq_add_of_le (Nat.succ_le_of_lt h)
  have hlow := num_update_of_outside m off i (a := off + i) b (Or.inr (le_refl _))
  have hhigh := num_update_of_outside m (off + (i + 1)) k (a := off + i) b
    (Or.inl (by omega))
  rw [Nat.succ_eq_add_one, num_add, num_add m, num_succ, num_succ m, hlow, hhigh,
    Function.update_self]
  omega

/-- A number that is not zero only in its lowest byte. -/
theorem num_eq_zero {m : Buffer} {off n : Nat} (h : ∀ i < n, m (off + i) = 0) :
    num m off n = 0 := by
  have hzeros : bytesAt m off n = List.replicate n 0 := by
    rw [bytesAt_eq_iff]
    refine ⟨List.length_replicate, fun i hi => ?_⟩
    rw [h i hi, List.getD_replicate _ hi]
  unfold num
  rw [hzeros, value_zeros]

/-! ## Chains -/

theorem toNat_adc (a b : UInt8) (c : Nat) :
    (adc a b c).1.toNat + 256 * (adc a b c).2 = a.toNat + b.toNat + c := by
  unfold adc
  rw [UInt8.toNat_ofNat']
  omega

/-- `adc a,y` with `b,y` to `dst,y`, for `x` bytes from `y` on; `a` may be `dst` itself, as every
byte is read before it is written. -/
def adcLoop (a b : Buffer) : Nat → Nat → Nat → Buffer → Buffer × Nat
  | 0, _, c, dst => (dst, c)
  | x + 1, y, c, dst =>
      let s := adc (a y) (b y) c
      adcLoop a b x (y + 1) s.2 (Function.update dst y s.1)

theorem adcLoop_of_outside (a b : Buffer) (x : Nat) : ∀ (y c : Nat) (dst : Buffer) (i : Nat),
    i < y ∨ y + x ≤ i → (adcLoop a b x y c dst).1 i = dst i := by
  induction x with
  | zero =>
      intro y c dst i _
      rfl
  | succ x ih =>
      intro y c dst i hi
      have hne : i ≠ y := by omega
      unfold adcLoop
      rw [ih _ _ _ _ (by omega), Function.update_of_ne hne]

/-- What was carried in and what is carried out make up for the difference. -/
theorem num_adcLoop (a b : Buffer) (x : Nat) : ∀ (y c : Nat) (dst : Buffer),
    num (adcLoop a b x y c dst).1 y x + 256 ^ x * (adcLoop a b x y c dst).2 =
      num a y x + num b y x + c := by
  induction x with
  | zero =>
      intro y c dst
      simp [adcLoop]
  | succ x ih =>
      intro y c dst
      have hbyte := toNat_adc (a y) (b y) c
      have hrest := ih (y + 1) (adc (a y) (b y) c).2
        (Function.update dst y (adc (a y) (b y) c).1)
      have hfirst := adcLoop_of_outside a b x (y + 1) (adc (a y) (b y) c).2
        (Function.update dst y (adc (a y) (b y) c).1) y (Or.inl (Nat.lt_succ_self y))
      rw [Function.update_self] at hfirst
      unfold adcLoop
      dsimp only
      rw [num_cons, num_cons a, num_cons b, hfirst, Nat.pow_succ]
      generalize adcLoop a b x (y + 1) (adc (a y) (b y) c).2
        (Function.update dst y (adc (a y) (b y) c).1) = r at hrest
      -- the equation of the rest, a byte up
      calc (adc (a y) (b y) c).1.toNat + 256 * num r.1 (y + 1) x + 256 ^ x * 256 * r.2
          = (adc (a y) (b y) c).1.toNat + 256 * (num r.1 (y + 1) x + 256 ^ x * r.2) := by ring
        _ = (a y).toNat + 256 * num a (y + 1) x + ((b y).toNat + 256 * num b (y + 1) x) + c := by
            rw [hrest]
            omega

theorem toNat_ror {b : UInt8} {c : Nat} (hc : c ≤ 1) :
    2 * (ror b c).1.toNat + (ror b c).2 = b.toNat + 256 * c := by
  have hb := b.toNat_lt
  unfold ror
  rw [UInt8.toNat_ofNat']
  omega

theorem ror_carry_le (b : UInt8) (c : Nat) : (ror b c).2 ≤ 1 := by
  unfold ror
  omega

/-- `ror m,x` for `y` bytes, the highest of them first; `x` is the place behind it. -/
def rorLoop : Nat → Nat → Nat → Buffer → Buffer × Nat
  | 0, _, c, m => (m, c)
  | y + 1, x, c, m =>
      let s := ror (m (x - 1)) c
      rorLoop y (x - 1) s.2 (Function.update m (x - 1) s.1)

theorem rorLoop_of_outside (y : Nat) : ∀ (x c : Nat) (m : Buffer) (i : Nat), y ≤ x →
    i < x - y ∨ x ≤ i → (rorLoop y x c m).1 i = m i := by
  induction y with
  | zero =>
      intro x c m i _ _
      rfl
  | succ y ih =>
      intro x c m i hx hi
      have hne : i ≠ x - 1 := by omega
      unfold rorLoop
      rw [ih _ _ _ _ (by omega) (by omega), Function.update_of_ne hne]

theorem num_rorLoop (off y : Nat) : ∀ (c : Nat) (m : Buffer), c ≤ 1 →
    2 * num (rorLoop y (off + y) c m).1 off y + (rorLoop y (off + y) c m).2 =
      num m off y + 256 ^ y * c := by
  induction y with
  | zero =>
      intro c m _
      simp [rorLoop]
  | succ y ih =>
      intro c m hc
      have hx : off + (y + 1) - 1 = off + y := rfl
      have hbyte := toNat_ror (b := m (off + y)) hc
      have hrest := ih (ror (m (off + y)) c).2
        (Function.update m (off + y) (ror (m (off + y)) c).1) (ror_carry_le _ _)
      have htop := rorLoop_of_outside y (off + y) (ror (m (off + y)) c).2
        (Function.update m (off + y) (ror (m (off + y)) c).1) (off + y) (by omega) (by omega)
      have hlow := num_update_of_outside m off y (a := off + y)
        (ror (m (off + y)) c).1 (Or.inr (le_refl _))
      rw [Function.update_self] at htop
      unfold rorLoop
      dsimp only
      rw [hx, num_succ, num_succ m, htop, Nat.pow_succ]
      rw [hlow] at hrest
      generalize rorLoop y (off + y) (ror (m (off + y)) c).2
        (Function.update m (off + y) (ror (m (off + y)) c).1) = r at hrest
      -- twice the top byte and the carry below it are the old top byte and the carry above
      calc 2 * (num r.1 off y + 256 ^ y * (ror (m (off + y)) c).1.toNat) + r.2
          = 2 * num r.1 off y + r.2 + 256 ^ y * (2 * (ror (m (off + y)) c).1.toNat) := by ring
        _ = num m off y + 256 ^ y * (2 * (ror (m (off + y)) c).1.toNat +
              (ror (m (off + y)) c).2) := by
            rw [hrest]
            ring
        _ = num m off y + 256 ^ y * (m (off + y)).toNat + 256 ^ y * 256 * c := by
            rw [hbyte]
            ring

/-- A carry into the byte at `x`, and on while it comes out again, with `n` bytes to go. -/
def carryLoop : Nat → Nat → Buffer → Buffer
  | 0, _, m => m
  | n + 1, x, m =>
      let s := adc (m x) 0 1
      if s.2 = 0 then Function.update m x s.1
      else carryLoop n (x + 1) (Function.update m x s.1)

/-- The carry is taken, unless the number would not fit. -/
theorem num_carryLoop (n : Nat) : ∀ (x : Nat) (m : Buffer), num m 0 (x + n) + 256 ^ x < 256 ^ (x + n) →
    num (carryLoop n x m) 0 (x + n) = num m 0 (x + n) + 256 ^ x := by
  induction n with
  | zero =>
      intro x m h
      exact absurd h (Nat.not_lt_of_le (Nat.le_add_left _ _))
  | succ n ih =>
      intro x m h
      have hzero : (0 : UInt8).toNat = 0 := rfl
      have hbyte := toNat_adc (m x) 0 1
      have hlt := (m x).toNat_lt
      have hweight := num_update m 0 (n := x + (n + 1)) (i := x) (adc (m x) 0 1).1 (by omega)
      rw [Nat.zero_add] at hweight
      unfold carryLoop
      dsimp only
      split
      · rename_i htaken
        have hone : (adc (m x) 0 1).1.toNat = (m x).toNat + 1 := by omega
        rw [hone, Nat.mul_add, Nat.mul_one] at hweight
        omega
      · rename_i hcarry
        have hfull : (m x).toNat = 255 := by omega
        have hclear : (adc (m x) 0 1).1.toNat = 0 := by omega
        have hassoc : x + (n + 1) = x + 1 + n := by omega
        rw [hclear, hfull, hassoc] at hweight
        rw [hassoc] at h ⊢
        have hsucc : 256 ^ (x + 1) = 256 ^ x * 256 := Nat.pow_succ ..
        rw [ih (x + 1) _ (by omega)]
        omega

end LittleEndian
end C64Https
