import C64Https.Lib.Rfc8439
import C64Https.Lib.Word

/-!
# Poly1305 — the authenticator (`src/crypto/poly1305.s`)

The accumulator is a number of 17 bytes.  A block is added to it and the sum is multiplied by `r`, byte
by byte, through a table of quarter squares; the product of 33 bytes is brought back to 17 by adding five
times what lies above bit 130.  The reduction is partial: it keeps the accumulator below `5 * 2^128`, not
below the prime (`Ready.block`).  Only `poly1305_final` reduces it fully, by one subtraction.

Every loop is one equation between the numbers that the buffers hold.  Together they say that no carry is
lost and that the tag is the polynomial of the blocks (`poly1305_tag`), so that the message
authentication code is that of RFC 8439 (`poly1305Update_mac`).
-/

namespace C64Https
namespace Crypto
namespace Poly1305

open Bytes Word Word32 LittleEndian

/-! ## State -/

/-- `poly_r`, `poly_s`, `poly_h`, `poly_product`, `poly1305_tag`, and the table. -/
structure Poly where
  r : Buffer
  s : Buffer
  h : Buffer
  product : Buffer
  tag : Buffer
  sqtabLo : Buffer
  sqtabHi : Buffer

/-! ## `poly1305_init` -/

/-- `and #mask` on the byte at `i`. -/
def andAt (m : Buffer) (i : Nat) (mask : UInt8) : Buffer :=
  Function.update m i (m i &&& mask)

/-- `poly1305_clamp`, on `poly_r`. -/
def poly1305Clamp (r : Buffer) : Buffer :=
  let r := andAt (andAt (andAt (andAt r 3 0x0f) 7 0x0f) 11 0x0f) 15 0x0f
  andAt (andAt (andAt r 4 0xfc) 8 0xfc) 12 0xfc

/-- `sq_acc`, and the table so far. -/
structure SqTab where
  acc : Nat
  lo : Buffer
  hi : Buffer

/-- A turn of `sqtab_init`: the square is shifted down twice, and then goes on to the next. -/
def sqtabStep (t : SqTab) (i : Nat) : SqTab where
  acc := (t.acc + (2 * i + 1) % 65536) % 16777216
  lo := Function.update t.lo i (UInt8.ofNat (t.acc / 4))
  hi := Function.update t.hi i (UInt8.ofNat (t.acc / 4 / 256))

def sqtabInit (p : Poly) : Poly :=
  let t := (List.range 512).foldl sqtabStep ⟨0, p.sqtabLo, p.sqtabHi⟩
  { p with sqtabLo := t.lo, sqtabHi := t.hi }

def poly1305Init (p : Poly) : Poly :=
  sqtabInit { p with r := poly1305Clamp p.r, h := store p.h 0 (List.replicate 17 0) }

/-! ## `ct_mul_8x8` -/

/-- `sbc`. -/
def sbc (a b : UInt8) (c : Nat) : UInt8 × Nat :=
  (UInt8.ofNat (a.toNat + (255 - b.toNat) + c), (a.toNat + (255 - b.toNat) + c) / 256)

/-- `|a - b|`: what is negative is flipped by its mask and made one more. -/
def absDiff (a b : UInt8) : UInt8 :=
  let raw := sbc b a 1
  let mask := (sbc 0 0 raw.2).1
  (sbc (raw.1 ^^^ mask) mask 1).1

/-- `mul_8x8`, the low byte and the high byte: the carry of `a + b` selects the page of the table. -/
def mul8x8 (lo hi : Buffer) (a b : UInt8) : UInt8 × UInt8 :=
  let sum := adc b a 0
  let x := sum.1.toNat + 256 * sum.2
  let y := (absDiff a b).toNat
  let low := sbc (lo x) (lo y) 1
  (low.1, (sbc (hi x) (hi y) low.2).1)

/-! ## `poly1305_multiply` -/

/-- Two bytes into the product at `x`, and their carry up to its end. -/
def addProduct (product : Buffer) (x : Nat) (m : UInt8 × UInt8) : Buffer :=
  let s := adc (product x) m.1 0
  let t := adc (product (x + 1)) m.2 s.2
  let product := Function.update (Function.update product x s.1) (x + 1) t.1
  if t.2 = 0 then product else carryLoop (31 - x) (x + 2) product

/-- A turn of `@mul_inner`. -/
def mulStep (p : Poly) (i : Nat) (product : Buffer) (j : Nat) : Buffer :=
  if p.r j = 0 then product
  else addProduct product (i + j) (mul8x8 p.sqtabLo p.sqtabHi (p.h i) (p.r j))

/-- A turn of `@mul_outer`. -/
def mulRow (p : Poly) (product : Buffer) (i : Nat) : Buffer :=
  if p.h i = 0 then product else (List.range 16).foldl (mulStep p i) product

/-- `@reduce_loop` for `n` bytes from `x` on: five times the byte above, and the carry, in two bytes. -/
def reduceLoop (product : Buffer) : Nat → Nat → Nat → Buffer → Buffer × Nat
  | 0, _, c, h => (h, c)
  | n + 1, x, c, h =>
      let t := 5 * (product (16 + x)).toNat + c
      let s := adc (h x) (UInt8.ofNat t) 0
      reduceLoop product n (x + 1) ((t / 256 + s.2) % 256) (Function.update h x s.1)

def poly1305Reduce (p : Poly) : Poly :=
  let h := Function.update (store p.h 0 (bytesAt p.product 0 16)) 16 (p.product 16 &&& 0x03)
  let product := (rorLoop 17 33 0 (rorLoop 17 33 0 p.product).1).1
  { p with product := product, h := (reduceLoop product 17 0 0 h).1 }

def poly1305Multiply (p : Poly) : Poly :=
  let product := store p.product 0 (List.replicate 33 0)
  poly1305Reduce { p with product := (List.range 17).foldl (mulRow p) product }

/-! ## Blocks and the tag -/

/-- A block: what `zp_ptr` points to, and the high bit. -/
structure Block where
  bytes : Buffer
  high : Bool

def poly1305Block (p : Poly) (b : Block) : Poly :=
  let s := adcLoop p.h b.bytes 16 0 0 p.h
  let top := adc (s.1 16) (if b.high then 1 else 0) s.2
  poly1305Multiply { p with h := Function.update s.1 16 top.1 }

def poly1305Final (p : Poly) : Poly :=
  let five : Buffer := fun i => if i = 0 then 5 else 0
  let product := (adcLoop p.h five 17 0 0 p.product).1
  let h :=
    if product 16 &&& 0x04 = 0 then p.h
    else Function.update (store p.h 0 (bytesAt product 0 16)) 16 (product 16 &&& 0x03)
  let h := (adcLoop h p.s 16 0 0 h).1
  { p with product := product, h := h, tag := store p.tag 0 (bytesAt h 0 16) }

/-- `@last_block`: the bytes that are left, a one behind them, and zeros. -/
def lastBlock (mem : Buffer) (ptr n : Nat) : Block where
  bytes := store (fun _ => 0) 0 (bytesAt (fun y => mem (add16 ptr y)) 0 n ++ [1])
  high := false

/-- `poly1305_update`, with `n` bytes in `cc20_remain`. -/
def poly1305Update (mem : Buffer) (ptr n : Nat) (p : Poly) : Poly :=
  if n = 0 then p
  else if n < 16 then poly1305Block p (lastBlock mem ptr n)
  else poly1305Update mem (add16 ptr 16) (n - 16) (poly1305Block p ⟨fun y => mem (add16 ptr y), true⟩)
termination_by n

/-! ## The clamp -/

section Clamp

/-- The mask, byte by byte. -/
def clampMask : List UInt8 :=
  [0xff, 0xff, 0xff, 0x0f, 0xfc, 0xff, 0xff, 0x0f, 0xfc, 0xff, 0xff, 0x0f, 0xfc, 0xff, 0xff, 0x0f]

theorem value_clampMask : value clampMask = 0x0ffffffc0ffffffc0ffffffc0fffffff := by
  decide

theorem and_ff (b : UInt8) : b &&& 0xff = b := by
  refine forall_byte (p := fun b => b &&& 0xff = b) ?_ b
  decide +kernel

theorem bytesAt_poly1305Clamp (r : Buffer) :
    bytesAt (poly1305Clamp r) 0 16 = List.zipWith (· &&& ·) (bytesAt r 0 16) clampMask := by
  simp [bytesAt, poly1305Clamp, andAt, clampMask, List.range_succ, Function.update_apply, and_ff]

theorem num_poly1305Clamp (r : Buffer) :
    num (poly1305Clamp r) 0 16 = Rfc8439.clamp (num r 0 16) := by
  have hlen : (bytesAt r 0 16).length = clampMask.length := length_bytesAt r 0 16
  unfold num Rfc8439.clamp
  rw [bytesAt_poly1305Clamp, value_and _ _ hlen, value_clampMask]

theorem clamp_lt (r : Nat) : Rfc8439.clamp r < 2 ^ 124 := by
  have hle : Rfc8439.clamp r ≤ 0x0ffffffc0ffffffc0ffffffc0fffffff := Nat.and_le_right
  exact Nat.lt_of_le_of_lt hle (by decide)

end Clamp

/-! ## The table and the multiplication -/

section Table

/-- The table of quarter squares. -/
structure Quarters (lo hi : Buffer) : Prop where
  at_lo : ∀ i < 512, lo i = UInt8.ofNat (i * i / 4)
  at_hi : ∀ i < 512, hi i = UInt8.ofNat (i * i / 4 / 256)

theorem sqtabSteps (lo hi : Buffer) (n : Nat) (hn : n ≤ 512) :
    ∀ t, (List.range n).foldl sqtabStep ⟨0, lo, hi⟩ = t →
      t.acc = n * n ∧ (∀ i < n, t.lo i = UInt8.ofNat (i * i / 4)) ∧
        ∀ i < n, t.hi i = UInt8.ofNat (i * i / 4 / 256) := by
  induction n with
  | zero =>
      rintro t rfl
      exact ⟨rfl, fun i hi => absurd hi (Nat.not_lt_zero i), fun i hi => absurd hi (Nat.not_lt_zero i)⟩
  | succ n ih =>
      rintro _ rfl
      rw [List.range_succ, List.foldl_append, List.foldl_cons, List.foldl_nil]
      obtain ⟨hacc, hlo, hhi⟩ := ih (by omega) _ rfl
      generalize (List.range n).foldl sqtabStep ⟨0, lo, hi⟩ = t at hacc hlo hhi
      have hsquare : n * n ≤ 511 * 511 := Nat.mul_le_mul (by omega) (by omega)
      refine ⟨?_, ?_, ?_⟩
      · show (t.acc + (2 * n + 1) % 65536) % 16777216 = (n + 1) * (n + 1)
        have hnext : (n + 1) * (n + 1) = n * n + (2 * n + 1) := by ring
        rw [hnext, hacc]
        omega
      · intro i hi
        show Function.update t.lo n _ i = _
        by_cases hlast : i = n
        · rw [hlast, Function.update_self, hacc]
        · rw [Function.update_of_ne hlast, hlo i (by omega)]
      · intro i hi
        show Function.update t.hi n _ i = _
        by_cases hlast : i = n
        · rw [hlast, Function.update_self, hacc]
        · rw [Function.update_of_ne hlast, hhi i (by omega)]

theorem quarters_sqtabInit (p : Poly) : Quarters (sqtabInit p).sqtabLo (sqtabInit p).sqtabHi := by
  unfold sqtabInit
  dsimp only
  generalize ht : (List.range 512).foldl sqtabStep ⟨0, p.sqtabLo, p.sqtabHi⟩ = t
  obtain ⟨-, hlo, hhi⟩ := sqtabSteps p.sqtabLo p.sqtabHi 512 (Nat.le_refl _) t ht
  exact ⟨hlo, hhi⟩

theorem toNat_sbc (a b : UInt8) (c : Nat) :
    (sbc a b c).1.toNat + 256 * (sbc a b c).2 + b.toNat = a.toNat + 255 + c := by
  have hb := b.toNat_lt
  unfold sbc
  rw [UInt8.toNat_ofNat']
  omega

theorem toNat_absDiff (a b : UInt8) :
    (absDiff a b).toNat = a.toNat - b.toNat + (b.toNat - a.toNat) := by
  have ha := a.toNat_lt
  have hb := b.toNat_lt
  have hraw := toNat_sbc b a 1
  have hlt := (sbc b a 1).1.toNat_lt
  unfold absDiff
  dsimp only
  generalize sbc b a 1 = raw at hraw hlt
  by_cases hle : a.toNat ≤ b.toNat
  · -- no borrow, and the mask is zero
    have hcarry : raw.2 = 1 := by omega
    have hmask : (sbc 0 0 1).1 = 0 := by decide
    have hzero : raw.1 ^^^ 0 = raw.1 := UInt8.xor_zero
    have hsame := toNat_sbc raw.1 0 1
    have hnil : (0 : UInt8).toNat = 0 := rfl
    have hbyte := (sbc raw.1 0 1).1.toNat_lt
    rw [hcarry, hmask, hzero]
    omega
  · have hcarry : raw.2 = 0 := by omega
    have hmask : (sbc 0 0 0).1 = 0xff := by decide
    have hflip : (raw.1 ^^^ 0xff).toNat = 255 - raw.1.toNat := by
      rw [Quad.xor_ff, UInt8.toNat_not]
      rfl
    have hsame := toNat_sbc (raw.1 ^^^ 0xff) 0xff 1
    have hfull : (0xff : UInt8).toNat = 255 := rfl
    have hbyte := (sbc (raw.1 ^^^ 0xff) 0xff 1).1.toNat_lt
    rw [hcarry, hmask]
    omega

/-- `a * b` is the difference of two quarter squares. -/
theorem quarter_squares {a b n m : Nat} (hn : n = a + b) (hm : m = a - b + (b - a)) :
    n * n / 4 = m * m / 4 + a * b := by
  have hsquare : n * n = m * m + 4 * (a * b) := by
    rcases Nat.le_total a b with hle | hle
    · obtain ⟨k, rfl⟩ := Nat.exists_eq_add_of_le hle
      have hk : m = k := by omega
      rw [hn, hk]
      ring
    · obtain ⟨k, rfl⟩ := Nat.exists_eq_add_of_le hle
      have hk : m = k := by omega
      rw [hn, hk]
      ring
  rw [hsquare]
  omega

/-- Through the table the two bytes are the product. -/
theorem toNat_mul8x8 {lo hi : Buffer} (h : Quarters lo hi) (a b : UInt8) :
    (mul8x8 lo hi a b).1.toNat + 256 * (mul8x8 lo hi a b).2.toNat = a.toNat * b.toNat := by
  have ha := a.toNat_lt
  have hb := b.toNat_lt
  have hsum := toNat_adc b a 0
  have hdiff := toNat_absDiff a b
  unfold mul8x8
  dsimp only
  generalize hx : (adc b a 0).1.toNat + 256 * (adc b a 0).2 = x at hsum
  generalize hy : (absDiff a b).toNat = y at hdiff
  have hprod := quarter_squares (show x = a.toNat + b.toNat by omega) hdiff
  have hxlt : x ≤ 510 := by omega
  have hylt : y ≤ 255 := by omega
  have hxx : x * x ≤ 510 * 510 := Nat.mul_le_mul hxlt hxlt
  have hyy : y * y ≤ 255 * 255 := Nat.mul_le_mul hylt hylt
  rw [h.at_lo x (by omega), h.at_lo y (by omega), h.at_hi x (by omega), h.at_hi y (by omega)]
  have hlow := toNat_sbc (UInt8.ofNat (x * x / 4)) (UInt8.ofNat (y * y / 4)) 1
  have hlowlt := (sbc (UInt8.ofNat (x * x / 4)) (UInt8.ofNat (y * y / 4)) 1).1.toNat_lt
  generalize sbc (UInt8.ofNat (x * x / 4)) (UInt8.ofNat (y * y / 4)) 1 = low at hlow hlowlt
  have hhigh := toNat_sbc (UInt8.ofNat (x * x / 4 / 256)) (UInt8.ofNat (y * y / 4 / 256)) low.2
  have hhighlt :=
    (sbc (UInt8.ofNat (x * x / 4 / 256)) (UInt8.ofNat (y * y / 4 / 256)) low.2).1.toNat_lt
  generalize sbc (UInt8.ofNat (x * x / 4 / 256)) (UInt8.ofNat (y * y / 4 / 256)) low.2 = high
    at hhigh hhighlt
  rw [UInt8.toNat_ofNat', UInt8.toNat_ofNat'] at hlow hhigh
  generalize x * x / 4 = p at hprod hlow hhigh
  generalize y * y / 4 = q at hprod hlow hhigh
  have hab : a.toNat * b.toNat ≤ 255 * 255 := Nat.mul_le_mul (by omega) (by omega)
  generalize a.toNat * b.toNat = ab at hprod hab ⊢
  omega

end Table

/-! ## The product -/

section Product

/-- Nothing is lost of what is added, when the sum fits. -/
theorem num_addProduct (product : Buffer) {x : Nat} (m : UInt8 × UInt8) (hx : x + 1 < 33)
    (hfits : num product 0 33 + 256 ^ x * (m.1.toNat + 256 * m.2.toNat) < 256 ^ 33) :
    num (addProduct product x m) 0 33 =
      num product 0 33 + 256 ^ x * (m.1.toNat + 256 * m.2.toNat) := by
  have hlow := toNat_adc (product x) m.1 0
  have hhigh := toNat_adc (product (x + 1)) m.2 (adc (product x) m.1 0).2
  have hcarry : (adc (product (x + 1)) m.2 (adc (product x) m.1 0).2).2 ≤ 1 := by
    have h₁ := (product x).toNat_lt
    have h₂ := m.1.toNat_lt
    have h₃ := (product (x + 1)).toNat_lt
    have h₄ := m.2.toNat_lt
    omega
  unfold addProduct
  dsimp only
  generalize adc (product x) m.1 0 = s at hlow hhigh hcarry ⊢
  generalize adc (product (x + 1)) m.2 s.2 = t at hhigh hcarry ⊢
  have hfirst := num_update product 0 (n := 33) (i := x) s.1 (by omega)
  have hsecond := num_update (Function.update product x s.1) 0 (n := 33) (i := x + 1) t.1 hx
  rw [Nat.zero_add] at hfirst hsecond
  rw [Function.update_of_ne (show x + 1 ≠ x by omega)] at hsecond
  generalize Function.update (Function.update product x s.1) (x + 1) t.1 = stored at hsecond ⊢
  generalize num (Function.update product x s.1) 0 33 = middle at hfirst hsecond
  -- the two bytes that are stored make up for the two that were there, and the carry is due
  have hpow : 256 ^ (x + 1) = 256 ^ x * 256 := Nat.pow_succ ..
  have hpow' : 256 ^ (x + 2) = 256 ^ x * 65536 := by
    rw [Nat.pow_add]
  have hdue : num stored 0 33 + 256 ^ (x + 2) * t.2 =
      num product 0 33 + 256 ^ x * (m.1.toNat + 256 * m.2.toNat) := by
    have hbytes : 256 ^ x * s.1.toNat + 256 ^ (x + 1) * t.1.toNat + 256 ^ (x + 2) * t.2 =
        256 ^ x * (product x).toNat + 256 ^ (x + 1) * (product (x + 1)).toNat +
          256 ^ x * (m.1.toNat + 256 * m.2.toNat) := by
      rw [hpow, hpow']
      calc 256 ^ x * s.1.toNat + 256 ^ x * 256 * t.1.toNat + 256 ^ x * 65536 * t.2
          = 256 ^ x * (s.1.toNat + 256 * (t.1.toNat + 256 * t.2)) := by ring
        _ = 256 ^ x * (s.1.toNat + 256 * s.2 + 256 * ((product (x + 1)).toNat + m.2.toNat)) := by
            rw [hhigh]
            ring
        _ = 256 ^ x * (product x).toNat + 256 ^ x * 256 * (product (x + 1)).toNat +
              256 ^ x * (m.1.toNat + 256 * m.2.toNat) := by
            rw [hlow]
            ring
    omega
  rw [← hdue] at hfits ⊢
  split
  · rename_i hnone
    rw [hnone, Nat.mul_zero, Nat.add_zero]
  · rename_i hsome
    have hone : t.2 = 1 := by omega
    rw [hone, Nat.mul_one] at hfits ⊢
    -- the carry finds its place, for the sum fits
    have hplace : x + 2 + (31 - x) = 33 := by omega
    have hrun := num_carryLoop (31 - x) (x + 2) stored
    rw [hplace] at hrun
    exact hrun hfits

variable {p : Poly}

theorem num_mono (m : Buffer) (off : Nat) {k n : Nat} (h : k ≤ n) : num m off k ≤ num m off n := by
  obtain ⟨j, rfl⟩ := Nat.exists_eq_add_of_le h
  rw [num_add]
  exact Nat.le_add_right _ _

/-- The first `k` turns of `@mul_inner`: a row of the product. -/
theorem num_mulSteps (hq : Quarters p.sqtabLo p.sqtabHi) {i : Nat} (hi : i < 17) (k : Nat)
    (hk : k ≤ 16) (product : Buffer)
    (hfits : num product 0 33 + 256 ^ i * ((p.h i).toNat * num p.r 0 16) < 256 ^ 33) :
    num ((List.range k).foldl (mulStep p i) product) 0 33 =
      num product 0 33 + 256 ^ i * ((p.h i).toNat * num p.r 0 k) := by
  induction k with
  | zero =>
      rw [num_zero, Nat.mul_zero, Nat.mul_zero, Nat.add_zero]
      rfl
  | succ k ih =>
      have hrow := ih (by omega)
      rw [List.range_succ, List.foldl_append, List.foldl_cons, List.foldl_nil]
      generalize (List.range k).foldl (mulStep p i) product = row at hrow ⊢
      have hsum : num product 0 33 + 256 ^ i * ((p.h i).toNat * num p.r 0 (k + 1)) =
          num row 0 33 + 256 ^ (i + k) * ((p.h i).toNat * (p.r k).toNat) := by
        rw [hrow, num_succ p.r 0 k, Nat.zero_add, Nat.pow_add]
        ring
      rw [hsum]
      unfold mulStep
      split
      · -- a byte of zero adds nothing
        rename_i hzero
        rw [hzero]
        simp
      · have hprod := toNat_mul8x8 hq (p.h i) (p.r k)
        rw [← hprod] at hsum ⊢
        refine num_addProduct row _ (by omega) ?_
        rw [← hsum]
        refine Nat.lt_of_le_of_lt (Nat.add_le_add_left ?_ _) hfits
        exact Nat.mul_le_mul_left _ (Nat.mul_le_mul_left _ (num_mono p.r 0 hk))

/-- The first `k` turns of `@mul_outer`. -/
theorem num_mulRows (hq : Quarters p.sqtabLo p.sqtabHi) (k : Nat) (hk : k ≤ 17) (product : Buffer)
    (hzero : num product 0 33 = 0) :
    num ((List.range k).foldl (mulRow p) product) 0 33 = num p.h 0 k * num p.r 0 16 := by
  induction k with
  | zero =>
      rw [num_zero, Nat.zero_mul]
      exact hzero
  | succ k ih =>
      have hrows := ih (by omega)
      rw [List.range_succ, List.foldl_append, List.foldl_cons, List.foldl_nil]
      generalize (List.range k).foldl (mulRow p) product = rows at hrows ⊢
      have hsum : num p.h 0 (k + 1) * num p.r 0 16 =
          num rows 0 33 + 256 ^ k * ((p.h k).toNat * num p.r 0 16) := by
        rw [hrows, num_succ p.h 0 k, Nat.zero_add]
        ring
      have hfits : num p.h 0 (k + 1) * num p.r 0 16 < 256 ^ 33 := by
        have hh := num_lt p.h 0 17
        have hr := num_lt p.r 0 16
        calc num p.h 0 (k + 1) * num p.r 0 16
            ≤ num p.h 0 17 * num p.r 0 16 := Nat.mul_le_mul_right _ (num_mono p.h 0 hk)
          _ < 256 ^ 17 * 256 ^ 16 := Nat.mul_lt_mul'' hh hr
          _ = 256 ^ 33 := by rw [← Nat.pow_add]
      rw [hsum] at hfits ⊢
      unfold mulRow
      split
      · rename_i hbyte
        rw [hbyte]
        simp
      · exact num_mulSteps hq (by omega) 16 (Nat.le_refl _) rows hfits

end Product

/-! ## The partial reduction -/

section Reduce

theorem reduceLoop_of_outside (product : Buffer) (n : Nat) : ∀ (x c : Nat) (h : Buffer) (i : Nat),
    i < x ∨ x + n ≤ i → (reduceLoop product n x c h).1 i = h i := by
  induction n with
  | zero =>
      intro x c h i _
      rfl
  | succ n ih =>
      intro x c h i hi
      have hne : i ≠ x := by omega
      unfold reduceLoop
      rw [ih _ _ _ _ (by omega), Function.update_of_ne hne]

/-- Five times the bytes above are added, and the carry stays below seven. -/
theorem num_reduceLoop (product : Buffer) (n : Nat) : ∀ (x c : Nat) (h : Buffer), c ≤ 6 →
    num (reduceLoop product n x c h).1 x n + 256 ^ n * (reduceLoop product n x c h).2 =
      num h x n + 5 * num product (16 + x) n + c := by
  induction n with
  | zero =>
      intro x c h _
      simp [reduceLoop]
  | succ n ih =>
      intro x c h hc
      have hbyte := (product (16 + x)).toNat_lt
      have hadd := toNat_adc (h x) (UInt8.ofNat (5 * (product (16 + x)).toNat + c)) 0
      have hsmall : (UInt8.ofNat (5 * (product (16 + x)).toNat + c)).toNat =
          (5 * (product (16 + x)).toNat + c) % 256 := UInt8.toNat_ofNat'
      have hx := (h x).toNat_lt
      have hlow := (adc (h x) (UInt8.ofNat (5 * (product (16 + x)).toNat + c)) 0).1.toNat_lt
      unfold reduceLoop
      dsimp only
      rw [hsmall] at hadd
      generalize adc (h x) (UInt8.ofNat (5 * (product (16 + x)).toNat + c)) 0 = s at hadd hlow ⊢
      have hfive : (5 * (product (16 + x)).toNat + c) / 256 ≤ 5 := by omega
      have hone : s.2 ≤ 1 := by omega
      have hcarry : ((5 * (product (16 + x)).toNat + c) / 256 + s.2) % 256 ≤ 6 :=
        Nat.le_trans (Nat.mod_le _ _) (Nat.add_le_add hfive hone)
      have hrest := ih (x + 1) _ (Function.update h x s.1) hcarry
      have hkept := reduceLoop_of_outside product n (x + 1)
        (((5 * (product (16 + x)).toNat + c) / 256 + s.2) % 256) (Function.update h x s.1) x
        (Or.inl (Nat.lt_succ_self x))
      rw [Function.update_self] at hkept
      have houter := num_update_of_outside h (x + 1) n (a := x) s.1 (Or.inl (Nat.lt_succ_self x))
      have hplace : 16 + (x + 1) = 16 + x + 1 := rfl
      rw [num_cons, num_cons h, num_cons product, hkept, Nat.pow_succ]
      rw [houter, hplace] at hrest
      generalize reduceLoop product n (x + 1)
        (((5 * (product (16 + x)).toNat + c) / 256 + s.2) % 256) (Function.update h x s.1) = r
        at hrest ⊢
      -- the byte and the carry that comes out of it
      have hout : s.1.toNat + 256 * (((5 * (product (16 + x)).toNat + c) / 256 + s.2) % 256) =
          (h x).toNat + 5 * (product (16 + x)).toNat + c := by
        omega
      calc s.1.toNat + 256 * num r.1 (x + 1) n + 256 ^ n * 256 * r.2
          = s.1.toNat + 256 * (num r.1 (x + 1) n + 256 ^ n * r.2) := by ring
        _ = s.1.toNat + 256 * (((5 * (product (16 + x)).toNat + c) / 256 + s.2) % 256) +
              256 * (num h (x + 1) n + 5 * num product (16 + x + 1) n) := by
            rw [hrest]
            ring
        _ = (h x).toNat + 256 * num h (x + 1) n +
              5 * ((product (16 + x)).toNat + 256 * num product (16 + x + 1) n) + c := by
            rw [hout]
            ring

variable {p : Poly}

theorem rorLoop_carry_le (y : Nat) : ∀ (x c : Nat) (m : Buffer), c ≤ 1 → (rorLoop y x c m).2 ≤ 1 := by
  induction y with
  | zero =>
      intro x c m hc
      exact hc
  | succ y ih =>
      intro x c m _
      unfold rorLoop
      exact ih _ _ _ (ror_carry_le _ _)

theorem toNat_and_three (b : UInt8) : (b &&& 0x03).toNat = b.toNat % 4 := by
  refine forall_byte (p := fun b => (b &&& 0x03).toNat = b.toNat % 4) ?_ b
  decide +kernel

/-- The 130 bits that stay of a number. -/
theorem num_bottom (m h : Buffer) (n : Nat) :
    num (Function.update (store h 0 (bytesAt m 0 16)) 16 (m 16 &&& 0x03)) 0 17 =
      num m 0 (17 + n) % 2 ^ 130 := by
  have hlow : num (Function.update (store h 0 (bytesAt m 0 16)) 16 (m 16 &&& 0x03)) 0 16 =
      num m 0 16 := by
    rw [num_update_of_outside (store h 0 (bytesAt m 0 16)) 0 16 (a := 16) _ (Or.inr (Nat.le_refl _))]
    unfold num
    rw [bytesAt_store_of_length h 0 (length_bytesAt m 0 16)]
  have hlt := num_lt m 0 16
  have hpow : (256 : Nat) ^ 16 = 2 ^ 128 := by norm_num
  have hplace : 17 + n = 16 + (n + 1) := by omega
  have hsplit : num m 0 (17 + n) = num m 0 16 + 256 ^ 16 * ((m 16).toNat + 256 * num m 17 n) := by
    rw [hplace, num_add m 0 16 (n + 1), num_cons m (0 + 16) n]
  rw [num_succ, hlow, Nat.zero_add, Function.update_self, toNat_and_three, hsplit, hpow]
  rw [hpow] at hlt
  omega

/-- And what lies above them. -/
theorem num_above (m : Buffer) :
    num (rorLoop 17 33 0 (rorLoop 17 33 0 m).1).1 16 17 = num m 0 33 / 2 ^ 130 := by
  have hfirst := num_rorLoop 16 17 0 m (Nat.zero_le _)
  have hsecond := num_rorLoop 16 17 0 (rorLoop 17 33 0 m).1 (Nat.zero_le _)
  have hlt := num_lt m 0 16
  have hpow : (256 : Nat) ^ 16 = 2 ^ 128 := by norm_num
  have hsplit : num m 0 33 = num m 0 16 + 256 ^ 16 * num m 16 17 := num_add m 0 16 17
  have hbit₁ : (rorLoop 17 33 0 m).2 ≤ 1 := rorLoop_carry_le 17 33 0 m (Nat.zero_le _)
  have hbit₂ : (rorLoop 17 33 0 (rorLoop 17 33 0 m).1).2 ≤ 1 :=
    rorLoop_carry_le 17 33 0 _ (Nat.zero_le _)
  have hplace : 16 + 17 = 33 := rfl
  rw [hplace] at hfirst hsecond
  generalize rorLoop 17 33 0 (rorLoop 17 33 0 m).1 = u at hsecond hbit₂ ⊢
  generalize rorLoop 17 33 0 m = v at hfirst hsecond hbit₁
  rw [hsplit, hpow]
  rw [hpow] at hlt
  omega

/-- What `poly1305_reduce` makes of a product: five times the part above the 130 bits is added to the part
below, and no carry is lost. -/
theorem num_poly1305Reduce
    (hfits : num p.product 0 33 % 2 ^ 130 + 5 * (num p.product 0 33 / 2 ^ 130) < 256 ^ 17) :
    num (poly1305Reduce p).h 0 17 =
      num p.product 0 33 % 2 ^ 130 + 5 * (num p.product 0 33 / 2 ^ 130) := by
  have hbottom := num_bottom p.product p.h 16
  have habove := num_above p.product
  have hloop := num_reduceLoop (rorLoop 17 33 0 (rorLoop 17 33 0 p.product).1).1 17 0 0
    (Function.update (store p.h 0 (bytesAt p.product 0 16)) 16 (p.product 16 &&& 0x03))
    (Nat.zero_le _)
  unfold poly1305Reduce
  dsimp only
  rw [hbottom, Nat.add_zero, habove] at hloop
  generalize reduceLoop (rorLoop 17 33 0 (rorLoop 17 33 0 p.product).1).1 17 0 0
    (Function.update (store p.h 0 (bytesAt p.product 0 16)) 16 (p.product 16 &&& 0x03)) = u at hloop ⊢
  rw [← hloop] at hfits ⊢
  -- a carry out of the seventeen bytes would not fit
  have hnone : u.2 = 0 := by
    by_contra hsome
    have hle : 256 ^ 17 * 1 ≤ 256 ^ 17 * u.2 := Nat.mul_le_mul_left _ (Nat.one_le_iff_ne_zero.2 hsome)
    omega
  rw [hnone, Nat.mul_zero, Nat.add_zero]

end Reduce

/-! ## A block -/

section Blocks

variable {p : Poly}

/-- The number that a block adds. -/
def Block.value (b : Block) : Nat :=
  num b.bytes 0 16 + 2 ^ 128 * b.high.toNat

/-- What holds between blocks: the table is there, `r` is clamped, and the accumulator is within its
bound. -/
structure Ready (r : Nat) (p : Poly) : Prop where
  table : Quarters p.sqtabLo p.sqtabHi
  key : num p.r 0 16 = r
  clamped : r < 2 ^ 124
  bound : num p.h 0 17 < 5 * 2 ^ 128

theorem Block.value_lt (b : Block) : b.value < 2 ^ 129 := by
  have hlt := num_lt b.bytes 0 16
  have hpow : (256 : Nat) ^ 16 = 2 ^ 128 := by norm_num
  have hhigh : b.high.toNat ≤ 1 := Bool.toNat_le b.high
  unfold Block.value
  rw [hpow] at hlt
  omega

/-- What the partial reduction makes of a product. -/
def partly (x : Nat) : Nat :=
  x % 2 ^ 130 + 5 * (x / 2 ^ 130)

/-- It is the same modulo the prime. -/
theorem partly_modEq (x : Nat) : partly x ≡ x [MOD Rfc8439.prime] := by
  have hsplit : x = x % 2 ^ 130 + 2 ^ 130 * (x / 2 ^ 130) := (Nat.mod_add_div x _).symm
  have hfive : 5 ≡ 2 ^ 130 [MOD Rfc8439.prime] := by decide
  unfold partly
  nth_rewrite 3 [hsplit]
  exact (Nat.ModEq.refl _).add (hfive.mul_right _)

/-- A sum that is within the bound of a block is back within the bound of the accumulator. -/
theorem partly_lt {a r : Nat} (ha : a < 7 * 2 ^ 128) (hr : r < 2 ^ 124) : partly (a * r) < 5 * 2 ^ 128 := by
  have hprod : a * r < 7 * 2 ^ 128 * 2 ^ 124 := Nat.mul_lt_mul'' ha hr
  have habove : a * r / 2 ^ 130 < 7 * 2 ^ 122 := by
    rw [Nat.div_lt_iff_lt_mul (Nat.two_pow_pos 130)]
    exact Nat.lt_of_lt_of_le hprod (by norm_num)
  have hbelow : a * r % 2 ^ 130 < 2 ^ 130 := Nat.mod_lt _ (Nat.two_pow_pos 130)
  unfold partly
  omega

/-- The sum of the accumulator and a block, before the multiplication: nothing falls off. -/
theorem num_added (p : Poly) (b : Block) (hbound : num p.h 0 17 < 5 * 2 ^ 128) :
    let s := adcLoop p.h b.bytes 16 0 0 p.h
    let top := adc (s.1 16) (if b.high then 1 else 0) s.2
    num (Function.update s.1 16 top.1) 0 17 = num p.h 0 17 + b.value := by
  dsimp only
  have hchain := num_adcLoop p.h b.bytes 16 0 0 p.h
  have htop := adcLoop_of_outside p.h b.bytes 16 0 0 p.h 16 (Or.inr (Nat.le_refl _))
  generalize adcLoop p.h b.bytes 16 0 0 p.h = s at hchain htop ⊢
  have hsum := toNat_adc (s.1 16) (if b.high then 1 else 0) s.2
  have hlast := (adc (s.1 16) (if b.high then 1 else 0) s.2).1.toNat_lt
  generalize adc (s.1 16) (if b.high then 1 else 0) s.2 = top at hsum hlast ⊢
  have hbit : (if b.high then (1 : UInt8) else 0).toNat = b.high.toNat := by
    cases b.high
    · rfl
    · rfl
  have hlow := num_update_of_outside s.1 0 16 (a := 16) top.1 (Or.inr (Nat.le_refl _))
  have hblock := Block.value_lt b
  have hpow : (256 : Nat) ^ 16 = 2 ^ 128 := by norm_num
  unfold Block.value at hblock ⊢
  rw [htop, hbit] at hsum
  rw [num_succ p.h 0 16, Nat.zero_add] at hbound
  rw [num_succ (Function.update s.1 16 top.1) 0 16, hlow, Nat.zero_add, Function.update_self,
    num_succ p.h 0 16, Nat.zero_add]
  rw [hpow] at hchain hbound ⊢
  omega

/-- A block, as a number: the exact partial reduction of the exact product. -/
theorem Ready.num_block {r : Nat} (h : Ready r p) (b : Block) :
    num (poly1305Block p b).h 0 17 = partly ((num p.h 0 17 + b.value) * r) := by
  have hadded := num_added p b h.bound
  have hbound := h.bound
  have hvalue := b.value_lt
  unfold poly1305Block
  dsimp only at hadded ⊢
  generalize Function.update (adcLoop p.h b.bytes 16 0 0 p.h).1 16
    (adc ((adcLoop p.h b.bytes 16 0 0 p.h).1 16) (if b.high then 1 else 0)
      (adcLoop p.h b.bytes 16 0 0 p.h).2).1 = sum at hadded ⊢
  have hzero : num (store p.product 0 (List.replicate 33 0)) 0 33 = 0 := by
    unfold num
    rw [bytesAt_store_of_length _ _ List.length_replicate, value_zeros]
  have hrows := num_mulRows (p := { p with h := sum }) h.table 17 (Nat.le_refl _) _ hzero
  have hlt : partly ((num p.h 0 17 + b.value) * r) < 5 * 2 ^ 128 :=
    partly_lt (by omega) h.clamped
  have hreduce := num_poly1305Reduce (p := { p with
    h := sum,
    product := (List.range 17).foldl (mulRow { p with h := sum })
      (store p.product 0 (List.replicate 33 0)) })
  dsimp only at hrows hreduce
  rw [hrows, h.key, hadded] at hreduce
  exact hreduce (Nat.lt_trans hlt (by norm_num))

theorem poly1305Block_kept (p : Poly) (b : Block) : (poly1305Block p b).r = p.r ∧
    (poly1305Block p b).s = p.s ∧ (poly1305Block p b).sqtabLo = p.sqtabLo ∧
      (poly1305Block p b).sqtabHi = p.sqtabHi :=
  ⟨rfl, rfl, rfl, rfl⟩

/-- The bound is kept. -/
theorem Ready.block {r : Nat} (h : Ready r p) (b : Block) : Ready r (poly1305Block p b) := by
  have hnum := h.num_block b
  have hbound := h.bound
  have hvalue := b.value_lt
  obtain ⟨hr, -, hlo, hhi⟩ := poly1305Block_kept p b
  refine ⟨?_, ?_, h.clamped, ?_⟩
  · rw [hlo, hhi]
    exact h.table
  · rw [hr]
    exact h.key
  · rw [hnum]
    exact partly_lt (by omega) h.clamped

theorem ready_poly1305Init (p : Poly) :
    Ready (Rfc8439.clamp (num p.r 0 16)) (poly1305Init p) ∧ num (poly1305Init p).h 0 17 = 0 ∧
      (poly1305Init p).s = p.s := by
  have hzero : num (poly1305Init p).h 0 17 = 0 := by
    show num (store p.h 0 (List.replicate 17 0)) 0 17 = 0
    unfold num
    rw [bytesAt_store_of_length _ _ List.length_replicate, value_zeros]
  refine ⟨⟨quarters_sqtabInit _, num_poly1305Clamp p.r, clamp_lt _, ?_⟩, hzero, rfl⟩
  rw [hzero]
  norm_num

/-- The accumulator is the polynomial of the blocks so far. -/
structure Holds (r : Nat) (values : List Nat) (p : Poly) : Prop extends Ready r p where
  sum : num p.h 0 17 ≡ Rfc8439.powerSum r values [MOD Rfc8439.prime]

theorem Holds.block {r : Nat} {values : List Nat} (h : Holds r values p) (b : Block) :
    Holds r (values ++ [b.value]) (poly1305Block p b) := by
  refine ⟨h.toReady.block b, ?_⟩
  rw [h.toReady.num_block b, Rfc8439.powerSum_concat]
  exact (partly_modEq _).trans ((h.sum.add_right _).mul_right _)

theorem Holds.blocks {r : Nat} (bs : List Block) : ∀ {values : List Nat} {p : Poly},
    Holds r values p → Holds r (values ++ bs.map Block.value) (bs.foldl poly1305Block p) ∧
      (bs.foldl poly1305Block p).s = p.s := by
  induction bs with
  | nil =>
      intro values p h
      rw [List.map_nil, List.append_nil]
      exact ⟨h, rfl⟩
  | cons b bs ih =>
      intro values p h
      obtain ⟨hall, hs⟩ := ih (h.block b)
      rw [List.append_assoc] at hall
      exact ⟨hall, hs⟩

theorem holds_poly1305Init (p : Poly) :
    Holds (Rfc8439.clamp (num p.r 0 16)) [] (poly1305Init p) := by
  obtain ⟨hready, hzero, -⟩ := ready_poly1305Init p
  exact ⟨hready, by rw [hzero]; rfl⟩

end Blocks

/-! ## The tag -/

section Tag

variable {p : Poly}

theorem and_four_eq_zero {b : UInt8} : b.toNat < 8 → (b &&& 0x04 = 0 ↔ b.toNat < 4) := by
  refine forall_byte (p := fun b => b.toNat < 8 → (b &&& 0x04 = 0 ↔ b.toNat < 4)) ?_ b
  decide +kernel

/-- The full reduction: the accumulator is below twice the prime, so that one subtraction is enough. -/
theorem num_reduced {h product : Buffer} {a : Nat} (ha : num h 0 17 = a) (hbound : a < 5 * 2 ^ 128)
    (hfive : num product 0 17 = a + 5) :
    num (if product 16 &&& 0x04 = 0 then h
      else Function.update (store h 0 (bytesAt product 0 16)) 16 (product 16 &&& 0x03)) 0 17 =
        a % Rfc8439.prime := by
  have hprime : Rfc8439.prime = 2 ^ 130 - 5 := rfl
  have hlow := num_lt product 0 16
  have hpow : (256 : Nat) ^ 16 = 2 ^ 128 := by norm_num
  have htop : num product 0 17 = num product 0 16 + 2 ^ 128 * (product 16).toNat := by
    rw [num_succ product 0 16, Nat.zero_add, hpow]
  rw [hpow] at hlow
  have hsmall : (product 16).toNat < 8 := by omega
  by_cases hbit : product 16 &&& 0x04 = 0
  · have hless := (and_four_eq_zero hsmall).1 hbit
    rw [if_pos hbit, ha, Nat.mod_eq_of_lt (by omega)]
  · have hmore : ¬ (product 16).toNat < 4 := fun hlt => hbit ((and_four_eq_zero hsmall).2 hlt)
    have hbottom := num_bottom product h 0
    rw [if_neg hbit, hbottom, Nat.add_zero, hfive]
    -- `h + 5` without its bit 130 is `h` without the prime
    have hsub : (a + 5) % 2 ^ 130 = a - Rfc8439.prime := by omega
    have hmod : a % Rfc8439.prime = a - Rfc8439.prime := by
      rw [Nat.mod_eq_sub_mod (by omega), Nat.mod_eq_of_lt (by omega)]
    rw [hsub, hmod]

theorem tag_poly1305Final (hbound : num p.h 0 17 < 5 * 2 ^ 128) :
    bytesAt (poly1305Final p).tag 0 16 =
      padded 16 (num p.h 0 17 % Rfc8439.prime + num p.s 0 16) := by
  have hpow : (256 : Nat) ^ 17 = 2 ^ 136 := by norm_num
  have hfive : num (fun i => if i = 0 then (5 : UInt8) else 0) 0 17 = 5 := by
    unfold num bytesAt
    rfl
  have hchain := num_adcLoop p.h (fun i => if i = 0 then 5 else 0) 17 0 0 p.product
  rw [hfive, hpow, Nat.add_zero] at hchain
  unfold poly1305Final
  dsimp only
  generalize hadded : adcLoop p.h (fun i => if i = 0 then 5 else 0) 17 0 0 p.product = added at hchain ⊢
  have hexact : num added.1 0 17 = num p.h 0 17 + 5 := by
    have hlt := num_lt added.1 0 17
    rw [hpow] at hlt
    omega
  have hreduced := num_reduced (h := p.h) rfl hbound hexact
  generalize (if added.1 16 &&& 0x04 = 0 then p.h
    else Function.update (store p.h 0 (bytesAt added.1 0 16)) 16 (added.1 16 &&& 0x03)) = h
    at hreduced ⊢
  have hsum := num_adcLoop h p.s 16 0 0 h
  generalize adcLoop h p.s 16 0 0 h = sum at hsum ⊢
  rw [bytesAt_store_of_length _ _ (length_bytesAt _ _ _)]
  refine eq_padded (length_bytesAt _ _ _) ?_
  rw [num_succ h 0 16] at hreduced
  have hlt := num_lt sum.1 0 16
  have hvalue : value (bytesAt sum.1 0 16) = num sum.1 0 16 := rfl
  rw [← hreduced, hvalue]
  -- what is above the sixteen bytes falls off
  generalize (256 : Nat) ^ 16 = w at hsum hlt ⊢
  have hcongr : num h 0 16 + w * (h (0 + 16)).toNat + num p.s 0 16 =
      num sum.1 0 16 + w * (sum.2 + (h (0 + 16)).toNat) := by
    rw [Nat.mul_add]
    omega
  rw [hcongr, Nat.add_mul_mod_self_left, Nat.mod_eq_of_lt hlt]

/-- **Poly1305**: over every string of blocks the accumulator stays within its bound, the next block is
multiplied and reduced without a carry lost, and the tag is the polynomial of the blocks at the clamped
`r`, plus `s`. -/
theorem poly1305_tag (p : Poly) (bs : List Block) :
    num (bs.foldl poly1305Block (poly1305Init p)).h 0 17 < 5 * 2 ^ 128 ∧
      (∀ b, num (poly1305Block (bs.foldl poly1305Block (poly1305Init p)) b).h 0 17 =
        partly ((num (bs.foldl poly1305Block (poly1305Init p)).h 0 17 + b.value) *
          Rfc8439.clamp (num p.r 0 16))) ∧
      bytesAt (poly1305Final (bs.foldl poly1305Block (poly1305Init p))).tag 0 16 =
        padded 16 (Rfc8439.powerSum (Rfc8439.clamp (num p.r 0 16)) (bs.map Block.value) %
          Rfc8439.prime + num p.s 0 16) := by
  obtain ⟨hall, hs⟩ := (holds_poly1305Init p).blocks bs
  rw [List.nil_append] at hall
  have hinit : (poly1305Init p).s = p.s := rfl
  refine ⟨hall.bound, fun b => hall.toReady.num_block b, ?_⟩
  have hsum := hall.sum
  unfold Nat.ModEq at hsum
  rw [tag_poly1305Final hall.bound, hs, hinit, hsum]

/-! ## A message -/

/-- A last block that is not whole. -/
theorem blockValues_short {bs : List UInt8} (hpos : 0 < bs.length) (hlt : bs.length < 16) :
    Rfc8439.blockValues bs = [value (bs ++ [1])] := by
  have hne : bs ≠ [] := List.length_pos_iff.1 hpos
  rw [Rfc8439.blockValues, if_neg hne, List.take_of_length_le (Nat.le_of_lt hlt),
    List.drop_of_length_le (Nat.le_of_lt hlt), Rfc8439.blockValues_nil]

/-- What is behind the string in a cleared buffer counts nothing. -/
theorem num_store_zeros (bs : List UInt8) {n : Nat} (h : bs.length ≤ n) :
    num (store (fun _ => 0) 0 bs) 0 n = value bs := by
  obtain ⟨k, rfl⟩ := Nat.exists_eq_add_of_le h
  have hzeros : num (store (fun _ => 0) 0 bs) (0 + bs.length) k = 0 :=
    num_eq_zero fun i _ => store_of_outside _ (Or.inr (Nat.le_add_right _ _))
  have hbytes : num (store (fun _ => 0) 0 bs) 0 bs.length = value bs :=
    congrArg value (bytesAt_store_of_length _ _ rfl)
  rw [num_add, hzeros, hbytes, Nat.mul_zero, Nat.add_zero]

theorem value_lastBlock (mem : Buffer) (ptr : Nat) {n : Nat} (hn : n < 16) :
    (lastBlock mem ptr n).value = value (bytesAt (fun y => mem (add16 ptr y)) 0 n ++ [1]) := by
  have hlen : (bytesAt (fun y => mem (add16 ptr y)) 0 n ++ [1]).length ≤ 16 := by
    rw [List.length_append, length_bytesAt, List.length_singleton]
    exact hn
  unfold Block.value lastBlock
  dsimp only
  rw [Bool.toNat_false, Nat.mul_zero, Nat.add_zero, num_store_zeros _ hlen]

/-- The bytes of a message of at most 255 bytes, over the accumulator. -/
theorem Holds.update {r : Nat} (mem : Buffer) (ptr n : Nat) {values : List Nat} (h : Holds r values p) :
    Holds r (values ++ Rfc8439.blockValues (bytesAt (fun y => mem (add16 ptr y)) 0 n))
        (poly1305Update mem ptr n p) ∧ (poly1305Update mem ptr n p).s = p.s := by
  induction ptr, n, p using poly1305Update.induct mem generalizing values with
  | case1 ptr p =>
      rw [poly1305Update, if_pos rfl, bytesAt_zero, Rfc8439.blockValues_nil, List.append_nil]
      exact ⟨h, rfl⟩
  | case2 ptr n p hne hlt =>
      rw [poly1305Update, if_neg hne, if_pos hlt]
      refine ⟨?_, rfl⟩
      have hblock := h.block (lastBlock mem ptr n)
      have hlen : (bytesAt (fun y => mem (add16 ptr y)) 0 n).length = n := length_bytesAt _ _ _
      have hlast := blockValues_short (hlen.symm ▸ Nat.pos_of_ne_zero hne) (hlen.symm ▸ hlt)
      rw [hlast, ← value_lastBlock mem ptr hlt]
      exact hblock
  | case3 ptr n p hne hge ih =>
      rw [poly1305Update, if_neg hne, if_neg hge]
      have hblock := h.block ⟨fun y => mem (add16 ptr y), true⟩
      obtain ⟨hall, hs⟩ := ih hblock
      refine ⟨?_, hs⟩
      -- sixteen bytes, and those behind them
      have hsplit : bytesAt (fun y => mem (add16 ptr y)) 0 n =
          bytesAt (fun y => mem (add16 ptr y)) 0 16 ++
            bytesAt (fun y => mem (add16 (add16 ptr 16) y)) 0 (n - 16) := by
        have hplace : n = 16 + (n - 16) := by omega
        have hrest : bytesAt (fun y => mem (add16 ptr y)) (0 + 16) (n - 16) =
            bytesAt (fun y => mem (add16 (add16 ptr 16) y)) 0 (n - 16) := by
          refine bytesAt_congr fun i _ => congrArg mem ?_
          unfold add16
          omega
        rw [← hrest, ← bytesAt_add, ← hplace]
      have hvalue : Block.value ⟨fun y => mem (add16 ptr y), true⟩ =
          value (bytesAt (fun y => mem (add16 ptr y)) 0 16 ++ [1]) := by
        unfold Block.value num
        rw [value_append, length_bytesAt, value_singleton]
        rfl
      rw [hsplit, Rfc8439.blockValues_append (length_bytesAt _ _ _), ← hvalue]
      rw [List.append_assoc] at hall
      exact hall

/-- A message that is fed to a fresh accumulator gets the tag of the RFC, whatever its length, of which
`cc20_remain` holds one byte. -/
theorem poly1305Update_mac (p : Poly) (mem : Buffer) (ptr : Nat) (n : UInt8) :
    bytesAt (poly1305Final (poly1305Update mem ptr n.toNat (poly1305Init p))).tag 0 16 =
      Rfc8439.poly1305Mac (bytesAt p.r 0 16 ++ bytesAt p.s 0 16)
        (bytesAt (fun y => mem (add16 ptr y)) 0 n.toNat) := by
  obtain ⟨hall, hs⟩ := (holds_poly1305Init p).update mem ptr n.toNat
  have hinit : (poly1305Init p).s = p.s := rfl
  have hsum := hall.sum
  have hr : (bytesAt p.r 0 16 ++ bytesAt p.s 0 16).take 16 = bytesAt p.r 0 16 :=
    List.take_left' (length_bytesAt _ _ _)
  have htake : ((bytesAt p.r 0 16 ++ bytesAt p.s 0 16).drop 16).take 16 = bytesAt p.s 0 16 := by
    rw [List.drop_left' (length_bytesAt _ _ _), List.take_of_length_le (length_bytesAt _ _ _).le]
  unfold Nat.ModEq at hsum
  rw [List.nil_append] at hsum
  rw [tag_poly1305Final hall.bound, hs, hinit, hsum, Rfc8439.poly1305Mac, hr, htake,
    Rfc8439.accumulate_eq]
  rfl

end Tag

end Poly1305
end Crypto
end C64Https
