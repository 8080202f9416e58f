import C64Https.Lib.BigEndian
import C64Https.Lib.Word32

/-!
# Fips180 — SHA-256 as FIPS 180-4 states it

The functions of section 4.1.2, the constants of 4.2.2, the padding of 5.1.1, and the computation of
6.2.2 on words of 32 bits; a message is a string of bytes.

`foldBlocks` runs a compression function over the whole blocks of a string.  What a streaming
implementation keeps between two pieces of its input is `foldBlocks` of the input so far and the
`remainder` behind the last whole block (`foldBlocks_append`, `remainder_append`).
-/

namespace C64Https
namespace Fips180

open Word32

/-! ## Functions and constants -/

def ch (x y z : BitVec 32) : BitVec 32 :=
  (x &&& y) ^^^ (~~~x &&& z)

def maj (x y z : BitVec 32) : BitVec 32 :=
  (x &&& y) ^^^ (x &&& z) ^^^ (y &&& z)

def bigSigma0 (x : BitVec 32) : BitVec 32 :=
  x.rotateRight 2 ^^^ x.rotateRight 13 ^^^ x.rotateRight 22

def bigSigma1 (x : BitVec 32) : BitVec 32 :=
  x.rotateRight 6 ^^^ x.rotateRight 11 ^^^ x.rotateRight 25

def sigma0 (x : BitVec 32) : BitVec 32 :=
  x.rotateRight 7 ^^^ x.rotateRight 18 ^^^ x >>> 3

def sigma1 (x : BitVec 32) : BitVec 32 :=
  x.rotateRight 17 ^^^ x.rotateRight 19 ^^^ x >>> 10

/-- The constants `K₀ … K₆₃`. -/
def roundConstants : List (BitVec 32) :=
  [ 0x428a2f98, 0x71374491, 0xb5c0fbcf, 0xe9b5dba5,
    0x3956c25b, 0x59f111f1, 0x923f82a4, 0xab1c5ed5,
    0xd807aa98, 0x12835b01, 0x243185be, 0x550c7dc3,
    0x72be5d74, 0x80deb1fe, 0x9bdc06a7, 0xc19bf174,
    0xe49b69c1, 0xefbe4786, 0x0fc19dc6, 0x240ca1cc,
    0x2de92c6f, 0x4a7484aa, 0x5cb0a9dc, 0x76f988da,
    0x983e5152, 0xa831c66d, 0xb00327c8, 0xbf597fc7,
    0xc6e00bf3, 0xd5a79147, 0x06ca6351, 0x14292967,
    0x27b70a85, 0x2e1b2138, 0x4d2c6dfc, 0x53380d13,
    0x650a7354, 0x766a0abb, 0x81c2c92e, 0x92722c85,
    0xa2bfe8a1, 0xa81a664b, 0xc24b8b70, 0xc76c51a3,
    0xd192e819, 0xd6990624, 0xf40e3585, 0x106aa070,
    0x19a4c116, 0x1e376c08, 0x2748774c, 0x34b0bcb5,
    0x391c0cb3, 0x4ed8aa4a, 0x5b9cca4f, 0x682e6ff3,
    0x748f82ee, 0x78a5636f, 0x84c87814, 0x8cc70208,
    0x90befffa, 0xa4506ceb, 0xbef9a3f7, 0xc67178f2 ]

def roundConstant (t : Nat) : BitVec 32 :=
  roundConstants.getD t 0

/-! ## The compression function -/

/-- The message schedule of a block of words. -/
def schedule (M : Nat → BitVec 32) (t : Nat) : BitVec 32 :=
  if t < 16 then M t
  else
    sigma1 (schedule M (t - 2)) + schedule M (t - 7) + sigma0 (schedule M (t - 15)) +
      schedule M (t - 16)
termination_by t
decreasing_by all_goals omega

theorem schedule_of_lt {M : Nat → BitVec 32} {t : Nat} (h : t < 16) : schedule M t = M t := by
  rw [schedule, if_pos h]

theorem schedule_of_ge {M : Nat → BitVec 32} {t : Nat} (h : 16 ≤ t) : schedule M t =
    sigma1 (schedule M (t - 2)) + schedule M (t - 7) + sigma0 (schedule M (t - 15)) +
      schedule M (t - 16) := by
  rw [schedule, if_neg (Nat.not_lt_of_le h)]

/-- The eight words of a hash value, or of the working variables. -/
@[ext] structure Chain where
  a : BitVec 32
  b : BitVec 32
  c : BitVec 32
  d : BitVec 32
  e : BitVec 32
  f : BitVec 32
  g : BitVec 32
  h : BitVec 32
  deriving DecidableEq, Repr

/-- One round, with `k` the constant and `w` the word of the schedule. -/
def round (k w : BitVec 32) (v : Chain) : Chain :=
  let T₁ := v.h + bigSigma1 v.e + ch v.e v.f v.g + k + w
  let T₂ := bigSigma0 v.a + maj v.a v.b v.c
  { a := T₁ + T₂, b := v.a, c := v.b, d := v.c, e := v.d + T₁, f := v.e, g := v.f, h := v.g }

/-- The working variables after `n` rounds. -/
def rounds (M : Nat → BitVec 32) (H : Chain) : Nat → Chain
  | 0 => H
  | n + 1 => round (roundConstant n) (schedule M n) (rounds M H n)

def Chain.add (H v : Chain) : Chain :=
  { a := H.a + v.a, b := H.b + v.b, c := H.c + v.c, d := H.d + v.d
    e := H.e + v.e, f := H.f + v.f, g := H.g + v.g, h := H.h + v.h }

def compress (H : Chain) (M : Nat → BitVec 32) : Chain :=
  H.add (rounds M H 64)

/-- Only the sixteen words of the block count. -/
theorem schedule_congr {M M' : Nat → BitVec 32} (h : ∀ t < 16, M t = M' t) (t : Nat) :
    schedule M t = schedule M' t := by
  induction t using Nat.strong_induction_on with
  | _ t ih =>
      rcases Nat.lt_or_ge t 16 with hlt | hge
      · rw [schedule_of_lt hlt, schedule_of_lt hlt, h t hlt]
      · rw [schedule_of_ge hge, schedule_of_ge hge, ih (t - 2) (by omega), ih (t - 7) (by omega),
          ih (t - 15) (by omega), ih (t - 16) (by omega)]

theorem compress_congr (H : Chain) {M M' : Nat → BitVec 32} (h : ∀ t < 16, M t = M' t) :
    compress H M = compress H M' := by
  have hrounds : ∀ n, rounds M H n = rounds M' H n := by
    intro n
    induction n with
    | zero => rfl
    | succ n ih =>
        unfold rounds
        rw [ih, schedule_congr h]
  unfold compress
  rw [hrounds]

/-! ## The hash of a string -/

def initial : Chain :=
  { a := 0x6a09e667, b := 0xbb67ae85, c := 0x3c6ef372, d := 0xa54ff53a
    e := 0x510e527f, f := 0x9b05688c, g := 0x1f83d9ab, h := 0x5be0cd19 }

/-- Word `t` of a block of bytes. -/
def blockWord (block : List UInt8) (t : Nat) : BitVec 32 :=
  (loadBE (fun i => block.getD i 0) (4 * t)).word

def Chain.bytes (H : Chain) : List UInt8 :=
  [H.a, H.b, H.c, H.d, H.e, H.f, H.g, H.h].flatMap fun x => bytesBE (Quad.ofWord x)

theorem Chain.length_bytes (H : Chain) : H.bytes.length = 32 :=
  rfl

def compressBlock (H : Chain) (block : List UInt8) : Chain :=
  compress H (blockWord block)

/-- `80`, zeros up to eight bytes short of a block, and the number of bits. -/
def padding (n : Nat) : List UInt8 :=
  0x80 :: List.replicate ((119 - n % 64) % 64) 0 ++ BigEndian.padded 8 (8 * n)

/-! ## Strings of blocks -/

section Blocks

variable {σ : Type} (f : σ → List UInt8 → σ)

/-- `f` over the whole blocks of 64 bytes, the first block first. -/
def foldBlocks (s : σ) (bs : List UInt8) : σ :=
  (List.range (bs.length / 64)).foldl (fun s i => f s ((bs.drop (64 * i)).take 64)) s

/-- What stands behind the last whole block. -/
def remainder (bs : List UInt8) : List UInt8 :=
  bs.drop (64 * (bs.length / 64))

variable {f}

theorem length_remainder (bs : List UInt8) : (remainder bs).length = bs.length % 64 := by
  unfold remainder
  rw [List.length_drop]
  omega

theorem foldBlocks_short (s : σ) {bs : List UInt8} (h : bs.length < 64) :
    foldBlocks f s bs = s := by
  unfold foldBlocks
  rw [Nat.div_eq_of_lt h]
  rfl

/-- The first block, and the blocks behind it. -/
theorem foldBlocks_block (s : σ) {block : List UInt8} (bs : List UInt8) (h : block.length = 64) :
    foldBlocks f s (block ++ bs) = foldBlocks f (f s block) bs := by
  have hcount : (block ++ bs).length / 64 = bs.length / 64 + 1 := by
    rw [List.length_append, h]
    omega
  unfold foldBlocks
  rw [hcount, Nat.add_comm, List.range_add, List.foldl_append, List.foldl_map]
  have hfirst : (block ++ bs).take 64 = block := by
    rw [← h, List.take_left']
    rfl
  have hstart : (List.range 1).foldl (fun s i => f s (((block ++ bs).drop (64 * i)).take 64)) s =
      f s block := by
    show f s (((block ++ bs).drop 0).take 64) = f s block
    rw [List.drop_zero, hfirst]
  rw [hstart]
  refine congrArg (fun g => List.foldl g (f s block) (List.range (bs.length / 64))) ?_
  funext s' i
  rw [Nat.mul_add, Nat.mul_one, ← List.drop_drop, ← h, List.drop_left']
  rfl

/-- Whole blocks first, and then the rest of the string. -/
theorem foldBlocks_append (n : Nat) : ∀ (s : σ) {as : List UInt8} (bs : List UInt8),
    as.length = 64 * n → foldBlocks f s (as ++ bs) = foldBlocks f (foldBlocks f s as) bs := by
  induction n with
  | zero =>
      intro s as bs h
      have hnil : as = [] := List.eq_nil_of_length_eq_zero (by omega)
      rw [hnil, List.nil_append, foldBlocks_short s (by decide : ([] : List UInt8).length < 64)]
  | succ n ih =>
      intro s as bs h
      have htake : (as.take 64).length = 64 := by
        rw [List.length_take]
        omega
      have hdrop : (as.drop 64).length = 64 * n := by
        rw [List.length_drop]
        omega
      rw [← List.take_append_drop 64 as, List.append_assoc, foldBlocks_block _ _ htake,
        foldBlocks_block _ _ htake, ih _ _ hdrop]

theorem foldBlocks_single (s : σ) {block : List UInt8} (h : block.length = 64) :
    foldBlocks f s block = f s block := by
  have hone := foldBlocks_block (f := f) s [] h
  rw [List.append_nil] at hone
  rw [hone, foldBlocks_short _ (by decide)]

theorem whole_append_remainder (bs : List UInt8) :
    bs.take (64 * (bs.length / 64)) ++ remainder bs = bs :=
  List.take_append_drop _ _

/-- The blocks of a longer string: those so far, and those of the remainder with what follows. -/
theorem foldBlocks_extend (s : σ) (as bs : List UInt8) :
    foldBlocks f s (as ++ bs) = foldBlocks f (foldBlocks f s as) (remainder as ++ bs) := by
  have hlen : (as.take (64 * (as.length / 64))).length = 64 * (as.length / 64) := by
    rw [List.length_take]
    omega
  have hshort : (remainder as).length < 64 := by
    rw [length_remainder]
    exact Nat.mod_lt _ (by decide)
  have hwhole : foldBlocks f s as = foldBlocks f s (as.take (64 * (as.length / 64))) := by
    conv_lhs => rw [← whole_append_remainder as]
    rw [foldBlocks_append _ _ _ hlen, foldBlocks_short _ hshort]
  rw [hwhole, ← foldBlocks_append _ _ _ hlen, ← List.append_assoc, whole_append_remainder]

theorem remainder_of_lt {bs : List UInt8} (h : bs.length < 64) : remainder bs = bs := by
  unfold remainder
  rw [Nat.div_eq_of_lt h]
  rfl

theorem remainder_append (as bs : List UInt8) :
    remainder (as ++ bs) = remainder (remainder as ++ bs) := by
  have hlen : (as.take (64 * (as.length / 64))).length = 64 * (as.length / 64) := by
    rw [List.length_take]
    omega
  have hsplit : as ++ bs = as.take (64 * (as.length / 64)) ++ (remainder as ++ bs) := by
    rw [← List.append_assoc, whole_append_remainder]
  have hcount : (as ++ bs).length = 64 * (as.length / 64) + (remainder as ++ bs).length := by
    rw [hsplit, List.length_append, hlen]
  have hdiv : (as ++ bs).length / 64 = as.length / 64 + (remainder as ++ bs).length / 64 := by
    omega
  unfold remainder at hsplit hdiv ⊢
  rw [hdiv, hsplit, Nat.mul_add, ← List.drop_drop, List.drop_left' hlen]

end Blocks

/-- SHA-256. -/
def sha256 (m : List UInt8) : List UInt8 :=
  (foldBlocks compressBlock initial (m ++ padding m.length)).bytes

@[simp] theorem length_sha256 (m : List UInt8) : (sha256 m).length = 32 :=
  rfl

/-- Three bytes hold the bit count of a message of up to 65535 bytes. -/
theorem padded_bitCount {n : Nat} (h : n < 65536) : BigEndian.padded 8 (8 * n) =
    List.replicate 5 0 ++
      [UInt8.ofNat (n * 8 / 65536), UInt8.ofNat (n * 8 / 256), UInt8.ofNat (n * 8)] := by
  symm
  refine BigEndian.eq_padded (k := 8) (n := 8 * n) rfl ?_
  rw [BigEndian.value_zeros, BigEndian.value_cons, BigEndian.value_cons, BigEndian.value_singleton]
  simp only [UInt8.toNat_ofNat', List.length_cons, List.length_nil]
  omega

theorem replicate_split {j k n : Nat} (h : n = j + k) :
    List.replicate n (0 : UInt8) = List.replicate j 0 ++ List.replicate k 0 := by
  rw [h, List.replicate_add]

/-- The last three bytes of the padding of a message of `n` bytes. -/
def bitCount (n : Nat) : List UInt8 :=
  [UInt8.ofNat (n * 8 / 65536), UInt8.ofNat (n * 8 / 256), UInt8.ofNat (n * 8)]

/-- The end of a message and its padding, where they fit in one block. -/
theorem append_padding_of_fits {text : List UInt8} {n : Nat} (hlt : n < 65536)
    (htext : text.length = n % 64) (hfits : text.length < 56) : text ++ padding n =
      text ++ [0x80] ++ List.replicate (61 - (text ++ [(0x80 : UInt8)]).length) 0 ++ bitCount n := by
  have hzeros : List.replicate (61 - (text ++ [(0x80 : UInt8)]).length) (0 : UInt8) =
      List.replicate ((119 - n % 64) % 64) 0 ++ List.replicate 5 0 := by
    refine replicate_split ?_
    rw [List.length_append, List.length_singleton]
    omega
  unfold padding bitCount
  rw [padded_bitCount hlt, hzeros]
  simp only [List.append_assoc, List.cons_append, List.nil_append]

/-- And where the count goes to a block of its own. -/
theorem append_padding_of_not_fits {text : List UInt8} {n : Nat} (hlt : n < 65536)
    (htext : text.length = n % 64) (hfits : ¬ text.length < 56) : text ++ padding n =
      (text ++ [0x80] ++ List.replicate (64 - (text ++ [(0x80 : UInt8)]).length) 0) ++
        (List.replicate 61 0 ++ bitCount n) := by
  have hmod : n % 64 < 64 := Nat.mod_lt _ (by decide)
  have hzeros : List.replicate ((119 - n % 64) % 64) (0 : UInt8) ++ List.replicate 5 0 =
      List.replicate (64 - (text ++ [(0x80 : UInt8)]).length) 0 ++ List.replicate 61 0 := by
    rw [← List.replicate_add, ← List.replicate_add, List.length_append, List.length_singleton]
    congr 1
    omega
  have hjoin : ∀ xs : List UInt8, List.replicate ((119 - n % 64) % 64) 0 ++
      (List.replicate 5 0 ++ xs) = List.replicate (64 - (text ++ [(0x80 : UInt8)]).length) 0 ++
        (List.replicate 61 0 ++ xs) := by
    intro xs
    rw [← List.append_assoc, hzeros, List.append_assoc]
  unfold padding bitCount
  rw [padded_bitCount hlt]
  simp only [List.append_assoc, List.cons_append, List.nil_append, hjoin]

/-- Both are whole blocks. -/
theorem length_paddedBlock {text : List UInt8} (n : Nat) (hfits : text.length < 56) :
    (text ++ [0x80] ++ List.replicate (61 - (text ++ [(0x80 : UInt8)]).length) 0 ++
      bitCount n).length = 64 := by
  unfold bitCount
  simp only [List.length_append, List.length_replicate, List.length_cons, List.length_nil]
  omega

theorem length_filledBlock {text : List UInt8} (hlt : text.length < 64) :
    (text ++ [0x80] ++ List.replicate (64 - (text ++ [(0x80 : UInt8)]).length) 0).length = 64 := by
  simp only [List.length_append, List.length_replicate, List.length_cons, List.length_nil]
  omega

/-- A message that begins with a block. -/
theorem sha256_block_append {block : List UInt8} (h : block.length = 64) (m : List UInt8) :
    sha256 (block ++ m) =
      (foldBlocks compressBlock (compressBlock initial block)
        (m ++ padding (64 + m.length))).bytes := by
  unfold sha256
  rw [List.length_append, h, List.append_assoc, foldBlocks_block _ _ h]

/-! ## Computing with the definitions -/

section Compute

/-- The schedule up to word `15 + n`, the newest word first. -/
def scheduleList (M : Nat → BitVec 32) : Nat → List (BitVec 32)
  | 0 => (List.range 16).reverse.map M
  | n + 1 =>
      let l := scheduleList M n
      (sigma1 (l.getD 1 0) + l.getD 6 0 + sigma0 (l.getD 14 0) + l.getD 15 0) :: l

theorem scheduleList_eq (M : Nat → BitVec 32) (n : Nat) :
    scheduleList M n = (List.range (16 + n)).reverse.map (schedule M) := by
  induction n with
  | zero =>
      unfold scheduleList
      refine List.map_congr_left ?_
      intro t ht
      rw [schedule_of_lt (by simpa using ht)]
  | succ n ih =>
      have hget : ∀ i, i < 16 →
          ((List.range (16 + n)).reverse.map (schedule M)).getD i 0 =
            schedule M (16 + n - (i + 1)) := by
        intro i hi
        have hin : i < ((List.range (16 + n)).reverse.map (schedule M)).length := by
          simp only [List.length_map, List.length_reverse, List.length_range]
          omega
        rw [List.getD_eq_getElem _ _ hin, List.getElem_map, List.getElem_reverse,
          List.getElem_range, List.length_range]
        congr 1
        omega
      unfold scheduleList
      dsimp only
      rw [ih, hget 1 (by decide), hget 6 (by decide), hget 14 (by decide), hget 15 (by decide),
        ← Nat.add_assoc 16, List.range_succ, List.reverse_append, List.reverse_singleton,
        List.singleton_append, List.map_cons, schedule_of_ge (t := 16 + n) (Nat.le_add_right 16 n)]

def compressList (H : Chain) (M : Nat → BitVec 32) : Chain :=
  H.add ((roundConstants.zip (scheduleList M 48).reverse).foldl (fun v kw => round kw.1 kw.2 v) H)

theorem rounds_eq_foldl (M : Nat → BitVec 32) (H : Chain) (n : Nat) : rounds M H n =
    (List.range n).foldl (fun v t => round (roundConstant t) (schedule M t) v) H := by
  induction n with
  | zero => rfl
  | succ n ih =>
      rw [List.range_succ, List.foldl_append, ← ih]
      rfl

theorem compress_eq_compressList (H : Chain) (M : Nat → BitVec 32) :
    compress H M = compressList H M := by
  have hzip : roundConstants.zip (scheduleList M 48).reverse =
      (List.range 64).map fun t => (roundConstant t, schedule M t) := by
    have hconstants : roundConstants = (List.range 64).map roundConstant := by
      decide +kernel
    rw [scheduleList_eq, ← List.map_reverse, List.reverse_reverse, hconstants, ← List.zip_map']
  unfold compress compressList
  rw [rounds_eq_foldl, hzip, List.foldl_map]

set_option maxRecDepth 10000 in
/-- The digest of the empty string. -/
theorem sha256_nil : sha256 [] =
    [ 0xe3, 0xb0, 0xc4, 0x42, 0x98, 0xfc, 0x1c, 0x14, 0x9a, 0xfb, 0xf4, 0xc8, 0x99, 0x6f, 0xb9,
      0x24, 0x27, 0xae, 0x41, 0xe4, 0x64, 0x9b, 0x93, 0x4c, 0xa4, 0x95, 0x99, 0x1b, 0x78, 0x52,
      0xb8, 0x55 ] := by
  have hpadded : ([] : List UInt8) ++ padding ([] : List UInt8).length =
      0x80 :: List.replicate 63 0 := by
    have hzero : BigEndian.padded 8 0 = List.replicate 8 0 := by
      unfold BigEndian.padded
      rw [BigEndian.shortest_zero, List.append_nil]
      rfl
    show 0x80 :: List.replicate 55 0 ++ BigEndian.padded 8 0 = 0x80 :: List.replicate 63 0
    rw [hzero]
    rfl
  unfold sha256
  rw [hpadded, foldBlocks_single _ rfl]
  unfold compressBlock
  rw [compress_eq_compressList]
  decide +kernel

end Compute

end Fips180
end C64Https
