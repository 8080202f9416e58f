import C64Https.Lib.Fips180

/-!
# Sha256 — the block function of SHA-256 (`src/crypto/sha256.s`)

The words of the hash value and of the working variables lie in memory with their highest byte first;
the scratch words are taken out as `Quad`s, whose field `d3` is the byte that the source calls
`sha_temp1` and whose field `d0` is `sha_temp1+3`.

`sha256ProcessBlock_eq` is the refinement: on every hash value and every block the routine computes
the compression function of FIPS 180-4.
-/

namespace C64Https
namespace Crypto

open Bytes Word32 Fips180

/-! ## Memory -/

/-- The memory of the hash routines. -/
structure Sha where
  /-- `sha256_h0` … `sha256_h7` -/
  h0 : Buffer
  /-- `sha_a` … `sha_h` -/
  vars : Buffer
  /-- `sha256_w` -/
  w : Buffer
  /-- `sha256_block` -/
  block : Buffer
  /-- `sha256_hash` -/
  hash : Buffer
  temp1 : Quad
  temp2 : Quad
  temp3 : Quad
  t1 : Quad
  t2 : Quad

/-- The bytes of `sha256_h0_init` … `sha256_h7_init`. -/
def sha256HInit : List UInt8 :=
  [ 0x6a, 0x09, 0xe6, 0x67, 0xbb, 0x67, 0xae, 0x85, 0x3c, 0x6e, 0xf3, 0x72, 0xa5, 0x4f, 0xf5, 0x3a,
    0x51, 0x0e, 0x52, 0x7f, 0x9b, 0x05, 0x68, 0x8c, 0x1f, 0x83, 0xd9, 0xab, 0x5b, 0xe0, 0xcd, 0x19 ]

/-- The bytes of `sha256_k`. -/
def sha256K : List UInt8 :=
  [ 0x42, 0x8a, 0x2f, 0x98, 0x71, 0x37, 0x44, 0x91, 0xb5, 0xc0, 0xfb, 0xcf, 0xe9, 0xb5, 0xdb, 0xa5,
    0x39, 0x56, 0xc2, 0x5b, 0x59, 0xf1, 0x11, 0xf1, 0x92, 0x3f, 0x82, 0xa4, 0xab, 0x1c, 0x5e, 0xd5,
    0xd8, 0x07, 0xaa, 0x98, 0x12, 0x83, 0x5b, 0x01, 0x24, 0x31, 0x85, 0xbe, 0x55, 0x0c, 0x7d, 0xc3,
    0x72, 0xbe, 0x5d, 0x74, 0x80, 0xde, 0xb1, 0xfe, 0x9b, 0xdc, 0x06, 0xa7, 0xc1, 0x9b, 0xf1, 0x74,
    0xe4, 0x9b, 0x69, 0xc1, 0xef, 0xbe, 0x47, 0x86, 0x0f, 0xc1, 0x9d, 0xc6, 0x24, 0x0c, 0xa1, 0xcc,
    0x2d, 0xe9, 0x2c, 0x6f, 0x4a, 0x74, 0x84, 0xaa, 0x5c, 0xb0, 0xa9, 0xdc, 0x76, 0xf9, 0x88, 0xda,
    0x98, 0x3e, 0x51, 0x52, 0xa8, 0x31, 0xc6, 0x6d, 0xb0, 0x03, 0x27, 0xc8, 0xbf, 0x59, 0x7f, 0xc7,
    0xc6, 0xe0, 0x0b, 0xf3, 0xd5, 0xa7, 0x91, 0x47, 0x06, 0xca, 0x63, 0x51, 0x14, 0x29, 0x29, 0x67,
    0x27, 0xb7, 0x0a, 0x85, 0x2e, 0x1b, 0x21, 0x38, 0x4d, 0x2c, 0x6d, 0xfc, 0x53, 0x38, 0x0d, 0x13,
    0x65, 0x0a, 0x73, 0x54, 0x76, 0x6a, 0x0a, 0xbb, 0x81, 0xc2, 0xc9, 0x2e, 0x92, 0x72, 0x2c, 0x85,
    0xa2, 0xbf, 0xe8, 0xa1, 0xa8, 0x1a, 0x66, 0x4b, 0xc2, 0x4b, 0x8b, 0x70, 0xc7, 0x6c, 0x51, 0xa3,
    0xd1, 0x92, 0xe8, 0x19, 0xd6, 0x99, 0x06, 0x24, 0xf4, 0x0e, 0x35, 0x85, 0x10, 0x6a, 0xa0, 0x70,
    0x19, 0xa4, 0xc1, 0x16, 0x1e, 0x37, 0x6c, 0x08, 0x27, 0x48, 0x77, 0x4c, 0x34, 0xb0, 0xbc, 0xb5,
    0x39, 0x1c, 0x0c, 0xb3, 0x4e, 0xd8, 0xaa, 0x4a, 0x5b, 0x9c, 0xca, 0x4f, 0x68, 0x2e, 0x6f, 0xf3,
    0x74, 0x8f, 0x82, 0xee, 0x78, 0xa5, 0x63, 0x6f, 0x84, 0xc8, 0x78, 0x14, 0x8c, 0xc7, 0x02, 0x08,
    0x90, 0xbe, 0xff, 0xfa, 0xa4, 0x50, 0x6c, 0xeb, 0xbe, 0xf9, 0xa3, 0xf7, 0xc6, 0x71, 0x78, 0xf2 ]

/-! ## Rotations and shifts of `sha_temp1` -/

def sha256Rotr2 (q : Quad) : Quad := q.rotr1.rotr1

def sha256Rotr6 (q : Quad) : Quad := q.rotr8.rotl1.rotl1

def sha256Rotr7 (q : Quad) : Quad := q.rotr8.rotl1

def sha256Rotr11 (q : Quad) : Quad := q.rotr8.rotr1.rotr1.rotr1

def sha256Rotr13 (q : Quad) : Quad := q.rotr8.rotr8.rotl1.rotl1.rotl1

def sha256Rotr17 (q : Quad) : Quad := q.rotr8.rotr8.rotr1

def sha256Rotr18 (q : Quad) : Quad := q.rotr8.rotr8.rotr1.rotr1

def sha256Rotr19 (q : Quad) : Quad := q.rotr8.rotr8.rotr1.rotr1.rotr1

def sha256Rotr22 (q : Quad) : Quad := q.rotr8.rotr8.rotr8.rotl1.rotl1

def sha256Rotr25 (q : Quad) : Quad := q.rotr8.rotr8.rotr8.rotr1

def sha256Shr3 (q : Quad) : Quad := q.shr1.1.shr1.1.shr1.1

/-- One turn of the second half of `sha256_shr10`: the top byte is known to be clear. -/
def shrLow (q : Quad) : Quad :=
  let s2 := ror q.d2 0
  let s1 := ror q.d1 s2.2
  let s0 := ror q.d0 s1.2
  { d0 := s0.1, d1 := s1.1, d2 := s2.1, d3 := q.d3 }

def sha256Shr10 (q : Quad) : Quad :=
  let q := { d0 := q.d1, d1 := q.d2, d2 := q.d3, d3 := 0 }
  shrLow (shrLow q)

/-! ## Steps on the scratch words -/

def sha256LoadWord (x : Nat) (s : Sha) : Sha :=
  { s with temp1 := loadBE s.w x }

def sha256LoadWordToTemp2 (x : Nat) (s : Sha) : Sha :=
  { s with temp2 := loadBE s.w x }

def sha256AddTemp2ToTemp1 (s : Sha) : Sha :=
  { s with temp1 := s.temp1.add s.temp2 }

/-- The body of the four sigmas: `sha_temp3` keeps the input, `sha_temp2` gathers the parts. -/
def shaSigma (part1 part2 part3 : Quad → Quad) (s : Sha) : Sha :=
  let s := { s with temp3 := s.temp1 }
  let s := { s with temp1 := part1 s.temp1 }
  let s := { s with temp2 := s.temp1, temp1 := s.temp3 }
  let s := { s with temp1 := part2 s.temp1 }
  let s := { s with temp2 := s.temp1.xor s.temp2, temp1 := s.temp3 }
  let s := { s with temp1 := part3 s.temp1 }
  { s with temp1 := s.temp1.xor s.temp2 }

def sha256Sig0 : Sha → Sha := shaSigma sha256Rotr7 sha256Rotr18 sha256Shr3

def sha256Sig1 : Sha → Sha := shaSigma sha256Rotr17 sha256Rotr19 sha256Shr10

def sha256BigSig0 : Sha → Sha := shaSigma sha256Rotr2 sha256Rotr13 sha256Rotr22

def sha256BigSig1 : Sha → Sha := shaSigma sha256Rotr6 sha256Rotr11 sha256Rotr25

/-- `sha_e`, `sha_f` and `sha_g` are the words at 16, 20 and 24. -/
def sha256Ch (s : Sha) : Sha :=
  let s := { s with temp2 := (loadBE s.vars 16).and (loadBE s.vars 20) }
  { s with temp2 := ((loadBE s.vars 16).not.and (loadBE s.vars 24)).xor s.temp2 }

/-- `sha_a`, `sha_b` and `sha_c` are the words at 0, 4 and 8. -/
def sha256Maj (s : Sha) : Sha :=
  let s := { s with temp2 := (loadBE s.vars 0).and (loadBE s.vars 4) }
  let s := { s with temp2 := ((loadBE s.vars 0).and (loadBE s.vars 8)).xor s.temp2 }
  { s with temp2 := ((loadBE s.vars 4).and (loadBE s.vars 8)).xor s.temp2 }

/-! ## `sha256_process_block` -/

/-- One turn of `@compute_w`. -/
def computeW (i : Nat) (s : Sha) : Sha :=
  let s := sha256Sig1 (sha256LoadWord (4 * (i - 2)) s)
  let s := sha256AddTemp2ToTemp1 (sha256LoadWordToTemp2 (4 * (i - 7)) s)
  -- `sha_t1` keeps the sum while `sha_temp1` is used for the other sigma
  let s := { s with t1 := s.temp1 }
  let s := sha256Sig0 (sha256LoadWord (4 * (i - 15)) s)
  let s := sha256AddTemp2ToTemp1 { s with temp2 := s.t1 }
  let s := sha256AddTemp2ToTemp1 (sha256LoadWordToTemp2 (4 * (i - 16)) s)
  { s with w := storeBE s.w (4 * i) s.temp1 }

/-- `@compute_w` from round `i` on, `n` rounds. -/
def computeWs : Nat → Nat → Sha → Sha
  | 0, _, s => s
  | n + 1, i, s => computeWs n (i + 1) (computeW i s)

/-- `@shift`: byte `y + 4` from byte `y`, down to `y = 0`. -/
def shiftVars : Nat → Buffer → Buffer
  | 0, v => v
  | y + 1, v => shiftVars y (Function.update v (y + 4) (v y))

/-- One turn of `@main_loop`, up to `@save_t1`. -/
def roundT1 (i : Nat) (s : Sha) : Sha :=
  let s := sha256BigSig1 { s with temp1 := loadBE s.vars 16 }
  let s := sha256AddTemp2ToTemp1 { s with temp2 := loadBE s.vars 28 }
  let s := sha256AddTemp2ToTemp1 (sha256Ch s)
  let s := sha256AddTemp2ToTemp1 { s with temp2 := loadBE (fun x => sha256K.getD x 0) (4 * i) }
  let s := sha256AddTemp2ToTemp1 { s with temp2 := loadBE s.w (4 * i) }
  { s with t1 := s.temp1 }

/-- From there up to `@save_t2`. -/
def roundT2 (s : Sha) : Sha :=
  let s := sha256BigSig0 { s with temp1 := loadBE s.vars 0 }
  let s := sha256AddTemp2ToTemp1 (sha256Maj s)
  { s with t2 := s.temp1 }

/-- One turn of `@main_loop`. -/
def mainRound (i : Nat) (s : Sha) : Sha :=
  let s := roundT2 (roundT1 i s)
  -- the new `e` is summed before the shift writes over `sha_d`
  let s := { s with temp1 := (loadBE s.vars 12).add s.t1 }
  let s := { s with vars := shiftVars 28 s.vars }
  let s := { s with vars := storeBE s.vars 16 s.temp1 }
  { s with vars := storeBE s.vars 0 (s.t1.add s.t2) }

/-- `@main_loop` from round `i` on, `n` rounds. -/
def mainRounds : Nat → Nat → Sha → Sha
  | 0, _, s => s
  | n + 1, i, s => mainRounds n (i + 1) (mainRound i s)

/-- `sha256_add_to_hash`: words `n - 1` down to 0. -/
def addToHash : Nat → Sha → Sha
  | 0, s => s
  | n + 1, s =>
      addToHash n
        { s with h0 := storeBE s.h0 (4 * n) ((loadBE s.h0 (4 * n)).add (loadBE s.vars (4 * n))) }

def sha256AddToHash : Sha → Sha :=
  addToHash 8

def sha256ProcessBlock (s : Sha) : Sha :=
  let s := { s with w := store s.w 0 (bytesAt s.block 0 64) }
  let s := computeWs 48 16 s
  let s := { s with vars := store s.vars 0 (bytesAt s.h0 0 32) }
  sha256AddToHash (mainRounds 64 0 s)

def sha256Init (s : Sha) : Sha :=
  { s with h0 := store s.h0 0 sha256HInit }

/-- `sha256_final`: the eight words, one after the other. -/
def sha256Final (s : Sha) : Sha :=
  { s with hash := store s.hash 0 (bytesAt s.h0 0 32) }

/-! ## The steps on words -/

section Words

theorem word_sha256Rotr2 (q : Quad) : (sha256Rotr2 q).word = q.word.rotateRight 2 := by
  simp [sha256Rotr2]

theorem word_sha256Rotr6 (q : Quad) : (sha256Rotr6 q).word = q.word.rotateRight 6 := by
  simp [sha256Rotr6]

theorem word_sha256Rotr7 (q : Quad) : (sha256Rotr7 q).word = q.word.rotateRight 7 := by
  simp [sha256Rotr7]

theorem word_sha256Rotr11 (q : Quad) : (sha256Rotr11 q).word = q.word.rotateRight 11 := by
  simp [sha256Rotr11]

theorem word_sha256Rotr13 (q : Quad) : (sha256Rotr13 q).word = q.word.rotateRight 13 := by
  simp [sha256Rotr13]

theorem word_sha256Rotr17 (q : Quad) : (sha256Rotr17 q).word = q.word.rotateRight 17 := by
  simp [sha256Rotr17]

theorem word_sha256Rotr18 (q : Quad) : (sha256Rotr18 q).word = q.word.rotateRight 18 := by
  simp [sha256Rotr18]

theorem word_sha256Rotr19 (q : Quad) : (sha256Rotr19 q).word = q.word.rotateRight 19 := by
  simp [sha256Rotr19]

theorem word_sha256Rotr22 (q : Quad) : (sha256Rotr22 q).word = q.word.rotateRight 22 := by
  simp [sha256Rotr22]

theorem word_sha256Rotr25 (q : Quad) : (sha256Rotr25 q).word = q.word.rotateRight 25 := by
  simp [sha256Rotr25]

theorem word_sha256Shr3 (q : Quad) : (sha256Shr3 q).word = q.word >>> 3 := by
  simp only [sha256Shr3, Quad.word_shr1, ← BitVec.shiftRight_add]

/-- With a clear top byte the three `ror` are the whole shift. -/
theorem shrLow_eq {q : Quad} (h : q.d3 = 0) : shrLow q = q.shr1.1 := by
  have hd3 : UInt8.ofNat ((0 : UInt8).toNat / 2 + 128 * 0) = 0 := rfl
  have hcarry : (0 : UInt8).toNat % 2 = 0 := rfl
  simp only [shrLow, Quad.shr1, ror, h, hd3, hcarry]

theorem word_byte_shift (q : Quad) :
    ({ d0 := q.d1, d1 := q.d2, d2 := q.d3, d3 := 0 } : Quad).word = q.word >>> 8 := by
  have h₀ := q.d0.toNat_lt
  have hzero : (0 : UInt8).toNat = 0 := rfl
  refine BitVec.eq_of_toNat_eq ?_
  rw [BitVec.toNat_ushiftRight, Nat.shiftRight_eq_div_pow, Quad.toNat_word, Quad.toNat_word]
  simp only [hzero]
  omega

theorem word_sha256Shr10 (q : Quad) : (sha256Shr10 q).word = q.word >>> 10 := by
  unfold sha256Shr10
  dsimp only
  rw [shrLow_eq rfl, shrLow_eq rfl, Quad.word_shr1, Quad.word_shr1, word_byte_shift,
    ← BitVec.shiftRight_add, ← BitVec.shiftRight_add]

/-- What a sigma leaves in `sha_temp1`. -/
def sigmaWord (part1 part2 part3 : Quad → Quad) (q : Quad) : Quad :=
  (part3 q).xor ((part2 q).xor (part1 q))

theorem xor_parts (x y z : BitVec 32) : z ^^^ (y ^^^ x) = x ^^^ y ^^^ z := by
  rw [BitVec.xor_comm z, BitVec.xor_comm y]

theorem word_sig0 (q : Quad) :
    (sigmaWord sha256Rotr7 sha256Rotr18 sha256Shr3 q).word = sigma0 q.word := by
  simp only [sigmaWord, Quad.word_xor, word_sha256Rotr7, word_sha256Rotr18, word_sha256Shr3,
    xor_parts, sigma0]

theorem word_sig1 (q : Quad) :
    (sigmaWord sha256Rotr17 sha256Rotr19 sha256Shr10 q).word = sigma1 q.word := by
  simp only [sigmaWord, Quad.word_xor, word_sha256Rotr17, word_sha256Rotr19, word_sha256Shr10,
    xor_parts, sigma1]

theorem word_bigSig0 (q : Quad) :
    (sigmaWord sha256Rotr2 sha256Rotr13 sha256Rotr22 q).word = bigSigma0 q.word := by
  simp only [sigmaWord, Quad.word_xor, word_sha256Rotr2, word_sha256Rotr13, word_sha256Rotr22,
    xor_parts, bigSigma0]

theorem word_bigSig1 (q : Quad) :
    (sigmaWord sha256Rotr6 sha256Rotr11 sha256Rotr25 q).word = bigSigma1 q.word := by
  simp only [sigmaWord, Quad.word_xor, word_sha256Rotr6, word_sha256Rotr11, word_sha256Rotr25,
    xor_parts, bigSigma1]

theorem sha256Ch_temp2 (s : Sha) : (sha256Ch s).temp2.word =
    ch (loadBE s.vars 16).word (loadBE s.vars 20).word (loadBE s.vars 24).word := by
  simp only [sha256Ch, Quad.word_xor, Quad.word_and, Quad.word_not, ch]
  exact BitVec.xor_comm _ _

theorem sha256Maj_temp2 (s : Sha) : (sha256Maj s).temp2.word =
    maj (loadBE s.vars 0).word (loadBE s.vars 4).word (loadBE s.vars 8).word := by
  simp only [sha256Maj, Quad.word_xor, Quad.word_and, maj, xor_parts]

set_option maxRecDepth 4000 in
/-- The bytes of `sha256_k` are the constants. -/
theorem sha256K_word {t : Nat} (h : t < 64) :
    (loadBE (fun x => sha256K.getD x 0) (4 * t)).word = roundConstant t := by
  have hall : ∀ n : Fin 64,
      (loadBE (fun x => sha256K.getD x 0) (4 * n)).word = roundConstant n := by
    decide +kernel
  exact hall ⟨t, h⟩

end Words

/-! ## The message schedule -/

section Schedule

variable {M : Nat → BitVec 32} {s : Sha}

/-- The first `n` words of the schedule are there. -/
def Scheduled (M : Nat → BitVec 32) (n : Nat) (s : Sha) : Prop :=
  ∀ t < n, (loadBE s.w (4 * t)).word = schedule M t

/-- The sum that `@compute_w` stores. -/
def scheduleSum (w : Buffer) (i : Nat) : Quad :=
  ((sigmaWord sha256Rotr7 sha256Rotr18 sha256Shr3 (loadBE w (4 * (i - 15)))).add
    ((sigmaWord sha256Rotr17 sha256Rotr19 sha256Shr10 (loadBE w (4 * (i - 2)))).add
      (loadBE w (4 * (i - 7))))).add (loadBE w (4 * (i - 16)))

theorem computeW_w (i : Nat) (s : Sha) :
    (computeW i s).w = storeBE s.w (4 * i) (scheduleSum s.w i) := by
  simp only [computeW, sha256AddTemp2ToTemp1, sha256LoadWordToTemp2, sha256LoadWord, sha256Sig0,
    sha256Sig1, shaSigma, scheduleSum, sigmaWord]

theorem Scheduled.computeW {i : Nat} (h16 : 16 ≤ i) (h : Scheduled M i s) :
    Scheduled M (i + 1) (computeW i s) := by
  intro t ht
  rw [computeW_w]
  rcases Nat.lt_or_eq_of_le (Nat.le_of_lt_succ ht) with hlt | heq
  · rw [loadBE_storeBE_of_disjoint _ _ (Or.inl (by omega))]
    exact h t hlt
  · subst heq
    rw [loadBE_storeBE, schedule_of_ge h16]
    simp only [scheduleSum, Quad.word_add, word_sig0, word_sig1, h (t - 2) (by omega),
      h (t - 7) (by omega), h (t - 15) (by omega), h (t - 16) (by omega)]
    rw [BitVec.add_comm (sigma0 _)]

theorem Scheduled.computeWs (n : Nat) : ∀ {i : Nat} {s : Sha}, 16 ≤ i → Scheduled M i s →
    Scheduled M (i + n) (computeWs n i s) := by
  induction n with
  | zero =>
      intro i s _ h
      exact h
  | succ n ih =>
      intro i s h16 h
      have hnext := ih (i := i + 1) (Nat.le_succ_of_le h16) (h.computeW h16)
      rw [Nat.add_right_comm] at hnext
      exact hnext

theorem computeW_frame (i : Nat) (s : Sha) :
    (computeW i s).h0 = s.h0 ∧ (computeW i s).block = s.block := by
  simp only [computeW, sha256AddTemp2ToTemp1, sha256LoadWordToTemp2, sha256LoadWord, sha256Sig0,
    sha256Sig1, shaSigma, and_self]

/-- Nothing but the scratch words and the schedule is written. -/
theorem computeWs_frame (n : Nat) : ∀ (i : Nat) (s : Sha),
    (computeWs n i s).h0 = s.h0 ∧ (computeWs n i s).block = s.block := by
  induction n with
  | zero =>
      intro i s
      exact ⟨rfl, rfl⟩
  | succ n ih =>
      intro i s
      have h := ih (i + 1) (computeW i s)
      have hturn := computeW_frame i s
      exact ⟨h.1.trans hturn.1, h.2.trans hturn.2⟩

end Schedule

/-! ## The rounds -/

section Rounds

variable {M : Nat → BitVec 32} {H : Chain} {s : Sha}

/-- Eight words in memory. -/
def chainAt (m : Buffer) : Chain where
  a := (loadBE m 0).word
  b := (loadBE m 4).word
  c := (loadBE m 8).word
  d := (loadBE m 12).word
  e := (loadBE m 16).word
  f := (loadBE m 20).word
  g := (loadBE m 24).word
  h := (loadBE m 28).word

/-- The shift goes down, so that no byte is read after it was written. -/
theorem shiftVars_eq (n : Nat) : ∀ (v : Buffer),
    shiftVars n v = store v 4 (bytesAt v 0 n) := by
  induction n with
  | zero =>
      intro v
      rw [bytesAt_zero, store_nil]
      rfl
  | succ n ih =>
      intro v
      have hkeep : bytesAt (Function.update v (n + 4) (v n)) 0 n = bytesAt v 0 n := by
        refine bytesAt_congr ?_
        intro i hi
        rw [Function.update_of_ne (by omega)]
      unfold shiftVars
      rw [ih, hkeep]
      funext x
      have hat := bytesAt_add v 0 n 1
      rw [hat]
      by_cases hx : x = n + 4
      · subst hx
        rw [store_of_outside _ (Or.inr (by rw [length_bytesAt]; omega)), Function.update_self]
        unfold store
        rw [if_pos (by rw [List.length_append, length_bytesAt, length_bytesAt]; omega), Nat.add_sub_cancel, List.getD_append_right _ _ _ _ (by simp)]
        simp [bytesAt]
      · unfold store
        rw [Function.update_of_ne hx, length_bytesAt, List.length_append, length_bytesAt,
          length_bytesAt]
        by_cases hin : 4 ≤ x ∧ x < 4 + n
        · rw [if_pos hin, if_pos (by omega), List.getD_append _ _ _ _ (by rw [length_bytesAt]; omega)]
        · rw [if_neg hin, if_neg (by omega)]

theorem loadBE_shiftVars (v : Buffer) {off : Nat} (h4 : 4 ≤ off) (h28 : off ≤ 28) :
    loadBE (shiftVars 28 v) off = loadBE v (off - 4) := by
  have hbyte : ∀ i < 4, shiftVars 28 v (off + i) = v (off - 4 + i) := by
    intro i hi
    rw [shiftVars_eq]
    unfold store
    rw [length_bytesAt, if_pos (by omega), getD_bytesAt _ _ (by omega)]
    congr 1
    omega
  exact loadBE_congr (bytesAt_congr hbyte)

/-- The sums `T1` and `T2` of a round. -/
def roundSum1 (s : Sha) (i : Nat) : Quad :=
  (((((sigmaWord sha256Rotr6 sha256Rotr11 sha256Rotr25 (loadBE s.vars 16)).add
    (loadBE s.vars 28)).add (sha256Ch s).temp2).add
      (loadBE (fun x => sha256K.getD x 0) (4 * i))).add (loadBE s.w (4 * i)))

def roundSum2 (s : Sha) : Quad :=
  (sigmaWord sha256Rotr2 sha256Rotr13 sha256Rotr22 (loadBE s.vars 0)).add (sha256Maj s).temp2

theorem roundT1_t1 (i : Nat) (s : Sha) : (roundT1 i s).t1 = roundSum1 s i := by
  simp only [roundT1, roundSum1, sha256AddTemp2ToTemp1, sha256Ch, sha256BigSig1, shaSigma, sigmaWord]

theorem roundT2_t2 (s : Sha) : (roundT2 s).t2 = roundSum2 s := by
  simp only [roundT2, roundSum2, sha256AddTemp2ToTemp1, sha256Maj, sha256BigSig0, shaSigma, sigmaWord]

/-- What the two sums leave alone. -/
theorem roundT1_frame (i : Nat) (s : Sha) : (roundT1 i s).vars = s.vars ∧
    (roundT1 i s).w = s.w ∧ (roundT1 i s).h0 = s.h0 ∧ (roundT1 i s).block = s.block := by
  simp only [roundT1, sha256AddTemp2ToTemp1, sha256Ch, sha256BigSig1, shaSigma, and_self]

theorem roundT2_frame (s : Sha) : (roundT2 s).vars = s.vars ∧ (roundT2 s).t1 = s.t1 ∧
    (roundT2 s).w = s.w ∧ (roundT2 s).h0 = s.h0 ∧ (roundT2 s).block = s.block := by
  simp only [roundT2, sha256AddTemp2ToTemp1, sha256Maj, sha256BigSig0, shaSigma, and_self]

theorem mainRound_frame (i : Nat) (s : Sha) : (mainRound i s).w = s.w ∧
    (mainRound i s).h0 = s.h0 ∧ (mainRound i s).block = s.block := by
  obtain ⟨-, -, hw₂, hh₂, hb₂⟩ := roundT2_frame (roundT1 i s)
  obtain ⟨-, hw₁, hh₁, hb₁⟩ := roundT1_frame i s
  exact ⟨hw₂.trans hw₁, hh₂.trans hh₁, hb₂.trans hb₁⟩

theorem mainRound_vars (i : Nat) (s : Sha) : (mainRound i s).vars =
    storeBE (storeBE (shiftVars 28 s.vars) 16 ((loadBE s.vars 12).add (roundSum1 s i))) 0
      ((roundSum1 s i).add (roundSum2 s)) := by
  obtain ⟨hvars₂, ht1₂, -⟩ := roundT2_frame (roundT1 i s)
  have hvars₁ := (roundT1_frame i s).1
  have hsum₂ : roundSum2 (roundT1 i s) = roundSum2 s := by
    simp only [roundSum2, sha256Maj, hvars₁]
  unfold mainRound
  dsimp only
  rw [hvars₂, ht1₂, roundT2_t2, roundT1_t1, hsum₂, hvars₁]

theorem chainAt_mainRound {i : Nat} (hi : i < 64) (hw : Scheduled M 64 s) :
    chainAt (mainRound i s).vars = Fips180.round (roundConstant i) (schedule M i) (chainAt s.vars) := by
  have hsum₁ : (roundSum1 s i).word = (loadBE s.vars 28).word + bigSigma1 (loadBE s.vars 16).word +
      ch (loadBE s.vars 16).word (loadBE s.vars 20).word (loadBE s.vars 24).word +
        roundConstant i + schedule M i := by
    simp only [roundSum1, Quad.word_add, word_bigSig1, sha256Ch_temp2, sha256K_word hi, hw i hi]
    rw [BitVec.add_comm (bigSigma1 _)]
  have hsum₂ : (roundSum2 s).word = bigSigma0 (loadBE s.vars 0).word +
      maj (loadBE s.vars 0).word (loadBE s.vars 4).word (loadBE s.vars 8).word := by
    simp only [roundSum2, Quad.word_add, word_bigSig0, sha256Maj_temp2]
  rw [mainRound_vars]
  refine Chain.ext ?_ ?_ ?_ ?_ ?_ ?_ ?_ ?_
  · simp only [chainAt, loadBE_storeBE, Quad.word_add, hsum₁, hsum₂, Fips180.round]
  · simp only [chainAt, Fips180.round]
    rw [loadBE_storeBE_of_disjoint _ _ (by decide), loadBE_storeBE_of_disjoint _ _ (by decide),
      loadBE_shiftVars _ (by decide) (by decide)]
  · simp only [chainAt, Fips180.round]
    rw [loadBE_storeBE_of_disjoint _ _ (by decide), loadBE_storeBE_of_disjoint _ _ (by decide),
      loadBE_shiftVars _ (by decide) (by decide)]
  · simp only [chainAt, Fips180.round]
    rw [loadBE_storeBE_of_disjoint _ _ (by decide), loadBE_storeBE_of_disjoint _ _ (by decide),
      loadBE_shiftVars _ (by decide) (by decide)]
  · simp only [chainAt, Fips180.round]
    rw [loadBE_storeBE_of_disjoint _ _ (by decide), loadBE_storeBE, Quad.word_add, hsum₁]
  · simp only [chainAt, Fips180.round]
    rw [loadBE_storeBE_of_disjoint _ _ (by decide), loadBE_storeBE_of_disjoint _ _ (by decide),
      loadBE_shiftVars _ (by decide) (by decide)]
  · simp only [chainAt, Fips180.round]
    rw [loadBE_storeBE_of_disjoint _ _ (by decide), loadBE_storeBE_of_disjoint _ _ (by decide),
      loadBE_shiftVars _ (by decide) (by decide)]
  · simp only [chainAt, Fips180.round]
    rw [loadBE_storeBE_of_disjoint _ _ (by decide), loadBE_storeBE_of_disjoint _ _ (by decide),
      loadBE_shiftVars _ (by decide) (by decide)]

theorem mainRounds_frame (n : Nat) : ∀ (i : Nat) (s : Sha),
    (mainRounds n i s).h0 = s.h0 ∧ (mainRounds n i s).block = s.block := by
  induction n with
  | zero =>
      intro i s
      exact ⟨rfl, rfl⟩
  | succ n ih =>
      intro i s
      have h := ih (i + 1) (mainRound i s)
      have hround := mainRound_frame i s
      exact ⟨h.1.trans hround.2.1, h.2.trans hround.2.2⟩

theorem chainAt_mainRounds (n : Nat) : ∀ {i : Nat} {s : Sha}, i + n ≤ 64 → Scheduled M 64 s →
    chainAt s.vars = rounds M H i → chainAt (mainRounds n i s).vars = rounds M H (i + n) := by
  induction n with
  | zero =>
      intro i s _ _ h
      exact h
  | succ n ih =>
      intro i s hn hw h
      have hstep : chainAt (mainRound i s).vars = rounds M H (i + 1) := by
        rw [chainAt_mainRound (by omega) hw, h]
        rfl
      have hkept : Scheduled M 64 (mainRound i s) := by
        intro t ht
        rw [(mainRound_frame i s).1]
        exact hw t ht
      have hnext := ih (i := i + 1) (by omega) hkept hstep
      rw [Nat.add_right_comm] at hnext
      exact hnext

end Rounds

/-! ## The whole block -/

section ProcessBlock

theorem loadBE_addToHash (n : Nat) : ∀ (s : Sha) (j : Nat),
    loadBE (addToHash n s).h0 (4 * j) =
      if j < n then (loadBE s.h0 (4 * j)).add (loadBE s.vars (4 * j)) else loadBE s.h0 (4 * j) := by
  induction n with
  | zero =>
      intro s j
      rfl
  | succ n ih =>
      intro s j
      unfold addToHash
      rw [ih]
      dsimp only
      rcases Nat.lt_trichotomy j n with hlt | heq | hgt
      · rw [if_pos hlt, if_pos (Nat.lt_succ_of_lt hlt),
          loadBE_storeBE_of_disjoint _ _ (Or.inl (by omega))]
      · subst heq
        rw [if_neg (Nat.lt_irrefl j), if_pos (Nat.lt_succ_self j), loadBE_storeBE]
      · rw [if_neg (Nat.not_lt_of_gt hgt), if_neg (by omega),
          loadBE_storeBE_of_disjoint _ _ (Or.inr (by omega))]

theorem addToHash_block (n : Nat) : ∀ (s : Sha), (addToHash n s).block = s.block := by
  induction n with
  | zero =>
      intro s
      rfl
  | succ n ih =>
      intro s
      exact ih _

theorem chainAt_addToHash (s : Sha) :
    chainAt (sha256AddToHash s).h0 = (chainAt s.h0).add (chainAt s.vars) := by
  have hword : ∀ j < 8, (loadBE (sha256AddToHash s).h0 (4 * j)).word =
      (loadBE s.h0 (4 * j)).word + (loadBE s.vars (4 * j)).word := by
    intro j hj
    rw [sha256AddToHash, loadBE_addToHash, if_pos hj, Quad.word_add]
  exact Chain.ext (hword 0 (by decide)) (hword 1 (by decide)) (hword 2 (by decide))
    (hword 3 (by decide)) (hword 4 (by decide)) (hword 5 (by decide)) (hword 6 (by decide))
    (hword 7 (by decide))

theorem chainAt_congr {m m' : Buffer} (h : bytesAt m 0 32 = bytesAt m' 0 32) :
    chainAt m = chainAt m' := by
  have hword : ∀ j, j ≤ 28 → loadBE m j = loadBE m' j := by
    intro j hj
    have hpart := bytesAt_sub h (show j + 4 ≤ 32 by omega)
    rw [Nat.zero_add] at hpart
    exact loadBE_congr hpart
  unfold chainAt
  rw [hword 0 (by decide), hword 4 (by decide), hword 8 (by decide), hword 12 (by decide),
    hword 16 (by decide), hword 20 (by decide), hword 24 (by decide), hword 28 (by decide)]

/-- The sixteen words of `sha256_block`. -/
def blockWords (block : Buffer) (t : Nat) : BitVec 32 :=
  (loadBE block (4 * t)).word

theorem chainAt_sha256ProcessBlock (s : Sha) :
    chainAt (sha256ProcessBlock s).h0 = compress (chainAt s.h0) (blockWords s.block) := by
  obtain ⟨s₀, hs₀⟩ : ∃ s₀ : Sha, s₀ = { s with w := store s.w 0 (bytesAt s.block 0 64) } := ⟨_, rfl⟩
  obtain ⟨s₁, hs₁⟩ : ∃ s₁, s₁ = computeWs 48 16 s₀ := ⟨_, rfl⟩
  obtain ⟨s₂, hs₂⟩ : ∃ s₂ : Sha, s₂ = { s₁ with vars := store s₁.vars 0 (bytesAt s₁.h0 0 32) } :=
    ⟨_, rfl⟩
  have hprocess : sha256ProcessBlock s = sha256AddToHash (mainRounds 64 0 s₂) := by
    rw [hs₂, hs₁, hs₀]
    rfl
  have hcopied : Scheduled (blockWords s.block) 16 s₀ := by
    intro t ht
    have hbytes : bytesAt s₀.w (4 * t) 4 = bytesAt s.block (4 * t) 4 := by
      have hall : bytesAt s₀.w 0 64 = bytesAt s.block 0 64 := by
        rw [hs₀]
        exact bytesAt_store_of_length _ _ (length_bytesAt _ _ _)
      have hpart := bytesAt_sub hall (show 4 * t + 4 ≤ 64 by omega)
      rw [Nat.zero_add] at hpart
      exact hpart
    rw [loadBE_congr hbytes, schedule_of_lt ht]
    rfl
  have hscheduled : Scheduled (blockWords s.block) 64 s₁ := by
    have hall := hcopied.computeWs 48 (le_refl 16)
    rw [← hs₁] at hall
    exact hall
  have hh0 : s₁.h0 = s.h0 := by
    have hframe := (computeWs_frame 48 16 s₀).1
    rw [← hs₁, hs₀] at hframe
    exact hframe
  have hvars : chainAt s₂.vars = chainAt s.h0 := by
    rw [← hh0]
    rw [hs₂]
    exact chainAt_congr (bytesAt_store_of_length _ _ (length_bytesAt _ _ _))
  have hkept : Scheduled (blockWords s.block) 64 s₂ := by
    rw [hs₂]
    exact hscheduled
  have hrounds : chainAt (mainRounds 64 0 s₂).vars = rounds (blockWords s.block) (chainAt s.h0) 64 := by
    have hall := chainAt_mainRounds 64 (i := 0) (by decide) hkept hvars
    rw [Nat.zero_add] at hall
    exact hall
  have hframe : (mainRounds 64 0 s₂).h0 = s.h0 := by
    rw [(mainRounds_frame 64 0 s₂).1, hs₂]
    exact hh0
  rw [hprocess, chainAt_addToHash, hframe, hrounds]
  rfl

theorem sha256ProcessBlock_block (s : Sha) : (sha256ProcessBlock s).block = s.block := by
  unfold sha256ProcessBlock sha256AddToHash
  dsimp only
  rw [addToHash_block, (mainRounds_frame 64 0 _).2]
  dsimp only
  rw [(computeWs_frame 48 16 _).2]

/-- `sha256_process_block` is the compression function, and the block stays. -/
theorem sha256ProcessBlock_fips (s : Sha) :
    chainAt (sha256ProcessBlock s).h0 = compress (chainAt s.h0) (blockWords s.block) ∧
      (sha256ProcessBlock s).block = s.block :=
  ⟨chainAt_sha256ProcessBlock s, sha256ProcessBlock_block s⟩

-- From here on the routine is known by what it computes.
attribute [irreducible] sha256ProcessBlock

end ProcessBlock

/-! ## Bytes of a hash value -/

section HashBytes

theorem bytes_chainAt (m : Buffer) : (chainAt m).bytes = bytesAt m 0 32 := by
  unfold chainAt Chain.bytes
  simp only [List.flatMap_cons, List.flatMap_nil, Quad.ofWord_word, bytesBE_loadBE, List.append_nil]
  have hsplit : ∀ off n, bytesAt m off 4 ++ bytesAt m (off + 4) n = bytesAt m off (4 + n) :=
    fun off n => (bytesAt_add m off 4 n).symm
  rw [hsplit 24, hsplit 20, hsplit 16, hsplit 12, hsplit 8, hsplit 4, hsplit 0]

theorem chain_bytes_injective {H H' : Chain} (h : H.bytes = H'.bytes) : H = H' := by
  have hwords : ∀ x y : BitVec 32, bytesBE (Quad.ofWord x) = bytesBE (Quad.ofWord y) → x = y := by
    intro x y hxy
    rw [← Quad.word_ofWord x, ← Quad.word_ofWord y, bytesBE_injective hxy]
  simp only [Chain.bytes, List.flatMap_cons, List.flatMap_nil, List.append_nil] at h
  obtain ⟨ha, h⟩ := List.append_inj h rfl
  obtain ⟨hb, h⟩ := List.append_inj h rfl
  obtain ⟨hc, h⟩ := List.append_inj h rfl
  obtain ⟨hd, h⟩ := List.append_inj h rfl
  obtain ⟨he, h⟩ := List.append_inj h rfl
  obtain ⟨hf, h⟩ := List.append_inj h rfl
  obtain ⟨hg, hh⟩ := List.append_inj h rfl
  exact Chain.ext (hwords _ _ ha) (hwords _ _ hb) (hwords _ _ hc) (hwords _ _ hd) (hwords _ _ he)
    (hwords _ _ hf) (hwords _ _ hg) (hwords _ _ hh)

/-- The hash value that a buffer holds when it holds the bytes of one. -/
theorem chainAt_of_bytes {m : Buffer} {H : Chain} (h : bytesAt m 0 32 = H.bytes) : chainAt m = H :=
  chain_bytes_injective ((bytes_chainAt m).trans h)

set_option maxRecDepth 4000 in
theorem sha256HInit_bytes : sha256HInit = initial.bytes := by
  decide +kernel

@[simp] theorem chainAt_sha256Init (s : Sha) : chainAt (sha256Init s).h0 = initial := by
  refine chainAt_of_bytes ?_
  rw [← sha256HInit_bytes]
  exact bytesAt_store_self s.h0 0 sha256HInit

/-- A block in memory as a string of bytes. -/
theorem compress_blockWords (H : Chain) {m : Buffer} {block : List UInt8}
    (h : bytesAt m 0 64 = block) : compress H (blockWords m) = compressBlock H block := by
  refine compress_congr H ?_
  intro t ht
  have hbyte : ∀ i < 64, m i = block.getD i 0 := by
    intro i hi
    rw [← h, getD_bytesAt _ _ hi, Nat.zero_add]
  unfold blockWords blockWord loadBE
  rw [hbyte _ (by omega), hbyte _ (by omega), hbyte _ (by omega), hbyte _ (by omega)]

/-- A text with the byte `80` behind it, in a block of zeros. -/
theorem padded_block (block : Buffer) (text : List UInt8) {k : Nat} (hk : text.length + 1 ≤ k)
    (h64 : k ≤ 64) :
    bytesAt (Function.update (store (store block 0 (List.replicate 64 0)) 0 text) text.length 0x80)
      0 k = text ++ [0x80] ++ List.replicate (k - (text ++ [0x80]).length) 0 := by
  have hone := store_store (store block 0 (List.replicate 64 0)) 0 text [0x80]
  rw [Nat.zero_add] at hone
  rw [update_eq_store, hone]
  refine bytesAt_store_zeros block ?_ h64
  rw [List.length_append, List.length_singleton]
  exact hk

end HashBytes

end Crypto
end C64Https
