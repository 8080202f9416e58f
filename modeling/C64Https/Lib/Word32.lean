import C64Https.Lib.Bytes

/-!
# Word32 — 32-bit words on a machine of bytes

A word is four bytes (`Quad`), named by their weight, and an operation on it is a chain of byte
operations that hand a carry on.  `Quad.word` is the word that the bytes stand for, and every chain
is shown to be the operation of `BitVec 32` that it is written for: `adc` chains are addition,
`lsr`/`ror` and `asl`/`rol` chains shift, and with the carry put back, or with whole bytes moved,
they rotate.

`loadLE`, `loadBE`, `storeLE` and `storeBE` are the two ways that a word lies in memory.
-/

namespace C64Https
namespace Word32

open Bytes

/-- The bytes of a word, `d0` the lowest. -/
structure Quad where
  d0 : UInt8
  d1 : UInt8
  d2 : UInt8
  d3 : UInt8
  deriving DecidableEq, Repr

instance : Inhabited Quad :=
  ⟨⟨0, 0, 0, 0⟩⟩

/-! ## Instructions on one byte, with the carry -/

/-- `adc`. -/
def adc (a b : UInt8) (c : Nat) : UInt8 × Nat :=
  (UInt8.ofNat (a.toNat + b.toNat + c), (a.toNat + b.toNat + c) / 256)

/-- `ror`; `lsr` is `ror` with no carry. -/
def ror (b : UInt8) (c : Nat) : UInt8 × Nat :=
  (UInt8.ofNat (b.toNat / 2 + 128 * c), b.toNat % 2)

/-- `rol`; `asl` is `rol` with no carry. -/
def rol (b : UInt8) (c : Nat) : UInt8 × Nat :=
  (UInt8.ofNat (2 * b.toNat + c), b.toNat / 128)

/-- `ora #$80` on a byte that is clear there. -/
theorem toNat_ora_high (b : UInt8) : b.toNat < 128 → (b ||| 0x80).toNat = b.toNat + 128 := by
  refine forall_byte (p := fun b => b.toNat < 128 → (b ||| 0x80).toNat = b.toNat + 128) ?_ b
  decide +kernel

/-- `ora #$01` on a byte that is clear there. -/
theorem toNat_ora_low (b : UInt8) : b.toNat % 2 = 0 → (b ||| 0x01).toNat = b.toNat + 1 := by
  refine forall_byte (p := fun b => b.toNat % 2 = 0 → (b ||| 0x01).toNat = b.toNat + 1) ?_ b
  decide +kernel

namespace Quad

/-! ## The word of four bytes -/

def word (q : Quad) : BitVec 32 :=
  q.d3.toBitVec ++ q.d2.toBitVec ++ q.d1.toBitVec ++ q.d0.toBitVec

def ofWord (x : BitVec 32) : Quad where
  d0 := UInt8.ofNat x.toNat
  d1 := UInt8.ofNat (x.toNat / 256)
  d2 := UInt8.ofNat (x.toNat / 65536)
  d3 := UInt8.ofNat (x.toNat / 16777216)

theorem toNat_append_byte {n : Nat} (x : BitVec n) (b : UInt8) :
    (x ++ b.toBitVec).toNat = x.toNat * 256 + b.toNat := by
  rw [BitVec.toNat_append, UInt8.toNat_toBitVec, ← Nat.shiftLeft_add_eq_or_of_lt b.toNat_lt,
    Nat.shiftLeft_eq]

theorem toNat_word (q : Quad) : q.word.toNat =
    q.d0.toNat + 256 * q.d1.toNat + 65536 * q.d2.toNat + 16777216 * q.d3.toNat := by
  unfold word
  rw [toNat_append_byte, toNat_append_byte, toNat_append_byte, UInt8.toNat_toBitVec]
  omega

@[simp] theorem word_ofWord (x : BitVec 32) : (ofWord x).word = x := by
  refine BitVec.eq_of_toNat_eq ?_
  have hx := x.isLt
  rw [toNat_word]
  simp only [ofWord, UInt8.toNat_ofNat']
  omega

theorem word_injective {p q : Quad} (h : p.word = q.word) : p = q := by
  have hnat : p.word.toNat = q.word.toNat := congrArg BitVec.toNat h
  rw [toNat_word, toNat_word] at hnat
  have hp₀ := p.d0.toNat_lt
  have hp₁ := p.d1.toNat_lt
  have hp₂ := p.d2.toNat_lt
  have hq₀ := q.d0.toNat_lt
  have hq₁ := q.d1.toNat_lt
  have hq₂ := q.d2.toNat_lt
  have h₀ : p.d0 = q.d0 := UInt8.toNat.inj (by omega)
  have h₁ : p.d1 = q.d1 := UInt8.toNat.inj (by omega)
  have h₂ : p.d2 = q.d2 := UInt8.toNat.inj (by omega)
  have h₃ : p.d3 = q.d3 := UInt8.toNat.inj (by omega)
  cases p
  cases q
  simp_all

@[simp] theorem ofWord_word (q : Quad) : ofWord q.word = q :=
  word_injective (word_ofWord q.word)

/-! ## Addition -/

/-- `clc`, and four `adc` from the lowest byte on. -/
def add (p q : Quad) : Quad :=
  let s0 := adc p.d0 q.d0 0
  let s1 := adc p.d1 q.d1 s0.2
  let s2 := adc p.d2 q.d2 s1.2
  let s3 := adc p.d3 q.d3 s2.2
  { d0 := s0.1, d1 := s1.1, d2 := s2.1, d3 := s3.1 }

@[simp] theorem word_add (p q : Quad) : (p.add q).word = p.word + q.word := by
  refine BitVec.eq_of_toNat_eq ?_
  rw [BitVec.toNat_add, toNat_word, toNat_word, toNat_word]
  simp only [add, adc, UInt8.toNat_ofNat']
  -- the carries add up to what the wraps take off
  omega

/-! ## Bitwise operations, byte by byte -/

def map₂ (f : UInt8 → UInt8 → UInt8) (p q : Quad) : Quad :=
  { d0 := f p.d0 q.d0, d1 := f p.d1 q.d1, d2 := f p.d2 q.d2, d3 := f p.d3 q.d3 }

def xor (p q : Quad) : Quad :=
  map₂ (· ^^^ ·) p q

def and (p q : Quad) : Quad :=
  map₂ (· &&& ·) p q

/-- `eor #$ff`. -/
def not (q : Quad) : Quad :=
  { d0 := q.d0 ^^^ 0xff, d1 := q.d1 ^^^ 0xff, d2 := q.d2 ^^^ 0xff, d3 := q.d3 ^^^ 0xff }

@[simp] theorem word_xor (p q : Quad) : (p.xor q).word = p.word ^^^ q.word := by
  simp only [word, xor, map₂, UInt8.toBitVec_xor]
  rw [← BitVec.xor_append, ← BitVec.xor_append, ← BitVec.xor_append]

@[simp] theorem word_and (p q : Quad) : (p.and q).word = p.word &&& q.word := by
  simp only [word, and, map₂, UInt8.toBitVec_and]
  rw [← BitVec.and_append, ← BitVec.and_append, ← BitVec.and_append]

theorem xor_ff (b : UInt8) : b ^^^ 0xff = ~~~ b := by
  refine forall_byte (p := fun b => b ^^^ 0xff = ~~~ b) ?_ b
  decide +kernel

@[simp] theorem word_not (q : Quad) : q.not.word = ~~~ q.word := by
  simp only [word, not, xor_ff, UInt8.toBitVec_not]
  rw [← BitVec.not_append, ← BitVec.not_append, ← BitVec.not_append]

/-! ## Shifts -/

/-- `lsr`, and three `ror` down from the highest byte; the carry that falls out. -/
def shr1 (q : Quad) : Quad × Nat :=
  let s3 := ror q.d3 0
  let s2 := ror q.d2 s3.2
  let s1 := ror q.d1 s2.2
  let s0 := ror q.d0 s1.2
  ({ d0 := s0.1, d1 := s1.1, d2 := s2.1, d3 := s3.1 }, s0.2)

/-- `asl`, and three `rol` up from the lowest byte; the carry that falls out. -/
def shl1 (q : Quad) : Quad × Nat :=
  let s0 := rol q.d0 0
  let s1 := rol q.d1 s0.2
  let s2 := rol q.d2 s1.2
  let s3 := rol q.d3 s2.2
  ({ d0 := s0.1, d1 := s1.1, d2 := s2.1, d3 := s3.1 }, s3.2)

theorem shr1_toNat (q : Quad) :
    q.shr1.1.word.toNat = q.word.toNat / 2 ∧ q.shr1.2 = q.word.toNat % 2 ∧
      q.shr1.1.d3.toNat < 128 := by
  have h₀ := q.d0.toNat_lt
  have h₁ := q.d1.toNat_lt
  have h₂ := q.d2.toNat_lt
  have h₃ := q.d3.toNat_lt
  rw [toNat_word, toNat_word]
  simp only [shr1, ror, UInt8.toNat_ofNat']
  refine ⟨?_, ?_, ?_⟩
  · omega
  · omega
  · omega

theorem shl1_toNat (q : Quad) :
    q.shl1.1.word.toNat = 2 * q.word.toNat % 4294967296 ∧
      q.shl1.2 = q.word.toNat / 2147483648 ∧ q.shl1.1.d0.toNat % 2 = 0 := by
  have h₀ := q.d0.toNat_lt
  have h₁ := q.d1.toNat_lt
  have h₂ := q.d2.toNat_lt
  have h₃ := q.d3.toNat_lt
  rw [toNat_word, toNat_word]
  simp only [shl1, rol, UInt8.toNat_ofNat']
  refine ⟨?_, ?_, ?_⟩
  · omega
  · omega
  · omega

@[simp] theorem word_shr1 (q : Quad) : q.shr1.1.word = q.word >>> 1 := by
  refine BitVec.eq_of_toNat_eq ?_
  rw [BitVec.toNat_ushiftRight, Nat.shiftRight_eq_div_pow]
  exact (shr1_toNat q).1

/-! ## Rotations -/

/-- A rotation takes the low bits off and puts them back on top. -/
theorem toNat_rotateRight_of_lt (x : BitVec 32) {k : Nat} (hk : k < 32) :
    (x.rotateRight k).toNat = x.toNat / 2 ^ k + x.toNat % 2 ^ k * 2 ^ (32 - k) := by
  have hpow : (2 : Nat) ^ 32 = 2 ^ k * 2 ^ (32 - k) := by
    rw [← pow_add, Nat.add_sub_cancel' (Nat.le_of_lt hk)]
  have hlow : x.toNat / 2 ^ k < 2 ^ (32 - k) := by
    refine Nat.div_lt_of_lt_mul ?_
    rw [← hpow]
    exact x.isLt
  rw [BitVec.toNat_rotateRight, Nat.mod_eq_of_lt hk, Nat.shiftRight_eq_div_pow, Nat.shiftLeft_eq,
    hpow, Nat.mul_mod_mul_right, Nat.or_comm, ← Nat.shiftLeft_eq,
    ← Nat.shiftLeft_add_eq_or_of_lt hlow, Nat.shiftLeft_eq, Nat.add_comm]

theorem getLsbD_rotateRight_mod (x : BitVec 32) (k : Nat) {i : Nat} (hi : i < 32) :
    (x.rotateRight k).getLsbD i = x.getLsbD ((i + k) % 32) := by
  rw [BitVec.getLsbD_rotateRight]
  by_cases h : i < 32 - k % 32
  · rw [decide_eq_true h, cond_true]
    congr 1
    omega
  · rw [decide_eq_false h, cond_false, decide_eq_true hi, Bool.true_and]
    congr 1
    omega

@[simp] theorem rotateRight_rotateRight (x : BitVec 32) (j k : Nat) :
    (x.rotateRight j).rotateRight k = x.rotateRight ((j + k) % 32) := by
  refine BitVec.eq_of_getLsbD_eq ?_
  intro i hi
  rw [getLsbD_rotateRight_mod _ _ hi, getLsbD_rotateRight_mod _ _ (Nat.mod_lt _ (by decide)),
    getLsbD_rotateRight_mod _ _ hi]
  congr 1
  omega

theorem rotateLeft_eq_rotateRight (x : BitVec 32) {k : Nat} (hk : k < 32) :
    x.rotateLeft k = x.rotateRight (32 - k) := by
  refine BitVec.eq_of_getLsbD_eq ?_
  intro i hi
  rw [getLsbD_rotateRight_mod _ _ hi, BitVec.getLsbD_rotateLeft, Nat.mod_eq_of_lt hk]
  by_cases h : i < k
  · rw [decide_eq_true h, cond_true]
    congr 1
    omega
  · rw [decide_eq_false h, cond_false, decide_eq_true hi, Bool.true_and]
    congr 1
    omega

/-- One place to the right; the bit that fell out goes in at the top. -/
def rotr1 (q : Quad) : Quad :=
  let s := q.shr1
  if s.2 = 1 then { s.1 with d3 := s.1.d3 ||| 0x80 } else s.1

/-- One place to the left; the bit that fell out goes in at the bottom. -/
def rotl1 (q : Quad) : Quad :=
  let s := q.shl1
  if s.2 = 1 then { s.1 with d0 := s.1.d0 ||| 0x01 } else s.1

/-- Every byte one place down. -/
def rotr8 (q : Quad) : Quad :=
  { d0 := q.d1, d1 := q.d2, d2 := q.d3, d3 := q.d0 }

/-- Every byte one place up. -/
def rotl8 (q : Quad) : Quad :=
  { d0 := q.d3, d1 := q.d0, d2 := q.d1, d3 := q.d2 }

/-- The halves exchanged. -/
def rotr16 (q : Quad) : Quad :=
  { d0 := q.d2, d1 := q.d3, d2 := q.d0, d3 := q.d1 }

@[simp] theorem word_rotr1 (q : Quad) : q.rotr1.word = q.word.rotateRight 1 := by
  obtain ⟨hword, hcarry, hhigh⟩ := shr1_toNat q
  have hora := toNat_ora_high q.shr1.1.d3 hhigh
  refine BitVec.eq_of_toNat_eq ?_
  rw [toNat_rotateRight_of_lt _ (by decide)]
  unfold rotr1
  dsimp only
  split
  · rename_i hc
    rw [toNat_word] at hword ⊢
    dsimp only
    omega
  · rename_i hc
    rw [hword]
    omega

@[simp] theorem word_rotl1 (q : Quad) : q.rotl1.word = q.word.rotateRight 31 := by
  obtain ⟨hword, hcarry, hlow⟩ := shl1_toNat q
  have hora := toNat_ora_low q.shl1.1.d0 hlow
  have hlt := q.word.isLt
  refine BitVec.eq_of_toNat_eq ?_
  rw [toNat_rotateRight_of_lt _ (by decide)]
  unfold rotl1
  dsimp only
  split
  · rename_i hc
    rw [toNat_word] at hword ⊢
    dsimp only
    omega
  · rename_i hc
    rw [hword]
    omega

@[simp] theorem word_rotr8 (q : Quad) : q.rotr8.word = q.word.rotateRight 8 := by
  have h₀ := q.d0.toNat_lt
  refine BitVec.eq_of_toNat_eq ?_
  rw [toNat_rotateRight_of_lt _ (by decide), toNat_word, toNat_word]
  dsimp only [rotr8]
  omega

@[simp] theorem word_rotl8 (q : Quad) : q.rotl8.word = q.word.rotateRight 24 := by
  have h₀ := q.d0.toNat_lt
  have h₁ := q.d1.toNat_lt
  have h₂ := q.d2.toNat_lt
  refine BitVec.eq_of_toNat_eq ?_
  rw [toNat_rotateRight_of_lt _ (by decide), toNat_word, toNat_word]
  dsimp only [rotl8]
  omega

@[simp] theorem word_rotr16 (q : Quad) : q.rotr16.word = q.word.rotateRight 16 := by
  have h₀ := q.d0.toNat_lt
  have h₁ := q.d1.toNat_lt
  refine BitVec.eq_of_toNat_eq ?_
  rw [toNat_rotateRight_of_lt _ (by decide), toNat_word, toNat_word]
  dsimp only [rotr16]
  omega

/-- Every nibble one place up: a byte shifted left, with the high nibble of the byte below. -/
def rotl4 (q : Quad) : Quad :=
  { d0 := q.d0 <<< 4 ||| q.d3 >>> 4
    d1 := q.d1 <<< 4 ||| q.d0 >>> 4
    d2 := q.d2 <<< 4 ||| q.d1 >>> 4
    d3 := q.d3 <<< 4 ||| q.d2 >>> 4 }

theorem toNat_nibbles (a b : UInt8) :
    (a <<< 4 ||| b >>> 4).toNat = a.toNat % 16 * 16 + b.toNat / 16 := by
  have hb := b.toNat_lt
  have hlow : b.toNat / 16 < 2 ^ 4 := by
    omega
  have hhigh : a.toNat <<< 4 % 2 ^ 8 = (a.toNat % 16) <<< 4 := by
    rw [Nat.shiftLeft_eq, Nat.shiftLeft_eq]
    omega
  rw [UInt8.toNat_or, UInt8.toNat_shiftLeft, UInt8.toNat_shiftRight]
  have h4 : UInt8.toNat 4 % 8 = 4 := rfl
  rw [h4, hhigh, Nat.shiftRight_eq_div_pow, ← Nat.shiftLeft_add_eq_or_of_lt hlow, Nat.shiftLeft_eq]

@[simp] theorem word_rotl4 (q : Quad) : q.rotl4.word = q.word.rotateRight 28 := by
  have h₀ := q.d0.toNat_lt
  have h₁ := q.d1.toNat_lt
  have h₂ := q.d2.toNat_lt
  have h₃ := q.d3.toNat_lt
  refine BitVec.eq_of_toNat_eq ?_
  rw [toNat_rotateRight_of_lt _ (by decide), toNat_word, toNat_word]
  simp only [rotl4, toNat_nibbles]
  omega

end Quad

/-! ## Words in memory -/

/-- The word at `off`, its highest byte first. -/
def loadBE (m : Buffer) (off : Nat) : Quad :=
  { d3 := m off, d2 := m (off + 1), d1 := m (off + 2), d0 := m (off + 3) }

def bytesBE (q : Quad) : List UInt8 :=
  [q.d3, q.d2, q.d1, q.d0]

def storeBE (m : Buffer) (off : Nat) (q : Quad) : Buffer :=
  store m off (bytesBE q)

/-- The word at `off`, its lowest byte first. -/
def loadLE (m : Buffer) (off : Nat) : Quad :=
  { d0 := m off, d1 := m (off + 1), d2 := m (off + 2), d3 := m (off + 3) }

def bytesLE (q : Quad) : List UInt8 :=
  [q.d0, q.d1, q.d2, q.d3]

def storeLE (m : Buffer) (off : Nat) (q : Quad) : Buffer :=
  store m off (bytesLE q)

theorem bytesBE_loadBE (m : Buffer) (off : Nat) : bytesBE (loadBE m off) = bytesAt m off 4 :=
  rfl

theorem bytesLE_loadLE (m : Buffer) (off : Nat) : bytesLE (loadLE m off) = bytesAt m off 4 :=
  rfl

theorem bytesBE_injective {p q : Quad} (h : bytesBE p = bytesBE q) : p = q := by
  cases p
  cases q
  simp only [bytesBE, List.cons.injEq, and_true] at h
  rcases h with ⟨h₃, h₂, h₁, h₀⟩
  rw [h₀, h₁, h₂, h₃]

theorem bytesLE_injective {p q : Quad} (h : bytesLE p = bytesLE q) : p = q := by
  cases p
  cases q
  simpa [bytesLE] using h

/-- What is at four places makes the word there. -/
theorem loadBE_congr {m m' : Buffer} {off off' : Nat}
    (h : bytesAt m off 4 = bytesAt m' off' 4) : loadBE m off = loadBE m' off' :=
  bytesBE_injective h

theorem loadLE_congr {m m' : Buffer} {off off' : Nat}
    (h : bytesAt m off 4 = bytesAt m' off' 4) : loadLE m off = loadLE m' off' :=
  bytesLE_injective h

@[simp] theorem loadBE_storeBE (m : Buffer) (off : Nat) (q : Quad) :
    loadBE (storeBE m off q) off = q :=
  bytesBE_injective (bytesAt_store_self m off (bytesBE q))

@[simp] theorem loadLE_storeLE (m : Buffer) (off : Nat) (q : Quad) :
    loadLE (storeLE m off q) off = q :=
  bytesLE_injective (bytesAt_store_self m off (bytesLE q))

theorem loadBE_storeBE_of_disjoint (m : Buffer) {off off' : Nat} (q : Quad)
    (h : off' + 4 ≤ off ∨ off + 4 ≤ off') : loadBE (storeBE m off q) off' = loadBE m off' :=
  loadBE_congr (bytesAt_store_of_disjoint m (bytesBE q) h)

theorem loadLE_storeLE_of_disjoint (m : Buffer) {off off' : Nat} (q : Quad)
    (h : off' + 4 ≤ off ∨ off + 4 ≤ off') : loadLE (storeLE m off q) off' = loadLE m off' :=
  loadLE_congr (bytesAt_store_of_disjoint m (bytesLE q) h)

end Word32
end C64Https
