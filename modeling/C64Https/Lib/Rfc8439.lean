import C64Https.Lib.LittleEndian

/-!
# Rfc8439 — ChaCha20, Poly1305 and their AEAD

The functions of RFC 8439 over byte strings: the ChaCha20 block function and the keystream, Poly1305
as arithmetic modulo `2^130 - 5`, and the construction that puts them together.
-/

namespace C64Https
namespace Rfc8439

open Bytes Word32

/-! ## ChaCha20, sections 2.1 to 2.4 -/

/-- The state: four words by four. -/
abbrev State : Type :=
  Vector (BitVec 32) 16

instance neZero_sixteen : NeZero 16 :=
  ⟨by decide⟩

theorem place_lt (i : Fin 16) : i.val < 16 :=
  i.isLt

/-- The quarter round on four words. -/
def quarter (a b c d : BitVec 32) : BitVec 32 × BitVec 32 × BitVec 32 × BitVec 32 :=
  let a := a + b
  let d := (d ^^^ a).rotateLeft 16
  let c := c + d
  let b := (b ^^^ c).rotateLeft 12
  let a := a + b
  let d := (d ^^^ a).rotateLeft 8
  let c := c + d
  let b := (b ^^^ c).rotateLeft 7
  (a, b, c, d)

/-- `QUARTERROUND`, on four words of the state. -/
def quarterRound (x y z w : Fin 16) (s : State) : State :=
  let r := quarter (s.get x) (s.get y) (s.get z) (s.get w)
  let s := (s.set x r.1 (place_lt x)).set y r.2.1 (place_lt y)
  (s.set z r.2.2.1 (place_lt z)).set w r.2.2.2 (place_lt w)

/-- Four rounds on the columns and four on the diagonals. -/
def innerBlock (s : State) : State :=
  let s := quarterRound 0 4 8 12 s
  let s := quarterRound 1 5 9 13 s
  let s := quarterRound 2 6 10 14 s
  let s := quarterRound 3 7 11 15 s
  let s := quarterRound 0 5 10 15 s
  let s := quarterRound 1 6 11 12 s
  let s := quarterRound 2 7 8 13 s
  quarterRound 3 4 9 14 s

/-- The word at place `i` of a byte string. -/
def wordLE (bs : List UInt8) (i : Nat) : BitVec 32 :=
  (loadLE (fun j => bs.getD j 0) (4 * i)).word

/-- `"expa"`, `"nd 3"`, `"2-by"`, `"te k"`. -/
def constants : List (BitVec 32) :=
  [0x61707865, 0x3320646e, 0x79622d32, 0x6b206574]

def initial (key : List UInt8) (counter : BitVec 32) (nonce : List UInt8) : State :=
  Vector.ofFn fun i =>
    if i.val < 4 then constants.getD i 0
    else if i.val < 12 then wordLE key (i.val - 4)
    else if i.val = 12 then counter
    else wordLE nonce (i.val - 13)

/-- The words of a block of keystream. -/
def blockWords (key : List UInt8) (counter : BitVec 32) (nonce : List UInt8) : State :=
  let s := initial key counter nonce
  Vector.zipWith (· + ·) (innerBlock^[10] s) s

/-- The words, lowest byte first. -/
def serialize (s : State) : List UInt8 :=
  s.toList.flatMap fun x => bytesLE (Quad.ofWord x)

def chacha20Block (key : List UInt8) (counter : BitVec 32) (nonce : List UInt8) : List UInt8 :=
  serialize (blockWords key counter nonce)

/-- The first `n` blocks from `counter` on. -/
def blocks (key : List UInt8) (counter : BitVec 32) (nonce : List UInt8) (n : Nat) : List UInt8 :=
  (List.range n).flatMap fun j => chacha20Block key (counter + BitVec.ofNat 32 j) nonce

/-- `chacha20_encrypt`. -/
def chacha20Encrypt (key : List UInt8) (counter : BitVec 32) (nonce text : List UInt8) : List UInt8 :=
  List.zipWith (· ^^^ ·) text (blocks key counter nonce ((text.length + 63) / 64))

section ChaCha

@[simp] theorem length_serialize (s : State) : (serialize s).length = 64 := by
  simp [serialize, bytesLE, List.length_flatMap]

@[simp] theorem length_chacha20Block (key : List UInt8) (counter : BitVec 32)
    (nonce : List UInt8) : (chacha20Block key counter nonce).length = 64 :=
  length_serialize _

attribute [irreducible] chacha20Block

/-- The first block apart. -/
theorem blocks_succ (key : List UInt8) (counter : BitVec 32) (nonce : List UInt8) (n : Nat) :
    blocks key counter nonce (n + 1) =
      chacha20Block key counter nonce ++ blocks key (counter + 1) nonce n := by
  have hzero : counter + BitVec.ofNat 32 0 = counter := BitVec.add_zero counter
  have hsucc : ∀ j, counter + BitVec.ofNat 32 (j + 1) = counter + 1 + BitVec.ofNat 32 j := by
    intro j
    rw [BitVec.ofNat_add, BitVec.add_comm (BitVec.ofNat 32 j), ← BitVec.add_assoc]
    rfl
  unfold blocks
  rw [List.range_succ_eq_map, List.flatMap_cons, List.flatMap_map, hzero]
  simp only [Nat.succ_eq_add_one, hsucc]

@[simp] theorem length_blocks (key : List UInt8) (nonce : List UInt8) (n : Nat) :
    ∀ counter : BitVec 32, (blocks key counter nonce n).length = 64 * n := by
  induction n with
  | zero =>
      intro counter
      rfl
  | succ n ih =>
      intro counter
      rw [blocks_succ, List.length_append, ih, length_chacha20Block]
      omega

/-- A byte of the stream lies in its block. -/
theorem getD_blocks (key : List UInt8) (nonce : List UInt8) (n : Nat) :
    ∀ (counter : BitVec 32) (i : Nat), i < 64 * n →
      (blocks key counter nonce n).getD i 0 =
        (chacha20Block key (counter + BitVec.ofNat 32 (i / 64)) nonce).getD (i % 64) 0 := by
  induction n with
  | zero =>
      intro counter i hi
      omega
  | succ n ih =>
      intro counter i hi
      rw [blocks_succ]
      by_cases hfirst : i < 64
      · have hzero : counter + BitVec.ofNat 32 0 = counter := BitVec.add_zero counter
        rw [List.getD_append _ _ _ _ (by rw [length_chacha20Block]; exact hfirst),
          Nat.div_eq_of_lt hfirst, Nat.mod_eq_of_lt hfirst, hzero]
      · have hdiv : i / 64 = (i - 64) / 64 + 1 := by omega
        have hmod : i % 64 = (i - 64) % 64 := by omega
        have hlen : (chacha20Block key counter nonce).length ≤ i := by
          rw [length_chacha20Block]
          omega
        rw [List.getD_append_right _ _ _ _ hlen, length_chacha20Block, ih _ _ (by omega), hdiv, hmod,
          BitVec.ofNat_add, BitVec.add_comm (BitVec.ofNat 32 _), ← BitVec.add_assoc]
        rfl

end ChaCha

/-! ## Poly1305, section 2.5 -/

/-- `P`. -/
def prime : Nat :=
  2 ^ 130 - 5

def clamp (r : Nat) : Nat :=
  r &&& 0x0ffffffc0ffffffc0ffffffc0fffffff

/-- The values of the blocks of a message: each with a one behind it. -/
def blockValues (msg : List UInt8) : List Nat :=
  if msg = [] then []
  else LittleEndian.value (msg.take 16 ++ [1]) :: blockValues (msg.drop 16)
termination_by msg.length
decreasing_by
  rename_i hmsg
  have hpos := List.length_pos_iff.2 hmsg
  rw [List.length_drop]
  omega

/-- `a = (r * (a + n)) % P`, for the blocks one after the other. -/
def accumulate (r : Nat) (values : List Nat) : Nat :=
  values.foldl (fun a n => r * (a + n) % prime) 0

/-- `poly1305_mac`. -/
def poly1305Mac (key msg : List UInt8) : List UInt8 :=
  let r := clamp (LittleEndian.value (key.take 16))
  let s := LittleEndian.value ((key.drop 16).take 16)
  LittleEndian.padded 16 (accumulate r (blockValues msg) + s)

/-- The values of the blocks, each times its power of `r`. -/
def powerSum (r : Nat) : List Nat → Nat
  | [] => 0
  | v :: vs => v * r ^ (vs.length + 1) + powerSum r vs

section Poly

theorem powerSum_concat (r v : Nat) : ∀ vs : List Nat,
    powerSum r (vs ++ [v]) = (powerSum r vs + v) * r := by
  intro vs
  induction vs with
  | nil => simp [powerSum]
  | cons w vs ih =>
      rw [List.cons_append, powerSum, powerSum, ih, List.length_append, List.length_singleton]
      ring

/-- The loop is Horner's rule. -/
theorem accumulate_eq (r : Nat) (vs : List Nat) : accumulate r vs = powerSum r vs % prime := by
  induction vs using List.reverseRecOn with
  | nil => rfl
  | append_singleton vs v ih =>
      unfold accumulate at ih ⊢
      rw [List.foldl_append, List.foldl_cons, List.foldl_nil, ih, powerSum_concat, Nat.mul_comm r]
      exact (((Nat.mod_modEq _ _).add_right v).mul_right r)

@[simp] theorem blockValues_nil : blockValues [] = [] := by
  unfold blockValues
  rfl

/-- A whole block in front. -/
theorem blockValues_append {b m : List UInt8} (h : b.length = 16) :
    blockValues (b ++ m) = LittleEndian.value (b ++ [1]) :: blockValues m := by
  have hne : b ++ m ≠ [] := by
    intro hnil
    rw [List.append_eq_nil_iff] at hnil
    rw [hnil.1] at h
    exact absurd h (by decide)
  rw [blockValues, if_neg hne, List.take_left' h, List.drop_left' h]

end Poly

/-! ## The construction, section 2.8 -/

/-- `pad16`: zeros up to a multiple of sixteen. -/
def pad16 (bs : List UInt8) : List UInt8 :=
  List.replicate ((16 - bs.length % 16) % 16) 0

/-- What the tag is computed over. -/
def macData (aad cipher : List UInt8) : List UInt8 :=
  aad ++ pad16 aad ++ (cipher ++ pad16 cipher) ++
    (LittleEndian.padded 8 aad.length ++ LittleEndian.padded 8 cipher.length)

/-- `poly1305_key_gen`: the first half of the block for counter zero. -/
def poly1305KeyGen (key nonce : List UInt8) : List UInt8 :=
  (chacha20Block key 0 nonce).take 32

/-- The tag of a ciphertext. -/
def aeadTag (key nonce aad cipher : List UInt8) : List UInt8 :=
  poly1305Mac (poly1305KeyGen key nonce) (macData aad cipher)

/-- `chacha20_aead_encrypt`: the ciphertext and its tag. -/
def aeadEncrypt (key nonce aad plain : List UInt8) : List UInt8 × List UInt8 :=
  (chacha20Encrypt key 1 nonce plain, aeadTag key nonce aad (chacha20Encrypt key 1 nonce plain))

/-- Decryption: the text, when the tag is its tag. -/
def aeadDecrypt (key nonce aad cipher tag : List UInt8) : Option (List UInt8) :=
  if aeadTag key nonce aad cipher = tag then some (chacha20Encrypt key 1 nonce cipher) else none

section Aead

@[simp] theorem length_chacha20Encrypt (key : List UInt8) (counter : BitVec 32)
    (nonce text : List UInt8) : (chacha20Encrypt key counter nonce text).length = text.length := by
  unfold chacha20Encrypt
  rw [List.length_zipWith, length_blocks]
  omega

/-- What is encrypted again is the text. -/
theorem chacha20Encrypt_chacha20Encrypt (key : List UInt8) (counter : BitVec 32)
    (nonce text : List UInt8) :
    chacha20Encrypt key counter nonce (chacha20Encrypt key counter nonce text) = text := by
  refine List.ext_getElem ?_ fun i h₁ h₂ => ?_
  · rw [length_chacha20Encrypt, length_chacha20Encrypt]
  · have hlen := length_chacha20Encrypt key counter nonce text
    unfold chacha20Encrypt at hlen ⊢
    simp only [hlen, List.getElem_zipWith]
    rw [UInt8.xor_assoc, UInt8.xor_self, UInt8.xor_zero]

/-- Whole blocks in front. -/
theorem blockValues_append_of_whole (n : Nat) : ∀ {as : List UInt8} (bs : List UInt8),
    as.length = 16 * n → blockValues (as ++ bs) = blockValues as ++ blockValues bs := by
  induction n with
  | zero =>
      intro as bs h
      rw [List.eq_nil_of_length_eq_zero h, blockValues_nil, List.nil_append, List.nil_append]
  | succ n ih =>
      intro as bs h
      have hfirst : (as.take 16).length = 16 := by
        rw [List.length_take]
        omega
      have hrest : (as.drop 16).length = 16 * n := by
        rw [List.length_drop]
        omega
      rw [← List.take_append_drop 16 as, List.append_assoc, blockValues_append hfirst,
        blockValues_append hfirst, ih bs hrest, List.cons_append]

/-- A padded string is whole blocks. -/
theorem exists_length_pad16 (bs : List UInt8) : ∃ n, (bs ++ pad16 bs).length = 16 * n := by
  unfold pad16
  rw [List.length_append, List.length_replicate]
  exact ⟨(bs.length + 15) / 16, by omega⟩

/-- The blocks of what the tag is computed over. -/
theorem blockValues_macData (aad cipher : List UInt8) :
    blockValues (macData aad cipher) =
      blockValues (aad ++ pad16 aad) ++ blockValues (cipher ++ pad16 cipher) ++
        [LittleEndian.value (LittleEndian.padded 8 aad.length ++
          LittleEndian.padded 8 cipher.length ++ [1])] := by
  obtain ⟨n, hn⟩ := exists_length_pad16 aad
  obtain ⟨m, hm⟩ := exists_length_pad16 cipher
  have hlens : (LittleEndian.padded 8 aad.length ++ LittleEndian.padded 8 cipher.length).length = 16 := by
    rw [List.length_append, LittleEndian.length_padded, LittleEndian.length_padded]
  have hlast := blockValues_append (m := []) hlens
  rw [List.append_nil, blockValues_nil] at hlast
  unfold macData
  rw [List.append_assoc (aad ++ pad16 aad), blockValues_append_of_whole n _ hn,
    blockValues_append_of_whole m _ hm, hlast, List.append_assoc (blockValues (aad ++ pad16 aad))]

end Aead

end Rfc8439
end C64Https
