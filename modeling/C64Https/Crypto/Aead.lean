import Mathlib.Tactic

/-!
# Aead — the ChaCha20-Poly1305 envelope (`src/crypto/aead.s`)

The block function of ChaCha20 and the Poly1305 of a string of blocks are parameters
(`Primitives`); the stream cipher over the block function, the padding, the lengths block, the
comparison of the tags and the order of the two passes are those of the program.

`aead_decrypt` compares the tags before it touches the text, so a rejected record is left as it
came; an accepted one is xored with the keystream that sealed it (`aeadDecrypt_aeadEncrypt`).
-/

namespace C64Https
namespace Crypto

/-- What lies below the envelope. -/
structure Primitives where
  /-- `chacha20_init` and `chacha20_block`, on key, nonce and counter -/
  chacha20Block : List UInt8 → List UInt8 → Nat → List UInt8
  /-- `poly1305_init`, `poly1305_block` and `poly1305_final`, on `poly_r`, `poly_s` and the blocks -/
  poly1305 : List UInt8 → List UInt8 → List (List UInt8) → List UInt8
  length_block : ∀ key nonce counter, (chacha20Block key nonce counter).length = 64
  length_tag : ∀ r s blocks, (poly1305 r s blocks).length = 16

def xorBytes (as bs : List UInt8) : List UInt8 :=
  List.zipWith (· ^^^ ·) as bs

/-! ## The stream cipher -/

/-- `chacha20_encrypt`: a block of keystream for every 64 bytes, the last one cut short. -/
def chacha20Blocks (P : Primitives) (key nonce : List UInt8) : Nat → Nat → List UInt8 → List UInt8
  | 0, _, _ => []
  | n + 1, counter, data =>
      if data = [] then []
      else
        xorBytes (data.take 64) (P.chacha20Block key nonce counter) ++
          chacha20Blocks P key nonce n ((counter + 1) % 4294967296) (data.drop 64)

def chacha20Encrypt (P : Primitives) (key nonce : List UInt8) (counter : Nat)
    (data : List UInt8) : List UInt8 :=
  chacha20Blocks P key nonce data.length counter data

/-! ## The tag -/

/-- `aead_process_padded`: blocks of 16, the last one filled with zeros. -/
def aeadProcessPadded : Nat → List UInt8 → List (List UInt8)
  | 0, _ => []
  | n + 1, data =>
      if data = [] then []
      else if data.length < 16 then [data ++ List.replicate (16 - data.length) 0]
      else data.take 16 :: aeadProcessPadded n (data.drop 16)

/-- The lengths block: the length of the AAD in one byte, that of the text in two. -/
def lengthsBlock (aadLen dataLen : Nat) : List UInt8 :=
  [UInt8.ofNat aadLen, 0, 0, 0, 0, 0, 0, 0,
    UInt8.ofNat dataLen, UInt8.ofNat (dataLen / 256), 0, 0, 0, 0, 0, 0]

/-- `aead_compute_tag`, on `poly_r` and `poly_s`. -/
def aeadComputeTag (P : Primitives) (otk : List UInt8 × List UInt8) (aad data : List UInt8) :
    List UInt8 :=
  P.poly1305 otk.1 otk.2
    (aeadProcessPadded aad.length aad ++ aeadProcessPadded data.length data ++
      [lengthsBlock aad.length data.length])

/-- `aead_derive_otk`: the first half of the block for counter zero, as `poly_r` and `poly_s`. -/
def aeadDeriveOtk (P : Primitives) (key nonce : List UInt8) : List UInt8 × List UInt8 :=
  let keystream := P.chacha20Block key nonce 0
  (keystream.take 16, (keystream.drop 16).take 16)

/-- `aead_verify_tag`: the differences of all bytes, or-ed together. -/
def aeadVerifyTag (computed given : List UInt8) : UInt8 :=
  (xorBytes computed given).foldr (· ||| ·) 0

/-! ## The envelope -/

/-- `aead_encrypt`: the ciphertext and its tag. -/
def aeadEncrypt (P : Primitives) (key nonce aad plain : List UInt8) : List UInt8 × List UInt8 :=
  let otk := aeadDeriveOtk P key nonce
  let cipher := chacha20Encrypt P key nonce 1 plain
  (cipher, aeadComputeTag P otk aad cipher)

/-- `aead_decrypt`: the tag is compared first, and a mismatch leaves the text alone. -/
def aeadDecrypt (P : Primitives) (key nonce aad cipher tag : List UInt8) : Option (List UInt8) :=
  let otk := aeadDeriveOtk P key nonce
  if aeadVerifyTag (aeadComputeTag P otk aad cipher) tag ≠ 0 then none
  else some (chacha20Encrypt P key nonce 1 cipher)

/-! ## Xor -/

section Xor

@[simp] theorem length_xorBytes (as bs : List UInt8) :
    (xorBytes as bs).length = min as.length bs.length := by
  simp [xorBytes]

theorem xorBytes_append {as bs ks ls : List UInt8} (h : as.length = ks.length) :
    xorBytes (as ++ bs) (ks ++ ls) = xorBytes as ks ++ xorBytes bs ls :=
  List.zipWith_append h

/-- A keystream that is long enough is cut to the text. -/
theorem xorBytes_append_of_le {as ks : List UInt8} (ls : List UInt8) (h : as.length ≤ ks.length) :
    xorBytes as (ks ++ ls) = xorBytes as ks := by
  induction as generalizing ks with
  | nil => rfl
  | cons a as ih =>
      cases ks with
      | nil => simp at h
      | cons k ks =>
          have hle : as.length ≤ ks.length := by
            simpa using h
          show (a ^^^ k) :: xorBytes as (ks ++ ls) = (a ^^^ k) :: xorBytes as ks
          rw [ih hle]

theorem xorBytes_xorBytes {as ks : List UInt8} (h : as.length ≤ ks.length) :
    xorBytes (xorBytes as ks) ks = as := by
  induction as generalizing ks with
  | nil => rfl
  | cons a as ih =>
      cases ks with
      | nil => simp at h
      | cons k ks =>
          have hle : as.length ≤ ks.length := by
            simpa using h
          have hbyte : a ^^^ k ^^^ k = a := by
            rw [UInt8.xor_assoc, UInt8.xor_self, UInt8.xor_zero]
          show (a ^^^ k ^^^ k) :: xorBytes (xorBytes as ks) ks = a :: as
          rw [hbyte, ih hle]

end Xor

/-! ## What the pieces compute -/

variable {P : Primitives} {key nonce : List UInt8}

/-- The keystream of `n` blocks. -/
def keystream (P : Primitives) (key nonce : List UInt8) : Nat → Nat → List UInt8
  | 0, _ => []
  | n + 1, counter =>
      P.chacha20Block key nonce counter ++ keystream P key nonce n ((counter + 1) % 4294967296)

theorem length_keystream (n : Nat) :
    ∀ counter, (keystream P key nonce n counter).length = 64 * n := by
  induction n with
  | zero =>
      intro counter
      rfl
  | succ n ih =>
      intro counter
      unfold keystream
      rw [List.length_append, P.length_block, ih]
      omega

theorem chacha20Blocks_eq (n : Nat) :
    ∀ (counter : Nat) (data : List UInt8), data.length ≤ n →
      chacha20Blocks P key nonce n counter data = xorBytes data (keystream P key nonce n counter) := by
  induction n with
  | zero =>
      intro counter data h
      have hnil : data = [] := List.eq_nil_of_length_eq_zero (by omega)
      rw [hnil]
      rfl
  | succ n ih =>
      intro counter data h
      have hblock := P.length_block key nonce counter
      unfold chacha20Blocks keystream
      by_cases hnil : data = []
      · rw [if_pos hnil, hnil]
        rfl
      rw [if_neg hnil, ih _ _ (by rw [List.length_drop]; omega)]
      -- a whole block, or the last piece of the text
      by_cases hfull : 64 ≤ data.length
      · have htake : (data.take 64).length = (P.chacha20Block key nonce counter).length := by
          rw [hblock, List.length_take]
          omega
        rw [← xorBytes_append htake, List.take_append_drop]
      · have htake : data.take 64 = data := List.take_of_length_le (by omega)
        have hdrop : data.drop 64 = [] := List.drop_of_length_le (by omega)
        rw [htake, hdrop, xorBytes_append_of_le _ (by omega)]
        exact List.append_nil _

theorem chacha20Encrypt_eq (counter : Nat) (data : List UInt8) :
    chacha20Encrypt P key nonce counter data =
      xorBytes data (keystream P key nonce data.length counter) :=
  chacha20Blocks_eq _ _ _ (le_refl _)

@[simp] theorem length_chacha20Encrypt (counter : Nat) (data : List UInt8) :
    (chacha20Encrypt P key nonce counter data).length = data.length := by
  rw [chacha20Encrypt_eq, length_xorBytes, length_keystream]
  omega

theorem chacha20Encrypt_chacha20Encrypt (counter : Nat) (data : List UInt8) :
    chacha20Encrypt P key nonce counter (chacha20Encrypt P key nonce counter data) = data := by
  have hlen : (chacha20Encrypt P key nonce counter data).length = data.length :=
    length_chacha20Encrypt counter data
  rw [chacha20Encrypt_eq counter (chacha20Encrypt P key nonce counter data), hlen,
    chacha20Encrypt_eq counter data]
  refine xorBytes_xorBytes ?_
  rw [length_keystream]
  omega

@[simp] theorem length_aeadComputeTag (otk : List UInt8 × List UInt8) (aad data : List UInt8) :
    (aeadComputeTag P otk aad data).length = 16 :=
  P.length_tag _ _ _

/-- The comparison says zero exactly on equal tags. -/
theorem aeadVerifyTag_eq_zero {as bs : List UInt8} (h : as.length = bs.length) :
    aeadVerifyTag as bs = 0 ↔ as = bs := by
  induction as generalizing bs with
  | nil =>
      have hnil : bs = [] := List.eq_nil_of_length_eq_zero (by simpa using h.symm)
      rw [hnil]
      exact ⟨fun _ => rfl, fun _ => rfl⟩
  | cons a as ih =>
      cases bs with
      | nil => simp at h
      | cons b bs =>
          have hlen : as.length = bs.length := by
            simpa using h
          have hstep : aeadVerifyTag (a :: as) (b :: bs) = (a ^^^ b) ||| aeadVerifyTag as bs := rfl
          rw [hstep, UInt8.or_eq_zero_iff, UInt8.xor_eq_zero_iff, ih hlen, List.cons.injEq]

/-! ## The envelope opens what it seals -/

/-- When `aead_decrypt` succeeds, and with what. -/
theorem aeadDecrypt_eq_some {aad cipher tag plain : List UInt8} (htag : tag.length = 16) :
    aeadDecrypt P key nonce aad cipher tag = some plain ↔
      aeadComputeTag P (aeadDeriveOtk P key nonce) aad cipher = tag ∧
        chacha20Encrypt P key nonce 1 cipher = plain := by
  have hverify : aeadVerifyTag (aeadComputeTag P (aeadDeriveOtk P key nonce) aad cipher) tag = 0 ↔
      aeadComputeTag P (aeadDeriveOtk P key nonce) aad cipher = tag :=
    aeadVerifyTag_eq_zero (by simp [htag])
  unfold aeadDecrypt
  dsimp only
  rw [← hverify]
  split
  · rename_i hne
    exact ⟨fun h => (by cases h), fun h => absurd h.1 hne⟩
  · rename_i heq
    rw [Option.some.injEq]
    exact ⟨fun h => ⟨not_not.1 heq, h⟩, fun h => h.2⟩

theorem aeadDecrypt_eq_none {aad cipher tag : List UInt8} (htag : tag.length = 16) :
    aeadDecrypt P key nonce aad cipher tag = none ↔
      aeadComputeTag P (aeadDeriveOtk P key nonce) aad cipher ≠ tag := by
  rw [Option.eq_none_iff_forall_ne_some]
  constructor
  · intro h heq
    exact h _ ((aeadDecrypt_eq_some htag).2 ⟨heq, rfl⟩)
  · intro h plain hsome
    exact h ((aeadDecrypt_eq_some htag).1 hsome).1

theorem aeadDecrypt_aeadEncrypt (aad plain : List UInt8) :
    aeadDecrypt P key nonce aad (aeadEncrypt P key nonce aad plain).1
      (aeadEncrypt P key nonce aad plain).2 = some plain :=
  (aeadDecrypt_eq_some (length_aeadComputeTag _ _ _)).2
    ⟨rfl, chacha20Encrypt_chacha20Encrypt 1 plain⟩

/-- A keystream and a tag that depend on their inputs, to compute with. -/
def Primitives.sample : Primitives where
  chacha20Block := fun key nonce counter =>
    List.replicate 64 (key.headD 0 + nonce.foldr (· + ·) 0 + UInt8.ofNat counter)
  poly1305 := fun r s blocks =>
    List.replicate 16 (r.headD 0 + s.headD 0 + blocks.flatten.foldr (· + ·) 0)
  length_block := fun _ _ _ => List.length_replicate
  length_tag := fun _ _ _ => List.length_replicate

end Crypto
end C64Https
