import C64Https.Crypto.Aead
import C64Https.Crypto.ChaCha20
import C64Https.Crypto.Poly1305

/-!
# AeadRam — the envelope over its memory (`src/crypto/aead.s`)

`Aead` has the envelope over strings, with the cipher and the authenticator as parameters.  Here the
routines run on their buffers, over the modelled `chacha20.s` and `poly1305.s`: the text is encrypted
where it lies, the authenticator is fed from memory, and the last block of each part goes through the
scratch buffer.

`aead_encrypt` leaves the ciphertext and the tag of RFC 8439, `aead_decrypt` the plaintext or, on a tag
that is not the text's, a memory in which nothing has changed; what was sealed is opened to the memory it
was sealed from (`aead_rfc8439`).  So the envelope over strings, with the functions of the RFC for its
parameters, is what the routines compute (`aeadEncrypt_strings`).
-/

namespace C64Https
namespace Crypto
namespace AeadRam

open Bytes Word Word32 LittleEndian ChaCha20 Poly1305

/-! ## State -/

structure Aead where
  /-- the state of `chacha20.s`, with the memory that text and additional data lie in -/
  cc : ChaCha
  poly : Poly
  key : Buffer
  nonce : Buffer
  aadPtr : Nat
  aadLen : UInt8
  dataPtr : Nat
  dataLen : UInt8
  dataLenHi : UInt8
  /-- `aead_tag` -/
  tag : Buffer

/-! ## The routines -/

/-- `cc20_counter` is set, and `aead_setup_chacha` copies the key and the nonce. -/
def aeadSetupChacha (counter : UInt8) (a : Aead) : Aead :=
  { a with
    cc := { a.cc with
      counter := store a.cc.counter 0 [counter, 0, 0, 0]
      key := store a.cc.key 0 (bytesAt a.key 0 32)
      nonce := store a.cc.nonce 0 (bytesAt a.nonce 0 12) } }

/-- The first half of a block of keystream to `poly_r` and `poly_s`. -/
def takeOtk (a : Aead) : Aead :=
  { a with
    poly := poly1305Init { a.poly with
      r := store a.poly.r 0 (bytesAt a.cc.keystream 0 16)
      s := store a.poly.s 0 (bytesAt a.cc.keystream 16 16) } }

def aeadDeriveOtk (a : Aead) : Aead :=
  let a := aeadSetupChacha 0 a
  takeOtk { a with cc := ChaCha20.chacha20Block (chacha20Init a.cc) }

/-- `@partial`: the bytes that are left, and zeros. -/
def paddedBlock (mem : Buffer) (ptr n : Nat) : Block where
  bytes := store (fun _ => 0) 0 (textAt mem ptr n)
  high := true

/-- `aead_process_padded`, with `n` bytes in `cc20_remain` and `cc20_remain_hi`. -/
def aeadProcessPadded (mem : Buffer) (ptr n : Nat) (p : Poly) : Poly :=
  if n = 0 then p
  else if n < 16 then poly1305Block p (paddedBlock mem ptr n)
  else
    aeadProcessPadded mem (add16 ptr 16) (n - 16) (poly1305Block p ⟨fun y => mem (add16 ptr y), true⟩)
termination_by n

/-- The lengths: one byte of the additional data's, two of the text's. -/
def lengthsBlock (a : Aead) : Block where
  bytes := store (store (fun _ => 0) 0 [a.aadLen]) 8 [a.dataLen, a.dataLenHi]
  high := true

/-- The two parts; one that is empty is skipped. -/
def aeadParts (a : Aead) : Poly :=
  let p := if a.aadLen = 0 then a.poly
    else aeadProcessPadded a.cc.mem a.aadPtr a.aadLen.toNat a.poly
  if a.dataLen ||| a.dataLenHi = 0 then p
  else aeadProcessPadded a.cc.mem a.dataPtr (word a.dataLenHi a.dataLen) p

def aeadComputeTag (a : Aead) : Aead :=
  { a with poly := poly1305Final (poly1305Block (aeadParts a) (lengthsBlock a)) }

/-- `aead_verify_tag`. -/
def aeadVerifyTag (a : Aead) : UInt8 :=
  Crypto.aeadVerifyTag (bytesAt a.poly.tag 0 16) (bytesAt a.tag 0 16)

/-- The text from counter one on, in place. -/
def cryptText (a : Aead) : Option Aead :=
  let a := aeadSetupChacha 1 a
  let cc := { chacha20Init a.cc with
    dataPtr := a.dataPtr
    remain := a.dataLen
    remainHi := a.dataLenHi }
  (ChaCha20.chacha20Encrypt cc).map fun cc => { a with cc := cc }

def aeadEncrypt (a : Aead) : Option Aead :=
  (cryptText (aeadDeriveOtk a)).map aeadComputeTag

/-- `aead_decrypt`, with what it returns in A. -/
def aeadDecrypt (a : Aead) : Option (Aead × UInt8) :=
  let a := aeadComputeTag (aeadDeriveOtk a)
  if aeadVerifyTag a ≠ 0 then some (a, 0xff) else (cryptText a).map fun a => (a, 0)

/-! ## The inputs -/

section Inputs

def Aead.keyBytes (a : Aead) : List UInt8 :=
  bytesAt a.key 0 32

def Aead.nonceBytes (a : Aead) : List UInt8 :=
  bytesAt a.nonce 0 12

def Aead.aad (a : Aead) : List UInt8 :=
  textAt a.cc.mem a.aadPtr a.aadLen.toNat

def Aead.len (a : Aead) : Nat :=
  word a.dataLenHi a.dataLen

def Aead.text (a : Aead) : List UInt8 :=
  textAt a.cc.mem a.dataPtr a.len

/-- The additional data is not among the text. -/
def Aead.Apart (a : Aead) : Prop :=
  ∀ i < a.aadLen.toNat, ∀ j < a.len, add16 a.aadPtr i ≠ add16 a.dataPtr j

/-- The inputs of two states are the same, memory apart. -/
structure SameInputs (a b : Aead) : Prop where
  key : b.key = a.key
  nonce : b.nonce = a.nonce
  aadPtr : b.aadPtr = a.aadPtr
  aadLen : b.aadLen = a.aadLen
  dataPtr : b.dataPtr = a.dataPtr
  dataLen : b.dataLen = a.dataLen
  dataLenHi : b.dataLenHi = a.dataLenHi
  tag : b.tag = a.tag

theorem SameInputs.trans {a b c : Aead} (h : SameInputs a b) (h' : SameInputs b c) :
    SameInputs a c :=
  ⟨h'.key.trans h.key, h'.nonce.trans h.nonce, h'.aadPtr.trans h.aadPtr, h'.aadLen.trans h.aadLen,
    h'.dataPtr.trans h.dataPtr, h'.dataLen.trans h.dataLen, h'.dataLenHi.trans h.dataLenHi,
    h'.tag.trans h.tag⟩

theorem SameInputs.keyBytes {a b : Aead} (h : SameInputs a b) : b.keyBytes = a.keyBytes := by
  unfold Aead.keyBytes
  rw [h.key]

theorem SameInputs.nonceBytes {a b : Aead} (h : SameInputs a b) : b.nonceBytes = a.nonceBytes := by
  unfold Aead.nonceBytes
  rw [h.nonce]

theorem SameInputs.len {a b : Aead} (h : SameInputs a b) : b.len = a.len := by
  unfold Aead.len
  rw [h.dataLen, h.dataLenHi]

end Inputs

/-! ## The one-time key -/

section Otk

variable {a : Aead}

theorem word_counter (m : Buffer) (n : UInt8) :
    (loadLE (store m 0 [n, 0, 0, 0]) 0).word = BitVec.ofNat 32 n.toNat := by
  refine BitVec.eq_of_toNat_eq ?_
  have hload : loadLE (store m 0 [n, 0, 0, 0]) 0 = ⟨n, 0, 0, 0⟩ := rfl
  have hlt := n.toNat_lt
  have hzero : (0 : UInt8).toNat = 0 := rfl
  rw [hload, Quad.toNat_word, BitVec.toNat_ofNat, Nat.mod_eq_of_lt (by omega)]
  dsimp only
  rw [hzero]
  omega

/-- The state of the cipher when it has been set up. -/
theorem words_setup (counter : UInt8) (a : Aead) :
    words (chacha20Init (aeadSetupChacha counter a).cc).state =
      Rfc8439.initial a.keyBytes (BitVec.ofNat 32 counter.toNat) a.nonceBytes := by
  rw [words_chacha20Init]
  unfold aeadSetupChacha Aead.keyBytes Aead.nonceBytes
  dsimp only
  rw [bytesAt_store_of_length _ _ (length_bytesAt _ _ _),
    bytesAt_store_of_length _ _ (length_bytesAt _ _ _), word_counter]

/-- Only the state is written. -/
theorem chacha20Init_eq (c : ChaCha) : ∃ s, chacha20Init c = { c with state := s } := by
  unfold chacha20Init
  exact ⟨_, rfl⟩

/-- The one-time key is in place, and memory is as it was. -/
theorem aeadDeriveOtk_spec (a : Aead) :
    ∃ p, (aeadDeriveOtk a).poly = poly1305Init p ∧
      bytesAt p.r 0 16 ++ bytesAt p.s 0 16 = Rfc8439.poly1305KeyGen a.keyBytes a.nonceBytes ∧
      SameInputs a (aeadDeriveOtk a) ∧ (aeadDeriveOtk a).cc.mem = a.cc.mem := by
  have hwords := words_setup 0 a
  obtain ⟨s, hs⟩ := chacha20Init_eq (aeadSetupChacha 0 a).cc
  have hstream := chacha20Block_keystream hwords
  refine ⟨_, rfl, ?_, ⟨rfl, rfl, rfl, rfl, rfl, rfl, rfl, rfl⟩, ?_⟩
  · dsimp only
    rw [bytesAt_store_of_length _ _ (length_bytesAt _ _ _),
      bytesAt_store_of_length _ _ (length_bytesAt _ _ _)]
    have hhalf := take_bytesAt (ChaCha20.chacha20Block (chacha20Init (aeadSetupChacha 0 a).cc)).keystream
      0 (show 32 ≤ 64 by decide)
    have hsplit := bytesAt_add
      (ChaCha20.chacha20Block (chacha20Init (aeadSetupChacha 0 a).cc)).keystream 0 16 16
    unfold Rfc8439.poly1305KeyGen
    rw [hstream] at hhalf
    have hzero : BitVec.ofNat 32 (0 : UInt8).toNat = 0 := rfl
    rw [hzero] at hhalf
    rw [hhalf]
    exact hsplit.symm
  · show (chacha20Init (aeadSetupChacha 0 a).cc).mem = a.cc.mem
    rw [hs]
    rfl

end Otk

/-! ## The tag -/

section ComputeTag

variable {p : Poly} {r : Nat}

theorem textAt_eq (mem : Buffer) (ptr n : Nat) :
    textAt mem ptr n = bytesAt (fun y => mem (add16 ptr y)) 0 n := by
  unfold textAt bytesAt
  simp only [Nat.zero_add]

/-- The first sixteen bytes and the rest. -/
theorem textAt_sixteen (mem : Buffer) (ptr : Nat) {n : Nat} (h : 16 ≤ n) :
    textAt mem ptr n = textAt mem ptr 16 ++ textAt mem (add16 ptr 16) (n - 16) := by
  have hplace : n = 16 + (n - 16) := by omega
  have hrest : bytesAt (fun y => mem (add16 ptr y)) (0 + 16) (n - 16) =
      bytesAt (fun y => mem (add16 (add16 ptr 16) y)) 0 (n - 16) := by
    refine bytesAt_congr fun i _ => congrArg mem ?_
    rw [add16_add16, Nat.zero_add, Nat.zero_add]
  rw [textAt_eq, textAt_eq, textAt_eq, ← hrest, ← bytesAt_add, ← hplace]

/-- A block of sixteen bytes with a one behind them. -/
theorem value_high {m : Buffer} {bs : List UInt8} (h : num m 0 16 = value bs) (hlen : bs.length = 16) :
    Block.value ⟨m, true⟩ = value (bs ++ [1]) := by
  unfold Block.value
  dsimp only
  rw [h, value_append, hlen, value_singleton, Bool.toNat_true]
  rfl

theorem holds_padded (mem : Buffer) (ptr n : Nat) {values : List Nat} (h : Holds r values p) :
    Holds r (values ++ Rfc8439.blockValues (textAt mem ptr n ++ Rfc8439.pad16 (textAt mem ptr n)))
        (aeadProcessPadded mem ptr n p) ∧ (aeadProcessPadded mem ptr n p).s = p.s := by
  induction ptr, n, p using aeadProcessPadded.induct mem generalizing values with
  | case1 ptr p =>
      have hnil : textAt mem ptr 0 ++ Rfc8439.pad16 (textAt mem ptr 0) = [] := by
        simp [textAt, Rfc8439.pad16]
      rw [aeadProcessPadded, if_pos rfl, hnil, Rfc8439.blockValues_nil, List.append_nil]
      exact ⟨h, rfl⟩
  | case2 ptr n p hne hlt =>
      rw [aeadProcessPadded, if_neg hne, if_pos hlt]
      refine ⟨?_, rfl⟩
      -- the zeros of the scratch are the padding
      have hlen : (textAt mem ptr n ++ Rfc8439.pad16 (textAt mem ptr n)).length = 16 := by
        unfold Rfc8439.pad16
        rw [List.length_append, List.length_replicate, length_textAt]
        omega
      have hnum : num (store (fun _ => 0) 0 (textAt mem ptr n)) 0 16 =
          value (textAt mem ptr n ++ Rfc8439.pad16 (textAt mem ptr n)) := by
        rw [num_store_zeros _ (by rw [length_textAt]; omega), value_append]
        unfold Rfc8439.pad16
        rw [value_zeros, Nat.mul_zero, Nat.add_zero]
      have hone := Rfc8439.blockValues_append (m := []) hlen
      rw [List.append_nil, Rfc8439.blockValues_nil, ← value_high hnum hlen] at hone
      rw [hone]
      exact h.block (paddedBlock mem ptr n)
  | case3 ptr n p hne hge ih =>
      rw [aeadProcessPadded, if_neg hne, if_neg hge]
      obtain ⟨hall, hs⟩ := ih (h.block ⟨fun y => mem (add16 ptr y), true⟩)
      refine ⟨?_, hs⟩
      have hpad : Rfc8439.pad16 (textAt mem ptr n) =
          Rfc8439.pad16 (textAt mem (add16 ptr 16) (n - 16)) := by
        unfold Rfc8439.pad16
        rw [length_textAt, length_textAt]
        congr 1
        omega
      have hnum : num (fun y => mem (add16 ptr y)) 0 16 = value (textAt mem ptr 16) := by
        rw [textAt_eq]
        rfl
      rw [hpad, textAt_sixteen mem ptr (Nat.le_of_not_lt hge), List.append_assoc,
        Rfc8439.blockValues_append (length_textAt mem ptr 16), ← value_high hnum (length_textAt _ _ _)]
      rw [List.append_assoc] at hall
      exact hall

/-- A part that is empty is left out, which makes no difference. -/
theorem holds_part (mem : Buffer) (ptr n : Nat) {c : Prop} [Decidable c] (hc : c ↔ n = 0)
    {values : List Nat} (h : Holds r values p) :
    Holds r (values ++ Rfc8439.blockValues (textAt mem ptr n ++ Rfc8439.pad16 (textAt mem ptr n)))
        (if c then p else aeadProcessPadded mem ptr n p) ∧
      (if c then p else aeadProcessPadded mem ptr n p).s = p.s := by
  have hsame : (if c then p else aeadProcessPadded mem ptr n p) = aeadProcessPadded mem ptr n p := by
    split
    · rename_i hempty
      rw [hc.1 hempty, aeadProcessPadded, if_pos rfl]
    · rfl
  rw [hsame]
  exact holds_padded mem ptr n h

theorem bytesAt_lengths (x y z : UInt8) :
    bytesAt (store (store (fun _ => 0) 0 [x]) 8 [y, z]) 0 16 =
      [x, 0, 0, 0, 0, 0, 0, 0] ++ [y, z, 0, 0, 0, 0, 0, 0] :=
  rfl

/-- The lengths block is the lengths in eight bytes each. -/
theorem value_lengthsBlock (a : Aead) :
    (lengthsBlock a).value =
      value (padded 8 a.aad.length ++ padded 8 a.text.length ++ [1]) := by
  have haad : [a.aadLen, 0, 0, 0, 0, 0, 0, 0] = padded 8 a.aad.length := by
    have hlt := a.aadLen.toNat_lt
    have hval : value ([a.aadLen] ++ List.replicate 7 0) = a.aad.length % 256 ^ 8 := by
      unfold Aead.aad
      rw [value_append, value_zeros, value_singleton, length_textAt, Nat.mod_eq_of_lt (by omega)]
      rfl
    exact eq_padded rfl hval
  have htext : [a.dataLen, a.dataLenHi, 0, 0, 0, 0, 0, 0] = padded 8 a.text.length := by
    have hlt := a.dataLen.toNat_lt
    have hlt' := a.dataLenHi.toNat_lt
    have hval : value ([a.dataLen, a.dataLenHi] ++ List.replicate 6 0) = a.text.length % 256 ^ 8 := by
      unfold Aead.text Aead.len word
      rw [value_append, value_zeros, value_cons, value_singleton, length_textAt,
        Nat.mod_eq_of_lt (by omega)]
      omega
    exact eq_padded rfl hval
  rw [← haad, ← htext, ← bytesAt_lengths]
  exact value_high rfl (length_bytesAt _ _ _)

theorem holds_aeadParts {a : Aead} (h : Holds r [] a.poly) :
    Holds r (Rfc8439.blockValues (a.aad ++ Rfc8439.pad16 a.aad) ++
        Rfc8439.blockValues (a.text ++ Rfc8439.pad16 a.text)) (aeadParts a) ∧
      (aeadParts a).s = a.poly.s := by
  have hzero : (0 : UInt8).toNat = 0 := rfl
  have hnoaad : a.aadLen = 0 ↔ a.aadLen.toNat = 0 :=
    ⟨fun h => by rw [h]; rfl, fun h => UInt8.toNat.inj h⟩
  have hnotext : a.dataLen ||| a.dataLenHi = 0 ↔ word a.dataLenHi a.dataLen = 0 := by
    have h₁ := UInt8.toNat.inj (a := a.dataLen) (b := 0)
    have h₂ := UInt8.toNat.inj (a := a.dataLenHi) (b := 0)
    unfold word
    rw [UInt8.or_eq_zero_iff]
    constructor
    · rintro ⟨h, h'⟩
      rw [h, h']
      rfl
    · intro h
      exact ⟨h₁ (by omega), h₂ (by omega)⟩
  obtain ⟨haad, hs₁⟩ := holds_part a.cc.mem a.aadPtr a.aadLen.toNat hnoaad h
  obtain ⟨htext, hs₂⟩ := holds_part a.cc.mem a.dataPtr (word a.dataLenHi a.dataLen) hnotext haad
  exact ⟨htext, hs₂.trans hs₁⟩

/-- After the one-time key the tag is that of the RFC. -/
theorem tag_aeadComputeTag {a : Aead} {q : Poly} {otk : List UInt8} (hpoly : a.poly = poly1305Init q)
    (hotk : bytesAt q.r 0 16 ++ bytesAt q.s 0 16 = otk) :
    bytesAt (aeadComputeTag a).poly.tag 0 16 =
      Rfc8439.poly1305Mac otk (Rfc8439.macData a.aad a.text) := by
  have hstart := holds_poly1305Init q
  rw [← hpoly] at hstart
  have hs : a.poly.s = q.s := by
    rw [hpoly]
    rfl
  have hr : (bytesAt q.r 0 16 ++ bytesAt q.s 0 16).take 16 = bytesAt q.r 0 16 :=
    List.take_left' (length_bytesAt _ _ _)
  have htake : ((bytesAt q.r 0 16 ++ bytesAt q.s 0 16).drop 16).take 16 = bytesAt q.s 0 16 := by
    rw [List.drop_left' (length_bytesAt _ _ _), List.take_of_length_le (length_bytesAt _ _ _).le]
  obtain ⟨hparts, hkept⟩ := holds_aeadParts hstart
  have hall := hparts.block (lengthsBlock a)
  have hlast := (poly1305Block_kept (aeadParts a) (lengthsBlock a)).2.1
  have hsum := hall.sum
  unfold Nat.ModEq at hsum
  rw [value_lengthsBlock, ← Rfc8439.blockValues_macData] at hsum
  have htag := tag_poly1305Final hall.bound
  rw [hsum, hlast, hkept, hs] at htag
  rw [← hotk, Rfc8439.poly1305Mac, hr, htake, Rfc8439.accumulate_eq]
  exact htag

end ComputeTag

/-! ## The text -/

section CryptText

/-- What the stream makes of the text is what the RFC makes of it. -/
theorem textAt_of_streamed {key nonce : List UInt8} {counter : BitVec 32} {c c' : ChaCha}
    (h : Streamed key counter nonce c c') :
    textAt c'.mem c.dataPtr (left c) =
      Rfc8439.chacha20Encrypt key counter nonce (textAt c.mem c.dataPtr (left c)) := by
  refine List.ext_getElem ?_ fun i h₁ h₂ => ?_
  · rw [Rfc8439.length_chacha20Encrypt, length_textAt, length_textAt]
  · have hi : i < left c := by
      rwa [length_textAt] at h₁
    have hbyte := h.text i hi
    have hblocks := Rfc8439.getD_blocks key nonce ((left c + 63) / 64) counter i (by omega)
    rw [← hblocks, List.getD_eq_getElem _ _ (by rw [Rfc8439.length_blocks]; omega)] at hbyte
    simp only [Rfc8439.chacha20Encrypt, textAt, List.getElem_zipWith, List.getElem_map,
      List.getElem_range, List.length_map, List.length_range]
    exact hbyte

/-- The text is encrypted in place, and nothing else in memory is written. -/
theorem cryptText_spec (a : Aead) :
    ∃ a', cryptText a = some a' ∧ SameInputs a a' ∧ a'.poly = a.poly ∧
      a'.text = Rfc8439.chacha20Encrypt a.keyBytes 1 a.nonceBytes a.text ∧
      ∀ p, (∀ i < a.len, p ≠ add16 a.dataPtr i) → a'.cc.mem p = a.cc.mem p := by
  obtain ⟨s, hs⟩ := chacha20Init_eq (aeadSetupChacha 1 a).cc
  have hwords := words_setup 1 a
  have hone : BitVec.ofNat 32 (1 : UInt8).toNat = 1 := rfl
  rw [hone, hs] at hwords
  -- the state that the stream starts from
  generalize hc : ({ chacha20Init (aeadSetupChacha 1 a).cc with
    dataPtr := a.dataPtr, remain := a.dataLen, remainHi := a.dataLenHi } : ChaCha) = c
  have hstate : words c.state = Rfc8439.initial a.keyBytes 1 a.nonceBytes := by
    rw [← hc, hs]
    exact hwords
  have hmem : c.mem = a.cc.mem := by
    rw [← hc, hs]
    rfl
  have hptr : c.dataPtr = a.dataPtr := by
    rw [← hc]
  have hleft : left c = a.len := by
    rw [← hc]
    rfl
  have hrun : ∃ c', ChaCha20.chacha20Encrypt c = some c' ∧
      Streamed a.keyBytes 1 a.nonceBytes c c' := by
    unfold ChaCha20.chacha20Encrypt
    by_cases hnone : left c = 0
    · rw [if_pos ((left_eq_zero_iff c).2 hnone)]
      exact ⟨c, rfl, fun i hi => absurd hi (by omega), fun _ _ => rfl⟩
    · rw [if_neg fun h0 => hnone ((left_eq_zero_iff c).1 h0)]
      have hlt : left c < 65536 := word_lt _ _
      exact loop_streamed 1024 hstate (Nat.pos_of_ne_zero hnone) (Nat.le_of_lt hlt)
  obtain ⟨c', hencrypt, hstreamed⟩ := hrun
  have htext := textAt_of_streamed hstreamed
  have hframe := hstreamed.frame
  rw [hptr, hleft, hmem] at htext hframe
  refine ⟨{ aeadSetupChacha 1 a with cc := c' }, ?_, ⟨rfl, rfl, rfl, rfl, rfl, rfl, rfl, rfl⟩, rfl,
    htext, hframe⟩
  have hcrypt : cryptText a = (ChaCha20.chacha20Encrypt c).map fun cc =>
      { aeadSetupChacha 1 a with cc := cc } := by
    rw [← hc]
    rfl
  rw [hcrypt, hencrypt, Option.map_some]

end CryptText

/-! ## The envelope -/

section Envelope

variable {a : Aead}

/-- The tag is computed over what lies in memory, and changes nothing there. -/
theorem sameInputs_aeadComputeTag (a : Aead) : SameInputs a (aeadComputeTag a) :=
  ⟨rfl, rfl, rfl, rfl, rfl, rfl, rfl, rfl⟩

/-- Additional data that is apart from the text is not encrypted with it. -/
theorem aad_of_frame {b : Aead} (hsame : SameInputs a b) (hapart : a.Apart)
    (hframe : ∀ p, (∀ i < a.len, p ≠ add16 a.dataPtr i) → b.cc.mem p = a.cc.mem p) :
    b.aad = a.aad := by
  unfold Aead.aad textAt
  rw [hsame.aadPtr, hsame.aadLen]
  refine List.map_congr_left fun i hi => hframe _ fun j hj => ?_
  exact hapart i (List.mem_range.1 hi) j hj

/-- What `aead_encrypt` leaves. -/
theorem aeadEncrypt_sealed (a : Aead) (hapart : a.Apart) :
    ∃ a', aeadEncrypt a = some a' ∧ SameInputs a a' ∧
      (a'.text, bytesAt a'.poly.tag 0 16) =
        Rfc8439.aeadEncrypt a.keyBytes a.nonceBytes a.aad a.text ∧
      ∀ p, (∀ i < a.len, p ≠ add16 a.dataPtr i) → a'.cc.mem p = a.cc.mem p := by
  obtain ⟨q, hpoly, hotk, hsame, hmem⟩ := aeadDeriveOtk_spec a
  obtain ⟨b, hcrypt, hsame', hkept, htext, hframe⟩ := cryptText_spec (aeadDeriveOtk a)
  have hall := hsame.trans hsame'
  have hbefore : (aeadDeriveOtk a).text = a.text := by
    unfold Aead.text
    rw [hsame.len, hsame.dataPtr, hmem]
  rw [hsame.keyBytes, hsame.nonceBytes, hbefore] at htext
  rw [hsame.len, hsame.dataPtr, hmem] at hframe
  have haad := aad_of_frame hall hapart hframe
  have htag := tag_aeadComputeTag (hkept.trans hpoly) hotk
  rw [haad, htext] at htag
  refine ⟨aeadComputeTag b, ?_, hall.trans (sameInputs_aeadComputeTag b), ?_, hframe⟩
  · unfold aeadEncrypt
    rw [hcrypt, Option.map_some]
  · have hsealed : (aeadComputeTag b).text = b.text := rfl
    unfold Rfc8439.aeadEncrypt Rfc8439.aeadTag
    rw [hsealed, htext, htag]

/-- What `aead_decrypt` leaves: the tag decides.  On the text's own tag the routine returns zero and leaves the
plaintext; on any other it returns `$ff`, and memory is as it was. -/
theorem aeadDecrypt_opened (a : Aead) :
    ∃ a' v, aeadDecrypt a = some (a', v) ∧ SameInputs a a' ∧
      (∀ plain, Rfc8439.aeadDecrypt a.keyBytes a.nonceBytes a.aad a.text (bytesAt a.tag 0 16) =
          some plain → v = 0 ∧ a'.text = plain ∧
            ∀ p, (∀ i < a.len, p ≠ add16 a.dataPtr i) → a'.cc.mem p = a.cc.mem p) ∧
      (Rfc8439.aeadDecrypt a.keyBytes a.nonceBytes a.aad a.text (bytesAt a.tag 0 16) = none →
        v = 0xff ∧ a'.cc.mem = a.cc.mem) := by
  obtain ⟨q, hpoly, hotk, hsame, hmem⟩ := aeadDeriveOtk_spec a
  have hin := hsame.trans (sameInputs_aeadComputeTag (aeadDeriveOtk a))
  have htext : (aeadDeriveOtk a).text = a.text := by
    unfold Aead.text
    rw [hsame.len, hsame.dataPtr, hmem]
  have haad : (aeadDeriveOtk a).aad = a.aad := by
    unfold Aead.aad
    rw [hsame.aadPtr, hsame.aadLen, hmem]
  have htag := tag_aeadComputeTag hpoly hotk
  rw [htext, haad] at htag
  have hverify : aeadVerifyTag (aeadComputeTag (aeadDeriveOtk a)) = 0 ↔
      Rfc8439.aeadTag a.keyBytes a.nonceBytes a.aad a.text = bytesAt a.tag 0 16 := by
    unfold aeadVerifyTag Rfc8439.aeadTag
    rw [aeadVerifyTag_eq_zero (by rw [length_bytesAt, length_bytesAt]), htag, hin.tag]
  unfold aeadDecrypt Rfc8439.aeadDecrypt
  dsimp only
  by_cases hgood : Rfc8439.aeadTag a.keyBytes a.nonceBytes a.aad a.text = bytesAt a.tag 0 16
  · obtain ⟨b, hcrypt, hsame', -, hplain, hframe⟩ := cryptText_spec (aeadComputeTag (aeadDeriveOtk a))
    have hbefore : (aeadComputeTag (aeadDeriveOtk a)).text = a.text := htext
    have hmem' : (aeadComputeTag (aeadDeriveOtk a)).cc.mem = a.cc.mem := hmem
    rw [hin.keyBytes, hin.nonceBytes, hbefore] at hplain
    rw [hin.len, hin.dataPtr, hmem'] at hframe
    rw [if_neg (not_not.2 (hverify.2 hgood)), if_pos hgood, hcrypt, Option.map_some]
    refine ⟨b, 0, rfl, hin.trans hsame', fun plain hsome => ?_, fun hnone => absurd hnone (Option.some_ne_none _)⟩
    rw [Option.some.injEq] at hsome
    exact ⟨rfl, hplain.trans hsome, hframe⟩
  · rw [if_pos fun hzero => hgood (hverify.1 hzero), if_neg hgood]
    exact ⟨_, 0xff, rfl, hin, fun plain hsome => absurd hsome.symm (Option.some_ne_none _),
      fun _ => ⟨rfl, hmem⟩⟩

/-- What was sealed, opened with its own tag, gives the memory it was sealed from. -/
theorem aeadDecrypt_sealed {a' : Aead} (hapart : a.Apart) (hsame : SameInputs a a')
    (hsealed : (a'.text, bytesAt a'.poly.tag 0 16) =
      Rfc8439.aeadEncrypt a.keyBytes a.nonceBytes a.aad a.text)
    (hframe : ∀ p, (∀ i < a.len, p ≠ add16 a.dataPtr i) → a'.cc.mem p = a.cc.mem p) :
    ∃ a'', aeadDecrypt { a' with tag := a'.poly.tag } = some (a'', 0) ∧ a''.cc.mem = a.cc.mem := by
  obtain ⟨a'', v, hopen, hsame', hgood, -⟩ := aeadDecrypt_opened { a' with tag := a'.poly.tag }
  have haad := aad_of_frame hsame hapart hframe
  have hcipher := congrArg Prod.fst hsealed
  have htag := congrArg Prod.snd hsealed
  dsimp only [Rfc8439.aeadEncrypt] at hcipher htag
  -- the inputs of the second run are those of the first, and its text is the ciphertext
  have hkey : Aead.keyBytes { a' with tag := a'.poly.tag } = a.keyBytes := hsame.keyBytes
  have hnonce : Aead.nonceBytes { a' with tag := a'.poly.tag } = a.nonceBytes := hsame.nonceBytes
  have haad' : Aead.aad { a' with tag := a'.poly.tag } = a.aad := haad
  have htext' : Aead.text { a' with tag := a'.poly.tag } = a'.text := rfl
  have hlen' : Aead.len { a' with tag := a'.poly.tag } = a.len := hsame.len
  have hopens : Rfc8439.aeadDecrypt a.keyBytes a.nonceBytes a.aad a'.text (bytesAt a'.poly.tag 0 16) =
      some a.text := by
    unfold Rfc8439.aeadDecrypt
    rw [hcipher, if_pos htag.symm, Rfc8439.chacha20Encrypt_chacha20Encrypt]
  have hout := hgood a.text
  rw [hkey, hnonce, haad', htext', hlen'] at hout
  obtain ⟨hzero, hplain, hframe'⟩ := hout hopens
  subst hzero
  refine ⟨a'', hopen, funext fun p => ?_⟩
  have hptr' : a''.dataPtr = a.dataPtr := hsame'.dataPtr.trans hsame.dataPtr
  have hlen'' : a''.len = a.len := hsame'.len.trans hlen'
  by_cases hin : ∃ i < a.len, p = add16 a.dataPtr i
  · rcases hin with ⟨i, hi, rfl⟩
    unfold Aead.text textAt at hplain
    rw [hptr', hlen'', List.map_inj_left] at hplain
    exact hplain i (List.mem_range.2 hi)
  · have hout : ∀ i < a.len, p ≠ add16 a.dataPtr i := fun i hi heq => hin ⟨i, hi, heq⟩
    rw [hframe' p fun i hi => ?_, hframe p hout]
    show p ≠ add16 a'.dataPtr i
    rw [hsame.dataPtr]
    exact hout i hi

/-- **The envelope is that of RFC 8439**, for every key, nonce, additional data and text, wherever they
lie.  Sealing leaves the ciphertext and its tag, and opening what was sealed restores memory; opening
leaves the plaintext when the tag is the text's, and otherwise fails with memory as it was. -/
theorem aead_rfc8439 (a : Aead) (hapart : a.Apart) :
    (∃ a', aeadEncrypt a = some a' ∧
      (a'.text, bytesAt a'.poly.tag 0 16) =
        Rfc8439.aeadEncrypt a.keyBytes a.nonceBytes a.aad a.text ∧
      (∀ p, (∀ i < a.len, p ≠ add16 a.dataPtr i) → a'.cc.mem p = a.cc.mem p) ∧
      ∃ a'', aeadDecrypt { a' with tag := a'.poly.tag } = some (a'', 0) ∧ a''.cc.mem = a.cc.mem) ∧
    ∃ a' v, aeadDecrypt a = some (a', v) ∧
      (∀ plain, Rfc8439.aeadDecrypt a.keyBytes a.nonceBytes a.aad a.text (bytesAt a.tag 0 16) =
          some plain → v = 0 ∧ a'.text = plain ∧
            ∀ p, (∀ i < a.len, p ≠ add16 a.dataPtr i) → a'.cc.mem p = a.cc.mem p) ∧
      (Rfc8439.aeadDecrypt a.keyBytes a.nonceBytes a.aad a.text (bytesAt a.tag 0 16) = none →
        v = 0xff ∧ a'.cc.mem = a.cc.mem) := by
  obtain ⟨a', hseal, hsame, hsealed, hframe⟩ := aeadEncrypt_sealed a hapart
  obtain ⟨b, v, hopen, -, hgood, hbad⟩ := aeadDecrypt_opened a
  exact ⟨⟨a', hseal, hsealed, hframe, aeadDecrypt_sealed hapart hsame hsealed hframe⟩,
    b, v, hopen, hgood, hbad⟩

end Envelope

/-- A record of three bytes with a header of five. -/
def shortRecord : Aead where
  cc := {
    key := fun _ => 0, nonce := fun _ => 0, counter := fun _ => 0, state := fun _ => 0,
    work := fun _ => 0, keystream := fun _ => 0, dataPtr := 0, remain := 0, remainHi := 0, bufPos := 0,
    mem := fun _ => 0x41 }
  poly := {
    r := fun _ => 0, s := fun _ => 0, h := fun _ => 0, product := fun _ => 0, tag := fun _ => 0,
    sqtabLo := fun _ => 0, sqtabHi := fun _ => 0 }
  key := fun i => UInt8.ofNat i
  nonce := fun _ => 7
  aadPtr := 0
  aadLen := 5
  dataPtr := 256
  dataLen := 3
  dataLenHi := 0
  tag := fun _ => 0

theorem shortRecord_apart : shortRecord.Apart := by
  intro i hi j hj
  have hi' : i < 5 := hi
  have hj' : j < 3 := hj
  show add16 0 i ≠ add16 256 j
  rw [add16_of_lt (by omega), add16_of_lt (by omega)]
  omega

theorem aead_rfc8439_short :
    (∃ a', aeadEncrypt shortRecord = some a' ∧
      (a'.text, bytesAt a'.poly.tag 0 16) =
        Rfc8439.aeadEncrypt shortRecord.keyBytes shortRecord.nonceBytes shortRecord.aad
          shortRecord.text ∧
      (∀ p, (∀ i < shortRecord.len, p ≠ add16 shortRecord.dataPtr i) →
        a'.cc.mem p = shortRecord.cc.mem p) ∧
      ∃ a'', aeadDecrypt { a' with tag := a'.poly.tag } = some (a'', 0) ∧
        a''.cc.mem = shortRecord.cc.mem) :=
  (aead_rfc8439 shortRecord shortRecord_apart).1

/-! ## The parameters of `Aead` -/

section Strings

/-- The cipher and the authenticator of the RFC, for the envelope over strings. -/
def rfcPrimitives : Primitives where
  chacha20Block := fun key nonce counter => Rfc8439.chacha20Block key (BitVec.ofNat 32 counter) nonce
  poly1305 := fun r s blocks => padded 16
    (Rfc8439.accumulate (Rfc8439.clamp (value r)) (blocks.map fun b => value (b ++ [1])) + value s)
  length_block := fun _ _ _ => Rfc8439.length_chacha20Block _ _ _
  length_tag := fun _ _ _ => length_padded _ _

variable (key nonce : List UInt8)

theorem keystream_rfc (n : Nat) : ∀ counter,
    keystream rfcPrimitives key nonce n counter =
      Rfc8439.blocks key (BitVec.ofNat 32 counter) nonce n := by
  induction n with
  | zero =>
      intro counter
      rfl
  | succ n ih =>
      intro counter
      have hnext : BitVec.ofNat 32 ((counter + 1) % 4294967296) = BitVec.ofNat 32 counter + 1 := by
        refine BitVec.eq_of_toNat_eq ?_
        have hone : (1 : BitVec 32).toNat = 1 := rfl
        rw [BitVec.toNat_ofNat, BitVec.toNat_add, BitVec.toNat_ofNat, hone]
        omega
      unfold keystream
      rw [ih, hnext, Rfc8439.blocks_succ]
      rfl

theorem chacha20Encrypt_rfc (counter : Nat) (data : List UInt8) :
    Crypto.chacha20Encrypt rfcPrimitives key nonce counter data =
      Rfc8439.chacha20Encrypt key (BitVec.ofNat 32 counter) nonce data := by
  rw [chacha20Encrypt_eq, keystream_rfc]
  unfold xorBytes Rfc8439.chacha20Encrypt
  -- more blocks than the text needs make no difference
  refine List.ext_getElem ?_ fun i h₁ h₂ => ?_
  · rw [List.length_zipWith, List.length_zipWith, Rfc8439.length_blocks, Rfc8439.length_blocks]
    omega
  · rw [List.length_zipWith, Rfc8439.length_blocks] at h₁ h₂
    rw [List.getElem_zipWith, List.getElem_zipWith]
    have hmany := Rfc8439.getD_blocks key nonce data.length (BitVec.ofNat 32 counter) i (by omega)
    have hfew := Rfc8439.getD_blocks key nonce ((data.length + 63) / 64) (BitVec.ofNat 32 counter) i
      (by omega)
    rw [List.getD_eq_getElem _ _ (by rw [Rfc8439.length_blocks]; omega)] at hmany hfew
    rw [hmany, hfew]

/-- The blocks of a padded string, by their values. -/
theorem values_aeadProcessPadded (n : Nat) : ∀ data : List UInt8, data.length ≤ n →
    (Crypto.aeadProcessPadded n data).map (fun b => value (b ++ [1])) =
      Rfc8439.blockValues (data ++ Rfc8439.pad16 data) := by
  induction n with
  | zero =>
      intro data h
      have hnil : data = [] := List.eq_nil_of_length_eq_zero (by omega)
      have hpad : ([] : List UInt8) ++ Rfc8439.pad16 [] = [] := by
        simp [Rfc8439.pad16]
      rw [hnil, hpad, Rfc8439.blockValues_nil]
      rfl
  | succ n ih =>
      intro data h
      unfold Crypto.aeadProcessPadded
      by_cases hnil : data = []
      · have hpad : ([] : List UInt8) ++ Rfc8439.pad16 [] = [] := by
          simp [Rfc8439.pad16]
        rw [if_pos hnil, hnil, hpad, Rfc8439.blockValues_nil]
        rfl
      rw [if_neg hnil]
      have hpos := List.length_pos_iff.2 hnil
      by_cases hshort : data.length < 16
      · have hfill : List.replicate (16 - data.length) (0 : UInt8) = Rfc8439.pad16 data := by
          unfold Rfc8439.pad16
          congr 1
          omega
        have hlen : (data ++ Rfc8439.pad16 data).length = 16 := by
          rw [← hfill, List.length_append, List.length_replicate]
          omega
        have hone := Rfc8439.blockValues_append (m := []) hlen
        rw [List.append_nil, Rfc8439.blockValues_nil] at hone
        rw [if_pos hshort, hfill, hone]
        rfl
      · have hfirst : (data.take 16).length = 16 := by
          rw [List.length_take]
          omega
        have hpad : Rfc8439.pad16 (data.drop 16) = Rfc8439.pad16 data := by
          unfold Rfc8439.pad16
          rw [List.length_drop]
          congr 1
          omega
        have hsplit : data ++ Rfc8439.pad16 data =
            data.take 16 ++ (data.drop 16 ++ Rfc8439.pad16 (data.drop 16)) := by
          rw [hpad, ← List.append_assoc, List.take_append_drop]
        rw [if_neg hshort, List.map_cons, ih _ (by rw [List.length_drop]; omega), hsplit,
          Rfc8439.blockValues_append hfirst]

/-- The lengths block of the envelope over strings. -/
theorem lengthsBlock_rfc {aad data : List UInt8} (haad : aad.length < 256)
    (hdata : data.length < 65536) :
    Crypto.lengthsBlock aad.length data.length = padded 8 aad.length ++ padded 8 data.length := by
  have hbyte : (UInt8.ofNat aad.length).toNat = aad.length % 256 := UInt8.toNat_ofNat'
  have hlo : (UInt8.ofNat data.length).toNat = data.length % 256 := UInt8.toNat_ofNat'
  have hhi : (UInt8.ofNat (data.length / 256)).toNat = data.length / 256 % 256 := UInt8.toNat_ofNat'
  have hfirst : [UInt8.ofNat aad.length] ++ List.replicate 7 0 = padded 8 aad.length := by
    refine eq_padded rfl ?_
    rw [value_append, value_zeros, value_singleton, hbyte]
    omega
  have hsecond : [UInt8.ofNat data.length, UInt8.ofNat (data.length / 256)] ++ List.replicate 6 0 =
      padded 8 data.length := by
    refine eq_padded rfl ?_
    rw [value_append, value_zeros, value_cons, value_singleton, hlo, hhi]
    omega
  rw [← hfirst, ← hsecond]
  rfl

theorem aeadComputeTag_rfc {aad data : List UInt8} (haad : aad.length < 256)
    (hdata : data.length < 65536) :
    Crypto.aeadComputeTag rfcPrimitives (Crypto.aeadDeriveOtk rfcPrimitives key nonce) aad data =
      Rfc8439.aeadTag key nonce aad data := by
  have hblocks := Rfc8439.blockValues_macData aad data
  have hr : ((Rfc8439.chacha20Block key 0 nonce).take 32).take 16 =
      (Rfc8439.chacha20Block key 0 nonce).take 16 := by
    rw [List.take_take]
    rfl
  have hs : (((Rfc8439.chacha20Block key 0 nonce).take 32).drop 16).take 16 =
      ((Rfc8439.chacha20Block key 0 nonce).drop 16).take 16 := by
    rw [List.drop_take, List.take_take]
    rfl
  rw [← lengthsBlock_rfc haad hdata, ← values_aeadProcessPadded _ aad (Nat.le_refl _),
    ← values_aeadProcessPadded _ data (Nat.le_refl _)] at hblocks
  unfold Rfc8439.aeadTag Rfc8439.poly1305KeyGen Rfc8439.poly1305Mac
  rw [hr, hs, hblocks]
  unfold Crypto.aeadComputeTag
  show padded 16 (Rfc8439.accumulate _ (List.map _ (_ ++ _ ++ _)) + _) = _
  rw [List.map_append, List.map_append]
  rfl

/-- **The routines in memory are the envelope over strings**, with the cipher and the authenticator of
the RFC for its parameters. -/
theorem aeadEncrypt_strings (a : Aead) (hapart : a.Apart) :
    ∃ a', aeadEncrypt a = some a' ∧ (a'.text, bytesAt a'.poly.tag 0 16) =
      Crypto.aeadEncrypt rfcPrimitives a.keyBytes a.nonceBytes a.aad a.text := by
  obtain ⟨a', hseal, -, hsealed, -⟩ := aeadEncrypt_sealed a hapart
  refine ⟨a', hseal, ?_⟩
  have haad : a.aad.length < 256 := by
    unfold Aead.aad
    rw [length_textAt]
    exact a.aadLen.toNat_lt
  have htext : (Rfc8439.chacha20Encrypt a.keyBytes 1 a.nonceBytes a.text).length < 65536 := by
    unfold Aead.text Aead.len
    rw [Rfc8439.length_chacha20Encrypt, length_textAt]
    exact word_lt _ _
  have hcipher := chacha20Encrypt_rfc a.keyBytes a.nonceBytes 1 a.text
  have hone : BitVec.ofNat 32 1 = 1 := rfl
  rw [hone] at hcipher
  rw [hsealed]
  unfold Crypto.aeadEncrypt Rfc8439.aeadEncrypt
  dsimp only
  rw [hcipher, aeadComputeTag_rfc a.keyBytes a.nonceBytes haad htext]

theorem aeadEncrypt_strings_short : ∃ a', aeadEncrypt shortRecord = some a' ∧
    (a'.text, bytesAt a'.poly.tag 0 16) =
      Crypto.aeadEncrypt rfcPrimitives shortRecord.keyBytes shortRecord.nonceBytes shortRecord.aad
        shortRecord.text :=
  aeadEncrypt_strings shortRecord shortRecord_apart

end Strings

end AeadRam
end Crypto
end C64Https
