import C64Https.Crypto.Hmac

/-!
# KeySchedule — the key schedule (`src/hkdf.s`, `src/tls_keyschedule.s`)

The secrets of a connection are derived through a few shared buffers: `hkdf_prk` holds the secret in
use, `hkdf_okm` what was expanded from it, `tls_derived_tmp` the salt of the next extraction, and
`tls_c_hs_secret` and `tls_s_hs_secret` first the handshake and then the application traffic secrets.
Every call of HKDF goes through the registers of `hmac_sha256`.

Each step is described by the values that it leaves (`hkdfExtract_eq`, `hkdfExpandLabel_eq`), and the
two derivations and the Finished MAC come to the values of RFC 8446 over SHA-256.
-/

namespace C64Https
namespace Tls

open Bytes Word32 Fips180 Crypto Hkdf

/-! ## Memory -/

/-- The strings of the program's read-only data that the schedule points at. -/
inductive KeyLabel where
  | derived
  | cHsTraffic
  | sHsTraffic
  | cApTraffic
  | sApTraffic
  | key
  | iv
  | finished
  deriving DecidableEq, Repr

/-- `lbl_derived`, and the labels behind it. -/
def KeyLabel.bytes : KeyLabel → List UInt8
  | .derived => [0x64, 0x65, 0x72, 0x69, 0x76, 0x65, 0x64]
  | .cHsTraffic => [0x63, 0x20, 0x68, 0x73, 0x20, 0x74, 0x72, 0x61, 0x66, 0x66, 0x69, 0x63]
  | .sHsTraffic => [0x73, 0x20, 0x68, 0x73, 0x20, 0x74, 0x72, 0x61, 0x66, 0x66, 0x69, 0x63]
  | .cApTraffic => [0x63, 0x20, 0x61, 0x70, 0x20, 0x74, 0x72, 0x61, 0x66, 0x66, 0x69, 0x63]
  | .sApTraffic => [0x73, 0x20, 0x61, 0x70, 0x20, 0x74, 0x72, 0x61, 0x66, 0x66, 0x69, 0x63]
  | .key => [0x6b, 0x65, 0x79]
  | .iv => [0x69, 0x76]
  | .finished => [0x66, 0x69, 0x6e, 0x69, 0x73, 0x68, 0x65, 0x64]

def emptyHash : List UInt8 :=
  [ 0xe3, 0xb0, 0xc4, 0x42, 0x98, 0xfc, 0x1c, 0x14, 0x9a, 0xfb, 0xf4, 0xc8, 0x99, 0x6f, 0xb9, 0x24,
    0x27, 0xae, 0x41, 0xe4, 0x64, 0x9b, 0x93, 0x4c, 0xa4, 0x95, 0x99, 0x1b, 0x78, 0x52, 0xb8, 0x55 ]

/-- What the pointers of `hkdf.s` point at. -/
inductive KeyPtr where
  | inputBuffer
  | inputBufferHigh
  | derivedTmp
  | sharedSecret
  | transcript
  | emptyHash
  | emptyContext
  | label (l : KeyLabel)
  deriving DecidableEq, Repr

/-- The memory of `hkdf.s`. -/
structure HkdfRam where
  hmac : HmacRam
  saltPtr : KeyPtr
  saltLen : UInt8
  ikmPtr : KeyPtr
  ikmLen : UInt8
  labelPtr : KeyPtr
  labelLen : UInt8
  contextPtr : KeyPtr
  contextLen : UInt8
  outLen : UInt8
  prk : Vector UInt8 32
  okm : Vector UInt8 32
  infoBuf : Buffer
  infoLen : UInt8

structure KeyRam where
  hkdf : HkdfRam
  /-- the first 64 bytes of `input_buffer` -/
  inputBuffer : Vector UInt8 64
  sharedSecret : Vector UInt8 32
  /-- `tls_mlkem_ss` -/
  mlkemSs : Vector UInt8 32
  /-- `tls_kex_group` -/
  kexGroup : UInt8
  transcript : Vector UInt8 32
  earlySecret : Vector UInt8 32
  handshakeSecret : Vector UInt8 32
  masterSecret : Vector UInt8 32
  hsWriteKey : Vector UInt8 32
  hsWriteIv : Vector UInt8 12
  hsReadKey : Vector UInt8 32
  hsReadIv : Vector UInt8 12
  appWriteKey : Vector UInt8 32
  appWriteIv : Vector UInt8 12
  appReadKey : Vector UInt8 32
  appReadIv : Vector UInt8 12
  /-- `tls_c_hs_secret` and `tls_s_hs_secret`, of the handshake and then of the application -/
  cHsSecret : Vector UInt8 32
  sHsSecret : Vector UInt8 32
  derivedTmp : Vector UInt8 32
  verifyData : Vector UInt8 32
  finishedKey : Vector UInt8 32

/-- The bytes from a pointer on. -/
def KeyRam.deref (r : KeyRam) : KeyPtr → List UInt8
  | .inputBuffer => r.inputBuffer.toList
  | .inputBufferHigh => r.inputBuffer.toList.drop 32
  | .derivedTmp => r.derivedTmp.toList
  | .sharedSecret => r.sharedSecret.toList
  | .transcript => r.transcript.toList
  | .emptyHash => Tls.emptyHash
  | .emptyContext => []
  | .label l => l.bytes

/-- The front of a buffer, copied out. -/
def front (n : Nat) (m : Buffer) : Vector UInt8 n :=
  Vector.ofFn fun i => m i

/-- The first twelve bytes of `hkdf_okm`. -/
def front12 (v : Vector UInt8 32) : Vector UInt8 12 :=
  Vector.ofFn fun i => v.toList.getD i 0

/-! ## `hkdf.s` -/

/-- `@extract_zero_loop`, from Y on. -/
def extractZero : Nat → UInt8 → Buffer → Buffer
  | 0, _, key => key
  | n + 1, y, key =>
      if y = 32 then key else extractZero n (y + 1) (Function.update key y.toNat 0)

/-- The key of `hkdf_extract`. -/
def extractKey (salt : List UInt8) (len : UInt8) (key : Buffer) : Buffer :=
  if len = 0 then store key 0 (List.replicate 32 0)
  else extractZero 256 len (store key 0 (salt.take len.toNat))

def hkdfExtract (r : KeyRam) : KeyRam :=
  let hmac := { r.hkdf.hmac with
    key := extractKey (r.deref r.hkdf.saltPtr) r.hkdf.saltLen r.hkdf.hmac.key
    dataBuf := store r.hkdf.hmac.dataBuf 0 ((r.deref r.hkdf.ikmPtr).take r.hkdf.ikmLen.toNat)
    dataLen := r.hkdf.ikmLen }
  let hmac := hmacSha256 hmac
  { r with hkdf.hmac := hmac, hkdf.prk := front 32 hmac.result }

def hkdfExpand (r : KeyRam) : KeyRam :=
  let data := store r.hkdf.hmac.dataBuf 0 (bytesAt r.hkdf.infoBuf 0 r.hkdf.infoLen.toNat)
  let hmac := { r.hkdf.hmac with
    key := store r.hkdf.hmac.key 0 r.hkdf.prk.toList
    dataBuf := Function.update data r.hkdf.infoLen.toNat 0x01
    dataLen := r.hkdf.infoLen + 1 }
  let hmac := hmacSha256 hmac
  let okm := Vector.ofFn fun i : Fin 32 =>
    if i.val < r.hkdf.outLen.toNat then hmac.result i else r.hkdf.okm.toList.getD i 0
  { r with hkdf.hmac := hmac, hkdf.okm := okm }

/-- `hkdf_tls13_prefix`. -/
def hkdfTls13Prefix : List UInt8 :=
  [0x74, 0x6c, 0x73, 0x31, 0x33, 0x20]

/-- The structure that `hkdf_expand_label` assembles, X counting what is written. -/
def hkdfExpandLabel (r : KeyRam) : KeyRam :=
  let info := store r.hkdf.infoBuf 0 [0, r.hkdf.outLen, r.hkdf.labelLen + 6]
  let info := store info 3 hkdfTls13Prefix
  let info := store info 9 ((r.deref r.hkdf.labelPtr).take r.hkdf.labelLen.toNat)
  let x := 9 + r.hkdf.labelLen.toNat
  let info := Function.update info x r.hkdf.contextLen
  let info := store info (x + 1) ((r.deref r.hkdf.contextPtr).take r.hkdf.contextLen.toNat)
  hkdfExpand { r with
    hkdf.infoBuf := info
    hkdf.infoLen := UInt8.ofNat (x + 1 + r.hkdf.contextLen.toNat) }

def tlsDeriveSecret (r : KeyRam) : KeyRam :=
  hkdfExpandLabel { r with
    hkdf.contextPtr := .transcript
    hkdf.contextLen := 32
    hkdf.outLen := 32 }

/-! ## `tls_keyschedule.s` -/

/-- The label, and the context of `Derive-Secret` over no messages. -/
def expandDerived (r : KeyRam) : KeyRam :=
  let r := hkdfExpandLabel { r with
    hkdf.labelPtr := .label .derived
    hkdf.labelLen := 7
    hkdf.contextPtr := .emptyHash
    hkdf.contextLen := 32
    hkdf.outLen := 32 }
  { r with derivedTmp := r.hkdf.okm }

/-- Step 1 of `tls_derive_handshake_keys`. -/
def extractEarly (r : KeyRam) : KeyRam :=
  let r := hkdfExtract { r with
    inputBuffer := Vector.replicate 64 0
    hkdf.saltPtr := .inputBuffer
    hkdf.saltLen := 32
    hkdf.ikmPtr := .inputBufferHigh
    hkdf.ikmLen := 32 }
  { r with earlySecret := r.hkdf.prk }

/-- The input of step 3: `pqHybrid` is the build, and the group decides there. -/
def selectIkm (pqHybrid : Bool) (r : KeyRam) : KeyRam :=
  let r := { r with
    hkdf.saltPtr := .derivedTmp
    hkdf.saltLen := 32
    hkdf.ikmPtr := .sharedSecret
    hkdf.ikmLen := 32 }
  if pqHybrid = true ∧ r.kexGroup = 0xec then
    { r with
      inputBuffer := r.mlkemSs ++ r.sharedSecret
      hkdf.ikmPtr := .inputBuffer
      hkdf.ikmLen := 64 }
  else r

/-- `@dhk_zero` and `@dhk_zss`. -/
def wipeShared (pqHybrid : Bool) (r : KeyRam) : KeyRam :=
  if pqHybrid then
    { r with
      inputBuffer := Vector.replicate 64 0
      hkdf.hmac := { r.hkdf.hmac with dataBuf := store r.hkdf.hmac.dataBuf 0 (List.replicate 64 0) }
      sharedSecret := Vector.replicate 32 0
      mlkemSs := Vector.replicate 32 0 }
  else r

/-- Step 3. -/
def extractHandshake (pqHybrid : Bool) (r : KeyRam) : KeyRam :=
  let r := wipeShared pqHybrid (hkdfExtract (selectIkm pqHybrid r))
  { r with handshakeSecret := r.hkdf.prk }

/-- `tls_derive_secret` under a label. -/
def deriveUnder (l : KeyLabel) (r : KeyRam) : KeyRam :=
  tlsDeriveSecret { r with hkdf.labelPtr := .label l, hkdf.labelLen := 12 }

/-- `hkdf_expand_label` with the label `key`, of a traffic secret. -/
def expandKey (secret : Vector UInt8 32) (r : KeyRam) : KeyRam :=
  hkdfExpandLabel { r with
    hkdf.prk := secret
    hkdf.labelPtr := .label .key
    hkdf.labelLen := 3
    hkdf.contextPtr := .emptyContext
    hkdf.contextLen := 0
    hkdf.outLen := 32 }

/-- And with the label `iv`. -/
def expandIv (secret : Vector UInt8 32) (r : KeyRam) : KeyRam :=
  hkdfExpandLabel { r with
    hkdf.prk := secret
    hkdf.labelPtr := .label .iv
    hkdf.labelLen := 2
    hkdf.contextPtr := .emptyContext
    hkdf.contextLen := 0
    hkdf.outLen := 12 }

/-- Steps 4 and 5. -/
def deriveHsSecrets (r : KeyRam) : KeyRam :=
  let r := deriveUnder .cHsTraffic r
  let r := { r with cHsSecret := r.hkdf.okm }
  let r := deriveUnder .sHsTraffic { r with hkdf.prk := r.handshakeSecret }
  { r with sHsSecret := r.hkdf.okm }

/-- Steps 6 and 7. -/
def expandHsWrite (r : KeyRam) : KeyRam :=
  let r := expandKey r.cHsSecret r
  let r := { r with hsWriteKey := r.hkdf.okm }
  let r := expandIv r.cHsSecret r
  { r with hsWriteIv := front12 r.hkdf.okm }

/-- Steps 8 and 9. -/
def expandHsRead (r : KeyRam) : KeyRam :=
  let r := expandKey r.sHsSecret r
  let r := { r with hsReadKey := r.hkdf.okm }
  let r := expandIv r.sHsSecret r
  { r with hsReadIv := front12 r.hkdf.okm }

def tlsDeriveHandshakeKeys (pqHybrid : Bool) (r : KeyRam) : KeyRam :=
  expandHsRead (expandHsWrite (deriveHsSecrets
    (extractHandshake pqHybrid (expandDerived (extractEarly r)))))

/-- `@dtk_z1`, of the lower half of `input_buffer` only. -/
def clearHalf (v : Vector UInt8 64) : Vector UInt8 64 :=
  Vector.ofFn fun i => if i.val < 32 then 0 else v[i]

/-- Steps 1 and 2 of `tls_derive_traffic_keys`. -/
def extractMaster (r : KeyRam) : KeyRam :=
  let r := expandDerived { r with hkdf.prk := r.handshakeSecret }
  let r := hkdfExtract { r with
    hkdf.saltPtr := .derivedTmp
    hkdf.saltLen := 32
    inputBuffer := clearHalf r.inputBuffer
    hkdf.ikmPtr := .inputBuffer
    hkdf.ikmLen := 32 }
  { r with masterSecret := r.hkdf.prk }

/-- Steps 3 and 4; the secrets of the handshake are overwritten. -/
def deriveApSecrets (r : KeyRam) : KeyRam :=
  let r := deriveUnder .cApTraffic r
  let r := { r with cHsSecret := r.hkdf.okm }
  let r := deriveUnder .sApTraffic { r with hkdf.prk := r.masterSecret }
  { r with sHsSecret := r.hkdf.okm }

/-- Steps 5 and 6. -/
def expandApWrite (r : KeyRam) : KeyRam :=
  let r := expandKey r.cHsSecret r
  let r := { r with appWriteKey := r.hkdf.okm }
  let r := expandIv r.cHsSecret r
  { r with appWriteIv := front12 r.hkdf.okm }

/-- Steps 7 and 8. -/
def expandApRead (r : KeyRam) : KeyRam :=
  let r := expandKey r.sHsSecret r
  let r := { r with appReadKey := r.hkdf.okm }
  let r := expandIv r.sHsSecret r
  { r with appReadIv := front12 r.hkdf.okm }

def tlsDeriveTrafficKeys (r : KeyRam) : KeyRam :=
  expandApRead (expandApWrite (deriveApSecrets (extractMaster r)))

/-- `tls_compute_finished`, on the traffic secret in `hkdf_prk`. -/
def KeyRam.tlsComputeFinished (r : KeyRam) : KeyRam :=
  let r := hkdfExpandLabel { r with
    hkdf.labelPtr := .label .finished
    hkdf.labelLen := 8
    hkdf.contextPtr := .emptyContext
    hkdf.contextLen := 0
    hkdf.outLen := 32 }
  let r := { r with finishedKey := r.hkdf.okm }
  let hmac := hmacSha256 { r.hkdf.hmac with
    key := store r.hkdf.hmac.key 0 r.finishedKey.toList
    dataBuf := store r.hkdf.hmac.dataBuf 0 r.transcript.toList
    dataLen := 32 }
  { r with hkdf.hmac := hmac, verifyData := front 32 hmac.result }

/-! ## HKDF -/

section Hkdf

@[simp] theorem toList_front (n : Nat) (m : Buffer) : (front n m).toList = bytesAt m 0 n := by
  refine List.ext_getElem (by simp) ?_
  intro i h₁ h₂
  simp [front, getElem_bytesAt]

/-- What the loop leaves in the first 32 bytes, from a place in them. -/
theorem extractZero_eq (n : Nat) : ∀ (y : UInt8) (key : Buffer), y.toNat + n = 32 →
    ∀ k, extractZero (n + 1 + k) y key = store key y.toNat (List.replicate n 0) := by
  induction n with
  | zero =>
      intro y key hy k
      have hend : y = 32 := UInt8.toNat.inj hy
      rw [Nat.zero_add, Nat.add_comm]
      unfold extractZero
      rw [if_pos hend, List.replicate_zero, store_nil]
  | succ n ih =>
      intro y key hy k
      have hne : y ≠ 32 := by
        rintro rfl
        have : (32 : UInt8).toNat = 32 := rfl
        omega
      have hsucc : (y + 1).toNat = y.toNat + 1 := by
        rw [UInt8.toNat_add]
        have : (1 : UInt8).toNat = 1 := rfl
        omega
      have hjoin := store_store key y.toNat [0] (List.replicate n 0)
      rw [show n + 1 + 1 + k = (n + 1 + k) + 1 by omega]
      unfold extractZero
      rw [if_neg hne, ih (y + 1) _ (by omega), hsucc, update_eq_store]
      exact hjoin

/-- The salt and zeros behind it. -/
theorem bytesAt_extractKey (salt : List UInt8) {len : UInt8} (key : Buffer)
    (hlen : len.toNat ≤ 32) (hsalt : len.toNat ≤ salt.length) :
    bytesAt (extractKey salt len key) 0 32 =
      salt.take len.toNat ++ List.replicate (32 - len.toNat) 0 := by
  unfold extractKey
  split
  · rename_i hzero
    rw [hzero]
    exact bytesAt_store_of_length _ _ (List.length_replicate)
  · have htake : (salt.take len.toNat).length = len.toNat := by
      rw [List.length_take]
      omega
    have hloop := extractZero_eq (32 - len.toNat) len (store key 0 (salt.take len.toNat))
      (by omega) (255 - (32 - len.toNat))
    rw [show 32 - len.toNat + 1 + (255 - (32 - len.toNat)) = 256 by omega] at hloop
    have hjoin := store_store key 0 (salt.take len.toNat) (List.replicate (32 - len.toNat) 0)
    rw [htake, Nat.zero_add] at hjoin
    rw [hloop, hjoin]
    refine bytesAt_store_of_length _ _ ?_
    rw [List.length_append, htake, List.length_replicate]
    omega

/-- `hkdf_extract` writes `hkdf_prk` and the memory of HMAC. -/
theorem hkdfExtract_eq (r : KeyRam) {salt ikm : List UInt8}
    (hsalt : (r.deref r.hkdf.saltPtr).take r.hkdf.saltLen.toNat = salt)
    (hsaltLen : r.hkdf.saltLen.toNat = salt.length) (h32 : salt.length ≤ 32)
    (hikm : (r.deref r.hkdf.ikmPtr).take r.hkdf.ikmLen.toNat = ikm)
    (hikmLen : r.hkdf.ikmLen.toNat = ikm.length) (h64 : ikm.length ≤ 64) :
    ∃ h, hkdfExtract r = { r with hkdf := h } ∧ h.prk.toList = extract sha256 32 salt ikm := by
  refine ⟨(hkdfExtract r).hkdf, rfl, ?_⟩
  have hfit : r.hkdf.saltLen.toNat ≤ (r.deref r.hkdf.saltPtr).length := by
    rw [← hsalt, List.length_take] at hsaltLen
    omega
  unfold hkdfExtract
  dsimp only
  rw [toList_front, bytes_hmacSha256 _ (by dsimp only; omega), extract_eq_hmac _ h32 (by decide)]
  dsimp only
  rw [bytesAt_extractKey _ _ (by omega) hfit, hsalt, hsaltLen, hikm, hikmLen,
    bytesAt_store_of_length _ _ rfl]

/-- `hkdf_expand` writes the front of `hkdf_okm`, and keeps the secret. -/
theorem hkdfExpand_eq (r : KeyRam) (hinfo : r.hkdf.infoLen.toNat ≤ 118)
    (hpos : 0 < r.hkdf.outLen.toNat) (hout : r.hkdf.outLen.toNat ≤ 32) :
    ∃ h, hkdfExpand r = { r with hkdf := h } ∧ h.prk = r.hkdf.prk ∧
      h.okm.toList.take r.hkdf.outLen.toNat = expand sha256 32 r.hkdf.prk.toList
        (bytesAt r.hkdf.infoBuf 0 r.hkdf.infoLen.toNat) r.hkdf.outLen.toNat := by
  refine ⟨(hkdfExpand r).hkdf, rfl, rfl, ?_⟩
  have hcount : (r.hkdf.infoLen + 1).toNat = r.hkdf.infoLen.toNat + 1 := by
    have hone : (1 : UInt8).toNat = 1 := rfl
    rw [UInt8.toNat_add, hone]
    exact Nat.mod_eq_of_lt (by omega)
  -- the message is what `hkdf_info_buf` holds, and the number of the block
  have hjoin := store_store r.hkdf.hmac.dataBuf 0 (bytesAt r.hkdf.infoBuf 0 r.hkdf.infoLen.toNat)
    [1]
  rw [length_bytesAt, Nat.zero_add] at hjoin
  have hokm : ∀ m : Buffer, (Vector.ofFn fun i : Fin 32 =>
      if i.val < r.hkdf.outLen.toNat then m i else r.hkdf.okm.toList.getD i 0).toList.take
        r.hkdf.outLen.toNat = (bytesAt m 0 32).take r.hkdf.outLen.toNat := by
    intro m
    refine List.ext_getElem (by simp) ?_
    intro i h₁ h₂
    have hi : i < r.hkdf.outLen.toNat := by
      rw [List.length_take] at h₁
      omega
    simp [getElem_bytesAt, hi]
  rw [expand_of_le hpos hout]
  unfold hkdfExpand
  dsimp only
  rw [hokm, bytes_hmacSha256 _ (by dsimp only; omega)]
  dsimp only
  rw [hcount, update_eq_store, hjoin, bytesAt_store_of_length _ _ (by simp),
    bytesAt_store_of_length _ _ (by simp)]

attribute [irreducible] hkdfExtract hkdfExpand

/-- The structure in `hkdf_info_buf`. -/
theorem bytesAt_info (info : Buffer) (outLen : UInt8) (label context : List UInt8) :
    bytesAt (store (Function.update (store (store (store info 0
      [0, outLen, UInt8.ofNat label.length + 6]) 3 hkdfTls13Prefix) 9 label) (9 + label.length)
        (UInt8.ofNat context.length)) (9 + label.length + 1) context) 0
          (9 + label.length + 1 + context.length) = hkdfLabel label context outLen.toNat := by
  have hhead : store (store info 0 [0, outLen, UInt8.ofNat label.length + 6]) 3 hkdfTls13Prefix =
      store info 0 ([0, outLen, UInt8.ofNat label.length + 6] ++ hkdfTls13Prefix) :=
    store_store info 0 _ _
  have hlabel := store_store info 0 ([0, outLen, UInt8.ofNat label.length + 6] ++ hkdfTls13Prefix)
    label
  have hcount := store_store info 0
    ([0, outLen, UInt8.ofNat label.length + 6] ++ hkdfTls13Prefix ++ label)
    [UInt8.ofNat context.length]
  have hcontext := store_store info 0
    ([0, outLen, UInt8.ofNat label.length + 6] ++ hkdfTls13Prefix ++ label ++
      [UInt8.ofNat context.length]) context
  have hnine : ([0, outLen, UInt8.ofNat label.length + 6] ++ hkdfTls13Prefix).length = 9 := rfl
  rw [hnine] at hlabel
  rw [List.length_append, hnine, Nat.zero_add] at hcount
  rw [List.length_append, List.length_append, hnine, List.length_singleton, Nat.zero_add] at hcontext
  rw [Nat.zero_add] at hlabel
  rw [hhead, hlabel, update_eq_store, hcount, hcontext]
  have hsix : UInt8.ofNat label.length + 6 = UInt8.ofNat (6 + label.length) := by
    refine UInt8.toNat.inj ?_
    have h6 : (6 : UInt8).toNat = 6 := rfl
    rw [UInt8.toNat_add, UInt8.toNat_ofNat', UInt8.toNat_ofNat', h6]
    omega
  have hout : UInt8.ofNat (outLen.toNat / 256) = 0 ∧ UInt8.ofNat outLen.toNat = outLen := by
    have hlt := outLen.toNat_lt
    refine ⟨?_, UInt8.ofNat_toNat⟩
    rw [Nat.div_eq_of_lt hlt]
    rfl
  unfold hkdfLabel
  rw [hout.1, hout.2, hsix]
  refine bytesAt_store_of_length _ _ ?_
  simp only [List.length_append, List.length_cons, List.length_nil, hkdfTls13Prefix]

/-- `hkdf_expand_label` writes the front of `hkdf_okm`, and keeps the secret. -/
theorem hkdfExpandLabel_eq (r : KeyRam) {label context : List UInt8}
    (hlabel : (r.deref r.hkdf.labelPtr).take r.hkdf.labelLen.toNat = label)
    (hlabelLen : r.hkdf.labelLen.toNat = label.length)
    (hcontext : (r.deref r.hkdf.contextPtr).take r.hkdf.contextLen.toNat = context)
    (hcontextLen : r.hkdf.contextLen.toNat = context.length)
    (hshort : label.length + context.length ≤ 100) (hpos : 0 < r.hkdf.outLen.toNat)
    (hout : r.hkdf.outLen.toNat ≤ 32) :
    ∃ h, hkdfExpandLabel r = { r with hkdf := h } ∧ h.prk = r.hkdf.prk ∧
      h.okm.toList.take r.hkdf.outLen.toNat =
        expandLabel sha256 32 r.hkdf.prk.toList label context r.hkdf.outLen.toNat := by
  have hinfo := bytesAt_info r.hkdf.infoBuf r.hkdf.outLen label context
  have hlabelByte : UInt8.ofNat label.length = r.hkdf.labelLen := by
    rw [← hlabelLen, UInt8.ofNat_toNat]
  have hcontextByte : UInt8.ofNat context.length = r.hkdf.contextLen := by
    rw [← hcontextLen, UInt8.ofNat_toNat]
  rw [hlabelByte, hcontextByte] at hinfo
  have hcount : (UInt8.ofNat (9 + label.length + 1 + context.length)).toNat =
      9 + label.length + 1 + context.length := by
    rw [UInt8.toNat_ofNat']
    exact Nat.mod_eq_of_lt (by omega)
  unfold hkdfExpandLabel
  dsimp only
  rw [hlabel, hcontext, hlabelLen, hcontextLen]
  generalize store (Function.update (store (store (store r.hkdf.infoBuf 0
    [0, r.hkdf.outLen, r.hkdf.labelLen + 6]) 3 hkdfTls13Prefix) 9 label) (9 + label.length)
      r.hkdf.contextLen) (9 + label.length + 1) context =
        info at hinfo ⊢
  obtain ⟨h, heq, hprk, hokm⟩ := hkdfExpand_eq { r with
    hkdf.infoBuf := info
    hkdf.infoLen := UInt8.ofNat (9 + label.length + 1 + context.length) }
    (by dsimp only; omega) hpos hout
  dsimp only at hokm hprk
  rw [hcount, hinfo] at hokm
  exact ⟨h, heq, hprk, hokm⟩

attribute [irreducible] hkdfExpandLabel

end Hkdf

/-! ## The steps -/

section Steps

/-- The pointers do not reach the memory of HKDF. -/
@[simp] theorem deref_hkdf (r : KeyRam) (h : HkdfRam) (p : KeyPtr) :
    ({ r with hkdf := h } : KeyRam).deref p = r.deref p := by
  cases p with
  | _ => rfl

theorem take_toList (v : Vector UInt8 32) : v.toList.take 32 = v.toList := by
  refine List.take_of_length_le ?_
  rw [Vector.length_toList]

/-- The labels are those of the RFC. -/
theorem bytes_label : KeyLabel.derived.bytes = labels.derived ∧
    KeyLabel.cHsTraffic.bytes = labels.cHsTraffic ∧ KeyLabel.sHsTraffic.bytes = labels.sHsTraffic ∧
    KeyLabel.cApTraffic.bytes = labels.cApTraffic ∧ KeyLabel.sApTraffic.bytes = labels.sApTraffic ∧
    KeyLabel.key.bytes = labels.key ∧ KeyLabel.iv.bytes = labels.iv ∧
    KeyLabel.finished.bytes = labels.finished := by
  decide +kernel

theorem length_label (l : KeyLabel) : l.bytes.length ≤ 12 := by
  cases l with
  | _ => decide

theorem emptyHash_eq : Tls.emptyHash = sha256 [] :=
  sha256_nil.symm

/-- `hkdf_expand_label` under one of the labels, the context taken whole. -/
theorem expandUnder_eq (r : KeyRam) {l : KeyLabel} {context : List UInt8} (len : Nat)
    (hlabel : r.hkdf.labelPtr = .label l) (hlabelLen : r.hkdf.labelLen.toNat = l.bytes.length)
    (hcontext : r.deref r.hkdf.contextPtr = context)
    (hcontextLen : r.hkdf.contextLen.toNat = context.length) (hshort : context.length ≤ 32)
    (hout : r.hkdf.outLen.toNat = len) (hpos : 0 < len) (hle : len ≤ 32) :
    ∃ h, hkdfExpandLabel r = { r with hkdf := h } ∧ h.prk = r.hkdf.prk ∧
      h.okm.toList.take len = expandLabel sha256 32 r.hkdf.prk.toList l.bytes context len := by
  have hl := length_label l
  have hlabelBytes : (r.deref r.hkdf.labelPtr).take r.hkdf.labelLen.toNat = l.bytes := by
    rw [hlabel, hlabelLen]
    exact List.take_length
  have hcontextBytes : (r.deref r.hkdf.contextPtr).take r.hkdf.contextLen.toNat = context := by
    rw [hcontext, hcontextLen]
    exact List.take_length
  subst hout
  exact hkdfExpandLabel_eq r hlabelBytes hlabelLen hcontextBytes hcontextLen (by omega) hpos hle

/-- `Derive-Secret` over no messages, of the secret in `hkdf_prk`. -/
theorem expandDerived_eq (r : KeyRam) :
    ∃ h salt, expandDerived r = { r with hkdf := h, derivedTmp := salt } ∧
      salt.toList = deriveSecret sha256 32 r.hkdf.prk.toList labels.derived (sha256 []) := by
  obtain ⟨h, heq, -, hokm⟩ := expandUnder_eq { r with
    hkdf.labelPtr := .label .derived
    hkdf.labelLen := 7
    hkdf.contextPtr := .emptyHash
    hkdf.contextLen := 32
    hkdf.outLen := 32 } 32 rfl rfl rfl rfl (Nat.le_refl _) rfl (by decide) (Nat.le_refl _)
  refine ⟨h, h.okm, ?_, ?_⟩
  · unfold expandDerived
    dsimp only
    rw [heq]
  · rw [← take_toList, hokm, bytes_label.1, ← emptyHash_eq]
    rfl

/-- `Derive-Secret` over the transcript. -/
theorem deriveUnder_eq (r : KeyRam) {l : KeyLabel} (hl : l.bytes.length = 12) :
    ∃ h, deriveUnder l r = { r with hkdf := h } ∧
      h.okm.toList = deriveSecret sha256 32 r.hkdf.prk.toList l.bytes r.transcript.toList := by
  have hcontext : r.transcript.toList.length = 32 := by
    rw [Vector.length_toList]
  obtain ⟨h, heq, -, hokm⟩ := expandUnder_eq { r with
    hkdf.labelPtr := .label l
    hkdf.labelLen := 12
    hkdf.contextPtr := .transcript
    hkdf.contextLen := 32
    hkdf.outLen := 32 } 32 rfl hl.symm rfl hcontext.symm (Nat.le_of_eq hcontext) rfl (by decide)
    (Nat.le_refl _)
  refine ⟨h, ?_, ?_⟩
  · unfold deriveUnder tlsDeriveSecret
    dsimp only
    rw [heq]
  · rw [← take_toList, hokm]
    rfl

theorem expandKey_eq (secret : Vector UInt8 32) (r : KeyRam) :
    ∃ h, expandKey secret r = { r with hkdf := h } ∧
      h.okm.toList = trafficKey sha256 32 secret.toList := by
  obtain ⟨h, heq, -, hokm⟩ := expandUnder_eq { r with
    hkdf.prk := secret
    hkdf.labelPtr := .label .key
    hkdf.labelLen := 3
    hkdf.contextPtr := .emptyContext
    hkdf.contextLen := 0
    hkdf.outLen := 32 } 32 rfl rfl rfl rfl (Nat.zero_le _) rfl (by decide) (Nat.le_refl _)
  refine ⟨h, heq, ?_⟩
  rw [← take_toList, hokm, bytes_label.2.2.2.2.2.1]
  rfl

theorem expandIv_eq (secret : Vector UInt8 32) (r : KeyRam) :
    ∃ h, expandIv secret r = { r with hkdf := h } ∧
      (front12 h.okm).toList = trafficIv sha256 32 secret.toList := by
  obtain ⟨h, heq, -, hokm⟩ := expandUnder_eq { r with
    hkdf.prk := secret
    hkdf.labelPtr := .label .iv
    hkdf.labelLen := 2
    hkdf.contextPtr := .emptyContext
    hkdf.contextLen := 0
    hkdf.outLen := 12 } 12 rfl rfl rfl rfl (Nat.zero_le _) rfl (by decide) (by decide)
  have hfront : (front12 h.okm).toList = h.okm.toList.take 12 := by
    refine List.ext_getElem (by simp) ?_
    intro i h₁ h₂
    simp at h₁
    have hi : i < 32 := by omega
    simp [front12, hi]
  refine ⟨h, heq, ?_⟩
  rw [hfront, hokm, bytes_label.2.2.2.2.2.2.1]
  rfl

/-- Step 1, on zeros. -/
theorem extractEarly_eq (r : KeyRam) :
    ∃ h buf early, extractEarly r =
        { r with hkdf := h, inputBuffer := buf, earlySecret := early } ∧
      h.prk.toList = earlySecret sha256 32 := by
  obtain ⟨h, heq, hprk⟩ := @hkdfExtract_eq { r with
    inputBuffer := Vector.replicate 64 0
    hkdf.saltPtr := .inputBuffer
    hkdf.saltLen := 32
    hkdf.ikmPtr := .inputBufferHigh
    hkdf.ikmLen := 32 } (zeros 32) (zeros 32) rfl rfl (Nat.le_refl _) rfl rfl (by decide)
  refine ⟨h, Vector.replicate 64 0, h.prk, ?_, hprk⟩
  unfold extractEarly
  dsimp only
  rw [heq]

/-- The input of the second extraction. -/
def KeyRam.ikm (pqHybrid : Bool) (r : KeyRam) : List UInt8 :=
  if pqHybrid = true ∧ r.kexGroup = 0xec then r.mlkemSs.toList ++ r.sharedSecret.toList
  else r.sharedSecret.toList

theorem length_toList_32 (v : Vector UInt8 32) : v.toList.length = 32 := by
  rw [Vector.length_toList]

/-- Step 3, on the salt of step 2 and one shared secret or two. -/
theorem extractHandshake_eq (pqHybrid : Bool) (r : KeyRam) :
    ∃ h buf shared mlkem secret, extractHandshake pqHybrid r =
        { r with
          hkdf := h, inputBuffer := buf, sharedSecret := shared, mlkemSs := mlkem
          handshakeSecret := secret } ∧ h.prk = secret ∧
      secret.toList = extract sha256 32 r.derivedTmp.toList (r.ikm pqHybrid) := by
  have h32 := length_toList_32 r.derivedTmp
  have hsalt : r.derivedTmp.toList.take 32 = r.derivedTmp.toList := take_toList _
  have hextract : ∃ h buf, hkdfExtract (selectIkm pqHybrid r) =
      { r with hkdf := h, inputBuffer := buf } ∧
        h.prk.toList = extract sha256 32 r.derivedTmp.toList (r.ikm pqHybrid) := by
    unfold selectIkm KeyRam.ikm
    dsimp only
    split
    · have hlen : (r.mlkemSs ++ r.sharedSecret).toList.length = 64 := by
        rw [Vector.length_toList]
      have hikm : (r.mlkemSs ++ r.sharedSecret).toList.take 64 =
          r.mlkemSs.toList ++ r.sharedSecret.toList := by
        rw [List.take_of_length_le (Nat.le_of_eq hlen), Vector.toList_append]
      obtain ⟨h, heq, hprk⟩ := hkdfExtract_eq { r with
        inputBuffer := r.mlkemSs ++ r.sharedSecret
        hkdf.saltPtr := .derivedTmp
        hkdf.saltLen := 32
        hkdf.ikmPtr := .inputBuffer
        hkdf.ikmLen := 64 } hsalt h32.symm (Nat.le_of_eq h32) hikm (by rw [← hikm]; simp) (by simp)
      exact ⟨h, _, heq, hprk⟩
    · have hlen := length_toList_32 r.sharedSecret
      obtain ⟨h, heq, hprk⟩ := hkdfExtract_eq { r with
        hkdf.saltPtr := .derivedTmp
        hkdf.saltLen := 32
        hkdf.ikmPtr := .sharedSecret
        hkdf.ikmLen := 32 } hsalt h32.symm (Nat.le_of_eq h32) (take_toList _) hlen.symm
        (Nat.le_trans (Nat.le_of_eq hlen) (by decide))
      exact ⟨h, _, heq, hprk⟩
  obtain ⟨h, buf, heq, hprk⟩ := hextract
  unfold extractHandshake wipeShared
  rw [heq]
  cases pqHybrid with
  | true => exact ⟨_, _, _, _, h.prk, rfl, rfl, hprk⟩
  | false => exact ⟨_, _, _, _, h.prk, rfl, rfl, hprk⟩

theorem take_clearHalf (v : Vector UInt8 64) : (clearHalf v).toList.take 32 = zeros 32 := by
  refine List.ext_getElem ?_ ?_
  · rw [List.length_take, Vector.length_toList]
    exact List.length_replicate.symm
  · intro i h₁ h₂
    have hi : i < 32 := by
      rwa [zeros, List.length_replicate] at h₂
    simp only [clearHalf, List.getElem_take, Vector.getElem_toList, Vector.getElem_ofFn, hi, if_true,
      zeros, List.getElem_replicate]

/-- Steps 1 and 2 of `tls_derive_traffic_keys`. -/
theorem extractMaster_eq (r : KeyRam) :
    ∃ h buf salt secret, extractMaster r =
        { r with hkdf := h, inputBuffer := buf, derivedTmp := salt, masterSecret := secret } ∧
      h.prk = secret ∧ secret.toList = masterSecret sha256 32 r.handshakeSecret.toList := by
  obtain ⟨h, salt, heq, hsalt⟩ := expandDerived_eq { r with hkdf.prk := r.handshakeSecret }
  have h32 := length_toList_32 salt
  obtain ⟨h', heq', hprk⟩ := @hkdfExtract_eq { r with
    hkdf := { h with saltPtr := .derivedTmp, saltLen := 32, ikmPtr := .inputBuffer, ikmLen := 32 }
    derivedTmp := salt
    inputBuffer := clearHalf r.inputBuffer }
    salt.toList (zeros 32) (take_toList salt) h32.symm (Nat.le_of_eq h32) (take_clearHalf _) rfl (by decide)
  refine ⟨h', clearHalf r.inputBuffer, salt, h'.prk, ?_, rfl, ?_⟩
  · unfold extractMaster
    rw [heq]
    dsimp only
    rw [heq']
  · rw [hprk, hsalt]
    rfl

end Steps

/-! ## The schedule -/

/-- What the first derivation leaves, of a shared secret and a transcript hash. -/
structure HandshakeKeys (shared th : List UInt8) (r : KeyRam) : Prop where
  handshake : r.handshakeSecret.toList = handshakeSecret sha256 32 shared
  client : r.cHsSecret.toList = clientHandshakeSecret sha256 32 shared th
  server : r.sHsSecret.toList = serverHandshakeSecret sha256 32 shared th
  writeKey : r.hsWriteKey.toList = trafficKey sha256 32 (clientHandshakeSecret sha256 32 shared th)
  writeIv : r.hsWriteIv.toList = trafficIv sha256 32 (clientHandshakeSecret sha256 32 shared th)
  readKey : r.hsReadKey.toList = trafficKey sha256 32 (serverHandshakeSecret sha256 32 shared th)
  readIv : r.hsReadIv.toList = trafficIv sha256 32 (serverHandshakeSecret sha256 32 shared th)

/-- And the second, of the handshake secret. -/
structure ApplicationKeys (handshake th : List UInt8) (r : KeyRam) : Prop where
  client : r.cHsSecret.toList = clientTrafficSecret sha256 32 handshake th
  server : r.sHsSecret.toList = serverTrafficSecret sha256 32 handshake th
  writeKey : r.appWriteKey.toList = trafficKey sha256 32 (clientTrafficSecret sha256 32 handshake th)
  writeIv : r.appWriteIv.toList = trafficIv sha256 32 (clientTrafficSecret sha256 32 handshake th)
  readKey : r.appReadKey.toList = trafficKey sha256 32 (serverTrafficSecret sha256 32 handshake th)
  readIv : r.appReadIv.toList = trafficIv sha256 32 (serverTrafficSecret sha256 32 handshake th)

section Schedule

/-- The two secrets, of the handshake secret that step 3 left in `hkdf_prk`. -/
theorem deriveHsSecrets_eq (r : KeyRam) (hprk : r.hkdf.prk = r.handshakeSecret) :
    ∃ h c s, deriveHsSecrets r = { r with hkdf := h, cHsSecret := c, sHsSecret := s } ∧
      c.toList = deriveSecret sha256 32 r.handshakeSecret.toList labels.cHsTraffic
        r.transcript.toList ∧
      s.toList = deriveSecret sha256 32 r.handshakeSecret.toList labels.sHsTraffic
        r.transcript.toList := by
  obtain ⟨h, heq, hc⟩ := deriveUnder_eq (l := .cHsTraffic) r rfl
  obtain ⟨h', heq', hs⟩ := deriveUnder_eq (l := .sHsTraffic)
    { r with hkdf := { h with prk := r.handshakeSecret }, cHsSecret := h.okm } rfl
  refine ⟨h', h.okm, h'.okm, ?_, ?_, ?_⟩
  · unfold deriveHsSecrets
    rw [heq]
    dsimp only
    rw [heq']
  · rw [hc, hprk, bytes_label.2.1]
  · rw [hs, bytes_label.2.2.1]

theorem deriveApSecrets_eq (r : KeyRam) (hprk : r.hkdf.prk = r.masterSecret) :
    ∃ h c s, deriveApSecrets r = { r with hkdf := h, cHsSecret := c, sHsSecret := s } ∧
      c.toList = deriveSecret sha256 32 r.masterSecret.toList labels.cApTraffic
        r.transcript.toList ∧
      s.toList = deriveSecret sha256 32 r.masterSecret.toList labels.sApTraffic
        r.transcript.toList := by
  obtain ⟨h, heq, hc⟩ := deriveUnder_eq (l := .cApTraffic) r rfl
  obtain ⟨h', heq', hs⟩ := deriveUnder_eq (l := .sApTraffic)
    { r with hkdf := { h with prk := r.masterSecret }, cHsSecret := h.okm } rfl
  refine ⟨h', h.okm, h'.okm, ?_, ?_, ?_⟩
  · unfold deriveApSecrets
    rw [heq]
    dsimp only
    rw [heq']
  · rw [hc, hprk, bytes_label.2.2.2.1]
  · rw [hs, bytes_label.2.2.2.2.1]

theorem expandHsWrite_eq (r : KeyRam) :
    ∃ h key iv, expandHsWrite r = { r with hkdf := h, hsWriteKey := key, hsWriteIv := iv } ∧
      key.toList = trafficKey sha256 32 r.cHsSecret.toList ∧
      iv.toList = trafficIv sha256 32 r.cHsSecret.toList := by
  obtain ⟨h, heq, hkey⟩ := expandKey_eq r.cHsSecret r
  obtain ⟨h', heq', hiv⟩ := expandIv_eq r.cHsSecret { r with hkdf := h, hsWriteKey := h.okm }
  refine ⟨h', h.okm, front12 h'.okm, ?_, hkey, hiv⟩
  unfold expandHsWrite
  rw [heq]
  dsimp only
  rw [heq']

theorem expandHsRead_eq (r : KeyRam) :
    ∃ h key iv, expandHsRead r = { r with hkdf := h, hsReadKey := key, hsReadIv := iv } ∧
      key.toList = trafficKey sha256 32 r.sHsSecret.toList ∧
      iv.toList = trafficIv sha256 32 r.sHsSecret.toList := by
  obtain ⟨h, heq, hkey⟩ := expandKey_eq r.sHsSecret r
  obtain ⟨h', heq', hiv⟩ := expandIv_eq r.sHsSecret { r with hkdf := h, hsReadKey := h.okm }
  refine ⟨h', h.okm, front12 h'.okm, ?_, hkey, hiv⟩
  unfold expandHsRead
  rw [heq]
  dsimp only
  rw [heq']

theorem expandApWrite_eq (r : KeyRam) :
    ∃ h key iv, expandApWrite r = { r with hkdf := h, appWriteKey := key, appWriteIv := iv } ∧
      key.toList = trafficKey sha256 32 r.cHsSecret.toList ∧
      iv.toList = trafficIv sha256 32 r.cHsSecret.toList := by
  obtain ⟨h, heq, hkey⟩ := expandKey_eq r.cHsSecret r
  obtain ⟨h', heq', hiv⟩ := expandIv_eq r.cHsSecret { r with hkdf := h, appWriteKey := h.okm }
  refine ⟨h', h.okm, front12 h'.okm, ?_, hkey, hiv⟩
  unfold expandApWrite
  rw [heq]
  dsimp only
  rw [heq']

theorem expandApRead_eq (r : KeyRam) :
    ∃ h key iv, expandApRead r = { r with hkdf := h, appReadKey := key, appReadIv := iv } ∧
      key.toList = trafficKey sha256 32 r.sHsSecret.toList ∧
      iv.toList = trafficIv sha256 32 r.sHsSecret.toList := by
  obtain ⟨h, heq, hkey⟩ := expandKey_eq r.sHsSecret r
  obtain ⟨h', heq', hiv⟩ := expandIv_eq r.sHsSecret { r with hkdf := h, appReadKey := h.okm }
  refine ⟨h', h.okm, front12 h'.okm, ?_, hkey, hiv⟩
  unfold expandApRead
  rw [heq]
  dsimp only
  rw [heq']

theorem tlsDeriveHandshakeKeys_eq (pqHybrid : Bool) (r : KeyRam) :
    HandshakeKeys (r.ikm pqHybrid) r.transcript.toList (tlsDeriveHandshakeKeys pqHybrid r) := by
  obtain ⟨h₁, buf₁, early, heq₁, hearly⟩ := extractEarly_eq r
  obtain ⟨h₂, salt, heq₂, hsalt⟩ := expandDerived_eq { r with
    hkdf := h₁, inputBuffer := buf₁, earlySecret := early }
  obtain ⟨h₃, buf₃, shared, mlkem, secret, heq₃, hprk, hsecret⟩ := extractHandshake_eq pqHybrid
    { r with hkdf := h₂, inputBuffer := buf₁, earlySecret := early, derivedTmp := salt }
  have hhandshake : secret.toList = handshakeSecret sha256 32 (r.ikm pqHybrid) := by
    rw [hsecret, hsalt, hearly]
    rfl
  obtain ⟨h₄, c, s, heq₄, hc, hs⟩ := deriveHsSecrets_eq { r with
    hkdf := h₃, inputBuffer := buf₃, earlySecret := early, derivedTmp := salt
    sharedSecret := shared, mlkemSs := mlkem, handshakeSecret := secret } hprk
  obtain ⟨h₅, wkey, wiv, heq₅, hwkey, hwiv⟩ := expandHsWrite_eq { r with
    hkdf := h₄, inputBuffer := buf₃, earlySecret := early, derivedTmp := salt
    sharedSecret := shared, mlkemSs := mlkem, handshakeSecret := secret, cHsSecret := c
    sHsSecret := s }
  obtain ⟨h₆, rkey, riv, heq₆, hrkey, hriv⟩ := expandHsRead_eq { r with
    hkdf := h₅, inputBuffer := buf₃, earlySecret := early, derivedTmp := salt
    sharedSecret := shared, mlkemSs := mlkem, handshakeSecret := secret, cHsSecret := c
    sHsSecret := s, hsWriteKey := wkey, hsWriteIv := wiv }
  have hclient : c.toList =
      clientHandshakeSecret sha256 32 (r.ikm pqHybrid) r.transcript.toList := by
    rw [hc, hhandshake]
    rfl
  have hserver : s.toList =
      serverHandshakeSecret sha256 32 (r.ikm pqHybrid) r.transcript.toList := by
    rw [hs, hhandshake]
    rfl
  unfold tlsDeriveHandshakeKeys
  rw [heq₁, heq₂, heq₃, heq₄, heq₅, heq₆]
  exact
    { handshake := hhandshake, client := hclient, server := hserver
      writeKey := by rw [← hclient]; exact hwkey
      writeIv := by rw [← hclient]; exact hwiv
      readKey := by rw [← hserver]; exact hrkey
      readIv := by rw [← hserver]; exact hriv }

theorem tlsDeriveTrafficKeys_eq (r : KeyRam) :
    ApplicationKeys r.handshakeSecret.toList r.transcript.toList (tlsDeriveTrafficKeys r) := by
  obtain ⟨h₁, buf, salt, secret, heq₁, hprk, hsecret⟩ := extractMaster_eq r
  obtain ⟨h₂, c, s, heq₂, hc, hs⟩ := deriveApSecrets_eq { r with
    hkdf := h₁, inputBuffer := buf, derivedTmp := salt, masterSecret := secret } hprk
  obtain ⟨h₃, wkey, wiv, heq₃, hwkey, hwiv⟩ := expandApWrite_eq { r with
    hkdf := h₂, inputBuffer := buf, derivedTmp := salt, masterSecret := secret, cHsSecret := c
    sHsSecret := s }
  obtain ⟨h₄, rkey, riv, heq₄, hrkey, hriv⟩ := expandApRead_eq { r with
    hkdf := h₃, inputBuffer := buf, derivedTmp := salt, masterSecret := secret, cHsSecret := c
    sHsSecret := s, appWriteKey := wkey, appWriteIv := wiv }
  have hclient : c.toList =
      clientTrafficSecret sha256 32 r.handshakeSecret.toList r.transcript.toList := by
    rw [hc, hsecret]
    rfl
  have hserver : s.toList =
      serverTrafficSecret sha256 32 r.handshakeSecret.toList r.transcript.toList := by
    rw [hs, hsecret]
    rfl
  unfold tlsDeriveTrafficKeys
  rw [heq₁, heq₂, heq₃, heq₄]
  exact
    { client := hclient, server := hserver
      writeKey := by rw [← hclient]; exact hwkey
      writeIv := by rw [← hclient]; exact hwiv
      readKey := by rw [← hserver]; exact hrkey
      readIv := by rw [← hserver]; exact hriv }

/-- The MAC of a Finished, on the secret in `hkdf_prk`; the secrets stay. -/
theorem tlsComputeFinished_eq (r : KeyRam) :
    ∃ h key mac, r.tlsComputeFinished =
        { r with hkdf := h, finishedKey := key, verifyData := mac } ∧
      mac.toList = verifyData sha256 32 r.hkdf.prk.toList r.transcript.toList := by
  obtain ⟨h, heq, -, hokm⟩ := expandUnder_eq { r with
    hkdf.labelPtr := .label .finished
    hkdf.labelLen := 8
    hkdf.contextPtr := .emptyContext
    hkdf.contextLen := 0
    hkdf.outLen := 32 } 32 rfl rfl rfl rfl (Nat.zero_le _) rfl (by decide) (Nat.le_refl _)
  have hkey : h.okm.toList =
      expandLabel sha256 32 r.hkdf.prk.toList labels.finished [] 32 := by
    rw [← take_toList, hokm, bytes_label.2.2.2.2.2.2.2]
    rfl
  refine ⟨r.tlsComputeFinished.hkdf, r.tlsComputeFinished.finishedKey,
    r.tlsComputeFinished.verifyData, ?_, ?_⟩
  · unfold KeyRam.tlsComputeFinished
    dsimp only
    rw [heq]
  · unfold KeyRam.tlsComputeFinished
    dsimp only
    rw [heq, toList_front, bytes_hmacSha256 _ (by dsimp only; decide)]
    dsimp only
    have hlen : (32 : UInt8).toNat = 32 := rfl
    rw [hlen, bytesAt_store_of_length _ _ (length_toList_32 _),
      bytesAt_store_of_length _ _ (length_toList_32 _), hkey]
    rfl

end Schedule

attribute [irreducible] tlsDeriveHandshakeKeys tlsDeriveTrafficKeys KeyRam.tlsComputeFinished

end Tls
end C64Https
