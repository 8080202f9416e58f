import C64Https.Tls.RecordProtect

/-!
# AppData — what an application record holds (`src/tls13.s`)

`tls_send` copies the caller's bytes into the record buffer under an 8-bit index that it compares
with the low byte of their number, and hands the record layer all of their number: from 256 bytes on
the rest of the text is what the buffer held before (`sendsExactly_iff`).
-/

namespace C64Https
namespace Tls

open Word Loop Bytes Crypto

variable {κ : Type} {P : Primitives} {sendOk : Nat → Bool} {pqHybrid : Bool}

/-- The program over the envelope of `aead.s`. -/
def ConnEnv.onPrimitives (E : ConnEnv κ) (P : Primitives) (sendOk : Nat → Bool)
    (pqHybrid : Bool) : ConnEnv κ :=
  { E with toRecordEnv := .ofPrimitives P sendOk pqHybrid }

/-- The record buffer behind the copy loop. -/
def copiedBuf (c : Conn κ) (data : List UInt8) : Buffer :=
  store c.hs.recBuf 0 (data.take (data.length % 256))

/-- What `tls_send` hands to the record layer. -/
def Conn.filled (c : Conn κ) (data : List UInt8) : Conn κ :=
  { c.withRecord (copiedBuf c data) data.length with recType := ctApplication }

/-- The text of an application record: the bytes, and the content type behind them. -/
def appText (data : List UInt8) : List UInt8 :=
  data ++ [ctApplication]

/-- The outer header of an application record. -/
def appHeader (data : List UInt8) : List UInt8 :=
  [ctApplication, 3, 3, hi (data.length + 17), lo (data.length + 17)]

/-- Ciphertext and tag of the bytes. -/
def appSealed (P : Primitives) (c : Conn κ) (data : List UInt8) : List UInt8 :=
  let r := aeadEncrypt P (tlsSelectKeys c .write).key (tlsBuildNonce c .write) (appHeader data)
    (appText data)
  r.1 ++ r.2

/-- One record goes out, its header first, and it holds the bytes and nothing else. -/
def SendsExactly (E : ConnEnv κ) (P : Primitives) (c : Conn κ) (data : List UInt8) : Prop :=
  (tlsRecordEncrypt E.toRecordEnv (c.filled data)).record = appSealed P c data ∧
    (tlsSend E data c).1.sent = c.sent ++ appHeader data ::
      (if E.sendOk c.sent.length then
        [(tlsRecordEncrypt E.toRecordEnv (c.filled data)).record] else [])

/-! ## What is sealed -/

/-- What the copy loop leaves out is in the buffer already; at 512 bytes, where the content type is
written at offset 256, that byte and the one behind the text are the type. -/
def BufferAgrees (c : Conn κ) (data : List UInt8) : Prop :=
  data.length < 256 ∨
    (data.length < 512 ∧
      ∀ i, data.length - 256 ≤ i → i < data.length → c.hs.recBuf i = data.getD i 0) ∨
    (data.length = 512 ∧ (∀ i < 512, i ≠ 256 → c.hs.recBuf i = data.getD i 0) ∧
      data.getD 256 0 = ctApplication ∧ c.hs.recBuf 512 = ctApplication)

theorem copiedBuf_eq (c : Conn κ) (data : List UInt8) (i : Nat) :
    copiedBuf c data i = if i < data.length % 256 then data.getD i 0 else c.hs.recBuf i := by
  have hle : data.length % 256 ≤ data.length := Nat.mod_le _ _
  unfold copiedBuf store
  rw [List.length_take_of_le hle, Nat.zero_add, Nat.sub_zero]
  by_cases hi : i < data.length % 256
  · rw [if_pos ⟨Nat.zero_le i, hi⟩, if_pos hi]
    simp only [List.getD_eq_getElem?_getD, List.getElem?_take, if_pos hi]
  · rw [if_neg (fun h => hi h.2), if_neg hi]

/-- The text and the type, byte by byte. -/
theorem innerText_filled_iff (c : Conn κ) (data : List UInt8) :
    innerText (c.filled data) = appText data ↔
      (∀ i < data.length, typed (c.filled data) i = data.getD i 0) ∧
        typed (c.filled data) data.length = ctApplication := by
  have hlen : (c.filled data).hs.recLen = data.length := rfl
  unfold innerText appText
  rw [hlen, bytesAt_eq_iff, List.length_append, List.length_singleton]
  constructor
  · rintro ⟨-, hall⟩
    constructor
    · intro i hi
      have h := hall i (Nat.lt_succ_of_lt hi)
      rw [Nat.zero_add, List.getD_append _ _ _ _ hi] at h
      exact h
    · have h := hall data.length (Nat.lt_succ_self _)
      rw [Nat.zero_add, List.getD_append_right _ _ _ _ (le_refl _), Nat.sub_self] at h
      exact h
  · rintro ⟨htext, htype⟩
    refine ⟨rfl, ?_⟩
    intro i hi
    rw [Nat.zero_add]
    rcases Nat.lt_or_ge i data.length with hlt | hge
    · rw [List.getD_append _ _ _ _ hlt]
      exact htext i hlt
    · have hi' : i = data.length := by
        omega
      rw [List.getD_append_right _ _ _ _ hge, hi', Nat.sub_self]
      exact htype

theorem innerText_iff {c : Conn κ} {data : List UInt8} (hlen : data.length ≤ 512) :
    innerText (c.filled data) = appText data ↔ BufferAgrees c data := by
  have htyped : ∀ i, typed (c.filled data) i =
      if i = innerTypeAt data.length then ctApplication else copiedBuf c data i := by
    intro i
    unfold typed
    exact Function.update_apply _ _ _ _
  rw [innerText_filled_iff]
  simp only [htyped]
  unfold BufferAgrees
  rcases Nat.lt_or_ge data.length 256 with hshort | hlong
  · -- every byte is copied, and the type goes behind them
    have hat : innerTypeAt data.length = data.length := by
      unfold innerTypeAt
      rw [if_pos (Nat.div_eq_of_lt hshort)]
    rw [hat]
    refine ⟨fun _ => Or.inl hshort, fun _ => ⟨?_, if_pos rfl⟩⟩
    intro i hi
    rw [if_neg (Nat.ne_of_lt hi), copiedBuf_eq, Nat.mod_eq_of_lt hshort, if_pos hi]
  rcases Nat.lt_or_ge data.length 512 with hmid | hfull
  · have hmod : data.length % 256 = data.length - 256 := by
      omega
    have hat : innerTypeAt data.length = data.length := by
      unfold innerTypeAt
      rw [if_neg (by omega)]
      omega
    rw [hat]
    constructor
    · rintro ⟨hall, -⟩
      refine Or.inr (Or.inl ⟨hmid, ?_⟩)
      intro i hge hlt
      have h := hall i hlt
      rw [if_neg (Nat.ne_of_lt hlt), copiedBuf_eq, hmod, if_neg (Nat.not_lt_of_le hge)] at h
      exact h
    · rintro (hbad | ⟨-, hall⟩ | ⟨hbad, -⟩)
      · omega
      · refine ⟨?_, if_pos rfl⟩
        intro i hi
        rw [if_neg (Nat.ne_of_lt hi), copiedBuf_eq, hmod]
        split
        case isTrue => rfl
        case isFalse hge => exact hall i (Nat.le_of_not_lt hge) hi
      · omega
  · -- nothing is copied
    have hn : data.length = 512 := Nat.le_antisymm hlen hfull
    have hat : innerTypeAt 512 = 256 := rfl
    have hbuf : ∀ i, copiedBuf c data i = c.hs.recBuf i := by
      intro i
      rw [copiedBuf_eq, hn, if_neg (Nat.not_lt_zero i)]
    simp only [hbuf, hn, hat]
    constructor
    · rintro ⟨hall, htype⟩
      refine Or.inr (Or.inr ⟨trivial, ?_, ?_, ?_⟩)
      · intro i hi hne
        have h := hall i hi
        rw [if_neg hne] at h
        exact h
      · have h := hall 256 (by decide)
        rw [if_pos rfl] at h
        exact h.symm
      · rw [if_neg (by decide)] at htype
        exact htype
    · rintro (hbad | ⟨hbad, -⟩ | ⟨-, hall, h256, h512⟩)
      · omega
      · omega
      · refine ⟨?_, ?_⟩
        · intro i hi
          by_cases hne : i = 256
          · rw [if_pos hne, hne, h256]
          · rw [if_neg hne]
            exact hall i hi hne
        · rw [if_neg (by decide)]
          exact h512

/-! ## What goes out -/

variable {E : ConnEnv κ}

theorem tlsSend_sent (E : ConnEnv κ) (c : Conn κ) (data : List UInt8) :
    (tlsSend E data c).1.sent = c.sent ++
      bytesAt (tlsRecordEncrypt E.toRecordEnv (c.filled data)).recHdr 0 5 ::
        (if E.sendOk c.sent.length then
          [(tlsRecordEncrypt E.toRecordEnv (c.filled data)).record] else []) := by
  have hsent : (tlsRecordEncrypt E.toRecordEnv (c.filled data)).sent = c.sent := rfl
  show (tlsSendRecord E.toRecordEnv (tlsRecordEncrypt E.toRecordEnv (c.filled data))).1.sent = _
  generalize tlsRecordEncrypt E.toRecordEnv (c.filled data) = d at hsent ⊢
  unfold tlsSendRecord netTcpSend Conn.record
  rw [hsent]
  dsimp only
  cases E.sendOk c.sent.length with
  | true => simp
  | false => simp

theorem bytesAt_sealedHeader (c : Conn κ) (data : List UInt8) :
    bytesAt (sealedHeader (c.filled data)) 0 5 = appHeader data :=
  bytesAt_ofList (appHeader data) _

/-- The ciphertext tells the text. -/
theorem record_eq_iff {c : Conn κ} {data : List UInt8} (hlen : data.length ≤ 512) :
    (tlsRecordEncrypt (.ofPrimitives P sendOk pqHybrid) (c.filled data)).record =
        appSealed P c data ↔
      innerText (c.filled data) = appText data := by
  obtain ⟨-, hrec, hbuf⟩ := @tlsRecordEncrypt_eq κ P sendOk pqHybrid (c.filled data) hlen
  obtain ⟨hct, htag⟩ := length_sealedText P (c.filled data)
  have hrecord : (tlsRecordEncrypt (.ofPrimitives P sendOk pqHybrid) (c.filled data)).record =
      (sealedText P (c.filled data)).1 ++ (sealedText P (c.filled data)).2 := by
    have hself := bytesAt_store_self (typed (c.filled data)) 0
      ((sealedText P (c.filled data)).1 ++ (sealedText P (c.filled data)).2)
    rw [List.length_append, hct, htag] at hself
    unfold Conn.record
    rw [hrec, hbuf]
    exact hself
  have hsealed : sealedText P (c.filled data) = aeadEncrypt P (tlsSelectKeys c .write).key
      (tlsBuildNonce c .write) (appHeader data) (innerText (c.filled data)) := by
    unfold sealedText
    rw [bytesAt_sealedHeader]
    rfl
  rw [hrecord]
  constructor
  · intro h
    have hlengths : (innerText (c.filled data)).length = (appText data).length := by
      rw [length_innerText]
      unfold appText
      rw [List.length_append, List.length_singleton]
      rfl
    -- the two ciphertexts have the same length, and the cipher is its own inverse
    have hcipher := List.append_inj_left h (by
      rw [hsealed]
      unfold aeadEncrypt
      rw [length_chacha20Encrypt, length_chacha20Encrypt, hlengths])
    rw [hsealed] at hcipher
    have hplain := congrArg
      (chacha20Encrypt P (tlsSelectKeys c .write).key (tlsBuildNonce c .write) 1) hcipher
    unfold aeadEncrypt at hplain
    rw [chacha20Encrypt_chacha20Encrypt, chacha20Encrypt_chacha20Encrypt] at hplain
    exact hplain
  · intro h
    rw [hsealed, h]
    rfl

/-- One record goes out with the bytes in it and nothing else if and only if there are less than 256
of them, or the buffer agrees with what is not copied. -/
theorem sendsExactly_iff (E : ConnEnv κ) (P : Primitives) (sendOk : Nat → Bool) (pqHybrid : Bool)
    (c : Conn κ) {data : List UInt8} (hlen : data.length ≤ 512) :
    SendsExactly (E.onPrimitives P sendOk pqHybrid) P c data ↔ BufferAgrees c data := by
  have hsent := tlsSend_sent (E.onPrimitives P sendOk pqHybrid) c data
  have hhdr : bytesAt (tlsRecordEncrypt (.ofPrimitives P sendOk pqHybrid) (c.filled data)).recHdr
      0 5 = appHeader data := by
    rw [(@tlsRecordEncrypt_eq κ P sendOk pqHybrid (c.filled data) hlen).1, bytesAt_sealedHeader]
  unfold SendsExactly
  rw [← innerText_iff hlen, ← @record_eq_iff κ P sendOk pqHybrid c data hlen]
  constructor
  · exact fun h => h.1
  · intro h
    refine ⟨h, ?_⟩
    rw [hsent]
    show c.sent ++ bytesAt (tlsRecordEncrypt (.ofPrimitives P sendOk pqHybrid)
      (c.filled data)).recHdr 0 5 :: _ = _
    rw [hhdr]

theorem sendsExactly_iff_two :
    SendsExactly (ConnEnv.accepting.onPrimitives .sample (fun _ => true) false) .sample
        (.looped [] 0) [1, 2] ↔
      BufferAgrees (.looped [] 0) [1, 2] :=
  sendsExactly_iff _ _ _ _ _ (by decide)

/-- Of 256 ones none is copied into a buffer of zeros. -/
theorem not_sendsExactly :
    ¬ SendsExactly (ConnEnv.accepting.onPrimitives .sample (fun _ => true) false) .sample
      (.looped [] 0) (List.replicate 256 1) := by
  have hlen : (List.replicate 256 (1 : UInt8)).length = 256 := List.length_replicate
  rintro ⟨hrecord, -⟩
  have htext := (@record_eq_iff Unit .sample (fun _ => true) false (.looped [] 0)
    (List.replicate 256 1) (by rw [hlen]; decide)).1 hrecord
  rcases (innerText_iff (by rw [hlen]; decide)).1 htext with hbad | ⟨-, hall⟩ | ⟨hbad, -⟩
  · rw [hlen] at hbad
    exact absurd hbad (by decide)
  · have hzero := hall 0 (by rw [hlen]) (by rw [hlen]; decide)
    rw [looped_recBuf, store_nil, List.getD_replicate _ (by decide)] at hzero
    exact absurd hzero (by decide)
  · rw [hlen] at hbad
    exact absurd hbad (by decide)

end Tls
end C64Https
