import C64Https.Crypto.Aead
import C64Https.Tls.Connect
import C64Https.Tls.RecordSpec

/-!
# RecordProtect — sealing and opening a record

The record layer over the envelope of `aead.s`.  Opening inverts sealing exactly where the inner
content type lands behind the text (`restores_iff`): `tls_record_encrypt` has one branch for all
offsets from 256 on, and it adds only the low byte of the length.
-/

namespace C64Https
namespace Tls

open Word Loop Bytes Crypto

variable {κ : Type} {P : Primitives} {sendOk : Nat → Bool} {pqHybrid : Bool}

/-- The record layer over `aead.s`. -/
def RecordEnv.ofPrimitives (P : Primitives) (sendOk : Nat → Bool) (pqHybrid : Bool) : RecordEnv where
  aeadEncrypt := Crypto.aeadEncrypt P
  aeadDecrypt := Crypto.aeadDecrypt P
  sendOk := sendOk
  pqHybrid := pqHybrid

theorem ofPrimitives_aeadDecrypt :
    (RecordEnv.ofPrimitives P sendOk pqHybrid).aeadDecrypt = Crypto.aeadDecrypt P :=
  rfl

/-! ## The scan over the padding -/

theorem innerScan_eq_some {buf : Buffer} {n : Nat} {ty : UInt8} {i : Nat} :
    innerScan buf n = some (ty, i) ↔
      ty ≠ 0 ∧ i < n ∧ buf i = ty ∧ ∀ j, i < j → j < n → buf j = 0 := by
  induction n with
  | zero =>
      constructor
      · intro h
        cases h
      · rintro ⟨-, h, -⟩
        omega
  | succ n ih =>
      unfold innerScan
      by_cases hz : buf n = 0
      · rw [if_pos hz, ih]
        constructor
        · rintro ⟨hty, hi, hb, hpad⟩
          refine ⟨hty, by omega, hb, ?_⟩
          intro j hij hj
          rcases Nat.lt_or_ge j n with hlt | hge
          · exact hpad j hij hlt
          · rw [show j = n by omega]
            exact hz
        · rintro ⟨hty, hi, hb, hpad⟩
          have hne : i ≠ n := by
            rintro rfl
            exact hty (hb.symm.trans hz)
          exact ⟨hty, by omega, hb, fun j hij hj => hpad j hij (by omega)⟩
      · rw [if_neg hz, Option.some.injEq, Prod.mk.injEq]
        constructor
        · rintro ⟨rfl, rfl⟩
          exact ⟨hz, Nat.lt_succ_self _, rfl, fun j hij hj => absurd hj (by omega)⟩
        · rintro ⟨-, hi, hb, hpad⟩
          have heq : i = n := by
            by_contra hne
            exact hz (hpad n (by omega) (Nat.lt_succ_self _))
          rw [heq] at hb
          exact ⟨hb, heq.symm⟩

theorem innerScan_eq_none {buf : Buffer} {n : Nat} :
    innerScan buf n = none ↔ ∀ j < n, buf j = 0 := by
  induction n with
  | zero => exact ⟨fun _ j hj => absurd hj (Nat.not_lt_zero j), fun _ => rfl⟩
  | succ n ih =>
      unfold innerScan
      by_cases hz : buf n = 0
      · rw [if_pos hz, ih]
        constructor
        · intro h j hj
          rcases Nat.lt_succ_iff_lt_or_eq.1 hj with hlt | rfl
          · exact h j hlt
          · exact hz
        · intro h j hj
          exact h j (Nat.lt_succ_of_lt hj)
      · rw [if_neg hz]
        exact ⟨fun h => (by cases h), fun h => absurd (h n (Nat.lt_succ_self n)) hz⟩

/-- A buffer up to the end of the padding: content, type, zeros. -/
theorem bytesAt_of_innerScan {buf : Buffer} {n : Nat} {ty : UInt8} {i : Nat}
    (h : innerScan buf n = some (ty, i)) :
    bytesAt buf 0 n = bytesAt buf 0 i ++ ty :: List.replicate (n - i - 1) 0 := by
  obtain ⟨-, hi, hb, hpad⟩ := innerScan_eq_some.1 h
  obtain ⟨d, rfl⟩ := Nat.exists_eq_add_of_lt hi
  have hzeros : bytesAt buf (i + 1) d = List.replicate d 0 := by
    rw [bytesAt_eq_iff]
    refine ⟨List.length_replicate, ?_⟩
    intro j hj
    rw [hpad (i + 1 + j) (by omega) (by omega)]
    simp
  calc
    bytesAt buf 0 (i + d + 1)
        = bytesAt buf 0 (i + (d + 1)) := by rw [Nat.add_assoc]
    _ = bytesAt buf 0 i ++ bytesAt buf (0 + i) (d + 1) := bytesAt_add buf 0 i (d + 1)
    _ = bytesAt buf 0 i ++ ty :: List.replicate d 0 := by
          rw [Nat.zero_add, bytesAt_succ, hb, hzeros]
    _ = bytesAt buf 0 i ++ ty :: List.replicate (i + d + 1 - i - 1) 0 := by
          rw [show i + d + 1 - i - 1 = d by omega]

/-! ## Opening -/

/-- The ciphertext of the current record, without its tag. -/
def Conn.ciphertext (c : Conn κ) : List UInt8 :=
  bytesAt c.hs.recBuf 0 (c.hs.recLen - 16)

/-- The tag of the current record is the one computed under the read key. -/
def TagVerifies (P : Primitives) (c : Conn κ) : Prop :=
  aeadComputeTag P (aeadDeriveOtk P (tlsSelectKeys c .read).key (tlsBuildNonce c .read))
    (bytesAt c.recHdr 0 5) c.ciphertext = bytesAt c.hs.recBuf (c.hs.recLen - 16) 16

/-- What the current record decrypts to: content, inner type, padding. -/
def innerPlaintext (P : Primitives) (c : Conn κ) : List UInt8 :=
  chacha20Encrypt P (tlsSelectKeys c .read).key (tlsBuildNonce c .read) 1 c.ciphertext

theorem length_ciphertext (c : Conn κ) : c.ciphertext.length = c.hs.recLen - 16 :=
  length_bytesAt _ _ _

theorem length_innerPlaintext (P : Primitives) (c : Conn κ) :
    (innerPlaintext P c).length = c.hs.recLen - 16 := by
  unfold innerPlaintext
  rw [length_chacha20Encrypt, length_ciphertext]

/-- The record as it was opened: the type is the last non-zero byte, the content what precedes it. -/
structure Opened (P : Primitives) (c c' : Conn κ) : Prop where
  padded : ∃ k, innerPlaintext P c = c'.record ++ c'.recType :: List.replicate k 0
  type_ne : c'.recType ≠ 0
  readSeq_eq : c'.readSeq = tlsSeqIncrement c.readSeq

/-- The record is as it was received, and counts for nothing. -/
structure Untouched (c c' : Conn κ) : Prop where
  recBuf_eq : c'.hs.recBuf = c.hs.recBuf
  readSeq_eq : c'.readSeq = c.readSeq

/-- The buffer after the second pass. -/
def decrypted (P : Primitives) (c : Conn κ) : Buffer :=
  store c.hs.recBuf 0 (innerPlaintext P c)

theorem bytesAt_decrypted (P : Primitives) (c : Conn κ) :
    bytesAt (decrypted P c) 0 (c.hs.recLen - 16) = innerPlaintext P c := by
  have h := bytesAt_store_self c.hs.recBuf 0 (innerPlaintext P c)
  rw [length_innerPlaintext] at h
  exact h

/-- The scan finds a type exactly if the plaintext is not all padding. -/
theorem innerScan_decrypted_none (P : Primitives) (c : Conn κ) :
    innerScan (decrypted P c) (c.hs.recLen - 16) = none ↔ ∀ b ∈ innerPlaintext P c, b = 0 := by
  rw [innerScan_eq_none, ← bytesAt_decrypted]
  constructor
  · intro h b hb
    obtain ⟨j, hj, rfl⟩ := List.mem_map.1 hb
    rw [Nat.zero_add]
    exact h j (List.mem_range.1 hj)
  · intro h j hj
    refine h _ (List.mem_map.2 ⟨j, List.mem_range.2 hj, ?_⟩)
    rw [Nat.zero_add]

/-- The exits of `tls_record_decrypt`, on a record that has room for a tag. -/
inductive Exits (P : Primitives) (c : Conn κ) : Conn κ × Bool → Prop where
  | mismatch (h : ¬ TagVerifies P c) :
      Exits P c ({ c with uses := c.uses ++ [c.use .read false] }, false)
  | padding (h : TagVerifies P c) (hzero : ∀ b ∈ innerPlaintext P c, b = 0) :
      Exits P c ({ c.withRecord (decrypted P c) c.hs.recLen with
        uses := c.uses ++ [c.use .read false] }, false)
  | opened (h : TagVerifies P c) (ty : UInt8) (n : Nat)
      (hscan : innerScan (decrypted P c) (c.hs.recLen - 16) = some (ty, n)) :
      Exits P c ({ c.withRecord (decrypted P c) n with
        recType := ty
        readSeq := tlsSeqIncrement c.readSeq
        uses := c.uses ++ [c.use .read true] }, true)

theorem tlsRecordDecrypt_exits (c : Conn κ) (h16 : 16 ≤ c.hs.recLen) (hlen : c.hs.recLen < 65536) :
    Exits P c (tlsRecordDecrypt (.ofPrimitives P sendOk pqHybrid) c) := by
  rw [tlsRecordDecrypt_eq, sub16_of_le h16 hlen]
  have htag : (bytesAt c.hs.recBuf (c.hs.recLen - 16) 16).length = 16 := length_bytesAt _ _ _
  by_cases hverifies : TagVerifies P c
  · have hsome : answer (.ofPrimitives P sendOk pqHybrid) c (c.hs.recLen - 16) =
        some (innerPlaintext P c) := (aeadDecrypt_eq_some htag).2 ⟨hverifies, rfl⟩
    cases hscan : innerScan (decrypted P c) (c.hs.recLen - 16) with
    | none =>
        rw [decryptAt_padding hsome hscan]
        exact .padding hverifies ((innerScan_decrypted_none P c).1 hscan)
    | some found =>
        rw [decryptAt_some hsome hscan]
        exact .opened hverifies found.1 found.2 hscan
  · have hnone : answer (.ofPrimitives P sendOk pqHybrid) c (c.hs.recLen - 16) = none :=
      (aeadDecrypt_eq_none htag).2 hverifies
    rw [decryptAt_none hnone]
    exact .mismatch hverifies

/-! ## When a record is opened -/

/-- Longer than its tag, the tag right, and not zeros throughout. -/
def Opens (P : Primitives) (c : Conn κ) : Prop :=
  16 < c.hs.recLen ∧ TagVerifies P c ∧ ∃ b ∈ innerPlaintext P c, b ≠ 0

/-- Content, type and counter of a record that was opened. -/
theorem opened_of_scan {c : Conn κ} {ty : UInt8} {n : Nat} {uses : List AeadUse}
    (hscan : innerScan (decrypted P c) (c.hs.recLen - 16) = some (ty, n)) :
    Opened P c { c.withRecord (decrypted P c) n with
      recType := ty, readSeq := tlsSeqIncrement c.readSeq, uses := uses } := by
  have htext := bytesAt_of_innerScan hscan
  rw [bytesAt_decrypted] at htext
  exact ⟨⟨_, htext⟩, (innerScan_eq_some.1 hscan).1, rfl⟩

theorem tlsRecordDecrypt_ok (c : Conn κ) (h16 : 16 ≤ c.hs.recLen) (hlen : c.hs.recLen < 65536) :
    ((tlsRecordDecrypt (.ofPrimitives P sendOk pqHybrid) c).2 = true ↔ Opens P c) ∧
      (Opens P c → Opened P c (tlsRecordDecrypt (.ofPrimitives P sendOk pqHybrid) c).1) ∧
        (¬ TagVerifies P c →
          Untouched c (tlsRecordDecrypt (.ofPrimitives P sendOk pqHybrid) c).1) ∧
          (¬ Opens P c → (tlsRecordDecrypt (.ofPrimitives P sendOk pqHybrid) c).1.readSeq =
            c.readSeq) := by
  have hexits : Exits P c (tlsRecordDecrypt (.ofPrimitives P sendOk pqHybrid) c) :=
    tlsRecordDecrypt_exits c h16 hlen
  generalize tlsRecordDecrypt (.ofPrimitives P sendOk pqHybrid) c = r at hexits
  cases hexits with
  | mismatch h =>
      exact ⟨⟨fun hc => (by cases hc), fun ho => absurd ho.2.1 h⟩, fun ho => absurd ho.2.1 h,
        fun _ => ⟨rfl, rfl⟩, fun _ => rfl⟩
  | padding h hzero =>
      have hno : ¬ Opens P c := by
        rintro ⟨-, -, b, hb, hne⟩
        exact hne (hzero b hb)
      exact ⟨⟨fun hc => (by cases hc), fun ho => absurd ho hno⟩, fun ho => absurd ho hno,
        fun hv => absurd h hv, fun _ => rfl⟩
  | opened h ty n hscan =>
      obtain ⟨hty, hn, -, -⟩ := innerScan_eq_some.1 hscan
      have hopened : Opened P c { c.withRecord (decrypted P c) n with
          recType := ty
          readSeq := tlsSeqIncrement c.readSeq
          uses := c.uses ++ [c.use .read true] } :=
        opened_of_scan hscan
      have hmem : ty ∈ innerPlaintext P c := by
        rcases hopened.padded with ⟨k, hk⟩
        rw [hk]
        simp
      have ho : Opens P c := ⟨by omega, h, ty, hmem, hty⟩
      exact ⟨⟨fun _ => ho, fun _ => rfl⟩, fun _ => hopened, fun hv => absurd h hv,
        fun hno => absurd ho hno⟩

/-- A record that cannot hold a tag and a type does not reach the AEAD. -/
theorem tlsRecDecryptChk_short (R : RecordEnv) {c : Conn κ} (h : c.hs.recLen ≤ 16) :
    tlsRecDecryptChk R c = (tlsRecFrameFail R c, false) := by
  unfold tlsRecDecryptChk
  rw [if_pos ⟨by omega, h⟩]

theorem tlsRecDecryptChk_long (R : RecordEnv) {c : Conn κ} (h : 16 < c.hs.recLen) :
    tlsRecDecryptChk R c = tlsRecordDecrypt R c := by
  unfold tlsRecDecryptChk
  rw [if_neg (by omega)]

theorem tlsRecFrameFail_untouched (R : RecordEnv) (c : Conn κ) :
    Untouched c (tlsRecFrameFail R c) := by
  refine ⟨?_, (tlsRecFrameFail_spec R c).readSeq_eq⟩
  unfold tlsRecFrameFail
  dsimp only
  generalize (if R.pqHybrid = true then TlsState.serverHello else TlsState.encryptedExt) = fatal
  split <;> rfl

theorem tlsRecAuthFail_untouched (c : Conn κ) : Untouched c (tlsRecAuthFail c) := by
  unfold tlsRecAuthFail
  split
  · exact ⟨rfl, rfl⟩
  · exact ⟨rfl, rfl⟩

/-- A ChangeCipherSpec record was read over. -/
def Skips (R : RecordEnv) (c c' : Conn κ) : Prop :=
  recvDecryptTurn R c = .again c'

/-- The caller of a record that is not opened. -/
theorem recv_of_refused (R : RecordEnv) {c₀ c₁ c : Conn κ}
    (hskips : Relation.ReflTransGen (Skips R) c₀ c₁) (hrec : tlsRecvRecord R c₁ = (c, true))
    (henc : TlsState.encryptedExt.code ≤ c.hs.tlsState.code) (hty : c.recType = ctApplication)
    (hno : (tlsRecDecryptChk R c).2 = false) :
    tlsRecordRecvAndDecrypt R c₀ = some (tlsRecAuthFail (tlsRecDecryptChk R c).1, false) := by
  have hgot : recordGot R c = (tlsRecAuthFail (tlsRecDecryptChk R c).1, false) := by
    unfold recordGot
    rw [if_neg (by omega), if_neg (by rw [hty]; simp)]
    dsimp only
    rw [hno, if_neg (by simp)]
  have hturn : recvDecryptTurn R c₁ = .leave (recordGot R c) := by
    unfold recvDecryptTurn
    rw [hrec]
    dsimp only
    rw [if_neg (by simp), if_neg (by rw [hty]; decide)]
  rw [hgot] at hturn
  rcases loop_of_chain hskips hturn with ⟨n, hn⟩
  rcases recv_total R c₀ with ⟨r, hr⟩
  rw [hr, loop_unique hr hn]

/-- A protected record is opened exactly if it is longer than its tag, the tag verifies and the
plaintext has a byte that is not zero; else it fails closed, in the caller too. -/
theorem tlsRecordDecrypt_verdict (P : Primitives) (sendOk : Nat → Bool) (pqHybrid : Bool)
    (c : Conn κ) (hlen : c.hs.recLen < 65536) :
    ((tlsRecDecryptChk (.ofPrimitives P sendOk pqHybrid) c).2 = true ↔ Opens P c) ∧
    (16 ≤ c.hs.recLen →
      ((tlsRecordDecrypt (.ofPrimitives P sendOk pqHybrid) c).2 = true ↔ Opens P c)) ∧
    (Opens P c → Opened P c (tlsRecDecryptChk (.ofPrimitives P sendOk pqHybrid) c).1) ∧
    (c.hs.recLen ≤ 16 ∨ ¬ TagVerifies P c →
      Untouched c (tlsRecDecryptChk (.ofPrimitives P sendOk pqHybrid) c).1) ∧
    (¬ Opens P c → ∀ c₀ c₁ : Conn κ,
      Relation.ReflTransGen (Skips (.ofPrimitives P sendOk pqHybrid)) c₀ c₁ →
      tlsRecvRecord (.ofPrimitives P sendOk pqHybrid) c₁ = (c, true) →
      TlsState.encryptedExt.code ≤ c.hs.tlsState.code → c.recType = ctApplication →
      ∃ c', tlsRecordRecvAndDecrypt (.ofPrimitives P sendOk pqHybrid) c₀ = some (c', false) ∧
        c'.hs.tlsState = .error ∧ c'.readSeq = c.readSeq ∧
          (c.hs.recLen ≤ 16 ∨ ¬ TagVerifies P c → Untouched c c')) := by
  set R : RecordEnv := .ofPrimitives P sendOk pqHybrid with hR
  rcases Nat.lt_or_ge 16 c.hs.recLen with hlong | hshort
  · have hchk := tlsRecDecryptChk_long R hlong
    have hverdict := @tlsRecordDecrypt_ok κ P sendOk pqHybrid c (by omega) hlen
    rw [← hR] at hverdict
    obtain ⟨hok, hopened, huntouched, hseq⟩ := hverdict
    have hbad : c.hs.recLen ≤ 16 ∨ ¬ TagVerifies P c → Untouched c (tlsRecordDecrypt R c).1 := by
      rintro (hle | hv)
      · omega
      · exact huntouched hv
    rw [hchk]
    refine ⟨hok, fun _ => hok, hopened, hbad, ?_⟩
    intro hno c₀ c₁ hskips hrec henc hty
    have hfalse : (tlsRecDecryptChk R c).2 = false := by
      rw [hchk]
      exact Bool.eq_false_of_not_eq_true fun h => hno (hok.1 h)
    have hrun := recv_of_refused R hskips hrec henc hty hfalse
    rw [hchk] at hrun
    have hauth := tlsRecAuthFail_untouched (tlsRecordDecrypt R c).1
    refine ⟨_, hrun, (tlsRecAuthFail_spec _).2.1, hauth.readSeq_eq.trans (hseq hno), ?_⟩
    intro hrej
    exact ⟨hauth.recBuf_eq.trans (hbad hrej).recBuf_eq, hauth.readSeq_eq.trans (hseq hno)⟩
  · have hchk := tlsRecDecryptChk_short R hshort
    have hno : ¬ Opens P c := fun ho => absurd ho.1 (by omega)
    have hframe := tlsRecFrameFail_untouched R c
    rw [hchk]
    refine ⟨⟨fun h => (by cases h), fun ho => absurd ho hno⟩, ?_, fun ho => absurd ho hno,
      fun _ => hframe, ?_⟩
    · -- a record of the tag alone: there is no byte to find
      intro h16
      exact (tlsRecordDecrypt_ok c h16 hlen).1
    · intro _ c₀ c₁ hskips hrec henc hty
      have hrun := recv_of_refused R hskips hrec henc hty (by rw [hchk])
      rw [hchk] at hrun
      have hauth := tlsRecAuthFail_untouched (tlsRecFrameFail R c)
      have hboth : Untouched c (tlsRecAuthFail (tlsRecFrameFail R c)) :=
        ⟨hauth.recBuf_eq.trans hframe.recBuf_eq, hauth.readSeq_eq.trans hframe.readSeq_eq⟩
      exact ⟨_, hrun, (tlsRecAuthFail_spec _).2.1, hboth.readSeq_eq, fun _ => hboth⟩

/-- A connection whose two directions have one key, with `bs` in the record buffer. -/
def Conn.looped (bs : List UInt8) (ty : UInt8) : Conn Unit :=
  { ((Conn.blank []).setState .connected).withRecord (ofList bs fun _ => 0) bs.length with
    recType := ty
    appKeys := { write := TrafficKeys.sample 5 |>.write, read := TrafficKeys.sample 5 |>.write } }

/-- Two bytes, sealed. -/
def sampleSealed : Conn Unit :=
  tlsRecordEncrypt (.ofPrimitives .sample (fun _ => true) false) (.looped [1, 0] ctApplication)

theorem tlsRecordDecrypt_verdict_sealed :
    (tlsRecDecryptChk (.ofPrimitives .sample (fun _ => true) false) sampleSealed).2 = true ∧
      Opens .sample sampleSealed := by
  have hok : (tlsRecDecryptChk (.ofPrimitives .sample (fun _ => true) false) sampleSealed).2 =
      true := by
    decide +kernel
  exact ⟨hok, (tlsRecordDecrypt_verdict .sample (fun _ => true) false sampleSealed
    (by decide +kernel)).1.1 hok⟩

/-! ## Sealing, and opening what was sealed -/

/-- The buffer with the inner content type in it. -/
def typed (c : Conn κ) : Buffer :=
  Function.update c.hs.recBuf (innerTypeAt c.hs.recLen) c.recType

/-- What `tls_record_encrypt` seals. -/
def innerText (c : Conn κ) : List UInt8 :=
  bytesAt (typed c) 0 (c.hs.recLen + 1)

theorem length_innerText (c : Conn κ) : (innerText c).length = c.hs.recLen + 1 :=
  length_bytesAt _ _ _

/-- The header that is sealed with the text. -/
def sealedHeader (c : Conn κ) : Buffer :=
  recordHeader ctApplication (c.hs.recLen + 17) c.recHdr

/-- Ciphertext and tag. -/
def sealedText (P : Primitives) (c : Conn κ) : List UInt8 × List UInt8 :=
  aeadEncrypt P (tlsSelectKeys c .write).key (tlsBuildNonce c .write)
    (bytesAt (sealedHeader c) 0 5) (innerText c)

theorem length_sealedText (P : Primitives) (c : Conn κ) :
    (sealedText P c).1.length = c.hs.recLen + 1 ∧ (sealedText P c).2.length = 16 := by
  refine ⟨?_, length_aeadComputeTag _ _ _⟩
  unfold sealedText aeadEncrypt
  rw [length_chacha20Encrypt, length_innerText]

/-- `tls_record_encrypt`, on a length that a record can have. -/
theorem tlsRecordEncrypt_eq (c : Conn κ) (hlen : c.hs.recLen ≤ 512) :
    (tlsRecordEncrypt (.ofPrimitives P sendOk pqHybrid) c).recHdr = sealedHeader c ∧
      (tlsRecordEncrypt (.ofPrimitives P sendOk pqHybrid) c).hs.recLen = c.hs.recLen + 17 ∧
        (tlsRecordEncrypt (.ofPrimitives P sendOk pqHybrid) c).hs.recBuf =
          store (typed c) 0 ((sealedText P c).1 ++ (sealedText P c).2) := by
  have hone : add16 c.hs.recLen 1 = c.hs.recLen + 1 := add16_of_lt (by omega)
  have htag : add16 (c.hs.recLen + 1) 16 = c.hs.recLen + 17 := add16_of_lt (by omega)
  have hcipher := (length_sealedText P c).1
  set R : RecordEnv := .ofPrimitives P sendOk pqHybrid
  have hhdr : (tlsRecordEncrypt R c).recHdr =
      recordHeader ctApplication (add16 (add16 c.hs.recLen 1) 16) c.recHdr := rfl
  have hrec : (tlsRecordEncrypt R c).hs.recLen = add16 (add16 c.hs.recLen 1) 16 := rfl
  have hbuf : (tlsRecordEncrypt R c).hs.recBuf =
      store (store (typed c) 0 (R.aeadEncrypt (tlsSelectKeys c .write).key (tlsBuildNonce c .write)
        (bytesAt (tlsRecordEncrypt R c).recHdr 0 5) (bytesAt (typed c) 0 (add16 c.hs.recLen 1))).1)
        (add16 c.hs.recLen 1)
        (R.aeadEncrypt (tlsSelectKeys c .write).key (tlsBuildNonce c .write)
          (bytesAt (tlsRecordEncrypt R c).recHdr 0 5)
            (bytesAt (typed c) 0 (add16 c.hs.recLen 1))).2 := rfl
  rw [hone, htag] at hhdr hrec
  refine ⟨hhdr, hrec, ?_⟩
  rw [hhdr, hone] at hbuf
  -- the tag goes right behind the ciphertext
  have hjoin := store_store (typed c) 0 (sealedText P c).1 (sealedText P c).2
  rw [hcipher, Nat.zero_add] at hjoin
  exact hbuf.trans hjoin

/-- `c` holds the record that `s` sealed, and reads with the key, the IV and the counter that
sealed it. -/
structure Receives (R : RecordEnv) (s c : Conn κ) : Prop where
  keys : tlsSelectKeys c .read = tlsSelectKeys s .write
  seq : c.readSeq = s.writeSeq
  header : bytesAt c.recHdr 0 5 = bytesAt (tlsRecordEncrypt R s).recHdr 0 5
  recLen : c.hs.recLen = (tlsRecordEncrypt R s).hs.recLen
  record : c.record = (tlsRecordEncrypt R s).record

/-- Text, length and type are those that were sealed, and no byte beyond the record buffer was
written on the way. -/
structure Restores (R : RecordEnv) (s c : Conn κ) : Prop where
  ok : (tlsRecordDecrypt R c).2 = true
  record : (tlsRecordDecrypt R c).1.record = s.record
  recLen : (tlsRecordDecrypt R c).1.hs.recLen = s.hs.recLen
  recType : (tlsRecordDecrypt R c).1.recType = s.recType
  sealed_within : ∀ i, recBufSize ≤ i → (tlsRecordEncrypt R s).hs.recBuf i = s.hs.recBuf i
  opened_within : ∀ i, recBufSize ≤ i → (tlsRecordDecrypt R c).1.hs.recBuf i = c.hs.recBuf i

section Restores

variable {s c : Conn κ}

/-- The receiver's AEAD gives back what was sealed. -/
theorem Receives.answer_eq (h : Receives (.ofPrimitives P sendOk pqHybrid) s c)
    (hlen : s.hs.recLen ≤ 512) :
    c.hs.recLen = s.hs.recLen + 17 ∧
      answer (.ofPrimitives P sendOk pqHybrid) c (s.hs.recLen + 1) = some (innerText s) := by
  obtain ⟨hhdr, hrec, hbuf⟩ :=
    @tlsRecordEncrypt_eq κ P sendOk pqHybrid s hlen
  obtain ⟨hct, htag⟩ := length_sealedText P s
  have hn : c.hs.recLen = s.hs.recLen + 17 := h.recLen.trans hrec
  have hall : bytesAt c.hs.recBuf 0 (s.hs.recLen + 17) =
      (sealedText P s).1 ++ (sealedText P s).2 := by
    have hself := bytesAt_store_self (typed s) 0 ((sealedText P s).1 ++ (sealedText P s).2)
    rw [List.length_append, hct, htag] at hself
    have hrecord := h.record
    unfold Conn.record at hrecord
    rw [hn, hrec, hbuf] at hrecord
    exact hrecord.trans hself
  have hcipher : bytesAt c.hs.recBuf 0 (s.hs.recLen + 1) = (sealedText P s).1 := by
    rw [← take_bytesAt c.hs.recBuf 0 (show s.hs.recLen + 1 ≤ s.hs.recLen + 17 by omega), hall]
    exact List.take_left' hct
  have htags : bytesAt c.hs.recBuf (s.hs.recLen + 1) 16 = (sealedText P s).2 := by
    have hdrop := drop_bytesAt c.hs.recBuf 0 (show s.hs.recLen + 1 ≤ s.hs.recLen + 17 by omega)
    rw [hall, List.drop_left' hct, Nat.zero_add,
      show s.hs.recLen + 17 - (s.hs.recLen + 1) = 16 by omega] at hdrop
    exact hdrop.symm
  have hnonce : tlsBuildNonce c .read = tlsBuildNonce s .write := by
    have hseq : c.seqOf .read = s.seqOf .write := h.seq
    unfold tlsBuildNonce
    rw [h.keys, hseq]
  refine ⟨hn, ?_⟩
  unfold answer
  rw [ofPrimitives_aeadDecrypt, h.keys, hnonce, h.header, hhdr, hcipher, htags]
  exact aeadDecrypt_aeadEncrypt _ _

theorem getD_innerText (s : Conn κ) {i : Nat} (hi : i ≤ s.hs.recLen) (m : Buffer) :
    store m 0 (innerText s) i = typed s i := by
  have hlt : 0 ≤ i ∧ i < 0 + (innerText s).length := by
    rw [length_innerText]
    omega
  have hget : (innerText s).length = s.hs.recLen + 1 ∧
      ∀ i < s.hs.recLen + 1, typed s (0 + i) = (innerText s).getD i 0 :=
    bytesAt_eq_iff.1 rfl
  unfold store
  rw [if_pos hlt, Nat.sub_zero, ← hget.2 i (by omega), Nat.zero_add]

/-- The record comes back exactly if the inner type lies behind the text and spoils none of it. -/
theorem restores_iff_typed (h : Receives (.ofPrimitives P sendOk pqHybrid) s c)
    (hlen : s.hs.recLen ≤ 512) (hty : s.recType ≠ 0) :
    Restores (.ofPrimitives P sendOk pqHybrid) s c ↔
      typed s s.hs.recLen = s.recType ∧ ∀ i < s.hs.recLen, typed s i = s.hs.recBuf i := by
  have hcap : recBufSize = 548 := rfl
  obtain ⟨hn, hans⟩ := h.answer_eq hlen
  obtain ⟨-, -, hbuf⟩ := @tlsRecordEncrypt_eq κ P sendOk pqHybrid s hlen
  set R : RecordEnv := .ofPrimitives P sendOk pqHybrid with hR
  have hdec : tlsRecordDecrypt R c = decryptAt R c (s.hs.recLen + 1) := by
    rw [tlsRecordDecrypt_eq, sub16_of_le (by omega) (by omega), hn]
    rfl
  have htext := fun i hi => getD_innerText s (i := i) hi c.hs.recBuf
  cases hscan : innerScan (store c.hs.recBuf 0 (innerText s)) (s.hs.recLen + 1) with
  | none =>
      -- only zeros: then the type byte has not been stored behind the text
      have hrun := decryptAt_padding hans hscan
      rw [← hdec] at hrun
      constructor
      · -- the scan found the type and the length of the record, so the text in front of it is the record
        intro hr
        have hok := hr.ok
        rw [hrun] at hok
        cases hok
      · rintro ⟨htype, -⟩
        have hzero := innerScan_eq_none.1 hscan s.hs.recLen (Nat.lt_succ_self _)
        rw [htext _ (le_refl _), htype] at hzero
        exact absurd hzero hty
  | some found =>
      rcases found with ⟨ty, n⟩
      obtain ⟨hne, hlt, hat, hpad⟩ := innerScan_eq_some.1 hscan
      have hrun := decryptAt_some hans hscan
      rw [← hdec] at hrun
      rw [htext n (by omega)] at hat
      constructor
      · intro hr
        have hrecLen := hr.recLen
        have hrecType := hr.recType
        have hrecord := hr.record
        rw [hrun] at hrecLen hrecType hrecord
        have hnlen : n = s.hs.recLen := hrecLen
        have htype : ty = s.recType := hrecType
        refine ⟨by rw [← hnlen, hat, htype], ?_⟩
        have hbytes : bytesAt (store c.hs.recBuf 0 (innerText s)) 0 n = s.record := hrecord
        intro i hi
        have hi' := (bytesAt_eq_iff.1 hbytes).2 i (by omega)
        have hs : s.record.length = s.hs.recLen ∧
            ∀ i < s.hs.recLen, s.hs.recBuf (0 + i) = s.record.getD i 0 :=
          bytesAt_eq_iff.1 rfl
        rw [Nat.zero_add, htext i (by omega), ← hs.2 i hi, Nat.zero_add] at hi'
        exact hi'
      · rintro ⟨htype, hsame⟩
        -- the type is not zero, so the scan stops where it stands
        have hnlen : n = s.hs.recLen := by
          by_contra hother
          have hz := hpad s.hs.recLen (by omega) (Nat.lt_succ_self _)
          rw [htext _ (le_refl _), htype] at hz
          exact hty hz
        rw [hnlen] at hrun hat
        have hr : (tlsRecordDecrypt R c).1.hs.recBuf = store c.hs.recBuf 0 (innerText s) := by
          rw [hrun]
          rfl
        refine ⟨by rw [hrun], ?_, by rw [hrun]; rfl, ?_, ?_, ?_⟩
        · rw [hrun]
          refine bytesAt_congr ?_
          intro i hi
          rw [Nat.zero_add]
          exact (htext i (le_of_lt hi)).trans (hsame i hi)
        · rw [hrun]
          exact hat.symm.trans htype
        · intro i hi
          have hat' : innerTypeAt s.hs.recLen ≤ 512 := by
            unfold innerTypeAt
            split <;> omega
          rw [hbuf]
          unfold store
          rw [if_neg]
          · exact Function.update_of_ne (by omega) _ _
          · rw [List.length_append, (length_sealedText P s).1, (length_sealedText P s).2]
            omega
        · intro i hi
          rw [hr]
          unfold store
          rw [if_neg]
          rw [length_innerText]
          omega

/-- Opening inverts sealing below 512 bytes; at 512 the type is stored at offset 256, and the record
comes back only where that byte of the text, and the byte behind the text, are the type already. -/
theorem restores_iff (h : Receives (.ofPrimitives P sendOk pqHybrid) s c)
    (hlen : s.hs.recLen ≤ 512) (hty : s.recType ≠ 0) :
    Restores (.ofPrimitives P sendOk pqHybrid) s c ↔
      s.hs.recLen < 512 ∨ (s.hs.recBuf 256 = s.recType ∧ s.hs.recBuf 512 = s.recType) := by
  rw [restores_iff_typed h hlen hty]
  rcases Nat.lt_or_ge s.hs.recLen 512 with hlt | hge
  · have hat : innerTypeAt s.hs.recLen = s.hs.recLen := by
      unfold innerTypeAt
      split <;> omega
    unfold typed
    rw [hat]
    refine ⟨fun _ => Or.inl hlt, fun _ => ⟨Function.update_self _ _ _, ?_⟩⟩
    intro i hi
    exact Function.update_of_ne (by omega) _ _
  · have hn : s.hs.recLen = 512 := by
      omega
    have hat : innerTypeAt s.hs.recLen = 256 := by
      rw [hn]
      rfl
    unfold typed
    rw [hat, hn]
    have hbehind : Function.update s.hs.recBuf 256 s.recType 512 = s.hs.recBuf 512 :=
      Function.update_of_ne (by decide) _ _
    rw [hbehind]
    constructor
    · rintro ⟨htype, hsame⟩
      have h256 := hsame 256 (by decide)
      rw [Function.update_self] at h256
      exact Or.inr ⟨h256.symm, htype⟩
    · rintro (hbad | ⟨h256, h512⟩)
      · omega
      refine ⟨h512, ?_⟩
      intro i _
      by_cases hi : i = 256
      · rw [hi, Function.update_self, h256]
      · exact Function.update_of_ne hi _ _

end Restores

@[simp] theorem looped_recBuf (bs : List UInt8) (ty : UInt8) :
    (Conn.looped bs ty).hs.recBuf = store (fun _ => 0) 0 bs :=
  rfl

@[simp] theorem looped_recLen (bs : List UInt8) (ty : UInt8) :
    (Conn.looped bs ty).hs.recLen = bs.length :=
  rfl

theorem receives_looped (R : RecordEnv) (bs : List UInt8) (ty : UInt8) :
    Receives R (.looped bs ty) (tlsRecordEncrypt R (.looped bs ty)) :=
  ⟨rfl, rfl, rfl, rfl, rfl⟩

theorem restores_two :
    Restores (.ofPrimitives .sample (fun _ => true) false) (.looped [1, 0] ctApplication)
      sampleSealed :=
  (restores_iff (receives_looped _ _ _) (by decide) (by decide)).2 (Or.inl (by decide))

/-- 512 zeros: the last byte of what is sealed is not the type. -/
theorem not_restores_zeros :
    Receives (.ofPrimitives .sample (fun _ => true) false)
        (.looped (List.replicate 512 0) ctApplication)
        (tlsRecordEncrypt (.ofPrimitives .sample (fun _ => true) false)
          (.looped (List.replicate 512 0) ctApplication)) ∧
      ¬ Restores (.ofPrimitives .sample (fun _ => true) false)
        (.looped (List.replicate 512 0) ctApplication)
        (tlsRecordEncrypt (.ofPrimitives .sample (fun _ => true) false)
          (.looped (List.replicate 512 0) ctApplication)) := by
  refine ⟨receives_looped _ _ _, ?_⟩
  have hlen : (Conn.looped (List.replicate 512 0) ctApplication).hs.recLen = 512 := by
    rw [looped_recLen, List.length_replicate]
  rw [restores_iff_typed (receives_looped _ _ _) (by rw [hlen]) (by decide), hlen]
  rintro ⟨htype, -⟩
  unfold typed innerTypeAt at htype
  rw [hlen] at htype
  have hzero : Function.update (Conn.looped (List.replicate 512 0) ctApplication).hs.recBuf 256
      ctApplication 512 = 0 := by
    rw [Function.update_of_ne (by decide), looped_recBuf]
    unfold store
    rw [List.length_replicate, if_neg (by decide)]
  exact absurd (hzero.symm.trans htype) (by decide)

end Tls
end C64Https
