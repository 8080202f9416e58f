import C64Https.Tls.Record

/-!
# RecordSpec — what one call of the record layer can do

`tls_record_recv_and_decrypt` touches its own storage, the record buffer and, when it fails closed,
`tls_state`; everything else of the connection is as before (`Conn.rest`).  It calls the AEAD at
most once, under the keys and the counter it found, and the read counter moves exactly when a record
was opened (`recv_spec`).
-/

namespace C64Https
namespace Tls

open Word Loop Bytes

variable {κ : Type}

/-- What the record reader leaves alone: the connection with its own fields blanked. -/
def Conn.rest (c : Conn κ) : Conn κ :=
  { c with
    uses := []
    got := []
    hs := { c.hs with recBuf := fun _ => 0, recLen := 0, tlsState := .idle }
    ring := []
    wire := []
    recHdr := fun _ => 0
    recType := 0
    recvState := .header
    recvCount := 0
    readSeq := []
    lastState := .idle
    rxInner := 0 }

section Rest

variable {c c' : Conn κ}

theorem rest_trace (h : c'.rest = c.rest) : c'.hs.trace = c.hs.trace := by
  have := congrArg (fun c : Conn κ => c.hs.trace) h
  exact this

theorem rest_hsKeys (h : c'.rest = c.rest) : c'.hsKeys = c.hsKeys := by
  have := congrArg (fun c : Conn κ => c.hsKeys) h
  exact this

theorem rest_appKeys (h : c'.rest = c.rest) : c'.appKeys = c.appKeys := by
  have := congrArg (fun c : Conn κ => c.appKeys) h
  exact this

theorem rest_writeSeq (h : c'.rest = c.rest) : c'.writeSeq = c.writeSeq := by
  have := congrArg (fun c : Conn κ => c.writeSeq) h
  exact this

/-- The handshake machine, but for the record and the state. -/
theorem rest_hs (h : c'.rest = c.rest) : c'.hs =
    { c.hs with
      recBuf := c'.hs.recBuf, recLen := c'.hs.recLen, tlsState := c'.hs.tlsState } := by
  have hhs := congrArg (fun c : Conn κ => c.hs) h
  have hback : c'.hs = { c'.rest.hs with
      recBuf := c'.hs.recBuf, recLen := c'.hs.recLen, tlsState := c'.hs.tlsState } := rfl
  have hrest : c'.rest.hs = c.rest.hs := hhs
  rw [hback, hrest]
  rfl

end Rest

/-! ## Reading -/

/-- The reader took bytes: nothing was opened, nothing failed. -/
structure Reads (c c' : Conn κ) : Prop where
  rest_eq : c'.rest = c.rest
  uses_eq : c'.uses = c.uses
  state_eq : c'.hs.tlsState = c.hs.tlsState
  readSeq_eq : c'.readSeq = c.readSeq

theorem Reads.refl (c : Conn κ) : Reads c c :=
  ⟨rfl, rfl, rfl, rfl⟩

theorem Reads.trans {c c' c'' : Conn κ} (h : Reads c c') (h' : Reads c' c'') : Reads c c'' :=
  ⟨h'.rest_eq.trans h.rest_eq, h'.uses_eq.trans h.uses_eq, h'.state_eq.trans h.state_eq,
    h'.readSeq_eq.trans h.readSeq_eq⟩

/-- The keys and the counter in force are those of the state before. -/
theorem Reads.selectKeys {c c' : Conn κ} (h : Reads c c') (dir : Dir) :
    tlsSelectKeys c' dir = tlsSelectKeys c dir := by
  unfold tlsSelectKeys
  rw [h.state_eq, rest_hsKeys h.rest_eq, rest_appKeys h.rest_eq]

theorem Reads.use_eq {c c' : Conn κ} (h : Reads c c') (ok : Bool) :
    c'.use .read ok = c.use .read ok := by
  have hseq : c'.seqOf .read = c.seqOf .read := h.readSeq_eq
  unfold Conn.use tlsBuildNonce
  rw [h.selectKeys, hseq]

theorem headerDone_reads (c : Conn κ) : Reads c (headerDone c).1 := by
  unfold headerDone
  dsimp only
  split
  · exact ⟨rfl, rfl, rfl, rfl⟩
  split
  · exact ⟨rfl, rfl, rfl, rfl⟩
  split
  · exact ⟨rfl, rfl, rfl, rfl⟩
  split
  · exact ⟨rfl, rfl, rfl, rfl⟩
  · exact ⟨rfl, rfl, rfl, rfl⟩

theorem recvByte_reads (c : Conn κ) (b : UInt8) : Reads c (recvByte c b).1 := by
  unfold recvByte
  split
  · unfold headerByte
    dsimp only
    split
    · exact ⟨rfl, rfl, rfl, rfl⟩
    split
    · have hone : Reads c { c with
          recHdr := Function.update c.recHdr c.recvCount b
          recvCount := inc16 c.recvCount } := ⟨rfl, rfl, rfl, rfl⟩
      exact hone.trans (headerDone_reads _)
    · exact ⟨rfl, rfl, rfl, rfl⟩
  · unfold payloadByte
    dsimp only
    split
    · exact ⟨rfl, rfl, rfl, rfl⟩
    · exact ⟨rfl, rfl, rfl, rfl⟩

/-- A record is complete only with a length that the buffer holds. -/
def StepFits (r : Conn κ × ByteStep) : Prop :=
  r.2 = .complete → r.1.hs.recLen ≤ recBufSize ∧ r.1.recvState = .header

/-- In the payload the length has been checked. -/
def LenChecked (c : Conn κ) : Prop :=
  c.recvState = .payload → c.hs.recLen ≤ recBufSize

theorem lenChecked_of_header {c : Conn κ} (h : c.recvState = .header) : LenChecked c := by
  intro hp
  rw [h] at hp
  cases hp

theorem headerDone_fits (c : Conn κ) (hst : c.recvState = .header) :
    LenChecked (headerDone c).1 ∧ StepFits (headerDone c) := by
  unfold headerDone
  dsimp only
  split
  · exact ⟨lenChecked_of_header hst, fun h => (by cases h)⟩
  split
  · exact ⟨lenChecked_of_header hst, fun h => (by cases h)⟩
  split
  · exact ⟨lenChecked_of_header hst, fun h => (by cases h)⟩
  · rename_i hlen
    have hle : word (c.recHdr 3) (c.recHdr 4) ≤ recBufSize := Nat.le_of_not_lt hlen
    split
    · exact ⟨lenChecked_of_header rfl, fun _ => ⟨hle, rfl⟩⟩
    · exact ⟨fun _ => hle, fun hc => (by cases hc)⟩

theorem recvByte_fits (c : Conn κ) (b : UInt8) (h : LenChecked c) :
    LenChecked (recvByte c b).1 ∧ StepFits (recvByte c b) := by
  unfold recvByte
  split
  · rename_i hst
    unfold headerByte
    dsimp only
    split
    · exact ⟨lenChecked_of_header hst, fun hc => (by cases hc)⟩
    split
    · exact headerDone_fits _ hst
    · exact ⟨lenChecked_of_header hst, fun hc => (by cases hc)⟩
  · rename_i hst
    have hle := h hst
    unfold payloadByte
    dsimp only
    split
    · exact ⟨lenChecked_of_header rfl, fun _ => ⟨hle, rfl⟩⟩
    · exact ⟨fun _ => hle, fun hc => (by cases hc)⟩

/-- The reader failed closed, or skipped a bad header: nothing was opened. -/
structure FailsClosed (c c' : Conn κ) : Prop where
  rest_eq : c'.rest = c.rest
  uses_eq : c'.uses = c.uses
  readSeq_eq : c'.readSeq = c.readSeq
  state : c'.hs.tlsState = c.hs.tlsState ∨ c'.hs.tlsState = .error
  header : c'.recvState = .header

theorem tlsRecFrameFail_spec (R : RecordEnv) (c : Conn κ) : FailsClosed c (tlsRecFrameFail R c) := by
  unfold tlsRecFrameFail
  dsimp only
  generalize (if R.pqHybrid = true then TlsState.serverHello else TlsState.encryptedExt) = fatal
  split
  · exact ⟨rfl, rfl, rfl, Or.inl rfl, rfl⟩
  · exact ⟨rfl, rfl, rfl, Or.inr rfl, rfl⟩

/-- The state from which on a framing error is fatal. -/
def fatalFrom (R : RecordEnv) : TlsState :=
  if R.pqHybrid then .serverHello else .encryptedExt

/-- Before that state it changes nothing. -/
theorem tlsRecFrameFail_state (R : RecordEnv) (c : Conn κ)
    (hne : (tlsRecFrameFail R c).hs.tlsState ≠ c.hs.tlsState) :
    (fatalFrom R).code ≤ c.hs.tlsState.code := by
  by_contra hlt
  have hpos : (tlsRecReaderReset c).hs.tlsState.code <
      (if R.pqHybrid = true then TlsState.serverHello else TlsState.encryptedExt).code :=
    Nat.lt_of_not_le hlt
  refine hne ?_
  unfold tlsRecFrameFail
  dsimp only
  rw [if_pos hpos]
  rfl

/-- Where records are encrypted a framing error is fatal. -/
theorem tlsRecFrameFail_error (R : RecordEnv) {c : Conn κ}
    (h : TlsState.encryptedExt.code ≤ c.hs.tlsState.code) :
    (tlsRecFrameFail R c).hs.tlsState = .error := by
  have hsame : (tlsRecReaderReset c).hs.tlsState = c.hs.tlsState := rfl
  have hle : TlsState.serverHello.code ≤ TlsState.encryptedExt.code := by
    decide
  unfold tlsRecFrameFail
  dsimp only
  cases R.pqHybrid with
  | true =>
      rw [if_neg]
      · rfl
      · rw [hsame]
        simp only [if_true]
        omega
  | false =>
      rw [if_neg]
      · rfl
      · rw [hsame]
        simp only [Bool.false_eq_true, if_false]
        omega

/-- What `tls_recv_record` can do. -/
structure RecvRecord (R : RecordEnv) (c : Conn κ) (r : Conn κ × Bool) : Prop where
  got : r.2 = true → Reads c r.1
  none : r.2 = false → Reads c r.1 ∨ FailsClosed c r.1
  fatal : r.1.hs.tlsState ≠ c.hs.tlsState → (fatalFrom R).code ≤ c.hs.tlsState.code

theorem FailsClosed.of_reads {c c₁ c' : Conn κ} (h : Reads c c₁) (h' : FailsClosed c₁ c') :
    FailsClosed c c' :=
  ⟨h'.rest_eq.trans h.rest_eq, h'.uses_eq.trans h.uses_eq, h'.readSeq_eq.trans h.readSeq_eq,
    h'.state.imp_left fun hs => hs.trans h.state_eq, h'.header⟩

theorem recvFrom_spec (R : RecordEnv) (ring : List UInt8) :
    ∀ c : Conn κ, RecvRecord R c (recvFrom R ring c) := by
  induction ring with
  | nil =>
      intro c
      exact ⟨fun hc => (by cases hc), fun _ => Or.inl ⟨rfl, rfl, rfl, rfl⟩, fun hne => absurd rfl hne⟩
  | cons b ring ih =>
      intro c
      have hr := recvByte_reads c b
      unfold recvFrom
      rcases hx : recvByte c b with ⟨c', step⟩
      rw [hx] at hr
      have hstate : c'.hs.tlsState = c.hs.tlsState := hr.state_eq
      cases step with
      | more =>
          have hgo := ih c'
          refine ⟨fun hok => hr.trans (hgo.got hok), fun hok => ?_, fun hne => ?_⟩
          · rcases hgo.none hok with hr' | hfail
            · exact Or.inl (hr.trans hr')
            · exact Or.inr (hfail.of_reads hr)
          · rw [← hstate] at hne ⊢
            exact hgo.fatal hne
      | complete =>
          exact ⟨fun _ => hr.trans ⟨rfl, rfl, rfl, rfl⟩, fun hc => (by cases hc),
            fun hne => absurd hstate hne⟩
      | bad =>
          have hr' : Reads c { c' with ring := ring } := hr.trans ⟨rfl, rfl, rfl, rfl⟩
          have hfail := tlsRecFrameFail_spec R { c' with ring := ring }
          refine ⟨fun hc => (by cases hc), fun _ => Or.inr (hfail.of_reads hr'), fun hne => ?_⟩
          have hfatal := tlsRecFrameFail_state R { c' with ring := ring }
          rw [hr'.state_eq] at hfatal
          exact hfatal hne

/-- What it leaves in the buffer. -/
theorem recvFrom_fits (R : RecordEnv) (ring : List UInt8) :
    ∀ c : Conn κ, LenChecked c →
      ((recvFrom R ring c).2 = true → (recvFrom R ring c).1.recvState = .header ∧
        (recvFrom R ring c).1.hs.recLen ≤ recBufSize) ∧ LenChecked (recvFrom R ring c).1 := by
  induction ring with
  | nil =>
      intro c h
      exact ⟨fun hc => (by cases hc), h⟩
  | cons b ring ih =>
      intro c h
      obtain ⟨hl, hf⟩ := recvByte_fits c b h
      unfold recvFrom
      rcases hx : recvByte c b with ⟨c', step⟩
      rw [hx] at hl hf
      cases step with
      | more => exact ih c' hl
      | complete =>
          obtain ⟨hlen, hst⟩ := hf rfl
          exact ⟨fun _ => ⟨hst, hlen⟩, lenChecked_of_header hst⟩
      | bad => exact ⟨fun hc => (by cases hc),
          lenChecked_of_header (tlsRecFrameFail_spec R { c' with ring := ring }).header⟩

/-! ## Opening -/

/-- What `tls_record_recv_and_decrypt` does to keys, counters and state: wait, fail closed, hand over
a plaintext record, or call the AEAD once, under the keys and the read counter of the state before. -/
inductive RecvEffect (R : RecordEnv) (c c' : Conn κ) : Bool → Prop where
  | idle (h : Reads c c') : RecvEffect R c c' false
  | refused (h : FailsClosed c c')
      (hfatal : c'.hs.tlsState ≠ c.hs.tlsState → (fatalFrom R).code ≤ c.hs.tlsState.code) :
      RecvEffect R c c' false
  | plain (h : Reads c c') (hstate : c.hs.tlsState.code < TlsState.encryptedExt.code) :
      RecvEffect R c c' true
  | opened (hrest : c'.rest = c.rest) (hstate : c'.hs.tlsState = c.hs.tlsState)
      (henc : TlsState.encryptedExt.code ≤ c.hs.tlsState.code)
      (huses : c'.uses = c.uses ++ [c.use .read true])
      (hseq : c'.readSeq = tlsSeqIncrement c.readSeq) : RecvEffect R c c' true
  | rejected (hrest : c'.rest = c.rest) (hstate : c'.hs.tlsState = .error)
      (henc : TlsState.encryptedExt.code ≤ c.hs.tlsState.code)
      (huses : c'.uses = c.uses ++ [c.use .read false])
      (hseq : c'.readSeq = c.readSeq) : RecvEffect R c c' false

/-- The same, with the bound on a record that is handed over. -/
inductive RecvDecrypt (c c' : Conn κ) : Bool → Prop where
  | idle (h : Reads c c') : RecvDecrypt c c' false
  | refused (h : FailsClosed c c') : RecvDecrypt c c' false
  | plain (h : Reads c c') (hstate : c.hs.tlsState.code < TlsState.encryptedExt.code)
      (hlen : c'.hs.recLen ≤ recBufSize) : RecvDecrypt c c' true
  | opened (hrest : c'.rest = c.rest) (hstate : c'.hs.tlsState = c.hs.tlsState)
      (henc : TlsState.encryptedExt.code ≤ c.hs.tlsState.code)
      (huses : c'.uses = c.uses ++ [c.use .read true])
      (hseq : c'.readSeq = tlsSeqIncrement c.readSeq) (hlen : c'.hs.recLen ≤ recBufSize) :
      RecvDecrypt c c' true
  | rejected (hrest : c'.rest = c.rest) (hstate : c'.hs.tlsState = .error)
      (henc : TlsState.encryptedExt.code ≤ c.hs.tlsState.code)
      (huses : c'.uses = c.uses ++ [c.use .read false])
      (hseq : c'.readSeq = c.readSeq) : RecvDecrypt c c' false

/-- The inner type is found below the ciphertext's end. -/
theorem innerScan_lt {buf : Buffer} {n : Nat} {ty : UInt8} {i : Nat}
    (h : innerScan buf n = some (ty, i)) : i < n := by
  induction n with
  | zero => cases h
  | succ n ih =>
      unfold innerScan at h
      split at h
      · have := ih h
        omega
      · cases h
        exact Nat.lt_succ_self _

section Exits

variable {R : RecordEnv} {c : Conn κ} {len : Nat} {plain : List UInt8}

/-- What the AEAD answers for the first `len` bytes of the record and the tag behind them. -/
def answer (R : RecordEnv) (c : Conn κ) (len : Nat) : Option (List UInt8) :=
  R.aeadDecrypt (tlsSelectKeys c .read).key (tlsBuildNonce c .read) (bytesAt c.recHdr 0 5)
    (bytesAt c.hs.recBuf 0 len) (bytesAt c.hs.recBuf len 16)

/-- `tls_record_decrypt` behind the subtraction. -/
def decryptAt (R : RecordEnv) (c : Conn κ) (len : Nat) : Conn κ × Bool :=
  match answer R c len with
  | none => ({ c with uses := c.uses ++ [c.use .read false] }, false)
  | some plain =>
      let buf := store c.hs.recBuf 0 plain
      match innerScan buf len with
      | none =>
          ({ c.withRecord buf c.hs.recLen with uses := c.uses ++ [c.use .read false] }, false)
      | some (ty, n) =>
          ({ c.withRecord buf n with
              recType := ty
              readSeq := tlsSeqIncrement c.readSeq
              uses := c.uses ++ [c.use .read true] }, true)

-- The length is abstracted before anything is reduced: its 16-bit wrap would be counted down.
theorem tlsRecordDecrypt_eq (R : RecordEnv) (c : Conn κ) :
    tlsRecordDecrypt R c = decryptAt R c (sub16 c.hs.recLen 16) :=
  rfl

/-- A rejected record. -/
theorem decryptAt_none (h : answer R c len = none) :
    decryptAt R c len = ({ c with uses := c.uses ++ [c.use .read false] }, false) := by
  unfold decryptAt
  rw [h]

/-- A record of zeros throughout. -/
theorem decryptAt_padding (h : answer R c len = some plain)
    (hscan : innerScan (store c.hs.recBuf 0 plain) len = none) :
    decryptAt R c len = ({ c.withRecord (store c.hs.recBuf 0 plain) c.hs.recLen with
      uses := c.uses ++ [c.use .read false] }, false) := by
  unfold decryptAt
  rw [h]
  dsimp only
  rw [hscan]

theorem decryptAt_some {ty : UInt8} {n : Nat} (h : answer R c len = some plain)
    (hscan : innerScan (store c.hs.recBuf 0 plain) len = some (ty, n)) :
    decryptAt R c len = ({ c.withRecord (store c.hs.recBuf 0 plain) n with
      recType := ty
      readSeq := tlsSeqIncrement c.readSeq
      uses := c.uses ++ [c.use .read true] }, true) := by
  unfold decryptAt
  rw [h]
  dsimp only
  rw [hscan]

end Exits

/-- What `tls_record_decrypt` does: one call of the AEAD, and a step of the read counter if the
record was opened. -/
structure Decrypts (c : Conn κ) (r : Conn κ × Bool) : Prop where
  rest_eq : r.1.rest = c.rest
  state_eq : r.1.hs.tlsState = c.hs.tlsState
  recvState_eq : r.1.recvState = c.recvState
  uses_eq : r.1.uses = c.uses ++ [c.use .read r.2]
  readSeq_eq : r.1.readSeq = if r.2 = true then tlsSeqIncrement c.readSeq else c.readSeq
  got_eq : r.1.got = c.got

theorem decryptAt_spec (R : RecordEnv) (c : Conn κ) (len : Nat) :
    Decrypts c (decryptAt R c len) ∧
      (decryptAt R c len).1.hs.recLen ≤ max c.hs.recLen len := by
  cases hans : answer R c len with
  | none =>
      rw [decryptAt_none hans]
      exact ⟨⟨rfl, rfl, rfl, rfl, rfl, rfl⟩, Nat.le_max_left _ _⟩
  | some plain =>
      cases hscan : innerScan (store c.hs.recBuf 0 plain) len with
      | none =>
          rw [decryptAt_padding hans hscan]
          exact ⟨⟨rfl, rfl, rfl, rfl, rfl, rfl⟩, Nat.le_max_left _ _⟩
      | some found =>
          rw [decryptAt_some hans hscan]
          have hn := innerScan_lt hscan
          refine ⟨⟨rfl, rfl, rfl, rfl, rfl, rfl⟩, ?_⟩
          show found.2 ≤ max c.hs.recLen len
          omega

theorem tlsRecAuthFail_spec (c : Conn κ) :
    (tlsRecAuthFail c).rest = c.rest ∧ (tlsRecAuthFail c).hs.tlsState = .error ∧
      (tlsRecAuthFail c).uses = c.uses ∧ (tlsRecAuthFail c).readSeq = c.readSeq ∧
        (tlsRecAuthFail c).recvState = c.recvState := by
  unfold tlsRecAuthFail
  split
  · rename_i hst
    exact ⟨rfl, hst, rfl, rfl, rfl⟩
  · exact ⟨rfl, rfl, rfl, rfl, rfl⟩

/-- The last step: plaintext is handed over, anything else is opened. -/
theorem recordGot_effect (R : RecordEnv) {c c₁ : Conn κ} (h : Reads c c₁) :
    RecvEffect R c (recordGot R c₁).1 (recordGot R c₁).2 := by
  have hfail := (tlsRecFrameFail_spec R c₁).of_reads h
  have hfatal := tlsRecFrameFail_state R c₁
  rw [h.state_eq] at hfatal
  unfold recordGot
  split
  · rename_i hplain
    rw [h.state_eq] at hplain
    exact .plain (h.trans ⟨rfl, rfl, rfl, rfl⟩) hplain
  rename_i henc
  have henc' : TlsState.encryptedExt.code ≤ c.hs.tlsState.code := by
    rw [← h.state_eq]
    omega
  split
  · exact .refused hfail hfatal
  dsimp only
  unfold tlsRecDecryptChk
  split
  · -- too short for a tag: the state is `ERROR` when the second test is reached
    obtain ⟨hrest, herr, huses, hseq, hst'⟩ := tlsRecAuthFail_spec (tlsRecFrameFail R c₁)
    rw [if_neg (by simp)]
    refine .refused ⟨hrest.trans hfail.rest_eq, huses.trans hfail.uses_eq,
      hseq.trans hfail.readSeq_eq, Or.inr herr, hst'.trans hfail.header⟩ fun _ => ?_
    have hle : (fatalFrom R).code ≤ TlsState.encryptedExt.code := by
      unfold fatalFrom
      cases R.pqHybrid with
      | true => decide
      | false => decide
    omega
  · obtain ⟨hrest, hstate, hst', huses, hseq, -⟩ := (decryptAt_spec R c₁ (sub16 c₁.hs.recLen 16)).1
    rw [← tlsRecordDecrypt_eq] at hrest hstate hst' huses hseq
    rw [h.uses_eq, h.use_eq] at huses
    rw [h.readSeq_eq] at hseq
    cases hok : (tlsRecordDecrypt R c₁).2 with
    | true =>
        rw [hok] at huses hseq
        rw [if_pos rfl]
        exact .opened (hrest.trans h.rest_eq) (hstate.trans h.state_eq) henc' huses hseq
    | false =>
        rw [hok] at huses hseq
        rw [if_neg (by simp)]
        obtain ⟨hrest', herr, huses', hseq', -⟩ := tlsRecAuthFail_spec (tlsRecordDecrypt R c₁).1
        exact .rejected ((hrest'.trans hrest).trans h.rest_eq) herr henc' (huses'.trans huses)
          (hseq'.trans hseq)

/-- What it leaves of a record that fits. -/
theorem recordGot_fits (R : RecordEnv) {c : Conn κ} (hst : c.recvState = .header)
    (hlen : c.hs.recLen ≤ recBufSize) : (recordGot R c).1.recvState = .header ∧
      ((recordGot R c).2 = true → (recordGot R c).1.hs.recLen ≤ recBufSize) := by
  have hcap : recBufSize = 548 := rfl
  have hheader := (tlsRecFrameFail_spec R c).header
  unfold recordGot
  split
  · exact ⟨hst, fun _ => hlen⟩
  split
  · exact ⟨hheader, fun hc => (by cases hc)⟩
  dsimp only
  unfold tlsRecDecryptChk
  split
  · rw [if_neg (by simp)]
    exact ⟨(tlsRecAuthFail_spec _).2.2.2.2.trans hheader, fun hc => (by cases hc)⟩
  · rename_i hshort
    obtain ⟨hdec, hmax⟩ := decryptAt_spec R c (sub16 c.hs.recLen 16)
    rw [← tlsRecordDecrypt_eq] at hdec hmax
    rw [sub16_of_le (by omega) (by omega)] at hmax
    split
    · refine ⟨hdec.recvState_eq.trans hst, fun _ => ?_⟩
      show (tlsRecordDecrypt R c).1.hs.recLen ≤ recBufSize
      omega
    · exact ⟨((tlsRecAuthFail_spec _).2.2.2.2.trans hdec.recvState_eq).trans hst,
        fun hc => (by cases hc)⟩

/-- The reader between two calls: at a record boundary if a record was handed over. -/
structure ReaderLeft (r : Conn κ × Bool) : Prop where
  len : LenChecked r.1
  header : r.2 = true → r.1.recvState = .header

/-- One turn of `@retry` after `c₀`: a ChangeCipherSpec record was read over. -/
theorem recvDecryptTurn_effect (R : RecordEnv) {c₀ c : Conn κ} (h : Reads c₀ c) :
    (recvDecryptTurn R c).Post (Reads c₀) (fun r => RecvEffect R c₀ r.1 r.2) := by
  have hrec : RecvRecord R c (tlsRecvRecord R c) := recvFrom_spec R c.ring c
  unfold recvDecryptTurn
  dsimp only
  split
  · rename_i hnone
    rcases hrec.none hnone with hr | hfail
    · exact .idle (h.trans hr)
    · refine .refused (hfail.of_reads h) ?_
      rw [← h.state_eq]
      exact hrec.fatal
  rename_i hgot
  have hall := h.trans (hrec.got (Bool.eq_true_of_not_eq_false hgot))
  split
  · split
    · exact hall
    · refine .refused ((tlsRecFrameFail_spec R _).of_reads hall) ?_
      rw [← hall.state_eq]
      exact tlsRecFrameFail_state R _
  · exact recordGot_effect R hall

theorem recv_effect (R : RecordEnv) {c c' : Conn κ} {ok : Bool}
    (h : tlsRecordRecvAndDecrypt R c = some (c', ok)) : RecvEffect R c c' ok :=
  loop_rule (Reads c) (fun r : Conn κ × Bool => RecvEffect R c r.1 r.2)
    (fun _ hx => recvDecryptTurn_effect R hx) _ c (c', ok) (Reads.refl c) h

theorem recv_fits (R : RecordEnv) {c c' : Conn κ} {ok : Bool} (hlen : LenChecked c)
    (h : tlsRecordRecvAndDecrypt R c = some (c', ok)) :
    ReaderLeft (c', ok) ∧ (ok = true → c'.hs.recLen ≤ recBufSize) := by
  refine loop_rule LenChecked
    (fun r : Conn κ × Bool => ReaderLeft r ∧ (r.2 = true → r.1.hs.recLen ≤ recBufSize))
    ?_ _ c (c', ok) hlen h
  intro x hx
  obtain ⟨hgot, hleft⟩ := recvFrom_fits R x.ring x hx
  unfold recvDecryptTurn
  dsimp only
  split
  · exact ⟨⟨hleft, fun hc => (by cases hc)⟩, fun hc => (by cases hc)⟩
  rename_i hok
  obtain ⟨hst, hbuf⟩ := hgot (Bool.eq_true_of_not_eq_false hok)
  split
  · split
    · exact lenChecked_of_header hst
    · exact ⟨⟨lenChecked_of_header (tlsRecFrameFail_spec R _).header, fun hc => (by cases hc)⟩,
        fun hc => (by cases hc)⟩
  · obtain ⟨hst', hlen'⟩ := recordGot_fits R hst hbuf
    exact ⟨⟨lenChecked_of_header hst', fun _ => hst'⟩, hlen'⟩

/-- `tls_record_recv_and_decrypt`. -/
theorem recv_spec (R : RecordEnv) {c c' : Conn κ} {ok : Bool} (hlen : LenChecked c)
    (h : tlsRecordRecvAndDecrypt R c = some (c', ok)) :
    RecvDecrypt c c' ok ∧ ReaderLeft (c', ok) := by
  obtain ⟨hleft, hfits⟩ := recv_fits R hlen h
  refine ⟨?_, hleft⟩
  cases recv_effect R h with
  | idle hr => exact .idle hr
  | refused hfail _ => exact .refused hfail
  | plain hr hstate => exact .plain hr hstate (hfits rfl)
  | opened hrest hstate henc huses hseq =>
      exact .opened hrest hstate henc huses hseq (hfits rfl)
  | rejected hrest hstate henc huses hseq => exact .rejected hrest hstate henc huses hseq

/-- A record that was read has shortened the ring. -/
theorem recvFrom_ring_lt (R : RecordEnv) (ring : List UInt8) :
    ∀ c : Conn κ, (recvFrom R ring c).2 = true →
      (recvFrom R ring c).1.ring.length < ring.length := by
  induction ring with
  | nil =>
      intro c h
      cases h
  | cons b ring ih =>
      intro c h
      unfold recvFrom at h ⊢
      rcases hx : recvByte c b with ⟨c', step⟩
      rw [hx] at h
      cases step with
      | more => exact Nat.lt_succ_of_lt (ih c' h)
      | complete => exact Nat.lt_succ_self _
      | bad => cases h

/-- The bound on the retries suffices: every retry has read a record. -/
theorem recv_total (R : RecordEnv) (c : Conn κ) :
    ∃ r, tlsRecordRecvAndDecrypt R c = some r := by
  suffices hrun : ∃ r, loop (recvDecryptTurn R) (c.ring.length + 1) c = some r ∧ True by
    rcases hrun with ⟨r, hr, -⟩
    exact ⟨r, hr⟩
  refine loop_total (fun _ : Conn κ => True) (fun _ : Conn κ × Bool => True)
    (fun c : Conn κ => c.ring.length) ?_ (c.ring.length + 1) c trivial (Nat.lt_succ_self _)
  · intro x _
    unfold recvDecryptTurn
    dsimp only
    split
    · trivial
    rename_i hgot
    have hlt := recvFrom_ring_lt R x.ring x (Bool.eq_true_of_not_eq_false hgot)
    split
    · split
      · exact ⟨trivial, hlt⟩
      · trivial
    · trivial

section Below

variable {c c' : Conn κ} {ok : Bool}

theorem RecvDecrypt.rest_eq (h : RecvDecrypt c c' ok) : c'.rest = c.rest := by
  cases h with
  | idle h => exact h.rest_eq
  | refused h => exact h.rest_eq
  | plain h _ _ => exact h.rest_eq
  | opened h _ _ _ _ _ => exact h
  | rejected h _ _ _ _ => exact h

/-- A record that is handed over is within the buffer. -/
theorem RecvDecrypt.recLen_le (h : RecvDecrypt c c' ok) (hok : ok = true) :
    c'.hs.recLen ≤ recBufSize := by
  cases h with
  | idle _ => cases hok
  | refused _ => cases hok
  | plain _ _ hlen => exact hlen
  | opened _ _ _ _ _ hlen => exact hlen
  | rejected _ _ _ _ _ => cases hok

/-- A call that does not end in `ERROR` has left the state alone. -/
theorem RecvDecrypt.state_eq (h : RecvDecrypt c c' ok) (hne : ok = true ∨ c'.hs.tlsState ≠ .error) :
    c'.hs.tlsState = c.hs.tlsState := by
  cases h with
  | idle h => exact h.state_eq
  | refused h =>
      rcases h.state with hs | hs
      · exact hs
      · rcases hne with hok | hne
        · cases hok
        · exact absurd hs hne
  | plain h _ _ => exact h.state_eq
  | opened _ hs _ _ _ _ => exact hs
  | rejected _ hs _ _ _ =>
      rcases hne with hok | hne
      · cases hok
      · exact absurd hs hne

end Below

/-! ## What is handed over -/

/-- A record is logged as it is handed over, and nothing else is. -/
def HandsOver (c : Conn κ) (r : Conn κ × Bool) : Prop :=
  r.1.got = if r.2 = true then c.got ++ [(r.1.recType, r.1.record)] else c.got

theorem recvByte_got (c : Conn κ) (b : UInt8) : (recvByte c b).1.got = c.got := by
  unfold recvByte
  split
  · unfold headerByte
    dsimp only
    split
    · rfl
    split
    · unfold headerDone
      dsimp only
      split
      · rfl
      split
      · rfl
      split
      · rfl
      split <;> rfl
    · rfl
  · unfold payloadByte
    dsimp only
    split <;> rfl

theorem tlsRecFrameFail_got (R : RecordEnv) (c : Conn κ) : (tlsRecFrameFail R c).got = c.got := by
  unfold tlsRecFrameFail
  dsimp only
  generalize (if R.pqHybrid = true then TlsState.serverHello else TlsState.encryptedExt) = fatal
  split <;> rfl

theorem tlsRecAuthFail_got (c : Conn κ) : (tlsRecAuthFail c).got = c.got := by
  unfold tlsRecAuthFail
  split <;> rfl

theorem recvFrom_got (R : RecordEnv) (ring : List UInt8) :
    ∀ c : Conn κ, (recvFrom R ring c).1.got = c.got := by
  induction ring with
  | nil =>
      intro c
      rfl
  | cons b ring ih =>
      intro c
      have hb := recvByte_got c b
      unfold recvFrom
      rcases hx : recvByte c b with ⟨c', step⟩
      rw [hx] at hb
      cases step with
      | more => exact (ih c').trans hb
      | complete => exact hb
      | bad => exact (tlsRecFrameFail_got R _).trans hb

theorem tlsRecDecryptChk_got (R : RecordEnv) (c : Conn κ) : (tlsRecDecryptChk R c).1.got = c.got := by
  unfold tlsRecDecryptChk
  split
  · exact tlsRecFrameFail_got R c
  · exact (decryptAt_spec R c _).1.got_eq

theorem recordGot_got (R : RecordEnv) (c : Conn κ) : HandsOver c (recordGot R c) := by
  unfold recordGot
  split
  · rfl
  split
  · exact tlsRecFrameFail_got R c
  dsimp only
  split
  · show (tlsRecDecryptChk R c).1.got ++ _ = c.got ++ _
    rw [tlsRecDecryptChk_got]
    rfl
  · exact (tlsRecAuthFail_got _).trans (tlsRecDecryptChk_got R c)

theorem recv_got (R : RecordEnv) {c c' : Conn κ} {ok : Bool}
    (h : tlsRecordRecvAndDecrypt R c = some (c', ok)) : HandsOver c (c', ok) := by
  refine loop_rule (fun x => x.got = c.got) (HandsOver c) ?_ _ c (c', ok) rfl h
  intro x hx
  have hrec : (tlsRecvRecord R x).1.got = c.got := (recvFrom_got R x.ring x).trans hx
  unfold recvDecryptTurn
  dsimp only
  split
  · exact hrec
  split
  · split
    · exact hrec
    · exact (tlsRecFrameFail_got R _).trans hrec
  · have hgot := recordGot_got R (tlsRecvRecord R x).1
    unfold HandsOver at hgot
    rw [hrec] at hgot
    exact hgot

end Tls
end C64Https
