import C64Https.Tls.Epochs
import C64Https.Tls.RecordStream

/-!
# WireText — what the bytes of the peer say to the handshake

The record layer hands the handshake plaintext records while the ServerHello is awaited, and opened ones behind
it.  Both are functions of the bytes that are still to be read: `helloRecord` is the first of the plain ones, and
`openedTexts` are the texts that the records of a stream open to, one sequence number after the other.
-/

namespace C64Https
namespace Tls

open Word Loop Bytes

variable {κ : Type}

/-! ## The texts of a stream -/

/-- The first record that is no ChangeCipherSpec; what is no record is read over. -/
def helloRecord : List Item → Option (UInt8 × List UInt8)
  | [] => none
  | .bad :: xs => helloRecord xs
  | .record ty body :: xs => if ty = ctChangeCipher then helloRecord xs else some (ty, body)

/-- The text of a protected record: what the AEAD answers stands over the ciphertext, and the text ends in front
of the last byte that is not zero. -/
def openRecord (R : RecordEnv) (k : DirKeys) (seq : List UInt8) (ty : UInt8) (body : List UInt8) :
    Option (List UInt8) :=
  let len := body.length - 16
  match R.aeadDecrypt k.key (nonceOf k seq) [ty, 3, 3, hi body.length, lo body.length] (body.take len)
      (body.drop len) with
  | none => none
  | some plain =>
      let buf := store (ofList body fun _ => 0) 0 plain
      (innerScan buf len).map fun found => bytesAt buf 0 found.2

/-- The texts that the records of a stream open to under a key, up to one that does not; ChangeCipherSpec records
are read over. -/
def openedTexts (R : RecordEnv) (k : DirKeys) : List UInt8 → List Item → List (List UInt8)
  | _, [] => []
  | _, .bad :: _ => []
  | seq, .record ty body :: xs =>
      if ty = ctChangeCipher then openedTexts R k seq xs
      else
        match openRecord R k seq ty body with
        | none => []
        | some text => text :: openedTexts R k (tlsSeqIncrement seq) xs

/-- What is still to come, opened. -/
def Conn.texts (R : RecordEnv) (k : DirKeys) (c : Conn κ) : List (List UInt8) :=
  openedTexts R k c.readSeq (items c.pending)

/-! ## A record that is opened -/

section Open

variable {R : RecordEnv} {c c' : Conn κ}

theorem store_congr {m m' : Buffer} {n : Nat} (h : ∀ i < n, m i = m' i) (bs : List UInt8) :
    ∀ i < n, store m 0 bs i = store m' 0 bs i := by
  intro i hi
  unfold store
  split
  · rfl
  · exact h i hi

theorem innerScan_congr {m m' : Buffer} : ∀ {n : Nat}, (∀ i < n, m i = m' i) →
    innerScan m n = innerScan m' n := by
  intro n
  induction n with
  | zero => exact fun _ => rfl
  | succ n ih =>
      intro h
      unfold innerScan
      rw [h n (Nat.lt_succ_self n), ih fun i hi => h i (Nat.lt_succ_of_lt hi)]

theorem openRecord_eq (hhdr : HasHeader c) (hlen : 16 < c.hs.recLen) (hcap : c.hs.recLen < 65536)
    (h : tlsRecordDecrypt R c = (c', true)) :
    openRecord R (tlsSelectKeys c .read) c.readSeq c.recType c.record = some c'.record ∧
      c'.readSeq = tlsSeqIncrement c.readSeq := by
  have hsub : sub16 c.hs.recLen 16 = c.hs.recLen - 16 := sub16_of_le (by omega) (by omega)
  rw [tlsRecordDecrypt_eq, hsub] at h
  have hrec : c.record.length = c.hs.recLen := length_bytesAt _ _ _
  have htake : c.record.take (c.hs.recLen - 16) = bytesAt c.hs.recBuf 0 (c.hs.recLen - 16) :=
    take_bytesAt _ _ (by omega)
  have hdrop : c.record.drop (c.hs.recLen - 16) = bytesAt c.hs.recBuf (c.hs.recLen - 16) 16 := by
    unfold Conn.record
    rw [drop_bytesAt _ _ (by omega), Nat.zero_add]
    congr 1
    omega
  -- only the bytes in front of the tag are scanned, so what stands behind them does not matter
  have hsame : ∀ i < c.hs.recLen - 16, ofList c.record (fun _ => 0) i = c.hs.recBuf i := by
    intro i hi
    have hat := bytesAt_ofList c.record (fun _ => 0)
    rw [hrec] at hat
    have hget := (bytesAt_eq_iff.1 hat).2 i (by omega)
    have hget' := (bytesAt_eq_iff.1 (show bytesAt c.hs.recBuf 0 c.hs.recLen = c.record from rfl)).2 i
      (by omega)
    rw [Nat.zero_add] at hget hget'
    rw [hget, hget']
  cases hans : answer R c (c.hs.recLen - 16) with
  | none =>
      rw [decryptAt_none hans] at h
      cases h
  | some plain =>
      cases hscan : innerScan (store c.hs.recBuf 0 plain) (c.hs.recLen - 16) with
      | none =>
          rw [decryptAt_padding hans hscan] at h
          cases h
      | some found =>
          obtain ⟨ty, n⟩ := found
          rw [decryptAt_some hans hscan] at h
          cases h
          have hn := innerScan_lt hscan
          have hbuf := store_congr hsame plain
          refine ⟨?_, rfl⟩
          unfold answer at hans
          have hheader : bytesAt c.recHdr 0 5 = _ := hhdr
          rw [hheader] at hans
          unfold openRecord
          dsimp only
          rw [hrec, htake, hdrop]
          have hans' : R.aeadDecrypt (tlsSelectKeys c .read).key
              (nonceOf (tlsSelectKeys c .read) c.readSeq)
              [c.recType, 3, 3, hi c.hs.recLen, lo c.hs.recLen]
              (bytesAt c.hs.recBuf 0 (c.hs.recLen - 16)) (bytesAt c.hs.recBuf (c.hs.recLen - 16) 16) =
                some plain := hans
          rw [hans']
          dsimp only
          rw [innerScan_congr hbuf, hscan]
          refine congrArg some (bytesAt_congr fun i hi => ?_)
          rw [Nat.zero_add]
          exact hbuf i (by omega)

end Open

/-! ## Receiving -/

section Receive

variable {R : RecordEnv} {c c' : Conn κ}

theorem pending_of_boundary (h : AtBoundary c') (hwire : c'.wire = c.wire) :
    c'.pending = c'.ring ++ c.wire.flatten := by
  unfold Conn.pending
  rw [h.held_eq, hwire, List.nil_append]

/-- Where the reader waits, nothing of what is to come has been taken. -/
theorem pending_of_wait (hheld : c'.held = c.held ++ c.ring) (hring : c'.ring = [])
    (hwire : c'.wire = c.wire) : c'.pending = c.pending := by
  unfold Conn.pending
  rw [hheld, hring, hwire, List.append_nil]

theorem length_record_le {s rest body : List UInt8} {ty : UInt8}
    (h : parseOne s = some (.record ty body, rest)) : body.length ≤ recBufSize := by
  cases head_of_parseOne h with
  | record _ _ _ hcap hlen => exact hlen ▸ hcap

/-- Opening a record leaves the reader alone. -/
theorem decryptAt_reader (R : RecordEnv) (c : Conn κ) (len : Nat) : (decryptAt R c len).1.ring = c.ring ∧
    (decryptAt R c len).1.wire = c.wire ∧ (decryptAt R c len).1.recvCount = c.recvCount := by
  cases hans : answer R c len with
  | none =>
      rw [decryptAt_none hans]
      exact ⟨rfl, rfl, rfl⟩
  | some plain =>
      cases hscan : innerScan (store c.hs.recBuf 0 plain) len with
      | none =>
          rw [decryptAt_padding hans hscan]
          exact ⟨rfl, rfl, rfl⟩
      | some found =>
          rw [decryptAt_some hans hscan]
          exact ⟨rfl, rfl, rfl⟩

/-- A call leaves the reader inside a record or behind one, and behind one if it hands one over. -/
theorem recv_reading {r : Conn κ × Bool} (h : Reading c) (hrun : tlsRecordRecvAndDecrypt R c = some r) :
    Reading r.1 ∧ (r.2 = true → AtBoundary r.1) := by
  refine loop_rule Reading (fun r => Reading r.1 ∧ (r.2 = true → AtBoundary r.1)) ?_ _ c r h hrun
  intro c h
  have hfail := fun c : Conn κ => (tlsRecFrameFail_step R c).1
  have hstep := tlsRecvRecord_step R h
  unfold recvDecryptTurn
  generalize tlsRecvRecord R c = r at hstep ⊢
  dsimp only
  cases hstep with
  | wait hread _ _ _ _ =>
      rw [if_pos rfl]
      exact ⟨hread, fun hok => (nomatch hok)⟩
  | bad hbound _ _ _ =>
      rw [if_pos rfl]
      exact ⟨hbound.reading, fun hok => (nomatch hok)⟩
  | record hbound hparse hhdr hkeep hstate =>
      rename_i c'
      rw [if_neg (by simp)]
      split
      · split
        · exact hbound.reading
        · exact ⟨(hfail c').reading, fun hok => (nomatch hok)⟩
      · have hgot : AtBoundary (recordGot R c').1 := by
          unfold recordGot
          split
          · exact hbound
          split
          · exact hfail c'
          have hchk : AtBoundary (tlsRecDecryptChk R c').1 := by
            unfold tlsRecDecryptChk
            split
            · exact hfail c'
            · rw [tlsRecordDecrypt_eq]
              obtain ⟨hdec, -⟩ := decryptAt_spec R c' (sub16 c'.hs.recLen 16)
              exact ⟨hdec.recvState_eq.trans hbound.1, (decryptAt_reader R c' _).2.2.trans hbound.2⟩
          dsimp only
          split
          · exact hchk
          · unfold tlsRecAuthFail
            split
            · exact hchk
            · exact hchk
        exact ⟨hgot.reading, fun _ => hgot⟩

/-- While the ServerHello is awaited, in the builds without the hybrid reader. -/
structure Awaits (x : Option (UInt8 × List UInt8)) (c : Conn κ) : Prop where
  reading : Reading c
  state : c.hs.tlsState.code < TlsState.encryptedExt.code
  hello : helloRecord (items c.pending) = x

theorem Awaits.poll {x : Option (UInt8 × List UInt8)} (h : Awaits x c) : Awaits x (netPoll c) :=
  ⟨netPoll_reading h.reading, h.state, netPoll_pending c ▸ h.hello⟩

/-- The record that is handed over is the first that is no ChangeCipherSpec. -/
theorem recv_hello (hR : R.pqHybrid = false) {x : Option (UInt8 × List UInt8)} {ok : Bool}
    (h : Awaits x c) (hrun : tlsRecordRecvAndDecrypt R c = some (c', ok)) :
    if ok = true then x = some (c'.recType, c'.record) else Awaits x c' := by
  refine loop_rule (Awaits x)
    (fun r => if r.2 = true then x = some (r.1.recType, r.1.record) else Awaits x r.1) ?_ _ c (c', ok) h hrun
  intro c h
  have hstep := tlsRecvRecord_step R h.reading
  unfold recvDecryptTurn
  generalize tlsRecvRecord R c = r at hstep ⊢
  dsimp only
  cases hstep with
  | wait hread hheld hring hkeep hstate =>
      rw [if_pos rfl, Turn.post_leave, if_neg Bool.false_ne_true]
      exact ⟨hread, hstate ▸ h.state, pending_of_wait hheld hring hkeep.wire_eq ▸ h.hello⟩
  | bad hbound hparse hkeep hstate =>
      -- the bytes that are no record are passed over, and the stream begins at the next
      rw [if_pos rfl, Turn.post_leave, if_neg Bool.false_ne_true]
      have hsame : failState R c.hs.tlsState = c.hs.tlsState := by
        unfold failState
        rw [hR, if_neg Bool.false_ne_true, if_pos h.state]
      have hhello := h.hello
      rw [Conn.pending, items_of_some (parseOne_append c.wire.flatten hparse)] at hhello
      refine ⟨hbound.reading, (hstate.trans hsame) ▸ h.state, ?_⟩
      rw [pending_of_boundary hbound hkeep.wire_eq]
      exact hhello
  | record hbound hparse hhdr hkeep hstate =>
      rename_i c'
      have hst : c'.hs.tlsState.code < TlsState.encryptedExt.code := hstate ▸ h.state
      have hhello := h.hello
      rw [Conn.pending, items_of_some (parseOne_append c.wire.flatten hparse)] at hhello
      unfold helloRecord at hhello
      rw [if_neg (by simp)]
      by_cases hccs : c'.recType = ctChangeCipher
      · have hconn : c'.hs.tlsState.code < TlsState.connected.code := Nat.lt_trans hst (by decide)
        rw [if_pos hccs] at hhello
        rw [if_pos hccs, if_pos hconn]
        refine ⟨hbound.reading, hst, ?_⟩
        rw [pending_of_boundary hbound hkeep.wire_eq]
        exact hhello
      · rw [if_neg hccs] at hhello
        rw [if_neg hccs]
        unfold recordGot
        rw [if_pos hst]
        exact hhello.symm

/-- In the flight: the read keys are those of the handshake, and `T` is opened from here on. -/
structure Opening (R : RecordEnv) (k : DirKeys) (T : List (List UInt8)) (c : Conn κ) : Prop where
  reading : Reading c
  state : HandshakeState c.hs.tlsState
  keys : tlsSelectKeys c .read = k
  texts : c.texts R k = T

theorem Opening.poll {k : DirKeys} {T : List (List UInt8)} (h : Opening R k T c) :
    Opening R k T (netPoll c) := by
  refine ⟨netPoll_reading h.reading, h.state, h.keys, ?_⟩
  have htexts := h.texts
  unfold Conn.texts at htexts ⊢
  rw [netPoll_pending]
  exact htexts

/-- What the record layer hands over in the flight is the next text; what it does not hand over and does not end
the connection leaves the texts as they are. -/
def Opened₁ (R : RecordEnv) (k : DirKeys) (T : List (List UInt8)) (r : Conn κ × Bool) : Prop :=
  if r.2 = true then ∃ T', T = r.1.record :: T' ∧ AtBoundary r.1 ∧ Opening R k T' r.1
  else r.1.hs.tlsState ≠ .error → Opening R k T r.1

theorem recordGot_opened {k : DirKeys} {T : List (List UInt8)} {xs : List Item} (hbound : AtBoundary c)
    (hhdr : HasHeader c) (hcap : c.hs.recLen ≤ recBufSize) (hst : HandshakeState c.hs.tlsState)
    (hkeys : tlsSelectKeys c .read = k) (hccs : c.recType ≠ ctChangeCipher) (hxs : items c.pending = xs)
    (htexts : openedTexts R k c.readSeq (.record c.recType c.record :: xs) = T) :
    Opened₁ R k T (recordGot R c) := by
  have hsize : recBufSize = 548 := rfl
  have herror : ∀ c' : Conn κ, c'.hs.tlsState = .error → Opened₁ R k T (c', false) := by
    intro c' herr hne
    exact absurd herr hne
  unfold recordGot
  rw [if_neg (Nat.not_lt.2 hst.1)]
  by_cases hty : c.recType = ctApplication
  swap
  · -- a record of another type is fatal in the flight
    rw [if_pos hty]
    exact herror _ (tlsRecFrameFail_error R hst.1)
  rw [if_neg (not_not.2 hty)]
  dsimp only
  have hfail := (tlsRecAuthFail_spec (tlsRecDecryptChk R c).1).2.1
  cases hok : (tlsRecDecryptChk R c).2 with
  | false =>
      rw [if_neg Bool.false_ne_true]
      exact herror _ hfail
  | true =>
      rw [if_pos rfl]
      -- a record that opens is longer than its tag
      have hlong : 16 < c.hs.recLen := by
        by_contra hshort
        unfold tlsRecDecryptChk at hok
        rw [if_pos ⟨by omega, by omega⟩] at hok
        cases hok
      have hchk : tlsRecDecryptChk R c = tlsRecordDecrypt R c := by
        unfold tlsRecDecryptChk
        rw [if_neg (by omega)]
      rw [hchk] at hok ⊢
      have hpair : tlsRecordDecrypt R c = ((tlsRecordDecrypt R c).1, true) := by
        rw [← hok]
      obtain ⟨hopen, hseq⟩ := openRecord_eq hhdr hlong (by omega) hpair
      obtain ⟨hdec, -⟩ := decryptAt_spec R c (sub16 c.hs.recLen 16)
      rw [← tlsRecordDecrypt_eq] at hdec
      have hreader := decryptAt_reader R c (sub16 c.hs.recLen 16)
      rw [← tlsRecordDecrypt_eq] at hreader
      rw [hpair] at hdec
      generalize (tlsRecordDecrypt R c).1 = c' at *
      obtain ⟨hring, hwire, hcount⟩ := hreader
      have hbound' : AtBoundary c'.handOver := ⟨hdec.recvState_eq.trans hbound.1, hcount.trans hbound.2⟩
      have hpend : c'.handOver.pending = c.pending := by
        rw [pending_of_boundary hbound' hwire, pending_of_boundary hbound rfl]
        exact congrArg (· ++ _) hring
      unfold openedTexts at htexts
      rw [if_neg hccs, ← hkeys, hopen] at htexts
      refine ⟨_, htexts.symm, hbound', hbound'.reading, ?_, ?_, ?_⟩
      · show HandshakeState c'.hs.tlsState
        rw [hdec.state_eq]
        exact hst
      · rw [← hkeys]
        show tlsSelectKeys c' .read = _
        unfold tlsSelectKeys
        rw [hdec.state_eq, rest_hsKeys hdec.rest_eq, rest_appKeys hdec.rest_eq]
      · unfold Conn.texts
        rw [hpend, hxs, ← hseq, hkeys]
        rfl

/-- One call of `tls_record_recv_and_decrypt` in the flight. -/
theorem recv_opened {k : DirKeys} {T : List (List UInt8)} {r : Conn κ × Bool} (h : Opening R k T c)
    (hrun : tlsRecordRecvAndDecrypt R c = some r) : Opened₁ R k T r := by
  refine loop_rule (Opening R k T) (Opened₁ R k T) ?_ _ c r h hrun
  intro c h
  have hstep := tlsRecvRecord_step R h.reading
  have hspec : RecvRecord R c (tlsRecvRecord R c) := recvFrom_spec R c.ring c
  have htexts := h.texts
  unfold Conn.texts Conn.pending at htexts
  unfold recvDecryptTurn
  generalize tlsRecvRecord R c = r at hstep hspec ⊢
  dsimp only
  cases hstep with
  | wait hread hheld hring hkeep hstate =>
      rename_i c'
      rw [if_pos rfl, Turn.post_leave]
      unfold Opened₁
      rw [if_neg Bool.false_ne_true]
      intro _
      have hkept : c'.rest = c.rest ∧ c'.readSeq = c.readSeq := by
        rcases hspec.none rfl with hreads | hfails
        · exact ⟨hreads.rest_eq, hreads.readSeq_eq⟩
        · exact ⟨hfails.rest_eq, hfails.readSeq_eq⟩
      refine ⟨hread, ?_, ?_, ?_⟩
      · rw [hstate]
        exact h.state
      · rw [← h.keys]
        unfold tlsSelectKeys
        rw [hstate, rest_hsKeys hkept.1, rest_appKeys hkept.1]
      · unfold Conn.texts
        rw [hkept.2, pending_of_wait hheld hring hkeep.wire_eq]
        exact htexts
  | bad hbound hparse hkeep hstate =>
      rw [if_pos rfl, Turn.post_leave]
      unfold Opened₁
      rw [if_neg Bool.false_ne_true]
      exact fun hne => absurd (hstate.trans (failState_encrypted R h.state.1)) hne
  | record hbound hparse hhdr hkeep hstate =>
      rename_i c'
      rw [items_of_some (parseOne_append c.wire.flatten hparse)] at htexts
      have hreads := hspec.got rfl
      have hst : HandshakeState c'.hs.tlsState := by
        rw [hstate]
        exact h.state
      have hkeys : tlsSelectKeys c' .read = k := (hreads.selectKeys .read).trans h.keys
      have hseq : c'.readSeq = c.readSeq := hreads.readSeq_eq
      have hpend := pending_of_boundary hbound hkeep.wire_eq
      rw [if_neg (by simp)]
      -- a ChangeCipherSpec is read over, and every other record ends the call
      by_cases hccs : c'.recType = ctChangeCipher
      · rw [if_pos hccs, if_pos hst.2]
        unfold openedTexts at htexts
        rw [if_pos hccs] at htexts
        refine ⟨hbound.reading, hst, hkeys, ?_⟩
        unfold Conn.texts
        rw [hpend, hseq]
        exact htexts
      · rw [if_neg hccs, Turn.post_leave]
        have hlen : c'.record.length = c'.hs.recLen := length_bytesAt _ _ _
        refine recordGot_opened hbound hhdr ?_ hst hkeys hccs (congrArg items hpend) (hseq ▸ htexts)
        rw [← hlen]
        exact length_record_le hparse

end Receive

end Tls
end C64Https
