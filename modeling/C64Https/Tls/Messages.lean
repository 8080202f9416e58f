import C64Https.Tls.CertList
import C64Https.Tls.Pump

/-!
# Messages — one pump on a message that is no Certificate

Such a message is dispatched where it lies, or gathered in the carry.  Either way the handler gets
its body and the hash of what came before it, and the pump stops behind its last byte.  The three
results are what a pump does from the two states it can find itself in: in the header of a message
(`HdrPart`) and in the body of a carried one (`CarryPart`).
-/

namespace C64Https
namespace Tls

open Word Loop Bytes

variable {κ : Type}

/-- A handshake message. -/
structure HsMsg where
  ty : UInt8
  body : List UInt8
  deriving DecidableEq, Repr

namespace HsMsg

def bytes (m : HsMsg) : List UInt8 :=
  hsMessage m.ty m.body

/-- What the carry can hold. -/
structure Carriable (m : HsMsg) : Prop where
  notCert : m.ty ≠ hsCertificate
  nonempty : m.body ≠ []
  fits : m.body.length ≤ dfCarryMaxBody

theorem length_bytes (m : HsMsg) : m.bytes.length = 4 + m.body.length :=
  length_hsMessage m.ty m.body

theorem bytes_eq (m : HsMsg) : m.bytes = (m.ty :: len24 m.body.length) ++ m.body :=
  rfl

theorem take_four (m : HsMsg) : m.bytes.take 4 = m.ty :: len24 m.body.length :=
  rfl

theorem drop_four (m : HsMsg) : m.bytes.drop 4 = m.body :=
  rfl

end HsMsg

/-- The gate admits messages of this type in some state, so `df_dispatch` has a handler for it. -/
def Handled (ty : UInt8) : Prop :=
  ∃ st, dueType st = some ty

/-! ## Dispatch -/

/-- The message `d` was dispatched in the step from `s`, and `s'` is behind it. -/
structure MsgDone (s s' : Hs κ) (r : Ret) (d : Dispatched) : Prop where
  part : HdrPart s' []
  transcript_eq : s'.transcript = s.transcript
  pending_eq : s'.pending = s.pending
  folded_eq : folded s'.trace = folded s.trace
  dispatched_eq : dispatched s'.trace = dispatched s.trace ++ [d]
  ret_eq : r = if d.ok then .msg else .err .dispatch

theorem dfHandler_isSome (E : Env κ) (ptr : Nat) (view : Buffer) {s : Hs κ}
    (h : Handled (s.hdr 0)) : ∃ keys ok, dfHandler E (s.handed ptr view) s.keys = some (keys, ok) := by
  rcases h with ⟨st, hst⟩
  unfold dfHandler Hs.handed
  -- the four types of the table are the four arms of the switch
  cases st with
  | encryptedExt =>
      have hty : s.hdr 0 = hsEncryptedExt := (Option.some.inj hst).symm
      rw [hty]
      exact ⟨_, _, rfl⟩
  | certificate =>
      have hty : s.hdr 0 = hsCertificate := (Option.some.inj hst).symm
      rw [hty]
      exact ⟨_, _, rfl⟩
  | certVerify =>
      have hty : s.hdr 0 = hsCertVerify := (Option.some.inj hst).symm
      rw [hty]
      exact ⟨_, _, rfl⟩
  | finished =>
      have hty : s.hdr 0 = hsFinished := (Option.some.inj hst).symm
      rw [hty]
      exact ⟨_, _, rfl⟩
  | idle => cases hst
  | clientHello => cases hst
  | serverHello => cases hst
  | connected => cases hst
  | error => cases hst

theorem dfDispatch_done (E : Env κ) (ptr : Nat) (view : Buffer) {s : Hs κ} (h : RecInv s)
    (hty : Handled (s.hdr 0)) :
    ∃ ok, MsgDone s (dfDispatch E ptr view s).1 (dfDispatch E ptr view s).2
      ⟨s.hdr 0, bytesAt view 4 s.msgLen, s.snap, ok⟩ := by
  have hinv := dfDispatch_inv E ptr view h
  unfold RetInv at hinv
  revert hinv
  obtain ⟨keys, ok, hk⟩ := dfHandler_isSome E ptr view
    (s := { s with mode := .hdr, hdrHave := 0, hdrSplit := false }) hty
  unfold dfDispatch
  simp only [hk]
  intro hinv
  refine ⟨ok, ?_⟩
  cases ok with
  | true =>
      refine ⟨⟨hinv, rfl, rfl, bytesAt_zero _ _, fun hne => absurd rfl hne⟩, rfl, rfl, ?_, ?_, rfl⟩
      · simp [folded, Event.folded]
      · simp [dispatched, Event.dispatched]
  | false =>
      refine ⟨⟨hinv, rfl, rfl, bytesAt_zero _ _, fun hne => absurd rfl hne⟩, rfl, rfl, ?_, ?_, rfl⟩
      · simp [dfFail, folded, Event.folded]
      · simp [dfFail, dispatched, Event.dispatched]

/-! ## Where a message is -/

/-- What came before a message. -/
structure Past where
  transcript : Transcript
  folded : List UInt8
  dispatched : List Dispatched

/-- The past of the next message. -/
def Past.next (E : Env κ) (b : Past) (m : HsMsg) (ok : Bool) : Past where
  transcript := tlsTranscriptUpdate E.sha b.transcript m.bytes
  folded := b.folded ++ m.bytes
  dispatched := b.dispatched ++ [⟨m.ty, m.body, tlsTranscriptHash E.sha b.transcript, ok⟩]

/-- The bytes `pre` of the header of the next message have been collected; they are folded only
once the header is complete. -/
structure AtMessage (s : Hs κ) (b : Past) (pre : List UInt8) : Prop where
  part : HdrPart s pre
  transcript_eq : s.transcript = b.transcript
  folded_eq : folded s.trace = b.folded
  dispatched_eq : dispatched s.trace = b.dispatched

/-- The first `j` bytes of `m` are in the carry, and have been folded. -/
structure CarryPart (E : Env κ) (s : Hs κ) (b : Past) (m : HsMsg) (j : Nat) : Prop where
  inv : DfInv s
  mode_eq : s.mode = .carry
  ty_eq : s.hdr 0 = m.ty
  msgLen_eq : s.msgLen = m.body.length
  off_eq : s.carryOff = j
  rem_eq : j + s.msgRem = m.bytes.length
  carry_eq : bytesAt s.carryBuf 0 j = m.bytes.take j
  snap_eq : s.snap = tlsTranscriptHash E.sha b.transcript
  transcript_eq : s.transcript = tlsTranscriptUpdate E.sha b.transcript (m.bytes.take j)
  folded_eq : folded s.trace = b.folded ++ m.bytes.take j
  dispatched_eq : dispatched s.trace = b.dispatched

/-- What a pump does that finds `pos` bytes of `m` taken before it and does not run out of them:
it takes the whole record into the carry, or it dispatches `m`. -/
inductive PumpsOn (E : Env κ) (s : Hs κ) (b : Past) (m : HsMsg) (pos : Nat) : Hs κ × Ret → Prop where
  | inside {s' : Hs κ} (hshort : pos + s.pending.length < m.bytes.length)
      (hpart : CarryPart E s' b m (pos + s.pending.length)) (hpend : s'.pending = []) :
      PumpsOn E s b m pos (s', .more)
  | done {s' : Hs κ} (ok : Bool) (hlong : m.bytes.length ≤ pos + s.pending.length)
      (hat : AtMessage s' (b.next E m ok) [])
      (hpend : s'.pending = s.pending.drop (m.bytes.length - pos)) :
      PumpsOn E s b m pos (s', if ok then .msg else .err .dispatch)

/-- The first `k` bytes of the record were taken on the way. -/
theorem PumpsOn.of_drop {E : Env κ} {s g : Hs κ} {b : Past} {m : HsMsg} {pos k : Nat}
    {r : Hs κ × Ret} (h : PumpsOn E g b m (pos + k) r) (hk : k ≤ s.pending.length)
    (hpos : pos + k ≤ m.bytes.length) (hg : g.pending = s.pending.drop k) :
    PumpsOn E s b m pos r := by
  have hlen : g.pending.length = s.pending.length - k := by
    rw [hg, List.length_drop]
  cases h with
  | inside hshort hpart hpend =>
      have heq : pos + k + g.pending.length = pos + s.pending.length := by
        omega
      exact .inside (by omega) (heq ▸ hpart) hpend
  | done ok hlong hat hpend =>
      refine .done ok (by omega) hat ?_
      rw [hpend, hg, List.drop_drop]
      congr 1
      omega

theorem MsgDone.atMessage {E : Env κ} {s s' : Hs κ} {r : Ret} {b : Past} {m : HsMsg} {ok : Bool}
    (h : MsgDone s s' r ⟨m.ty, m.body, tlsTranscriptHash E.sha b.transcript, ok⟩)
    (ht : s.transcript = tlsTranscriptUpdate E.sha b.transcript m.bytes)
    (hf : folded s.trace = b.folded ++ m.bytes) (hd : dispatched s.trace = b.dispatched) :
    AtMessage s' (b.next E m ok) [] :=
  ⟨h.part, h.transcript_eq.trans ht, h.folded_eq.trans hf, by rw [h.dispatched_eq, hd]; rfl⟩

/-! ## The carry -/

theorem CarryPart.chunk {E : Env κ} {s : Hs κ} {b : Past} {m : HsMsg} {j : Nat}
    (h : CarryPart E s b m j) (hp : PumpInv s) {n : Nat} (hav : n ≤ s.avail) (hrem : n ≤ s.msgRem)
    (hbytes : s.pending.take n = (m.bytes.drop j).take n) :
    CarryPart E (dfCarryChunk E s n) b m (j + n) ∧
      (dfCarryChunk E s n).pending = s.pending.drop n := by
  have hpend := hp.avail_pending
  have hrec := recOff_lt hp.toRecInv
  have hfit := hp.carry_fits h.mode_eq
  have hcap : dfCarrySize = 280 := rfl
  have havl := hp.avail_eq
  have hread : bytesAt s.recBuf s.recOff n = s.pending.take n := (take_pending s (by omega)).symm
  have hoff : add16 s.recOff n = s.recOff + n := add16_of_lt (by omega)
  have hcarry : add16 s.carryOff n = s.carryOff + n := add16_of_lt (by omega)
  have hsub : sub16 s.msgRem n = s.msgRem - n := sub16_of_le hrem (by omega)
  have hsplit : m.bytes.take (j + n) = m.bytes.take j ++ s.pending.take n := by
    rw [List.take_add, hbytes]
  have hlen : (s.pending.take n).length = n := by
    rw [List.length_take]
    omega
  refine ⟨⟨dfCarryChunk_inv E hp h.mode_eq hav hrem, h.mode_eq, h.ty_eq, h.msgLen_eq, ?_, ?_, ?_,
    h.snap_eq, ?_, ?_, ?_⟩, ?_⟩
  · show add16 s.carryOff n = j + n
    rw [hcarry, h.off_eq]
  · have hall := h.rem_eq
    show j + n + sub16 s.msgRem n = m.bytes.length
    omega
  · -- the chunk is written just behind what the carry holds
    have hstore : bytesAt (store s.carryBuf (0 + j) (s.pending.take n)) 0
        (j + (s.pending.take n).length) = bytesAt s.carryBuf 0 j ++ s.pending.take n :=
      bytesAt_store_append _ _ _ _
    rw [hlen, Nat.zero_add, h.carry_eq, ← hsplit, ← hread] at hstore
    rw [← hstore, ← h.off_eq]
    rfl
  · calc (dfCarryChunk E s n).transcript
        = tlsTranscriptUpdate E.sha s.transcript (bytesAt s.recBuf s.recOff n) := rfl
      _ = tlsTranscriptUpdate E.sha (tlsTranscriptUpdate E.sha b.transcript (m.bytes.take j))
            (s.pending.take n) := by rw [h.transcript_eq, hread]
      _ = tlsTranscriptUpdate E.sha b.transcript (m.bytes.take (j + n)) := by
            rw [hsplit, tlsTranscriptUpdate_append]
  · rw [hsplit, ← List.append_assoc, ← h.folded_eq, ← hread]
    simp [dfCarryChunk, dfConsumeChunk, dfCopyCarry, Hs.foldRec, folded, Event.folded]
  · rw [← h.dispatched_eq]
    simp [dfCarryChunk, dfConsumeChunk, dfCopyCarry, Hs.foldRec, dispatched, Event.dispatched]
  · show bytesAt s.recBuf (add16 s.recOff n) (s.recLen - add16 s.recOff n) = s.pending.drop n
    rw [hoff, Hs.pending, drop_bytesAt _ _ (by omega), Nat.sub_sub]

/-- The body consumer, wherever the record ends. -/
theorem dfCarryBody_pumpsOn (E : Env κ) {s : Hs κ} {b : Past} {m : HsMsg} {j : Nat}
    (h : CarryPart E s b m j) (hp : PumpInv s) (hty : Handled m.ty)
    (hlive : j < m.bytes.length)
    (hbytes : s.pending.take s.msgRem = (m.bytes.drop j).take s.pending.length) :
    PumpsOn E s b m j (dfCarryBody E s) := by
  have hpend := hp.avail_pending
  have hrem := h.rem_eq
  have hmin := dfChunkMin_eq s
  by_cases hz : s.avail = 0
  · have hnil : s.pending = [] := List.length_eq_zero_iff.1 (by omega)
    have hstop : dfCarryBody E s = (s, .more) := by
      unfold dfCarryBody
      rw [if_pos hz]
      rfl
    rw [hstop]
    refine .inside (by omega) ?_ hnil
    rw [hnil]
    exact h
  · have htake : s.pending.take (dfChunkMin s) = (m.bytes.drop j).take (dfChunkMin s) := by
      have hlen : (m.bytes.drop j).length = s.msgRem := by
        rw [List.length_drop]
        omega
      rcases Nat.le_total s.avail s.msgRem with hle | hle
      · rw [show dfChunkMin s = s.pending.length by omega, ← hbytes, List.take_length,
          List.take_of_length_le (by omega)]
      · rw [show dfChunkMin s = s.msgRem by omega, hbytes, List.take_of_length_le (by omega),
          List.take_of_length_le (by omega)]
    obtain ⟨hpart, hleft⟩ := h.chunk hp (n := dfChunkMin s) (by omega) (by omega) htake
    have hrem' := hpart.rem_eq
    rw [dfCarryBody_eq E hz]
    split
    · -- the message is complete, in the carry
      rename_i hdone
      have hall : j + dfChunkMin s = m.bytes.length := by
        omega
      have hsame : dfChunkMin s = m.bytes.length - j := by
        omega
      have hwhole := hpart.carry_eq
      rw [hall, List.take_length] at hwhole
      have hbody : bytesAt (dfCarryChunk E s (dfChunkMin s)).carryBuf 4
          (dfCarryChunk E s (dfChunkMin s)).msgLen = m.body := by
        have hdrop := drop_bytesAt (dfCarryChunk E s (dfChunkMin s)).carryBuf 0
          (k := 4) (n := m.bytes.length) (by rw [m.length_bytes]; omega)
        rw [hwhole, m.drop_four, m.length_bytes, Nat.add_sub_cancel_left] at hdrop
        rw [hpart.msgLen_eq]
        exact hdrop.symm
      obtain ⟨ok, hdisp⟩ := dfDispatch_done E E.carryBufAddr
        (dfCarryChunk E s (dfChunkMin s)).carryBuf (s := dfCarryChunk E s (dfChunkMin s))
        hpart.inv.toRecInv (by rw [hpart.ty_eq]; exact hty)
      rw [hbody, hpart.ty_eq, hpart.snap_eq] at hdisp
      have ht := hpart.transcript_eq
      have hf := hpart.folded_eq
      rw [hall, List.take_length] at ht hf
      have hrun : dfDispatch E E.carryBufAddr (dfCarryChunk E s (dfChunkMin s)).carryBuf
          (dfCarryChunk E s (dfChunkMin s)) =
          ((dfDispatch E E.carryBufAddr (dfCarryChunk E s (dfChunkMin s)).carryBuf
            (dfCarryChunk E s (dfChunkMin s))).1, if ok then .msg else .err .dispatch) :=
        Prod.ext rfl hdisp.ret_eq
      rw [hrun]
      refine .done ok (by omega) (hdisp.atMessage ht hf hpart.dispatched_eq) ?_
      rw [hdisp.pending_eq, hleft, hsame]
    · rename_i hopen
      have hsame : dfChunkMin s = s.pending.length := by
        omega
      refine .inside (by omega) (hsame ▸ hpart) ?_
      rw [hleft, hsame, List.drop_length]

theorem CarryPart.dfAvail {E : Env κ} {s : Hs κ} {b : Past} {m : HsMsg} {j : Nat}
    (h : CarryPart E s b m j) : CarryPart E (dfAvail s) b m j :=
  ⟨h.inv.pump.toDfInv, h.mode_eq, h.ty_eq, h.msgLen_eq, h.off_eq, h.rem_eq, h.carry_eq, h.snap_eq,
    h.transcript_eq, (folded_congr (marks_dfAvail s)).trans h.folded_eq,
    (dispatched_congr (marks_dfAvail s)).trans h.dispatched_eq⟩

/-- A pump in the middle of a carried message. -/
theorem pump_carry (E : Env κ) {s : Hs κ} {b : Past} {m : HsMsg} {j : Nat}
    (h : CarryPart E s b m j) (hty : Handled m.ty) (hlive : j < m.bytes.length)
    (hbytes : s.pending.take s.msgRem = (m.bytes.drop j).take s.pending.length) :
    ∃ r, tlsDeframePump E s = some r ∧ PumpsOn E s b m j r := by
  have hm : (dfAvail s).mode = .carry := h.mode_eq
  have hon : PumpsOn E (dfAvail s) b m (j + 0) (dfCarryBody E (dfAvail s)) :=
    dfCarryBody_pumpsOn E h.dfAvail h.inv.pump hty hlive hbytes
  refine ⟨dfCarryBody E (dfAvail s), ?_, hon.of_drop (Nat.zero_le _) (by omega) rfl⟩
  unfold tlsDeframePump
  dsimp only
  rw [hm]

/-! ## The header -/

/-- A pump that leaves the header of the next message incomplete. -/
theorem pump_header (E : Env κ) {s : Hs κ} {b : Past} {pre : List UInt8} (h : AtMessage s b pre)
    (hlen : pre.length + s.pending.length < 4) :
    ∃ s', tlsDeframePump E s = some (s', .more) ∧ AtMessage s' b (pre ++ s.pending) ∧
      s'.pending = [] := by
  obtain ⟨s', hpump, hpart, haround, hleft⟩ := pump_hdr_part E h.part hlen
  exact ⟨s', hpump, ⟨hpart, haround.transcript_eq.trans h.transcript_eq,
    (folded_congr haround.marks_eq).trans h.folded_eq,
    (dispatched_congr haround.marks_eq).trans h.dispatched_eq⟩, hleft⟩

/-- The state in which `@hdr_complete` finds the message `m`. -/
structure HeaderOf (g : Hs κ) (b : Past) (m : HsMsg) : Prop where
  inv : PumpInv g
  mode_eq : g.mode = .hdr
  hdr_eq : bytesAt g.hdr 0 4 = m.bytes.take 4
  transcript_eq : g.transcript = b.transcript
  folded_eq : folded g.trace = b.folded
  dispatched_eq : dispatched g.trace = b.dispatched

section Complete

variable {g : Hs κ} {b : Past} {m : HsMsg}

theorem HeaderOf.ty_eq (h : HeaderOf g b m) : g.hdr 0 = m.ty := by
  have hhdr := h.hdr_eq
  rw [m.take_four] at hhdr
  exact (hdr_bytes hhdr).1

theorem HeaderOf.msgLen_eq (E : Env κ) (h : HeaderOf g b m) (hlen : m.body.length < 65536) :
    g.hdr 1 = 0 ∧ (dfHdrFold E g).msgLen = m.body.length := by
  have hhdr := h.hdr_eq
  rw [m.take_four] at hhdr
  obtain ⟨_, h1, h2, h3⟩ := hdr_bytes hhdr
  refine ⟨?_, ?_⟩
  · rw [h1, Nat.div_eq_of_lt hlen]
    rfl
  · show word (g.hdr 2) (g.hdr 3) = m.body.length
    rw [h2, h3, word_hi_lo hlen]

/-- The header is folded, and the snapshot taken before it. -/
theorem HeaderOf.folded_header (E : Env κ) (h : HeaderOf g b m) :
    (dfHdrFold E g).transcript = tlsTranscriptUpdate E.sha b.transcript (m.bytes.take 4) ∧
      (dfHdrFold E g).snap = tlsTranscriptHash E.sha b.transcript ∧
        folded (dfHdrFold E g).trace = b.folded ++ m.bytes.take 4 ∧
          dispatched (dfHdrFold E g).trace = b.dispatched := by
  refine ⟨?_, ?_, ?_, ?_⟩
  · rw [← h.hdr_eq, ← h.transcript_eq]
    rfl
  · rw [← h.transcript_eq]
    rfl
  · rw [← h.hdr_eq, ← h.folded_eq]
    simp [dfHdrFold, folded, Event.folded]
  · rw [← h.dispatched_eq]
    simp [dfHdrFold, dispatched, Event.dispatched]

theorem dfInPlace_pumpsOn (E : Env κ) (h : HeaderOf g b m) (hlen : m.body.length < 65536)
    (hty : Handled m.ty) (hfit : m.body.length ≤ g.avail)
    (hbytes : g.pending.take m.body.length = m.body) :
    PumpsOn E g b m 4 (dfInPlace E (dfHdrFold E g)) := by
  have hinv := dfHdrFold_inv E h.inv h.mode_eq
  have hrec := recOff_lt h.inv.toRecInv
  have hle := h.inv.recOff_le
  have havl := h.inv.avail_eq
  have hpend := h.inv.avail_pending
  obtain ⟨_, hmsg⟩ := h.msgLen_eq E hlen
  obtain ⟨ht, hs, hf, hd⟩ := h.folded_header E
  have hread : bytesAt g.recBuf g.recOff m.body.length = m.body := by
    rw [← take_pending g (by omega), hbytes]
  -- the handler's pointer is four bytes back, its view the record from there on
  have hview : bytesAt (fun i => g.recBuf (add16 (sub16 g.recOff 4) i)) 4 m.body.length =
      m.body := by
    have hback : bytesAt (fun i => g.recBuf (add16 (sub16 g.recOff 4) i)) 4 m.body.length =
        bytesAt g.recBuf g.recOff m.body.length := by
      refine bytesAt_congr ?_
      intro i hi
      rw [add16_sub16 (by omega)]
    rw [hback, hread]
  have hfit' : (dfHdrFold E g).msgLen ≤ (dfHdrFold E g).avail := by
    rw [hmsg]
    exact hfit
  obtain ⟨ok, hdisp⟩ := dfDispatch_done E (sub16 (E.recBufAddr + g.recOff) 4)
    (fun i => g.recBuf (add16 (sub16 g.recOff 4) i)) (s := dfInPlaceTaken E (dfHdrFold E g))
    (dfInPlaceTaken_inv E hinv hfit') (by rw [← h.ty_eq] at hty; exact hty)
  have hmsg' : (dfInPlaceTaken E (dfHdrFold E g)).msgLen = m.body.length := hmsg
  have hty' : (dfInPlaceTaken E (dfHdrFold E g)).hdr 0 = m.ty := h.ty_eq
  have hsnap : (dfInPlaceTaken E (dfHdrFold E g)).snap = tlsTranscriptHash E.sha b.transcript := hs
  rw [hmsg', hty', hsnap, hview] at hdisp
  have hwhole : m.bytes = m.bytes.take 4 ++ m.body := rfl
  have ht' : (dfInPlaceTaken E (dfHdrFold E g)).transcript =
      tlsTranscriptUpdate E.sha b.transcript m.bytes := by
    calc (dfInPlaceTaken E (dfHdrFold E g)).transcript
        = tlsTranscriptUpdate E.sha (dfHdrFold E g).transcript
            (bytesAt g.recBuf g.recOff (dfHdrFold E g).msgLen) := rfl
      _ = tlsTranscriptUpdate E.sha b.transcript m.bytes := by
            rw [ht, hmsg, hread, ← tlsTranscriptUpdate_append, ← hwhole]
  have hf' : folded (dfInPlaceTaken E (dfHdrFold E g)).trace = b.folded ++ m.bytes := by
    have hone : folded (dfInPlaceTaken E (dfHdrFold E g)).trace = folded (dfHdrFold E g).trace ++
        bytesAt g.recBuf g.recOff (dfHdrFold E g).msgLen := by
      simp [dfInPlaceTaken, Hs.foldRec, folded, Event.folded, dfHdrFold]
    rw [hone, hf, hmsg, hread, List.append_assoc, ← hwhole]
  have hd' : dispatched (dfInPlaceTaken E (dfHdrFold E g)).trace = b.dispatched := by
    rw [← hd]
    simp [dfInPlaceTaken, Hs.foldRec, dispatched, Event.dispatched]
  have hleft : (dfInPlaceTaken E (dfHdrFold E g)).pending = g.pending.drop m.body.length := by
    show bytesAt g.recBuf (add16 g.recOff (dfHdrFold E g).msgLen)
      (g.recLen - add16 g.recOff (dfHdrFold E g).msgLen) = _
    rw [hmsg, add16_of_lt (by omega), Hs.pending, drop_bytesAt _ _ (by omega), Nat.sub_sub]
  have hrun : dfInPlace E (dfHdrFold E g) =
      ((dfInPlace E (dfHdrFold E g)).1, if ok then .msg else .err .dispatch) :=
    Prod.ext rfl hdisp.ret_eq
  rw [hrun]
  refine .done ok (by rw [m.length_bytes]; omega) (hdisp.atMessage ht' hf' hd') ?_
  rw [m.length_bytes, Nat.add_sub_cancel_left, ← hleft]
  exact hdisp.pending_eq

/-- The carry starts with the header. -/
theorem carryBegin_part (E : Env κ) (h : HeaderOf g b m) (hc : m.Carriable) :
    PumpInv (dfCarryBegin (dfHdrFold E g)) ∧ CarryPart E (dfCarryBegin (dfHdrFold E g)) b m 4 := by
  have hcap : dfCarryMaxBody = 276 := rfl
  have hfits := hc.fits
  obtain ⟨_, hmsg⟩ := h.msgLen_eq E (by omega)
  obtain ⟨ht, hs, hf, hd⟩ := h.folded_header E
  have hle : (dfHdrFold E g).msgRem ≤ dfCarryMaxBody := by
    have hrem : (dfHdrFold E g).msgRem = m.body.length := hmsg
    omega
  have hinv := dfCarryBegin_inv (dfHdrFold_inv E h.inv h.mode_eq) hle
  refine ⟨hinv, ⟨hinv.toDfInv, rfl, h.ty_eq, hmsg, rfl, ?_, ?_, hs, ht, ?_, ?_⟩⟩
  · rw [m.length_bytes]
    show 4 + (dfHdrFold E g).msgLen = _
    rw [hmsg]
  · have hstore := bytesAt_store_self g.carryBuf 0 (bytesAt g.hdr 0 4)
    rw [length_bytesAt, h.hdr_eq] at hstore
    rw [← hstore, ← h.hdr_eq]
    rfl
  · rw [← hf]
    simp [dfCarryBegin, folded, Event.folded]
  · rw [← hd]
    simp [dfCarryBegin, dispatched, Event.dispatched]

/-- `@hdr_complete` on an admitted message, by either route. -/
theorem hdrComplete_pumpsOn (E : Env κ) (h : HeaderOf g b m) (hc : m.Carriable)
    (hgate : tlsHsSeqCheck g.tlsState m.ty = true)
    (hbytes : g.pending.take m.body.length = m.body.take g.pending.length) :
    ∃ r, dfHdrComplete E g = some r ∧ PumpsOn E g b m 4 r := by
  have hcap : dfCarryMaxBody = 276 := rfl
  have hfits := hc.fits
  have hty : Handled m.ty := ⟨_, (tlsHsSeqCheck_iff _ _).1 hgate⟩
  have hpend := h.inv.avail_pending
  obtain ⟨hzero, hmsg⟩ := h.msgLen_eq E (by omega)
  have hpos : m.body.length ≠ 0 := by
    intro hz
    exact hc.nonempty (List.length_eq_zero_iff.1 hz)
  unfold dfHdrComplete
  rw [h.ty_eq, hgate, if_neg (by simp), if_neg (by simp [hzero])]
  unfold dfRoute
  split
  · -- in place: the whole body is in the record
    rename_i hin
    have hfit : m.body.length ≤ g.avail := by
      rw [← hmsg]
      exact hin.2
    refine ⟨_, rfl, dfInPlace_pumpsOn E h (by omega) hty hfit ?_⟩
    rw [hbytes, List.take_of_length_le (by omega)]
  · have hcert : (dfHdrFold E g).hdr 0 ≠ hsCertificate := by
      intro heq
      exact hc.notCert (h.ty_eq.symm.trans heq)
    have hsmall : ¬ dfCarryMaxBody < (dfHdrFold E g).msgLen := by
      rw [hmsg]
      omega
    rw [if_neg hcert, if_neg hsmall]
    obtain ⟨hinv, hpart⟩ := carryBegin_part E h hc
    have hrem : (dfCarryBegin (dfHdrFold E g)).msgRem = m.body.length := hmsg
    have hsame : (dfCarryBegin (dfHdrFold E g)).pending = g.pending := rfl
    have hon := dfCarryBody_pumpsOn E hpart hinv hty (by rw [m.length_bytes]; omega)
      (by rw [hrem, hsame, m.drop_four]; exact hbytes)
    exact ⟨_, rfl, PumpsOn.of_drop (k := 0) hon (Nat.zero_le _) (by rw [m.length_bytes]; omega) rfl⟩

end Complete

/-- The bytes to come, split where the header ends. -/
theorem cut_header {pre hd rest xs ys : List UInt8} (h : pre ++ (xs ++ ys) = hd ++ rest)
    (hhd : hd.length = 4) (hpre : pre.length ≤ 4) (hlen : 4 ≤ pre.length + xs.length) :
    pre ++ xs.take (4 - pre.length) = hd ∧ xs.drop (4 - pre.length) ++ ys = rest := by
  have hcut : (pre ++ xs.take (4 - pre.length)) ++ (xs.drop (4 - pre.length) ++ ys) =
      hd ++ rest := by
    rw [List.append_assoc, ← List.append_assoc (xs.take _), List.take_append_drop, h]
  refine List.append_inj hcut ?_
  rw [List.length_append, List.length_take, hhd]
  omega

/-- Two strings with a common continuation agree as far as the shorter one goes. -/
theorem take_take_of_append {xs ys as bs : List UInt8} (h : xs ++ ys = as ++ bs) :
    xs.take as.length = as.take xs.length := by
  have h₁ : (xs ++ ys).take (min xs.length as.length) = xs.take as.length := by
    rw [List.take_append_of_le_length (Nat.min_le_left _ _), ← List.take_take,
      List.take_of_length_le (List.length_take_le' _ _)]
  have h₂ : (as ++ bs).take (min xs.length as.length) = as.take xs.length := by
    rw [List.take_append_of_le_length (Nat.min_le_right _ _), Nat.min_comm, ← List.take_take,
      List.take_of_length_le (List.length_take_le' _ _)]
  rw [← h₁, ← h₂, h]

section Header

variable {s : Hs κ} {b : Past} {pre rest ys : List UInt8} {m : HsMsg}

theorem pump_headerOf (E : Env κ) (h : AtMessage s b pre) (hpre : pre.length ≤ 4)
    (hbytes : pre ++ (s.pending ++ ys) = m.bytes ++ rest)
    (hlen : 4 ≤ pre.length + s.pending.length) :
    ∃ g, tlsDeframePump E s = dfHdrComplete E g ∧ HeaderOf g b m ∧ g.tlsState = s.tlsState ∧
      g.pending = s.pending.drop (4 - pre.length) ∧ g.pending ++ ys = m.body ++ rest := by
  obtain ⟨g, hpump, hhere, hpend, _⟩ := pump_hdr_here E h.part hpre hlen
  have hsplit : pre ++ (s.pending ++ ys) = m.bytes.take 4 ++ (m.body ++ rest) := by
    rw [hbytes, m.take_four, m.bytes_eq, List.append_assoc]
  obtain ⟨hhd, hrest⟩ := cut_header hsplit rfl hpre hlen
  rw [hhd] at hhere
  have haround := hhere.around
  refine ⟨g, hpump, ⟨hhere.inv, hhere.mode_eq, hhere.hdr_eq,
    haround.transcript_eq.trans h.transcript_eq,
    (folded_congr haround.marks_eq).trans h.folded_eq,
    (dispatched_congr haround.marks_eq).trans h.dispatched_eq⟩, haround.tlsState_eq, hpend, ?_⟩
  rw [hpend, hrest]

/-- A pump that completes the header of an admitted message. -/
theorem pump_message (E : Env κ) (h : AtMessage s b pre) (hc : m.Carriable)
    (hgate : tlsHsSeqCheck s.tlsState m.ty = true) (hpre : pre.length ≤ 4)
    (hbytes : pre ++ (s.pending ++ ys) = m.bytes ++ rest)
    (hlen : 4 ≤ pre.length + s.pending.length) :
    ∃ r, tlsDeframePump E s = some r ∧ PumpsOn E s b m pre.length r := by
  obtain ⟨g, hpump, hof, hstate, hpend, hrest⟩ := pump_headerOf E h hpre hbytes hlen
  obtain ⟨r, hr, hon⟩ := hdrComplete_pumpsOn E hof hc (by rw [hstate]; exact hgate)
    (take_take_of_append hrest)
  have hfour : pre.length + (4 - pre.length) = 4 := by
    omega
  rw [← hfour] at hon
  have hfits := m.length_bytes
  exact ⟨r, hpump.trans hr, hon.of_drop (by omega) (by omega) hpend⟩

/-- A pump that completes the header of a message that the gate refuses: nothing was folded. -/
theorem pump_refused (E : Env κ) (h : AtMessage s b pre)
    (hgate : tlsHsSeqCheck s.tlsState m.ty = false) (hpre : pre.length ≤ 4)
    (hbytes : pre ++ (s.pending ++ ys) = m.bytes ++ rest)
    (hlen : 4 ≤ pre.length + s.pending.length) :
    ∃ s', tlsDeframePump E s = some (s', .err .seq) ∧ s'.transcript = b.transcript ∧
      folded s'.trace = b.folded ∧ dispatched s'.trace = b.dispatched := by
  obtain ⟨g, hpump, hof, hstate, _, _⟩ := pump_headerOf E h hpre hbytes hlen
  have hshut : tlsHsSeqCheck g.tlsState (g.hdr 0) = false := by
    rw [hstate, hof.ty_eq]
    exact hgate
  refine ⟨{ g with lastErr := some .seq }, ?_, hof.transcript_eq, hof.folded_eq,
    hof.dispatched_eq⟩
  rw [hpump]
  unfold dfHdrComplete
  rw [if_pos hshut]
  rfl

end Header

end Tls
end C64Https
