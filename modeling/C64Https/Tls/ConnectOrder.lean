import C64Https.Tls.MessageLog
import C64Https.Tls.RecordSpec

/-!
# ConnectOrder — what a connection that reaches `CONNECTED` has seen

`tls_connect` writes `tls_state` and receives, four times.  Each receive that succeeds adds the entry
of the message due in that state to the handshake log and nothing else (`tlsRecvEncrypted_entry`),
so the log of a connection that reaches `CONNECTED` is the four entries in order
(`connect_order`).
-/

namespace C64Https
namespace Tls

open Word Loop Bytes Fallible

variable {κ : Type}

/-! ## The record layer under the log -/

section Below

variable {c c' : Conn κ}

theorem Standing.of_rest {base : List Step} {st : TlsState} (h : Standing base st c.hs)
    (hrest : c'.rest = c.rest) (hs : c'.hs.tlsState = c.hs.tlsState) :
    Standing base st c'.hs := by
  rw [rest_hs hrest]
  cases h with
  | header hm hst hl => exact .header hm (hs.trans hst) hl
  | carry hm hst hdue hl => exact .carry hm (hs.trans hst) hdue hl
  | stream hdue hat => exact .stream hdue (hat.move rfl hs rfl id)

end Below

/-! ## One receive -/

/-- Before the receive of the message due in `st`. -/
structure Ready (E : ConnEnv κ) (base : List Step) (st : TlsState) (c : Conn κ) : Prop where
  reader : c.recvState = .header
  state_eq : c.hs.tlsState = st
  log : steps c.hs.trace = base
  mode_eq : E.streamDeframe = true → c.hs.mode = .hdr

/-- After it: one entry more. -/
def Received (E : ConnEnv κ) (base : List Step) (st : TlsState) (c : Conn κ) : Prop :=
  ∃ entry, MessageEntry st entry ∧ Ready E (base ++ entry) st c

/-- The wait: what the record layer hands over goes to `got`, and any other outcome that does not
end the connection goes round. -/
theorem encWait_post {E : ConnEnv κ} {c : Conn κ} {timeout : Nat} {Q : Conn κ → Prop}
    {got : Conn κ → Turn (Conn κ × Nat × EncAt) (Option (Conn κ × Bool))}
    {J : Conn κ × Nat × EncAt → Prop} (hlen : LenChecked c)
    (hgot : ∀ c', RecvDecrypt (netPoll c) c' true → HandsOver (netPoll c) (c', true) →
      c'.recvState = .header → (got c').Post J (Lands Q))
    (hagain : ∀ c' t, RecvDecrypt (netPoll c) c' false → HandsOver (netPoll c) (c', false) →
      c'.hs.tlsState = c.hs.tlsState → LenChecked c' → J (c', t, .wait)) :
    (encWait E c timeout got).Post J (Lands Q) := by
  unfold encWait
  cases hrun : tlsRecordRecvAndDecrypt E.toRecordEnv (netPoll c) with
  | none => exact lands_none Q
  | some r =>
      rcases r with ⟨c', ok⟩
      obtain ⟨hspec, hreader⟩ := recv_spec E.toRecordEnv (c := netPoll c) hlen hrun
      have hover := recv_got E.toRecordEnv hrun
      cases ok with
      | true =>
          dsimp only
          split
          · exact lands_fail Q _
          · exact hgot c' hspec hover (hreader.header rfl)
      | false =>
          dsimp only
          split
          · exact lands_fail Q _
          · rename_i hne
            have hstate := hspec.state_eq (Or.inr hne)
            split
            · exact lands_fail Q _
            · exact hagain c' _ hspec hover hstate hreader.len

/-- Between two turns: at a record boundary before a pump. -/
def AtTurn (base : List Step) (st : TlsState) (x : Conn κ × Nat × EncAt) : Prop :=
  LenChecked x.1 ∧ (x.2.2 = .pump → x.1.recvState = .header) ∧ Standing base st x.1.hs

/-- A turn of the receive over the deframer: the pump is where the log moves. -/
theorem encTurn_spec (E : ConnEnv κ) {base : List Step} {st : TlsState} (x : Conn κ × Nat × EncAt)
    (h : AtTurn base st x) :
    (encTurn E x).Post (AtTurn base st) (Lands (Received E base st)) := by
  rcases x with ⟨c, timeout, place⟩
  obtain ⟨hlen, hreader, hat⟩ := h
  cases place with
  | pump =>
      have hst : c.recvState = .header := hreader rfl
      unfold encTurn
      dsimp only
      cases hpump : tlsDeframePump E.df c.hs with
      | none => exact lands_none _
      | some r =>
          rcases r with ⟨hs, ret⟩
          have hp := tlsDeframePump_pumped E.df hat hpump
          cases ret with
          | msg =>
              obtain ⟨hm, hs', entry, hentry, hl⟩ := hp.msg rfl
              exact lands_success ⟨entry, hentry, ⟨hst, hs', hl, fun _ => hm⟩⟩
          | more => exact ⟨lenChecked_of_header hst, fun _ => hst, hp.more rfl⟩
          | err e => exact lands_fail _ _
  | wait =>
      refine encWait_post hlen ?_ ?_
      · intro c' hspec _ hst
        have hs : Standing base st c'.hs := hat.of_rest hspec.rest_eq (hspec.state_eq (Or.inl rfl))
        -- the new record is pumped from its first byte
        refine ⟨lenChecked_of_header hst, fun _ => hst, ?_⟩
        cases hs with
        | header hm hst hlog => exact .header hm hst hlog
        | carry hm hst hdue hlog => exact .carry hm hst hdue hlog
        | stream hdue hat => exact .stream hdue (hat.move rfl rfl rfl id)
      · intro c' t hspec _ hstate hl
        exact ⟨hl, fun hc => (by cases hc), hat.of_rest hspec.rest_eq hstate⟩

/-- A turn of the receive without the deframer. -/
theorem encWholeTurn_spec (E : ConnEnv κ) (hE : E.streamDeframe = false) {base : List Step}
    {st : TlsState} (x : Conn κ × Nat × EncAt)
    (h : LenChecked x.1 ∧ x.1.hs.tlsState = st ∧ steps x.1.hs.trace = base) :
    (encWholeTurn E x).Post
      (fun x => LenChecked x.1 ∧ x.1.hs.tlsState = st ∧ steps x.1.hs.trace = base)
      (Lands (Received E base st)) := by
  rcases x with ⟨c, timeout, place⟩
  obtain ⟨hlen, hs, hl⟩ := h
  refine encWait_post hlen ?_ ?_
  · intro c' hspec _ hst c'' hc''
    have hstate := hspec.state_eq (Or.inl rfl)
    have htrace : steps c'.hs.trace = base := by
      rw [rest_trace hspec.rest_eq]
      exact hl
    have hok : (encWhole E.df c'.hs).2 = true := by
      simpa using congrArg (fun r => r.map Prod.snd) hc''
    obtain ⟨hkeep, entry, hentry, hlog⟩ := encWhole_entry E.df htrace hok
    have hst' : c'.hs.tlsState = st := hstate.trans hs
    rw [hst'] at hentry
    rw [hok] at hc''
    cases hc''
    exact ⟨entry, hentry, ⟨hst, hkeep.trans hst', hlog, fun hc => by rw [hE] at hc; cases hc⟩⟩
  · intro c' t hspec _ hstate hl'
    refine ⟨hl', hstate.trans hs, ?_⟩
    rw [rest_trace hspec.rest_eq]
    exact hl

/-- `tls_recv_encrypted`, on either arm: success adds the entry of the message due. -/
theorem tlsRecvEncrypted_entry (E : ConnEnv κ) (base : List Step) (st : TlsState) :
    Triple (Ready E base st) (tlsRecvEncrypted E) (Received E base st) (fun _ => True) := by
  refine Triple.of_lands fun c h c' hrun => ?_
  unfold tlsRecvEncrypted at hrun
  split at hrun
  · rename_i hE
    refine loop_lands (AtTurn base st) (fun x hx => encTurn_spec E x hx) ?_ hrun
    exact ⟨lenChecked_of_header h.reader, fun _ => h.reader,
      .header (h.mode_eq hE) h.state_eq h.log⟩
  · rename_i hE
    refine loop_lands _ (fun x hx => encWholeTurn_spec E (by simpa using hE) x hx) ?_ hrun
    exact ⟨lenChecked_of_header h.reader, h.state_eq, h.log⟩

/-! ## Before the flight -/

/-- The deframer has not run since `s`. -/
def Resting (s : Hs κ) (c : Conn κ) : Prop :=
  c.hs.trace = s.trace ∧ c.hs.csNeed = s.csNeed

/-- And the reader stands at a record boundary. -/
def Quiet (s : Hs κ) (c : Conn κ) : Prop :=
  c.recvState = .header ∧ Resting s c

theorem Resting.of_rest {s : Hs κ} {c c' : Conn κ} (h : Resting s c) (hrest : c'.rest = c.rest) :
    Resting s c' := by
  unfold Resting
  rw [rest_hs hrest]
  exact h

theorem Resting.of_hs {s : Hs κ} {c c' : Conn κ} (h : Resting s c) (hhs : c'.hs = c.hs) :
    Resting s c' := by
  unfold Resting
  rw [hhs]
  exact h

theorem tlsSendRecord_hs (R : RecordEnv) (c : Conn κ) :
    (tlsSendRecord R c).1.hs = c.hs ∧ (tlsSendRecord R c).1.recvState = c.recvState := by
  unfold tlsSendRecord
  dsimp only
  split
  · exact ⟨rfl, rfl⟩
  · exact ⟨rfl, rfl⟩

theorem tlsChSection_quiet (E : ConnEnv κ) (s : Hs κ) (bs : List UInt8) :
    Triple (Quiet s) (tlsChSection E bs) (Quiet s) (fun _ => True) := by
  intro c h c' ok hrun
  unfold tlsChSection at hrun
  dsimp only at hrun
  split at hrun
  · cases hrun
    exact h
  · rename_i hfail
    have hok : ok = false := by
      have := congrArg (fun r => r.map Prod.snd) hrun
      simp only [Option.map_some, Option.some.injEq] at this
      rw [← this]
      simpa using hfail
    rw [hok]
    trivial

theorem tlsSendClientHello_quiet (E : ConnEnv κ) (s : Hs κ) (h : Hello) :
    Triple (Quiet s) (tlsSendClientHello E h) (Quiet s) (fun _ => True) := by
  have hsections : Triple (Quiet s) (tlsChSendSections E h) (Quiet s) (fun _ => True) := by
    refine Triple.next (Q := Quiet s) (Triple.next (Q := Quiet s)
      (Triple.next (Q := Quiet s) ?_ (tlsChSection_quiet E s _))
      (tlsChSection_quiet E s _)) (tlsChSection_quiet E s _)
    intro c hc c' ok hrun
    cases hrun
    generalize E.sendOk _ = sent
    cases sent with
    | true => exact hc
    | false => trivial
  have hclassic : Triple (Quiet s) (tlsChSendClassic E) (Quiet s) (fun _ => True) := by
    intro c hc c' ok hrun
    cases ok with
    | false => trivial
    | true =>
        obtain ⟨hhs, hrecv⟩ := tlsSendRecord_hs E.toRecordEnv
          { c with recHdr := recordHeader ctHandshake c.hs.recLen c.recHdr }
        unfold tlsChSendClassic tlsRecordSendPlaintext at hrun
        dsimp only at hrun
        split at hrun
        · cases hrun
          have hrest : Resting s (tlsSendRecord E.toRecordEnv
              { c with recHdr := recordHeader ctHandshake c.hs.recLen c.recHdr }).1 :=
            Resting.of_hs (c := c) hc.2 hhs
          exact ⟨hrecv.trans hc.1, hrest⟩
        · rename_i hfail
          exact absurd (congrArg (fun r => r.map Prod.snd) hrun) (by simpa using hfail)
  intro c hc
  unfold tlsSendClientHello
  dsimp only
  split
  · exact hclassic _ hc
  · exact hsections _ hc

/-- From any state, the way to the ClientHello leaves the reader at a record boundary. -/
theorem connectHello_quiet (E : ConnEnv κ) (s : Hs κ) :
    Triple (Resting s) (connectHello E) (Quiet s) (fun _ => True) := by
  intro c hc c' ok hrun
  unfold connectHello at hrun
  dsimp only at hrun
  split at hrun
  · cases hrun
    trivial
  · refine tlsSendClientHello_quiet E s _ _ ?_ c' ok hrun
    exact ⟨rfl, hc⟩

theorem shRecord_quiet (E : ConnEnv κ) {s : Hs κ} {c : Conn κ} (timeout : Nat)
    (h : Quiet s c) :
    (shRecord E c timeout).Post (fun x => LenChecked x.1 ∧ Resting s x.1)
      (Lands (Quiet s)) := by
  unfold shRecord
  split
  · split
    · exact lands_fail _ _
    · dsimp only
      split
      · exact lands_success h
      · exact ⟨lenChecked_of_header h.1, h.2⟩
  split
  · exact lands_fail _ _
  split
  · exact lands_none _
  · exact lands_fail _ _
  · exact lands_success h

theorem shTurn_quiet (E : ConnEnv κ) {s : Hs κ} (x : Conn κ × Nat)
    (h : LenChecked x.1 ∧ Resting s x.1) :
    (shTurn E x).Post (fun x => LenChecked x.1 ∧ Resting s x.1) (Lands (Quiet s)) := by
  rcases x with ⟨c, timeout⟩
  obtain ⟨hlen, hl⟩ := h
  unfold shTurn
  dsimp only
  cases hrun : tlsRecordRecvAndDecrypt E.toRecordEnv (netPoll c) with
  | none => exact lands_none _
  | some r =>
      rcases r with ⟨c', ok⟩
      obtain ⟨hspec, hreader⟩ := recv_spec E.toRecordEnv (c := netPoll c) hlen hrun
      have hl' : Resting s c' := Resting.of_rest (c := netPoll c) hl hspec.rest_eq
      cases ok with
      | true => exact shRecord_quiet E timeout ⟨hreader.header rfl, hl'⟩
      | false =>
          dsimp only
          split
          · exact lands_fail _ _
          · split
            · exact lands_fail _ _
            · exact ⟨hreader.len, hl'⟩

theorem shWait_quiet (E : ConnEnv κ) (s : Hs κ) :
    Triple (Quiet s) (shWait E) (Quiet s) (fun _ => True) := by
  refine Triple.of_lands fun c h c' hrun => ?_
  unfold shWait at hrun
  dsimp only at hrun
  exact loop_lands _ (fun x hx => shTurn_quiet E x hx) ⟨lenChecked_of_header h.1, h.2⟩ hrun

theorem shDrainPolls_quiet {s : Hs κ} (n : Nat) :
    ∀ c : Conn κ, Quiet s c → Quiet s (shDrainPolls n c) := by
  induction n with
  | zero =>
      intro c h
      exact h
  | succ n ih =>
      intro c h
      exact ih (netPoll c) h

theorem sharedSecret_quiet (E : ConnEnv κ) (s : Hs κ) :
    Triple (Quiet s) (sharedSecret E) (Quiet s) (fun _ => True) := by
  intro c h c' ok hrun
  cases ok with
  | false => trivial
  | true =>
      unfold sharedSecret at hrun
      dsimp only at hrun
      generalize (if E.pqHybrid = true then E.pqShDecaps c.hs.keys c.pq
        else (c.hs.keys, true)) = r at hrun
      split at hrun
      · cases hrun
      · have hstate := congrArg (fun r => r.map Prod.fst) hrun
        cases hstate
        exact h

/-- The ServerHello and the first key change log nothing. -/
theorem connectServerHello_quiet (E : ConnEnv κ) (s : Hs κ) :
    Triple (Quiet s) (connectServerHello E) (Quiet s) (fun _ => True) := by
  have hrecv : Triple (Quiet s) (tlsRecvServerHello E) (Quiet s) (fun _ => True) :=
    Triple.next (Triple.next (shWait_quiet E s) (Triple.pure (shDrainPolls_quiet _)))
      (sharedSecret_quiet E s)
  exact Triple.next (Triple.next (Triple.pure fun c h => h) hrecv) (Triple.pure fun c h => h)

/-! ## The flight -/

/-- Between two messages of the flight. -/
structure Between (E : ConnEnv κ) (base : List Step) (c : Conn κ) : Prop where
  reader : c.recvState = .header
  log : steps c.hs.trace = base
  mode_eq : E.streamDeframe = true → c.hs.mode = .hdr

theorem expect_entry (E : ConnEnv κ) (base : List Step) (st : TlsState) :
    Triple (Between E base) (expect E st)
      (fun c => ∃ entry, MessageEntry st entry ∧ Between E (base ++ entry) c) (fun _ => True) := by
  refine Triple.next (Q := Ready E base st) (Triple.pure fun c h => ?_) ?_
  · exact ⟨h.reader, rfl, h.log, h.mode_eq⟩
  · refine (tlsRecvEncrypted_entry E base st).mono (fun c h => h) ?_ (fun _ h => h)
    rintro c ⟨entry, hentry, h⟩
    exact ⟨entry, hentry, h.reader, h.log, h.mode_eq⟩

theorem flightStart_between (E : ConnEnv κ) {s : Hs κ} {c : Conn κ} (h : Quiet s c) :
    Between E (steps s.trace) (flightStart E c) := by
  have hlog : steps c.hs.trace = steps s.trace := congrArg steps h.2.1
  unfold flightStart
  split
  · exact ⟨h.1, hlog, fun _ => rfl⟩
  · rename_i hE
    exact ⟨h.1, hlog, fun hE' => absurd hE' hE⟩

/-- One entry behind the other, for the states of `sts`. -/
def Seen (E : ConnEnv κ) (base : List Step) (sts : List TlsState) (c : Conn κ) : Prop :=
  ∃ entries, List.Forall₂ MessageEntry sts entries ∧ Between E (base ++ entries.flatten) c

theorem expect_seen (E : ConnEnv κ) (base : List Step) (sts : List TlsState) (st : TlsState) :
    Triple (Seen E base sts) (expect E st) (Seen E base (sts ++ [st])) (fun _ => True) := by
  refine Triple.exists fun entries => ?_
  rintro c ⟨hall, hat⟩ c' ok hrun
  have hpost := expect_entry E _ st c hat c' ok hrun
  cases ok with
  | false => trivial
  | true =>
      obtain ⟨entry, hentry, hat'⟩ := hpost
      refine ⟨entries ++ [entry], List.rel_append hall (.cons hentry .nil), ?_⟩
      rw [List.flatten_append, List.flatten_singleton, ← List.append_assoc]
      exact hat'

/-- The four states in which an encrypted message is due. -/
abbrev flightStates : List TlsState :=
  [.encryptedExt, .certificate, .certVerify, .finished]

theorem connectFlight_seen (E : ConnEnv κ) (s : Hs κ) :
    Triple (Quiet s) (connectFlight E) (Seen E (steps s.trace) flightStates) (fun _ => True) := by
  have hstart : Triple (Quiet s) (Routine.pure (flightStart E)) (Seen E (steps s.trace) [])
      (fun _ => True) := by
    refine Triple.pure fun c h => ⟨[], .nil, ?_⟩
    rw [List.flatten_nil, List.append_nil]
    exact flightStart_between E h
  exact ((hstart.next (expect_seen E _ _ .encryptedExt)).next
    (expect_seen E _ _ .certificate)).next (expect_seen E _ _ .certVerify) |>.next
      (expect_seen E _ _ .finished)

/-! ## After the flight -/

theorem tlsRecordSendEncrypted_trace (R : RecordEnv) (c : Conn κ) :
    (tlsRecordSendEncrypted R c).1.hs.trace = c.hs.trace := by
  unfold tlsRecordSendEncrypted
  rw [(tlsSendRecord_hs R (tlsRecordEncrypt R c)).1]
  rfl

theorem tlsSendFinished_trace (E : ConnEnv κ) {c : Conn κ} {r : Conn κ × Bool}
    (h : tlsSendFinished E c = some r) : r.1.hs.trace = c.hs.trace := by
  cases h
  exact tlsRecordSendEncrypted_trace _ _

theorem connectFinish_connected (E : ConnEnv κ) (base : List Step) :
    Triple (fun c => steps c.hs.trace = base) (connectFinish E)
      (fun c => c.hs.tlsState = .connected ∧ steps c.hs.trace = base) (fun _ => True) := by
  have hsend : Triple (fun c => steps c.hs.trace = base) (certPinSendFinished E)
      (fun c => steps c.hs.trace = base) (fun _ => True) := by
    intro c hc c' ok hrun
    cases ok with
    | false => trivial
    | true =>
        unfold certPinSendFinished at hrun
        split at hrun
        · have htrace : c'.hs.trace = c.hs.trace := tlsSendFinished_trace E hrun
          exact (congrArg steps htrace).trans hc
        · cases hrun
  exact Triple.next (Triple.next (Triple.pure fun c h => h) hsend)
    (Triple.pure fun c h => ⟨rfl, h⟩)

/-! ## The whole connection -/

/-- An entry is the handler's one run, but where the Certificate is due. -/
theorem MessageEntry.eq_whole {st : TlsState} {ty : UInt8} {entry : List Step}
    (h : MessageEntry st entry) (hdue : dueType st = some ty) (hne : ty ≠ hsCertificate) :
    entry = [.admitted st ty, .ran ty true] := by
  cases h with
  | whole hdue' =>
      rw [hdue] at hdue'
      cases hdue'
      rfl
  | streamed hdue' k =>
      rw [hdue] at hdue'
      cases hdue'
      exact absurd rfl hne

/-- A connection that reaches `CONNECTED` has accepted the ServerHello (`c₂`), and from there on the
four messages, each let through in its own state and each accepted by its handler, and no other. -/
theorem connect_order (E : ConnEnv κ) {c c' : Conn κ} (h : tlsConnect E c = some (c', true)) :
    c'.hs.tlsState = .connected ∧
      ∃ c₁ c₂, connectHello E c = some (c₁, true) ∧ connectServerHello E c₁ = some (c₂, true) ∧
        steps c₂.hs.trace = steps c.hs.trace ∧
          ∃ cert, MessageEntry .certificate cert ∧
            steps c'.hs.trace = steps c₂.hs.trace ++
              ([.admitted .encryptedExt hsEncryptedExt, .ran hsEncryptedExt true] ++ cert ++
                [.admitted .certVerify hsCertVerify, .ran hsCertVerify true,
                  .admitted .finished hsFinished, .ran hsFinished true]) := by
  obtain ⟨c₃, h₁₂₃, h₄⟩ := Routine.next_success (Routine.onFail_success h)
  obtain ⟨c₂, h₁₂, h₃⟩ := Routine.next_success h₁₂₃
  obtain ⟨c₁, h₁, h₂⟩ := Routine.next_success h₁₂
  have hquiet₁ := (connectHello_quiet E c.hs).success ⟨rfl, rfl⟩ h₁
  have hquiet₂ := (connectServerHello_quiet E c.hs).success hquiet₁ h₂
  have hlog : steps c₂.hs.trace = steps c.hs.trace := congrArg steps hquiet₂.2.1
  obtain ⟨entries, hall, hat⟩ := (connectFlight_seen E c.hs).success hquiet₂ h₃
  obtain ⟨hst, hl⟩ := (connectFinish_connected E _).success hat.log h₄
  cases hall with
  | cons hee hall =>
  cases hall with
  | cons hcert hall =>
  cases hall with
  | cons hcv hall =>
  cases hall with
  | cons hfin hall =>
  cases hall
  have hee' := hee.eq_whole rfl (by decide)
  have hcv' := hcv.eq_whole rfl (by decide)
  have hfin' := hfin.eq_whole rfl (by decide)
  refine ⟨hst, c₁, c₂, h₁, h₂, hlog, _, hcert, ?_⟩
  rw [hl, hlog, hee', hcv', hfin']
  simp

/-- The whole flight in one record, the Certificate in place. -/
theorem connect_order_coalesced :
    ∃ c' : Conn Unit, c'.hs.tlsState = .connected ∧ ∃ cert, MessageEntry .certificate cert ∧
      steps c'.hs.trace =
        [.admitted .encryptedExt hsEncryptedExt, .ran hsEncryptedExt true] ++ cert ++
          [.admitted .certVerify hsCertVerify, .ran hsCertVerify true,
            .admitted .finished hsFinished, .ran hsFinished true] := by
  have hrun : (tlsConnect ConnEnv.accepting (Conn.blank
      [wireRecord ctHandshake sampleServerHello ++ sealedRecord sampleFlight])).map Prod.snd =
        some true := by
    decide +kernel
  obtain ⟨⟨c', ok⟩, h, hok⟩ := Option.map_eq_some_iff.1 hrun
  cases hok
  obtain ⟨hst, c₁, c₂, h₁, h₂, hl, cert, hcert, hlog⟩ := connect_order ConnEnv.accepting h
  refine ⟨c', hst, cert, hcert, ?_⟩
  rw [hl] at hlog
  exact hlog

end Tls
end C64Https
