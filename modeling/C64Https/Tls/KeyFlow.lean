import C64Https.Tls.ConnectOrder

/-!
# KeyFlow — what a connection makes of the keys

In the encrypted flight only the handlers touch the state of the keys.  A *rule* for the message due
in a state says what they make of keys with `P`: a message that is accepted leaves keys with `Q`, one
that is refused keys with `X` (`KeyRule`).  A rule for the handlers is a rule for
`tls_recv_encrypted`, whichever route the message takes and however the records cut it
(`tlsRecvEncrypted_keys`).
-/

namespace C64Https
namespace Tls

open Word Loop Bytes Fallible

variable {κ : Type}

/-! ## Rules -/

/-- The switch of the two dispatchers. -/
def runHandler (E : Env κ) (ty : UInt8) (ptr : Nat) (view : Buffer) (snap : List UInt8) (k : κ) :
    Option (κ × Bool) :=
  if ty = hsEncryptedExt then some (k, true)
  else if ty = hsCertificate then some (E.tlsHandleCertificate ptr view k)
  else if ty = hsCertVerify then some (E.tlsHandleCertVerify ptr view snap k)
  else if ty = hsFinished then some (E.tlsVerifyFinished ptr view snap k)
  else none

/-- Keys and a verdict: `Q` of the keys, or `X`. -/
def Settles (Q X : κ → Prop) (r : κ × Bool) : Prop :=
  if r.2 = true then Q r.1 else X r.1

/-- What the handlers of the message due in `st` make of keys with `P`. -/
structure KeyRule (E : Env κ) (st : TlsState) (P Q X : κ → Prop) : Prop where
  before : ∀ k, P k → X k
  after : ∀ k, Q k → X k
  message : ∀ ty ptr view snap k r, dueType st = some ty → P k →
    runHandler E ty ptr view snap k = some r → Settles Q X r
  /-- the streamed route may come to the extractor again -/
  leaf : dueType st = some hsCertificate → ∀ buf len k, P k ∨ Q k →
    Settles Q X (E.tlsCertStreamFinish buf len k)

/-! ## One pump -/

section Pumps

variable {E : Env κ} {st : TlsState} {P Q X : κ → Prop} {s : Hs κ} {r : Hs κ × Ret}

/-- In the body of a streamed Certificate. -/
structure StreamKeys (st : TlsState) (P Q : κ → Prop) (s : Hs κ) : Prop where
  mode_eq : s.mode = .stream
  state_eq : s.tlsState = st
  keys : (P s.keys ∧ BeforeLeaf s) ∨ Q s.keys

/-- How a pump returns: still before the message, with the message, or failed. -/
structure PumpedKeys (I : Hs κ → Prop) (st : TlsState) (Q X : κ → Prop) (r : Hs κ × Ret) :
    Prop where
  more : r.2 = .more → I r.1
  msg : r.2 = .msg → r.1.mode = .hdr ∧ r.1.tlsState = st ∧ Q r.1.keys
  err : ∀ e, r.2 = .err e → X r.1.keys

theorem PumpedKeys.fail {I : Hs κ → Prop} {st : TlsState} {Q X : κ → Prop} {s : Hs κ}
    (h : X s.keys) (e : DfErr) : PumpedKeys I st Q X (dfFail s e) :=
  ⟨fun hr => (by cases hr), fun hr => (by cases hr), fun _ _ => h⟩

theorem StreamKeys.still {s' : Hs κ} (h : StreamKeys st P Q s) (hs : Still s s') :
    StreamKeys st P Q s' := by
  refine ⟨hs.mode_eq.trans h.mode_eq, hs.state_eq.trans h.state_eq, ?_⟩
  rw [hs.keys_eq]
  exact h.keys.imp_left fun hk => ⟨hk.1, hs.before hk.2⟩

theorem StreamKeys.weaken (h : StreamKeys st P Q s) : P s.keys ∨ Q s.keys :=
  h.keys.imp_left And.left

theorem csTurn_keys (hrule : KeyRule E st P Q X) (hdue : dueType st = some hsCertificate)
    (h : StreamKeys st P Q s) :
    (csTurn E s).Post (StreamKeys st P Q) (PumpedKeys (StreamKeys st P Q) st Q X) := by
  have hany : X s.keys := h.weaken.elim (hrule.before _) (hrule.after _)
  have hleaf : ∀ {s' : Hs κ} {ok : Bool}, LeafRan E s s' ok →
      Settles Q X (s'.keys, ok) := by
    intro s' ok hran
    obtain ⟨buf, len, hfinish⟩ := hran.ran
    have hsettles := hrule.leaf hdue buf len s.keys h.weaken
    rwa [hfinish] at hsettles
  have hstep := csTurn_step E s
  cases hturn : csTurn E s with
  | again s' =>
      rw [hturn] at hstep
      rcases hstep with hstill | hran
      · exact h.still hstill
      · exact ⟨hran.mode_eq.trans h.mode_eq, hran.state_eq.trans h.state_eq, Or.inr (hleaf hran)⟩
  | leave r =>
      rw [hturn] at hstep
      refine ⟨fun hr => h.still (hstep.more hr), fun hr => ?_, fun e hr => ?_⟩
      · -- the message ends behind an entry, so the leaf was taken
        obtain ⟨hb, hm, hs, hk, -⟩ := hstep.msg hr
        refine ⟨hm, hs.trans h.state_eq, ?_⟩
        rw [hk]
        exact h.keys.resolve_left fun hk => hb hk.2
      · rcases hstep.err e hr with hk | hran
        · rw [hk]
          exact hany
        · exact hleaf hran

theorem dfStreamBody_keys (hrule : KeyRule E st P Q X) (hdue : dueType st = some hsCertificate)
    (h : StreamKeys st P Q s) (hr : dfStreamBody E s = some r) :
    PumpedKeys (StreamKeys st P Q) st Q X r := by
  unfold dfStreamBody at hr
  split at hr
  · cases hr
    exact ⟨fun _ => h, fun hc => (by cases hc), fun _ hc => (by cases hc)⟩
  · refine loop_rule (StreamKeys st P Q) _ (fun s hs => csTurn_keys hrule hdue hs) _ _ r ?_ hr
    exact h.still ⟨rfl, rfl, by simp [Hs.foldRec, Event.step], rfl, id⟩

/-- Between two pumps, with `st` due. -/
inductive KeysAt (st : TlsState) (P Q : κ → Prop) (s : Hs κ) : Prop where
  | header (hm : s.mode = .hdr) (hs : s.tlsState = st) (hk : P s.keys)
  | carry (hm : s.mode = .carry) (hs : s.tlsState = st) (hdue : dueType st = some (s.hdr 0))
      (hk : P s.keys)
  | stream (hdue : dueType st = some hsCertificate) (h : StreamKeys st P Q s)

theorem dfDispatch_keys (hrule : KeyRule E st P Q X) (ptr : Nat) (view : Buffer)
    (hs : s.tlsState = st) (hdue : dueType st = some (s.hdr 0)) (hk : P s.keys) :
    PumpedKeys (KeysAt st P Q) st Q X (dfDispatch E ptr view s) := by
  unfold dfDispatch
  dsimp only
  split
  · refine PumpedKeys.fail ?_ _
    exact hrule.before _ hk
  · rename_i keys ok hran
    have hsettles := hrule.message _ ptr view s.snap s.keys _ hdue hk hran
    cases ok with
    | true => exact ⟨fun hc => (by cases hc), fun _ => ⟨rfl, hs, hsettles⟩, fun _ hc => (by cases hc)⟩
    | false =>
        refine PumpedKeys.fail ?_ _
        exact hsettles

theorem dfCarryBody_keys (hrule : KeyRule E st P Q X) (hm : s.mode = .carry)
    (hs : s.tlsState = st) (hdue : dueType st = some (s.hdr 0)) (hk : P s.keys) :
    PumpedKeys (KeysAt st P Q) st Q X (dfCarryBody E s) := by
  unfold dfCarryBody
  split
  · exact ⟨fun _ => .carry hm hs hdue hk, fun hc => (by cases hc), fun _ hc => (by cases hc)⟩
  · dsimp only
    split
    · exact dfDispatch_keys hrule _ _ hs hdue hk
    · exact ⟨fun _ => .carry hm hs hdue hk, fun hc => (by cases hc), fun _ hc => (by cases hc)⟩

theorem dfStreamBody_pumpedKeys (hrule : KeyRule E st P Q X)
    (hdue : dueType st = some hsCertificate) (h : StreamKeys st P Q s)
    (hr : dfStreamBody E s = some r) : PumpedKeys (KeysAt st P Q) st Q X r := by
  have hleft := dfStreamBody_keys hrule hdue h hr
  exact ⟨fun hmore => .stream hdue (hleft.more hmore), hleft.msg, hleft.err⟩

theorem dfHdrComplete_keys (hrule : KeyRule E st P Q X) (hs : s.tlsState = st) (hk : P s.keys)
    (hr : dfHdrComplete E s = some r) : PumpedKeys (KeysAt st P Q) st Q X r := by
  unfold dfHdrComplete at hr
  split at hr
  · cases hr
    exact .fail (hrule.before _ hk) _
  rename_i hgate
  split at hr
  · cases hr
    exact .fail (hrule.before _ hk) _
  have hdue : dueType st = some (s.hdr 0) := by
    rw [← hs, ← tlsHsSeqCheck_iff]
    simpa using hgate
  unfold dfRoute at hr
  split at hr
  · cases hr
    exact dfDispatch_keys hrule _ _ hs hdue hk
  split at hr
  · rename_i hcert
    have hty : s.hdr 0 = hsCertificate := hcert
    rw [hty] at hdue
    have hstart : StreamKeys st P Q { dfHdrFold E s with
        mode := .stream, csState := .ctx, csIdx := 0, csEntry := 0, csOff := 0 } :=
      ⟨rfl, hs, Or.inl ⟨hk, rfl, nofun, nofun⟩⟩
    exact dfStreamBody_pumpedKeys hrule hdue hstart hr
  split at hr
  · cases hr
    refine PumpedKeys.fail ?_ _
    exact hrule.before _ hk
  · cases hr
    exact dfCarryBody_keys hrule rfl hs hdue hk

theorem hdrTurn_keys (h : s.mode = .hdr ∧ s.tlsState = st ∧ P s.keys) :
    (hdrTurn s).Post (fun s' => s'.mode = .hdr ∧ s'.tlsState = st ∧ P s'.keys)
      (fun r => r.1.mode = .hdr ∧ r.1.tlsState = st ∧ P r.1.keys) := by
  unfold hdrTurn
  split
  · exact h
  split
  · split
    · exact h
    · exact h
  · exact h

/-- One pump: the message due is settled, or is still to come. -/
theorem tlsDeframePump_keys (hrule : KeyRule E st P Q X) (h : KeysAt st P Q s)
    (hr : tlsDeframePump E s = some r) : PumpedKeys (KeysAt st P Q) st Q X r := by
  unfold tlsDeframePump at hr
  dsimp only at hr
  cases h with
  | header hm hs hk =>
      have hm' : (dfAvail s).mode = .hdr := hm
      rw [hm'] at hr
      dsimp only at hr
      cases hloop : loop hdrTurn 5 (dfAvail s) with
      | none =>
          rw [hloop] at hr
          cases hr
      | some x =>
          rcases x with ⟨s', done⟩
          rw [hloop] at hr
          obtain ⟨hm₁, hs₁, hk₁⟩ := loop_rule
            (fun s : Hs κ => s.mode = .hdr ∧ s.tlsState = st ∧ P s.keys)
            (fun r : Hs κ × Bool => r.1.mode = .hdr ∧ r.1.tlsState = st ∧ P r.1.keys)
            (fun s hs => hdrTurn_keys hs) 5 (dfAvail s) _ ⟨hm, hs, hk⟩ hloop
          cases done with
          | true => exact dfHdrComplete_keys hrule hs₁ hk₁ hr
          | false =>
              cases hr
              exact ⟨fun _ => .header hm₁ hs₁ hk₁, fun hc => (by cases hc),
                fun _ hc => (by cases hc)⟩
  | carry hm hs hdue hk =>
      have hm' : (dfAvail s).mode = .carry := hm
      rw [hm'] at hr
      cases hr
      exact dfCarryBody_keys hrule hm hs hdue hk
  | stream hdue h =>
      have hm' : (dfAvail s).mode = .stream := h.mode_eq
      rw [hm'] at hr
      have hat : StreamKeys st P Q (dfAvail s) :=
        h.still ⟨rfl, rfl, by simp [dfAvail, Event.step], rfl, id⟩
      exact dfStreamBody_pumpedKeys hrule hdue hat hr

/-- The other arm: gate, handler, fold. -/
theorem encWhole_keys (hrule : KeyRule E st P Q X) (hs : s.tlsState = st) (hk : P s.keys) :
    Settles Q X ((encWhole E s).1.keys, (encWhole E s).2) := by
  unfold encWhole
  dsimp only
  split
  · exact hrule.before _ hk
  · rename_i hgate
    have hdue : dueType st = some (s.recBuf 0) := by
      rw [← hs, ← tlsHsSeqCheck_iff]
      simpa using hgate
    unfold encDispatch
    split
    · exact hrule.before _ hk
    · rename_i keys hran
      exact hrule.message _ _ _ _ s.keys _ hdue hk hran
    · rename_i keys hran
      exact hrule.message _ _ _ _ s.keys _ hdue hk hran

end Pumps

/-! ## One receive -/

section Receive

variable {E : ConnEnv κ} {st : TlsState} {P Q X : κ → Prop} {c c' : Conn κ}

theorem rest_keys (h : c'.rest = c.rest) : c'.hs.keys = c.hs.keys := by
  rw [rest_hs h]

theorem KeysAt.of_rest (h : KeysAt st P Q c.hs) (hrest : c'.rest = c.rest)
    (hs : c'.hs.tlsState = c.hs.tlsState) : KeysAt st P Q c'.hs := by
  rw [rest_hs hrest]
  cases h with
  | header hm hst hk => exact .header hm (hs.trans hst) hk
  | carry hm hst hdue hk => exact .carry hm (hs.trans hst) hdue hk
  | stream hdue hat => exact .stream hdue ⟨hat.mode_eq, hs.trans hat.state_eq, hat.keys⟩

/-- Before the receive of the message due in `st`. -/
structure KeysReady (E : ConnEnv κ) (st : TlsState) (P : κ → Prop) (c : Conn κ) : Prop where
  reader : c.recvState = .header
  state_eq : c.hs.tlsState = st
  mode_eq : E.streamDeframe = true → c.hs.mode = .hdr
  keys : P c.hs.keys

theorem KeysAt.weaken (hrule : KeyRule E.df st P Q X) {s : Hs κ} (h : KeysAt st P Q s) :
    X s.keys := by
  cases h with
  | header _ _ hk => exact hrule.before _ hk
  | carry _ _ _ hk => exact hrule.before _ hk
  | stream _ hat => exact hat.weaken.elim (hrule.before _) (hrule.after _)

/-- The wait, with the failures. -/
theorem encWait_ends {timeout : Nat} {Q' X' : Conn κ → Prop}
    {got : Conn κ → Turn (Conn κ × Nat × EncAt) (Option (Conn κ × Bool))}
    {J : Conn κ × Nat × EncAt → Prop} (hlen : LenChecked c)
    (hgot : ∀ c', c'.rest = c.rest → c'.hs.tlsState = c.hs.tlsState → c'.recvState = .header →
      (got c').Post J (Ends Q' X'))
    (hagain : ∀ c' t, c'.rest = c.rest → c'.hs.tlsState = c.hs.tlsState → LenChecked c' →
      J (c', t, .wait))
    (hfail : ∀ c', c'.rest = c.rest → X' c') :
    (encWait E c timeout got).Post J (Ends Q' X') := by
  unfold encWait
  cases hrun : tlsRecordRecvAndDecrypt E.toRecordEnv (netPoll c) with
  | none => exact ends_none Q' X'
  | some r =>
      rcases r with ⟨c', ok⟩
      obtain ⟨hspec, hreader⟩ := recv_spec E.toRecordEnv (c := netPoll c) hlen hrun
      have hrest : c'.rest = c.rest := hspec.rest_eq
      cases ok with
      | true =>
          dsimp only
          split
          · exact ends_fail Q' (hfail c' hrest)
          · exact hgot c' hrest (hspec.state_eq (Or.inl rfl)) (hreader.header rfl)
      | false =>
          dsimp only
          split
          · exact ends_fail Q' (hfail c' hrest)
          · rename_i hne
            split
            · exact ends_fail Q' (hfail c' hrest)
            · exact hagain c' _ hrest (hspec.state_eq (Or.inr hne)) hreader.len

theorem encTurn_keys (hrule : KeyRule E.df st P Q X) (x : Conn κ × Nat × EncAt)
    (h : LenChecked x.1 ∧ (x.2.2 = .pump → x.1.recvState = .header) ∧ KeysAt st P Q x.1.hs) :
    (encTurn E x).Post
      (fun x => LenChecked x.1 ∧ (x.2.2 = .pump → x.1.recvState = .header) ∧ KeysAt st P Q x.1.hs)
      (Ends (fun c => c.recvState = .header ∧ c.hs.mode = .hdr ∧ Q c.hs.keys)
        (fun c => X c.hs.keys)) := by
  rcases x with ⟨c, timeout, place⟩
  obtain ⟨hlen, hreader, hat⟩ := h
  cases place with
  | pump =>
      have hst : c.recvState = .header := hreader rfl
      unfold encTurn
      dsimp only
      cases hpump : tlsDeframePump E.df c.hs with
      | none => exact ends_none _ _
      | some r =>
          rcases r with ⟨hs, ret⟩
          have hp := tlsDeframePump_keys hrule hat hpump
          cases ret with
          | msg =>
              obtain ⟨hm, -, hk⟩ := hp.msg rfl
              exact ends_success _ ⟨hst, hm, hk⟩
          | more => exact ⟨lenChecked_of_header hst, fun _ => hst, hp.more rfl⟩
          | err e => exact ends_fail _ (hp.err e rfl)
  | wait =>
      refine encWait_ends hlen ?_ ?_ ?_
      · intro c' hrest hstate hst
        refine ⟨lenChecked_of_header hst, fun _ => hst, ?_⟩
        -- the new record is pumped from its first byte
        cases hat.of_rest hrest hstate with
        | header hm hs hk => exact .header hm hs hk
        | carry hm hs hdue hk => exact .carry hm hs hdue hk
        | stream hdue hat => exact .stream hdue (hat.still ⟨rfl, rfl, rfl, rfl, id⟩)
      · intro c' t hrest hstate hl
        exact ⟨hl, fun hc => (by cases hc), hat.of_rest hrest hstate⟩
      · intro c' hrest
        rw [rest_keys hrest]
        exact hat.weaken hrule

theorem encWholeTurn_keys (hrule : KeyRule E.df st P Q X) (x : Conn κ × Nat × EncAt)
    (h : LenChecked x.1 ∧ x.1.hs.tlsState = st ∧ P x.1.hs.keys) :
    (encWholeTurn E x).Post (fun x => LenChecked x.1 ∧ x.1.hs.tlsState = st ∧ P x.1.hs.keys)
      (Ends (fun c => c.recvState = .header ∧ Q c.hs.keys) (fun c => X c.hs.keys)) := by
  rcases x with ⟨c, timeout, place⟩
  obtain ⟨hlen, hs, hk⟩ := h
  refine encWait_ends hlen ?_ ?_ ?_
  · intro c' hrest hstate hst c'' ok hc''
    have hsettles := encWhole_keys hrule (hstate.trans hs) (by rw [rest_keys hrest]; exact hk)
    obtain ⟨rfl, rfl⟩ := Prod.mk.inj (Option.some.inj hc'')
    unfold Settles at hsettles
    split at hsettles
    · rename_i hok
      rw [if_pos hok]
      exact ⟨hst, hsettles⟩
    · rename_i hno
      rw [if_neg hno]
      exact hsettles
  · intro c' t hrest hstate hl
    exact ⟨hl, hstate.trans hs, by rw [rest_keys hrest]; exact hk⟩
  · intro c' hrest
    rw [rest_keys hrest]
    exact hrule.before _ hk

/-- Between two receives. -/
structure KeysBetween (E : ConnEnv κ) (P : κ → Prop) (c : Conn κ) : Prop where
  reader : c.recvState = .header
  mode_eq : E.streamDeframe = true → c.hs.mode = .hdr
  keys : P c.hs.keys

/-- `tls_recv_encrypted`, on either arm, keeps to the rule of the handlers. -/
theorem tlsRecvEncrypted_keys (hrule : KeyRule E.df st P Q X) :
    Triple (KeysReady E st P) (tlsRecvEncrypted E) (KeysBetween E Q) (fun c => X c.hs.keys) := by
  refine Triple.of_ends fun c h => ?_
  unfold tlsRecvEncrypted
  split
  · rename_i hE
    have hends := loop_ends (n := recvFuel c) (x := (c, 0, .pump)) _
      (fun x hx => encTurn_keys hrule x hx)
      ⟨lenChecked_of_header h.reader, fun _ => h.reader, .header (h.mode_eq hE) h.state_eq h.keys⟩
    intro c' ok hrun
    have hpost := hends c' ok hrun
    cases ok with
    | true => exact ⟨hpost.1, fun _ => hpost.2.1, hpost.2.2⟩
    | false => exact hpost
  · rename_i hE
    have hends := loop_ends (n := recvFuel c) (x := (c, 0, .wait)) _
      (fun x hx => encWholeTurn_keys hrule x hx)
      ⟨lenChecked_of_header h.reader, h.state_eq, h.keys⟩
    intro c' ok hrun
    have hpost := hends c' ok hrun
    cases ok with
    | true => exact ⟨hpost.1, fun hE' => absurd hE' hE, hpost.2⟩
    | false => exact hpost

theorem expect_keys (hrule : KeyRule E.df st P Q X) :
    Triple (KeysBetween E P) (expect E st) (KeysBetween E Q) (fun c => X c.hs.keys) := by
  refine Triple.next (Q := KeysReady E st P) (Triple.pure fun c h => ?_)
    (tlsRecvEncrypted_keys hrule)
  exact ⟨h.reader, rfl, h.mode_eq, h.keys⟩

end Receive

/-! ## Before and behind the flight -/

/-- A routine that leaves the keys alone. -/
def KeepsKeys (f : Routine (Conn κ)) : Prop :=
  ∀ c c' ok, f c = some (c', ok) → c'.hs.keys = c.hs.keys

theorem KeepsKeys.next {f g : Routine (Conn κ)} (hf : KeepsKeys f) (hg : KeepsKeys g) :
    KeepsKeys (f.next g) := by
  intro c c' ok hrun
  unfold Routine.next at hrun
  cases hfirst : f c with
  | none =>
      rw [hfirst] at hrun
      cases hrun
  | some r =>
      rcases r with ⟨c₁, flag⟩
      rw [hfirst] at hrun
      cases flag with
      | true => exact (hg c₁ c' ok hrun).trans (hf c c₁ true hfirst)
      | false =>
          cases hrun
          exact hf c c' false hfirst

section Around

variable {E : ConnEnv κ} {R R' : κ → Prop}

theorem tlsChSection_keepsKeys (E : ConnEnv κ) (bs : List UInt8) :
    KeepsKeys (tlsChSection E bs) := by
  intro c c' ok hrun
  unfold tlsChSection at hrun
  dsimp only at hrun
  split at hrun
  · cases hrun
    rfl
  · cases hrun
    rfl

theorem tlsChSendClassic_keepsKeys (E : ConnEnv κ) : KeepsKeys (tlsChSendClassic E) := by
  intro c c' ok hrun
  have hsend : (tlsRecordSendPlaintext E.toRecordEnv c ctHandshake).1.hs = c.hs :=
    (tlsSendRecord_hs E.toRecordEnv
      { c with recHdr := recordHeader ctHandshake c.hs.recLen c.recHdr }).1
  unfold tlsChSendClassic at hrun
  dsimp only at hrun
  split at hrun
  · cases hrun
    have hfold : (Conn.fold E (tlsRecordSendPlaintext E.toRecordEnv c ctHandshake).1
        (tlsRecordSendPlaintext E.toRecordEnv c ctHandshake).1.record).hs.keys =
          (tlsRecordSendPlaintext E.toRecordEnv c ctHandshake).1.hs.keys := rfl
    rw [hfold, hsend]
  · have hc : (tlsRecordSendPlaintext E.toRecordEnv c ctHandshake).1 = c' :=
      congrArg Prod.fst (Option.some.inj hrun)
    rw [← hc, hsend]

theorem tlsSendClientHello_keepsKeys (E : ConnEnv κ) (h : Hello) :
    KeepsKeys (tlsSendClientHello E h) := by
  have hheader : KeepsKeys (fun c : Conn κ =>
      let c : Conn κ := { c with
        recHdr := recordHeader ctHandshake (h.head.length + h.bulk.length + h.tail.length) c.recHdr }
      some (netTcpSend E.toRecordEnv c (bytesAt c.recHdr 0 5))) := by
    intro c c' ok hrun
    cases hrun
    rfl
  have hsections : KeepsKeys (tlsChSendSections E h) :=
    ((hheader.next (tlsChSection_keepsKeys E _)).next (tlsChSection_keepsKeys E _)).next
      (tlsChSection_keepsKeys E _)
  intro c c' ok hrun
  unfold tlsSendClientHello at hrun
  dsimp only at hrun
  split at hrun
  · have hkept := tlsChSendClassic_keepsKeys E _ c' ok hrun
    exact hkept
  · have hkept := hsections _ c' ok hrun
    exact hkept

/-- Up to the ClientHello, only its builder is at the keys. -/
theorem connectHello_keys (hbuild : ∀ k, R k → R (E.tlsBuildClientHello k).1) :
    Triple (fun c => R c.hs.keys) (connectHello E) (fun c => R c.hs.keys)
      (fun c => R c.hs.keys) := by
  intro c hc c' ok hrun
  have hkeys : R c'.hs.keys := by
    unfold connectHello at hrun
    dsimp only at hrun
    split at hrun
    · cases hrun
      exact hbuild _ hc
    · rw [tlsSendClientHello_keepsKeys E _ _ c' ok hrun]
      exact hbuild _ hc
  cases ok with
  | true => exact hkeys
  | false => exact hkeys

theorem shRecord_keys {c : Conn κ} (timeout : Nat) (hst : c.recvState = .header)
    (hk : R c.hs.keys) :
    (shRecord E c timeout).Post (fun x => LenChecked x.1 ∧ R x.1.hs.keys)
      (Ends (fun c => R c.hs.keys) (fun c => R c.hs.keys)) := by
  unfold shRecord
  split
  · split
    · exact ends_fail _ hk
    · dsimp only
      split
      · exact ends_success _ hk
      · exact ⟨lenChecked_of_header hst, hk⟩
  split
  · exact ends_fail _ hk
  split
  · exact ends_none _ _
  · exact ends_fail _ hk
  · exact ends_success _ hk

theorem shTurn_keys (x : Conn κ × Nat) (h : LenChecked x.1 ∧ R x.1.hs.keys) :
    (shTurn E x).Post (fun x => LenChecked x.1 ∧ R x.1.hs.keys)
      (Ends (fun c => R c.hs.keys) (fun c => R c.hs.keys)) := by
  rcases x with ⟨c, timeout⟩
  obtain ⟨hlen, hk⟩ := h
  unfold shTurn
  dsimp only
  cases hrun : tlsRecordRecvAndDecrypt E.toRecordEnv (netPoll c) with
  | none => exact ends_none _ _
  | some r =>
      rcases r with ⟨c', ok⟩
      obtain ⟨hspec, hreader⟩ := recv_spec E.toRecordEnv (c := netPoll c) hlen hrun
      have hk' : R c'.hs.keys := by
        have hsame : c'.hs.keys = c.hs.keys := rest_keys (c := netPoll c) hspec.rest_eq
        rw [hsame]
        exact hk
      cases ok with
      | true => exact shRecord_keys timeout (hreader.header rfl) hk'
      | false =>
          dsimp only
          split
          · exact ends_fail _ hk'
          · split
            · exact ends_fail _ hk'
            · exact ⟨hreader.len, hk'⟩

theorem shDrainPolls_keys (n : Nat) : ∀ c : Conn κ, (shDrainPolls n c).hs.keys = c.hs.keys := by
  induction n with
  | zero =>
      intro c
      rfl
  | succ n ih =>
      intro c
      exact ih (netPoll c)

/-- Up to the handshake keys. -/
theorem connectServerHello_keys (hdecaps : ∀ k pq, R k → R (E.pqShDecaps k pq).1)
    (hshared : ∀ k bs buf, R k → R (E.tlsEcdhComputeShared k bs buf).1)
    (hderive : ∀ k snap, R k → R' (E.tlsDeriveHandshakeKeys k snap).1) :
    Triple (fun c => c.recvState = .header ∧ R c.hs.keys) (connectServerHello E)
      (fun c => R' c.hs.keys) (fun c => R c.hs.keys) := by
  have hwait : Triple (fun c => c.recvState = .header ∧ R c.hs.keys) (shWait E)
      (fun c => R c.hs.keys) (fun c => R c.hs.keys) := by
    refine Triple.of_ends fun c h => ?_
    exact loop_ends _ (fun x hx => shTurn_keys x hx) ⟨lenChecked_of_header h.1, h.2⟩
  have hdrain : Triple (fun c => R c.hs.keys) (Routine.pure (shDrainPolls E.shDrain))
      (fun c => R c.hs.keys) (fun c => R c.hs.keys) := by
    refine Triple.pure fun c h => ?_
    rw [shDrainPolls_keys]
    exact h
  have hsecret : Triple (fun c => R c.hs.keys) (sharedSecret E) (fun c => R c.hs.keys)
      (fun c => R c.hs.keys) := by
    intro c hc c' ok hrun
    have hkeys : R c'.hs.keys := by
      have hfirst : R (if E.pqHybrid = true then E.pqShDecaps c.hs.keys c.pq
          else (c.hs.keys, true)).1 := by
        split
        · exact hdecaps _ _ hc
        · exact hc
      unfold sharedSecret at hrun
      dsimp only at hrun
      generalize (if E.pqHybrid = true then E.pqShDecaps c.hs.keys c.pq
        else (c.hs.keys, true)) = r at hrun hfirst
      split at hrun
      · cases hrun
        exact hfirst
      · have hc' := congrArg Prod.fst (Option.some.inj hrun)
        dsimp only at hc'
        rw [← hc']
        exact hshared _ _ _ hfirst
    cases ok with
    | true => exact hkeys
    | false => exact hkeys
  have hrecv := Triple.next (Triple.next hwait hdrain) hsecret
  refine Triple.next (Triple.next (Triple.pure fun c h => h) hrecv) (Triple.pure fun c h => ?_)
  exact hderive _ _ h

/-- Behind the flight. -/
theorem connectFinish_keys (hfinished : ∀ k snap, R k → R (E.tlsComputeFinished k snap).1)
    (htraffic : ∀ k snap, R k → R (E.tlsDeriveTrafficKeys k snap).1) :
    Triple (fun c => R c.hs.keys) (connectFinish E) (fun c => R c.hs.keys)
      (fun c => R c.hs.keys) := by
  have hsend : Triple (fun c => R c.hs.keys) (certPinSendFinished E) (fun c => R c.hs.keys)
      (fun c => R c.hs.keys) := by
    intro c hc c' ok hrun
    have hkeys : R c'.hs.keys := by
      unfold certPinSendFinished at hrun
      split at hrun
      · unfold tlsSendFinished at hrun
        have hc' := congrArg Prod.fst (Option.some.inj hrun)
        dsimp only at hc'
        unfold tlsRecordSendEncrypted at hc'
        rw [← hc', (tlsSendRecord_hs _ _).1]
        exact hfinished _ _ hc
      · cases hrun
        exact hc
    cases ok with
    | true => exact hkeys
    | false => exact hkeys
  refine Triple.next (Triple.next (Triple.pure fun c h => h) hsend) (Triple.pure fun c h => ?_)
  exact htraffic _ _ h

end Around

end Tls
end C64Https
