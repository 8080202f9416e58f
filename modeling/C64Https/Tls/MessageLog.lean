import C64Https.Tls.Connect
import C64Https.Tls.Trace

/-!
# MessageLog — one received message leaves one entry in the handshake log

The handshake log is what the sequence gate and the handlers did, read off the trace.  A message
taken off any of the three routes of the deframer, or off the arm without it, leaves the entry that
`MessageEntry` describes: the gate let the due type through, and the handler of that type accepted.
-/

namespace C64Https
namespace Tls

open Word Loop Bytes

variable {κ : Type}

/-! ## The log -/

inductive Step where
  /-- the gate let a message of type `ty` through in state `st` -/
  | admitted (st : TlsState) (ty : UInt8)
  /-- the handler of a whole message ran -/
  | ran (ty : UInt8) (ok : Bool)
  /-- the leaf of a streamed Certificate was checked -/
  | leaf (ok : Bool)
  /-- a streamed Certificate was accepted -/
  | streamed
  deriving DecidableEq, Repr

def Event.step : Event → List Step
  | .admitted st ty => [.admitted st ty]
  | .dispatch ty _ _ ok => [.ran ty ok]
  | .leaf _ ok => [.leaf ok]
  | .streamed => [.streamed]
  | _ => []

def steps (tr : List Event) : List Step :=
  tr.flatMap Event.step

@[simp] theorem steps_append (tr tr' : List Event) : steps (tr ++ tr') = steps tr ++ steps tr' :=
  List.flatMap_append

@[simp] theorem steps_nil : steps [] = [] :=
  rfl

@[simp] theorem steps_cons (e : Event) (tr : List Event) : steps (e :: tr) = e.step ++ steps tr :=
  rfl

/-- The entry of one accepted message. -/
inductive MessageEntry (st : TlsState) : List Step → Prop where
  | whole {ty : UInt8} (hdue : dueType st = some ty) :
      MessageEntry st [.admitted st ty, .ran ty true]
  | streamed (hdue : dueType st = some hsCertificate) (k : Nat) :
      MessageEntry st (.admitted st hsCertificate ::
        (List.replicate (k + 1) (.leaf true) ++ [.streamed]))

/-! ## The streamed Certificate -/

/-- The leaf of the list has not been checked yet. -/
def BeforeLeaf (s : Hs κ) : Prop :=
  s.csEntry = 0 ∧ s.csState ≠ .extLen ∧ s.csState ≠ .extData

/-- In the body of a streamed Certificate, its leaf checked by the time the first entry is over. -/
structure StreamAt (base : List Step) (st : TlsState) (s : Hs κ) : Prop where
  mode_eq : s.mode = .stream
  state_eq : s.tlsState = st
  log : ∃ k, steps s.trace = base ++ List.replicate k (.leaf true) ∧ (k = 0 → BeforeLeaf s)

/-- A step that logs nothing. -/
theorem StreamAt.move {base : List Step} {st : TlsState} {s s' : Hs κ} (h : StreamAt base st s)
    (hm : s'.mode = s.mode) (hs : s'.tlsState = s.tlsState) (ht : steps s'.trace = steps s.trace)
    (hb : BeforeLeaf s → BeforeLeaf s') : StreamAt base st s' := by
  obtain ⟨k, hk, hzero⟩ := h.log
  exact ⟨hm.trans h.mode_eq, hs.trans h.state_eq, k, ht.trans hk, fun hz => hb (hzero hz)⟩

/-- How the streamed consumer returns. -/
structure StreamLeft (base : List Step) (st : TlsState) (r : Hs κ × Ret) : Prop where
  more : r.2 = .more → StreamAt base st r.1
  msg : r.2 = .msg → r.1.mode = .hdr ∧ r.1.tlsState = st ∧
    ∃ k, steps r.1.trace = base ++ (List.replicate (k + 1) (.leaf true) ++ [.streamed])

theorem StreamLeft.fail (base : List Step) (st : TlsState) (s : Hs κ) (e : DfErr) :
    StreamLeft base st (dfFail s e) :=
  ⟨fun h => (by cases h), fun h => (by cases h)⟩

/-! ### What one turn does -/

section Turns

variable {E : Env κ} {s s' s₁ : Hs κ} {r : Hs κ × Ret}

/-- A step that logs nothing and runs no handler; it does not go past the leaf. -/
structure Still (s s' : Hs κ) : Prop where
  mode_eq : s'.mode = s.mode
  state_eq : s'.tlsState = s.tlsState
  log : steps s'.trace = steps s.trace
  keys_eq : s'.keys = s.keys
  before : BeforeLeaf s → BeforeLeaf s'

/-- `tls_cert_stream_finish` ran on what is staged, and answered `ok`. -/
structure LeafRan (E : Env κ) (s s' : Hs κ) (ok : Bool) : Prop where
  mode_eq : s'.mode = s.mode
  state_eq : s'.tlsState = s.tlsState
  log : steps s'.trace = steps s.trace ++ [.leaf ok]
  ran : ∃ buf len, E.tlsCertStreamFinish buf len s.keys = (s'.keys, ok)

/-- A turn that goes round. -/
def CsGoes (E : Env κ) (s s' : Hs κ) : Prop :=
  Still s s' ∨ LeafRan E s s' true

/-- A turn that returns. -/
structure CsReturns (E : Env κ) (s : Hs κ) (r : Hs κ × Ret) : Prop where
  more : r.2 = .more → Still s r.1
  msg : r.2 = .msg → ¬ BeforeLeaf s ∧ r.1.mode = .hdr ∧ r.1.tlsState = s.tlsState ∧
    r.1.keys = s.keys ∧ steps r.1.trace = steps s.trace ++ [.streamed]
  err : ∀ e, r.2 = .err e → r.1.keys = s.keys ∨ LeafRan E s r.1 false

theorem Still.trans (h : Still s s₁) (h' : Still s₁ s') : Still s s' :=
  ⟨h'.mode_eq.trans h.mode_eq, h'.state_eq.trans h.state_eq, h'.log.trans h.log,
    h'.keys_eq.trans h.keys_eq, fun hb => h'.before (h.before hb)⟩

theorem LeafRan.after {ok : Bool} (h : Still s s₁) (h' : LeafRan E s₁ s' ok) :
    LeafRan E s s' ok := by
  refine ⟨h'.mode_eq.trans h.mode_eq, h'.state_eq.trans h.state_eq, ?_, ?_⟩
  · rw [h'.log, h.log]
  · rw [← h.keys_eq]
    exact h'.ran

theorem CsGoes.after (h : Still s s₁) (h' : CsGoes E s₁ s') : CsGoes E s s' :=
  h'.imp h.trans (LeafRan.after h)

theorem CsReturns.after (h : Still s s₁) (h' : CsReturns E s₁ r) : CsReturns E s r := by
  refine ⟨fun hr => h.trans (h'.more hr), fun hr => ?_, fun e hr => ?_⟩
  · obtain ⟨hb, hm, hs, hk, hl⟩ := h'.msg hr
    exact ⟨fun hb' => hb (h.before hb'), hm, hs.trans h.state_eq, hk.trans h.keys_eq,
      hl.trans (by rw [h.log])⟩
  · exact (h'.err e hr).imp (fun hk => hk.trans h.keys_eq) (LeafRan.after h)

theorem CsReturns.fail (h : s'.keys = s.keys) (e : DfErr) : CsReturns E s (dfFail s' e) :=
  ⟨fun hr => (by cases hr), fun hr => (by cases hr), fun _ _ => Or.inl h⟩

/-- What a turn of the consumer does. -/
def CsStep (E : Env κ) (s : Hs κ) (t : Turn (Hs κ) (Hs κ × Ret)) : Prop :=
  t.Post (CsGoes E s) (CsReturns E s)

theorem CsStep.after {t : Turn (Hs κ) (Hs κ × Ret)} (h : Still s s₁) (h' : CsStep E s₁ t) :
    CsStep E s t := by
  cases t with
  | again s' => exact CsGoes.after h h'
  | leave r => exact CsReturns.after h h'

theorem dfCsTakeByte_still (s : Hs κ) : Still s (dfCsTakeByte s) :=
  ⟨rfl, rfl, by simp [dfCsTakeByte, Event.step], rfl, id⟩

theorem dfCsAdvanceN_still (s : Hs κ) (n : Nat) : Still s (dfCsAdvanceN s n) :=
  ⟨rfl, rfl, by simp [dfCsAdvanceN, Event.step], rfl, id⟩

theorem dfCsCopy_still (s : Hs κ) (n : Nat) : Still s (dfCsCopy s n) :=
  ⟨rfl, rfl, by simp [dfCsCopy, Event.step], rfl, id⟩

theorem csMsgEnd_step (s : Hs κ) : CsReturns E s (csMsgEnd s) := by
  unfold csMsgEnd
  split
  · exact .fail rfl _
  split
  · exact .fail rfl _
  split
  · exact .fail rfl _
  · rename_i hentry
    -- the entry counter moved, so the leaf was checked
    refine ⟨fun hr => (by cases hr), fun _ => ?_, fun _ hr => (by cases hr)⟩
    exact ⟨fun hb => hentry hb.1, rfl, rfl, rfl, steps_append _ _⟩

theorem csEntryDone_still (hext : ¬ BeforeLeaf s) : Still s (csEntryDone s) :=
  ⟨rfl, rfl, rfl, rfl, fun hb => absurd hb hext⟩

theorem csEntryDataDone_step (E : Env κ) (s : Hs κ) : CsStep E s (csEntryDataDone E s) := by
  unfold csEntryDataDone
  split
  · rename_i hentry
    exact Or.inl ⟨rfl, rfl, rfl, rfl, fun hb => absurd hb.1 hentry⟩
  · dsimp only
    split
    · rename_i hok
      refine Or.inr ⟨rfl, rfl, ?_, s.certBuf, word s.csTmpHi s.csTmpLo, Prod.ext rfl hok⟩
      simp [csEntryToExt, Hs.emit, Event.step, hok]
    · rename_i hno
      have hno' := Bool.eq_false_iff.2 hno
      refine ⟨fun hr => (by cases hr), fun hr => (by cases hr), fun _ _ => Or.inr ⟨rfl, rfl, ?_, ?_⟩⟩
      · simp [dfFail, Hs.emit, Event.step, hno']
      · exact ⟨s.certBuf, word s.csTmpHi s.csTmpLo, Prod.ext rfl hno'⟩

theorem csCtx_step (s : Hs κ) : CsStep E s (csCtx s) := by
  have htake := dfCsTakeByte_still s
  unfold csCtx
  dsimp only
  split
  · exact Or.inl (htake.trans ⟨rfl, rfl, rfl, rfl, fun hb => ⟨hb.1, nofun, nofun⟩⟩)
  · exact .fail htake.keys_eq _

theorem csListLen_step (s : Hs κ) : CsStep E s (csListLen s) := by
  have htake := dfCsTakeByte_still s
  unfold csListLen
  dsimp only
  split
  · exact .fail htake.keys_eq _
  split
  · exact Or.inl (htake.trans ⟨rfl, rfl, rfl, rfl, fun hb => ⟨hb.1, nofun, nofun⟩⟩)
  · exact Or.inl (htake.trans ⟨rfl, rfl, rfl, rfl, id⟩)

theorem csElByte_still (s : Hs κ) (b : UInt8) : Still s (csElByte s b) := by
  unfold csElByte
  split
  · exact ⟨rfl, rfl, rfl, rfl, id⟩
  split
  · exact ⟨rfl, rfl, rfl, rfl, id⟩
  · exact ⟨rfl, rfl, rfl, rfl, id⟩

theorem csElDone_step (s : Hs κ) : CsStep E s (csElDone s) := by
  unfold csElDone
  dsimp only
  split
  · exact Or.inl ⟨rfl, rfl, rfl, rfl, fun hb => ⟨hb.1, nofun, nofun⟩⟩
  split
  · refine CsReturns.fail ?_ _
    rfl
  · exact Or.inl ⟨rfl, rfl, rfl, rfl, fun hb => ⟨hb.1, nofun, nofun⟩⟩

theorem csEntryLen_step (s : Hs κ) : CsStep E s (csEntryLen s) := by
  have hbyte := (dfCsTakeByte_still s).trans (csElByte_still _ (s.recBuf s.recOff))
  unfold csEntryLen
  dsimp only
  split
  · exact .fail (dfCsTakeByte_still s).keys_eq _
  split
  · exact Or.inl (hbyte.trans ⟨rfl, rfl, rfl, rfl, id⟩)
  · exact (csElDone_step _).after (hbyte.trans ⟨rfl, rfl, rfl, rfl, id⟩)

theorem csEntryData_step (E : Env κ) (s : Hs κ) : CsStep E s (csEntryData E s) := by
  unfold csEntryData
  split
  · exact csEntryDataDone_step E s
  · dsimp only
    have hbulk : Still s (if s.csEntry = 0 then dfCsCopy s (dfCsMinTakeNeed s) else s) := by
      split
      · exact dfCsCopy_still s _
      · exact ⟨rfl, rfl, rfl, rfl, id⟩
    generalize (if s.csEntry = 0 then dfCsCopy s (dfCsMinTakeNeed s) else s) = s₁ at hbulk ⊢
    have hadv := hbulk.trans (dfCsAdvanceN_still s₁ (dfCsMinTakeNeed s))
    split
    · exact (csEntryDataDone_step E _).after hadv
    · exact Or.inl hadv

theorem csXlByte_still (s : Hs κ) (b : UInt8) : Still s (csXlByte s b) := by
  unfold csXlByte
  split
  · exact ⟨rfl, rfl, rfl, rfl, id⟩
  · exact ⟨rfl, rfl, rfl, rfl, id⟩

theorem csExtLen_step (hst : s.csState = .extLen) : CsStep E s (csExtLen s) := by
  have hbyte := (dfCsTakeByte_still s).trans (csXlByte_still _ (s.recBuf s.recOff))
  have hstay : (csXlByte (dfCsTakeByte s) (s.recBuf s.recOff)).csState = .extLen := by
    unfold csXlByte
    split
    · exact hst
    · exact hst
  unfold csExtLen
  dsimp only
  split
  · exact Or.inl (hbyte.trans ⟨rfl, rfl, rfl, rfl, id⟩)
  · unfold csXlDone
    dsimp only
    split
    · exact Or.inl (hbyte.trans ⟨rfl, rfl, rfl, rfl, fun hb => absurd hstay hb.2.1⟩)
    · exact Or.inl (hbyte.trans ⟨rfl, rfl, rfl, rfl, fun hb => absurd hstay hb.2.1⟩)

theorem csExtData_step (hst : s.csState = .extData) : CsStep E s (csExtData s) := by
  have hadv := dfCsAdvanceN_still s (dfCsMinTakeNeed s)
  unfold csExtData
  dsimp only
  split
  · refine Or.inl (hadv.trans (csEntryDone_still ?_))
    intro hb
    exact hb.2.2 hst
  · exact Or.inl hadv

/-- A turn of `@parse` runs `tls_cert_stream_finish` at most once, and logs what it answers. -/
theorem csTurn_step (E : Env κ) (s : Hs κ) : CsStep E s (csTurn E s) := by
  unfold csTurn
  split
  · split
    · exact csMsgEnd_step s
    · exact ⟨fun _ => ⟨rfl, rfl, rfl, rfl, id⟩, fun hr => (by cases hr), fun _ hr => (by cases hr)⟩
  · split
    · exact csEntryData_step E s
    · exact csExtData_step ‹_›
    · exact csCtx_step s
    · exact csListLen_step s
    · exact csEntryLen_step s
    · exact csExtLen_step ‹_›

end Turns

/-! ### What a run does -/

def StreamTurn (base : List Step) (st : TlsState) (t : Turn (Hs κ) (Hs κ × Ret)) : Prop :=
  t.Post (StreamAt base st) (StreamLeft base st)

section StreamTurns

variable {base : List Step} {st : TlsState} {s : Hs κ}

theorem StreamAt.still {s' : Hs κ} (h : StreamAt base st s) (hs : Still s s') :
    StreamAt base st s' :=
  h.move hs.mode_eq hs.state_eq hs.log hs.before

theorem csTurn_at (E : Env κ) (h : StreamAt base st s) : StreamTurn base st (csTurn E s) := by
  obtain ⟨k, hk, hzero⟩ := h.log
  have hstep := csTurn_step E s
  cases hturn : csTurn E s with
  | again s' =>
      rw [hturn] at hstep
      rcases hstep with hstill | hleaf
      · exact h.still hstill
      · refine ⟨hleaf.mode_eq.trans h.mode_eq, hleaf.state_eq.trans h.state_eq, k + 1, ?_,
          fun hz => absurd hz (Nat.succ_ne_zero k)⟩
        rw [hleaf.log, hk, List.append_assoc, List.replicate_succ']
  | leave r =>
      rw [hturn] at hstep
      refine ⟨fun hr => h.still (hstep.more hr), fun hr => ?_⟩
      obtain ⟨hb, hm, hs, -, hl⟩ := hstep.msg hr
      refine ⟨hm, hs.trans h.state_eq, ?_⟩
      cases k with
      | zero => exact absurd (hzero rfl) hb
      | succ k => exact ⟨k, by rw [hl, hk, List.append_assoc]⟩

theorem dfStreamBody_at (E : Env κ) (h : StreamAt base st s) {r : Hs κ × Ret}
    (hr : dfStreamBody E s = some r) : StreamLeft base st r := by
  unfold dfStreamBody at hr
  split at hr
  · cases hr
    exact ⟨fun _ => h, fun hc => (by cases hc)⟩
  · refine loop_rule (StreamAt base st) (StreamLeft base st) (fun s hs => csTurn_at E hs) _ _ r ?_ hr
    exact h.move rfl rfl (by simp [Hs.foldRec, Event.step]) id

end StreamTurns

/-! ## One pump -/

/-- Between two pumps in state `st`: before a message, or in the body of one that the gate let
through in this state. -/
inductive Standing (base : List Step) (st : TlsState) (s : Hs κ) : Prop where
  | header (hm : s.mode = .hdr) (hs : s.tlsState = st) (hl : steps s.trace = base)
  | carry (hm : s.mode = .carry) (hs : s.tlsState = st) (hdue : dueType st = some (s.hdr 0))
      (hl : steps s.trace = base ++ [.admitted st (s.hdr 0)])
  | stream (hdue : dueType st = some hsCertificate)
      (h : StreamAt (base ++ [.admitted st hsCertificate]) st s)

/-- How a pump returns: still standing, or with one entry more. -/
structure Pumped (base : List Step) (st : TlsState) (r : Hs κ × Ret) : Prop where
  more : r.2 = .more → Standing base st r.1
  msg : r.2 = .msg → r.1.mode = .hdr ∧ r.1.tlsState = st ∧
    ∃ entry, MessageEntry st entry ∧ steps r.1.trace = base ++ entry

theorem Pumped.fail (base : List Step) (st : TlsState) (s : Hs κ) (e : DfErr) :
    Pumped base st (dfFail s e) :=
  ⟨fun h => (by cases h), fun h => (by cases h)⟩

section Pumps

variable {base : List Step} {st : TlsState} {s : Hs κ}

theorem dfDispatch_pumped (E : Env κ) (ptr : Nat) (view : Buffer) (hs : s.tlsState = st)
    (hdue : dueType st = some (s.hdr 0)) (hl : steps s.trace = base ++ [.admitted st (s.hdr 0)]) :
    Pumped base st (dfDispatch E ptr view s) := by
  unfold dfDispatch
  dsimp only
  split
  · exact Pumped.fail _ _ _ _
  · rename_i keys ok _
    cases ok with
    | false => exact Pumped.fail _ _ _ _
    | true =>
        refine ⟨fun hc => (by cases hc), fun _ => ⟨rfl, hs, _, .whole hdue, ?_⟩⟩
        show steps (s.trace ++ [_]) = _
        rw [steps_append, hl, List.append_assoc]
        rfl

theorem dfCarryBody_pumped (E : Env κ) (hm : s.mode = .carry) (hs : s.tlsState = st)
    (hdue : dueType st = some (s.hdr 0)) (hl : steps s.trace = base ++ [.admitted st (s.hdr 0)]) :
    Pumped base st (dfCarryBody E s) := by
  have hquiet : ∀ n, steps (dfConsumeChunk (dfCopyCarry (s.foldRec E n) n) n).trace =
      steps s.trace := by
    intro n
    simp [dfConsumeChunk, dfCopyCarry, Hs.foldRec, Event.step]
  unfold dfCarryBody
  split
  · exact ⟨fun _ => .carry hm hs hdue hl, fun hc => (by cases hc)⟩
  · dsimp only
    split
    · exact dfDispatch_pumped E _ _ hs hdue ((hquiet _).trans hl)
    · exact ⟨fun _ => .carry hm hs hdue ((hquiet _).trans hl), fun hc => (by cases hc)⟩

theorem dfStreamBody_pumped (E : Env κ) (hdue : dueType st = some hsCertificate)
    (h : StreamAt (base ++ [.admitted st hsCertificate]) st s) {r : Hs κ × Ret}
    (hr : dfStreamBody E s = some r) : Pumped base st r := by
  have hleft := dfStreamBody_at E h hr
  refine ⟨fun hmore => .stream hdue (hleft.more hmore), fun hmsg => ?_⟩
  obtain ⟨hm, hs, k, hk⟩ := hleft.msg hmsg
  refine ⟨hm, hs, _, .streamed hdue k, ?_⟩
  rw [hk, List.append_assoc]
  rfl

/-- `@hdr_complete`: the gate, and the route of a message that it lets through. -/
theorem dfHdrComplete_pumped (E : Env κ) (hs : s.tlsState = st)
    (hl : steps s.trace = base) {r : Hs κ × Ret} (hr : dfHdrComplete E s = some r) :
    Pumped base st r := by
  unfold dfHdrComplete at hr
  split at hr
  · cases hr
    exact Pumped.fail _ _ _ _
  rename_i hgate
  split at hr
  · cases hr
    exact Pumped.fail _ _ _ _
  have hdue : dueType st = some (s.hdr 0) := by
    rw [← hs, ← tlsHsSeqCheck_iff]
    simpa using hgate
  have hfold : steps (dfHdrFold E s).trace = base ++ [.admitted st (s.hdr 0)] := by
    show steps (s.trace ++ _) = _
    rw [steps_append, hl, ← hs]
    rfl
  unfold dfRoute at hr
  split at hr
  · cases hr
    refine dfDispatch_pumped E _ _ hs hdue ?_
    show steps ((dfHdrFold E s).trace ++ _) = base ++ [.admitted st (s.hdr 0)]
    rw [steps_append, hfold]
    simp [Event.step]
  split at hr
  · rename_i hcert
    have hty : s.hdr 0 = hsCertificate := hcert
    rw [hty] at hdue hfold
    have hstart : StreamAt (base ++ [.admitted st hsCertificate]) st { dfHdrFold E s with
        mode := .stream, csState := .ctx, csIdx := 0, csEntry := 0, csOff := 0 } := by
      refine ⟨rfl, hs, 0, ?_, fun _ => ⟨rfl, nofun, nofun⟩⟩
      rw [List.replicate_zero, List.append_nil]
      exact hfold
    exact dfStreamBody_pumped E hdue hstart hr
  split at hr
  · cases hr
    exact Pumped.fail _ _ _ _
  · cases hr
    refine dfCarryBody_pumped E rfl hs hdue ?_
    show steps ((dfHdrFold E s).trace ++ _) = base ++ [.admitted st (s.hdr 0)]
    rw [steps_append, hfold]
    simp [Event.step]

/-- The header loop logs nothing. -/
theorem hdrTurn_quiet (h : s.mode = .hdr ∧ s.tlsState = st ∧ steps s.trace = base) :
    (hdrTurn s).Post (fun s' => s'.mode = .hdr ∧ s'.tlsState = st ∧ steps s'.trace = base)
      (fun r => r.1.mode = .hdr ∧ r.1.tlsState = st ∧ steps r.1.trace = base) := by
  obtain ⟨hm, hs, hl⟩ := h
  unfold hdrTurn
  split
  · exact ⟨hm, hs, hl⟩
  split
  · split
    · exact ⟨hm, hs, hl⟩
    · exact ⟨hm, hs, hl⟩
  · refine ⟨hm, hs, ?_⟩
    show steps (s.trace ++ _) = _
    rw [steps_append, hl]
    simp [Event.step]

/-- One pump leaves the log as it was or adds the entry of the message that was due. -/
theorem tlsDeframePump_pumped (E : Env κ) (h : Standing base st s) {r : Hs κ × Ret}
    (hr : tlsDeframePump E s = some r) : Pumped base st r := by
  have hquiet : steps (dfAvail s).trace = steps s.trace := by
    simp [dfAvail, Event.step]
  unfold tlsDeframePump at hr
  dsimp only at hr
  cases h with
  | header hm hs hl =>
      have hm' : (dfAvail s).mode = .hdr := hm
      rw [hm'] at hr
      dsimp only at hr
      cases hloop : loop hdrTurn 5 (dfAvail s) with
      | none =>
          rw [hloop] at hr
          cases hr
      | some x =>
          rcases x with ⟨s', done⟩
          rw [hloop] at hr
          obtain ⟨hm₁, hs₁, hl₁⟩ := loop_rule
            (fun s : Hs κ => s.mode = .hdr ∧ s.tlsState = st ∧ steps s.trace = base)
            (fun r : Hs κ × Bool => r.1.mode = .hdr ∧ r.1.tlsState = st ∧ steps r.1.trace = base)
            (fun s hs => hdrTurn_quiet hs) 5 (dfAvail s) _ ⟨hm, hs, hquiet.trans hl⟩ hloop
          cases done with
          | true => exact dfHdrComplete_pumped E hs₁ hl₁ hr
          | false =>
              cases hr
              exact ⟨fun _ => .header hm₁ hs₁ hl₁, fun hc => (by cases hc)⟩
  | carry hm hs hdue hl =>
      have hm' : (dfAvail s).mode = .carry := hm
      rw [hm'] at hr
      cases hr
      exact dfCarryBody_pumped E hm hs hdue (hquiet.trans hl)
  | stream hdue h =>
      have hm' : (dfAvail s).mode = .stream := h.mode_eq
      rw [hm'] at hr
      have hat : StreamAt (base ++ [.admitted st hsCertificate]) st (dfAvail s) :=
        h.move rfl rfl hquiet id
      exact dfStreamBody_pumped E hdue hat hr

end Pumps

/-! ## One received message -/

theorem encDispatch_entry (E : Env κ) {s : Hs κ} {base : List Step} {st : TlsState} {ty : UInt8}
    (hs : s.tlsState = st) (hdue : dueType st = some ty)
    (hl : steps s.trace = base ++ [.admitted st ty]) (hok : (encDispatch E s ty).2 = true) :
    (encDispatch E s ty).1.tlsState = st ∧
      ∃ entry, MessageEntry st entry ∧ steps (encDispatch E s ty).1.trace = base ++ entry := by
  unfold encDispatch at hok ⊢
  split at hok
  · cases hok
  · rename_i keys hrun
    refine ⟨hs, _, .whole hdue, ?_⟩
    show steps ((s.trace ++ [_]) ++ [_]) = _
    rw [steps_append, steps_append, hl]
    simp [Event.step]
  · cases hok

/-- The arm without the deframer. -/
theorem encWhole_entry (E : Env κ) {s : Hs κ} {base : List Step} (hl : steps s.trace = base)
    (hok : (encWhole E s).2 = true) : (encWhole E s).1.tlsState = s.tlsState ∧
      ∃ entry, MessageEntry s.tlsState entry ∧ steps (encWhole E s).1.trace = base ++ entry := by
  unfold encWhole at hok ⊢
  dsimp only at hok ⊢
  cases hgate : tlsHsSeqCheck s.tlsState (s.recBuf 0) with
  | false =>
      rw [hgate, if_pos rfl] at hok
      cases hok
  | true =>
      have hdue := (tlsHsSeqCheck_iff _ _).1 hgate
      rw [hgate, if_neg (by simp)] at hok
      rw [if_neg (by simp)]
      refine encDispatch_entry E rfl hdue ?_ hok
      show steps (s.trace ++ [_]) = _
      rw [steps_append, hl]
      rfl

end Tls
end C64Https
