import C64Https.Tls.Epochs

/-!
# EpochRuns — keys, counters and nonces over runs of the client

A run is a sequence of connections, sends, receives and closes.  Each `tls_connect` that gets so far
derives the handshake keys, and one that succeeds the application keys: these are the epochs of the
run (`epochKeys`).  `AtRest` is what holds between two calls, and `runCalls_atRest` that every call
keeps it; nonces, counters and retired keys follow (`epochs_disciplined`).

`tls_select_keys` takes any state from `CONNECTED` on for the application phase, and `ERROR` is one.
So a `tls_recv` in the `ERROR` that a failed `tls_connect` left behind opens records under the keys
of the connection before; the callers give such a connection up (`heeds`).
-/

namespace C64Https
namespace Tls

open Word Loop Bytes Fallible

variable {κ : Type}

/-! ## Runs -/

/-- A call of the client, each with the network and the arithmetic it meets. -/
inductive Call (κ : Type) where
  | connect (E : ConnEnv κ)
  | send (E : ConnEnv κ) (data : List UInt8)
  | recv (E : ConnEnv κ)
  | close
  /-- between two calls: what the coming polls will bring -/
  | arrive (bursts : List (List UInt8))

/-- The connection, and what the last `tls_connect` returned to the caller. -/
structure Session (κ : Type) where
  conn : Conn κ
  opened : Bool

/-- One call; `tls_send` requires `CONNECTED`. -/
def Call.run : Call κ → Session κ → Option (Session κ)
  | .connect E, s => (tlsConnect E s.conn).map fun r => ⟨r.1, r.2⟩
  | .send E data, s =>
      if s.conn.hs.tlsState = .connected then some { s with conn := (tlsSend E data s.conn).1 }
      else none
  | .recv E, s => (tlsRecv E s.conn).map fun r => { s with conn := r.1 }
  | .close, s => some { s with conn := tlsClose s.conn }
  | .arrive bursts, s => some { s with conn := { s.conn with wire := s.conn.wire ++ bursts } }

def runCalls : List (Call κ) → Session κ → Option (Session κ)
  | [], s => some s
  | a :: as, s => (a.run s).bind (runCalls as)

/-- The epoch of the handshake keys, if the connection comes to it. -/
def hsEpoch (E : ConnEnv κ) (c : Conn κ) : List TrafficKeys :=
  match ((connectHello E).next (connectServerHello E)) c with
  | some (c, true) => [c.hsKeys]
  | _ => []

/-- The epoch of the application keys, if the connection comes to it. -/
def appEpoch (E : ConnEnv κ) (c : Conn κ) : List TrafficKeys :=
  match tlsConnect E c with
  | some (c, true) => [c.appKeys]
  | _ => []

def Call.epochs : Call κ → Session κ → List TrafficKeys
  | .connect E, s => hsEpoch E s.conn ++ appEpoch E s.conn
  | _, _ => []

/-- The epochs of a run, in order. -/
def epochKeys : List (Call κ) → Session κ → List TrafficKeys
  | [], _ => []
  | a :: as, s => a.epochs s ++ (a.run s).elim [] (epochKeys as)

/-- The `ERROR` of a `tls_connect` that failed. -/
def Session.Broken (s : Session κ) : Prop :=
  s.conn.hs.tlsState = .error ∧ s.opened = false

/-- The application keys are in force. -/
def Session.InForce (s : Session κ) : Prop :=
  s.opened = true ∧ (s.conn.hs.tlsState = .connected ∨ s.conn.hs.tlsState = .error)

instance (s : Session κ) : Decidable s.InForce :=
  inferInstanceAs (Decidable (_ ∧ (_ ∨ _)))

instance (s : Session κ) : Decidable s.Broken :=
  inferInstanceAs (Decidable (_ ∧ _))

def Call.receives : Call κ → Bool
  | .recv _ => true
  | _ => false

/-- The caller gives up a connection that failed: no `tls_recv` in its `ERROR`. -/
def heeds : List (Call κ) → Session κ → Bool
  | [], _ => true
  | a :: as, s => !(a.receives && decide s.Broken) && (a.run s).elim true (heeds as)

/-- The keys of different epochs are distinct. -/
def Distinct (es : List TrafficKeys) : Prop :=
  es.Pairwise fun K K' => K.write.key ≠ K'.write.key ∧ K.read.key ≠ K'.read.key

section Splitting

variable {s s₁ : Session κ}

theorem epochKeys_cons {a : Call κ} (as : List (Call κ)) (h : a.run s = some s₁) :
    epochKeys (a :: as) s = a.epochs s ++ epochKeys as s₁ := by
  show a.epochs s ++ (a.run s).elim [] (epochKeys as) = _
  rw [h]
  rfl

theorem heeds_cons {a : Call κ} (as : List (Call κ)) (h : a.run s = some s₁) :
    heeds (a :: as) s = true ↔ (a.receives = true → ¬ s.Broken) ∧ heeds as s₁ = true := by
  have hdef : heeds (a :: as) s =
      (!(a.receives && decide s.Broken) && (a.run s).elim true (heeds as)) := rfl
  rw [hdef, h, Option.elim_some, Bool.and_eq_true]
  refine and_congr_left fun _ => ?_
  cases a.receives with
  | false => simp
  | true => simp

/-- A run is a run of its first calls and one of the others. -/
theorem runCalls_split (pre post : List (Call κ)) :
    ∀ {s s₁ : Session κ}, runCalls pre s = some s₁ →
      runCalls (pre ++ post) s = runCalls post s₁ ∧
        epochKeys (pre ++ post) s = epochKeys pre s ++ epochKeys post s₁ ∧
          (heeds (pre ++ post) s = true → heeds pre s = true ∧ heeds post s₁ = true) := by
  induction pre with
  | nil =>
      intro s s₁ hrun
      cases hrun
      exact ⟨rfl, rfl, fun h => ⟨rfl, h⟩⟩
  | cons a pre ih =>
      intro s s₁ hrun
      obtain ⟨s₂, hfirst, hrest⟩ := Option.bind_eq_some_iff.1 hrun
      obtain ⟨hsplit, hkeys, hheed⟩ := ih hrest
      refine ⟨?_, ?_, ?_⟩
      · show (a.run s).bind (runCalls (pre ++ post)) = _
        rw [hfirst]
        exact hsplit
      · rw [List.cons_append, epochKeys_cons (pre ++ post) hfirst, epochKeys_cons pre hfirst, hkeys,
          List.append_assoc]
      · intro h
        obtain ⟨hnow, hlater⟩ := (heeds_cons (pre ++ post) hfirst).1 h
        obtain ⟨hpre, hpost⟩ := hheed hlater
        exact ⟨(heeds_cons pre hfirst).2 ⟨hnow, hpre⟩, hpost⟩

end Splitting

/-! ## Between two calls -/

/-- What holds between two calls: the records since `base` are under keys of `es`, and the counters
are those of the application keys in force. -/
structure AtRest (base : List AeadUse) (es : List TrafficKeys) (s : Session κ) : Prop where
  logged : Logged base es s.conn
  state : s.conn.hs.tlsState = .idle ∨ s.InForce ∨ s.Broken
  counting : s.InForce → Counting base es s.conn.appKeys s.conn

section Connection

variable {base : List AeadUse} {es all : List TrafficKeys} {c c' : Conn κ}

/-- A key that no epoch so far had is not in the log. -/
theorem Logged.fresh {K : TrafficKeys} {rest : List TrafficKeys} (h : Logged [] all c)
    (hd : Distinct (all ++ K :: rest)) : ∀ u ∈ c.uses, u.keys ≠ K.ofDir u.dir := by
  intro u hu hk
  obtain ⟨new, hnew, hkeys⟩ := h.grown
  rw [hnew, List.nil_append] at hu
  rcases hkeys u hu with ⟨K', hK', hk'⟩
  have hpair := (List.pairwise_append.1 hd).2.2 K' hK' K (by simp)
  have hsame : K'.ofDir u.dir = K.ofDir u.dir := hk'.symm.trans hk
  cases hdir : u.dir with
  | write =>
      rw [hdir] at hsame
      exact hpair.1 (congrArg DirKeys.key hsame)
  | read =>
      rw [hdir] at hsame
      exact hpair.2 (congrArg DirKeys.key hsame)

/-- A connection, up to its outcome: either the application epoch begins, or the state is `ERROR`. -/
theorem tlsConnect_logged (E : ConnEnv κ) (hlog : Logged base es c)
    (hfresh : ∀ K ∈ hsEpoch E c, ∀ u ∈ c.uses, u.keys ≠ K.ofDir u.dir) {ok : Bool}
    (hrun : tlsConnect E c = some (c', ok)) :
    Logged base (es ++ hsEpoch E c) c' ∧
      if ok = true then c'.hs.tlsState = .connected ∧ c'.writeSeq = zeroSeq ∧ c'.readSeq = zeroSeq
      else c'.hs.tlsState = .error := by
  have hquiet : Triple (Resting c.hs) ((connectHello E).next (connectServerHello E))
      (Quiet c.hs) (fun _ => True) :=
    Triple.next (connectHello_quiet E c.hs) (connectServerHello_quiet E c.hs)
  have hcounts : Triple (fun c₁ => c₁.uses = c.uses)
      ((connectHello E).next (connectServerHello E)) (CountsAre c.uses zeroSeq zeroSeq)
      (CountsAre c.uses zeroSeq zeroSeq) :=
    Triple.next (connectHello_counts E) (connectServerHello_counts E)
  have herror : ∀ c₁ : Conn κ, Logged base (es ++ hsEpoch E c) c₁ →
      Logged base (es ++ hsEpoch E c) (connectError c₁) ∧
        (connectError c₁).hs.tlsState = .error := by
    intro c₁ h₁
    unfold connectError
    split
    · rename_i herr
      exact ⟨h₁, herr⟩
    · exact ⟨h₁.of_uses rfl, rfl⟩
  -- the keys are known once the ServerHello is through, so the run is cut there
  have hcut : tlsConnect E = (((connectHello E).next (connectServerHello E)).next
      ((connectFlight E).next (connectFinish E))).onFail connectError := by
    unfold tlsConnect
    rw [Routine.next_assoc _ (connectFlight E)]
  rw [hcut] at hrun
  cases hmid : ((connectHello E).next (connectServerHello E)) c with
  | none =>
      rw [Routine.onFail_of_none (Routine.next_of_none hmid)] at hrun
      cases hrun
  | some r =>
      rcases r with ⟨c₁, ok₁⟩
      cases ok₁ with
      | false =>
          have hc₁ := hcounts.failure rfl hmid
          rw [Routine.onFail_of_failure (Routine.next_of_failure hmid)] at hrun
          cases hrun
          have hempty : hsEpoch E c = [] := by
            unfold hsEpoch
            rw [hmid]
          rw [hempty, List.append_nil] at herror ⊢
          exact herror c₁ (hlog.of_uses hc₁.1)
      | true =>
          have hc₁ := hcounts.success rfl hmid
          have hq := hquiet.success ⟨rfl, rfl⟩ hmid
          have hone : hsEpoch E c = [c₁.hsKeys] := by
            unfold hsEpoch
            rw [hmid]
          have hstart : Counting base (es ++ hsEpoch E c) c₁.hsKeys c₁ := by
            rw [hone]
            refine Counting.start (hlog.of_uses hc₁.1) ?_ hc₁.2.1 hc₁.2.2
            rw [hc₁.1]
            exact hfresh c₁.hsKeys (by simp [hone])
          have hrest : Triple (fun c₂ => HsCounting base (es ++ hsEpoch E c) c₁.hsKeys c₂ ∧
              Quiet c.hs c₂) ((connectFlight E).next (connectFinish E)) _ _ :=
            (connectFlight_counts E c.hs).next (connectFinish_counts E)
          have hfrom : ((connectFlight E).next (connectFinish E)).onFail connectError c₁ =
              some (c', ok) := by
            rw [← hrun]
            unfold Routine.onFail
            rw [Routine.next_of_success hmid]
          have hall : Triple _ (((connectFlight E).next (connectFinish E)).onFail connectError) _
              (fun c₂ => Logged base (es ++ hsEpoch E c) c₂ ∧ c₂.hs.tlsState = .error) :=
            hrest.onFail herror
          have hend := hall c₁ ⟨⟨hstart, rfl⟩, hq⟩ c' ok hfrom
          cases ok with
          | true => exact ⟨hend.1, hend.2.2.2, hend.2.1, hend.2.2.1⟩
          | false => exact hend

/-- A `tls_connect` that returns leaves the session at rest, whatever it was before. -/
theorem tlsConnect_atRest (E : ConnEnv κ) (hknown : Logged [] all c) (hlog : Logged base es c)
    (hd : Distinct (all ++ (hsEpoch E c ++ appEpoch E c))) {ok : Bool}
    (hrun : tlsConnect E c = some (c', ok)) :
    AtRest base (es ++ (hsEpoch E c ++ appEpoch E c)) ⟨c', ok⟩ := by
  have hfresh : ∀ K ∈ hsEpoch E c, ∀ u ∈ c.uses, u.keys ≠ K.ofDir u.dir := by
    intro K hK
    obtain ⟨pre, post, hsplit⟩ := List.append_of_mem hK
    have hdistinct : Distinct (all ++ [K]) := hd.sublist ?_
    · exact hknown.fresh hdistinct
    rw [hsplit]
    simp
  have hboth := tlsConnect_logged E hknown hfresh hrun
  have hsince := tlsConnect_logged E hlog hfresh hrun
  cases ok with
  | false =>
      have happ : appEpoch E c = [] := by
        unfold appEpoch
        rw [hrun]
      rw [happ, List.append_nil]
      refine ⟨hsince.1, Or.inr (Or.inr ⟨hsince.2, rfl⟩), ?_⟩
      rintro ⟨hopen, -⟩
      cases hopen
  | true =>
      have happ : appEpoch E c = [c'.appKeys] := by
        unfold appEpoch
        rw [hrun]
      rw [happ, ← List.append_assoc] at hd
      rw [happ, ← List.append_assoc]
      obtain ⟨hconn, hw, hr⟩ := hsince.2
      refine ⟨hsince.1.mono fun K hK => List.mem_append_left _ hK, Or.inr (Or.inl ⟨rfl, Or.inl hconn⟩), ?_⟩
      intro _
      have hd' : Distinct (all ++ hsEpoch E c ++ c'.appKeys :: []) := hd
      exact Counting.start hsince.1 (hboth.1.fresh hd') hw hr

/-- Records while the application keys are in force. -/
theorem selectKeys_application (h : TlsState.connected.code ≤ c.hs.tlsState.code) (dir : Dir) :
    tlsSelectKeys c dir = c.appKeys.ofDir dir := by
  unfold tlsSelectKeys
  rw [if_pos h]
  cases dir with
  | write => rfl
  | read => rfl

/-- In the plaintext states a record is handed over as it is, and none is fatal. -/
theorem RecvEffect.plaintext {R : RecordEnv} {ok : Bool} (h : RecvEffect R c c' ok)
    (hst : c.hs.tlsState = .idle) : c'.uses = c.uses ∧ c'.hs.tlsState = .idle := by
  have hbefore : ¬ TlsState.encryptedExt.code ≤ c.hs.tlsState.code := by
    rw [hst]
    decide
  cases h with
  | idle hr => exact ⟨hr.uses_eq, hr.state_eq.trans hst⟩
  | plain hr _ => exact ⟨hr.uses_eq, hr.state_eq.trans hst⟩
  | opened _ _ henc _ _ => exact absurd henc hbefore
  | rejected _ _ henc _ _ => exact absurd henc hbefore
  | refused hf hfatal =>
      refine ⟨hf.uses_eq, ?_⟩
      by_contra hno
      have hle := hfatal fun hsame => hno (hsame.trans hst)
      rw [hst] at hle
      unfold fatalFrom at hle
      split at hle
      · exact absurd hle (by decide)
      · exact absurd hle (by decide)

/-- With application keys in force the state stays, or becomes `ERROR`. -/
theorem RecvEffect.state {R : RecordEnv} {ok : Bool} (h : RecvEffect R c c' ok) :
    c'.hs.tlsState = c.hs.tlsState ∨ c'.hs.tlsState = .error := by
  cases h with
  | idle hr => exact Or.inl hr.state_eq
  | plain hr _ => exact Or.inl hr.state_eq
  | opened _ hstate _ _ _ => exact Or.inl hstate
  | rejected _ hstate _ _ _ => exact Or.inr hstate
  | refused hf _ => exact hf.state

theorem tlsRecv_effect (E : ConnEnv κ) {ok : Bool} (h : tlsRecv E c = some (c', ok)) :
    ∃ c₁ ok₁, RecvEffect E.toRecordEnv (netPoll { c with rxInner := 0 }) c₁ ok₁ ∧
      c' = { c₁ with rxInner := c'.rxInner } := by
  unfold tlsRecv at h
  cases hrun : tlsRecordRecvAndDecrypt E.toRecordEnv (netPoll { c with rxInner := 0 }) with
  | none =>
      rw [hrun] at h
      cases h
  | some r =>
      rcases r with ⟨c₁, ok₁⟩
      refine ⟨c₁, ok₁, recv_effect E.toRecordEnv hrun, ?_⟩
      rw [hrun] at h
      cases ok₁ with
      | false =>
          cases h
          rfl
      | true =>
          have hstate := congrArg (fun r => r.map Prod.fst) h
          simp only [Option.map_some, Option.some.injEq] at hstate
          rw [← hstate]

end Connection

section Rest

variable {base : List AeadUse} {es all : List TrafficKeys} {s s' : Session κ}

/-- Keys in force have a code that `tls_select_keys` takes for the application phase. -/
theorem Session.InForce.application (h : s.InForce) :
    TlsState.connected.code ≤ s.conn.hs.tlsState.code := by
  rcases h.2 with hst | hst
  · rw [hst]
  · rw [hst]
    decide

/-- What changes neither log nor counters nor keys nor the state keeps the session at rest. -/
theorem AtRest.of_counts (h : AtRest base es s) (hopen : s'.opened = s.opened)
    (hst : s'.conn.hs.tlsState = s.conn.hs.tlsState) (hu : s'.conn.uses = s.conn.uses)
    (hw : s'.conn.writeSeq = s.conn.writeSeq) (hr : s'.conn.readSeq = s.conn.readSeq)
    (hk : s'.conn.appKeys = s.conn.appKeys) : AtRest base es s' := by
  have hforce : s'.InForce → s.InForce := by
    unfold Session.InForce
    rw [hst, hopen]
    exact id
  refine ⟨h.logged.of_uses hu, ?_, ?_⟩
  · unfold Session.InForce Session.Broken
    rw [hst, hopen]
    exact h.state
  · intro hin
    rw [hk]
    exact (h.counting (hforce hin)).of_counts hu hw hr

theorem AtRest.close (h : AtRest base es s) :
    AtRest base es { s with conn := tlsClose s.conn } := by
  refine ⟨h.logged.of_uses rfl, Or.inl rfl, ?_⟩
  rintro ⟨-, hst | hst⟩
  · cases hst
  · cases hst

/-- `CONNECTED` is reached by a `tls_connect` that succeeded. -/
theorem AtRest.inForce (h : AtRest base es s) (hst : s.conn.hs.tlsState = .connected) :
    s.InForce := by
  rcases h.state with hidle | hin | hbroken
  · exact absurd (hst.symm.trans hidle) (by decide)
  · exact hin
  · exact absurd (hst.symm.trans hbroken.1) (by decide)

/-- A record sealed in `CONNECTED`. -/
theorem AtRest.send (E : ConnEnv κ) (data : List UInt8) (h : AtRest base es s)
    (hst : s.conn.hs.tlsState = .connected) :
    AtRest base es { s with conn := (tlsSend E data s.conn).1 } := by
  have hin := h.inForce hst
  have hcount : Counting base es s.conn.appKeys { s.conn.withRecord
      (store s.conn.hs.recBuf 0 (data.take (data.length % 256))) data.length with
        recType := ctApplication } := (h.counting hin).of_counts rfl rfl rfl
  have hsent := hcount.send (R := E.toRecordEnv) (selectKeys_application (by
    show TlsState.connected.code ≤ s.conn.hs.tlsState.code
    rw [hst]) .write)
  have hkeys : (tlsSend E data s.conn).1.appKeys = s.conn.appKeys :=
    (tlsSendRecord_counts E.toRecordEnv _).2.2.2.2
  have hstate : (tlsSend E data s.conn).1.hs.tlsState = .connected := by
    unfold tlsSend tlsRecordSendEncrypted
    rw [(tlsSendRecord_hs _ _).1]
    exact hst
  refine ⟨hsent.toLogged, Or.inr (Or.inl ⟨hin.1, Or.inl hstate⟩), fun _ => ?_⟩
  show Counting base es (tlsSend E data s.conn).1.appKeys _
  rw [hkeys]
  exact hsent

/-- A receive, unless the connection is one that failed. -/
theorem AtRest.recv (E : ConnEnv κ) (h : AtRest base es s) (hheed : ¬ s.Broken) {c' : Conn κ}
    {ok : Bool} (hrun : tlsRecv E s.conn = some (c', ok)) :
    AtRest base es { s with conn := c' } := by
  obtain ⟨c₁, ok₁, heff, hc'⟩ := tlsRecv_effect E hrun
  -- the poll and `tls_rx_inner` concern neither keys nor counters
  suffices hmain : AtRest base es { s with conn := c₁ } by
    rw [hc']
    exact hmain.of_counts rfl rfl rfl rfl rfl rfl
  rcases h.state with hidle | hin | hbroken
  · obtain ⟨huses, hst⟩ := heff.plaintext hidle
    refine ⟨h.logged.of_uses huses, Or.inl hst, ?_⟩
    rintro ⟨-, hc | hc⟩
    · exact absurd (hc.symm.trans hst) (by decide)
    · exact absurd (hc.symm.trans hst) (by decide)
  · have hpoll : Counting base es s.conn.appKeys (netPoll { s.conn with rxInner := 0 }) :=
      (h.counting hin).of_counts rfl rfl rfl
    have hcount := hpoll.recv (selectKeys_application hin.application .read) heff
    have hkeys : c₁.appKeys = s.conn.appKeys := rest_appKeys heff.hsKeys_eq
    have hin' : Session.InForce { s with conn := c₁ } := by
      rcases heff.state with hsame | herr
      · have hst : c₁.hs.tlsState = s.conn.hs.tlsState := hsame
        unfold Session.InForce
        rw [hst]
        exact hin
      · exact ⟨hin.1, Or.inr herr⟩
    refine ⟨hcount.toLogged, Or.inr (Or.inl hin'), fun _ => ?_⟩
    show Counting base es c₁.appKeys _
    rw [hkeys]
    exact hcount
  · exact absurd hbroken hheed

/-- One call. -/
theorem Call.run_atRest {a : Call κ} (hknown : AtRest [] all s) (h : AtRest base es s)
    (hheed : a.receives = true → ¬ s.Broken) (hd : Distinct (all ++ a.epochs s))
    (hrun : a.run s = some s') : AtRest base (es ++ a.epochs s) s' := by
  cases a with
  | connect E =>
      obtain ⟨⟨c', ok⟩, hconn, rfl⟩ := Option.map_eq_some_iff.1 hrun
      exact tlsConnect_atRest E hknown.logged h.logged hd hconn
  | send E data =>
      rw [show (Call.send E data).epochs s = [] from rfl, List.append_nil]
      have hguard : (if s.conn.hs.tlsState = .connected then
          some { s with conn := (tlsSend E data s.conn).1 } else none) = some s' := hrun
      split at hguard
      · rename_i hst
        cases hguard
        exact h.send E data hst
      · cases hguard
  | recv E =>
      rw [show (Call.recv E).epochs s = [] from rfl, List.append_nil]
      obtain ⟨⟨c', ok⟩, hrecv, rfl⟩ := Option.map_eq_some_iff.1 hrun
      exact h.recv E (hheed rfl) hrecv
  | close =>
      cases hrun
      rw [show (Call.close (κ := κ)).epochs s = [] from rfl, List.append_nil]
      exact h.close
  | arrive bursts =>
      cases hrun
      rw [show (Call.arrive (κ := κ) bursts).epochs s = [] from rfl, List.append_nil]
      exact h.of_counts rfl rfl rfl rfl rfl rfl

/-- A run of calls. -/
theorem runCalls_atRest (calls : List (Call κ)) : ∀ {all es : List TrafficKeys} {s s' : Session κ},
    AtRest [] all s → AtRest base es s → heeds calls s = true → Distinct (all ++ epochKeys calls s) →
      runCalls calls s = some s' → AtRest base (es ++ epochKeys calls s) s' := by
  induction calls with
  | nil =>
      intro all es s s' _ h _ _ hrun
      cases hrun
      rw [show epochKeys ([] : List (Call κ)) s = [] from rfl, List.append_nil]
      exact h
  | cons a as ih =>
      intro all es s s' hknown h hheed hd hrun
      obtain ⟨s₁, hfirst, hrest⟩ := Option.bind_eq_some_iff.1 hrun
      rw [epochKeys_cons as hfirst, ← List.append_assoc] at hd ⊢
      have hd₁ : Distinct (all ++ a.epochs s) := (List.pairwise_append.1 hd).1
      obtain ⟨hnow, hlater⟩ := (heeds_cons as hfirst).1 hheed
      exact ih (Call.run_atRest hknown hknown hnow hd₁ hfirst)
        (Call.run_atRest hknown h hnow hd₁ hfirst) hlater hd hrest

/-- The keys that may still be used without another key change: those in force, unless a connection
is made at once. -/
def liveKeys : List (Call κ) → Session κ → List TrafficKeys
  | .connect _ :: _, _ => []
  | _, s => if s.InForce then [s.conn.appKeys] else []

/-- A new base at any point of a run. -/
theorem AtRest.restart (h : AtRest base es s) :
    AtRest s.conn.uses (if s.InForce then [s.conn.appKeys] else []) s := by
  have hlog : ∀ es' : List TrafficKeys, Logged s.conn.uses es' s.conn :=
    fun es' => ⟨h.logged.numbered, [], by rw [List.append_nil], by simp⟩
  refine ⟨hlog _, h.state, ?_⟩
  intro hin
  have hcount := h.counting hin
  rw [if_pos hin]
  exact ⟨hlog _, List.mem_singleton.2 rfl, hcount.write, hcount.read⟩

/-- What is logged from here on is under keys in force or keys still to come. -/
theorem runCalls_logged (calls : List (Call κ)) (h : AtRest [] all s) (hheed : heeds calls s = true)
    (hd : Distinct (all ++ epochKeys calls s)) (hrun : runCalls calls s = some s') :
    Logged s.conn.uses (liveKeys calls s ++ epochKeys calls s) s'.conn := by
  have hgeneral : Logged s.conn.uses
      ((if s.InForce then [s.conn.appKeys] else []) ++ epochKeys calls s) s'.conn :=
    (runCalls_atRest calls h h.restart hheed hd hrun).logged
  cases calls with
  | nil => exact hgeneral
  | cons a as =>
      cases a with
      | send E data => exact hgeneral
      | recv E => exact hgeneral
      | close => exact hgeneral
      | arrive bursts => exact hgeneral
      | connect E =>
          -- the counters are reset before the first record, so the keys in force are out of use
          obtain ⟨s₁, hfirst, hrest⟩ := Option.bind_eq_some_iff.1 hrun
          have hkeys : epochKeys (.connect E :: as) s =
              (hsEpoch E s.conn ++ appEpoch E s.conn) ++ epochKeys as s₁ :=
            epochKeys_cons as hfirst
          have hheed' := ((heeds_cons as hfirst).1 hheed).2
          rw [hkeys, ← List.append_assoc] at hd
          obtain ⟨⟨c', ok⟩, hconn, rfl⟩ := Option.map_eq_some_iff.1 hfirst
          have hd₁ := (List.pairwise_append.1 hd).1
          have hempty : Logged s.conn.uses [] s.conn :=
            ⟨h.logged.numbered, [], by rw [List.append_nil], by simp⟩
          have hknown := tlsConnect_atRest E h.logged h.logged hd₁ hconn
          have hsince := tlsConnect_atRest E h.logged hempty hd₁ hconn
          rw [hkeys]
          exact (runCalls_atRest as hknown hsince hheed' hd hrest).logged

end Rest

/-! ## The discipline of the epochs -/

/-- What a run leaves: no key and nonce twice, every record numbered within its epoch, the counters
those of the epoch in force, and a key behind a reset counter out of use. -/
structure Disciplined (calls : List (Call κ)) (s s' : Session κ) : Prop where
  unique : ∀ pre u mid v post, s'.conn.uses = pre ++ u :: (mid ++ v :: post) → u.dir = .write →
    v.dir = .write → u.keys.key = v.keys.key → u.nonce ≠ v.nonce
  numbered : ∀ pre u post, s'.conn.uses = pre ++ u :: post →
    seqVal u.seq = processed u.dir u.keys pre
  counters : s'.InForce →
    seqVal s'.conn.writeSeq = processed .write s'.conn.appKeys.write s'.conn.uses ∧
      seqVal s'.conn.readSeq = processed .read s'.conn.appKeys.read s'.conn.uses
  retired : ∀ pre post s₁, calls = pre ++ post → runCalls pre s = some s₁ →
    ∃ new, s'.conn.uses = s₁.conn.uses ++ new ∧
      ∀ u ∈ new, ∃ K ∈ liveKeys post s₁ ++ epochKeys post s₁, u.keys = K.ofDir u.dir

/-- Before the first connection. -/
structure Session.AtBoot (s : Session κ) : Prop where
  uses_eq : s.conn.uses = []
  state_eq : s.conn.hs.tlsState = .idle

/-- No epoch processes 2^64 records. -/
def Bounded (us : List AeadUse) : Prop :=
  ∀ dir k, processed dir k us < 2 ^ 64

section Discipline

variable {us : List AeadUse} {es : List TrafficKeys}

theorem processed_prefix_le (dir : Dir) (k : DirKeys) (us vs : List AeadUse) :
    processed dir k us ≤ processed dir k (us ++ vs) := by
  rw [processed_append]
  exact Nat.le_add_right _ _

/-- Between two records sealed under one key the count has grown. -/
theorem processed_lt_of_sealed {pre mid : List AeadUse} {u : AeadUse} (hdir : u.dir = .write)
    (hok : u.ok = true) :
    processed .write u.keys pre < processed .write u.keys (pre ++ u :: mid) := by
  have hone : processed .write u.keys (pre ++ [u]) = processed .write u.keys pre + 1 :=
    processed_snoc_of ⟨hdir, rfl, hok⟩
  have hle := processed_prefix_le .write u.keys (pre ++ [u]) mid
  rw [List.append_assoc, List.singleton_append] at hle
  omega

/-- Distinct epochs with one write key are one epoch. -/
theorem Distinct.write_eq (hd : Distinct es) {K K' : TrafficKeys} (hK : K ∈ es) (hK' : K' ∈ es)
    (hkey : K.write.key = K'.write.key) : K = K' := by
  refine List.Pairwise.forall_of_forall_of_flip (R := fun K K' => K.write.key = K'.write.key → K = K')
    ?_ ?_ ?_ hK hK' hkey
  · intro K _ _
    rfl
  · exact hd.imp fun h hsame => absurd hsame h.1
  · exact hd.imp fun h hsame => absurd hsame.symm h.1

/-- Two records sealed under one key have two nonces. -/
theorem Numbered.unique (h : Numbered us) (hkeys : ∀ u ∈ us, ∃ K ∈ es, u.keys = K.ofDir u.dir)
    (hd : Distinct es) (hiv : ∀ K ∈ es, K.write.iv.length = 12) (hb : Bounded us)
    {pre mid post : List AeadUse} {u v : AeadUse} (hus : us = pre ++ u :: (mid ++ v :: post))
    (hud : u.dir = .write) (hvd : v.dir = .write) (hkey : u.keys.key = v.keys.key) :
    u.nonce ≠ v.nonce := by
  intro hnonce
  have hus' : us = (pre ++ u :: mid) ++ v :: post := by
    rw [hus, List.append_assoc, List.cons_append]
  obtain ⟨hseq, hn, hok⟩ := h.split hus
  obtain ⟨hseq', hn', -⟩ := h.split hus'
  rw [hud] at hseq
  rw [hvd] at hseq'
  obtain ⟨K, hK, hk⟩ := hkeys u (by rw [hus]; simp)
  obtain ⟨K', hK', hk'⟩ := hkeys v (by rw [hus]; simp)
  rw [hud] at hk
  rw [hvd] at hk'
  have hsame : u.keys = v.keys := by
    rw [hk, hk'] at hkey
    rw [hk, hk', hd.write_eq hK hK' hkey]
  have hlen : u.keys.iv.length = 12 := by
    rw [hk]
    exact hiv K hK
  -- equal nonces have equal counters, and the counters are the numbers of the records before
  have hcount : u.seq = v.seq := by
    refine nonceOf_inj hlen ?_ ?_ ?_
    · rw [hseq, length_seqAt]
    · rw [hseq', length_seqAt]
    · rw [← hn, hnonce, hn', hsame]
  have hsmall : ∀ us₁ us₂, us = us₁ ++ us₂ → processed .write u.keys us₁ < 2 ^ 64 := by
    intro us₁ us₂ hsplit
    have hle := processed_prefix_le .write u.keys us₁ us₂
    rw [← hsplit] at hle
    exact lt_of_le_of_lt hle (hb .write u.keys)
  have hval : processed .write u.keys pre = processed .write u.keys (pre ++ u :: mid) := by
    calc processed .write u.keys pre
        = seqVal u.seq := by rw [hseq, seqVal_seqAt (hsmall _ _ hus)]
      _ = seqVal v.seq := by rw [hcount]
      _ = processed .write u.keys (pre ++ u :: mid) := by
          rw [hseq', ← hsame, seqVal_seqAt (hsmall _ _ hus')]
  have hgrown : processed .write u.keys pre < processed .write u.keys (pre ++ u :: mid) :=
    processed_lt_of_sealed hud (hok hud)
  exact absurd hval (Nat.ne_of_lt hgrown)

end Discipline

theorem Session.AtBoot.atRest {s : Session κ} (h : s.AtBoot) : AtRest [] [] s := by
  refine ⟨⟨?_, [], h.uses_eq, by simp⟩, Or.inl h.state_eq, ?_⟩
  · rw [h.uses_eq]
    exact .nil
  · rintro ⟨-, hst | hst⟩
    · exact absurd (hst.symm.trans h.state_eq) (by decide)
    · exact absurd (hst.symm.trans h.state_eq) (by decide)

/-- Every run from boot keeps the discipline, if the caller gives up the connections that fail. -/
theorem epochs_disciplined (calls : List (Call κ)) {s s' : Session κ} (hboot : s.AtBoot)
    (hheed : heeds calls s = true) (hrun : runCalls calls s = some s')
    (hd : Distinct (epochKeys calls s)) (hiv : ∀ K ∈ epochKeys calls s, K.write.iv.length = 12)
    (hb : Bounded s'.conn.uses) : Disciplined calls s s' := by
  have hrest := runCalls_atRest calls hboot.atRest hboot.atRest hheed hd hrun
  rw [List.nil_append] at hrest
  obtain ⟨new, hnew, hkeys⟩ := hrest.logged.grown
  rw [List.nil_append] at hnew
  rw [← hnew] at hkeys
  refine ⟨?_, ?_, ?_, ?_⟩
  · intro pre u mid v post hus hud hvd hkey
    exact hrest.logged.numbered.unique hkeys hd hiv hb hus hud hvd hkey
  · intro pre u post hus
    obtain ⟨hseq, -⟩ := hrest.logged.numbered.split hus
    have hle := processed_prefix_le u.dir u.keys pre (u :: post)
    rw [← hus] at hle
    rw [hseq, seqVal_seqAt (lt_of_le_of_lt hle (hb u.dir u.keys))]
  · intro hin
    have hcount := hrest.counting hin
    rw [hcount.write, hcount.read]
    exact ⟨seqVal_seqAt (hb _ _), seqVal_seqAt (hb _ _)⟩
  · intro pre post s₁ hcalls hpre
    subst hcalls
    obtain ⟨hsplit, hepochs, hparts⟩ := runCalls_split pre post hpre
    obtain ⟨hheed₁, hheed₂⟩ := hparts hheed
    rw [hepochs] at hd
    have hmid := runCalls_atRest pre hboot.atRest hboot.atRest hheed₁
      ((List.pairwise_append.1 hd).1) hpre
    rw [List.nil_append] at hmid
    rw [hsplit] at hrun
    exact (runCalls_logged post hmid hheed₂ hd hrun).grown

/-! ## Two runs -/

/-- Storage that holds zeros, before the peer sends `wire`. -/
def Session.blank (wire : List (List UInt8)) : Session Unit :=
  ⟨Conn.blank wire, false⟩

/-- A record of application data. -/
def appRecord (bs : List UInt8) : List UInt8 :=
  wireRecord ctApplication (bs ++ [ctApplication] ++ List.replicate 16 0)

/-- What the peer sends in one handshake. -/
def sampleHandshake : List (List UInt8) :=
  [wireRecord ctHandshake sampleServerHello, sealedRecord sampleFlight]

theorem processed_le_length (dir : Dir) (k : DirKeys) (us : List AeadUse) :
    processed dir k us ≤ us.length :=
  List.countP_le_length

theorem bounded_of_length {us : List AeadUse} (h : us.length < 2 ^ 64) : Bounded us :=
  fun dir k => lt_of_le_of_lt (processed_le_length dir k us) h

/-- Keys of its own for each connection. -/
def ConnEnv.rekeyed (n : UInt8) : ConnEnv Unit :=
  { ConnEnv.accepting with
    tlsDeriveHandshakeKeys := fun _ _ => ((), .sample n)
    tlsDeriveTrafficKeys := fun _ _ => ((), .sample (n + 2)) }

/-- Two connections, with data both ways on the first. -/
def twoConnections : List (Call Unit) :=
  [.connect (.rekeyed 1), .send (.rekeyed 1) [1, 2, 3], .arrive [appRecord [4, 5]],
    .recv (.rekeyed 1), .close, .arrive sampleHandshake, .connect (.rekeyed 5),
    .send (.rekeyed 5) [6]]

theorem epochs_disciplined_two :
    ∃ s' : Session Unit, s'.conn.hs.tlsState = .connected ∧ s'.conn.uses.length = 7 ∧
      Disciplined twoConnections (.blank sampleHandshake) s' := by
  have hrun : (runCalls twoConnections (.blank sampleHandshake)).map
      (fun s => (s.conn.hs.tlsState, s.conn.uses.length)) = some (.connected, 7) := by
    decide +kernel
  obtain ⟨s', hs', hout⟩ := Option.map_eq_some_iff.1 hrun
  obtain ⟨hst, hlen⟩ := Prod.mk.inj hout
  have hkeys : epochKeys twoConnections (.blank sampleHandshake) =
      [.sample 1, .sample 3, .sample 5, .sample 7] := by
    decide +kernel
  have hheed : heeds twoConnections (.blank sampleHandshake) = true := by
    decide +kernel
  refine ⟨s', hst, hlen, epochs_disciplined twoConnections ⟨rfl, rfl⟩ hheed hs' ?_ ?_ ?_⟩
  · rw [hkeys]
    unfold Distinct
    decide
  · rw [hkeys]
    decide
  · exact bounded_of_length (by rw [hlen]; decide)

/-- A receive behind a connection that failed to send its ClientHello. -/
def staleReceive : List (Call Unit) :=
  [.connect .accepting, .arrive [appRecord [4, 5]], .recv .accepting,
    .connect { ConnEnv.accepting with sendOk := fun _ => false }, .arrive [appRecord [4, 5]],
    .recv .accepting]

/-- Without `heeds` a record is opened under the keys of the first connection at number 0 again. -/
theorem not_disciplined_stale :
    ¬ ∀ (calls : List (Call Unit)) (s s' : Session Unit), s.AtBoot → runCalls calls s = some s' →
      Distinct (epochKeys calls s) → (∀ K ∈ epochKeys calls s, K.write.iv.length = 12) →
        Bounded s'.conn.uses → Disciplined calls s s' := by
  intro hall
  have hrun : (runCalls staleReceive (.blank sampleHandshake)).map
      (fun s => s.conn.uses.map fun u => (u.dir, u.keys, u.seq, u.ok)) =
        some [(.read, (TrafficKeys.sample 1).read, zeroSeq, true),
          (.write, (TrafficKeys.sample 1).write, zeroSeq, true),
          (.read, (TrafficKeys.sample 3).read, zeroSeq, true),
          (.read, (TrafficKeys.sample 3).read, zeroSeq, true)] := by
    decide +kernel
  obtain ⟨s', hs', huses⟩ := Option.map_eq_some_iff.1 hrun
  have hkeys : epochKeys staleReceive (.blank sampleHandshake) = [.sample 1, .sample 3] := by
    decide +kernel
  have hlen : s'.conn.uses.length = 4 := by
    simpa using congrArg List.length huses
  have hdis : Disciplined staleReceive (.blank sampleHandshake) s' := by
    refine hall _ _ _ ⟨rfl, rfl⟩ hs' ?_ ?_ ?_
    · rw [hkeys]
      unfold Distinct
      decide
    · rw [hkeys]
      decide
    · exact bounded_of_length (by rw [hlen]; decide)
  match hus : s'.conn.uses, hlen, huses with
  | [u₁, u₂, u₃, u₄], _, huses =>
      simp only [List.map_cons, List.map_nil, List.cons.injEq, Prod.mk.injEq] at huses
      obtain ⟨⟨d₁, k₁, -, o₁⟩, ⟨d₂, -⟩, ⟨d₃, k₃, -, o₃⟩, ⟨d₄, k₄, q₄, -⟩, -⟩ := huses
      have hnum := hdis.numbered [u₁, u₂, u₃] u₄ [] hus
      rw [d₄, k₄, q₄] at hnum
      have hone : processed .read (TrafficKeys.sample 3).read [u₁, u₂, u₃] = 1 := by
        unfold processed
        rw [List.countP_cons_of_neg, List.countP_cons_of_neg, List.countP_cons_of_pos,
          List.countP_nil]
        · exact decide_eq_true ⟨d₃, k₃, o₃⟩
        · rw [d₂]
          simp
        · rw [decide_eq_true_iff]
          rintro ⟨-, hk, -⟩
          exact absurd (k₁.symm.trans hk) (by decide)
      rw [hone] at hnum
      exact absurd hnum (by decide)

end Tls
end C64Https
