import C64Https.Http.Sink
import C64Https.Net.Rx

/-!
# RecvBody — the loops that receive a response (`src/http.s`)

`http_recv_body` hands the parser every decrypted record; on `uci-m3`, where the Ultimate runs the
TLS session, what has come into the ring, as `http_get_plain` does.  All of them end with the parser
or with a verdict of their own, and all finish the body's sink.
-/

namespace C64Https
namespace Http

open Word Loop Bytes

/-! ## Verdicts -/

/-- `http_recv_close_verdict` (`clean`) and `http_recv_timeout_verdict`. -/
def verdict (E : HttpEnv) (clean : Bool) (h : Response) : Response × Bool :=
  let h := bodyFinish E h
  if E.uci && h.sinkFull then (h, false)
  else if h.parseState ≠ .body then (h, false)
  else if h.clValid then (h, bodyDone h)
  else if h.chunked then (h, false)
  else (h, clean)

/-- `@tick_abort`. -/
def aborted (E : HttpEnv) (h : Response) : Response × Bool :=
  (bodyFinish E h, false)

/-! ## `http_recv_body` -/

/-- What one `tls_recv` brings. -/
inductive RecvEvent where
  /-- a record of application data -/
  | data (bs : List UInt8)
  /-- the record layer has given the connection up (bit 7 of `tls_state`) -/
  | failed
  /-- an authenticated alert: its length and its second byte -/
  | alert (len : Nat) (desc : UInt8)
  /-- no record, or one that is neither, such as a ticket -/
  | idle
  deriving DecidableEq, Repr

structure RecvState where
  h : Response
  /-- `http_recv_ticks` -/
  ticks : Nat

/-- `@recv_complete`: with carry clear unless the sink has refused a write. -/
def recvComplete (E : HttpEnv) (h : Response) : Response × Bool :=
  let h := bodyFinish E h
  (h, !(E.uci && h.sinkFull))

/-- `http_recv_tick`. -/
def recvTick (E : HttpEnv) (s : RecvState) : Turn RecvState (Response × Bool) :=
  if inc16 s.ticks = 0 then .leave (verdict E false s.h)
  else .again { s with ticks := inc16 s.ticks }

/-- One turn of `http_recv_loop`. -/
def recvTurn (E : HttpEnv) (s : RecvState) : RecvEvent → Turn RecvState (Response × Bool)
  | .data bs =>
      let r := httpRecvResponse E s.h ⟨.span, [], bs⟩
      if r.2.2 then .leave (recvComplete E r.1)
      else if E.uci && r.1.sinkFull then .leave (recvComplete E r.1)
      else .again ⟨r.1, 0⟩
  | .failed => .leave (aborted E s.h)
  | .alert len desc =>
      if len ≠ 2 then .leave (aborted E s.h)
      else if desc ≠ 0 then .leave (aborted E s.h)
      else .leave (verdict E true s.h)
  | .idle => recvTick E s

/-- `http_recv_body`, up to the event that ends it. -/
def httpRecvBody (E : HttpEnv) (h : Response) (evs : List RecvEvent) :
    Turn RecvState (Response × Bool) :=
  feed (recvTurn E) ⟨respInit E h, 0⟩ evs

/-! ## `http_recv_body` of `uci-m3` -/

/-- What one `net_poll` leaves: bytes in the ring and its tail, the state of the session with
`m3_eof_code`, and whether the deadline has passed. -/
structure M3Event where
  bytes : List UInt8
  tail : Nat
  state : Net.TcpState
  eofCode : Nat
  expired : Bool
  deriving DecidableEq, Repr

structure M3State where
  h : Response
  i : Input
  /-- `@m3_tail` -/
  mark : Nat

/-- One turn of `@m3_loop`. -/
def m3Turn (E : HttpEnv) (s : M3State) (e : M3Event) : Turn M3State (Response × Bool) :=
  let r := httpRecvResponse E s.h (s.i.deliver (.ring e.bytes))
  let s := { s with h := r.1, i := r.2.1 }
  if r.2.2 then .leave (recvComplete E r.1)
  else if E.uci && r.1.sinkFull then .leave (aborted E r.1)
  else
    match e.state with
    | .connected =>
        if e.tail ≠ s.mark then .again { s with mark := e.tail }
        else if e.expired then .leave (verdict E false r.1)
        else .again s
    | .closed =>
        if e.eofCode ≠ 5 then .leave (verdict E true r.1)
        else if r.1.clValid || r.1.chunked then .leave (verdict E true r.1)
        else .leave (aborted E r.1)
    | .error => .leave (aborted E r.1)
    | .connectFail => .leave (aborted E r.1)

/-- `http_recv_body` of `uci-m3`, from a ring with its tail at `tail`. -/
def m3RecvBody (E : HttpEnv) (h : Response) (i : Input) (tail : Nat) (evs : List M3Event) :
    Turn M3State (Response × Bool) :=
  feed (m3Turn E) ⟨respInit E h, i, tail⟩ evs

/-! ## `http_get_plain` -/

/-- What one `net_poll` leaves: bytes in the ring, and whether the connection is closed. -/
structure PlainEvent where
  bytes : List UInt8
  closed : Bool
  deriving DecidableEq, Repr

structure PlainState where
  h : Response
  i : Input
  /-- `@poll_timeout` -/
  polls : Nat

/-- `@plain_done` and `@plain_short`. -/
def plainFinish (E : HttpEnv) (h : Response) (ok : Bool) : Response × Bool :=
  (bodyFinish E h, ok)

/-- `@plain_tick`. -/
def plainTick (E : HttpEnv) (s : PlainState) : Turn PlainState (Response × Bool) :=
  if inc16 s.polls = 0 then .leave (plainFinish E s.h false)
  else .again { s with polls := inc16 s.polls }

/-- One turn of `@plain_poll`. -/
def plainTurn (E : HttpEnv) (s : PlainState) (e : PlainEvent) :
    Turn PlainState (Response × Bool) :=
  let r := httpRecvResponse E s.h (s.i.deliver (.ring e.bytes))
  let s := { s with h := r.1, i := r.2.1 }
  if r.2.2 then .leave (plainFinish E r.1 true)
  else if r.1.parseState ≠ .body then plainTick E s
  else if r.1.clValid || r.1.chunked then plainTick E s
  else if e.closed then .leave (plainFinish E r.1 true)
  else if 512 ≤ r.1.respLen then .leave (plainFinish E r.1 false)
  else plainTick E s

/-- `http_get_plain`, once the request is sent. -/
def httpGetPlain (E : HttpEnv) (h : Response) (evs : List PlainEvent) :
    Turn PlainState (Response × Bool) :=
  feed (plainTurn E) ⟨respInit E h, .empty, 0⟩ evs

/-- The payload of a plain fetch. -/
def plainTrace (E : HttpEnv) : Trace → PlainState → List PlainEvent → Trace
  | t, _, [] => t
  | t, s, e :: es =>
      let t := recvTrace E t s.h (s.i.deliver (.ring e.bytes)).pending
      match plainTurn E s e with
      | .again s => plainTrace E t s es
      | .leave _ => t

def plainPayload (E : HttpEnv) (h : Response) (evs : List PlainEvent) : List UInt8 :=
  (plainTrace E .empty ⟨respInit E h, .empty, 0⟩ evs).body

/-! ## One turn of `http_get_plain` -/

variable {E : HttpEnv} {h : Response}

/-- A turn goes on behind a call that was not complete, or ends with `http_body_finish`. -/
theorem plainTurn_post (s : PlainState) (e : PlainEvent) {call : Response × Input × Bool}
    (hcall : httpRecvResponse E s.h (s.i.deliver (.ring e.bytes)) = call) :
    (plainTurn E s e).Post (fun s' => call.2.2 = false ∧ s'.h = call.1)
      (fun r => r.1 = bodyFinish E call.1) := by
  have htick : ∀ x : PlainState, call.2.2 = false → x.h = call.1 →
      (plainTick E x).Post (fun s' => call.2.2 = false ∧ s'.h = call.1)
        (fun r => r.1 = bodyFinish E call.1) := by
    intro x hno hx
    unfold plainTick plainFinish
    split
    case isTrue =>
      show bodyFinish E x.h = bodyFinish E call.1
      rw [hx]
    case isFalse => exact ⟨hno, hx⟩
  unfold plainTurn
  dsimp only
  rw [hcall]
  split
  case isTrue => rfl
  case isFalse hno =>
    rw [Bool.not_eq_true] at hno
    split
    case isTrue => exact htick _ hno rfl
    case isFalse =>
      split
      case isTrue => exact htick _ hno rfl
      case isFalse =>
        split
        case isTrue => rfl
        case isFalse =>
          split
          case isTrue => rfl
          case isFalse => exact htick _ hno rfl

/-! ## A success of `http_recv_body` -/

theorem verdict_fst (clean : Bool) : (verdict E clean h).1 = bodyFinish E h := by
  unfold verdict
  dsimp only
  split
  case isTrue => rfl
  case isFalse =>
    split
    case isTrue => rfl
    case isFalse =>
      split
      case isTrue => rfl
      case isFalse => split <;> rfl

theorem verdict_sinkFull (huci : E.uci = true) {clean : Bool}
    (hok : (verdict E clean h).2 = true) : (verdict E clean h).1.sinkFull = false := by
  rw [verdict_fst, ← Bool.not_eq_true]
  intro hfull
  unfold verdict at hok
  dsimp only at hok
  rw [if_pos (by rw [huci, hfull]; rfl)] at hok
  cases hok

theorem recvComplete_sinkFull (huci : E.uci = true) (hok : (recvComplete E h).2 = true) :
    (recvComplete E h).1.sinkFull = false := by
  unfold recvComplete at hok ⊢
  dsimp only at hok ⊢
  rw [huci, Bool.true_and, Bool.not_eq_true'] at hok
  exact hok

/-- A turn that ends `http_recv_body` with carry clear has a sink that is not full. -/
theorem recvTurn_sinkFull (huci : E.uci = true) (s : RecvState) (e : RecvEvent) :
    (recvTurn E s e).Post (fun _ => True) (fun r => r.2 = true → r.1.sinkFull = false) := by
  cases e with
  | data bs =>
      unfold recvTurn
      dsimp only
      split
      case isTrue => exact recvComplete_sinkFull huci
      case isFalse =>
        split
        case isTrue => exact recvComplete_sinkFull huci
        case isFalse => exact True.intro
  | failed =>
      intro hok
      cases hok
  | alert len desc =>
      dsimp only [recvTurn]
      split
      case isTrue =>
        intro hok
        cases hok
      case isFalse =>
        split
        case isTrue =>
          intro hok
          cases hok
        case isFalse => exact verdict_sinkFull huci
  | idle =>
      dsimp only [recvTurn, recvTick]
      split
      case isTrue => exact verdict_sinkFull huci
      case isFalse => exact True.intro

/-- On `uci-m3` too. -/
theorem m3Turn_sinkFull (huci : E.uci = true) (s : M3State) (e : M3Event) :
    (m3Turn E s e).Post (fun _ => True) (fun r => r.2 = true → r.1.sinkFull = false) := by
  unfold m3Turn
  dsimp only
  split
  case isTrue => exact recvComplete_sinkFull huci
  case isFalse =>
    split
    case isTrue => nofun
    case isFalse =>
      split
      case h_1 =>
        split
        case isTrue => exact True.intro
        case isFalse =>
          split
          case isTrue => exact verdict_sinkFull huci
          case isFalse => exact True.intro
      case h_2 =>
        split
        case isTrue => exact verdict_sinkFull huci
        case isFalse =>
          split
          case isTrue => exact verdict_sinkFull huci
          case isFalse => nofun
      case h_3 => nofun
      case h_4 => nofun

/-- What holds of every turn's end holds of the end of a run. -/
theorem feed_leave {σ ρ α : Type} {step : σ → α → Turn σ ρ} {Q : ρ → Prop}
    (hstep : ∀ s a, (step s a).Post (fun _ => True) Q) {r : ρ} (as : List α) (s : σ)
    (hrun : feed step s as = .leave r) : Q r := by
  have hpost := feed_rule (fun _ => True) Q (fun s a _ => hstep s a) as s True.intro
  rw [hrun] at hpost
  exact hpost

theorem httpRecvBody_sinkFull (huci : E.uci = true) {evs : List RecvEvent} {h' : Response}
    (hrun : httpRecvBody E h evs = .leave (h', true)) : h'.sinkFull = false :=
  feed_leave (recvTurn_sinkFull huci) evs _ hrun rfl

theorem m3RecvBody_sinkFull (huci : E.uci = true) {i : Input} {tail : Nat} {evs : List M3Event}
    {h' : Response} (hrun : m3RecvBody E h i tail evs = .leave (h', true)) : h'.sinkFull = false :=
  feed_leave (m3Turn_sinkFull huci) evs _ hrun rfl

end Http
end C64Https
