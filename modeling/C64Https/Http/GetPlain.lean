import C64Https.Http.RecvBody
import C64Https.Net.Ip65

/-!
# GetPlain — a plain fetch over ip65

`http_get_plain` takes everything out of the ring between two polls, so bytes are dropped exactly
when more of them come at once than the empty ring holds.  The backend says so in
`tcp_recv_overflow`, which nobody reads: such a fetch may succeed.
-/

namespace C64Https
namespace Http

open Word Loop Bytes Queue Transition Net

/-! ## The loop -/

structure IpPlain where
  h : Response
  net : Inflow
  /-- `@poll_timeout` -/
  polls : Nat

/-- `k` bytes popped. -/
def takeBytes : Nat → Inflow → Inflow
  | 0, s => s
  | k + 1, s => takeBytes k s.recv

/-- One turn of `@plain_poll`: the callbacks of one `net_poll`, and the parser on what is in the ring.
It pops the bytes that it does not leave there. -/
def ipPlainTurn (E : HttpEnv) (s : IpPlain) (es : List Inbound) :
    Turn IpPlain ((Response × Bool) × Inflow) :=
  let net := es.foldl Inflow.callback s.net
  let queue := net.n.ring.contents
  let left := (httpRecvResponse E s.h ⟨.ring, queue, []⟩).2.1.ring.length
  let popped := takeBytes (queue.length - left) net
  match plainTurn E ⟨s.h, .empty, s.polls⟩ ⟨queue, decide (net.n.state = .closed)⟩ with
  | .again s => .again ⟨s.h, popped, s.polls⟩
  | .leave r => .leave (r, popped)

/-- A fetch, from the ring that `net_tcp_connect` leaves.  The callbacks since then, up to and with
the first poll's, are the first list. -/
def ipGetPlain (E : HttpEnv) (h : Response) (ring : RecvRing) (evs : List (List Inbound)) :
    Turn IpPlain ((Response × Bool) × Inflow) :=
  feed (ipPlainTurn E) ⟨respInit E h, .start ring, 0⟩ evs

/-- The bytes that come between two drains. -/
def batchBytes (es : List Inbound) : List UInt8 :=
  es.flatMap Inbound.bytes

/-- They fit the empty ring. -/
def BatchFits (es : List Inbound) : Prop :=
  (batchBytes es).length < ringSize

/-! ## One turn -/

variable {E : HttpEnv}

theorem takeBytes_reachable (k : Nat) :
    ∀ s : Inflow, Reachable Inflow.Start Inflow.Step s →
      Reachable Inflow.Start Inflow.Step (takeBytes k s) := by
  induction k with
  | zero =>
      intro s hs
      exact hs
  | succ k ih =>
      intro s hs
      exact ih s.recv (hs.next (.recv s))

theorem callbacks_reachable (es : List Inbound) :
    ∀ s : Inflow, Reachable Inflow.Start Inflow.Step s →
      Reachable Inflow.Start Inflow.Step (es.foldl Inflow.callback s) := by
  induction es with
  | nil =>
      intro s hs
      exact hs
  | cons e es ih =>
      intro s hs
      exact ih (s.callback e) (hs.next (.callback s e))

/-- Popping changes neither what is kept nor the flag. -/
theorem takeBytes_spec (k : Nat) :
    ∀ s : Inflow, (takeBytes k s).n.overflow = s.n.overflow ∧
      (takeBytes k s).n.ring.contents = s.n.ring.contents.drop k := by
  induction k with
  | zero =>
      intro s
      exact ⟨rfl, rfl⟩
  | succ k ih =>
      intro s
      obtain ⟨hflag, hcontents⟩ := ih s.recv
      have hrecv : s.recv.n.ring.contents = s.n.ring.contents.drop 1 := by
        unfold Inflow.recv
        rw [netRecvByte_eq]
        rcases s.n.ring.pop_eq with ⟨hnil, hpop⟩ | ⟨b, bs, ring, hcons, hpop, hrest⟩
        · rw [hpop]
          show s.n.ring.contents = s.n.ring.contents.drop 1
          rw [hnil, List.drop_nil]
        · rw [hpop, hcons]
          exact hrest
      refine ⟨hflag.trans s.kept_recv.2.1, ?_⟩
      show (takeBytes k s.recv).n.ring.contents = _
      rw [hcontents, hrecv, List.drop_drop, Nat.add_comm 1 k]

/-- The flag behind a number of callbacks. -/
theorem callbacks_flag (es : List Inbound) :
    ∀ s : Inflow, (es.foldl Inflow.callback s).n.overflow =
      (s.n.overflow || decide (s.n.ring.room < (batchBytes es).length)) := by
  induction es with
  | nil =>
      intro s
      show s.n.overflow = (s.n.overflow || decide (s.n.ring.room < 0))
      rw [decide_eq_false (Nat.not_lt_zero _), Bool.or_false]
  | cons e es ih =>
      intro s
      obtain ⟨hcontents, hflag⟩ := netTcpRecvCb_spec s.n e
      have hlen : (netTcpRecvCb s.n e).ring.length =
          s.n.ring.length + min s.n.ring.room e.bytes.length := by
        rw [← Ring.length_contents, hcontents, List.length_append, List.length_take,
          Ring.length_contents]
      have hroom : (netTcpRecvCb s.n e).ring.room = s.n.ring.room - e.bytes.length := by
        have hlt := s.n.ring.length_lt
        unfold Ring.room at hlen ⊢
        omega
      rw [List.foldl_cons, ih]
      show ((netTcpRecvCb s.n e).overflow ||
        decide ((netTcpRecvCb s.n e).ring.room < (batchBytes es).length)) = _
      rw [hflag, hroom, Bool.or_assoc]
      congr 1
      unfold batchBytes
      rw [List.flatMap_cons, List.length_append, Bool.eq_iff_iff, Bool.or_eq_true,
        decide_eq_true_iff, decide_eq_true_iff, decide_eq_true_iff]
      omega

theorem recvFrom_left {h : Response} {bs : List UInt8} (hno : (recvFrom E h bs).2.2 = false) :
    (recvFrom E h bs).2.1 = [] := by
  rcases recvFrom_append E [] bs h with ⟨h', rest, hrun, -⟩ | ⟨h', hrun, -, -⟩
  · rw [hrun] at hno
    cases hno
  · rw [hrun]

/-- A turn from an empty ring sets the flag when its bytes do not fit, and goes on with an empty
ring. -/
theorem ipPlainTurn_spec {s : IpPlain} (hempty : s.net.n.ring.contents = [])
    (es : List Inbound) :
    (ipPlainTurn E s es).Post
      (fun s' => s'.net.n.ring.contents = [] ∧ (s'.net.n.overflow = true ↔
        s.net.n.overflow = true ∨ ¬ BatchFits es))
      (fun r => r.2.n.overflow = true ↔ s.net.n.overflow = true ∨ ¬ BatchFits es) := by
  have hroom : s.net.n.ring.room = 4095 := by
    have hzero : s.net.n.ring.length = 0 := by
      rw [← Ring.length_contents, hempty]
      rfl
    unfold Ring.room
    rw [hzero]
    rfl
  have hflag : (es.foldl Inflow.callback s.net).n.overflow = true ↔
      s.net.n.overflow = true ∨ ¬ BatchFits es := by
    have hnot : ¬ BatchFits es ↔ 4095 < (batchBytes es).length := Nat.not_lt
    rw [callbacks_flag, hroom, Bool.or_eq_true, decide_eq_true_iff, hnot]
  unfold ipPlainTurn
  dsimp only
  generalize es.foldl Inflow.callback s.net = net at hflag ⊢
  have hturn := plainTurn_post (E := E) ⟨s.h, .empty, s.polls⟩
    ⟨net.n.ring.contents, decide (net.n.state = .closed)⟩ rfl
  have hpop : ∀ k : Nat, ((takeBytes k net).n.overflow = true ↔
      s.net.n.overflow = true ∨ ¬ BatchFits es) := by
    intro k
    rw [(takeBytes_spec k net).1]
    exact hflag
  cases hstep : plainTurn E ⟨s.h, .empty, s.polls⟩
      ⟨net.n.ring.contents, decide (net.n.state = .closed)⟩ with
  | leave r => exact hpop _
  | again s' =>
      rw [hstep] at hturn
      -- the parser has run dry
      have hleft : (recvFrom E s.h net.n.ring.contents).2.1 = [] := recvFrom_left hturn.1
      refine ⟨?_, hpop _⟩
      show (takeBytes (net.n.ring.contents.length -
        (recvFrom E s.h net.n.ring.contents).2.1.length) net).n.ring.contents = []
      rw [(takeBytes_spec _ net).2, hleft, List.length_nil, Nat.sub_zero, List.drop_length]

/-- From an empty ring with a clear flag, a run sets the flag when some bytes of it do not fit. -/
theorem ipPlain_flag (evs : List (List Inbound)) :
    ∀ s : IpPlain, s.net.n.ring.contents = [] →
      (feed (ipPlainTurn E) s evs).Post
        (fun s' => s'.net.n.ring.contents = [] ∧ (s'.net.n.overflow = true ↔
          s.net.n.overflow = true ∨ ∃ es ∈ evs, ¬ BatchFits es))
        (fun _ => True) := by
  induction evs with
  | nil =>
      intro s hempty
      refine ⟨hempty, ?_⟩
      simp
  | cons es evs ih =>
      intro s hempty
      have hturn := ipPlainTurn_spec (E := E) hempty es
      rw [feed_cons]
      cases hstep : ipPlainTurn E s es with
      | leave r => exact True.intro
      | again s' =>
          rw [hstep] at hturn
          refine (ih s' hturn.1).mono ?_ (fun _ h => h)
          rintro s'' ⟨hempty'', hflag⟩
          refine ⟨hempty'', ?_⟩
          rw [hflag, hturn.2, List.exists_mem_cons_iff, or_assoc]

/-- Every state of a fetch is one that the backend reaches. -/
theorem ipPlain_reachable (evs : List (List Inbound)) (s : IpPlain)
    (hs : Reachable Inflow.Start Inflow.Step s.net) :
    (feed (ipPlainTurn E) s evs).Post (fun s' => Reachable Inflow.Start Inflow.Step s'.net)
      (fun r => Reachable Inflow.Start Inflow.Step r.2) := by
  refine feed_rule (fun x => Reachable Inflow.Start Inflow.Step x.net)
    (fun r : (Response × Bool) × Inflow => Reachable Inflow.Start Inflow.Step r.2) ?_ evs s hs
  intro x es hx
  have hpolled := callbacks_reachable es x.net hx
  unfold ipPlainTurn
  dsimp only
  split
  case h_1 => exact takeBytes_reachable _ _ hpolled
  case h_2 => exact takeBytes_reachable _ _ hpolled

/-! ## Fetches -/

theorem Inflow.kept_eq_iff {x : Inflow} (hx : x.Kept) :
    x.kept = x.delivered ↔ x.n.overflow = false := by
  rw [← Bool.not_eq_true, hx.flag]
  constructor
  · intro hall hlt
    rw [hall] at hlt
    exact Nat.lt_irrefl _ hlt
  · intro hno
    exact hx.order.eq_of_length_le (Nat.le_of_not_lt hno)

/-- A fetch that has ended has all of its bytes if and only if they fitted, drain by drain. -/
theorem ipGetPlain_kept_iff {h : Response} {ring : RecvRing} {evs : List (List Inbound)}
    {es : List Inbound} {s : IpPlain} {r : Response × Bool} {x : Inflow}
    (hrun : ipGetPlain E h ring evs = .again s) (hlast : ipPlainTurn E s es = .leave (r, x)) :
    x.Kept ∧ (x.kept = x.delivered ↔ ∀ b ∈ evs ++ [es], BatchFits b) := by
  have hstart : (Inflow.start ring).n.ring.contents = [] := ring.contents_reset
  have hflag := ipPlain_flag (E := E) evs ⟨respInit E h, .start ring, 0⟩ hstart
  have hreach := ipPlain_reachable (E := E) (evs ++ [es]) ⟨respInit E h, .start ring, 0⟩
    (.start (.connect ring))
  have hrun' : feed (ipPlainTurn E) ⟨respInit E h, .start ring, 0⟩ evs = .again s := hrun
  rw [hrun'] at hflag
  rw [feed_append, hrun', Turn.again_bind, feed_cons, hlast, Turn.leave_bind] at hreach
  obtain ⟨hdry, hbefore⟩ := hflag
  have hturn := ipPlainTurn_spec (E := E) hdry es
  rw [hlast] at hturn
  have hover : x.n.overflow = true ↔ s.net.n.overflow = true ∨ ¬ BatchFits es := hturn
  have hkept : x.Kept := Inflow.reachable_kept hreach
  refine ⟨hkept, ?_⟩
  rw [Inflow.kept_eq_iff hkept, ← Bool.not_eq_true, hover, hbefore]
  constructor
  · intro hno b hb
    by_contra hnot
    rcases List.mem_append.1 hb with hb | hb
    · exact hno (Or.inl (Or.inr ⟨b, hb, hnot⟩))
    · rw [List.mem_singleton] at hb
      subst hb
      exact hno (Or.inr hnot)
  · rintro hall ((hflag | ⟨b, hb, hnot⟩) | hnot)
    · cases hflag
    · exact hnot (hall b (List.mem_append_left _ hb))
    · exact hnot (hall es (List.mem_append_right _ (List.mem_singleton_self es)))

/-- Pops are in order, and the flag is set if and only if a byte was dropped; and a fetch that
succeeds has all of its bytes if and only if no more of them came between two drains of the ring
than it holds. -/
theorem ip65_bytes (y : Inflow) (hy : Reachable Inflow.Start Inflow.Step y) :
    y.popped.Sublist y.delivered ∧ (y.n.overflow = true ↔ y.kept.length < y.delivered.length) ∧
    ∀ (E : HttpEnv) (h : Response) (ring : RecvRing) (evs : List (List Inbound))
        (es : List Inbound) (s : IpPlain) (r : Response × Bool) (x : Inflow),
      ipGetPlain E h ring evs = .again s → ipPlainTurn E s es = .leave (r, x) → r.2 = true →
      (x.kept = x.delivered ↔ ∀ b ∈ evs ++ [es], BatchFits b) := by
  have hkept := Inflow.reachable_kept hy
  refine ⟨(List.sublist_append_left _ _).trans hkept.order, hkept.flag, ?_⟩
  intro E h ring evs es s r x hrun hlast _
  exact (ipGetPlain_kept_iff hrun hlast).2

/-- A segment that holds `bs`. -/
def segment (bs : List UInt8) : Inbound :=
  ⟨bs.length, ofList bs fun _ => 0⟩

/-- The build without the sink. -/
def ip65Env : HttpEnv :=
  ⟨false, false, false, 0, 0⟩

/-- A client before the first poll of a fetch. -/
def beforePoll : IpPlain :=
  ⟨respInit ip65Env .zero, .start RecvRing.empty, 0⟩

theorem ip65_bytes_oneSegment :
    ∃ r x, ipPlainTurn ip65Env beforePoll
        [segment (ascii "HTTP/1.1 200 OK\r\nContent-Length: 1\r\n\r\nx")] = .leave (r, x) ∧
      r.2 = true ∧ x.kept = x.delivered := by
  have hends : (match ipPlainTurn ip65Env beforePoll
      [segment (ascii "HTTP/1.1 200 OK\r\nContent-Length: 1\r\n\r\nx")] with
      | .again _ => false
      | .leave r => r.1.2) = true := by
    decide +kernel
  cases hturn : ipPlainTurn ip65Env beforePoll
      [segment (ascii "HTTP/1.1 200 OK\r\nContent-Length: 1\r\n\r\nx")] with
  | again s =>
      rw [hturn] at hends
      cases hends
  | leave r =>
      rw [hturn] at hends
      refine ⟨r.1, r.2, rfl, hends, ?_⟩
      refine ((ip65_bytes (.start RecvRing.empty) (.start (.connect RecvRing.empty))).2.2
        ip65Env .zero RecvRing.empty [] _ beforePoll r.1 r.2 rfl hturn hends).2 ?_
      intro b hb
      rw [List.nil_append, List.mem_singleton] at hb
      subst hb
      unfold BatchFits
      decide +kernel

/-! ## A response that does not fit -/

/-- A body that nothing frames is never complete. -/
theorem recvFrom_unframed (bs : List UInt8) :
    ∀ h : Response, h.parseState = .body → h.clValid = false → h.chunked = false →
      (recvFrom E h bs).2.2 = false ∧ (recvFrom E h bs).1.parseState = .body ∧
      (recvFrom E h bs).1.clValid = false ∧ (recvFrom E h bs).1.chunked = false := by
  have hopen : ∀ h : Response, h.clValid = false → complete h = false := by
    intro h hcl
    unfold complete bodyDone
    rw [hcl, Bool.false_and, Bool.and_false]
  induction bs with
  | nil =>
      intro h hstate hcl hchunked
      rw [recvFrom_nil E (hopen h hcl)]
      exact ⟨rfl, hstate, hcl, hchunked⟩
  | cons b bs ih =>
      intro h hstate hcl hchunked
      have hbyte : parseByte E h b = .again (bodyAppend E h b) := by
        unfold parseByte
        rw [hstate]
        dsimp only
        rw [if_neg (by rw [hchunked]; decide)]
      obtain ⟨hstate', -, hcl', -, hchunked', -, -, -, -⟩ := bodyAppend_frame E h b
      rw [recvFrom_again E (hopen h hcl) hbyte]
      exact ih _ (hstate'.trans hstate) (hcl'.trans hcl) (hchunked'.trans hchunked)

/-- The peer's close ends such a body, with carry clear. -/
theorem plainTurn_closed {h : Response} {bs : List UInt8} {polls : Nat}
    (hno : (recvFrom E h bs).2.2 = false) (hstate : (recvFrom E h bs).1.parseState = .body)
    (hcl : (recvFrom E h bs).1.clValid = false)
    (hchunked : (recvFrom E h bs).1.chunked = false) :
    plainTurn E ⟨h, .empty, polls⟩ ⟨bs, true⟩ =
      .leave (plainFinish E (recvFrom E h bs).1 true) := by
  have hcall : httpRecvResponse E h (Input.empty.deliver (.ring bs)) =
      ((recvFrom E h bs).1, ⟨.ring, (recvFrom E h bs).2.1, []⟩, (recvFrom E h bs).2.2) := rfl
  unfold plainTurn
  dsimp only
  rw [hcall]
  dsimp only
  rw [if_neg (by rw [hno]; decide), if_neg (by rw [hstate]; decide),
    if_neg (by rw [hcl, hchunked]; decide), if_pos rfl]

theorem ipPlainTurn_leave {s : IpPlain} {es : List Inbound} {r : Response × Bool}
    (hturn : plainTurn E ⟨s.h, .empty, s.polls⟩
      ⟨(es.foldl Inflow.callback s.net).n.ring.contents,
        decide ((es.foldl Inflow.callback s.net).n.state = .closed)⟩ = .leave r) :
    ∃ x, ipPlainTurn E s es = .leave (r, x) := by
  unfold ipPlainTurn
  dsimp only
  rw [hturn]
  exact ⟨_, rfl⟩

theorem segment_bytes {bs : List UInt8} (hlen : bs.length < 65280) : (segment bs).bytes = bs := by
  have hseg : (segment bs).isSegment = true := decide_eq_true hlen
  unfold Inbound.bytes
  rw [if_pos hseg]
  exact bytesAt_ofList bs _

/-- A head that frames nothing. -/
def bareHead : List UInt8 :=
  ascii "HTTP/1.1 200 OK\r\n\r\n"

/-- It comes with 5000 bytes of body, and then the peer's FIN. -/
def longResponse : List Inbound :=
  [segment (bareHead ++ List.replicate 5000 0x78), ⟨65535, fun _ => 0⟩]

theorem bareHead_runs :
    ∃ h, recvFrom ip65Env (respInit ip65Env .zero) bareHead = (h, [], false) ∧
      h.parseState = .body ∧ h.clValid = false ∧ h.chunked = false := by
  have hpair : ∀ x : Response × List UInt8 × Bool, x.2 = ([], false) → x = (x.1, [], false) := by
    rintro ⟨h, rest⟩ hrest
    rw [← hrest]
  refine ⟨_, hpair _ ?_, ?_, ?_, ?_⟩
  · decide +kernel
  · decide +kernel
  · decide +kernel
  · decide +kernel

/-- However much of the body is there, the close ends the response. -/
theorem bareHead_closed (bs : List UInt8) :
    ∃ h, plainTurn ip65Env ⟨respInit ip65Env .zero, .empty, 0⟩ ⟨bareHead ++ bs, true⟩ =
      .leave (h, true) := by
  obtain ⟨h₁, hhead, hstate, hcl, hchunked⟩ := bareHead_runs
  have hrun : recvFrom ip65Env (respInit ip65Env .zero) (bareHead ++ bs) =
      recvFrom ip65Env h₁ bs := by
    rcases recvFrom_append ip65Env bs bareHead (respInit ip65Env .zero) with
      ⟨h', rest, hdone, -⟩ | ⟨h', hopen, -, hall⟩
    · rw [hhead] at hdone
      cases hdone
    · rw [hhead] at hopen
      cases hopen
      exact hall
  obtain ⟨hno, hstate', hcl', hchunked'⟩ :=
    recvFrom_unframed (E := ip65Env) bs _ hstate hcl hchunked
  rw [← hrun] at hno hstate' hcl' hchunked'
  exact ⟨_, plainTurn_closed hno hstate' hcl' hchunked'⟩

/-- A segment, and the end of the stream behind it. -/
theorem callback_closed (x : Inflow) (e : Inbound) (m : Buffer) :
    ([e, ⟨65535, m⟩].foldl Inflow.callback x).n =
      { netTcpRecvCb x.n e with state := .closed } := by
  have hfin : (⟨65535, m⟩ : Inbound).isSegment = false := rfl
  show netTcpRecvCb (netTcpRecvCb x.n e) ⟨65535, m⟩ = _
  generalize netTcpRecvCb x.n e = n
  unfold netTcpRecvCb
  rw [hfin, if_neg (by decide)]

/-- The ring has the beginning of the response, and the connection is closed. -/
theorem longResponse_polled :
    ∃ bs, (longResponse.foldl Inflow.callback beforePoll.net).n.ring.contents = bareHead ++ bs ∧
      (longResponse.foldl Inflow.callback beforePoll.net).n.state = .closed := by
  have hlen : (bareHead ++ List.replicate 5000 0x78).length < 65280 := by
    rw [List.length_append, List.length_replicate]
    decide
  have hempty : beforePoll.net.n.ring.contents = [] := RecvRing.empty.contents_reset
  have hroom : beforePoll.net.n.ring.room = 4095 := by
    decide
  unfold longResponse
  rw [callback_closed]
  generalize hbody : List.replicate 5000 (0x78 : UInt8) = body at hlen ⊢
  obtain ⟨hcontents, -⟩ := netTcpRecvCb_spec beforePoll.net.n (segment (bareHead ++ body))
  refine ⟨body.take (4095 - bareHead.length), ?_, rfl⟩
  show (netTcpRecvCb beforePoll.net.n (segment (bareHead ++ body))).ring.contents = _
  rw [hcontents, hempty, segment_bytes hlen, hroom, List.nil_append, List.take_append,
    List.take_of_length_le (by decide)]

/-- The fetch succeeds, and has lost bytes. -/
theorem not_ip65_bytes :
    ¬ ∀ (E : HttpEnv) (h : Response) (ring : RecvRing) (evs : List (List Inbound))
        (es : List Inbound) (s : IpPlain) (r : Response × Bool) (x : Inflow),
      ipGetPlain E h ring evs = .again s → ipPlainTurn E s es = .leave (r, x) → r.2 = true →
      x.kept = x.delivered := by
  intro hall
  obtain ⟨bs, hcontents, hclosed⟩ := longResponse_polled
  obtain ⟨h, hturn⟩ := bareHead_closed bs
  obtain ⟨x, hx⟩ : ∃ x, ipPlainTurn ip65Env beforePoll longResponse = .leave ((h, true), x) := by
    refine ipPlainTurn_leave ?_
    rw [hcontents, decide_eq_true hclosed]
    exact hturn
  have hkept := hall ip65Env .zero RecvRing.empty [] longResponse beforePoll (h, true) x rfl hx rfl
  have hfits : ¬ BatchFits longResponse := by
    have hlen : (bareHead ++ List.replicate 5000 0x78).length = 5019 := by
      rw [List.length_append, List.length_replicate]
      decide
    unfold BatchFits batchBytes longResponse
    rw [List.flatMap_cons, segment_bytes (by rw [hlen]; decide), List.length_append, hlen]
    exact Nat.not_lt_of_le (by unfold ringSize; omega)
  have hstart : ipGetPlain ip65Env .zero RecvRing.empty [] = .again beforePoll := rfl
  exact hfits ((ipGetPlain_kept_iff hstart hx).2.1 hkept _ (List.mem_singleton_self _))

end Http
end C64Https
