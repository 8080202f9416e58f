import C64Https.Net.Rx
import C64Https.Lib.Transition
import C64Https.Lib.Word

/-!
# Uci — the receive path of the UCI backend (`src/net/uci/net.s`)

`net_poll` asks the firmware for no more than the ring has room for, less one cell, and stores what
it sends; `net_recv_byte` takes it out.  Whatever the order of the two, what comes out is a prefix of
what the firmware delivered (`reachable_stream`).
-/

namespace C64Https
namespace Net

open Queue Bytes Word Transition

/-! ## State -/

structure Uci where
  ring : RecvRing
  /-- `tcp_recv_overflow` -/
  overflow : Bool
  /-- `net_tcp_state` -/
  state : TcpState
  /-- `net_last_error` -/
  lastError : Nat

def uciErrReadFail : Nat :=
  0x86

def uciErrWaitTimeout : Nat :=
  0x89

def uciErrBadReadHdr : Nat :=
  0x8b

/-- `UCI_READ_CHUNK_MAX`. -/
def uciReadChunkMax : Nat :=
  512

/-- What the firmware makes of a SOCKET_READ. -/
inductive ReadReply where
  /-- it was busy throughout `uci_wait_not_busy` -/
  | busy
  /-- no reply within the bound of `uci_push_wait` -/
  | lost
  /-- the push was rejected; `drained` if both drains end in time -/
  | rejected (drained : Bool)
  /-- the bytes of the reply and its status line -/
  | reply (bytes status : List UInt8) (drained : Bool)
  deriving DecidableEq, Repr

/-! ## `net_poll` -/

/-- `uci_req_len`: the room of the ring less one cell, at most a chunk. -/
def uciReqLen (u : Uci) : Nat :=
  let free := (u.ring.head + ringSize - u.ring.tail) % ringSize
  let req := (free + (ringSize - 1)) % ringSize
  if req < uciReadChunkMax then req else uciReadChunkMax

/-- `@byte_loop`: the bytes that are there, up to `uci_poll_rem` of them. -/
def byteLoop : Nat → Uci → List UInt8 → Uci
  | 0, u, _ => u
  | rem + 1, u, bytes =>
      if u.ring.isFull then { u with overflow := true }
      else
        match bytes with
        | [] => u
        | b :: bytes => byteLoop rem { u with ring := u.ring.push b } bytes

/-- A wait that has run out. -/
def waitTimeout (u : Uci) : Uci :=
  { u with state := .error, lastError := uciErrWaitTimeout }

/-- `02,NO DATA: 11`, told by its length and its end. -/
def idleStatus (status : List UInt8) : Bool :=
  decide (status.length % 256 = 14) && (status.drop (status.length - 2) == [0x31, 0x31])

/-- `@have_data`: the header is bounded by the request. -/
def boundLen (u : Uci) (len req : Nat) : Uci × Nat :=
  if len ≤ req then (u, len)
  else if len = 65535 then (u, req)
  else ({ u with lastError := uciErrBadReadHdr }, req)

/-- `@hdr_done`, for a reply with a header. -/
def pollData (u : Uci) (len req : Nat) (bytes status : List UInt8) (drained : Bool) : Uci :=
  if len = 0 then
    if drained then { u with state := .closed } else waitTimeout u
  else
    let bounded := boundLen u len req
    let u := byteLoop bounded.2 bounded.1 bytes
    if drained = false then waitTimeout u
    else if len ≠ 65535 then u
    else if idleStatus status then u
    else { u with state := .error }

/-- `@do_poll`, once the command is sent. -/
def pollReply (u : Uci) (req : Nat) : ReadReply → Uci
  | .busy => waitTimeout u
  | .lost => waitTimeout u
  | .rejected drained =>
      if drained then { u with state := .error, lastError := uciErrReadFail } else waitTimeout u
  | .reply (lo :: hi :: bytes) status drained =>
      pollData u (word hi lo) req bytes status drained
  | .reply _ _ drained => if drained then u else waitTimeout u

/-- A SOCKET_READ is sent. -/
def asks (u : Uci) : Prop :=
  u.state = .connected ∧ uciReqLen u ≠ 0

instance (u : Uci) : Decidable (asks u) :=
  inferInstanceAs (Decidable (_ ∧ _))

/-- `net_poll`; the reply is not looked at unless a SOCKET_READ is sent. -/
def netPoll (u : Uci) (a : ReadReply) : Uci :=
  if asks u then pollReply u (uciReqLen u) a else u

/-! ## Runs -/

/-- The bytes that a reply delivers. -/
def ReadReply.delivered : ReadReply → List UInt8
  | .reply (_ :: _ :: bytes) _ _ => bytes
  | _ => []

/-- The reported count is that of the bytes delivered, which are no more than were asked for, or it
is the idle value. -/
def ReadReply.Honest (req : Nat) : ReadReply → Prop
  | .reply (lo :: hi :: bytes) _ _ =>
      (word hi lo = bytes.length ∧ bytes.length ≤ req) ∨ (word hi lo = 65535 ∧ bytes = [])
  | _ => True

/-- The backend, with the stream that the firmware has delivered and the bytes popped so far. -/
structure Stream where
  u : Uci
  delivered : List UInt8
  popped : List UInt8

def Stream.poll (s : Stream) (a : ReadReply) : Stream where
  u := netPoll s.u a
  delivered := if asks s.u then s.delivered ++ a.delivered else s.delivered
  popped := s.popped

def Stream.recv (s : Stream) : Stream :=
  match netRecvByte s.u.ring with
  | none => s
  | some (b, ring) => { s with u := { s.u with ring := ring }, popped := s.popped ++ [b] }

/-- What `net_tcp_connect` leaves. -/
inductive Stream.Start : Stream → Prop where
  | connect (ring : RecvRing) : Start ⟨⟨ring.reset, false, .connected, 0⟩, [], []⟩

inductive Stream.Step : Stream → Stream → Prop where
  | poll (s : Stream) (a : ReadReply) : (asks s.u → a.Honest (uciReqLen s.u)) → Step s (s.poll a)
  | recv (s : Stream) : Step s s.recv

/-! ## One poll -/

variable {u : Uci}

/-- The request is what the ring has room for, or a chunk. -/
theorem uciReqLen_eq (u : Uci) : uciReqLen u = min u.ring.room uciReadChunkMax := by
  unfold uciReqLen
  dsimp only
  rw [Nat.mod_add_mod, ← u.ring.room_eq]
  rcases Nat.lt_or_ge u.ring.room uciReadChunkMax with hlt | hge
  · rw [if_pos hlt, Nat.min_eq_left (Nat.le_of_lt hlt)]
  · rw [if_neg (Nat.not_lt_of_le hge), Nat.min_eq_right hge]

/-- Bytes that there is room for, up to the count, are all stored. -/
theorem byteLoop_stores (rem : Nat) :
    ∀ (u : Uci) (bytes : List UInt8), bytes.length ≤ rem → rem ≤ u.ring.room →
      ∃ ring, byteLoop rem u bytes = { u with ring := ring } ∧
        ring.contents = u.ring.contents ++ bytes := by
  induction rem with
  | zero =>
      intro u bytes hlen _
      have hnil : bytes = [] := List.eq_nil_of_length_eq_zero (Nat.le_zero.1 hlen)
      subst hnil
      exact ⟨u.ring, rfl, (List.append_nil _).symm⟩
  | succ rem ih =>
      intro u bytes hlen hroom
      have hpos : 0 < u.ring.room := Nat.lt_of_lt_of_le (Nat.succ_pos _) hroom
      unfold byteLoop
      rw [if_neg (fun hfull => Nat.ne_of_gt hpos (u.ring.isFull_iff.1 hfull))]
      cases bytes with
      | nil => exact ⟨u.ring, rfl, (List.append_nil _).symm⟩
      | cons b bytes =>
          have hroom' : rem ≤ (u.ring.push b).room := by
            rw [u.ring.room_push b hpos]
            exact Nat.le_sub_one_of_lt hroom
          obtain ⟨ring, hloop, hcontents⟩ :=
            ih { u with ring := u.ring.push b } bytes (Nat.le_of_succ_le_succ hlen) hroom'
          refine ⟨ring, hloop, ?_⟩
          rw [hcontents, u.ring.contents_push b hpos, List.append_assoc]
          rfl

/-- What a poll with an honest reply leaves: the bytes delivered behind those that were there, and
the overflow flag alone. -/
theorem netPoll_stores {a : ReadReply} (hask : asks u) (hhonest : a.Honest (uciReqLen u)) :
    (netPoll u a).ring.contents = u.ring.contents ++ a.delivered ∧
      (netPoll u a).overflow = u.overflow := by
  have hreq : uciReqLen u ≤ u.ring.room := by
    rw [uciReqLen_eq]
    exact Nat.min_le_left _ _
  have hsame : ∀ {ds : List UInt8}, ds = [] → u.ring.contents = u.ring.contents ++ ds := by
    rintro ds rfl
    exact (List.append_nil _).symm
  unfold netPoll
  rw [if_pos hask]
  cases a with
  | busy => exact ⟨hsame rfl, rfl⟩
  | lost => exact ⟨hsame rfl, rfl⟩
  | rejected drained =>
      cases drained with
      | true => exact ⟨hsame rfl, rfl⟩
      | false => exact ⟨hsame rfl, rfl⟩
  | reply bytes status drained =>
      match bytes, hhonest with
      | [], _ =>
          cases drained with
          | true => exact ⟨hsame rfl, rfl⟩
          | false => exact ⟨hsame rfl, rfl⟩
      | [_], _ =>
          cases drained with
          | true => exact ⟨hsame rfl, rfl⟩
          | false => exact ⟨hsame rfl, rfl⟩
      | lo :: hi :: bytes, hhonest =>
          show (pollData u (word hi lo) (uciReqLen u) bytes status drained).ring.contents = _ ∧
            (pollData u (word hi lo) (uciReqLen u) bytes status drained).overflow = _
          unfold pollData
          split
          case isTrue hzero =>
            -- the end of the stream delivers nothing
            have hnil : bytes = [] := by
              rcases hhonest with ⟨hlen, -⟩ | ⟨-, hnil⟩
              · exact List.eq_nil_of_length_eq_zero (hlen.symm.trans hzero)
              · exact hnil
            cases drained with
            | true => exact ⟨hsame hnil, rfl⟩
            | false => exact ⟨hsame hnil, rfl⟩
          case isFalse =>
            -- neither header asks for more than the request
            have hbound : ∃ n, boundLen u (word hi lo) (uciReqLen u) = (u, n) ∧
                bytes.length ≤ n ∧ n ≤ u.ring.room := by
              unfold boundLen
              rcases hhonest with ⟨hlen, hle⟩ | ⟨hidle, hnil⟩
              · refine ⟨word hi lo, ?_, Nat.le_of_eq hlen.symm, ?_⟩
                · rw [if_pos (by rw [hlen]; exact hle)]
                · rw [hlen]
                  exact Nat.le_trans hle hreq
              · have hchunk : uciReqLen u < 65535 := by
                  rw [uciReqLen_eq]
                  exact Nat.lt_of_le_of_lt (Nat.min_le_right _ _) (by decide)
                refine ⟨uciReqLen u, ?_, ?_, hreq⟩
                · rw [hidle, if_neg (Nat.not_le_of_lt hchunk), if_pos rfl]
                · rw [hnil]
                  exact Nat.zero_le _
            obtain ⟨n, hn, hlen, hroom⟩ := hbound
            obtain ⟨ring, hloop, hcontents⟩ := byteLoop_stores n u bytes hlen hroom
            rw [hn]
            dsimp only
            rw [hloop]
            split
            case isTrue => exact ⟨hcontents, rfl⟩
            case isFalse =>
              split
              case isTrue => exact ⟨hcontents, rfl⟩
              case isFalse =>
                split
                case isTrue => exact ⟨hcontents, rfl⟩
                case isFalse => exact ⟨hcontents, rfl⟩

/-! ## Reachable states -/

/-- What has been delivered is what has been popped and what is in the ring. -/
structure Stream.Whole (s : Stream) : Prop where
  stream : s.popped ++ s.u.ring.contents = s.delivered
  clear : s.u.overflow = false

theorem Stream.Whole.poll {s : Stream} (hs : s.Whole) {a : ReadReply}
    (hhonest : asks s.u → a.Honest (uciReqLen s.u)) : (s.poll a).Whole := by
  by_cases hask : asks s.u
  · obtain ⟨hcontents, hflag⟩ := netPoll_stores hask (hhonest hask)
    refine ⟨?_, hflag.trans hs.clear⟩
    show s.popped ++ (netPoll s.u a).ring.contents =
      if asks s.u then s.delivered ++ a.delivered else s.delivered
    rw [if_pos hask, hcontents, ← List.append_assoc, hs.stream]
  · have hsame : netPoll s.u a = s.u := by
      unfold netPoll
      rw [if_neg hask]
    refine ⟨?_, ?_⟩
    · show s.popped ++ (netPoll s.u a).ring.contents =
        if asks s.u then s.delivered ++ a.delivered else s.delivered
      rw [if_neg hask, hsame]
      exact hs.stream
    · show (netPoll s.u a).overflow = false
      rw [hsame]
      exact hs.clear

theorem Stream.Whole.recv {s : Stream} (hs : s.Whole) : s.recv.Whole := by
  unfold Stream.recv
  rw [netRecvByte_eq]
  rcases s.u.ring.pop_eq with ⟨-, hpop⟩ | ⟨b, bs, ring, hcons, hpop, hrest⟩
  · rw [hpop]
    exact hs
  · rw [hpop]
    refine ⟨?_, hs.clear⟩
    show (s.popped ++ [b]) ++ ring.contents = s.delivered
    rw [hrest, List.append_assoc, ← hs.stream, hcons]
    rfl

theorem Stream.whole {s : Stream} (h : Reachable Stream.Start Stream.Step s) : s.Whole := by
  refine h.invariant Stream.Whole ?_ ?_
  · intro s hstart
    cases hstart with
    | connect ring =>
        refine ⟨?_, rfl⟩
        show [] ++ ring.reset.contents = []
        rw [ring.contents_reset]
        rfl
  · intro s s' hs hstep
    cases hstep with
    | poll a hhonest => exact hs.poll hhonest
    | recv => exact hs.recv

/-- In every state reached, whatever the order of polls and pops: the bytes popped are a prefix of
those delivered, the ring is within its capacity, a request leaves one cell of it free, and no
overflow has been seen. -/
theorem reachable_stream (s : Stream) (h : Reachable Stream.Start Stream.Step s) :
    s.popped <+: s.delivered ∧ s.u.ring.length < ringSize ∧
    uciReqLen s.u ≤ ringSize - s.u.ring.length - 1 ∧ s.u.overflow = false := by
  have hs := Stream.whole h
  refine ⟨⟨s.u.ring.contents, hs.stream⟩, s.u.ring.length_lt, ?_, hs.clear⟩
  calc
    uciReqLen s.u ≤ s.u.ring.room := by
      rw [uciReqLen_eq]
      exact Nat.min_le_left _ _
    _ = ringSize - s.u.ring.length - 1 := by
      unfold Ring.room
      omega

/-- Three bytes delivered, one popped. -/
def threeBytes : Stream :=
  (Stream.poll ⟨⟨RecvRing.empty.reset, false, .connected, 0⟩, [], []⟩
    (.reply [3, 0, 0x41, 0x42, 0x43] [] true)).recv

theorem reachable_stream_threeBytes :
    threeBytes.popped = [0x41] ∧ threeBytes.popped <+: threeBytes.delivered := by
  refine ⟨by decide +kernel, (reachable_stream threeBytes ?_).1⟩
  exact .next (.next (.start (.connect RecvRing.empty))
    (.poll _ (.reply [3, 0, 0x41, 0x42, 0x43] [] true) (fun _ => Or.inl (by decide +kernel))))
    (.recv _)

end Net
end C64Https
