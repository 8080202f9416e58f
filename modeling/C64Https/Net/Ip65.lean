import C64Https.Net.Rx
import C64Https.Lib.Transition

/-!
# Ip65 — the receive path of the ip65 backend (`src/net/ip65/net.s`)

The stack calls back with every segment, and `net_tcp_recv_cb` copies as much of it as the ring has
room for.  What it cannot copy is lost, and `tcp_recv_overflow` says so: the flag is set if and only
if some byte has been dropped (`reachable_kept`).
-/

namespace C64Https
namespace Net

open Queue Bytes Transition

/-! ## The callback -/

structure Ip65 where
  ring : RecvRing
  /-- `tcp_recv_overflow` -/
  overflow : Bool
  /-- `net_tcp_state` -/
  state : TcpState

/-- `tcp_inbound_data_length`, and the memory at `tcp_inbound_data_ptr`. -/
structure Inbound where
  length : Nat
  data : Buffer

/-- The lengths from `$FF00` on stand for the end of the stream. -/
def Inbound.isSegment (e : Inbound) : Bool :=
  decide (e.length < 65280)

/-- The bytes that a callback delivers. -/
def Inbound.bytes (e : Inbound) : List UInt8 :=
  if e.isSegment then bytesAt e.data 0 e.length else []

/-- `cb_loop`: byte by byte, up to the one that finds the ring full. -/
def cbLoop (n : Ip65) : List UInt8 → Ip65
  | [] => n
  | b :: bs =>
      if n.ring.isFull then { n with overflow := true }
      else cbLoop { n with ring := n.ring.push b } bs

/-- `net_tcp_recv_cb`. -/
def netTcpRecvCb (n : Ip65) (e : Inbound) : Ip65 :=
  if e.isSegment then cbLoop n (bytesAt e.data 0 e.length)
  else { n with state := .closed }

/-- `net_tcp_connect`: an empty ring, and no error. -/
def ip65Connected (ring : RecvRing) : Ip65 where
  ring := ring.reset
  overflow := false
  state := .connected

/-! ## Runs -/

/-- The backend, with the stream that the stack has delivered and the bytes popped so far. -/
structure Inflow where
  n : Ip65
  delivered : List UInt8
  popped : List UInt8

/-- What has been delivered and not dropped. -/
def Inflow.kept (s : Inflow) : List UInt8 :=
  s.popped ++ s.n.ring.contents

def Inflow.callback (s : Inflow) (e : Inbound) : Inflow where
  n := netTcpRecvCb s.n e
  delivered := s.delivered ++ e.bytes
  popped := s.popped

def Inflow.recv (s : Inflow) : Inflow :=
  match netRecvByte s.n.ring with
  | none => s
  | some (b, ring) => { s with n := { s.n with ring := ring }, popped := s.popped ++ [b] }

/-- A connection begins. -/
def Inflow.start (ring : RecvRing) : Inflow where
  n := ip65Connected ring
  delivered := []
  popped := []

inductive Inflow.Start : Inflow → Prop where
  | connect (ring : RecvRing) : Start (.start ring)

inductive Inflow.Step : Inflow → Inflow → Prop where
  | callback (s : Inflow) (e : Inbound) : Step s (s.callback e)
  | recv (s : Inflow) : Step s s.recv

/-! ## One step -/

theorem cbLoop_spec (bs : List UInt8) :
    ∀ n : Ip65,
      (cbLoop n bs).ring = (n.ring.fill bs).1 ∧ (cbLoop n bs).state = n.state ∧
      (cbLoop n bs).overflow = (n.overflow || decide (n.ring.room < bs.length)) := by
  induction bs with
  | nil =>
      intro n
      refine ⟨rfl, rfl, ?_⟩
      rw [List.length_nil, decide_eq_false (Nat.not_lt_zero _), Bool.or_false]
      rfl
  | cons b bs ih =>
      intro n
      unfold cbLoop Ring.fill
      cases hfull : n.ring.isFull with
      | true =>
          rw [if_pos rfl, if_pos rfl, n.ring.isFull_iff.1 hfull]
          exact ⟨rfl, rfl, (Bool.or_true _).symm⟩
      | false =>
          have hroom : 0 < n.ring.room := by
            rw [Nat.pos_iff_ne_zero]
            intro hzero
            rw [n.ring.isFull_iff.2 hzero] at hfull
            cases hfull
          obtain ⟨hring, hstate, hflag⟩ := ih { n with ring := n.ring.push b }
          rw [if_neg (by decide), if_neg (by decide)]
          refine ⟨hring, hstate, ?_⟩
          rw [hflag, n.ring.room_push b hroom, List.length_cons]
          congr 2
          rw [eq_iff_iff]
          omega

/-- A callback stores what there is room for, and the flag tells whether that was all. -/
theorem netTcpRecvCb_spec (n : Ip65) (e : Inbound) :
    (netTcpRecvCb n e).ring.contents = n.ring.contents ++ e.bytes.take n.ring.room ∧
      (netTcpRecvCb n e).overflow = (n.overflow || decide (n.ring.room < e.bytes.length)) := by
  unfold netTcpRecvCb Inbound.bytes
  cases hseg : e.isSegment with
  | true =>
      obtain ⟨hring, -, hflag⟩ := cbLoop_spec (bytesAt e.data 0 e.length) n
      rw [if_pos rfl, if_pos rfl, hring, hflag]
      exact ⟨n.ring.fill_fst _, rfl⟩
  | false =>
      rw [if_neg (by decide), if_neg (by decide), List.take_nil, List.append_nil]
      exact ⟨rfl, by rw [List.length_nil, decide_eq_false (Nat.not_lt_zero _), Bool.or_false]⟩

/-! ## Reachable states -/

/-- What is kept is in the order of delivery, and the flag says whether it is all. -/
structure Inflow.Kept (s : Inflow) : Prop where
  order : s.kept.Sublist s.delivered
  flag : s.n.overflow = true ↔ s.kept.length < s.delivered.length

theorem Inflow.Kept.callback {s : Inflow} (hs : s.Kept) (e : Inbound) : (s.callback e).Kept := by
  obtain ⟨hcontents, hflag⟩ := netTcpRecvCb_spec s.n e
  have hkept : (s.callback e).kept = s.kept ++ e.bytes.take s.n.ring.room := by
    show s.popped ++ (netTcpRecvCb s.n e).ring.contents = _
    rw [hcontents, ← List.append_assoc]
    rfl
  have hle := hs.order.length_le
  refine ⟨?_, ?_⟩
  · rw [hkept]
    exact hs.order.append (List.take_sublist _ _)
  · show (netTcpRecvCb s.n e).overflow = true ↔
      (s.callback e).kept.length < (s.delivered ++ e.bytes).length
    rw [hflag, hkept, Bool.or_eq_true, decide_eq_true_iff, hs.flag, List.length_append,
      List.length_append, List.length_take]
    omega

theorem Inflow.kept_recv (s : Inflow) : s.recv.kept = s.kept ∧
    s.recv.n.overflow = s.n.overflow ∧ s.recv.delivered = s.delivered := by
  unfold Inflow.recv Inflow.kept
  rw [netRecvByte_eq]
  rcases s.n.ring.pop_eq with ⟨-, hpop⟩ | ⟨b, bs, ring, hcons, hpop, hrest⟩
  · rw [hpop]
    exact ⟨rfl, rfl, rfl⟩
  · rw [hpop]
    refine ⟨?_, rfl, rfl⟩
    show (s.popped ++ [b]) ++ ring.contents = s.popped ++ s.n.ring.contents
    rw [hrest, hcons, List.append_assoc]
    rfl

theorem Inflow.Kept.recv {s : Inflow} (hs : s.Kept) : s.recv.Kept := by
  obtain ⟨hkept, hflag, hdelivered⟩ := s.kept_recv
  refine ⟨?_, ?_⟩
  · rw [hkept, hdelivered]
    exact hs.order
  · rw [hflag, hkept, hdelivered]
    exact hs.flag

theorem Inflow.kept_start (ring : RecvRing) : (Inflow.start ring).Kept := by
  have hnil : (Inflow.start ring).kept = [] := by
    show [] ++ ring.reset.contents = []
    rw [ring.contents_reset]
    rfl
  refine ⟨?_, ?_⟩
  · rw [hnil]
    exact List.nil_sublist _
  · rw [hnil]
    exact ⟨nofun, nofun⟩

/-- Whatever the order of callbacks and pops, the bytes kept are in the order of delivery, each
once, and the flag is set if and only if some byte was dropped. -/
theorem Inflow.reachable_kept {s : Inflow} (h : Reachable Inflow.Start Inflow.Step s) :
    s.Kept := by
  refine h.invariant Inflow.Kept ?_ ?_
  · intro s hstart
    cases hstart with
    | connect ring => exact Inflow.kept_start ring
  · intro s s' hs hstep
    cases hstep with
    | callback e => exact hs.callback e
    | recv => exact hs.recv

end Net
end C64Https
