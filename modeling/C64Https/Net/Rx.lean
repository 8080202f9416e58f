import C64Https.Lib.Ring
import C64Https.Lib.Bytes

/-!
# Rx — the receive ring and the state of the connection (`src/constants.inc`, `src/data.s`)

Every backend stores what a connection delivers in one ring of 4096 bytes, and every consumer takes
it out with `net_recv_byte`.
-/

namespace C64Https
namespace Net

open Queue Bytes

/-- `net_tcp_state`. -/
inductive TcpState where
  | closed
  | connected
  | error
  | connectFail
  deriving DecidableEq, Repr

/-- `TCP_RECV_MASK + 1`. -/
def ringSize : Nat :=
  4096

/-- `tcp_recv_buf`, `tcp_recv_head`, `tcp_recv_tail`. -/
abbrev RecvRing := Ring UInt8 ringSize

/-- A ring with nothing in it. -/
def RecvRing.empty : RecvRing where
  cells := fun _ => 0
  head := 0
  tail := 0
  head_lt := by decide
  tail_lt := by decide

/-- `net_recv_byte`: the byte, or carry set. -/
def netRecvByte (r : RecvRing) : Option (UInt8 × RecvRing) :=
  if r.head = r.tail then none
  else some (r.cells r.head,
    { r with
      head := (r.head + 1) % ringSize
      head_lt := Nat.mod_lt _ (by decide) })

/-- `net_recv_byte` is the ring's pop. -/
theorem netRecvByte_eq (r : RecvRing) : netRecvByte r = r.pop := by
  unfold netRecvByte Ring.pop Ring.isEmpty
  by_cases hempty : r.head = r.tail
  · rw [if_pos hempty, if_pos (decide_eq_true hempty)]
  · rw [if_neg hempty, if_neg (by rw [decide_eq_true_iff]; exact hempty)]

end Net
end C64Https
