import C64Https.Tls.Deframe
import C64Https.Tls.ServerHello

/-!
# Record — the record layer (`src/tls_record.s`, `src/tls_record_io.s`)

A connection is the handshake machine of the deframer together with the record layer under it: the
receive ring, the record reader, the keys of the two epochs and the two sequence counters.  The
AEAD is a parameter, as are the network and the key schedule.

Two fields the program does not have: every call of the AEAD is recorded in `uses`, and every record
that is handed to the caller, as plaintext, in `got`.
-/

namespace C64Https
namespace Tls

open Word Loop Bytes

/-! ## State -/

/-- The key and the IV of one direction. -/
structure DirKeys where
  key : List UInt8
  iv : List UInt8
  deriving DecidableEq, Repr

structure TrafficKeys where
  write : DirKeys
  read : DirKeys
  deriving DecidableEq, Repr

/-- `tls_direction`. -/
inductive Dir where
  | write
  | read
  deriving DecidableEq, Repr

/-- A record sealed, or a record opened (`ok`) or rejected. -/
structure AeadUse where
  dir : Dir
  keys : DirKeys
  seq : List UInt8
  nonce : List UInt8
  ok : Bool
  deriving DecidableEq, Repr

/-- `tls_recv_state`. -/
inductive RecvState where
  | header
  | payload
  deriving DecidableEq, Repr

structure Conn (κ : Type) where
  uses : List AeadUse
  /-- content type and text of the records handed over -/
  got : List (UInt8 × List UInt8)
  hs : Hs κ
  /-- what is in the receive ring -/
  ring : List UInt8
  /-- what each coming `net_poll` brings -/
  wire : List (List UInt8)
  recHdr : Buffer
  recType : UInt8
  recvState : RecvState
  recvCount : Nat
  writeSeq : List UInt8
  readSeq : List UInt8
  hsKeys : TrafficKeys
  appKeys : TrafficKeys
  lastState : TlsState
  reachedConnected : Bool
  rxInner : UInt8
  /-- what the ServerHello reader of the build left behind -/
  sh : ShParse
  pq : ShReader
  /-- what was handed to `net_tcp_send` -/
  sent : List (List UInt8)

/-- The AEAD and the network. -/
structure RecordEnv where
  /-- `aead_encrypt`, on key, nonce, AAD and plaintext: the ciphertext and the tag -/
  aeadEncrypt : List UInt8 → List UInt8 → List UInt8 → List UInt8 → List UInt8 × List UInt8
  /-- `aead_decrypt`, on key, nonce, AAD, ciphertext and tag -/
  aeadDecrypt : List UInt8 → List UInt8 → List UInt8 → List UInt8 → List UInt8 → Option (List UInt8)
  /-- whether the `n`th `net_tcp_send` succeeds -/
  sendOk : Nat → Bool
  /-- `PQ_HYBRID`: the ServerHello is read record by record, and a bad header is fatal there too -/
  pqHybrid : Bool

variable {κ : Type}

namespace Conn

def setState (c : Conn κ) (st : TlsState) : Conn κ :=
  { c with hs := { c.hs with tlsState := st } }

def withRecord (c : Conn κ) (buf : Buffer) (len : Nat) : Conn κ :=
  { c with hs := { c.hs with recBuf := buf, recLen := len } }

/-- The plaintext of the current record. -/
def record (c : Conn κ) : List UInt8 :=
  bytesAt c.hs.recBuf 0 c.hs.recLen

def handOver (c : Conn κ) : Conn κ :=
  { c with got := c.got ++ [(c.recType, c.record)] }

end Conn

/-! ## Sequence numbers -/

/-- The carry chain of `tls_seq_increment`, from the least significant byte up. -/
def seqCarry : List UInt8 → List UInt8
  | [] => []
  | b :: bs => if b + 1 = 0 then 0 :: seqCarry bs else (b + 1) :: bs

def tlsSeqIncrement (seq : List UInt8) : List UInt8 :=
  (seqCarry seq.reverse).reverse

def zeroSeq : List UInt8 :=
  List.replicate 8 0

/-- `tls_seq_reset`. -/
def tlsSeqReset (c : Conn κ) : Conn κ :=
  { c with writeSeq := zeroSeq, readSeq := zeroSeq }

/-! ## Keys and nonces -/

/-- `tls_select_keys`: handshake keys below `CONNECTED`, else application keys. -/
def tlsSelectKeys (c : Conn κ) (dir : Dir) : DirKeys :=
  let keys := if TlsState.connected.code ≤ c.hs.tlsState.code then c.appKeys else c.hsKeys
  match dir with
  | .write => keys.write
  | .read => keys.read

def Conn.seqOf (c : Conn κ) : Dir → List UInt8
  | .write => c.writeSeq
  | .read => c.readSeq

/-- `tls_build_nonce`: the IV, its last eight bytes xored with the sequence number. -/
def tlsBuildNonce (c : Conn κ) (dir : Dir) : List UInt8 :=
  let iv := (tlsSelectKeys c dir).iv
  iv.take 4 ++ List.zipWith (· ^^^ ·) (iv.drop 4) (c.seqOf dir)

/-- One call of the AEAD: its key and nonce, and what is recorded of it. -/
def Conn.use (c : Conn κ) (dir : Dir) (ok : Bool) : AeadUse where
  dir := dir
  keys := tlsSelectKeys c dir
  seq := c.seqOf dir
  nonce := tlsBuildNonce c dir
  ok := ok

/-! ## Sending -/

def netTcpSend (R : RecordEnv) (c : Conn κ) (bs : List UInt8) : Conn κ × Bool :=
  ({ c with sent := c.sent ++ [bs] }, R.sendOk c.sent.length)

/-- `tls_send_record`. -/
def tlsSendRecord (R : RecordEnv) (c : Conn κ) : Conn κ × Bool :=
  let r := netTcpSend R c (bytesAt c.recHdr 0 5)
  if r.2 then netTcpSend R r.1 (bytesAt c.hs.recBuf 0 c.hs.recLen) else r

/-- The outer header of a record: type, version 3.3, length. -/
def recordHeader (ty : UInt8) (len : Nat) (rest : Buffer) : Buffer :=
  ofList [ty, 3, 3, hi len, lo len] rest

/-- `tls_record_send_plaintext`. -/
def tlsRecordSendPlaintext (R : RecordEnv) (c : Conn κ) (ty : UInt8) : Conn κ × Bool :=
  tlsSendRecord R { c with recHdr := recordHeader ty c.hs.recLen c.recHdr }

/-- Where the inner content type goes: the code has a branch for offsets from 256 on, which adds
only the low byte of the length. -/
def innerTypeAt (len : Nat) : Nat :=
  if len / 256 = 0 then len else 256 + len % 256

/-- `tls_record_encrypt`. -/
def tlsRecordEncrypt (R : RecordEnv) (c : Conn κ) : Conn κ :=
  let buf := Function.update c.hs.recBuf (innerTypeAt c.hs.recLen) c.recType
  let len := add16 c.hs.recLen 1
  let hdr := recordHeader ctApplication (add16 len 16) c.recHdr
  let use := c.use .write true
  let sealed := R.aeadEncrypt use.keys.key use.nonce (bytesAt hdr 0 5) (bytesAt buf 0 len)
  { c.withRecord (store (store buf 0 sealed.1) len sealed.2) (add16 len 16) with
    recHdr := hdr
    writeSeq := tlsSeqIncrement c.writeSeq
    uses := c.uses ++ [use] }

/-- `tls_record_send_encrypted`. -/
def tlsRecordSendEncrypted (R : RecordEnv) (c : Conn κ) : Conn κ × Bool :=
  tlsSendRecord R (tlsRecordEncrypt R c)

/-! ## Failing closed -/

/-- `tls_rec_reader_reset`. -/
def tlsRecReaderReset (c : Conn κ) : Conn κ :=
  { c with recvState := .header, recvCount := 0 }

/-- `tls_rec_latch`. -/
def tlsRecLatch (c : Conn κ) : Conn κ :=
  { c with lastState := c.hs.tlsState }.setState .error

/-- `tls_rec_frame_fail`: fatal once records are encrypted, else a resync. -/
def tlsRecFrameFail (R : RecordEnv) (c : Conn κ) : Conn κ :=
  let c := tlsRecReaderReset c
  let fatal := if R.pqHybrid then TlsState.serverHello else TlsState.encryptedExt
  if c.hs.tlsState.code < fatal.code then c else tlsRecLatch c

/-- `tls_rec_auth_fail`. -/
def tlsRecAuthFail (c : Conn κ) : Conn κ :=
  if c.hs.tlsState = .error then c else tlsRecLatch c

/-! ## Reading a record -/

inductive ByteStep where
  | more
  | complete
  | bad
  deriving DecidableEq, Repr

/-- The header is complete: type, version, length. -/
def headerDone (c : Conn κ) : Conn κ × ByteStep :=
  let c := { c with recType := c.recHdr 0 }
  if c.recHdr 1 ≠ 3 then (c, .bad)
  else if c.recHdr 2 ≠ 3 then (c, .bad)
  else
    let len := word (c.recHdr 3) (c.recHdr 4)
    let c := c.withRecord c.hs.recBuf len
    if recBufSize < len then (c, .bad)
    else
      let c := { c with recvState := .payload, recvCount := 0 }
      if len = 0 then (tlsRecReaderReset c, .complete) else (c, .more)

/-- `@read_header`, on one byte. -/
def headerByte (c : Conn κ) (b : UInt8) : Conn κ × ByteStep :=
  let first := c.recvCount = 0
  let c := { c with recHdr := Function.update c.recHdr c.recvCount b }
  if first ∧ (b < 20 ∨ 24 ≤ b) then (c, .bad)
  else
    let c := { c with recvCount := inc16 c.recvCount }
    if c.recvCount = 5 then headerDone c else (c, .more)

/-- `@read_payload`, on one byte. -/
def payloadByte (c : Conn κ) (b : UInt8) : Conn κ × ByteStep :=
  let c := c.withRecord (Function.update c.hs.recBuf c.recvCount b) c.hs.recLen
  let c := { c with recvCount := inc16 c.recvCount }
  if c.recvCount = c.hs.recLen then (tlsRecReaderReset c, .complete) else (c, .more)

def recvByte (c : Conn κ) (b : UInt8) : Conn κ × ByteStep :=
  match c.recvState with
  | .header => headerByte c b
  | .payload => payloadByte c b

/-- `tls_recv_record` over the bytes of the ring. -/
def recvFrom (R : RecordEnv) : List UInt8 → Conn κ → Conn κ × Bool
  | [], c => ({ c with ring := [] }, false)
  | b :: ring, c =>
      match recvByte c b with
      | (c, .more) => recvFrom R ring c
      | (c, .complete) => ({ c with ring := ring }, true)
      | (c, .bad) => (tlsRecFrameFail R { c with ring := ring }, false)

def tlsRecvRecord (R : RecordEnv) (c : Conn κ) : Conn κ × Bool :=
  recvFrom R c.ring c

/-! ## Opening a record -/

/-- `@inner_scan`: the last non-zero byte below `n`, and its index. -/
def innerScan (buf : Buffer) : Nat → Option (UInt8 × Nat)
  | 0 => none
  | n + 1 => if buf n = 0 then innerScan buf n else some (buf n, n)

/-- `tls_record_decrypt`. -/
def tlsRecordDecrypt (R : RecordEnv) (c : Conn κ) : Conn κ × Bool :=
  let len := sub16 c.hs.recLen 16
  let use := c.use .read
  match R.aeadDecrypt (use true).keys.key (use true).nonce (bytesAt c.recHdr 0 5)
      (bytesAt c.hs.recBuf 0 len) (bytesAt c.hs.recBuf len 16) with
  | none => ({ c with uses := c.uses ++ [use false] }, false)
  | some plain =>
      let buf := store c.hs.recBuf 0 plain
      match innerScan buf len with
      | none =>
          ({ c.withRecord buf c.hs.recLen with uses := c.uses ++ [use false] }, false)
      | some (ty, n) =>
          ({ c.withRecord buf n with
              recType := ty
              readSeq := tlsSeqIncrement c.readSeq
              uses := c.uses ++ [use true] }, true)

/-- `tls_rec_decrypt_chk`: a record that cannot hold a tag is a framing error. -/
def tlsRecDecryptChk (R : RecordEnv) (c : Conn κ) : Conn κ × Bool :=
  if c.hs.recLen < 256 ∧ c.hs.recLen ≤ 16 then (tlsRecFrameFail R c, false)
  else tlsRecordDecrypt R c

/-- A complete record, behind the ChangeCipherSpec test. -/
def recordGot (R : RecordEnv) (c : Conn κ) : Conn κ × Bool :=
  if c.hs.tlsState.code < TlsState.encryptedExt.code then (c.handOver, true)
  else if c.recType ≠ ctApplication then (tlsRecFrameFail R c, false)
  else
    let r := tlsRecDecryptChk R c
    if r.2 then (r.1.handOver, true) else (tlsRecAuthFail r.1, false)

/-- One turn of `@retry`. -/
def recvDecryptTurn (R : RecordEnv) (c : Conn κ) : Turn (Conn κ) (Conn κ × Bool) :=
  let r := tlsRecvRecord R c
  if r.2 = false then .leave (r.1, false)
  else if r.1.recType = ctChangeCipher then
    if r.1.hs.tlsState.code < TlsState.connected.code then .again r.1
    else .leave (tlsRecFrameFail R r.1, false)
  else .leave (recordGot R r.1)

/-- `tls_record_recv_and_decrypt`; every retry has taken a record out of the ring. -/
def tlsRecordRecvAndDecrypt (R : RecordEnv) (c : Conn κ) : Option (Conn κ × Bool) :=
  loop (recvDecryptTurn R) (c.ring.length + 1) c

/-! ## The network below -/

/-- `net_poll`: what has arrived goes to the end of the ring. -/
def netPoll (c : Conn κ) : Conn κ :=
  { c with ring := c.ring ++ c.wire.headD [], wire := c.wire.tail }

/-- `tls_rx_reset`, at the start of a connection. -/
def tlsRxReset (c : Conn κ) : Conn κ :=
  tlsRecReaderReset { tlsSeqReset { c with ring := [] } with lastState := .idle }

end Tls
end C64Https
