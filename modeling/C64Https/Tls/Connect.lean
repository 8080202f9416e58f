import C64Https.Lib.Fallible
import C64Https.Tls.Record

/-!
# Connect — the handshake driver (`src/tls13.s`)

`tls_connect` runs the handshake to the end: ClientHello, ServerHello, the four encrypted messages
of the server in order, the client's Finished, and the two key changes.  The build decides how the
ServerHello is read (`pqHybrid`) and how the encrypted messages are found in their records
(`streamDeframe`); both are fields of the environment, next to the arithmetic that the handshake
needs and that is not modelled here.
-/

namespace C64Https
namespace Tls

open Word Loop Bytes Fallible

/-- A ClientHello: `bulk` is the sectioned key share, empty in the builds that have none. -/
structure Hello where
  head : List UInt8
  bulk : List UInt8
  tail : List UInt8

structure ConnEnv (κ : Type) extends RecordEnv where
  df : Env κ
  /-- `TLS_STREAM_DEFRAME` -/
  streamDeframe : Bool
  /-- polls of the drain behind the ServerHello -/
  shDrain : Nat
  /-- turns of the extension loop that are waited for -/
  shFuel : Nat
  /-- entropy, the key pairs and `tls_build_client_hello`; none where `pq_connect_prep` refuses -/
  tlsBuildClientHello : κ → κ × Option Hello
  /-- `pq_sh_decaps` -/
  pqShDecaps : κ → ShReader → κ × Bool
  /-- `tls_ecdh_compute_shared`, whose scratch overlays `tls_rec_buf` -/
  tlsEcdhComputeShared : κ → List UInt8 → Buffer → κ × Buffer × Bool
  /-- `tls_derive_handshake_keys`, behind `cert_pin_hs_keys` where that is linked -/
  tlsDeriveHandshakeKeys : κ → List UInt8 → κ × TrafficKeys
  /-- `cert_pin_require`, true in the builds without the hook -/
  certPinRequire : κ → Bool
  /-- `tls_compute_finished` -/
  tlsComputeFinished : κ → List UInt8 → κ × List UInt8
  tlsDeriveTrafficKeys : κ → List UInt8 → κ × TrafficKeys

variable {κ : Type}

/-! ## Transcript -/

/-- `tls_transcript_update` on bytes that are not the deframer's. -/
def Conn.fold (E : ConnEnv κ) (c : Conn κ) (bs : List UInt8) : Conn κ :=
  { c with hs := { c.hs with transcript := tlsTranscriptUpdate E.df.sha c.hs.transcript bs } }

/-- `tls_transcript_hash`. -/
def Conn.snapshot (E : ConnEnv κ) (c : Conn κ) : Conn κ :=
  { c with hs := { c.hs with snap := tlsTranscriptHash E.df.sha c.hs.transcript } }

def Conn.setKeys (c : Conn κ) (keys : κ) : Conn κ :=
  { c with hs := { c.hs with keys := keys } }

/-! ## ClientHello -/

/-- `tls_ch_section`. -/
def tlsChSection (E : ConnEnv κ) (bs : List UInt8) : Routine (Conn κ) := fun c =>
  let r := netTcpSend E.toRecordEnv c bs
  if r.2 then some (r.1.fold E bs, true) else some r

/-- `tls_ch_send_sections`: one record, header first, each section folded once it is sent. -/
def tlsChSendSections (E : ConnEnv κ) (h : Hello) : Routine (Conn κ) :=
  let len := h.head.length + h.bulk.length + h.tail.length
  let header : Routine (Conn κ) := fun c =>
    let c := { c with recHdr := recordHeader ctHandshake len c.recHdr }
    some (netTcpSend E.toRecordEnv c (bytesAt c.recHdr 0 5))
  ((header.next (tlsChSection E h.head)).next (tlsChSection E h.bulk)).next (tlsChSection E h.tail)

/-- `@classic`: the message goes out of `tls_rec_buf` in one piece. -/
def tlsChSendClassic (E : ConnEnv κ) : Routine (Conn κ) := fun c =>
  let r := tlsRecordSendPlaintext E.toRecordEnv c ctHandshake
  if r.2 then some (r.1.fold E r.1.record, true) else some r

/-- `tls_send_client_hello`. -/
def tlsSendClientHello (E : ConnEnv κ) (h : Hello) : Routine (Conn κ) := fun c =>
  let staged := h.head ++ h.tail
  let c := { c with hs := { c.hs with transcript := tlsTranscriptInit E.df.sha } }
  let c := c.withRecord (store c.hs.recBuf 0 staged) staged.length
  if h.bulk = [] then tlsChSendClassic E c else tlsChSendSections E h c

/-! ## ServerHello -/

/-- A plaintext record while the ServerHello is awaited; with `timeout` polls behind it. -/
def shRecord (E : ConnEnv κ) (c : Conn κ) (timeout : Nat) :
    Turn (Conn κ × Nat) (Option (Conn κ × Bool)) :=
  if E.pqHybrid then
    match c.pq.pqShFeed c.recType c.record with
    | .leave pq => .leave (some ({ c with pq := pq }, false))
    | .again (pq, complete) =>
        let c := { c with pq := pq }.fold E c.record
        if complete then .leave (some (c, true)) else .again (c, timeout)
  else if c.recType ≠ ctHandshake then .leave (some (c, false))
  else
    match tlsParseServerHello E.shFuel c.hs.recBuf c.sh with
    | none => .leave none
    | some (sh, false) => .leave (some ({ c with sh := sh }, false))
    | some (sh, true) => .leave (some ({ c with sh := sh }.fold E c.record, true))

/-- One turn of `@sh_wait`. -/
def shTurn (E : ConnEnv κ) (x : Conn κ × Nat) : Turn (Conn κ × Nat) (Option (Conn κ × Bool)) :=
  match tlsRecordRecvAndDecrypt E.toRecordEnv (netPoll x.1) with
  | none => .leave none
  | some (c, true) => shRecord E c x.2
  | some (c, false) =>
      if E.pqHybrid = true ∧ c.hs.tlsState = .error then
        .leave (some ({ c with pq := { c.pq with shErr := .record } }, false))
      else
        let timeout := inc16 x.2
        if timeout = 0 then .leave (some (c, false)) else .again (c, timeout)

/-- What is still to be read, in the ring and behind it. -/
def Conn.arriving (c : Conn κ) : Nat :=
  c.ring.length + c.wire.flatten.length

/-- Every turn of a receive loop takes a record or counts a poll. -/
def recvFuel (c : Conn κ) : Nat :=
  2 * (65536 + c.arriving) + 2

/-- The drain, `n` polls. -/
def shDrainPolls : Nat → Conn κ → Conn κ
  | 0, c => c
  | n + 1, c => shDrainPolls n (netPoll c)

/-- The share the server sent, where the reader of the build left it. -/
def serverPubkey (E : ConnEnv κ) (c : Conn κ) : List UInt8 :=
  if E.pqHybrid then c.pq.serverPubkey else c.sh.serverPubkey

/-- The shared secret: Decaps first in the hybrid build, then X25519. -/
def sharedSecret (E : ConnEnv κ) : Routine (Conn κ) := fun c =>
  let r := if E.pqHybrid then E.pqShDecaps c.hs.keys c.pq else (c.hs.keys, true)
  let c := c.setKeys r.1
  if r.2 = false then some (c, false)
  else
    let x := E.tlsEcdhComputeShared c.hs.keys (serverPubkey E c) c.hs.recBuf
    some ((c.withRecord x.2.1 c.hs.recLen).setKeys x.1, x.2.2)

/-- `@sh_wait` until the message is read. -/
def shWait (E : ConnEnv κ) : Routine (Conn κ) := fun c =>
  let c := { c with pq := if E.pqHybrid then c.pq.init else c.pq }
  (loop (shTurn E) (recvFuel c) (c, 0)).join

/-- `tls_recv_server_hello`. -/
def tlsRecvServerHello (E : ConnEnv κ) : Routine (Conn κ) :=
  ((shWait E).next (Routine.pure (shDrainPolls E.shDrain))).next (sharedSecret E)

/-! ## The encrypted messages -/

/-- Where `tls_recv_encrypted` is in its loop. -/
inductive EncAt where
  | pump
  | wait
  deriving DecidableEq, Repr

/-- `@enc_wait`: poll, and open a record if there is one. -/
def encWait (E : ConnEnv κ) (c : Conn κ) (timeout : Nat)
    (got : Conn κ → Turn (Conn κ × Nat × EncAt) (Option (Conn κ × Bool))) :
    Turn (Conn κ × Nat × EncAt) (Option (Conn κ × Bool)) :=
  match tlsRecordRecvAndDecrypt E.toRecordEnv (netPoll c) with
  | none => .leave none
  | some (c, true) => if c.recType ≠ ctHandshake then .leave (some (c, false)) else got c
  | some (c, false) =>
      if c.hs.tlsState = .error then .leave (some (c, false))
      else
        let timeout := inc16 timeout
        if timeout = 0 then .leave (some (c, false)) else .again (c, timeout, .wait)

/-- One turn of `tls_recv_encrypted` over the deframer. -/
def encTurn (E : ConnEnv κ) (x : Conn κ × Nat × EncAt) :
    Turn (Conn κ × Nat × EncAt) (Option (Conn κ × Bool)) :=
  match x with
  | (c, timeout, .pump) =>
      match tlsDeframePump E.df c.hs with
      | none => .leave none
      | some (hs, .msg) => .leave (some ({ c with hs := hs }, true))
      | some (hs, .more) => .again ({ c with hs := hs }, timeout, .wait)
      | some (hs, .err _) => .leave (some ({ c with hs := hs }, false))
  | (c, timeout, .wait) =>
      encWait E c timeout fun c =>
        .again ({ c with hs := tlsDeframeNewRecord c.hs }, timeout, .pump)

/-- The handler of a message that has the record to itself. -/
def encHandler (E : Env κ) (s : Hs κ) (ty : UInt8) : Option (κ × Bool) :=
  if ty = hsEncryptedExt then
    some (s.keys, true)
  else if ty = hsCertificate then
    some (E.tlsHandleCertificate E.recBufAddr s.recBuf s.keys)
  else if ty = hsCertVerify then
    some (E.tlsHandleCertVerify E.recBufAddr s.recBuf s.snap s.keys)
  else if ty = hsFinished then
    some (E.tlsVerifyFinished E.recBufAddr s.recBuf s.snap s.keys)
  else
    none

/-- The handler's verdict on the message in the record. -/
def encRan (s : Hs κ) (ty : UInt8) (keys : κ) (ok : Bool) : Hs κ :=
  { s with keys := keys }.emit
    (.dispatch ty ((bytesAt s.recBuf 0 s.recLen).drop 4) s.snap ok)

/-- `@enc_update_transcript`. -/
def encFold (E : Env κ) (s : Hs κ) : Hs κ :=
  let bs := bytesAt s.recBuf 0 s.recLen
  { s with transcript := tlsTranscriptUpdate E.sha s.transcript bs }.emit (.fold bs)

/-- The dispatch of a message that the gate let through. -/
def encDispatch (E : Env κ) (s : Hs κ) (ty : UInt8) : Hs κ × Bool :=
  match encHandler E s ty with
  | none => (s, false)
  | some (keys, true) => (encFold E (encRan s ty keys true), true)
  | some (keys, false) => (encRan s ty keys false, false)

/-- `@enc_got_record` of the other arm: snapshot, gate, dispatch, fold. -/
def encWhole (E : Env κ) (s : Hs κ) : Hs κ × Bool :=
  let s := { s with snap := tlsTranscriptHash E.sha s.transcript }
  let ty := s.recBuf 0
  if tlsHsSeqCheck s.tlsState ty = false then (s, false)
  else encDispatch E (s.emit (.admitted s.tlsState ty)) ty

/-- One turn of `tls_recv_encrypted` in the builds without the deframer. -/
def encWholeTurn (E : ConnEnv κ) (x : Conn κ × Nat × EncAt) :
    Turn (Conn κ × Nat × EncAt) (Option (Conn κ × Bool)) :=
  encWait E x.1 x.2.1 fun c =>
    let r := encWhole E.df c.hs
    .leave (some ({ c with hs := r.1 }, r.2))

/-- `tls_recv_encrypted`. -/
def tlsRecvEncrypted (E : ConnEnv κ) : Routine (Conn κ) := fun c =>
  if E.streamDeframe then
    (loop (encTurn E) (recvFuel c) (c, 0, .pump)).join
  else
    (loop (encWholeTurn E) (recvFuel c) (c, 0, .wait)).join

/-! ## The client's Finished -/

/-- `tls_send_finished`. -/
def tlsSendFinished (E : ConnEnv κ) : Routine (Conn κ) := fun c =>
  let r := E.tlsComputeFinished c.hs.keys c.hs.snap
  let msg := [hsFinished, 0, 0, 32] ++ r.2
  let c := (c.setKeys r.1).withRecord (store c.hs.recBuf 0 msg) 36
  let c := { c with recType := ctHandshake }.fold E (bytesAt c.hs.recBuf 0 36)
  some (tlsRecordSendEncrypted E.toRecordEnv c)

/-- `cert_pin_send_finished`. -/
def certPinSendFinished (E : ConnEnv κ) : Routine (Conn κ) := fun c =>
  if E.certPinRequire c.hs.keys then tlsSendFinished E c else some (c, false)

/-! ## The connection -/

/-- From the entry to the ClientHello. -/
def connectHello (E : ConnEnv κ) : Routine (Conn κ) := fun c =>
  let c := { (tlsRxReset c).setState .idle with reachedConnected := false }
  let r := E.tlsBuildClientHello c.hs.keys
  let c := (c.setKeys r.1).setState .clientHello
  match r.2 with
  | none => some (c, false)
  | some h => tlsSendClientHello E h c

/-- The transcript hash of ClientHello and ServerHello, and the handshake keys. -/
def deriveHandshake (E : ConnEnv κ) (c : Conn κ) : Conn κ :=
  let c := c.snapshot E
  let r := E.tlsDeriveHandshakeKeys c.hs.keys c.hs.snap
  { c.setKeys r.1 with hsKeys := r.2 }

/-- The ServerHello, and the first key change. -/
def connectServerHello (E : ConnEnv κ) : Routine (Conn κ) :=
  ((Routine.pure fun c => c.setState .serverHello).next (tlsRecvServerHello E)).next
    (Routine.pure (deriveHandshake E))

/-- `tls_deframe_init`, where it is linked. -/
def flightStart (E : ConnEnv κ) (c : Conn κ) : Conn κ :=
  if E.streamDeframe then { c with hs := tlsDeframeInit c.hs } else c

/-- Write the state and receive the message that is due in it. -/
def expect (E : ConnEnv κ) (st : TlsState) : Routine (Conn κ) :=
  (Routine.pure fun c => c.setState st).next (tlsRecvEncrypted E)

/-- The four encrypted messages. -/
def connectFlight (E : ConnEnv κ) : Routine (Conn κ) :=
  ((((Routine.pure (flightStart E)).next (expect E .encryptedExt)).next
    (expect E .certificate)).next (expect E .certVerify)).next (expect E .finished)

/-- The application keys, the second key change, and `CONNECTED`. -/
def deriveTraffic (E : ConnEnv κ) (c : Conn κ) : Conn κ :=
  let r := E.tlsDeriveTrafficKeys c.hs.keys c.hs.snap
  let c := tlsSeqReset { c.setKeys r.1 with appKeys := r.2 }
  { c.setState .connected with reachedConnected := true }

def connectFinish (E : ConnEnv κ) : Routine (Conn κ) :=
  ((Routine.pure fun c => c.snapshot E).next (certPinSendFinished E)).next
    (Routine.pure (deriveTraffic E))

/-- `@error`. -/
def connectError (c : Conn κ) : Conn κ :=
  if c.hs.tlsState = .error then c
  else { c with lastState := c.hs.tlsState }.setState .error

/-- `tls_connect`. -/
def tlsConnect (E : ConnEnv κ) : Routine (Conn κ) :=
  ((((connectHello E).next (connectServerHello E)).next (connectFlight E)).next
    (connectFinish E)).onFail connectError

/-! ## Application data -/

/-- `tls_send`: the copy loop compares its 8-bit index with the low byte of the length. -/
def tlsSend (E : ConnEnv κ) (data : List UInt8) (c : Conn κ) : Conn κ × Bool :=
  let c := c.withRecord (store c.hs.recBuf 0 (data.take (data.length % 256))) data.length
  tlsRecordSendEncrypted E.toRecordEnv { c with recType := ctApplication }

/-- `tls_recv`. -/
def tlsRecv (E : ConnEnv κ) (c : Conn κ) : Option (Conn κ × Bool) :=
  match tlsRecordRecvAndDecrypt E.toRecordEnv (netPoll { c with rxInner := 0 }) with
  | some (c, true) => some ({ c with rxInner := c.recType }, decide (c.recType = ctApplication))
  | x => x

/-- `tls_close`. -/
def tlsClose (c : Conn κ) : Conn κ :=
  c.setState .idle

/-! ## A sample peer -/

/-- Keys of the lengths that the AEAD takes. -/
def TrafficKeys.sample (n : UInt8) : TrafficKeys where
  write := { key := List.replicate 32 n, iv := List.replicate 12 n }
  read := { key := List.replicate 32 (n + 1), iv := List.replicate 12 (n + 1) }

/-- Handlers that accept, over a network that sends and an AEAD that leaves the text as it is. -/
def ConnEnv.accepting : ConnEnv Unit where
  aeadEncrypt := fun _ _ _ plain => (plain, List.replicate 16 0)
  aeadDecrypt := fun _ _ _ sealed _ => some sealed
  sendOk := fun _ => true
  pqHybrid := false
  df := Env.accepting
  streamDeframe := true
  shDrain := 0
  shFuel := 8
  tlsBuildClientHello := fun _ => ((), some { head := [1, 0, 0, 0], bulk := [], tail := [] })
  pqShDecaps := fun _ _ => ((), true)
  tlsEcdhComputeShared := fun _ _ buf => ((), buf, true)
  tlsDeriveHandshakeKeys := fun _ _ => ((), .sample 1)
  certPinRequire := fun _ => true
  tlsComputeFinished := fun _ _ => ((), List.replicate 32 0)
  tlsDeriveTrafficKeys := fun _ _ => ((), .sample 3)

/-- Storage that holds zeros, before the peer sends `wire`. -/
def Conn.blank (wire : List (List UInt8)) : Conn Unit where
  uses := []
  got := []
  hs := Hs.blank ()
  ring := []
  wire := wire
  recHdr := fun _ => 0
  recType := 0
  recvState := .header
  recvCount := 0
  writeSeq := zeroSeq
  readSeq := zeroSeq
  hsKeys := .sample 0
  appKeys := .sample 0
  lastState := .idle
  reachedConnected := false
  rxInner := 0
  sh := {
    shErr := .none, serverRandom := [], serverPubkey := []
    y := 0, remHi := 0, remLo := 0, foundVer := 0, foundKs := 0 }
  pq := {
    shErr := .none, state := .hdr, cnt := 0, rem := 0, d := 0, field := []
    seenVer := false, seenKs := false, offered := false, kexGroup := 0
    serverRandom := [], ciphertext := [], serverPubkey := [] }
  sent := []

/-- A record on the wire. -/
def wireRecord (ty : UInt8) (bs : List UInt8) : List UInt8 :=
  [ty, 3, 3, hi bs.length, lo bs.length] ++ bs

/-- An encrypted record with handshake messages in it. -/
def sealedRecord (bs : List UInt8) : List UInt8 :=
  wireRecord ctApplication (bs ++ [ctHandshake] ++ List.replicate 16 0)

/-- A ServerHello with TLS 1.3 and an X25519 share. -/
def sampleServerHello : List UInt8 :=
  [hsServerHello, 0, 0, 86, 3, 3] ++ List.replicate 32 7 ++ [0, 0x13, 0x03, 0, 0, 46] ++
    [0, 0x2b, 0, 2, 3, 4] ++ [0, 0x33, 0, 36, 0, 0x1d, 0, 0x20] ++ List.replicate 32 9

/-- The four messages of the server. -/
def sampleFlight : List UInt8 :=
  [hsEncryptedExt, 0, 0, 2, 0, 0] ++ [hsCertificate, 0, 0, 10, 0, 0, 0, 6, 0, 0, 1, 0x30, 0, 0] ++
    [hsCertVerify, 0, 0, 4, 8, 7, 0, 0] ++ [hsFinished, 0, 0, 32] ++ List.replicate 32 5

end Tls
end C64Https
