import C64Https.Lib.Loop
import C64Https.Tls.HsSeq
import C64Https.Tls.Transcript

/-!
# Deframe — the streaming handshake-message deframer (`src/tls_deframe.s`)

The deframer consumes the plaintext of the handshake records and produces handshake messages.  A
message takes one of three routes:

* *in place*, when it lies whole in the current record;
* through the *carry* buffer, when it spans records and is not a Certificate;
* through the *streamed Certificate* consumer, which copies the leaf into `cert_buf` and discards
  the rest of the chain.

The state below is the module's own storage plus what it reads and writes around it.  `trace` is
the only field the program does not have: every primitive records there what it touched, so that
bounds, underflows and the order of dispatches are statements about runs.
-/

namespace C64Https
namespace Tls

open Word Loop Bytes

/-! ## Sizes -/

/-- `tls_rec_buf` and `TLS_REC_BUF_MAX`. -/
def recBufSize : Nat := 548

def dfCarrySize : Nat := 280

def dfCarryMaxBody : Nat := dfCarrySize - 4

/-- `CERT_BUF_SIZE` of the backends that link the deframer. -/
def certBufSize : Nat := 2048

/-! ## State -/

inductive DfMode where
  | hdr
  | carry
  | stream
  deriving DecidableEq, Repr

/-- `df_cs_state`. -/
inductive CsState where
  | ctx
  | listLen
  | entryLen
  | entryData
  | extLen
  | extData
  deriving DecidableEq, Repr

/-- The `DF_ERR_*` codes. -/
inductive DfErr where
  | hdrLen
  | tooBig
  | dispatch
  | type
  | certFmt
  | certTooBig
  | seq
  deriving DecidableEq, Repr

/-- How a pump returns: `C=0`; `C=1, A=0`; `C=1, A≠0`. -/
inductive Ret where
  | msg
  | more
  | err (e : DfErr)
  deriving DecidableEq, Repr

/-- What a step of the deframer touched. -/
inductive Event where
  /-- `n` bytes of `tls_rec_buf` read from `off`, while `tls_rec_len = len` -/
  | read (off n len : Nat)
  | carryWrite (off n : Nat)
  | certWrite (off : Nat) (bs : List UInt8)
  /-- a remaining-count subtraction `a - b` -/
  | sub (a b : Nat)
  /-- bytes folded into the running transcript -/
  | fold (bs : List UInt8)
  /-- the sequence gate let a message of type `ty` through in state `st` -/
  | admitted (st : TlsState) (ty : UInt8)
  /-- a handler ran on a whole message, with this `tls_transcript`, and returned -/
  | dispatch (ty : UInt8) (body snap : List UInt8) (ok : Bool)
  /-- `tls_cert_stream_finish` ran on a staged certificate, and returned -/
  | leaf (cert : List UInt8) (ok : Bool)
  /-- a streamed Certificate was accepted -/
  | streamed
  deriving DecidableEq, Repr

/-- The machine around the deframer; `κ` is the state of the message handlers. -/
structure Hs (κ : Type) where
  trace : List Event
  tlsState : TlsState
  recBuf : Buffer
  recLen : Nat
  transcript : Transcript
  /-- `tls_transcript`, the last snapshot -/
  snap : List UInt8
  keys : κ
  mode : DfMode
  hdr : Buffer
  hdrHave : Nat
  hdrSplit : Bool
  msgLen : Nat
  msgRem : Nat
  recOff : Nat
  avail : Nat
  carryOff : Nat
  carryBuf : Buffer
  lastErr : Option DfErr
  take : Nat
  csState : CsState
  csIdx : Nat
  csTmpHi : UInt8
  csTmpLo : UInt8
  csNeed : Nat
  csEntry : Nat
  csOff : Nat
  certBuf : Buffer

/-- The message handlers.  Each is handed `tls_hs_ptr` and the memory it points at, reads what it
likes of it, and returns its carry (`true` for `C=0`). -/
structure Env (κ : Type) where
  sha : Sha256
  recBufAddr : Nat
  carryBufAddr : Nat
  tlsHandleCertificate : Nat → Buffer → κ → κ × Bool
  tlsHandleCertVerify : Nat → Buffer → List UInt8 → κ → κ × Bool
  tlsVerifyFinished : Nat → Buffer → List UInt8 → κ → κ × Bool
  tlsCertStreamFinish : Buffer → Nat → κ → κ × Bool

variable {κ : Type}

/-- Storage that holds zeros throughout. -/
def Hs.blank (keys : κ) : Hs κ where
  trace := []
  tlsState := .idle
  recBuf := fun _ => 0
  recLen := 0
  transcript := { h0 := [], block := [], total := 0 }
  snap := []
  keys := keys
  mode := .hdr
  hdr := fun _ => 0
  hdrHave := 0
  hdrSplit := false
  msgLen := 0
  msgRem := 0
  recOff := 0
  avail := 0
  carryOff := 0
  carryBuf := fun _ => 0
  lastErr := none
  take := 0
  csState := .ctx
  csIdx := 0
  csTmpHi := 0
  csTmpLo := 0
  csNeed := 0
  csEntry := 0
  csOff := 0
  certBuf := fun _ => 0

/-- Handlers that accept every message, over a hash that keeps all it is fed. -/
def Env.accepting : Env Unit where
  sha := { init := [], processBlock := fun h block => h ++ block, final := id }
  recBufAddr := 0xA000
  carryBufAddr := 0xC000
  tlsHandleCertificate := fun _ _ _ => ((), true)
  tlsHandleCertVerify := fun _ _ _ _ => ((), true)
  tlsVerifyFinished := fun _ _ _ _ => ((), true)
  tlsCertStreamFinish := fun _ _ _ => ((), true)

namespace Hs

def emit (s : Hs κ) (e : Event) : Hs κ :=
  { s with trace := s.trace ++ [e] }

/-- `tls_transcript_update` on `n` bytes of the record from `df_rec_off`. -/
def foldRec (E : Env κ) (s : Hs κ) (n : Nat) : Hs κ :=
  let bs := bytesAt s.recBuf s.recOff n
  { s with
    transcript := tlsTranscriptUpdate E.sha s.transcript bs
    trace := s.trace ++ [.read s.recOff n s.recLen, .fold bs] }

end Hs

/-! ## Entry points -/

def tlsDeframeInit (s : Hs κ) : Hs κ :=
  { s with
    mode := .hdr
    hdrHave := 0
    hdrSplit := false
    lastErr := none
    recOff := s.recLen }

def tlsDeframeNewRecord (s : Hs κ) : Hs κ :=
  { s with recOff := 0 }

/-! ## Shared exits -/

def dfFail (s : Hs κ) (e : DfErr) : Hs κ × Ret :=
  ({ s with lastErr := some e }, .err e)

def dfNeedData (s : Hs κ) : Hs κ × Ret :=
  (s, .more)

/-- What the handler of a message is handed: the type, `tls_hs_ptr` and the memory there, and
`tls_transcript`. -/
structure Handed where
  ty : UInt8
  ptr : Nat
  view : Buffer
  snap : List UInt8

def Hs.handed (s : Hs κ) (ptr : Nat) (view : Buffer) : Handed where
  ty := s.hdr 0
  ptr := ptr
  view := view
  snap := s.snap

/-- The message as it was handed over, with a body of `len` bytes, and the carry returned. -/
def Handed.event (m : Handed) (len : Nat) (ok : Bool) : Event :=
  .dispatch m.ty (bytesAt m.view 4 len) m.snap ok

@[simp] theorem Hs.handed_event (s : Hs κ) (ptr : Nat) (view : Buffer) (len : Nat) (ok : Bool) :
    (s.handed ptr view).event len ok = .dispatch (s.hdr 0) (bytesAt view 4 len) s.snap ok :=
  rfl

/-- The type switch of `df_dispatch`: the handler of the message, run on it; `none` for a type that
has no handler. -/
def dfHandler (E : Env κ) (m : Handed) (keys : κ) : Option (κ × Bool) :=
  if m.ty = hsEncryptedExt then
    some (keys, true)
  else if m.ty = hsCertificate then
    some (E.tlsHandleCertificate m.ptr m.view keys)
  else if m.ty = hsCertVerify then
    some (E.tlsHandleCertVerify m.ptr m.view m.snap keys)
  else if m.ty = hsFinished then
    some (E.tlsVerifyFinished m.ptr m.view m.snap keys)
  else
    none

/-- `df_dispatch`: reset the per-message state, then run the handler on the message at `ptr`. -/
def dfDispatch (E : Env κ) (ptr : Nat) (view : Buffer) (s : Hs κ) : Hs κ × Ret :=
  let s := { s with mode := .hdr, hdrHave := 0, hdrSplit := false }
  let m := s.handed ptr view
  match dfHandler E m s.keys with
  | none => dfFail s .type
  | some (keys, ok) =>
      let s := { s with keys := keys, trace := s.trace ++ [m.event s.msgLen ok] }
      if ok then (s, .msg) else dfFail s .dispatch

/-! ## The carry route -/

/-- `df_chunk_min`. -/
def dfChunkMin (s : Hs κ) : Nat :=
  if s.avail < s.msgRem then s.avail else s.msgRem

/-- `df_consume_chunk`. -/
def dfConsumeChunk (s : Hs κ) (n : Nat) : Hs κ :=
  { s with
    recOff := add16 s.recOff n
    avail := sub16 s.avail n
    msgRem := sub16 s.msgRem n
    trace := s.trace ++ [.sub s.avail n, .sub s.msgRem n] }

/-- The copy of `@carry_fits` and of the body consumer: `n` record bytes to
`df_carry_buf + df_carry_off`. -/
def dfCopyCarry (s : Hs κ) (n : Nat) : Hs κ :=
  { s with
    carryBuf := store s.carryBuf s.carryOff (bytesAt s.recBuf s.recOff n)
    carryOff := add16 s.carryOff n
    trace := s.trace ++ [.read s.recOff n s.recLen, .carryWrite s.carryOff n] }

def dfCarryBody (E : Env κ) (s : Hs κ) : Hs κ × Ret :=
  if s.avail = 0 then
    dfNeedData s
  else
    let n := dfChunkMin s
    let s := s.foldRec E n
    let s := dfCopyCarry s n
    let s := dfConsumeChunk s n
    if s.msgRem = 0 then
      dfDispatch E E.carryBufAddr s.carryBuf s
    else
      dfNeedData s

/-- `@carry_fits`: start the carry with the four header bytes. -/
def dfCarryBegin (s : Hs κ) : Hs κ :=
  { s with
    carryBuf := store s.carryBuf 0 (bytesAt s.hdr 0 4)
    carryOff := 4
    mode := .carry
    trace := s.trace ++ [.carryWrite 0 4] }

/-! ## The streamed Certificate -/

/-- `df_cs_take_byte`: the byte is `s.recBuf s.recOff` of the state before. -/
def dfCsTakeByte (s : Hs κ) : Hs κ :=
  { s with
    recOff := add16 s.recOff 1
    take := sub16 s.take 1
    msgRem := sub16 s.msgRem 1
    trace := s.trace ++ [.read s.recOff 1 s.recLen, .sub s.take 1, .sub s.msgRem 1] }

/-- `df_cs_min_take_need`. -/
def dfCsMinTakeNeed (s : Hs κ) : Nat :=
  if s.take < s.csNeed then s.take else s.csNeed

/-- `df_cs_advance_n`. -/
def dfCsAdvanceN (s : Hs κ) (n : Nat) : Hs κ :=
  { s with
    recOff := add16 s.recOff n
    take := sub16 s.take n
    msgRem := sub16 s.msgRem n
    csNeed := sub16 s.csNeed n
    trace := s.trace ++ [.sub s.take n, .sub s.msgRem n, .sub s.csNeed n] }

/-- The copy of `@entry_data`: `n` record bytes to `cert_buf + df_cs_off`. -/
def dfCsCopy (s : Hs κ) (n : Nat) : Hs κ :=
  let bs := bytesAt s.recBuf s.recOff n
  { s with
    certBuf := store s.certBuf s.csOff bs
    csOff := add16 s.csOff n
    trace := s.trace ++ [.read s.recOff n s.recLen, .certWrite s.csOff bs] }

/-- `@msg_end`: the declared length ran out; it must have done so between two entries, with at
least one of them consumed. -/
def csMsgEnd (s : Hs κ) : Hs κ × Ret :=
  if s.csState ≠ .entryLen then
    dfFail s .certFmt
  else if s.csIdx ≠ 0 then
    dfFail s .certFmt
  else if s.csEntry = 0 then
    dfFail s .certFmt
  else
    ({ s with mode := .hdr, hdrHave := 0, hdrSplit := false }.emit .streamed, .msg)

/-- `@entry_done`. -/
def csEntryDone (s : Hs κ) : Hs κ :=
  { s with csEntry := inc8 s.csEntry, csState := .entryLen, csIdx := 0 }

/-- `@edd_not_leaf`. -/
def csEntryToExt (s : Hs κ) : Hs κ :=
  { s with csState := .extLen, csIdx := 0 }

/-- `@entry_data_done`: a complete leaf goes to `tls_cert_stream_finish`. -/
def csEntryDataDone (E : Env κ) (s : Hs κ) : Turn (Hs κ) (Hs κ × Ret) :=
  if s.csEntry ≠ 0 then
    .again (csEntryToExt s)
  else
    let len := word s.csTmpHi s.csTmpLo
    let r := E.tlsCertStreamFinish s.certBuf len s.keys
    let s := { s with keys := r.1 }.emit (.leaf (bytesAt s.certBuf 0 len) r.2)
    if r.2 then .again (csEntryToExt s) else .leave (dfFail s .certFmt)

def csCtx (s : Hs κ) : Turn (Hs κ) (Hs κ × Ret) :=
  let b := s.recBuf s.recOff
  let s := dfCsTakeByte s
  if b = 0 then
    .again { s with csState := .listLen, csIdx := 0 }
  else
    .leave (dfFail s .certFmt)

def csListLen (s : Hs κ) : Turn (Hs κ) (Hs κ × Ret) :=
  let b := s.recBuf s.recOff
  let s := dfCsTakeByte s
  if s.csIdx = 0 ∧ b ≠ 0 then
    .leave (dfFail s .certFmt)
  else
    let s := { s with csIdx := inc8 s.csIdx }
    if s.csIdx = 3 then
      .again { s with csState := .entryLen, csIdx := 0 }
    else
      .again s

/-- `@el_not_first`: bytes 1 and 2 of the `cert_data` length. -/
def csElByte (s : Hs κ) (b : UInt8) : Hs κ :=
  if s.csIdx = 0 then s
  else if s.csIdx = 1 then { s with csTmpHi := b }
  else { s with csTmpLo := b }

/-- The length of `cert_data` is complete; the leaf's is checked against `cert_buf` before any
copy. -/
def csElDone (s : Hs κ) : Turn (Hs κ) (Hs κ × Ret) :=
  let s := { s with csNeed := word s.csTmpHi s.csTmpLo, csIdx := 0 }
  if s.csEntry ≠ 0 then
    .again { s with csState := .entryData }
  else if certBufSize < s.csNeed then
    .leave (dfFail s .certTooBig)
  else
    .again { s with csOff := 0, csState := .entryData }

def csEntryLen (s : Hs κ) : Turn (Hs κ) (Hs κ × Ret) :=
  let b := s.recBuf s.recOff
  let s := dfCsTakeByte s
  if s.csIdx = 0 ∧ b ≠ 0 then
    .leave (dfFail s .certFmt)
  else
    let s := csElByte s b
    let s := { s with csIdx := inc8 s.csIdx }
    if s.csIdx ≠ 3 then .again s else csElDone s

def csEntryData (E : Env κ) (s : Hs κ) : Turn (Hs κ) (Hs κ × Ret) :=
  if s.csNeed = 0 then
    csEntryDataDone E s
  else
    let n := dfCsMinTakeNeed s
    let s := if s.csEntry = 0 then dfCsCopy s n else s
    let s := dfCsAdvanceN s n
    if s.csNeed = 0 then csEntryDataDone E s else .again s

/-- `@ext_len`: the two bytes of the length of the entry's extensions. -/
def csXlByte (s : Hs κ) (b : UInt8) : Hs κ :=
  if s.csIdx = 0 then { s with csTmpHi := b } else { s with csTmpLo := b }

def csXlDone (s : Hs κ) : Turn (Hs κ) (Hs κ × Ret) :=
  let s := { s with csNeed := word s.csTmpHi s.csTmpLo, csIdx := 0 }
  if s.csNeed = 0 then .again (csEntryDone s) else .again { s with csState := .extData }

def csExtLen (s : Hs κ) : Turn (Hs κ) (Hs κ × Ret) :=
  let b := s.recBuf s.recOff
  let s := csXlByte (dfCsTakeByte s) b
  let s := { s with csIdx := inc8 s.csIdx }
  if s.csIdx ≠ 2 then .again s else csXlDone s

def csExtData (s : Hs κ) : Turn (Hs κ) (Hs κ × Ret) :=
  let s := dfCsAdvanceN s (dfCsMinTakeNeed s)
  if s.csNeed = 0 then .again (csEntryDone s) else .again s

/-- One turn of `@parse`. -/
def csTurn (E : Env κ) (s : Hs κ) : Turn (Hs κ) (Hs κ × Ret) :=
  if s.take = 0 then
    if s.msgRem = 0 then .leave (csMsgEnd s) else .leave (dfNeedData s)
  else
    match s.csState with
    | .entryData => csEntryData E s
    | .extData => csExtData s
    | .ctx => csCtx s
    | .listLen => csListLen s
    | .entryLen => csEntryLen s
    | .extLen => csExtLen s

/-- Every turn of `@parse` takes a byte of `df_take` or leaves a data state. -/
def csFuel (s : Hs κ) : Nat :=
  2 * s.take + 2

def dfStreamBody (E : Env κ) (s : Hs κ) : Option (Hs κ × Ret) :=
  if s.avail = 0 then
    some (dfNeedData s)
  else
    let s := { s with take := dfChunkMin s }
    let s := s.foldRec E s.take
    loop (csTurn E) (csFuel s) s

def dfStreamBegin (E : Env κ) (s : Hs κ) : Option (Hs κ × Ret) :=
  dfStreamBody E { s with mode := .stream, csState := .ctx, csIdx := 0, csEntry := 0, csOff := 0 }

/-! ## The pump -/

/-- `df_avail = tls_rec_len - df_rec_off`. -/
def dfAvail (s : Hs κ) : Hs κ :=
  { s with
    avail := sub16 s.recLen s.recOff
    trace := s.trace ++ [.sub s.recLen s.recOff] }

/-- One byte of the message header. -/
def dfHdrByte (s : Hs κ) : Hs κ :=
  { s with
    hdr := Function.update s.hdr s.hdrHave (s.recBuf s.recOff)
    hdrHave := inc8 s.hdrHave
    recOff := add16 s.recOff 1
    avail := sub16 s.avail 1
    trace := s.trace ++ [.read s.recOff 1 s.recLen, .sub s.avail 1] }

/-- One turn of `@hdr_loop`: `true` on leaving for `@hdr_complete`. -/
def hdrTurn (s : Hs κ) : Turn (Hs κ) (Hs κ × Bool) :=
  if 4 ≤ s.hdrHave then
    .leave (s, true)
  else if s.avail = 0 then
    .leave (if s.hdrHave = 0 then s else { s with hdrSplit := true }, false)
  else
    .again (dfHdrByte s)

/-- `@in_place`: the message is dispatched where it lies, its header four bytes back (offsets are
16-bit, relative to `tls_rec_buf`). -/
def dfInPlace (E : Env κ) (s : Hs κ) : Hs κ × Ret :=
  let ptr := sub16 (E.recBufAddr + s.recOff) 4
  let view : Buffer := fun i => s.recBuf (add16 (sub16 s.recOff 4) i)
  let s := s.foldRec E s.msgLen
  dfDispatch E ptr view { s with recOff := add16 s.recOff s.msgLen }

/-- The snapshot and the fold of the header, once the length is known. -/
def dfHdrFold (E : Env κ) (s : Hs κ) : Hs κ :=
  let len := word (s.hdr 2) (s.hdr 3)
  let bs := bytesAt s.hdr 0 4
  { s with
    msgLen := len
    msgRem := len
    snap := tlsTranscriptHash E.sha s.transcript
    transcript := tlsTranscriptUpdate E.sha s.transcript bs
    trace := s.trace ++ [.admitted s.tlsState (s.hdr 0), .fold bs] }

/-- The route of an admitted message. -/
def dfRoute (E : Env κ) (s : Hs κ) : Option (Hs κ × Ret) :=
  if s.hdrSplit = false ∧ s.msgLen ≤ s.avail then
    some (dfInPlace E s)
  else if s.hdr 0 = hsCertificate then
    dfStreamBegin E s
  else if dfCarryMaxBody < s.msgLen then
    some (dfFail s .tooBig)
  else
    some (dfCarryBody E (dfCarryBegin s))

/-- `@hdr_complete`: the sequence gate, the length check, the snapshot, the route. -/
def dfHdrComplete (E : Env κ) (s : Hs κ) : Option (Hs κ × Ret) :=
  if tlsHsSeqCheck s.tlsState (s.hdr 0) = false then
    some (dfFail s .seq)
  else if s.hdr 1 ≠ 0 then
    some (dfFail s .hdrLen)
  else
    dfRoute E (dfHdrFold E s)

def tlsDeframePump (E : Env κ) (s : Hs κ) : Option (Hs κ × Ret) :=
  let s := dfAvail s
  match s.mode with
  | .hdr =>
      match loop hdrTurn 5 s with
      | none => none
      | some (s, true) => dfHdrComplete E s
      | some (s, false) => some (dfNeedData s)
  | .carry => some (dfCarryBody E s)
  | .stream => dfStreamBody E s

end Tls
end C64Https
