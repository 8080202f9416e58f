import C64Https.Lib.Loop
import C64Https.Lib.Word
import C64Https.Lib.Bytes

/-!
# Parser — the response parser (`src/http.s`)

`http_recv_response` is called again and again with whatever has arrived, and keeps all of its state
between the calls.  It reads the status line, the header lines through a 32-byte line buffer, and
then the body, as it stands or out of its chunks.  Each byte of the body is counted, and stored in a
512-byte buffer: as far as there is room, or by way of the buffer into the REU (`http_body_sink`).
-/

namespace C64Https
namespace Http

open Word Loop Bytes

/-! ## State -/

/-- `http_parse_state`. -/
inductive ParseState where
  | status
  | headers
  | body
  deriving DecidableEq, Repr

/-- `http_chunk_state`. -/
inductive ChunkState where
  | size
  | skip
  | data
  | crlf
  | final
  deriving DecidableEq, Repr

/-- The build, and what is set up before a response. -/
structure HttpEnv where
  /-- `BACKEND_UCI`: the sink is linked -/
  uci : Bool
  /-- `http_body_sink` -/
  bodySink : Bool
  /-- `reu_size_ok`, `reu_top_bank` -/
  reuSizeOk : Bool
  reuTopBank : Nat
  /-- `http_reu_body_base` -/
  reuBodyBase : Nat

structure Response where
  status : Nat
  parseState : ParseState
  lineIdx : Nat
  lineBuf : Buffer
  clValid : Bool
  contentLength : Nat
  chunked : Bool
  chunkState : ChunkState
  chunkRem : Nat
  bodyTotal : Nat
  respLen : Nat
  respBuf : Buffer
  sinkFlushed : Bool
  sinkFull : Bool
  sinkRoom : Nat
  reuCursor : Nat
  /-- the REU, by 24-bit address -/
  reu : Buffer

/-! ## The sink -/

/-- `http_sink_room`: the REU behind the base, none below bank 3 or outside the probed size. -/
def sinkRoomInit (E : HttpEnv) : Nat :=
  if E.reuSizeOk = false then 0
  else
    let banks := inc8 E.reuTopBank
    let baseBank := E.reuBodyBase / 65536
    if baseBank < 3 then 0
    else if banks ≠ 0 ∧ banks ≤ baseBank then 0
    else (banks * 65536 + 16777216 - E.reuBodyBase % 16777216) % 16777216

/-- `sink_fits`: the block ends in the region, and none has been refused. -/
def sinkFits (h : Response) : Bool :=
  !h.sinkFull && decide (h.reuCursor + h.respLen ≤ h.sinkRoom)

/-- `http_sink_blit`. -/
def sinkBlit (E : HttpEnv) (h : Response) : Response :=
  if h.respLen = 0 then h
  else if sinkFits h then
    { h with
      reu := store h.reu ((E.reuBodyBase + h.reuCursor) % 16777216) (bytesAt h.respBuf 0 h.respLen)
      reuCursor := (h.reuCursor + h.respLen) % 16777216 }
  else { h with sinkFull := true }

/-- `http_body_finish`: the last blit, and the first 512 bytes back in the buffer. -/
def bodyFinish (E : HttpEnv) (h : Response) : Response :=
  if E.uci = false then h
  else if E.bodySink = false then h
  else if h.sinkFlushed then h
  else
    let h := sinkBlit E { h with sinkFlushed := true }
    let h := { h with respLen := if h.bodyTotal < 512 then h.bodyTotal else 512 }
    { h with respBuf := store h.respBuf 0 (bytesAt h.reu E.reuBodyBase h.respLen) }

/-! ## Resets -/

/-- `http_hdr_init`. -/
def hdrInit (h : Response) : Response :=
  { h with clValid := false, chunked := false, chunkState := .size, chunkRem := 0 }

/-- `http_body_begin`. -/
def bodyBegin (E : HttpEnv) (h : Response) : Response :=
  let h := { h with respLen := 0, bodyTotal := 0, reuCursor := 0, sinkFlushed := false }
  if E.uci then { h with sinkFull := false, sinkRoom := sinkRoomInit E } else h

/-- `http_resp_init`. -/
def respInit (E : HttpEnv) (h : Response) : Response :=
  bodyBegin E (hdrInit { h with status := 0, parseState := .status, lineIdx := 0 })

/-! ## Lines -/

def lf : UInt8 := 0x0a

def cr : UInt8 := 0x0d

/-- A byte of a line, dropped from the 32nd on. -/
def lineByte (h : Response) (b : UInt8) : Response :=
  if 31 ≤ h.lineIdx then h
  else { h with lineBuf := Function.update h.lineBuf h.lineIdx b, lineIdx := inc8 h.lineIdx }

/-- `@parse_status_line`: the three digits at 9, 10 and 11, whatever they are. -/
def statusOf (line : Buffer) : Nat :=
  100 * (line 9 - 0x30).toNat + 10 * (line 10 - 0x30).toNat + (line 11 - 0x30).toNat

/-- `cl_pattern` and `te_pattern`. -/
def clPattern : List UInt8 :=
  "content-length: ".toList.map fun c => UInt8.ofNat c.toNat

def tePattern : List UInt8 :=
  "transfer-encoding: chunked".toList.map fun c => UInt8.ofNat c.toNat

/-- The compare of the line with a pattern, each byte with bit 5 set. -/
def lineMatches (h : Response) (pattern : List UInt8) : Bool :=
  decide (pattern.length ≤ h.lineIdx) &&
    (bytesAt h.lineBuf 0 pattern.length).map (· ||| 0x20) == pattern

/-- `@ccl_digit_loop`: decimal digits up to the first other byte, in 24 bits. -/
def decimal : Nat → List UInt8 → Nat
  | n, [] => n
  | n, b :: bs =>
      if b < 0x30 then n
      else if 0x3a ≤ b then n
      else decimal ((n * 10 + (b - 0x30).toNat) % 16777216) bs

/-- `check_content_length`. -/
def checkContentLength (h : Response) : Response :=
  if lineMatches h clPattern then
    { h with
      clValid := true
      contentLength := decimal 0 (bytesAt h.lineBuf 16 (h.lineIdx - 16)) }
  else h

/-- `check_transfer_encoding`. -/
def checkTransferEncoding (h : Response) : Response :=
  if lineMatches h tePattern then { h with chunked := true } else h

/-! ## The body -/

/-- `body_append`. -/
def bodyAppend (E : HttpEnv) (h : Response) (b : UInt8) : Response :=
  let h := { h with bodyTotal := inc24 h.bodyTotal }
  if 512 ≤ h.respLen then h
  else
    let h := { h with
      respBuf := Function.update h.respBuf h.respLen b
      respLen := inc16 h.respLen }
    if E.uci = true ∧ E.bodySink = true ∧ 512 ≤ h.respLen then
      { sinkBlit E h with respLen := 0 }
    else h

/-- `http_body_done_check`. -/
def bodyDone (h : Response) : Bool :=
  h.clValid && decide (h.bodyTotal = h.contentLength)

/-- `hex_digit`. -/
def hexDigit (b : UInt8) : Option Nat :=
  if b < 0x30 then none
  else if b < 0x3a then some (b &&& 0x0f).toNat
  else
    let c := b ||| 0x20
    if c < 0x61 then none
    else if 0x67 ≤ c then none
    else some (c.toNat - 0x61 + 10)

/-- `@size_eol`: the terminal chunk, or payload. -/
def sizeEol (h : Response) : Response :=
  if h.chunkRem = 0 then { h with chunkState := .final, lineIdx := 0 }
  else { h with chunkState := .data }

/-- `@cs_size`. -/
def sizeByte (h : Response) (b : UInt8) : Response :=
  if b = lf then sizeEol h
  else
    match hexDigit b with
    | none => { h with chunkState := .skip }
    | some d =>
        if 1048576 ≤ h.chunkRem then { h with chunkRem := 16777215, chunkState := .skip }
        else { h with chunkRem := h.chunkRem * 16 + d }

/-- `@cs_data`. -/
def dataByte (E : HttpEnv) (h : Response) (b : UInt8) : Response :=
  let h := bodyAppend E h b
  let h := { h with chunkRem := dec24 h.chunkRem }
  if h.chunkRem = 0 then { h with chunkState := .crlf } else h

/-- `@cs_final`: the line index counts the bytes of a trailer line. -/
def finalByte (h : Response) (b : UInt8) : Turn Response Response :=
  if b = lf then
    if h.lineIdx = 0 then .leave h else .again { h with lineIdx := 0 }
  else if b = cr then .again h
  else .again { h with lineIdx := inc8 h.lineIdx }

/-- `http_state_body_chunked`, on one byte. -/
def chunkedByte (E : HttpEnv) (h : Response) (b : UInt8) : Turn Response Response :=
  match h.chunkState with
  | .size => .again (sizeByte h b)
  | .skip => .again (if b = lf then sizeEol h else h)
  | .data => .again (dataByte E h b)
  | .crlf => .again (if b = lf then { h with chunkState := .size } else h)
  | .final => finalByte h b

/-! ## Status line and headers -/

/-- `@state_status`. -/
def statusByte (h : Response) (b : UInt8) : Response :=
  if b = lf then
    hdrInit { h with status := statusOf h.lineBuf, parseState := .headers, lineIdx := 0 }
  else lineByte h b

/-- `@state_headers`: an empty line ends them. -/
def headerByte (E : HttpEnv) (h : Response) (b : UInt8) : Response :=
  if b = lf then
    if h.lineIdx = 0 then bodyBegin E { h with parseState := .body }
    else { checkTransferEncoding (checkContentLength h) with lineIdx := 0 }
  else if b = cr then h
  else lineByte h b

/-! ## The parser -/

/-- `jsr http_body_done_check` in `@plain`, before the next byte is read. -/
def complete (h : Response) : Bool :=
  decide (h.parseState = .body) && !h.chunked && bodyDone h

/-- One byte, in whatever state the parser is. -/
def parseByte (E : HttpEnv) (h : Response) (b : UInt8) : Turn Response Response :=
  match h.parseState with
  | .status => .again (statusByte h b)
  | .headers => .again (headerByte E h b)
  | .body => if h.chunked then chunkedByte E h b else .again (bodyAppend E h b)

/-- `http_recv_response` over the bytes at hand: what is left of them, and whether the response is
complete. -/
def recvFrom (E : HttpEnv) (h : Response) (bs : List UInt8) : Response × List UInt8 × Bool :=
  if complete h then (bodyFinish E h, bs, true)
  else
    match bs with
    | [] => (h, [], false)
    | b :: bs =>
        match parseByte E h b with
        | .again h => recvFrom E h bs
        | .leave h => (bodyFinish E h, bs, true)

/-! ## Input -/

/-- `http_in_mode`. -/
inductive InMode where
  | ring
  | span
  deriving DecidableEq, Repr

/-- Where the bytes come from: the receive ring, or the record that was just decrypted. -/
structure Input where
  mode : InMode
  ring : List UInt8
  span : List UInt8

/-- `http_in_byte`. -/
def Input.byte (i : Input) : Option (UInt8 × Input) :=
  match i.mode with
  | .ring =>
      match i.ring with
      | [] => none
      | b :: ring => some (b, { i with ring := ring })
  | .span =>
      match i.span with
      | [] => none
      | b :: span => some (b, { i with span := span })

/-- The bytes that `http_in_byte` will give. -/
def Input.pending (i : Input) : List UInt8 :=
  match i.mode with
  | .ring => i.ring
  | .span => i.span

def Input.withPending (i : Input) (bs : List UInt8) : Input :=
  match i.mode with
  | .ring => { i with ring := bs }
  | .span => { i with span := bs }

theorem Input.byte_eq (i : Input) :
    i.byte = match i.pending with
      | [] => none
      | b :: bs => some (b, i.withPending bs) := by
  obtain ⟨mode, ring, span⟩ := i
  cases mode with
  | ring => cases ring <;> rfl
  | span => cases span <;> rfl

/-- `http_recv_response`. -/
def httpRecvResponse (E : HttpEnv) (h : Response) (i : Input) : Response × Input × Bool :=
  let r := recvFrom E h i.pending
  (r.1, i.withPending r.2.1, r.2.2)

end Http
end C64Https
