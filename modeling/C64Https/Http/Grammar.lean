import C64Https.Http.Split

/-!
# Grammar — well-formed HTTP/1.1 responses

What a server sends: a status line, header lines of which one declares the framing, and a body, as
it stands or in chunks.  The structures carry the grammar, so that every `WireResponse` is
well formed; `WireResponse.bytes` is its wire image and `WireResponse.payload` its content.
-/

namespace C64Https
namespace Http

open Word Loop Bytes

/-! ## Characters -/

/-- A character of a value, of a reason or of a chunk extension: no control character but the
tab. -/
def IsText (b : UInt8) : Prop :=
  b = 0x09 ∨ (0x20 ≤ b ∧ b ≠ 0x7f)

def colon : UInt8 := 0x3a

def space : UInt8 := 0x20

/-- A character of a field name. -/
def IsName (b : UInt8) : Prop :=
  0x21 ≤ b ∧ b ≤ 0x7e ∧ b ≠ colon

def lowercase (b : UInt8) : UInt8 :=
  if 0x41 ≤ b ∧ b ≤ 0x5a then b + 0x20 else b

/-- A line and its end. -/
def endLine (line : List UInt8) : List UInt8 :=
  line ++ [cr, lf]

/-! ## Fields -/

structure Field where
  name : List UInt8
  /-- with the white space around it -/
  value : List UInt8
  name_ne : name ≠ []
  name_text : ∀ b ∈ name, IsName b
  value_text : ∀ b ∈ value, IsText b

def Field.line (f : Field) : List UInt8 :=
  f.name ++ colon :: f.value

def contentLengthName : List UInt8 := ascii "content-length"

def transferEncodingName : List UInt8 := ascii "transfer-encoding"

/-- A field that says nothing of the framing. -/
def Field.Plain (f : Field) : Prop :=
  f.name.map lowercase ≠ contentLengthName ∧ f.name.map lowercase ≠ transferEncodingName

/-! ## Numbers -/

def decimalByte (d : Fin 10) : UInt8 :=
  UInt8.ofNat (0x30 + d.val)

def decimalValue (ds : List (Fin 10)) : Nat :=
  ds.foldl (fun n d => n * 10 + d.val) 0

/-- A hexadecimal digit in either case. -/
structure HexDigit where
  value : Fin 16
  upper : Bool

def HexDigit.byte (d : HexDigit) : UInt8 :=
  if d.value.val < 10 then UInt8.ofNat (0x30 + d.value.val)
  else if d.upper then UInt8.ofNat (0x41 + (d.value.val - 10))
  else UInt8.ofNat (0x61 + (d.value.val - 10))

def hexValue (ds : List HexDigit) : Nat :=
  ds.foldl (fun n d => n * 16 + d.value.val) 0

/-! ## Bodies -/

/-- The line in front of a chunk: its size and its extension. -/
structure SizeLine where
  digits : List HexDigit
  extension : List UInt8
  digits_ne : digits ≠ []
  extension_text : ∀ b ∈ extension, IsText b
  /-- `;`, or white space in front of it -/
  extension_head : ∀ b, extension.head? = some b → b = 0x3b ∨ b = space ∨ b = 0x09

def SizeLine.size (s : SizeLine) : Nat :=
  hexValue s.digits

def SizeLine.line (s : SizeLine) : List UInt8 :=
  s.digits.map HexDigit.byte ++ s.extension

structure Chunk where
  head : SizeLine
  data : List UInt8
  size_eq : head.size = data.length
  size_pos : 0 < head.size
  size_lt : head.size < 16777216

def Chunk.bytes (c : Chunk) : List UInt8 :=
  endLine c.head.line ++ endLine c.data

inductive Body where
  | identity (payload : List UInt8)
  | chunked (chunks : List Chunk) (last : SizeLine) (hlast : last.size = 0) (trailers : List Field)

def Body.payload : Body → List UInt8
  | .identity payload => payload
  | .chunked chunks _ _ _ => chunks.flatMap Chunk.data

def Body.trailers : Body → List Field
  | .identity _ => []
  | .chunked _ _ _ trailers => trailers

def fieldLines (fs : List Field) : List UInt8 :=
  fs.flatMap fun f => endLine f.line

/-- The body up to its trailer lines. -/
def Body.front : Body → List UInt8
  | .identity payload => payload
  | .chunked chunks last _ _ => chunks.flatMap Chunk.bytes ++ endLine last.line

def Body.bytes (b : Body) : List UInt8 :=
  match b with
  | .identity _ => b.front
  | .chunked _ _ _ _ => b.front ++ (fieldLines b.trailers ++ endLine [])

/-- The header line that declares a body, its name in either case. -/
def Body.Declares (line : List UInt8) : Body → Prop
  | .identity payload =>
      ∃ (name : List UInt8) (digits : List (Fin 10)),
        name.map lowercase = contentLengthName ∧
        line = name ++ [colon, space] ++ digits.map decimalByte ∧
        digits ≠ [] ∧ digits.length ≤ 8 ∧
        decimalValue digits = payload.length ∧ payload.length < 16777216
  | .chunked _ _ _ _ => line.map lowercase = transferEncodingName ++ [colon, space] ++ ascii "chunked"

/-! ## Responses -/

structure WireResponse where
  /-- the three digits of the code -/
  hundreds : Fin 10
  tens : Fin 10
  ones : Fin 10
  reason : List UInt8
  reason_text : ∀ b ∈ reason, IsText b
  /-- the fields around the one that declares the framing -/
  before : List Field
  framing : List UInt8
  after : List Field
  body : Body
  before_plain : ∀ f ∈ before, f.Plain
  after_plain : ∀ f ∈ after, f.Plain
  declares : body.Declares framing

namespace WireResponse

def code (r : WireResponse) : Nat :=
  100 * r.hundreds.val + 10 * r.tens.val + r.ones.val

def statusLine (r : WireResponse) : List UInt8 :=
  ascii "HTTP/1.1 " ++ [r.hundreds, r.tens, r.ones].map decimalByte ++ space :: r.reason

/-- The status line and the header block. -/
def head (r : WireResponse) : List UInt8 :=
  endLine r.statusLine ++ fieldLines r.before ++ endLine r.framing ++ fieldLines r.after ++
    endLine []

def payload (r : WireResponse) : List UInt8 :=
  r.body.payload

def bytes (r : WireResponse) : List UInt8 :=
  r.head ++ r.body.bytes

end WireResponse

end Http
end C64Https
