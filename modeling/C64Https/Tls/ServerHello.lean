import C64Https.Lib.Loop
import C64Https.Lib.Word
import C64Https.Lib.Bytes
import C64Https.Tls.HsSeq

/-!
# ServerHello — the two readers of the ServerHello

* `tls_parse_server_hello` (`src/tls_handshake.s`), every build but the hybrid one: reads one record
  where it lies, through an 8-bit index, as far as the extension block says.
* `pq_sh_feed` (`src/crypto/pq_hybrid.s`), `PQ_HYBRID`: a byte machine fed record by record.
-/

namespace C64Https
namespace Tls

open Word Loop Bytes

/-! ## Error codes -/

/-- The `SH_ERR_*` codes; `none` is 0. -/
inductive ShErr where
  | none
  | hrr
  | recType
  | hdr
  | fixed
  | extLen
  | version
  | group
  | ksLen
  | trail
  | missing
  | pqDecaps
  | pqKeygen
  | ext
  | record
  deriving DecidableEq, Repr

/-- `hrr_magic`: the random of a HelloRetryRequest. -/
def hrrMagic : List UInt8 :=
  [0xCF, 0x21, 0xAD, 0x74, 0xE5, 0x9A, 0x61, 0x11, 0xBE, 0x1D, 0x8C, 0x02, 0x1E, 0x65, 0xB8, 0x91,
    0xC2, 0xA2, 0x11, 0x16, 0x7A, 0xBB, 0x8C, 0x5E, 0x07, 0x9E, 0x09, 0xE2, 0xC8, 0xA8, 0x33, 0x9C]

/-- `tls_sh_chk_hrr`. -/
def tlsShChkHrr (random : List UInt8) : Bool :=
  random == hrrMagic

/-! ## One record, where it lies -/

/-- What the parse leaves behind, and its cursors. -/
structure ShParse where
  shErr : ShErr
  serverRandom : List UInt8
  serverPubkey : List UInt8
  /-- the Y register -/
  y : Nat
  remHi : UInt8
  remLo : UInt8
  foundVer : UInt8
  foundKs : UInt8
  deriving DecidableEq, Repr

/-- `lda tls_rec_buf,y`, `n` bytes on. -/
def ShParse.at (p : ShParse) (buf : Buffer) (n : Nat) : UInt8 :=
  buf ((p.y + n) % 256)

def ShParse.skip (p : ShParse) (n : Nat) : ShParse :=
  { p with y := (p.y + n) % 256 }

def ShParse.span (p : ShParse) (buf : Buffer) (n : Nat) : List UInt8 :=
  (List.range n).map fun i => p.at buf i

/-- A subtraction from the low byte of the bytes remaining, with its borrow; the high byte of an
extension's length is taken off the low byte too. -/
def ShParse.less (p : ShParse) (n : UInt8) : ShParse :=
  { p with
    remLo := p.remLo - n
    remHi := if p.remLo < n then p.remHi - 1 else p.remHi }

/-- `supported_versions`. -/
def shSupVer (buf : Buffer) (p : ShParse) : Turn ShParse (ShParse × Bool) :=
  if p.at buf 0 ≠ 3 then .leave (p, false)
  else if p.at buf 1 ≠ 4 then .leave (p, false)
  else .again { p.skip 2 with foundVer := p.foundVer + 1 }

/-- `key_share`. -/
def shKeyShare (buf : Buffer) (p : ShParse) : Turn ShParse (ShParse × Bool) :=
  if p.at buf 0 ≠ 0 then .leave (p, false)
  else if p.at buf 1 ≠ 0x1d then .leave (p, false)
  else if p.at buf 2 ≠ 0 then .leave (p, false)
  else if p.at buf 3 ≠ 0x20 then .leave (p, false)
  else
    let p := p.skip 4
    .again { p.skip 32 with serverPubkey := p.span buf 32, foundKs := p.foundKs + 1 }

/-- One turn of `@sh_ext_loop`. -/
def shExtTurn (buf : Buffer) (p : ShParse) : Turn ShParse (ShParse × Bool) :=
  if p.remLo ||| p.remHi = 0 then
    .leave (p, decide (p.foundVer ≠ 0) && decide (p.foundKs ≠ 0))
  else
    let tyHi := p.at buf 0
    let tyLo := p.at buf 1
    let lenHi := p.at buf 2
    let lenLo := p.at buf 3
    let p := (((p.skip 4).less 4).less lenLo).less lenHi
    if tyHi = 0 ∧ tyLo = 0x2b then shSupVer buf p
    else if tyHi = 0 ∧ tyLo = 0x33 then shKeyShare buf p
    else if lenHi ≠ 0 then .leave (p, false)
    else .again (p.skip lenLo.toNat)

/-- `tls_parse_server_hello`.  Nothing bounds the extension loop but the bytes it reads: `fuel` is
how many turns are waited for. -/
def tlsParseServerHello (fuel : Nat) (buf : Buffer) (p : ShParse) : Option (ShParse × Bool) :=
  let p : ShParse := { p with shErr := .none, y := 0 }
  if p.at buf 0 ≠ hsServerHello then some (p, false)
  else
    let p : ShParse := p.skip 6
    let p : ShParse := { p.skip 32 with serverRandom := p.span buf 32 }
    if tlsShChkHrr p.serverRandom = true then some ({ p with shErr := .hrr }, false)
    else
      let p : ShParse := p.skip (1 + (p.at buf 0).toNat)
      if p.at buf 0 ≠ 0x13 then some (p, false)
      else if p.at buf 1 ≠ 0x03 then some (p, false)
      else if p.at buf 2 ≠ 0 then some (p, false)
      else
        loop (shExtTurn buf) fuel
          { p.skip 5 with
            remHi := p.at buf 3, remLo := p.at buf 4, foundVer := 0, foundKs := 0 }

/-! ## Record by record -/

/-- `shs_state`. -/
inductive ShsState where
  | hdr
  | ver
  | rnd
  | fix
  | exh
  | sv
  | ksh
  | ct
  | pub
  | done
  deriving DecidableEq, Repr

/-- `tab_cl`, `tab_ch`: how many bytes a field has. -/
def ShsState.len : ShsState → Nat
  | .hdr => 4
  | .ver => 2
  | .rnd => 32
  | .fix => 6
  | .exh => 4
  | .sv => 2
  | .ksh => 4
  | .ct => 1088
  | .pub => 32
  | .done => 0

structure ShReader where
  shErr : ShErr
  state : ShsState
  /-- bytes left in the field -/
  cnt : Nat
  /-- bytes left in the message -/
  rem : Nat
  /-- length of the extension being read -/
  d : Nat
  /-- the bytes of the field so far, which go to its destination -/
  field : List UInt8
  seenVer : Bool
  seenKs : Bool
  offered : Bool
  kexGroup : UInt8
  serverRandom : List UInt8
  ciphertext : List UInt8
  serverPubkey : List UInt8
  deriving DecidableEq, Repr

namespace ShReader

def f (r : ShReader) (i : Nat) : UInt8 :=
  r.field.getD i 0

/-- `shs_arm`. -/
def arm (r : ShReader) (st : ShsState) : Turn ShReader ShReader :=
  .again { r with state := st, cnt := st.len, field := [] }

/-- `shs_fail`. -/
def fail (r : ShReader) (e : ShErr) : Turn ShReader ShReader :=
  .leave { r with shErr := e }

/-- `pq_sh_init`. -/
def init (r : ShReader) : ShReader :=
  { r with
    shErr := .none, seenVer := false, seenKs := false, kexGroup := 0
    state := .hdr, cnt := ShsState.hdr.len, field := [] }

/-- `ext_next`: another extension header, or the end of the message. -/
def extNext (r : ShReader) : Turn ShReader ShReader :=
  if r.rem = 0 then
    if r.seenVer && r.seenKs then r.arm .done else r.fail .missing
  else if r.rem < 4 then r.fail .extLen
  else r.arm .exh

/-! ### Handlers, run when a field is complete -/

def hHdr (r : ShReader) : Turn ShReader ShReader :=
  if r.f 0 ≠ hsServerHello then r.fail .hdr
  else if r.f 1 ≠ 0 then r.fail .hdr
  else if 6 ≤ r.f 2 then r.fail .hdr
  else
    let r := { r with rem := word (r.f 2) (r.f 3) }
    if r.rem < 40 then r.fail .hdr else r.arm .ver

def hRnd (r : ShReader) : Turn ShReader ShReader :=
  let r := { r with serverRandom := r.field }
  if tlsShChkHrr r.serverRandom then r.fail .hrr else r.arm .fix

def hFix (r : ShReader) : Turn ShReader ShReader :=
  if r.f 0 ≠ 0 then r.fail .fixed
  else if r.f 1 ≠ 0x13 then r.fail .fixed
  else if r.f 2 ≠ 0x03 then r.fail .fixed
  else if r.f 3 ≠ 0 then r.fail .fixed
  else if word (r.f 4) (r.f 5) ≠ r.rem then r.fail .extLen
  else r.extNext

def hExh (r : ShReader) : Turn ShReader ShReader :=
  let r := { r with d := word (r.f 2) (r.f 3) }
  if r.rem < r.d then r.fail .extLen
  else if r.f 0 ≠ 0 then r.fail .ext
  else if r.f 1 = 0x2b then
    if r.seenVer then r.fail .version
    else if r.d ≠ 2 then r.fail .version
    else r.arm .sv
  else if r.f 1 = 0x33 then
    if r.seenKs then r.fail .ksLen
    else if r.d < 4 then r.fail .ksLen
    else r.arm .ksh
  else r.fail .ext

def hSv (r : ShReader) : Turn ShReader ShReader :=
  if r.f 0 ≠ 3 then r.fail .version
  else if r.f 1 ≠ 4 then r.fail .version
  else { r with seenVer := true }.extNext

def hKsh (r : ShReader) : Turn ShReader ShReader :=
  if add16 (word (r.f 2) (r.f 3)) 4 ≠ r.d then r.fail .ksLen
  else if r.f 0 = 0 then
    if r.f 1 ≠ 0x1d then r.fail .group
    else if word (r.f 2) (r.f 3) ≠ 32 then r.fail .ksLen
    else { r with kexGroup := 0x1d }.arm .pub
  else if r.f 0 ≠ 0x11 then r.fail .group
  else if r.f 1 ≠ 0xec then r.fail .group
  else if r.offered = false then r.fail .group
  else if word (r.f 2) (r.f 3) ≠ 1120 then r.fail .ksLen
  else { r with kexGroup := 0xec }.arm .ct

def handler (r : ShReader) : Turn ShReader ShReader :=
  match r.state with
  | .hdr => r.hHdr
  | .ver => r.arm .rnd
  | .rnd => r.hRnd
  | .fix => r.hFix
  | .exh => r.hExh
  | .sv => r.hSv
  | .ksh => r.hKsh
  | .ct => { r with ciphertext := r.field }.arm .pub
  | .pub => { r with serverPubkey := r.field, seenKs := true }.extNext
  | .done => .again r

/-- `shs_byte`. -/
def byte (r : ShReader) (b : UInt8) : Turn ShReader ShReader :=
  if r.state = .done then r.fail .trail
  else
    let r := { r with
      field := r.field ++ [b]
      rem := if r.state = .hdr then r.rem else sub16 r.rem 1
      cnt := sub16 r.cnt 1 }
    if r.cnt = 0 then r.handler else .again r

/-- `pq_sh_feed` on a record: refused, or fed, with `true` when the message is complete. -/
def pqShFeed (r : ShReader) (recType : UInt8) (bs : List UInt8) : Turn (ShReader × Bool) ShReader :=
  if recType ≠ ctHandshake ∨ bs = [] then
    .leave { r with shErr := .recType }
  else
    (feed byte r bs).bind fun r => .again (r, decide (r.state = .done))

end ShReader

end Tls
end C64Https
