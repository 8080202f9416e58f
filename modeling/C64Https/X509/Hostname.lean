import C64Https.Lib.Loop
import C64Https.Lib.Word
import C64Https.Lib.Bytes

/-!
# Hostname — the name in the certificate (`src/x509_name.s`, `src/der_decode.s`)

`x509_verify_hostname` walks a leaf certificate with one 16-bit cursor: through the certificate to
the extensions, through these to the subjectAltName, and through its names to one that is the host's.
It reads memory wherever the lengths in the certificate lead it.
-/

namespace C64Https
namespace X509

open Word Loop Bytes

/-! ## `der_decode.s` -/

/-- A read through the cursor, which wraps at the top of memory. -/
def peek (m : Buffer) (a : Nat) : UInt8 :=
  m (a % 65536)

/-- `der_read_tag`: the tag, and the cursor behind it. -/
def derReadTag (m : Buffer) (p : Nat) : UInt8 × Nat :=
  (peek m p, inc16 p)

/-- `der_read_length`: `der_len`, and the cursor behind it.  A form that is not known is a length of
0, and the cursor stays on it. -/
def derReadLength (m : Buffer) (p : Nat) : Nat × Nat :=
  let b := peek m p
  if b < 0x80 then (b.toNat, inc16 p)
  else if b = 0x81 then ((peek m (p + 1)).toNat, add16 p 2)
  else if b = 0x82 then (word (peek m (p + 1)) (peek m (p + 2)), add16 p 3)
  else (0, p)

/-- `der_skip`. -/
def derSkip (p len : Nat) : Nat :=
  add16 p len

/-- `der_read_length` and `der_skip`. -/
def skipValue (m : Buffer) (p : Nat) : Nat :=
  let l := derReadLength m p
  derSkip l.2 l.1

/-- `der_skip_tlv`. -/
def derSkipTlv (m : Buffer) (p : Nat) : Nat :=
  skipValue m (derReadTag m p).2

/-! ## `match_name` -/

/-- `to_lower`. -/
def toLower (b : UInt8) : UInt8 :=
  if b < 0x41 then b
  else if 0x5b ≤ b then b
  else b + 0x20

/-- `@lengths` and `@cmp_loop`. -/
def sameName (name host : List UInt8) : Bool :=
  decide (name.length = host.length) && (name.map toLower == host.map toLower)

def dot : UInt8 := 0x2e

def star : UInt8 := 0x2a

/-- `@find_dot`: the host behind its first dot. -/
def behindDot (host : List UInt8) : Option (List UInt8) :=
  match host.dropWhile (· != dot) with
  | [] => none
  | _ :: rest => some rest

/-- `match_name`, of a name below 256 bytes. -/
def matchName (name host : List UInt8) : Bool :=
  match name with
  | [] => false
  | c :: tail =>
      if c ≠ star then sameName name host
      else if name.length < 3 then false
      else if tail.head? ≠ some dot then false
      else if dot ∉ name.drop 2 then false
      else
        match behindDot host with
        | none => false
        | some rest => sameName (name.drop 2) rest

/-- The bytes at the cursor. -/
def bytesFrom (m : Buffer) (p n : Nat) : List UInt8 :=
  (List.range n).map fun i => peek m (p + i)

/-! ## `x509_verify_hostname` -/

/-- From the certificate to the fields behind subjectPublicKeyInfo: the cursor, and the end of the
TBSCertificate. -/
def openTbs (m : Buffer) (base : Nat) : Option (Nat × Nat) :=
  let cert := derReadTag m base
  if cert.1 ≠ 0x30 then none
  else
    let tbs := derReadTag m (derReadLength m cert.2).2
    if tbs.1 ≠ 0x30 then none
    else
      let l := derReadLength m tbs.2
      let limit := add16 l.2 l.1
      let version := derReadTag m l.2
      let p :=
        if version.1 = 0xa0 then derSkipTlv m (skipValue m version.2)
        else skipValue m version.2
      -- signature, issuer, validity, subject, subjectPublicKeyInfo
      let p := derSkipTlv m (derSkipTlv m (derSkipTlv m (derSkipTlv m (derSkipTlv m p))))
      some (p, limit)

/-- One turn of `@scan_opt`: it leaves at the limit, or behind the tag of the extensions. -/
def scanOptTurn (m : Buffer) (limit p : Nat) : Turn Nat (Option Nat) :=
  if limit ≤ p then .leave none
  else
    let t := derReadTag m p
    if t.1 = 0xa3 then .leave (some t.2)
    else .again (skipValue m t.2)

/-- `@found_exts`: the cursor at the first extension, and the end of the list. -/
def foundExts (m : Buffer) (p : Nat) : Option (Nat × Nat) :=
  let exts := derReadTag m (derReadLength m p).2
  if exts.1 ≠ 0x30 then none
  else
    let l := derReadLength m exts.2
    some (l.2, add16 l.2 l.1)

/-- `2.5.29.17`. -/
def sanOid : List UInt8 :=
  [0x55, 0x1d, 0x11]

/-- One turn of `@ext_loop`: it leaves at the limit, at something that is no extension, or at the
value of the identifier of the subjectAltName. -/
def extTurn (m : Buffer) (limit p : Nat) : Turn Nat (Option Nat) :=
  if limit ≤ p then .leave none
  else
    let t := derReadTag m p
    if t.1 ≠ 0x30 then .leave none
    else
      let l := derReadLength m t.2
      let thisEnd := add16 l.2 l.1
      let oid := derReadTag m l.2
      if oid.1 ≠ 0x06 then .again thisEnd
      else
        let k := derReadLength m oid.2
        if k.1 = 3 ∧ bytesFrom m k.2 3 = sanOid then .leave (some k.2)
        else .again thisEnd

/-- `@found_san`: the cursor at the first name, and the end of the names. -/
def foundSan (m : Buffer) (p : Nat) : Option (Nat × Nat) :=
  let critical := derReadTag m (derSkip p 3)
  let t := if critical.1 = 0x01 then derReadTag m (skipValue m critical.2) else critical
  if t.1 ≠ 0x04 then none
  else
    let names := derReadTag m (derReadLength m t.2).2
    if names.1 ≠ 0x30 then none
    else
      let l := derReadLength m names.2
      some (l.2, add16 l.2 l.1)

/-- One turn of `@name_loop`: `true` at a name that matches, `false` at the limit. -/
def nameTurn (m : Buffer) (host : List UInt8) (limit p : Nat) : Turn Nat Bool :=
  if limit ≤ p then .leave false
  else
    let t := derReadTag m p
    let l := derReadLength m t.2
    if t.1 = 0x82 ∧ l.1 < 256 ∧ matchName (bytesFrom m l.2 l.1) host = true then .leave true
    else .again (derSkip l.2 l.1)

/-- `x509_verify_hostname`, with a bound on the turns of each scan; `true` for carry clear. -/
def x509VerifyHostname (m : Buffer) (base : Nat) (host : List UInt8) (n : Nat) : Option Bool :=
  if host = [] then some false
  else
    match openTbs m base with
    | none => some false
    | some (p, limit) =>
        match loop (scanOptTurn m limit) n p with
        | none => none
        | some none => some false
        | some (some p) =>
            match foundExts m p with
            | none => some false
            | some (p, limit) =>
                match loop (extTurn m limit) n p with
                | none => none
                | some none => some false
                | some (some p) =>
                    match foundSan m p with
                    | none => some false
                    | some (p, limit) => loop (nameTurn m host limit) n p

end X509
end C64Https
