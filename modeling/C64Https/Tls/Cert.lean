import C64Https.Tls.Deframe

/-!
# Cert — the Certificate handler and the key extractor (`src/tls_cert.s`)

The extractor does not parse the certificate: it scans for the ecPublicKey and prime256v1 OIDs,
then for a BIT STRING, and copies the point behind it.  All pointers are absolute 16-bit addresses
and only the scan pointer is compared with the end of the certificate, so the tail of a match may
lie beyond it; `view` is the memory, seen from the address of the certificate.

What runs on a copied key (the trust or pin hook, the name check, or nothing) depends on the build;
it is the parameter `hook`, which is given the pointer to Qy and the certificate.
-/

namespace C64Https
namespace Tls

open Word Bytes

/-- `ecdsa_pubkey_x`, `ecdsa_pubkey_y` and what is set with them; `κ` is the state of the hook. -/
structure LeafKeys (κ : Type) where
  pubkeyX : List UInt8
  pubkeyY : List UInt8
  curveId : Nat
  sigLen : Nat
  hashLen : Nat
  hook : κ

/-- The hook: the pointer to Qy, the address, the length and the memory of the certificate. -/
abbrev KeyHook (κ : Type) := Nat → Nat → Nat → Buffer → κ → κ × Bool

/-- ecPublicKey, then prime256v1, each with its tag and length. -/
def ecP256Oids : List UInt8 :=
  [0x06, 0x07, 0x2a, 0x86, 0x48, 0xce, 0x3d, 0x02, 0x01,
    0x06, 0x08, 0x2a, 0x86, 0x48, 0xce, 0x3d, 0x03, 0x01, 0x07]

/-- `lda (zp_ptr),y` with `zp_ptr = a`. -/
def peek (ptr : Nat) (view : Buffer) (a y : Nat) : UInt8 :=
  view (sub16 (add16 a y) ptr)

/-- The `n` bytes at address `a`. -/
def peeks (ptr : Nat) (view : Buffer) (a n : Nat) : List UInt8 :=
  (List.range n).map (peek ptr view a)

/-- A scan that advances `zp_ptr` by one until `p` holds; `n` is what is left up to `cert_end`. -/
def scan (p : Nat → Bool) : Nat → Nat → Option Nat
  | 0, _ => none
  | n + 1, a => if p a then some a else scan p n (add16 a 1)

/-- `@scan_loop`: the address behind the two OIDs. -/
def scanOid (ptr : Nat) (view : Buffer) (certEnd : Nat) : Option Nat :=
  match scan (fun a => peeks ptr view a 19 == ecP256Oids) (certEnd - ptr) ptr with
  | none => none
  | some a => some (add16 a 19)

/-- `@bs_scan`. -/
def scanBitString (ptr : Nat) (view : Buffer) (certEnd a : Nat) : Option Nat :=
  scan (fun a => peek ptr view a 0 == 0x03) (certEnd - a) a

/-- `@bs_found`: past the length of the BIT STRING, whose value is not used. -/
def bitStringHeader (ptr : Nat) (view : Buffer) (a : Nat) : Nat :=
  if peek ptr view a 1 = 0x81 then 3
  else if peek ptr view a 1 = 0x82 then 4
  else 2

/-- `@bs_skip_unused`: no unused bits, an uncompressed point; the address of Qx. -/
def pointAt (ptr : Nat) (view : Buffer) (a : Nat) : Option Nat :=
  let y := bitStringHeader ptr view a
  if peek ptr view a y ≠ 0x00 then none
  else if peek ptr view a (y + 1) ≠ 0x04 then none
  else some (add16 a (y + 2))

variable {κ : Type}

/-- `@copy_x_p256_loop` up to the tail call at `@copy_y_done`. -/
def copyPoint (hook : KeyHook κ) (ptr : Nat) (view : Buffer) (len a : Nat) (s : LeafKeys κ) :
    LeafKeys κ × Bool :=
  let qy := add16 a 32
  let r := hook qy ptr len view s.hook
  ({ s with
    pubkeyX := peeks ptr view a 32
    pubkeyY := peeks ptr view qy 32
    hook := r.1 }, r.2)

/-- `x509_extract_pubkey` on the certificate of `len` bytes at `ptr`. -/
def x509ExtractPubkey (hook : KeyHook κ) (ptr : Nat) (view : Buffer) (len : Nat)
    (s : LeafKeys κ) : LeafKeys κ × Bool :=
  let certEnd := add16 ptr len
  match scanOid ptr view certEnd with
  | none => (s, false)
  | some a =>
      -- the curve is recorded as soon as its OID is seen
      let s := { s with curveId := 0, sigLen := 32, hashLen := 32 }
      match scanBitString ptr view certEnd a with
      | none => (s, false)
      | some b =>
          match pointAt ptr view b with
          | none => (s, false)
          | some q => copyPoint hook ptr view len q s

/-- `tls_handle_certificate` on the message at `ptr`.  Only the first entry is read: neither the
length of the list nor anything behind `cert_data` is looked at. -/
def tlsHandleCertificate (hook : KeyHook κ) (ptr : Nat) (view : Buffer) (s : LeafKeys κ) :
    LeafKeys κ × Bool :=
  if view 0 ≠ hsCertificate then (s, false)
  else if view 4 ≠ 0 then (s, false)
  else if view 5 ≠ 0 then (s, false)
  else if view 8 ≠ 0 then (s, false)
  else
    x509ExtractPubkey hook (add16 ptr 11) (fun i => view (add16 i 11)) (word (view 9) (view 10)) s

/-- `tls_cert_stream_finish` on the leaf staged in `cert_buf`. -/
def tlsCertStreamFinish (hook : KeyHook κ) (certBufAddr : Nat) (certBuf : Buffer) (len : Nat)
    (s : LeafKeys κ) : LeafKeys κ × Bool :=
  x509ExtractPubkey hook certBufAddr certBuf len s

/-- The deframer's environment with the Certificate handlers of this module. -/
def Env.withCert (E : Env (LeafKeys κ)) (hook : KeyHook κ) (certBufAddr : Nat) :
    Env (LeafKeys κ) :=
  { E with
    tlsHandleCertificate := Tls.tlsHandleCertificate hook
    tlsCertStreamFinish := Tls.tlsCertStreamFinish hook certBufAddr }

/-- The checks that `tls_handle_certificate` makes before it goes to the leaf. -/
def HeaderOk (view : Buffer) : Prop :=
  view 4 = 0 ∧ view 5 = 0 ∧ view 8 = 0

instance (view : Buffer) : Decidable (HeaderOk view) :=
  inferInstanceAs (Decidable (_ ∧ _ ∧ _))

/-- What the extractor makes of the leaf where it lies in the message at `ptr`. -/
def extractInPlace (hook : KeyHook κ) (ptr : Nat) (view : Buffer) (s : LeafKeys κ) :
    LeafKeys κ × Bool :=
  x509ExtractPubkey hook (add16 ptr 11) (fun i => view (add16 i 11)) (word (view 9) (view 10)) s

theorem tlsHandleCertificate_eq (hook : KeyHook κ) (ptr : Nat) {view : Buffer} (s : LeafKeys κ)
    (h : view 0 = hsCertificate) :
    tlsHandleCertificate hook ptr view s =
      if HeaderOk view then extractInPlace hook ptr view s else (s, false) := by
  unfold tlsHandleCertificate
  rw [if_neg (by simp [h])]
  by_cases h₄ : view 4 = 0
  · by_cases h₅ : view 5 = 0
    · by_cases h₈ : view 8 = 0
      · simp [h₄, h₅, h₈, HeaderOk, extractInPlace]
      · simp [h₄, h₅, h₈, HeaderOk]
    · simp [h₄, h₅, HeaderOk]
  · simp [h₄, HeaderOk]

end Tls
end C64Https
