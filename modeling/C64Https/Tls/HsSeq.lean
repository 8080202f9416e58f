import C64Https.Lib.Word

/-!
# HsSeq — handshake states and the message sequence gate (`src/tls_hs_seq.inc`)

`tls_connect` writes `tls_state` before each receive, so the state says which handshake message is
due.  `TLS_HS_SEQ_CHECK` reads the due type out of a four-byte table indexed by the state, after a
range check on both ends of the window.
-/

namespace C64Https
namespace Tls

/-- `tls_state`. -/
inductive TlsState where
  | idle
  | clientHello
  | serverHello
  | encryptedExt
  | certificate
  | certVerify
  | finished
  | connected
  | error
  deriving DecidableEq, Repr

/-- The `TLS_STATE_*` equates. -/
def TlsState.code : TlsState → Nat
  | .idle => 0
  | .clientHello => 1
  | .serverHello => 2
  | .encryptedExt => 3
  | .certificate => 4
  | .certVerify => 5
  | .finished => 6
  | .connected => 7
  | .error => 255

/-! ## Content types and handshake types -/

abbrev ctChangeCipher : UInt8 := 20
abbrev ctHandshake : UInt8 := 22
abbrev ctApplication : UInt8 := 23

abbrev hsServerHello : UInt8 := 2
abbrev hsEncryptedExt : UInt8 := 8
abbrev hsCertificate : UInt8 := 11
abbrev hsCertVerify : UInt8 := 15
abbrev hsFinished : UInt8 := 20

/-! ## The gate -/

/-- `TLS_HS_SEQ_TABLE`. -/
def tlsHsAllowed : List UInt8 :=
  [hsEncryptedExt, hsCertificate, hsCertVerify, hsFinished]

/-- `TLS_HS_SEQ_CHECK`: falls through (`true`) iff `ty` is the message due in state `st`. -/
def tlsHsSeqCheck (st : TlsState) (ty : UInt8) : Bool :=
  if st.code < TlsState.encryptedExt.code then
    false
  else if TlsState.finished.code + 1 ≤ st.code then
    false
  else
    tlsHsAllowed[st.code - TlsState.encryptedExt.code]? == some ty

/-- The message due in a state, if one is. -/
def dueType : TlsState → Option UInt8
  | .encryptedExt => some hsEncryptedExt
  | .certificate => some hsCertificate
  | .certVerify => some hsCertVerify
  | .finished => some hsFinished
  | _ => none

/-- The gate admits exactly the due message. -/
theorem tlsHsSeqCheck_iff (st : TlsState) (ty : UInt8) :
    tlsHsSeqCheck st ty = true ↔ dueType st = some ty := by
  cases st <;> simp [tlsHsSeqCheck, TlsState.code, tlsHsAllowed, dueType]

end Tls
end C64Https
