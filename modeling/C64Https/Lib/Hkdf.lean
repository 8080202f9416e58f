import Mathlib.Tactic

/-!
# Hkdf — HMAC, HKDF and the TLS 1.3 key schedule over a hash

HMAC is that of RFC 2104 for a hash with blocks of 64 bytes, HKDF that of RFC 5869, and the key
schedule that of RFC 8446, section 7.1, for a handshake without a pre-shared key.  The hash `H` and
its length `hashLen` are parameters.
-/

namespace C64Https
namespace Hkdf

variable (H : List UInt8 → List UInt8) (hashLen : Nat)

/-! ## RFC 2104 -/

/-- The key, hashed if it is longer than a block, filled with zeros to a block. -/
def blockKey (key : List UInt8) : List UInt8 :=
  let k := if 64 < key.length then H key else key
  k ++ List.replicate (64 - k.length) 0

def hmac (key msg : List UInt8) : List UInt8 :=
  H ((blockKey H key).map (· ^^^ 0x5c) ++ H ((blockKey H key).map (· ^^^ 0x36) ++ msg))

/-! ## RFC 5869 -/

/-- `HKDF-Extract`; no salt is a salt of zeros. -/
def extract (salt ikm : List UInt8) : List UInt8 :=
  hmac H (if salt = [] then List.replicate hashLen 0 else salt) ikm

/-- `T(i)`. -/
def expandBlock (prk info : List UInt8) : Nat → List UInt8
  | 0 => []
  | i + 1 => hmac H prk (expandBlock prk info i ++ info ++ [UInt8.ofNat (i + 1)])

/-- `HKDF-Expand`. -/
def expand (prk info : List UInt8) (len : Nat) : List UInt8 :=
  (((List.range ((len + hashLen - 1) / hashLen)).map fun i =>
    expandBlock H prk info (i + 1)).flatten).take len

/-! ## RFC 8446, section 7.1 -/

/-- `"tls13 "`. -/
def tls13Prefix : List UInt8 :=
  [0x74, 0x6c, 0x73, 0x31, 0x33, 0x20]

/-- The structure `HkdfLabel`. -/
def hkdfLabel (label context : List UInt8) (len : Nat) : List UInt8 :=
  [UInt8.ofNat (len / 256), UInt8.ofNat len, UInt8.ofNat (6 + label.length)] ++ tls13Prefix ++
    label ++ [UInt8.ofNat context.length] ++ context

def expandLabel (secret label context : List UInt8) (len : Nat) : List UInt8 :=
  expand H hashLen secret (hkdfLabel label context len) len

/-- `Derive-Secret`, on the hash of the messages. -/
def deriveSecret (secret label transcriptHash : List UInt8) : List UInt8 :=
  expandLabel H hashLen secret label transcriptHash hashLen

/-- The labels, as ASCII. -/
structure Labels where
  derived : List UInt8
  cHsTraffic : List UInt8
  sHsTraffic : List UInt8
  cApTraffic : List UInt8
  sApTraffic : List UInt8
  key : List UInt8
  iv : List UInt8
  finished : List UInt8

def ascii (s : String) : List UInt8 :=
  s.toList.map fun c => UInt8.ofNat c.toNat

def labels : Labels where
  derived := ascii "derived"
  cHsTraffic := ascii "c hs traffic"
  sHsTraffic := ascii "s hs traffic"
  cApTraffic := ascii "c ap traffic"
  sApTraffic := ascii "s ap traffic"
  key := ascii "key"
  iv := ascii "iv"
  finished := ascii "finished"

def zeros : List UInt8 :=
  List.replicate hashLen 0

def earlySecret : List UInt8 :=
  extract H hashLen (zeros hashLen) (zeros hashLen)

def handshakeSecret (shared : List UInt8) : List UInt8 :=
  extract H hashLen (deriveSecret H hashLen (earlySecret H hashLen) labels.derived (H [])) shared

def masterSecret (handshake : List UInt8) : List UInt8 :=
  extract H hashLen (deriveSecret H hashLen handshake labels.derived (H [])) (zeros hashLen)

def clientHandshakeSecret (shared transcript : List UInt8) : List UInt8 :=
  deriveSecret H hashLen (handshakeSecret H hashLen shared) labels.cHsTraffic transcript

def serverHandshakeSecret (shared transcript : List UInt8) : List UInt8 :=
  deriveSecret H hashLen (handshakeSecret H hashLen shared) labels.sHsTraffic transcript

def clientTrafficSecret (handshake transcript : List UInt8) : List UInt8 :=
  deriveSecret H hashLen (masterSecret H hashLen handshake) labels.cApTraffic transcript

def serverTrafficSecret (handshake transcript : List UInt8) : List UInt8 :=
  deriveSecret H hashLen (masterSecret H hashLen handshake) labels.sApTraffic transcript

/-- The key and the IV of a traffic secret, for an AEAD with 32-byte keys and 12-byte nonces. -/
def trafficKey (secret : List UInt8) : List UInt8 :=
  expandLabel H hashLen secret labels.key [] 32

def trafficIv (secret : List UInt8) : List UInt8 :=
  expandLabel H hashLen secret labels.iv [] 12

/-- `verify_data` of a Finished message. -/
def verifyData (baseKey transcript : List UInt8) : List UInt8 :=
  hmac H (expandLabel H hashLen baseKey labels.finished [] hashLen) transcript

/-! ## What they come to -/

section Facts

variable {H} {hashLen}

theorem blockKey_of_le {key : List UInt8} (h : key.length ≤ 64) :
    blockKey H key = key ++ List.replicate (64 - key.length) 0 := by
  unfold blockKey
  dsimp only
  rw [if_neg (Nat.not_lt_of_le h)]

/-- The key with a byte over all of its block. -/
theorem map_blockKey {key : List UInt8} (h : key.length ≤ 64) (c : UInt8) :
    (blockKey H key).map (· ^^^ c) = key.map (· ^^^ c) ++ List.replicate (64 - key.length) c := by
  rw [blockKey_of_le h, List.map_append, List.map_replicate, UInt8.zero_xor]

/-- Zeros behind a short key count for nothing. -/
theorem hmac_append_zeros {key : List UInt8} {n : Nat} (h : key.length + n ≤ 64)
    (msg : List UInt8) : hmac H (key ++ List.replicate n 0) msg = hmac H key msg := by
  have hlen : (key ++ List.replicate n (0 : UInt8)).length = key.length + n := by
    rw [List.length_append, List.length_replicate]
  have hblock : blockKey H (key ++ List.replicate n 0) = blockKey H key := by
    rw [blockKey_of_le (by omega), blockKey_of_le (by omega), hlen, List.append_assoc,
      ← List.replicate_add]
    congr 2
    omega
  unfold hmac
  rw [hblock]

/-- A salt shorter than the hash may come filled with zeros. -/
theorem extract_eq_hmac {salt : List UInt8} (ikm : List UInt8) (hsalt : salt.length ≤ hashLen)
    (h64 : hashLen ≤ 64) : extract H hashLen salt ikm =
      hmac H (salt ++ List.replicate (hashLen - salt.length) 0) ikm := by
  unfold extract
  split
  · rename_i hnil
    rw [hnil]
    rfl
  · exact (hmac_append_zeros (by omega) ikm).symm

/-- Up to the length of the hash there is one block. -/
theorem expand_of_le {prk info : List UInt8} {len : Nat} (hpos : 0 < len) (hle : len ≤ hashLen) :
    expand H hashLen prk info len = (hmac H prk (info ++ [1])).take len := by
  have hcount : (len + hashLen - 1) / hashLen = 1 := by
    refine Nat.div_eq_of_lt_le ?_ ?_
    · omega
    · omega
  unfold expand
  rw [hcount]
  simp [expandBlock]

end Facts

end Hkdf
end C64Https
