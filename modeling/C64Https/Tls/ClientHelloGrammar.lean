import C64Https.Lib.Presentation

/-!
# ClientHelloGrammar — what a server reads in a ClientHello

The grammar of the message that opens a TLS 1.3 handshake, as a data type with an encoding and a
reader.  Every vector carries its bounds; every vector, down to the entries of the inner lists, has to
be used up to its last byte; no type of extension comes twice.
-/

namespace C64Https
namespace Tls

open BigEndian Presentation

/-! ## Messages -/

/-- The extensions whose contents have a structure here. -/
inductive ClientExt where
  | serverName (names : List (List UInt8))
  | maxFragmentLength (code : UInt8)
  | supportedGroups (groups : List Nat)
  | signatureAlgorithms (schemes : List Nat)
  | supportedVersions (versions : List Nat)
  | keyShare (shares : List (Nat × List UInt8))
  | other (ty : Nat) (data : List UInt8)
  deriving DecidableEq, Repr

structure ClientHello where
  random : List UInt8
  sessionId : List UInt8
  suites : List Nat
  compression : List UInt8
  extensions : List ClientExt
  deriving DecidableEq, Repr

/-! ## Encoding -/

/-- A list of 16-bit codes. -/
def codes (ns : List Nat) : List UInt8 :=
  ns.flatMap (padded 2)

/-- A name of type `host_name`. -/
def hostName (name : List UInt8) : List UInt8 :=
  padded 1 0 ++ vector 2 name

def shareEntry (s : Nat × List UInt8) : List UInt8 :=
  padded 2 s.1 ++ vector 2 s.2

namespace ClientExt

def ty : ClientExt → Nat
  | serverName _ => 0x00
  | maxFragmentLength _ => 0x01
  | supportedGroups _ => 0x0a
  | signatureAlgorithms _ => 0x0d
  | supportedVersions _ => 0x2b
  | keyShare _ => 0x33
  | other ty _ => ty

def data : ClientExt → List UInt8
  | serverName names => vector 2 (names.flatMap hostName)
  | maxFragmentLength code => [code]
  | supportedGroups groups => vector 2 (codes groups)
  | signatureAlgorithms schemes => vector 2 (codes schemes)
  | supportedVersions versions => vector 1 (codes versions)
  | keyShare shares => vector 2 (shares.flatMap shareEntry)
  | other _ data => data

def encode (e : ClientExt) : List UInt8 :=
  padded 2 e.ty ++ vector 2 e.data

end ClientExt

namespace ClientHello

/-- Behind the header of the message; `legacy_version` is fixed. -/
def body (h : ClientHello) : List UInt8 :=
  padded 2 0x0303 ++ (h.random ++ (vector 1 h.sessionId ++ (vector 2 (codes h.suites) ++
    (vector 1 h.compression ++ vector 2 (h.extensions.flatMap ClientExt.encode)))))

def message (h : ClientHello) : List UInt8 :=
  padded 1 1 ++ vector 3 h.body

/-- The message in a record of its own. -/
def record (h : ClientHello) : List UInt8 :=
  padded 1 22 ++ (padded 2 0x0303 ++ vector 2 h.message)

end ClientHello

/-! ## Reading -/

/-- A vector that is all of a string, as a list. -/
def listIn {α : Type} (k lo hi : Nat) (item : Reader α) (data : List UInt8) : Option (List α) :=
  match whole (vectorBetween k lo hi) data with
  | none => none
  | some bs => list item bs

/-- A number that has to be `n`. -/
def constant (k n : Nat) : Reader Nat :=
  andThen (number k) fun m => ofOption (if m = n then some m else none)

def readHostName : Reader (List UInt8) :=
  andThen (constant 1 0) fun _ => vectorBetween 2 1 65535

def readShare : Reader (Nat × List UInt8) :=
  andThen (number 2) fun group =>
    andThen (vectorBetween 2 1 65535) fun key => ofOption (some (group, key))

/-- The contents of an extension. -/
def readExtData (ty : Nat) (data : List UInt8) : Option ClientExt :=
  if ty = 0x00 then (listIn 2 1 65535 readHostName data).map .serverName
  else if ty = 0x01 then
    match data with
    | [code] => some (.maxFragmentLength code)
    | _ => none
  else if ty = 0x0a then (listIn 2 2 65535 (number 2) data).map .supportedGroups
  else if ty = 0x0d then (listIn 2 2 65534 (number 2) data).map .signatureAlgorithms
  else if ty = 0x2b then (listIn 1 2 254 (number 2) data).map .supportedVersions
  else if ty = 0x33 then (listIn 2 0 65535 readShare data).map .keyShare
  else some (.other ty data)

def readExt : Reader ClientExt :=
  andThen (number 2) fun ty =>
    andThen (vectorBetween 2 0 65535) fun data => ofOption (readExtData ty data)

/-- The extensions, none of which comes twice. -/
def readExts (bs : List UInt8) : Option (List ClientExt) :=
  match list readExt bs with
  | none => none
  | some es => if (es.map ClientExt.ty).Nodup then some es else none

def readBody : Reader ClientHello :=
  andThen (constant 2 0x0303) fun _ =>
    andThen (fixed 32) fun random =>
      andThen (vectorBetween 1 0 32) fun sessionId =>
        andThen (andThen (vectorBetween 2 2 65534) fun bs => ofOption (list (number 2) bs))
          fun suites =>
            andThen (vectorBetween 1 1 255) fun compression =>
              andThen (andThen (vectorBetween 2 8 65535) fun bs => ofOption (readExts bs))
                fun extensions =>
                  ofOption (some { random, sessionId, suites, compression, extensions })

def readMessage : Reader ClientHello :=
  andThen (constant 1 1) fun _ =>
    andThen (vectorBetween 3 0 16777215) fun body => ofOption (whole readBody body)

/-- A string as one handshake record of at most `limit` bytes that holds one ClientHello. -/
def readRecord (limit : Nat) (wire : List UInt8) : Option ClientHello :=
  whole (andThen (constant 1 22) fun _ =>
    andThen (constant 2 0x0303) fun _ =>
      andThen (vectorBetween 2 1 limit) fun payload => ofOption (whole readMessage payload)) wire

/-! ## What is written is read back -/

theorem reads_constant {k n : Nat} (h : n < 256 ^ k) : Reads (constant k n) (padded k n) n :=
  (reads_number h).ofOption (if_pos rfl)

theorem listIn_vector {α : Type} {k lo hi : Nat} {item : Reader α} {write : α → List UInt8}
    {xs : List α} (hk : (xs.flatMap write).length < 256 ^ k)
    (hlo : lo ≤ (xs.flatMap write).length) (hhi : (xs.flatMap write).length ≤ hi)
    (hitem : ∀ x ∈ xs, Reads item (write x) x ∧ write x ≠ []) :
    listIn k lo hi item (vector k (xs.flatMap write)) = some xs := by
  unfold listIn
  rw [(reads_vector hk hlo hhi).whole]
  exact list_flatMap hitem

theorem code_item {n : Nat} (h : n < 65536) :
    Reads (number 2) (padded 2 n) n ∧ padded 2 n ≠ [] := by
  refine ⟨reads_number h, ?_⟩
  intro hnil
  have hlen := length_padded (k := 2) h
  rw [hnil] at hlen
  cases hlen

theorem hostName_item {name : List UInt8} (hpos : 1 ≤ name.length) (hlen : name.length < 65536) :
    Reads readHostName (hostName name) name ∧ hostName name ≠ [] := by
  constructor
  · exact (reads_constant (by decide)).andThen (reads_vector hlen hpos (by omega))
  · intro hnil
    have hlen := congrArg List.length hnil
    unfold hostName at hlen
    rw [List.length_append, length_padded (by decide)] at hlen
    simp at hlen

theorem shareEntry_item {s : Nat × List UInt8} (hgroup : s.1 < 65536) (hpos : 1 ≤ s.2.length)
    (hlen : s.2.length < 65536) : Reads readShare (shareEntry s) s ∧ shareEntry s ≠ [] := by
  constructor
  · have hkey : Reads (andThen (vectorBetween 2 1 65535) fun key =>
        ofOption (some (s.1, key))) (vector 2 s.2) s :=
      (reads_vector hlen hpos (by omega)).ofOption rfl
    exact (reads_number hgroup).andThen hkey
  · intro hnil
    have hlen := congrArg List.length hnil
    unfold shareEntry at hlen
    rw [List.length_append, length_padded hgroup] at hlen
    simp at hlen

/-- The bounds of the contents of an extension. -/
def ClientExt.Valid : ClientExt → Prop
  | .serverName names => (∀ n ∈ names, 1 ≤ n.length ∧ n.length < 65536) ∧
      1 ≤ (names.flatMap hostName).length ∧ (names.flatMap hostName).length < 65536
  | .maxFragmentLength _ => True
  | .supportedGroups groups => (∀ n ∈ groups, n < 65536) ∧
      2 ≤ (codes groups).length ∧ (codes groups).length < 65536
  | .signatureAlgorithms schemes => (∀ n ∈ schemes, n < 65536) ∧
      2 ≤ (codes schemes).length ∧ (codes schemes).length < 65535
  | .supportedVersions versions => (∀ n ∈ versions, n < 65536) ∧
      2 ≤ (codes versions).length ∧ (codes versions).length < 255
  | .keyShare shares =>
      (∀ s ∈ shares, s.1 < 65536 ∧ 1 ≤ s.2.length ∧ s.2.length < 65536) ∧
        (shares.flatMap shareEntry).length < 65536
  | .other ty _ => ty < 65536 ∧ ty ∉ [0x00, 0x01, 0x0a, 0x0d, 0x2b, 0x33]

theorem readExtData_data {e : ClientExt} (h : e.Valid) : readExtData e.ty e.data = some e := by
  cases e with
  | serverName names =>
      obtain ⟨hnames, hlo, hhi⟩ := h
      have hlist : listIn 2 1 65535 readHostName (vector 2 (names.flatMap hostName)) = some names :=
        listIn_vector hhi hlo (by omega) fun n hn => hostName_item (hnames n hn).1 (hnames n hn).2
      exact congrArg (Option.map ClientExt.serverName) hlist
  | maxFragmentLength code => rfl
  | supportedGroups groups =>
      obtain ⟨hcodes, hlo, hhi⟩ := h
      have hlist : listIn 2 2 65535 (number 2) (vector 2 (codes groups)) = some groups :=
        listIn_vector hhi hlo (Nat.le_of_lt_succ hhi) fun n hn => code_item (hcodes n hn)
      exact congrArg (Option.map ClientExt.supportedGroups) hlist
  | signatureAlgorithms schemes =>
      obtain ⟨hcodes, hlo, hhi⟩ := h
      have hlist : listIn 2 2 65534 (number 2) (vector 2 (codes schemes)) = some schemes :=
        listIn_vector (Nat.lt_succ_of_lt hhi) hlo (Nat.le_of_lt_succ hhi)
          fun n hn => code_item (hcodes n hn)
      exact congrArg (Option.map ClientExt.signatureAlgorithms) hlist
  | supportedVersions versions =>
      obtain ⟨hcodes, hlo, hhi⟩ := h
      have hlist : listIn 1 2 254 (number 2) (vector 1 (codes versions)) = some versions :=
        listIn_vector (Nat.lt_succ_of_lt hhi) hlo (Nat.le_of_lt_succ hhi)
          fun n hn => code_item (hcodes n hn)
      exact congrArg (Option.map ClientExt.supportedVersions) hlist
  | keyShare shares =>
      obtain ⟨hshares, hhi⟩ := h
      have hlist : listIn 2 0 65535 readShare (vector 2 (shares.flatMap shareEntry)) =
          some shares :=
        listIn_vector hhi (Nat.zero_le _) (Nat.le_of_lt_succ hhi) fun s hs =>
          shareEntry_item (hshares s hs).1 (hshares s hs).2.1 (hshares s hs).2.2
      exact congrArg (Option.map ClientExt.keyShare) hlist
  | other ty data =>
      obtain ⟨-, hty⟩ := h
      simp only [List.mem_cons, List.not_mem_nil, or_false, not_or] at hty
      obtain ⟨h₀, h₁, h₂, h₃, h₄, h₅⟩ := hty
      show readExtData ty data = some (.other ty data)
      unfold readExtData
      rw [if_neg h₀, if_neg h₁, if_neg h₂, if_neg h₃, if_neg h₄, if_neg h₅]

theorem ext_item {e : ClientExt} (h : e.Valid) (hlen : e.data.length < 65536) :
    Reads readExt e.encode e ∧ e.encode ≠ [] := by
  have hty : e.ty < 65536 := by
    cases e with
    | other ty data => exact h.1
    | _ => simp [ClientExt.ty]
  constructor
  · have hdata : Reads (andThen (vectorBetween 2 0 65535) fun data =>
        ofOption (readExtData e.ty data)) (vector 2 e.data) e :=
      (reads_vector hlen (Nat.zero_le _) (Nat.le_of_lt_succ hlen)).ofOption (readExtData_data h)
    exact (reads_number hty).andThen hdata
  · intro hnil
    have hsize := congrArg List.length hnil
    unfold ClientExt.encode at hsize
    rw [List.length_append, length_padded hty] at hsize
    simp at hsize

/-- The bounds of the message. -/
structure ClientHello.Valid (h : ClientHello) : Prop where
  random : h.random.length = 32
  sessionId : h.sessionId.length ≤ 32
  suite : ∀ n ∈ h.suites, n < 65536
  suites_pos : 2 ≤ (codes h.suites).length
  suites_lt : (codes h.suites).length < 65535
  compression_pos : 1 ≤ h.compression.length
  compression_lt : h.compression.length < 256
  ext : ∀ e ∈ h.extensions, e.Valid ∧ e.data.length < 65536
  distinct : (h.extensions.map ClientExt.ty).Nodup
  exts_pos : 8 ≤ (h.extensions.flatMap ClientExt.encode).length
  exts_lt : (h.extensions.flatMap ClientExt.encode).length < 65536

theorem readBody_body {h : ClientHello} (hv : h.Valid) : Reads readBody h.body h := by
  have hsuites : Reads (andThen (vectorBetween 2 2 65534) fun bs => ofOption (list (number 2) bs))
      (vector 2 (codes h.suites)) h.suites :=
    (reads_vector (Nat.lt_succ_of_lt hv.suites_lt) hv.suites_pos
      (Nat.le_of_lt_succ hv.suites_lt)).ofOption
        (list_flatMap fun n hn => code_item (hv.suite n hn))
  have hexts : Reads (andThen (vectorBetween 2 8 65535) fun bs => ofOption (readExts bs))
      (vector 2 (h.extensions.flatMap ClientExt.encode)) h.extensions := by
    refine (reads_vector hv.exts_lt hv.exts_pos (Nat.le_of_lt_succ hv.exts_lt)).ofOption ?_
    unfold readExts
    rw [list_flatMap fun e he => ext_item (hv.ext e he).1 (hv.ext e he).2]
    exact if_pos hv.distinct
  unfold readBody ClientHello.body
  refine (reads_constant (by decide)).andThen ?_
  refine (reads_fixed_of_length hv.random).andThen ?_
  refine (reads_vector (Nat.lt_of_le_of_lt hv.sessionId (by decide)) (Nat.zero_le _)
    hv.sessionId).andThen ?_
  refine hsuites.andThen ?_
  refine (reads_vector hv.compression_lt hv.compression_pos
    (Nat.le_of_lt_succ hv.compression_lt)).andThen ?_
  exact hexts.ofOption rfl

theorem readMessage_message {h : ClientHello} (hv : h.Valid) (hlen : h.body.length < 16777216) :
    Reads readMessage h.message h :=
  (reads_constant (by decide)).andThen
    ((reads_vector hlen (Nat.zero_le _) (Nat.le_of_lt_succ hlen)).ofOption
      (readBody_body hv).whole)

/-- The record is read back as the message. -/
theorem readRecord_record {h : ClientHello} {limit : Nat} (hv : h.Valid)
    (hlen : h.message.length ≤ limit) (hlimit : limit < 65536) :
    readRecord limit h.record = some h := by
  have hmessage : h.message.length = 1 + (vector 3 h.body).length := by
    unfold ClientHello.message
    rw [List.length_append, length_padded (by decide)]
  have hbody : h.body.length ≤ (vector 3 h.body).length := by
    unfold vector
    rw [List.length_append]
    exact Nat.le_add_left _ _
  refine Reads.whole ?_
  unfold ClientHello.record
  refine (reads_constant (by decide)).andThen ?_
  refine (reads_constant (by decide)).andThen ?_
  exact (reads_vector (show h.message.length < 256 ^ 2 by omega) (by omega) hlen).ofOption
    (readMessage_message hv (by omega)).whole

end Tls
end C64Https
