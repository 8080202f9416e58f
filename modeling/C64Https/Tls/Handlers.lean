import C64Https.Crypto.DerSig
import C64Https.Lib.Footprint
import C64Https.Tls.Connect

/-!
# Handlers — CertificateVerify and Finished (`src/tls_cert.s`, `src/tls_keyschedule.s`)

The two handlers are handed `tls_hs_ptr` and read at fixed offsets behind it.  Neither is told how
long the message is: `tls_verify_finished` compares the 32 bytes behind the header, and
`tls_handle_cert_verify` hands the parser the address of the signature and not its length.

A message is *bound* when the handler accepts it at the length that its contents require and at no
other, and when nothing outside the message has a part in the verdict.  The two results below say
which messages are, for both dispatchers.
-/

namespace C64Https
namespace Tls

open Word Bytes Footprint Crypto

/-! ## The handlers -/

/-- The routines behind the handlers: the buffers they fill (`hkdf_okm`, `hmac_result`). -/
structure VerifyPrims where
  /-- secret, label, context and length -/
  hkdfExpandLabel : List UInt8 → List UInt8 → List UInt8 → Nat → Buffer
  /-- key and data -/
  hmacSha256 : List UInt8 → List UInt8 → Buffer

/-- `tls_s_hs_secret`, and the structure of 160 bytes that the verifier reads. -/
structure PeerKeys where
  sHsSecret : List UInt8
  ecdsa : Buffer

/-- The offset of `ecdsa_hash` in the structure. -/
def ecdsaHash : Nat := 64

/-- `lbl_finished`. -/
def lblFinished : List UInt8 := "finished".toUTF8.toList

/-- `tls_compute_finished`, of the secret in `hkdf_prk` and of `tls_transcript`. -/
def tlsComputeFinished (P : VerifyPrims) (secret snap : List UInt8) : List UInt8 :=
  let finishedKey := bytesAt (P.hkdfExpandLabel secret lblFinished [] 32) 0 32
  bytesAt (P.hmacSha256 finishedKey snap) 0 32

/-- `@vf_cmp`: the differences of two runs of bytes, or'ed into `acc`. -/
def vfCmp : List UInt8 → List UInt8 → UInt8 → UInt8
  | a :: as, b :: bs, acc => vfCmp as bs ((a ^^^ b) ||| acc)
  | _, _, acc => acc

/-- `tls_verify_finished`. -/
def tlsVerifyFinished (P : VerifyPrims) (view : Buffer) (snap : List UInt8) (k : PeerKeys) :
    PeerKeys × Bool :=
  (k, decide (vfCmp (bytesAt view 4 32) (tlsComputeFinished P k.sHsSecret snap) 0 = 0))

/-- `cv_label`. -/
def cvLabel : List UInt8 := "TLS 1.3, server CertificateVerify".toUTF8.toList

/-- The hash of the signed content: 64 spaces, the label, a zero and the snapshot, in three
blocks. -/
def cvHash (sha : Sha256) (snap : List UInt8) : List UInt8 :=
  let h := sha.processBlock sha.init (List.replicate 64 0x20)
  let h := sha.processBlock h (cvLabel ++ [0] ++ snap.take 30)
  let last := (snap.drop 30).take 2 ++ [0x80] ++ List.replicate 59 0 ++ [0x04, 0x10]
  sha.final (sha.processBlock h last)

/-- What `zp_ptr` points at while the signature is parsed. -/
def sigView (view : Buffer) : Buffer :=
  fun y => view (8 + y)

/-- `tls_handle_cert_verify`; the low byte of the signature's length goes to `zp_count`, which the
parser does not read. -/
def tlsHandleCertVerify (sha : Sha256) (verify : Buffer → Bool) (view : Buffer)
    (snap : List UInt8) (k : PeerKeys) : PeerKeys × Bool :=
  if view 0 ≠ hsCertVerify then (k, false)
  else if view 4 ≠ 0x04 then (k, false)
  else if view 5 ≠ 0x03 then (k, false)
  else if view 6 ≠ 0 then (k, false)
  else
    match ecdsaParseDerSig (sigView view) k.ecdsa with
    | (g, false) => ({ k with ecdsa := g }, false)
    | (g, true) =>
        let g := store g ecdsaHash (cvHash sha snap)
        ({ k with ecdsa := g }, verify g)

/-- The handlers of a build, with the two above; `verify` is `ecdsa_verify_256`. -/
def verifying (P : VerifyPrims) (verify : Buffer → Bool) (E : Env PeerKeys) : Env PeerKeys :=
  { E with
    tlsHandleCertVerify := fun _ view snap k => tlsHandleCertVerify E.sha verify view snap k
    tlsVerifyFinished := fun _ view snap k => tlsVerifyFinished P view snap k }

/-! ## Arrivals -/

/-- A message on its way into a handler: from `df_dispatch`, with the memory behind `tls_hs_ptr`,
or from the arm of `tls_recv_encrypted` that takes a record for a message. -/
inductive Arrival where
  | deframed (ptr : Nat) (view : Buffer) (s : Hs PeerKeys)
  | whole (s : Hs PeerKeys)

namespace Arrival

def state : Arrival → Hs PeerKeys
  | deframed _ _ s => s
  | whole s => s

def view : Arrival → Buffer
  | deframed _ view _ => view
  | whole s => s.recBuf

def ty : Arrival → UInt8
  | deframed _ _ s => s.hdr 0
  | whole s => s.recBuf 0

/-- The length in the header. -/
def declared : Arrival → Nat
  | deframed _ _ s => s.msgLen
  | whole s => (s.recBuf 1).toNat * 65536 + word (s.recBuf 2) (s.recBuf 3)

/-- The same arrival over another memory. -/
def withView (a : Arrival) (view : Buffer) : Arrival :=
  match a with
  | deframed ptr _ s => deframed ptr view s
  | whole s => whole { s with recBuf := view }

/-- The verdict of the dispatcher. -/
def accepted (E : Env PeerKeys) : Arrival → Bool
  | deframed ptr view s => decide ((dfDispatch E ptr view s).2 = .msg)
  | whole s => (encDispatch E s (s.recBuf 0)).2

/-- The header and the body. -/
def size (a : Arrival) : Nat :=
  4 + a.declared

/-- The length that the contents require. -/
def required (a : Arrival) : Nat :=
  if a.ty = hsFinished then 32 else 4 + word (a.view 6) (a.view 7)

end Arrival

/-- The handler keeps to the message. -/
structure Bound (E : Env PeerKeys) (a : Arrival) : Prop where
  /-- what is accepted has the length that its contents require -/
  exact : a.accepted E = true → a.declared = a.required
  /-- nothing outside the message has a part in the verdict -/
  blind : Determined a.size (fun view => (a.withView view).accepted E) a.view

/-! ## The verdicts -/

section Verdicts

variable {P : VerifyPrims} {verify : Buffer → Bool} {E : Env PeerKeys} {sha : Sha256}
variable {view view' : Buffer} {snap : List UInt8} {k : PeerKeys}

theorem vfCmp_eq_zero {as bs : List UInt8} (h : as.length = bs.length) :
    ∀ acc, vfCmp as bs acc = 0 ↔ acc = 0 ∧ as = bs := by
  induction as generalizing bs with
  | nil =>
      intro acc
      have hnil : bs = [] := List.eq_nil_of_length_eq_zero h.symm
      rw [hnil]
      exact ⟨fun hacc => ⟨hacc, rfl⟩, fun hacc => hacc.1⟩
  | cons a as ih =>
      intro acc
      cases bs with
      | nil => cases h
      | cons b bs =>
          have hlen : as.length = bs.length := Nat.succ.inj h
          have hstep : vfCmp (a :: as) (b :: bs) acc = vfCmp as bs ((a ^^^ b) ||| acc) := rfl
          rw [hstep, ih hlen, UInt8.or_eq_zero_iff, UInt8.xor_eq_zero_iff, List.cons.injEq]
          constructor
          · rintro ⟨⟨hab, hacc⟩, htail⟩
            exact ⟨hacc, hab, htail⟩
          · rintro ⟨hacc, hab, htail⟩
            exact ⟨⟨hab, hacc⟩, htail⟩

@[simp] theorem length_tlsComputeFinished (P : VerifyPrims) (secret snap : List UInt8) :
    (tlsComputeFinished P secret snap).length = 32 := by
  simp [tlsComputeFinished]

/-- The 32 bytes behind the header are compared, whatever their number is. -/
theorem tlsVerifyFinished_iff :
    (tlsVerifyFinished P view snap k).2 = true ↔
      bytesAt view 4 32 = tlsComputeFinished P k.sHsSecret snap := by
  unfold tlsVerifyFinished
  rw [decide_eq_true_iff, vfCmp_eq_zero (by simp)]
  exact ⟨fun h => h.2, fun h => ⟨rfl, h⟩⟩

/-- The bytes that `tls_handle_cert_verify` checks before the signature. -/
structure CvHead (view : Buffer) : Prop where
  ty : view 0 = hsCertVerify
  schemeHi : view 4 = 0x04
  schemeLo : view 5 = 0x03
  lenHi : view 6 = 0

/-- The structure that the verifier is handed. -/
def cvStruct (sha : Sha256) (view : Buffer) (snap : List UInt8) (g : Buffer) : Buffer :=
  store
    (store (store g ecdsaSigR (fieldOf (sigView view) 4 (lenR (sigView view)))) ecdsaSigS
      (fieldOf (sigView view) (tagS (sigView view) + 2) (lenS (sigView view))))
    ecdsaHash (cvHash sha snap)

theorem tlsHandleCertVerify_iff :
    (tlsHandleCertVerify sha verify view snap k).2 = true ↔
      CvHead view ∧ ¬ Refused (sigView view) ∧
        verify (cvStruct sha view snap k.ecdsa) = true := by
  unfold tlsHandleCertVerify
  split_ifs with h₀ h₄ h₅ h₆
  · exact ⟨fun h => (by cases h), fun h => absurd h.1.ty h₀⟩
  · exact ⟨fun h => (by cases h), fun h => absurd h.1.schemeHi h₄⟩
  · exact ⟨fun h => (by cases h), fun h => absurd h.1.schemeLo h₅⟩
  · exact ⟨fun h => (by cases h), fun h => absurd h.1.lenHi h₆⟩
  · by_cases hno : Refused (sigView view)
    · have hfalse := ecdsaParseDerSig_of_refused hno k.ecdsa
      split
      · exact ⟨fun h => (by cases h), fun h => absurd hno h.2.1⟩
      · rename_i heq
        rw [heq] at hfalse
        cases hfalse
    · rw [ecdsaParseDerSig_of_tags hno]
      have hhead : CvHead view :=
        ⟨not_not.1 h₀, not_not.1 h₄, not_not.1 h₅, not_not.1 h₆⟩
      exact ⟨fun h => ⟨hhead, hno, h⟩, fun h => h.2.2⟩

end Verdicts

/-! ## The dispatchers hand over to them -/

section Dispatch

variable {P : VerifyPrims} {verify : Buffer → Bool} {E : Env PeerKeys} {a : Arrival}
variable {view : Buffer}

/-- The handler that the switch picks, on either way in. -/
def Arrival.handler (E : Env PeerKeys) : Arrival → Option (PeerKeys × Bool)
  | .deframed ptr view s => dfHandler E (s.handed ptr view) s.keys
  | .whole s => encHandler E s (s.recBuf 0)

/-- The verdict of the dispatcher is the handler's. -/
theorem Arrival.accepted_of_handler {E : Env PeerKeys} {r : PeerKeys × Bool}
    (h : a.handler E = some r) : a.accepted E = r.2 := by
  rcases r with ⟨k, ok⟩
  cases a with
  | deframed ptr view s =>
      have hrun : dfHandler E
          (({ s with mode := .hdr, hdrHave := 0, hdrSplit := false } : Hs PeerKeys).handed ptr view)
            s.keys = some (k, ok) := h
      unfold Arrival.accepted dfDispatch
      simp only [hrun]
      cases ok <;> rfl
  | whole s =>
      have hrun : encHandler E s (s.recBuf 0) = some (k, ok) := h
      unfold Arrival.accepted encDispatch
      simp only [hrun]
      cases ok <;> rfl

theorem Arrival.accepted_finished (h : a.ty = hsFinished) :
    a.accepted (verifying P verify E) =
      (tlsVerifyFinished P a.view a.state.snap a.state.keys).2 := by
  have hne : a.ty ≠ hsEncryptedExt ∧ a.ty ≠ hsCertificate ∧ a.ty ≠ hsCertVerify := by
    rw [h]
    decide
  refine accepted_of_handler ?_
  cases a with
  | deframed ptr view s =>
      exact (if_neg hne.1).trans ((if_neg hne.2.1).trans ((if_neg hne.2.2).trans (if_pos h)))
  | whole s =>
      exact (if_neg hne.1).trans ((if_neg hne.2.1).trans ((if_neg hne.2.2).trans (if_pos h)))

theorem Arrival.accepted_certVerify (h : a.ty = hsCertVerify) :
    a.accepted (verifying P verify E) =
      (tlsHandleCertVerify E.sha verify a.view a.state.snap a.state.keys).2 := by
  have hne : a.ty ≠ hsEncryptedExt ∧ a.ty ≠ hsCertificate := by
    rw [h]
    decide
  refine accepted_of_handler ?_
  cases a with
  | deframed ptr view s => exact (if_neg hne.1).trans ((if_neg hne.2).trans (if_pos h))
  | whole s => exact (if_neg hne.1).trans ((if_neg hne.2).trans (if_pos h))

@[simp] theorem Arrival.view_withView (a : Arrival) (view : Buffer) :
    (a.withView view).view = view := by
  cases a <;> rfl

@[simp] theorem Arrival.snap_withView (a : Arrival) (view : Buffer) :
    (a.withView view).state.snap = a.state.snap := by
  cases a <;> rfl

@[simp] theorem Arrival.keys_withView (a : Arrival) (view : Buffer) :
    (a.withView view).state.keys = a.state.keys := by
  cases a <;> rfl

theorem Arrival.size_pos (a : Arrival) : 0 < a.size := by
  unfold Arrival.size
  omega

/-- The type is in the message. -/
theorem Arrival.ty_withView (h : Agrees a.size a.view view) : (a.withView view).ty = a.ty := by
  cases a with
  | deframed ptr v s => rfl
  | whole s => exact h 0 (Arrival.size_pos _)

/-- Nothing outside a Finished decides, when nothing outside decides the comparison. -/
theorem blind_finished_iff (h : a.ty = hsFinished) :
    Determined a.size (fun view => (a.withView view).accepted (verifying P verify E)) a.view ↔
      Determined a.size
        (fun view => (tlsVerifyFinished P view a.state.snap a.state.keys).2) a.view := by
  have heq : ∀ v, Agrees a.size a.view v → (a.withView v).accepted (verifying P verify E) =
      (tlsVerifyFinished P v a.state.snap a.state.keys).2 := by
    intro v hv
    rw [Arrival.accepted_finished ((Arrival.ty_withView hv).trans h), Arrival.view_withView,
      Arrival.snap_withView, Arrival.keys_withView]
  exact Determined.congr_fun heq

theorem blind_certVerify_iff (h : a.ty = hsCertVerify) :
    Determined a.size (fun view => (a.withView view).accepted (verifying P verify E)) a.view ↔
      Determined a.size (fun view =>
        (tlsHandleCertVerify E.sha verify view a.state.snap a.state.keys).2) a.view := by
  have heq : ∀ v, Agrees a.size a.view v → (a.withView v).accepted (verifying P verify E) =
      (tlsHandleCertVerify E.sha verify v a.state.snap a.state.keys).2 := by
    intro v hv
    rw [Arrival.accepted_certVerify ((Arrival.ty_withView hv).trans h), Arrival.view_withView,
      Arrival.snap_withView, Arrival.keys_withView]
  exact Determined.congr_fun heq

end Dispatch

/-! ## Finished -/

section Finished

variable {P : VerifyPrims} {verify : Buffer → Bool} {E : Env PeerKeys} {a : Arrival}

/-- A Finished of 32 bytes, or one that differs from the verify data within the message. -/
def FinishedKept (P : VerifyPrims) (a : Arrival) : Prop :=
  a.declared = 32 ∨
    bytesAt a.view 4 (min a.declared 32) ≠
      (tlsComputeFinished P a.state.keys.sHsSecret a.state.snap).take a.declared

/-- Data that begins as the message does can be put behind its header. -/
theorem agrees_store {n : Nat} {v : Buffer} {data : List UInt8}
    (h : bytesAt v 4 (min n 32) = data.take n) (hlen : data.length = 32) :
    Agrees (4 + n) v (store v 4 data) := by
  intro i hi
  by_cases hout : i < 4 ∨ 4 + data.length ≤ i
  · exact store_of_outside v hout
  · have hself := bytesAt_store_self v 4 data
    rw [hlen] at hself hout
    have hbytes : bytesAt (store v 4 data) 4 (min n 32) = bytesAt v 4 (min n 32) := by
      rw [h, ← take_bytesAt _ 4 (Nat.min_le_right n 32), hself, List.take_eq_take_iff, hlen]
      omega
    have hcell := bytesAt_inj.1 hbytes (i - 4) (by omega)
    rwa [show 4 + (i - 4) = i by omega] at hcell

theorem finished_bound_iff (h : a.ty = hsFinished) :
    Bound (verifying P verify E) a ↔ FinishedKept P a := by
  have hreq : a.required = 32 := if_pos h
  unfold FinishedKept
  generalize hdata : tlsComputeFinished P a.state.keys.sHsSecret a.state.snap = data
  have hlen : data.length = 32 := by
    rw [← hdata, length_tlsComputeFinished]
  have hverdict : ∀ v, (tlsVerifyFinished P v a.state.snap a.state.keys).2 = true ↔
      bytesAt v 4 32 = data := by
    intro v
    rw [tlsVerifyFinished_iff, hdata]
  constructor
  · intro hb
    refine or_iff_not_imp_left.2 ?_
    intro hne hbegins
    -- the message can be followed by the rest of the verify data
    have hagree : Agrees a.size a.view (store a.view 4 data) :=
      agrees_store hbegins hlen
    have htrue : (tlsVerifyFinished P a.view a.state.snap a.state.keys).2 = true := by
      have hsame : (tlsVerifyFinished P (store a.view 4 data) a.state.snap a.state.keys).2 =
          (tlsVerifyFinished P a.view a.state.snap a.state.keys).2 :=
        (blind_finished_iff h).1 hb.blind _ hagree
      have hself := bytesAt_store_self a.view 4 data
      rw [← hsame, hverdict]
      rwa [hlen] at hself
    have hexact := hb.exact ((Arrival.accepted_finished h).trans htrue)
    exact hne (hexact.trans hreq)
  · rintro (heq | hne)
    · refine ⟨fun _ => heq.trans hreq.symm, (blind_finished_iff h).2 ?_⟩
      intro v hv
      have hbytes : bytesAt v 4 32 = bytesAt a.view 4 32 := by
        refine bytesAt_congr ?_
        intro i hi
        exact hv _ (by unfold Arrival.size; omega)
      rw [Bool.eq_iff_iff, hverdict, hverdict, hbytes]
    · have hfalse : ∀ v, Agrees a.size a.view v →
          (tlsVerifyFinished P v a.state.snap a.state.keys).2 = false := by
        intro v hv
        refine Bool.eq_false_iff.2 fun htrue => hne ?_
        have hbytes : bytesAt a.view 4 (min a.declared 32) =
            bytesAt v 4 (min a.declared 32) := by
          refine bytesAt_congr ?_
          intro i hi
          exact (hv _ (by unfold Arrival.size; omega)).symm
        rw [hbytes, ← take_bytesAt v 4 (Nat.min_le_right _ _), (hverdict v).1 htrue,
          List.take_eq_take_iff, hlen]
        omega
      refine ⟨fun htrue => ?_, (blind_finished_iff h).2 (Determined.of_const hfalse)⟩
      rw [Arrival.accepted_finished h, hfalse _ (fun _ _ => rfl)] at htrue
      cases htrue

end Finished

/-! ## CertificateVerify -/

section CertVerify

/-- The cells an INTEGER's contents are copied from. -/
def fieldOffsets (y len : Nat) : List Nat :=
  (List.range (min len ecdsaSigLen)).map fun i => ((y + (len - ecdsaSigLen)) % 256 + i) % 256

/-- The cells of the signature that the parser reads: the tags, the lengths, the contents. -/
def sigReads (v : Buffer) : List Nat :=
  [0, 2, 3, tagS v, inc8 (tagS v)] ++ fieldOffsets 4 (lenR v) ++
    fieldOffsets (tagS v + 2) (lenS v)

theorem fieldOf_eq_iff {v v' : Buffer} {y len : Nat} :
    fieldOf v' y len = fieldOf v y len ↔ ∀ i ∈ fieldOffsets y len, v' i = v i := by
  unfold fieldOf fieldOffsets window
  rw [List.append_right_inj, List.map_inj_left, List.forall_mem_map]

/-- The parser sees no other cells. -/
theorem sig_congr {v v' : Buffer} (h : ∀ i ∈ sigReads v, v' i = v i) :
    (Refused v' ↔ Refused v) ∧ fieldOf v' 4 (lenR v') = fieldOf v 4 (lenR v) ∧
      fieldOf v' (tagS v' + 2) (lenS v') = fieldOf v (tagS v + 2) (lenS v) := by
  have hlenR : lenR v' = lenR v := congrArg UInt8.toNat (h 3 (by simp [sigReads]))
  have htagS : tagS v' = tagS v := by
    unfold tagS
    rw [hlenR]
  have hlenS : lenS v' = lenS v := by
    unfold lenS
    rw [htagS]
    exact congrArg UInt8.toNat (h _ (by simp [sigReads]))
  refine ⟨?_, ?_, ?_⟩
  · unfold Refused
    rw [htagS, h 0 (by simp [sigReads]), h 2 (by simp [sigReads]), h (tagS v) (by simp [sigReads])]
  · rw [hlenR]
    refine fieldOf_eq_iff.2 fun i hi => h i ?_
    exact List.mem_append_left _ (List.mem_append_right _ hi)
  · rw [htagS, hlenS]
    exact fieldOf_eq_iff.2 fun i hi => h i (List.mem_append_right _ hi)

variable {E : Env PeerKeys} {P : VerifyPrims} {sha : Sha256} {a : Arrival}
variable {n : Nat} {view view' : Buffer} {snap : List UInt8} {k : PeerKeys}

/-- A byte below `n` that the handler refuses. -/
def CvRefused (n : Nat) (view : Buffer) : Prop :=
  view 0 ≠ hsCertVerify ∨ (4 < n ∧ view 4 ≠ 0x04) ∨ (5 < n ∧ view 5 ≠ 0x03) ∨
    (6 < n ∧ view 6 ≠ 0) ∨ (8 < n ∧ view 8 ≠ 0x30) ∨ (10 < n ∧ view 10 ≠ 0x02) ∨
    (11 < n ∧ 8 + tagS (sigView view) < n ∧ view (8 + tagS (sigView view)) ≠ 0x02)

/-- A CertificateVerify that is refused for one of its own bytes, or that has the length that its
contents require and all of what the parser reads. -/
def CertVerifyKept (a : Arrival) : Prop :=
  CvRefused a.size a.view ∨
    (a.declared = a.required ∧ ∀ i ∈ sigReads (sigView a.view), 8 + i < a.size)

/-- The second number is in the first 256 bytes of the signature. -/
theorem tagS_congr (h : view' 11 = view 11) : tagS (sigView view') = tagS (sigView view) := by
  unfold tagS lenR sigView
  rw [h]

/-- A byte of the message that is refused is refused in every memory. -/
theorem CvRefused.verdict (hn : 0 < n) (h : CvRefused n view) (hv : Agrees n view view')
    (verify : Buffer → Bool) :
    (tlsHandleCertVerify sha verify view' snap k).2 = false := by
  refine Bool.eq_false_iff.2 fun htrue => ?_
  rw [tlsHandleCertVerify_iff] at htrue
  obtain ⟨hhead, hno, -⟩ := htrue
  rcases h with h | ⟨hlt, h⟩ | ⟨hlt, h⟩ | ⟨hlt, h⟩ | ⟨hlt, h⟩ | ⟨hlt, h⟩ | ⟨hlt, htag, h⟩
  · exact h ((hv 0 hn).symm.trans hhead.ty)
  · exact h ((hv 4 hlt).symm.trans hhead.schemeHi)
  · exact h ((hv 5 hlt).symm.trans hhead.schemeLo)
  · exact h ((hv 6 hlt).symm.trans hhead.lenHi)
  · refine hno (Or.inl fun h' => h ?_)
    exact (hv 8 hlt).symm.trans h'
  · refine hno (Or.inr (Or.inl fun h' => h ?_))
    exact (hv 10 hlt).symm.trans h'
  · refine hno (Or.inr (Or.inr fun h' => h ?_))
    rw [tagS_congr (hv 11 hlt)] at h'
    exact (hv _ htag).symm.trans h'

/-- With all the parser reads in the message, the verdict is the message's. -/
theorem determined_of_contained (hn : 6 < n) (hreads : ∀ i ∈ sigReads (sigView view), 8 + i < n)
    (verify : Buffer → Bool) :
    Determined n (fun view => (tlsHandleCertVerify sha verify view snap k).2) view := by
  intro v' hv'
  have hsig := @sig_congr (sigView view) (sigView v') fun i hi => hv' _ (hreads i hi)
  have hhead : CvHead v' ↔ CvHead view := by
    constructor
    · rintro ⟨h₀, h₄, h₅, h₆⟩
      exact ⟨(hv' 0 (by omega)).symm.trans h₀, (hv' 4 (by omega)).symm.trans h₄,
        (hv' 5 (by omega)).symm.trans h₅, (hv' 6 hn).symm.trans h₆⟩
    · rintro ⟨h₀, h₄, h₅, h₆⟩
      exact ⟨(hv' 0 (by omega)).trans h₀, (hv' 4 (by omega)).trans h₄,
        (hv' 5 (by omega)).trans h₅, (hv' 6 hn).trans h₆⟩
  have hstruct : cvStruct sha v' snap k.ecdsa = cvStruct sha view snap k.ecdsa := by
    unfold cvStruct
    rw [hsig.2.1, hsig.2.2]
  rw [Bool.eq_iff_iff, tlsHandleCertVerify_iff, tlsHandleCertVerify_iff, hhead, hsig.1, hstruct]

/-- The message, continued so that the parser finds its tags. -/
def continued (n : Nat) (view : Buffer) : Buffer := fun i =>
  if i < n then view i
  else if i = 4 then 0x04
  else if i = 5 then 0x03
  else if i = 6 then 0
  else if i = 8 then 0x30
  else if i = 11 then 0
  else 0x02

theorem continued_of_le {i : Nat} (h : n ≤ i) : continued n view i =
    if i = 4 then 0x04 else if i = 5 then 0x03 else if i = 6 then 0
    else if i = 8 then 0x30 else if i = 11 then 0 else 0x02 :=
  if_neg (Nat.not_lt.2 h)

theorem agrees_continued (n : Nat) (view : Buffer) : Agrees n view (continued n view) :=
  fun _ hi => if_pos hi

/-- A message none of whose bytes is refused can be continued to one that the parser accepts. -/
theorem continued_accepted (hn : 0 < n) (h : ¬ CvRefused n view) :
    CvHead (continued n view) ∧ ¬ Refused (sigView (continued n view)) := by
  have hcell : ∀ i b, (i < n → view i = b) → (n ≤ i → continued n view i = b) →
      continued n view i = b := by
    intro i b hin hout
    rcases Nat.lt_or_ge i n with hlt | hge
    · exact (agrees_continued n view i hlt).trans (hin hlt)
    · exact hout hge
  simp only [CvRefused, not_or, not_and, not_not] at h
  obtain ⟨h₀, h₄, h₅, h₆, h₈, h₁₀, hs⟩ := h
  refine ⟨⟨?_, ?_, ?_, ?_⟩, ?_⟩
  · exact (agrees_continued n view 0 hn).trans h₀
  · exact hcell 4 _ h₄ fun hge => continued_of_le hge
  · exact hcell 5 _ h₅ fun hge => continued_of_le hge
  · exact hcell 6 _ h₆ fun hge => continued_of_le hge
  · rintro (hne | hne | hne)
    · exact hne (hcell 8 _ h₈ fun hge => continued_of_le hge)
    · exact hne (hcell 10 _ h₁₀ fun hge => continued_of_le hge)
    · refine hne ?_
      rcases Nat.lt_or_ge 11 n with hlt | hge
      · -- the length of the first number is there, and so the place of the second tag
        rw [tagS_congr (agrees_continued n view 11 hlt)]
        refine hcell _ _ (hs hlt) fun hge => ?_
        rw [continued_of_le hge, if_neg (by omega), if_neg (by omega), if_neg (by omega),
          if_neg (by omega), if_neg (by omega)]
      · have hlen : lenR (sigView (continued n view)) = 0 := by
          unfold lenR sigView
          rw [continued_of_le hge]
          rfl
        have htag : tagS (sigView (continued n view)) = 4 := by
          unfold tagS
          rw [hlen]
        rw [htag]
        exact continued_of_le (by omega)

/-- The numbers in the structure are those of the signature. -/
theorem cvStruct_fields (g : Buffer) :
    bytesAt (cvStruct sha view snap g) ecdsaSigR 32 =
        fieldOf (sigView view) 4 (lenR (sigView view)) ∧
      bytesAt (cvStruct sha view snap g) ecdsaSigS 32 =
        fieldOf (sigView view) (tagS (sigView view) + 2) (lenS (sigView view)) := by
  have hself : ∀ (m : Buffer) (f y len : Nat), bytesAt (store m f (fieldOf (sigView view) y len)) f 32 =
      fieldOf (sigView view) y len := by
    intro m f y len
    have h := bytesAt_store_self m f (fieldOf (sigView view) y len)
    rwa [length_fieldOf] at h
  unfold cvStruct
  constructor
  · rw [bytesAt_store_of_disjoint _ _ (Or.inl (by decide)),
      bytesAt_store_of_disjoint _ _ (Or.inl (by decide)), hself]
  · rw [bytesAt_store_of_disjoint _ _ (Or.inl (by decide)), hself]

/-- Whatever is behind the message, the parser finds the same two numbers. -/
def SigFixed (n : Nat) (view : Buffer) : Prop :=
  ∀ view', Agrees n view view' →
    ¬ Refused (sigView view') ∧
      fieldOf (sigView view') 4 (lenR (sigView view')) =
        fieldOf (sigView view) 4 (lenR (sigView view)) ∧
      fieldOf (sigView view') (tagS (sigView view') + 2) (lenS (sigView view')) =
        fieldOf (sigView view) (tagS (sigView view) + 2) (lenS (sigView view))

/-- When no verifier's verdict depends on what is behind the message, the numbers do not either. -/
theorem sigFixed_of_determined (hdet : ∀ verify, Determined n (fun view =>
      (tlsHandleCertVerify sha verify view snap k).2) view)
    (hhead : CvHead view) (hno : ¬ Refused (sigView view)) : SigFixed n view := by
  intro view' hv
  -- the verifier that knows the numbers of this message and accepts no others
  have hsame := hdet
    (fun g => decide (bytesAt g ecdsaSigR 32 = fieldOf (sigView view) 4 (lenR (sigView view)) ∧
      bytesAt g ecdsaSigS 32 =
        fieldOf (sigView view) (tagS (sigView view) + 2) (lenS (sigView view)))) view' hv
  have hself : (tlsHandleCertVerify sha (fun g => decide (bytesAt g ecdsaSigR 32 =
      fieldOf (sigView view) 4 (lenR (sigView view)) ∧ bytesAt g ecdsaSigS 32 =
        fieldOf (sigView view) (tagS (sigView view) + 2) (lenS (sigView view)))) view snap k).2 =
      true := by
    rw [tlsHandleCertVerify_iff, decide_eq_true_iff]
    exact ⟨hhead, hno, cvStruct_fields k.ecdsa⟩
  have htrue := hsame.trans hself
  rw [tlsHandleCertVerify_iff, decide_eq_true_iff, (cvStruct_fields k.ecdsa).1,
    (cvStruct_fields k.ecdsa).2] at htrue
  exact htrue.2

/-- The number of an INTEGER of one byte is that byte. -/
theorem fieldOf_one (v : Buffer) (y : Nat) :
    fieldOf v y 1 = List.replicate 31 0 ++ [v (y % 256)] := by
  unfold fieldOf window ecdsaSigLen
  simp

theorem fieldOf_zero (v : Buffer) (y : Nat) : fieldOf v y 0 = List.replicate 31 0 ++ [0] := by
  rw [← List.replicate_succ']
  unfold fieldOf window ecdsaSigLen
  simp

/-- With zeros behind the message: the tags and the first length are in it. -/
theorem SigFixed.tags (h : SigFixed n view) :
    8 < n ∧ 10 < n ∧ 11 < n ∧ 8 + tagS (sigView view) < n := by
  have hz := (h _ (agrees_beyond n view 0)).1
  simp only [Refused, not_or, not_not] at hz
  have hcell : ∀ i (b : UInt8), b ≠ 0 → beyond n view 0 i = b → i < n := by
    intro i b hb heq
    by_contra hge
    rw [beyond_of_le 0 (Nat.le_of_not_lt hge)] at heq
    exact hb heq.symm
  have h₃ : 11 < n := by
    by_contra hge
    have hlen : lenR (sigView (beyond n view 0)) = 0 :=
      congrArg UInt8.toNat (beyond_of_le 0 (Nat.le_of_not_lt hge))
    have htag : tagS (sigView (beyond n view 0)) = 4 := by
      unfold tagS
      rw [hlen]
    rw [htag] at hz
    have hlt := hcell 12 _ (by decide) hz.2.2
    omega
  have hlast := hz.2.2
  rw [tagS_congr (agrees_beyond n view 0 11 h₃)] at hlast
  exact ⟨hcell 8 _ (by decide) hz.1, hcell 10 _ (by decide) hz.2.1, h₃,
    hcell _ _ (by decide) hlast⟩

theorem SigFixed.tagS_eq (h : SigFixed n view) (hv : Agrees n view view') :
    tagS (sigView view') = tagS (sigView view) :=
  tagS_congr (hv 11 h.tags.2.2.1)

/-- With zeros and with ones behind the message: the second length is in it. -/
theorem SigFixed.lenS_lt (h : SigFixed n view) : 8 + inc8 (tagS (sigView view)) < n := by
  by_contra hge
  have hge' := Nat.le_of_not_lt hge
  have hlen : ∀ b : UInt8, lenS (sigView (beyond n view b)) = b.toNat := by
    intro b
    unfold lenS
    rw [h.tagS_eq (agrees_beyond n view b)]
    exact congrArg UInt8.toNat (beyond_of_le b hge')
  have hsame : fieldOf (sigView (beyond n view 1)) (tagS (sigView view) + 2) 1 =
      fieldOf (sigView (beyond n view 0)) (tagS (sigView view) + 2) 0 := by
    have hone := (h _ (agrees_beyond n view 1)).2.2
    have hzero := (h _ (agrees_beyond n view 0)).2.2
    rw [hlen, h.tagS_eq (agrees_beyond n view 1)] at hone
    rw [hlen, h.tagS_eq (agrees_beyond n view 0)] at hzero
    exact hone.trans hzero.symm
  rw [fieldOf_one, fieldOf_zero, List.append_right_inj, List.singleton_inj] at hsame
  have htags := h.tags
  have hlt : tagS (sigView view) < 256 := Nat.mod_lt _ (by decide)
  have hne : tagS (sigView view) ≠ 255 := by
    intro heq
    rw [heq] at hge'
    unfold inc8 at hge'
    omega
  have hinc : inc8 (tagS (sigView view)) = tagS (sigView view) + 1 := inc8_of_lt (by omega)
  rw [hinc] at hge'
  rcases Nat.lt_or_ge (tagS (sigView view)) 254 with hlt | hge
  · have hout : sigView (beyond n view 1) (tagS (sigView view) + 2) = 1 :=
      beyond_of_le 1 (by omega)
    rw [Nat.mod_eq_of_lt (by omega), hout] at hsame
    cases hsame
  · -- the cursor wraps to the tag of the SEQUENCE
    have heq : tagS (sigView view) = 254 := by omega
    have hno := (h _ (agrees_beyond n view 1)).1
    simp only [Refused, not_or, not_not] at hno
    rw [heq, show (254 + 2) % 256 = 0 from rfl, hno.1] at hsame
    cases hsame

/-- With another byte behind the message: the contents are in it. -/
theorem SigFixed.contents {i : Nat} (h : SigFixed n view)
    (hi : i ∈ fieldOffsets 4 (lenR (sigView view)) ∨
      i ∈ fieldOffsets (tagS (sigView view) + 2) (lenS (sigView view))) : 8 + i < n := by
  by_contra hge
  have hu : Agrees n view (Function.update view (8 + i) (view (8 + i) + 1)) :=
    agrees_update (Nat.le_of_not_lt hge) _
  have hdiff : sigView (Function.update view (8 + i) (view (8 + i) + 1)) i ≠ sigView view i := by
    unfold sigView
    rw [Function.update_self]
    simp
  have hlenR : lenR (sigView (Function.update view (8 + i) (view (8 + i) + 1))) =
      lenR (sigView view) := congrArg UInt8.toNat (hu 11 h.tags.2.2.1)
  have hlenS : lenS (sigView (Function.update view (8 + i) (view (8 + i) + 1))) =
      lenS (sigView view) := by
    unfold lenS
    rw [h.tagS_eq hu]
    exact congrArg UInt8.toNat (hu _ h.lenS_lt)
  obtain ⟨-, hr, hs⟩ := h _ hu
  rw [hlenR, fieldOf_eq_iff] at hr
  rw [h.tagS_eq hu, hlenS, fieldOf_eq_iff] at hs
  rcases hi with hi | hi
  · exact hdiff (hr i hi)
  · exact hdiff (hs i hi)

/-- All that the parser reads is in the message. -/
theorem SigFixed.reads_lt (h : SigFixed n view) : ∀ i ∈ sigReads (sigView view), 8 + i < n := by
  obtain ⟨h₀, h₂, h₃, hs⟩ := h.tags
  intro i hi
  simp only [sigReads, List.mem_append, List.mem_cons, List.not_mem_nil, or_false] at hi
  rcases hi with ((rfl | rfl | rfl | rfl | rfl) | hi) | hi
  · exact h₀
  · exact h₂
  · exact h₃
  · exact hs
  · exact h.lenS_lt
  · exact h.contents (Or.inl hi)
  · exact h.contents (Or.inr hi)

theorem certVerify_bound_iff (h : a.ty = hsCertVerify) :
    (∀ verify, Bound (verifying P verify E) a) ↔ CertVerifyKept a := by
  have hreq : a.required = 4 + word (a.view 6) (a.view 7) := by
    unfold Arrival.required
    rw [if_neg (by rw [h]; decide)]
  constructor
  · intro hb
    refine or_iff_not_imp_left.2 ?_
    intro hkept
    have hdet := fun verify => (blind_certVerify_iff h).1 (hb verify).blind
    obtain ⟨hhead, hno⟩ := continued_accepted a.size_pos hkept
    -- the verifier that accepts everything accepts the message
    have hsame := hdet (fun _ => true) _ (agrees_continued a.size a.view)
    have htrue : (tlsHandleCertVerify E.sha (fun _ => true) a.view a.state.snap
        a.state.keys).2 = true :=
      hsame.symm.trans (tlsHandleCertVerify_iff.2 ⟨hhead, hno, rfl⟩)
    have hself := tlsHandleCertVerify_iff.1 htrue
    exact ⟨(hb fun _ => true).exact ((Arrival.accepted_certVerify h).trans htrue),
      (sigFixed_of_determined hdet hself.1 hself.2.1).reads_lt⟩
  · rintro (hkept | ⟨hexact, hreads⟩) verify
    · have hfalse : ∀ v, Agrees a.size a.view v →
          (tlsHandleCertVerify E.sha verify v a.state.snap a.state.keys).2 = false :=
        fun v hv => hkept.verdict a.size_pos hv verify
      refine ⟨fun htrue => ?_, (blind_certVerify_iff h).2 (Determined.of_const hfalse)⟩
      rw [Arrival.accepted_certVerify h, hfalse _ (fun _ _ => rfl)] at htrue
      cases htrue
    · refine ⟨fun _ => hexact, (blind_certVerify_iff h).2 ?_⟩
      exact determined_of_contained (by have := hreads 0 (by simp [sigReads]); omega) hreads verify

end CertVerify

/-! ## Both handlers -/

/-- The condition on the message, by its type. -/
def MessageKept (P : VerifyPrims) (a : Arrival) : Prop :=
  if a.ty = hsFinished then FinishedKept P a else CertVerifyKept a

/-- The handlers keep to the message, whatever the verifier answers, exactly when the message has
the length that its contents require, or is refused for what it holds itself. -/
theorem bound_iff (P : VerifyPrims) (E : Env PeerKeys) (a : Arrival)
    (h : a.ty = hsFinished ∨ a.ty = hsCertVerify) :
    (∀ verify, Bound (verifying P verify E) a) ↔ MessageKept P a := by
  rcases h with h | h
  · unfold MessageKept
    rw [if_pos h]
    exact ⟨fun hb => (finished_bound_iff h).1 (hb fun _ => false),
      fun hk _ => (finished_bound_iff h).2 hk⟩
  · unfold MessageKept
    rw [if_neg (by rw [h]; decide)]
    exact certVerify_bound_iff h

/-- A Finished of `n` bytes in the record, with the verify data behind its header. -/
def finishedOf (P : VerifyPrims) (n : Nat) : Arrival :=
  .deframed 0xA000
    (ofList ([hsFinished, 0, 0, UInt8.ofNat n] ++
      tlsComputeFinished P (List.replicate 32 0) (List.replicate 32 0)) fun _ => 0)
    { Hs.blank ⟨List.replicate 32 0, fun _ => 0⟩ with
      tlsState := .finished
      snap := List.replicate 32 0
      hdr := ofList [hsFinished, 0, 0, UInt8.ofNat n] fun _ => 0
      msgLen := n
      recOff := 4 + n
      recLen := 36 }

/-- Labels and hashes of zeros. -/
def VerifyPrims.zeros : VerifyPrims where
  hkdfExpandLabel := fun _ _ _ _ _ => 0
  hmacSha256 := fun _ _ _ => 0

/-- Handlers that accept everything. -/
def Env.lenient : Env PeerKeys where
  sha := Env.accepting.sha
  recBufAddr := 0x9000
  carryBufAddr := 0xA000
  tlsHandleCertificate := fun _ _ k => (k, true)
  tlsHandleCertVerify := fun _ _ _ k => (k, true)
  tlsVerifyFinished := fun _ _ _ k => (k, true)
  tlsCertStreamFinish := fun _ _ k => (k, true)

theorem bound_iff_finished :
    (finishedOf .zeros 32).declared = 32 ∧
      ∀ verify, Bound (verifying .zeros verify .lenient) (finishedOf .zeros 32) :=
  ⟨rfl, (bound_iff .zeros .lenient (finishedOf .zeros 32) (Or.inl rfl)).2 (Or.inl rfl)⟩

/-- A Finished that is declared empty is accepted for the 32 bytes that follow it. -/
theorem not_bound :
    ¬ ∃ (P : VerifyPrims) (E : Env PeerKeys) (verify : Buffer → Bool),
      Bound (verifying P verify E) (finishedOf P 0) := by
  rintro ⟨P, E, verify, hb⟩
  have hdata : bytesAt (finishedOf P 0).view 4 32 =
      tlsComputeFinished P (List.replicate 32 0) (List.replicate 32 0) := by
    refine (bytesAt_ofList_sub _ _ (by simp)).trans ?_
    rw [List.drop_append_of_le_length (by simp), List.drop_of_length_le (by simp), List.nil_append,
      List.take_of_length_le (by simp)]
  have htrue : (finishedOf P 0).accepted (verifying P verify E) = true :=
    (Arrival.accepted_finished rfl).trans (tlsVerifyFinished_iff.2 hdata)
  have hexact : 0 = 32 := hb.exact htrue
  cases hexact

end Tls
end C64Https
