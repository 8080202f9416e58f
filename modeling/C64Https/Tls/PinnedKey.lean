import C64Https.Lib.History
import C64Https.Tls.CertPin
import C64Https.Tls.Handlers
import C64Https.Tls.KeyFlow

/-!
# PinnedKey — the key that is verified is the key that was hashed

The key lies in the structure of 160 bytes that the verifier reads, behind the two numbers of the
signature and the hash of the content.  The hook hashes a window of the certificate that it locates
backwards from the extractor's cursor.  The state below puts the structure and the policy side by side
and keeps a log of what was hashed and what was verified; the program has no such log.

In every connection, whatever the certificates and however often the extractor runs, a signature is
checked against the last 64 bytes of the window whose hash the policy admitted last
(`verified_key_is_hashed`).
-/

namespace C64Https
namespace Tls

open Word Bytes Fallible Crypto History

/-! ## The state of a pinned build -/

inductive PinEvent where
  /-- `cert_pin_hs_keys`: a new handshake -/
  | handshake
  /-- `cert_pin_check` on a window, with its hash and the policy it met, and the carry returned -/
  | checked (window hash : List UInt8) (policy : PinState) (ok : Bool)
  /-- `tls_handle_cert_verify`, with the structure as the verifier is handed it -/
  | verified (ecdsa : Buffer) (ok : Bool)

/-- `ecdsa_pubkey_x` and `ecdsa_pubkey_y` in the structure. -/
def ecdsaPubkeyX : Nat := 96

def ecdsaPubkeyY : Nat := 128

/-- The keys of a build with the hook; `rest` is what the key schedule keeps. -/
structure PinKeys (ρ : Type) where
  peer : PeerKeys
  curveId : Nat
  sigLen : Nat
  hashLen : Nat
  pin : PinState
  log : List PinEvent
  rest : ρ

/-- What a build links behind the extractor: the hook, and `x509_verify_hostname`, of the address, the
length and the memory of the leaf. -/
structure HookBuild where
  link : PinLink
  x509VerifyHostname : Option (Nat → Nat → Buffer → Bool)

variable {ρ : Type}

/-- The 91 bytes that end with Qy. -/
def pinWindow (qy ptr : Nat) (view : Buffer) : Buffer :=
  peek ptr view (sub16 qy pinYOffset)

/-- `@pass`. -/
def HookBuild.pass (B : HookBuild) (ptr len : Nat) (view : Buffer) : Bool :=
  match B.x509VerifyHostname with
  | none => true
  | some verifyHostname => verifyHostname ptr len view

/-- `cert_pin_check`, called with `ecdsa_curve_id` cleared. -/
def HookBuild.hook (B : HookBuild) (sha : Sha256) : KeyHook (PinState × List PinEvent) :=
  fun qy ptr len view k =>
    let window := pinWindow qy ptr view
    let hash := pinHash sha window fun _ => 0
    let r := certPinCheck B.link 0 hash k.1
    let ok := r.2 && B.pass ptr len view
    ((r.1, k.2 ++ [.checked (bytesAt window 0 pinSpkiLen) hash k.1 ok]), ok)

namespace PinKeys

/-- The extractor's part of the state. -/
def leaf (k : PinKeys ρ) : LeafKeys (PinState × List PinEvent) where
  pubkeyX := bytesAt k.peer.ecdsa ecdsaPubkeyX 32
  pubkeyY := bytesAt k.peer.ecdsa ecdsaPubkeyY 32
  curveId := k.curveId
  sigLen := k.sigLen
  hashLen := k.hashLen
  hook := (k.pin, k.log)

def setLeaf (k : PinKeys ρ) (l : LeafKeys (PinState × List PinEvent)) : PinKeys ρ :=
  { k with
    peer := { k.peer with
      ecdsa := store (store k.peer.ecdsa ecdsaPubkeyX l.pubkeyX) ecdsaPubkeyY l.pubkeyY }
    curveId := l.curveId
    sigLen := l.sigLen
    hashLen := l.hashLen
    pin := l.hook.1
    log := l.hook.2 }

/-- A certificate handler on the extractor's part. -/
def onLeaf (f : LeafKeys (PinState × List PinEvent) → LeafKeys (PinState × List PinEvent) × Bool)
    (k : PinKeys ρ) : PinKeys ρ × Bool :=
  let r := f k.leaf
  (k.setLeaf r.1, r.2)

/-- A routine of the key schedule on the rest. -/
def onRest {α : Type} (f : PeerKeys × ρ → (PeerKeys × ρ) × α) (k : PinKeys ρ) : PinKeys ρ × α :=
  let r := f (k.peer, k.rest)
  ({ k with peer := r.1.1, rest := r.1.2 }, r.2)

/-- `tls_handle_cert_verify`. -/
def handleCertVerify (sha : Sha256) (verify : Buffer → Bool) (view : Buffer) (snap : List UInt8)
    (k : PinKeys ρ) : PinKeys ρ × Bool :=
  let r := Tls.tlsHandleCertVerify sha verify view snap k.peer
  ({ k with peer := r.1, log := k.log ++ [.verified r.1.ecdsa r.2] }, r.2)

end PinKeys

/-- The handlers of the build. -/
def HookBuild.env (B : HookBuild) (verify : Buffer → Bool) (certBufAddr : Nat)
    (E : Env (PeerKeys × ρ)) : Env (PinKeys ρ) where
  sha := E.sha
  recBufAddr := E.recBufAddr
  carryBufAddr := E.carryBufAddr
  tlsHandleCertificate := fun ptr view =>
    PinKeys.onLeaf (Tls.tlsHandleCertificate (B.hook E.sha) ptr view)
  tlsHandleCertVerify := fun _ => PinKeys.handleCertVerify E.sha verify
  tlsVerifyFinished := fun ptr view snap => PinKeys.onRest (E.tlsVerifyFinished ptr view snap)
  tlsCertStreamFinish := fun buf len =>
    PinKeys.onLeaf (Tls.tlsCertStreamFinish (B.hook E.sha) certBufAddr buf len)

/-- The handshake driver of the build: the two calls that `cert_pin.s` wraps, over the rest. -/
def HookBuild.connEnv (B : HookBuild) (verify : Buffer → Bool) (certBufAddr : Nat)
    (E : ConnEnv (PeerKeys × ρ)) : ConnEnv (PinKeys ρ) where
  toRecordEnv := E.toRecordEnv
  df := B.env verify certBufAddr E.df
  streamDeframe := E.streamDeframe
  shDrain := E.shDrain
  shFuel := E.shFuel
  tlsBuildClientHello := PinKeys.onRest E.tlsBuildClientHello
  pqShDecaps := fun k pq => k.onRest fun r => E.pqShDecaps r pq
  tlsEcdhComputeShared := fun k pub buf => k.onRest fun r => E.tlsEcdhComputeShared r pub buf
  tlsDeriveHandshakeKeys := fun k snap =>
    PinKeys.onRest (fun r => E.tlsDeriveHandshakeKeys r snap)
      { k with pin := certPinHsKeys k.pin, log := k.log ++ [.handshake] }
  certPinRequire := fun k => certPinRequire B.link k.pin
  tlsComputeFinished := fun k snap => k.onRest fun r => E.tlsComputeFinished r snap
  tlsDeriveTrafficKeys := fun k snap => k.onRest fun r => E.tlsDeriveTrafficKeys r snap

/-! ## One extraction -/

/-- A window that the policy admitted, and the key at its end. -/
structure Accepted91 (B : HookBuild) (sha : Sha256) (window : List UInt8) (policy : PinState)
    (key : List UInt8) : Prop where
  length_eq : window.length = pinSpkiLen
  admits : Admits B.link policy (sha.digest window)
  key_eq : key = window.drop 27

section Extract

variable {B : HookBuild} {sha : Sha256} {ptr len : Nat} {view : Buffer}

/-- The window from its 27th byte on is what was copied. -/
theorem window_key (ptr : Nat) (view : Buffer) (a : Nat) :
    (bytesAt (pinWindow (add16 a 32) ptr view) 0 pinSpkiLen).drop 27 =
      peeks ptr view a 32 ++ peeks ptr view (add16 a 32) 32 := by
  have haddr : ∀ i, add16 (sub16 (add16 a 32) pinYOffset) (27 + i) = add16 a i := by
    intro i
    unfold add16 sub16 pinYOffset
    omega
  have hsecond : ∀ i, add16 a (32 + i) = add16 (add16 a 32) i := by
    intro i
    unfold add16
    omega
  have hfirst : bytesAt (pinWindow (add16 a 32) ptr view) 27 32 = peeks ptr view a 32 := by
    rw [bytesAt_eq_iff]
    refine ⟨by simp [peeks], fun i hi => ?_⟩
    simp only [pinWindow, peek, haddr, peeks]
    simp [hi, peek]
  have hlast : bytesAt (pinWindow (add16 a 32) ptr view) 59 32 =
      peeks ptr view (add16 a 32) 32 := by
    rw [bytesAt_eq_iff]
    refine ⟨by simp [peeks], fun i hi => ?_⟩
    have hi' : pinWindow (add16 a 32) ptr view (59 + i) = peek ptr view (add16 a 32) i := by
      unfold pinWindow peek
      rw [show 59 + i = 27 + (32 + i) by omega, haddr, hsecond]
    rw [hi']
    simp [peeks, hi]
  rw [drop_bytesAt _ 0 (by decide)]
  show bytesAt _ 27 64 = _
  rw [show 64 = 32 + 32 by rfl, bytesAt_add, hfirst, hlast]

/-- The extractor copies a key and has its window checked, or does neither. -/
theorem x509ExtractPubkey_hook (l : LeafKeys (PinState × List PinEvent)) :
    ((x509ExtractPubkey (B.hook sha) ptr view len l).2 = false ∧
      (x509ExtractPubkey (B.hook sha) ptr view len l).1.hook = l.hook) ∨
    ∃ window ok,
      (x509ExtractPubkey (B.hook sha) ptr view len l).2 = ok ∧
      (x509ExtractPubkey (B.hook sha) ptr view len l).1.hook.2 =
        l.hook.2 ++ [.checked window (sha.digest window) l.hook.1 ok] ∧
      (x509ExtractPubkey (B.hook sha) ptr view len l).1.pubkeyX.length = 32 ∧
      (x509ExtractPubkey (B.hook sha) ptr view len l).1.pubkeyY.length = 32 ∧
      (ok = true → Accepted91 B sha window l.hook.1
        ((x509ExtractPubkey (B.hook sha) ptr view len l).1.pubkeyX ++
          (x509ExtractPubkey (B.hook sha) ptr view len l).1.pubkeyY)) := by
  unfold x509ExtractPubkey
  dsimp only
  split
  · exact Or.inl ⟨rfl, rfl⟩
  split
  · exact Or.inl ⟨rfl, rfl⟩
  split
  · exact Or.inl ⟨rfl, rfl⟩
  · rename_i q _
    refine Or.inr ⟨bytesAt (pinWindow (add16 q 32) ptr view) 0 pinSpkiLen, _, rfl, ?_, ?_, ?_, ?_⟩
    · unfold copyPoint HookBuild.hook
      dsimp only
      rw [pinHash_eq]
    · simp [copyPoint, peeks]
    · simp [copyPoint, peeks]
    · intro hok
      have hcheck : (certPinCheck B.link 0 (pinHash sha (pinWindow (add16 q 32) ptr view)
          fun _ => 0) l.hook.1).2 = true := by
        have hboth := hok
        unfold copyPoint HookBuild.hook at hboth
        dsimp only at hboth
        exact (Bool.and_eq_true_iff.1 hboth).1
      rw [certPinCheck_iff, pinHash_eq] at hcheck
      exact ⟨length_bytesAt _ _ _, hcheck, (window_key ptr view q).symm⟩

end Extract

/-! ## What the log says -/

/-- A check of the hook, with this carry. -/
def PinEvent.IsCheck : PinEvent → Prop
  | .checked _ _ _ _ => True
  | _ => False

/-- The key in a structure. -/
def structKey (g : Buffer) : List UInt8 :=
  bytesAt g ecdsaPubkeyX 64

/-- The last check before was of the window that ends in the key of `g`; the policy admitted its hash,
in the handshake that is going on. -/
def Vouched (B : HookBuild) (sha : Sha256) (before : List PinEvent) (g : Buffer) : Prop :=
  ∃ front window policy back,
    before = front ++ .checked window (sha.digest window) policy true :: back ∧
      .handshake ∈ front ∧ (∀ e ∈ back, ¬ e.IsCheck) ∧ Accepted91 B sha window policy (structKey g)

/-- Every structure that was verified is vouched for. -/
def Justified (B : HookBuild) (sha : Sha256) (log : List PinEvent) : Prop :=
  Preceded (fun before e => ∀ g ok, e = .verified g ok → Vouched B sha before g) log

/-! ## One connection -/

section Run

variable {B : HookBuild} {sha : Sha256} {base : List PinEvent} {k : PinKeys ρ}

/-- Nothing of this connection is in the log. -/
def Fresh (base : List PinEvent) (k : PinKeys ρ) : Prop :=
  k.log = base

/-- The handshake keys are there, the leaf is not. -/
def HsKeyed (base : List PinEvent) (k : PinKeys ρ) : Prop :=
  k.log = base ++ [.handshake]

/-- The leaf was let through: its check is the last event, and its key is in the structure. -/
def Pinned (B : HookBuild) (sha : Sha256) (base : List PinEvent) (k : PinKeys ρ) : Prop :=
  ∃ checks window policy, (∀ e ∈ checks, e.IsCheck) ∧
    k.log = base ++ (.handshake :: checks ++ [.checked window (sha.digest window) policy true]) ∧
      Accepted91 B sha window policy (structKey k.peer.ecdsa)

/-- What this connection logged is justified. -/
def Honest (B : HookBuild) (sha : Sha256) (base : List PinEvent) (k : PinKeys ρ) : Prop :=
  ∃ new, k.log = base ++ new ∧ Justified B sha new

theorem justified_checks {log : List PinEvent} (h : ∀ e ∈ log, ∀ g ok, e ≠ .verified g ok) :
    Justified B sha log := by
  intro pre e post hsplit g ok he
  exact absurd he (h e (by rw [hsplit]; simp) g ok)

theorem IsCheck.not_verified {e : PinEvent} (h : e.IsCheck) (g : Buffer) (ok : Bool) :
    e ≠ .verified g ok := by
  intro he
  rw [he] at h
  exact h

theorem Fresh.honest (h : Fresh base k) : Honest B sha base k :=
  ⟨[], h.trans (List.append_nil _).symm, preceded_nil _⟩

theorem HsKeyed.honest (h : HsKeyed base k) : Honest B sha base k := by
  refine ⟨[.handshake], h, justified_checks ?_⟩
  intro e he g ok heq
  rw [List.mem_singleton] at he
  rw [he] at heq
  cases heq

theorem Pinned.honest (h : Pinned B sha base k) : Honest B sha base k := by
  obtain ⟨checks, window, policy, hchecks, hlog, -⟩ := h
  refine ⟨_, hlog, justified_checks ?_⟩
  intro e he g ok heq
  rw [heq, List.mem_append, List.mem_cons, List.mem_singleton] at he
  rcases he with (he | he) | he
  · cases he
  · exact IsCheck.not_verified (hchecks _ he) g ok rfl
  · cases he

/-- The structure holds the key that was copied. -/
theorem structKey_setLeaf (l : LeafKeys (PinState × List PinEvent))
    (hx : l.pubkeyX.length = 32) (hy : l.pubkeyY.length = 32) :
    structKey (k.setLeaf l).peer.ecdsa = l.pubkeyX ++ l.pubkeyY := by
  have hjoin := store_store k.peer.ecdsa ecdsaPubkeyX l.pubkeyX l.pubkeyY
  have hself := bytesAt_store_self k.peer.ecdsa ecdsaPubkeyX (l.pubkeyX ++ l.pubkeyY)
  rw [hx] at hjoin
  rw [List.length_append, hx, hy] at hself
  show bytesAt (store (store k.peer.ecdsa ecdsaPubkeyX l.pubkeyX) (ecdsaPubkeyX + 32) l.pubkeyY)
    ecdsaPubkeyX 64 = _
  rw [hjoin]
  exact hself

/-- An extraction that is let through is the last check; one that is not only adds its own. -/
theorem settles_leaf {f : LeafKeys (PinState × List PinEvent) →
      LeafKeys (PinState × List PinEvent) × Bool}
    {ptr len : Nat} {view : Buffer}
    (hf : f k.leaf = x509ExtractPubkey (B.hook sha) ptr view len k.leaf ∨
      f k.leaf = (k.leaf, false))
    {checks : List PinEvent} (hchecks : ∀ e ∈ checks, e.IsCheck)
    (hlog : k.log = base ++ (.handshake :: checks)) :
    Settles (Pinned B sha base) (Honest B sha base) (k.onLeaf f) := by
  have hplain : ∀ e ∈ PinEvent.handshake :: checks, ∀ g ok, e ≠ .verified g ok := by
    intro e he g ok
    rcases List.mem_cons.1 he with rfl | he
    · nofun
    · exact IsCheck.not_verified (hchecks e he) g ok
  have hsame : ∀ l : LeafKeys (PinState × List PinEvent), l.hook.2 = k.log →
      Settles (Pinned B sha base) (Honest B sha base) (k.setLeaf l, false) := by
    intro l hl
    exact ⟨_, hl.trans hlog, justified_checks hplain⟩
  rcases hf with hf | hf
  · -- the extraction asks the hook or stops in front of it
    rcases @x509ExtractPubkey_hook B sha ptr len view k.leaf with
      ⟨hno, hhook⟩ | ⟨window, ok, hok, hhook, hx, hy, haccepted⟩
    · unfold PinKeys.onLeaf
      dsimp only
      rw [hf, hno]
      exact hsame _ (congrArg Prod.snd hhook)
    · have hlog' : (k.setLeaf (x509ExtractPubkey (B.hook sha) ptr view len k.leaf).1).log =
          base ++ (.handshake :: checks ++ [.checked window (sha.digest window) k.pin ok]) := by
        show (x509ExtractPubkey (B.hook sha) ptr view len k.leaf).1.hook.2 = _
        rw [hhook]
        show k.log ++ _ = _
        rw [hlog, List.append_assoc]
        rfl
      unfold PinKeys.onLeaf
      dsimp only
      rw [hf, hok]
      cases ok with
      | true =>
          refine ⟨checks, window, k.pin, hchecks, hlog', ?_⟩
          rw [structKey_setLeaf _ hx hy]
          exact haccepted rfl
      | false =>
          refine ⟨_, hlog', justified_checks ?_⟩
          intro e he g ok
          rcases List.mem_append.1 he with he | he
          · exact hplain e he g ok
          · rw [List.mem_singleton] at he
            rw [he]
            nofun
  · unfold PinKeys.onLeaf
    dsimp only
    rw [hf]
    exact hsame _ rfl

/-- A leaf that was let through before stands among the checks. -/
theorem Pinned.checks (h : Pinned B sha base k) :
    ∃ checks, (∀ e ∈ checks, e.IsCheck) ∧ k.log = base ++ (.handshake :: checks) := by
  obtain ⟨checks, window, policy, hchecks, hlog, -⟩ := h
  refine ⟨checks ++ [.checked window (sha.digest window) policy true], ?_, by rw [hlog, List.cons_append]⟩
  intro e he
  rcases List.mem_append.1 he with he | he
  · exact hchecks e he
  · rw [List.mem_singleton] at he
    rw [he]
    trivial

/-- An INTEGER that is read is one field. -/
theorem sigInteger_store {v g g' : Buffer} {f y y' : Nat}
    (h : sigInteger v f y g = some (y', g')) : ∃ bs : List UInt8, bs.length = 32 ∧ g' = store g f bs := by
  by_cases htag : v y = 0x02
  · rw [sigInteger_eq g htag] at h
    cases h
    exact ⟨_, length_fieldOf _ _ _, rfl⟩
  · unfold sigInteger at h
    rw [if_pos htag] at h
    cases h

/-- Whatever becomes of the signature, the key stays. -/
theorem ecdsaParseDerSig_frame (v g : Buffer) : ∀ i ≥ 64, (ecdsaParseDerSig v g).1 i = g i := by
  intro i hi
  unfold ecdsaParseDerSig
  split
  · rfl
  split
  · rfl
  · rename_i y₁ g₁ hr
    obtain ⟨bs, hlen, rfl⟩ := sigInteger_store hr
    have hfirst : store g ecdsaSigR bs i = g i :=
      store_of_outside g (Or.inr (by rw [hlen]; unfold ecdsaSigR; omega))
    split
    · exact hfirst
    · rename_i y₂ g₂ hs
      obtain ⟨cs, hlen', rfl⟩ := sigInteger_store hs
      have hsecond : store (store g ecdsaSigR bs) ecdsaSigS cs i = store g ecdsaSigR bs i :=
        store_of_outside _ (Or.inr (by rw [hlen']; unfold ecdsaSigS; omega))
      exact hsecond.trans hfirst

/-- CertificateVerify is checked against the key that was in the structure. -/
theorem structKey_certVerify (hsha : ∀ h, (sha.final h).length = 32) (verify : Buffer → Bool)
    (view : Buffer) (snap : List UInt8) (p : PeerKeys) :
    structKey (Tls.tlsHandleCertVerify sha verify view snap p).1.ecdsa = structKey p.ecdsa := by
  have hframe : ∀ i, ecdsaPubkeyX ≤ i → (ecdsaParseDerSig (sigView view) p.ecdsa).1 i = p.ecdsa i :=
    fun i hi => ecdsaParseDerSig_frame _ _ i (Nat.le_trans (by decide) hi)
  unfold Tls.tlsHandleCertVerify structKey
  split
  · rfl
  split
  · rfl
  split
  · rfl
  split
  · rfl
  · split
    · rename_i g hparse
      rw [hparse] at hframe
      refine bytesAt_congr fun i _ => ?_
      exact hframe _ (Nat.le_add_right _ _)
    · rename_i g hparse
      rw [hparse] at hframe
      refine bytesAt_congr fun i _ => ?_
      have hout : store g ecdsaHash (cvHash sha snap) (ecdsaPubkeyX + i) = g (ecdsaPubkeyX + i) := by
        refine store_of_outside g (Or.inr ?_)
        unfold cvHash
        dsimp only
        rw [hsha]
        exact Nat.le_add_right _ _
      exact hout.trans (hframe _ (Nat.le_add_right _ _))

theorem settles_certVerify (hsha : ∀ h, (sha.final h).length = 32) (verify : Buffer → Bool)
    (view : Buffer) (snap : List UInt8) (h : Pinned B sha base k) :
    Honest B sha base (k.handleCertVerify sha verify view snap).1 := by
  obtain ⟨new, hnew, hjust⟩ := h.honest
  obtain ⟨checks, window, policy, hchecks, hlog, haccepted⟩ := h
  have hnew' : new = .handshake :: checks ++ [.checked window (sha.digest window) policy true] := by
    rw [hlog] at hnew
    exact (List.append_cancel_left hnew).symm
  refine ⟨new ++ [.verified (Tls.tlsHandleCertVerify sha verify view snap k.peer).1.ecdsa
    (Tls.tlsHandleCertVerify sha verify view snap k.peer).2], ?_, ?_⟩
  · show k.log ++ _ = _
    rw [hnew, List.append_assoc]
  · refine Preceded.concat hjust ?_
    intro g ok he
    cases he
    refine ⟨.handshake :: checks, window, policy, [], hnew', List.mem_cons_self, nofun, ?_⟩
    rw [structKey_certVerify hsha]
    exact haccepted

end Run

/-! ## The rules of the four messages -/

section Rules

variable {B : HookBuild} {verify : Buffer → Bool} {certBufAddr : Nat}
variable {E : Env (PeerKeys × ρ)} {base : List PinEvent}

theorem encryptedExt_rule : KeyRule (B.env verify certBufAddr E) .encryptedExt
    (HsKeyed base) (HsKeyed base) (Honest B E.sha base) where
  before := fun _ h => h.honest
  after := fun _ h => h.honest
  message := by
    intro ty ptr view snap k r hdue h hrun
    cases hdue
    cases hrun
    exact h
  leaf := fun hdue => by cases hdue

theorem certificate_rule : KeyRule (B.env verify certBufAddr E) .certificate
    (HsKeyed base) (Pinned B E.sha base) (Honest B E.sha base) where
  before := fun _ h => h.honest
  after := fun _ h => h.honest
  message := by
    intro ty ptr view snap k r hdue h hrun
    cases hdue
    cases hrun
    -- the header is refused, or the leaf behind it is read where it lies
    refine @settles_leaf ρ B E.sha base k _ (add16 ptr 11) (word (view 9) (view 10))
      (fun i => view (add16 i 11)) ?_ [] nofun h
    unfold Tls.tlsHandleCertificate
    split
    · exact Or.inr rfl
    split
    · exact Or.inr rfl
    split
    · exact Or.inr rfl
    split
    · exact Or.inr rfl
    · exact Or.inl rfl
  leaf := by
    intro _ buf len k h
    have hchecks : ∃ checks, (∀ e ∈ checks, PinEvent.IsCheck e) ∧
        k.log = base ++ (.handshake :: checks) :=
      h.elim (fun h => ⟨[], nofun, h⟩) fun h => h.checks
    obtain ⟨checks, hchecks, hlog⟩ := hchecks
    exact settles_leaf (Or.inl rfl) hchecks hlog

theorem certVerify_rule (hsha : ∀ h, (E.sha.final h).length = 32) :
    KeyRule (B.env verify certBufAddr E) .certVerify
      (Pinned B E.sha base) (Honest B E.sha base) (Honest B E.sha base) where
  before := fun _ h => h.honest
  after := fun _ h => h
  message := by
    intro ty ptr view snap k r hdue h hrun
    cases hdue
    cases hrun
    have hpost := settles_certVerify hsha verify view snap h
    unfold Settles
    split
    · exact hpost
    · exact hpost
  leaf := fun hdue => by cases hdue

theorem finished_rule : KeyRule (B.env verify certBufAddr E) .finished
    (Honest B E.sha base) (Honest B E.sha base) (Honest B E.sha base) where
  before := fun _ h => h
  after := fun _ h => h
  message := by
    intro ty ptr view snap k r hdue h hrun
    cases hdue
    cases hrun
    unfold Settles
    split
    · exact h
    · exact h
  leaf := fun hdue => by cases hdue

end Rules

/-! ## Every connection -/

section Connection

variable {B : HookBuild} {verify : Buffer → Bool} {certBufAddr : Nat}
variable {E : ConnEnv (PeerKeys × ρ)} {base : List PinEvent}

/-- From an entry to the record boundary behind the handshake keys. -/
theorem connect_opened (s : Hs (PinKeys ρ)) :
    Triple (fun c => Resting s c ∧ Fresh base c.hs.keys)
      ((connectHello (B.connEnv verify certBufAddr E)).next
        (connectServerHello (B.connEnv verify certBufAddr E)))
      (fun c => Quiet s c ∧ HsKeyed base c.hs.keys)
      (fun c => Honest B E.df.sha base c.hs.keys) := by
  have hhello := (connectHello_quiet (B.connEnv verify certBufAddr E) s).and
    (connectHello_keys (E := B.connEnv verify certBufAddr E) (R := Fresh base) fun _ h => h)
  have hserver := (connectServerHello_quiet (B.connEnv verify certBufAddr E) s).and
    (@connectServerHello_keys _ (B.connEnv verify certBufAddr E) (Fresh base) (HsKeyed base)
      (fun _ _ h => h) (fun _ _ _ h => h) (fun k _ h => congrArg (· ++ [PinEvent.handshake]) h))
  refine Triple.next (Q := fun c => Quiet s c ∧ Fresh base c.hs.keys) ?_ ?_
  · exact hhello.mono (fun _ h => h) (fun _ h => h) (fun _ h => h.2.honest)
  · exact hserver.mono (fun _ h => ⟨h.1, h.1.1, h.2⟩) (fun _ h => h) (fun _ h => h.2.honest)

theorem connect_honest (hsha : ∀ h, (E.df.sha.final h).length = 32) (s : Hs (PinKeys ρ)) :
    Triple (fun c => Resting s c ∧ Fresh base c.hs.keys)
      (tlsConnect (B.connEnv verify certBufAddr E))
      (fun c => Honest B E.df.sha base c.hs.keys) (fun c => Honest B E.df.sha base c.hs.keys) := by
  have hstart : Triple (fun c => Quiet s c ∧ HsKeyed base c.hs.keys)
      (Routine.pure (flightStart (B.connEnv verify certBufAddr E)))
      (KeysBetween (B.connEnv verify certBufAddr E) (HsKeyed base))
      (fun c => Honest B E.df.sha base c.hs.keys) := by
    refine Triple.pure fun c h => ?_
    unfold flightStart
    split
    · exact ⟨h.1.1, fun _ => rfl, h.2⟩
    · rename_i hE
      exact ⟨h.1.1, fun hE' => absurd hE' hE, h.2⟩
  have hflight := (((hstart.next (expect_keys encryptedExt_rule)).next
    (expect_keys certificate_rule)).next (expect_keys (certVerify_rule hsha))).next
      (expect_keys finished_rule)
  have hfinish := connectFinish_keys (E := B.connEnv verify certBufAddr E)
    (R := Honest B E.df.sha base) (fun _ _ h => h) (fun _ _ h => h)
  refine Triple.onFail (((connect_opened s).next hflight).next
    (hfinish.mono (fun _ h => h.keys) (fun _ h => h) (fun _ h => h))) ?_
  intro c h
  unfold connectError
  split
  · exact h
  · exact h

/-- In every connection of a pinned or trust-store build, whatever its outcome: each structure that
CertificateVerify was checked with holds the last 64 bytes of the window whose hash the policy
admitted last, in this connection. -/
theorem verified_key_is_hashed (B : HookBuild) (verify : Buffer → Bool) (certBufAddr : Nat)
    (E : ConnEnv (PeerKeys × ρ)) (hsha : ∀ h, (E.df.sha.final h).length = 32)
    (c c' : Conn (PinKeys ρ)) (ok : Bool)
    (hrun : tlsConnect (B.connEnv verify certBufAddr E) c = some (c', ok)) :
    ∃ new, c'.hs.keys.log = c.hs.keys.log ++ new ∧ Justified B E.df.sha new := by
  have hpost := @connect_honest ρ B verify certBufAddr E c.hs.keys.log hsha c.hs c
    ⟨⟨rfl, rfl⟩, rfl⟩ c' ok hrun
  cases ok with
  | true => exact hpost
  | false => exact hpost

/-- A leaf that is nothing but its key. -/
def keyLeaf : List UInt8 :=
  ecP256Oids ++ [0x03, 0x42, 0x00, 0x04] ++ List.replicate 32 1 ++ List.replicate 32 2

/-- The flight of a server with this leaf and a signature of two one-byte numbers. -/
def pinnedFlight : List UInt8 :=
  [hsEncryptedExt, 0, 0, 2, 0, 0] ++ ([hsCertificate, 0, 0, 96, 0, 0, 0, 92, 0, 0, 87] ++ keyLeaf ++
    [0, 0]) ++ [hsCertVerify, 0, 0, 12, 4, 3, 0, 8, 0x30, 6, 2, 1, 1, 2, 1, 1] ++
      [hsFinished, 0, 0, 32] ++ List.replicate 32 5

/-- A hash that mixes the halves of every block. -/
def mixing : Sha256 where
  init := List.replicate 32 0
  processBlock := fun h block => List.zipWith (fun a b => 3 * a + b) h
    (List.zipWith (fun a b => a + 5 * b) (block.take 32) (block.drop 32))
  final := fun h => (h ++ List.replicate 32 0).take 32

/-- A trust build without a pin, over a key schedule of zeros. -/
def firstUse : ConnEnv (PeerKeys × Unit) where
  toRecordEnv := ConnEnv.accepting.toRecordEnv
  df :=
    { sha := mixing
      recBufAddr := 0x9000
      carryBufAddr := 0xA000
      tlsHandleCertificate := fun _ _ k => (k, true)
      tlsHandleCertVerify := fun _ _ _ k => (k, true)
      tlsVerifyFinished := fun _ _ _ k => (k, true)
      tlsCertStreamFinish := fun _ _ k => (k, true) }
  streamDeframe := true
  shDrain := 0
  shFuel := 8
  tlsBuildClientHello := fun k => (k, some { head := [1, 0, 0, 0], bulk := [], tail := [] })
  pqShDecaps := fun k _ => (k, true)
  tlsEcdhComputeShared := fun k _ buf => (k, buf, true)
  tlsDeriveHandshakeKeys := fun k _ => (k, .sample 1)
  certPinRequire := fun _ => true
  tlsComputeFinished := fun k _ => (k, List.replicate 32 0)
  tlsDeriveTrafficKeys := fun k _ => (k, .sample 3)

/-- Nothing pinned; the policy is first use. -/
def firstUseKeys : PinKeys Unit where
  peer := { sHsSecret := List.replicate 32 0, ecdsa := fun _ => 0 }
  curveId := 0
  sigLen := 32
  hashLen := 32
  pin :=
    { certPinStatus := 0, tpMode := tpMFirst, tpBwarn := 0, tpOvrArmed := 0, tpGot := []
      tpOverride := [], tsRecSpki := [], tbFound := 0, tbSpki := [] }
  log := []
  rest := ()

/-- Before the connection, with the server's records on the wire. -/
def firstUseConn : Conn (PinKeys Unit) :=
  { Conn.blank [wireRecord ctHandshake sampleServerHello ++ sealedRecord pinnedFlight] with
    hs := Hs.blank firstUseKeys }

/-- An event by its hash or its key, and its carry. -/
def PinEvent.shown : PinEvent → List UInt8 × Bool
  | .handshake => ([], true)
  | .checked _ hash _ ok => (hash, ok)
  | .verified ecdsa ok => (structKey ecdsa, ok)

/-- What the first use logs: the window begins four bytes in front of the leaf, in the message. -/
def firstUseLog : List (List UInt8 × Bool) :=
  [([], true), (mixing.digest ([92, 0, 0, 87] ++ keyLeaf), true), (keyLeaf.drop 23, true)]

theorem verified_key_is_hashed_firstUse :
    ∃ c', tlsConnect (HookBuild.connEnv ⟨.trust none false, none⟩ (fun _ => true) 0xB000 firstUse)
        firstUseConn = some (c', true) ∧ c'.hs.keys.log.map PinEvent.shown = firstUseLog ∧
      ∃ new, c'.hs.keys.log = firstUseConn.hs.keys.log ++ new ∧
        Justified ⟨.trust none false, none⟩ firstUse.df.sha new := by
  have hrun : (tlsConnect (HookBuild.connEnv ⟨.trust none false, none⟩ (fun _ => true) 0xB000
      firstUse) firstUseConn).map (fun r => (r.2, r.1.hs.keys.log.map PinEvent.shown)) =
        some (true, firstUseLog) := by
    decide +kernel
  obtain ⟨⟨c', ok⟩, h, hok⟩ := Option.map_eq_some_iff.1 hrun
  obtain ⟨rfl, hlog⟩ := Prod.mk.inj hok
  have hlen : ∀ h, (firstUse.df.sha.final h).length = 32 := fun h =>
    List.length_take_of_le (by rw [List.length_append, List.length_replicate]; omega)
  exact ⟨c', h, hlog, verified_key_is_hashed _ _ _ firstUse hlen _ c' true h⟩

end Connection

end Tls
end C64Https
