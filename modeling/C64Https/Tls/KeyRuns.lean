import C64Https.Tls.Handlers
import C64Https.Tls.KeyFlow
import C64Https.Tls.KeySchedule

/-!
# KeyRuns — the key schedule in a connection

`tls_c_hs_secret` holds the client's handshake secret until `tls_derive_traffic_keys` writes the
application secret over it, and the client's Finished needs the former.  The state below puts the
memory of the key schedule into a connection, with a log of what was computed from what; the program
has no such log.

The routines before the schedule may write what they like, the certificate handlers anything but the
handshake secrets (`KeepsSecrets`).  Whatever the connection comes to, its log is the beginning of the one that
RFC 8446 gives for the shared secret and the transcript hashes met (`keySchedule_rfc8446`).
-/

namespace C64Https
namespace Tls

open Bytes Fallible Hkdf Fips180 Crypto

/-! ## The state -/

/-- What was computed, and from what. -/
inductive KeyEvent where
  | handshake (shared th : List UInt8) (keys : TrafficKeys)
  | serverFinished (th mac : List UInt8)
  | clientFinished (th mac : List UInt8)
  | application (th : List UInt8) (keys : TrafficKeys)

structure ScheduleKeys (ρ : Type) where
  ram : KeyRam
  log : List KeyEvent
  rest : ρ

/-- `tls_transcript`, as `tls_transcript_hash` leaves it. -/
def snapshot32 (snap : List UInt8) : Vector UInt8 32 :=
  Vector.ofFn fun i => snap.getD i 0

/-- The keys of the first derivation. -/
def KeyRam.hsKeys (r : KeyRam) : TrafficKeys where
  write := { key := r.hsWriteKey.toList, iv := r.hsWriteIv.toList }
  read := { key := r.hsReadKey.toList, iv := r.hsReadIv.toList }

def KeyRam.appKeys (r : KeyRam) : TrafficKeys where
  write := { key := r.appWriteKey.toList, iv := r.appWriteIv.toList }
  read := { key := r.appReadKey.toList, iv := r.appReadIv.toList }

namespace ScheduleKeys

variable {ρ α : Type}

def emit (k : ScheduleKeys ρ) (e : KeyEvent) : ScheduleKeys ρ :=
  { k with log := k.log ++ [e] }

/-- A routine that is not part of the schedule. -/
def onAll (f : KeyRam × ρ → (KeyRam × ρ) × α) (k : ScheduleKeys ρ) : ScheduleKeys ρ × α :=
  let r := f (k.ram, k.rest)
  ({ k with ram := r.1.1, rest := r.1.2 }, r.2)

/-- `tls_derive_handshake_keys`. -/
def deriveHandshakeKeys (pqHybrid : Bool) (snap : List UInt8) (k : ScheduleKeys ρ) :
    ScheduleKeys ρ × TrafficKeys :=
  let before := { k.ram with transcript := snapshot32 snap }
  let after := Tls.tlsDeriveHandshakeKeys pqHybrid before
  ({ k with ram := after }.emit
    (.handshake (before.ikm pqHybrid) before.transcript.toList after.hsKeys), after.hsKeys)

/-- `tls_verify_finished`. -/
def verifyFinished (view : Buffer) (snap : List UInt8) (k : ScheduleKeys ρ) :
    ScheduleKeys ρ × Bool :=
  let ram := { k.ram with transcript := snapshot32 snap, hkdf.prk := k.ram.sHsSecret }
  let ram := ram.tlsComputeFinished
  ({ k with ram := ram }.emit (.serverFinished (snapshot32 snap).toList ram.verifyData.toList),
    decide (vfCmp (bytesAt view 4 32) ram.verifyData.toList 0 = 0))

/-- The first half of `tls_send_finished`. -/
def computeFinished (snap : List UInt8) (k : ScheduleKeys ρ) : ScheduleKeys ρ × List UInt8 :=
  let ram := { k.ram with transcript := snapshot32 snap, hkdf.prk := k.ram.cHsSecret }
  let ram := ram.tlsComputeFinished
  ({ k with ram := ram }.emit (.clientFinished (snapshot32 snap).toList ram.verifyData.toList),
    ram.verifyData.toList)

/-- `tls_derive_traffic_keys`. -/
def deriveTrafficKeys (snap : List UInt8) (k : ScheduleKeys ρ) : ScheduleKeys ρ × TrafficKeys :=
  let ram := Tls.tlsDeriveTrafficKeys { k.ram with transcript := snapshot32 snap }
  ({ k with ram := ram }.emit (.application (snapshot32 snap).toList ram.appKeys), ram.appKeys)

/-- The driver with the schedule in it. -/
def connEnv (E : ConnEnv (KeyRam × ρ)) : ConnEnv (ScheduleKeys ρ) where
  toRecordEnv := E.toRecordEnv
  df :=
    { sha := E.df.sha
      recBufAddr := E.df.recBufAddr
      carryBufAddr := E.df.carryBufAddr
      tlsHandleCertificate := fun ptr view => onAll (E.df.tlsHandleCertificate ptr view)
      tlsHandleCertVerify := fun ptr view snap =>
        onAll (E.df.tlsHandleCertVerify ptr view snap)
      tlsVerifyFinished := fun _ => verifyFinished
      tlsCertStreamFinish := fun buf len => onAll (E.df.tlsCertStreamFinish buf len) }
  streamDeframe := E.streamDeframe
  shDrain := E.shDrain
  shFuel := E.shFuel
  tlsBuildClientHello := onAll E.tlsBuildClientHello
  pqShDecaps := fun k pq => k.onAll fun r => E.pqShDecaps r pq
  tlsEcdhComputeShared := fun k pub buf =>
    let r := k.onAll fun r =>
      let x := E.tlsEcdhComputeShared r pub buf
      (x.1, x.2)
    (r.1, r.2.1, r.2.2)
  tlsDeriveHandshakeKeys := fun k snap => k.deriveHandshakeKeys E.pqHybrid snap
  certPinRequire := fun k => E.certPinRequire (k.ram, k.rest)
  tlsComputeFinished := fun k snap => k.computeFinished snap
  tlsDeriveTrafficKeys := fun k snap => k.deriveTrafficKeys snap

end ScheduleKeys

/-! ## The log of RFC 8446 -/

/-- The keys of the two traffic secrets, for the client. -/
def rfcKeys (client server : List UInt8) : TrafficKeys where
  write := { key := trafficKey sha256 32 client, iv := trafficIv sha256 32 client }
  read := { key := trafficKey sha256 32 server, iv := trafficIv sha256 32 server }

def rfcHandshake (shared th : List UInt8) : KeyEvent :=
  .handshake shared th (rfcKeys (clientHandshakeSecret sha256 32 shared th)
    (serverHandshakeSecret sha256 32 shared th))

/-- The server's Finished, of its handshake secret. -/
def rfcServerFinished (shared th th' : List UInt8) : KeyEvent :=
  .serverFinished th' (verifyData sha256 32 (serverHandshakeSecret sha256 32 shared th) th')

/-- The client's, of the handshake secret of the client. -/
def rfcClientFinished (shared th th' : List UInt8) : KeyEvent :=
  .clientFinished th' (verifyData sha256 32 (clientHandshakeSecret sha256 32 shared th) th')

def rfcApplication (shared th' : List UInt8) : KeyEvent :=
  .application th' (rfcKeys
    (clientTrafficSecret sha256 32 (handshakeSecret sha256 32 shared) th')
    (serverTrafficSecret sha256 32 (handshakeSecret sha256 32 shared) th'))

/-- A connection to its end: `th₁` up to the ServerHello, `th₂` before the server's Finished and `th₃`
behind it. -/
def rfcLog (shared th₁ th₂ th₃ : List UInt8) : List KeyEvent :=
  [ rfcHandshake shared th₁, rfcServerFinished shared th₁ th₂, rfcClientFinished shared th₁ th₃,
    rfcApplication shared th₃ ]

/-! ## What the keys are on the way -/

section Keys

variable {ρ : Type} {base : List KeyEvent} {k : ScheduleKeys ρ}

/-- The log is the beginning of one of the RFC's. -/
def OnSchedule (base : List KeyEvent) (k : ScheduleKeys ρ) : Prop :=
  ∃ shared th₁ th₂ th₃ n, k.log = base ++ (rfcLog shared th₁ th₂ th₃).take n

/-- The secrets of the handshake are in memory. -/
structure HsSecrets (shared th : List UInt8) (r : KeyRam) : Prop where
  handshake : r.handshakeSecret.toList = handshakeSecret sha256 32 shared
  client : r.cHsSecret.toList = clientHandshakeSecret sha256 32 shared th
  server : r.sHsSecret.toList = serverHandshakeSecret sha256 32 shared th

/-- The first derivation is done. -/
def Derived (base : List KeyEvent) (k : ScheduleKeys ρ) : Prop :=
  ∃ shared th₁, k.log = base ++ [rfcHandshake shared th₁] ∧ HsSecrets shared th₁ k.ram

/-- The server's Finished is verified. -/
def ServerDone (base : List KeyEvent) (k : ScheduleKeys ρ) : Prop :=
  ∃ shared th₁ th₂,
    k.log = base ++ [rfcHandshake shared th₁, rfcServerFinished shared th₁ th₂] ∧
      HsSecrets shared th₁ k.ram

/-- The client's Finished is computed, on the snapshot `snap`. -/
def ClientDone (base : List KeyEvent) (snap : List UInt8) (k : ScheduleKeys ρ) : Prop :=
  ∃ shared th₁ th₂,
    k.log = base ++ [ rfcHandshake shared th₁, rfcServerFinished shared th₁ th₂,
      rfcClientFinished shared th₁ (snapshot32 snap).toList ] ∧ HsSecrets shared th₁ k.ram

theorem onSchedule_start (h : k.log = base) : OnSchedule base k :=
  ⟨[], [], [], [], 0, h.trans (List.append_nil _).symm⟩

theorem Derived.onSchedule (h : Derived base k) : OnSchedule base k := by
  obtain ⟨shared, th₁, hlog, -⟩ := h
  exact ⟨shared, th₁, [], [], 1, hlog⟩

theorem ServerDone.onSchedule (h : ServerDone base k) : OnSchedule base k := by
  obtain ⟨shared, th₁, th₂, hlog, -⟩ := h
  exact ⟨shared, th₁, th₂, [], 2, hlog⟩

theorem ClientDone.onSchedule {snap : List UInt8} (h : ClientDone base snap k) :
    OnSchedule base k := by
  obtain ⟨shared, th₁, th₂, hlog, -⟩ := h
  exact ⟨shared, th₁, th₂, _, 3, hlog⟩

/-- The MAC leaves the secrets alone. -/
theorem finished_secrets {shared th : List UInt8} {r : KeyRam} (hr : HsSecrets shared th r)
    (t : Vector UInt8 32) (prk : Vector UInt8 32) :
    HsSecrets shared th { r with transcript := t, hkdf.prk := prk }.tlsComputeFinished ∧
      { r with transcript := t, hkdf.prk := prk }.tlsComputeFinished.verifyData.toList =
        verifyData sha256 32 prk.toList t.toList := by
  obtain ⟨h, key, mac, heq, hmac⟩ :=
    tlsComputeFinished_eq { r with transcript := t, hkdf.prk := prk }
  rw [heq]
  exact ⟨⟨hr.handshake, hr.client, hr.server⟩, hmac⟩

theorem derived_handshake (pqHybrid : Bool) (snap : List UInt8) (h : k.log = base) :
    Derived base (k.deriveHandshakeKeys pqHybrid snap).1 := by
  have hkeys := tlsDeriveHandshakeKeys_eq pqHybrid { k.ram with transcript := snapshot32 snap }
  refine ⟨_, _, ?_, hkeys.handshake, hkeys.client, hkeys.server⟩
  unfold ScheduleKeys.deriveHandshakeKeys ScheduleKeys.emit KeyRam.hsKeys
  dsimp only
  rw [hkeys.writeKey, hkeys.writeIv, hkeys.readKey, hkeys.readIv, h]
  rfl

/-- A certificate handler leaves the secrets of the handshake in memory. -/
structure KeepsHsSecrets {α : Type} (f : KeyRam × ρ → (KeyRam × ρ) × α) : Prop where
  handshake : ∀ r, (f r).1.1.handshakeSecret = r.1.handshakeSecret
  client : ∀ r, (f r).1.1.cHsSecret = r.1.cHsSecret
  server : ∀ r, (f r).1.1.sHsSecret = r.1.sHsSecret

/-- The three certificate handlers do. -/
structure KeepsSecrets (E : Env (KeyRam × ρ)) : Prop where
  certificate : ∀ ptr view, KeepsHsSecrets (E.tlsHandleCertificate ptr view)
  certVerify : ∀ ptr view snap, KeepsHsSecrets (E.tlsHandleCertVerify ptr view snap)
  leaf : ∀ buf len, KeepsHsSecrets (E.tlsCertStreamFinish buf len)

theorem derived_onAll {α : Type} {f : KeyRam × ρ → (KeyRam × ρ) × α} (hf : KeepsHsSecrets f)
    (h : Derived base k) : Derived base (k.onAll f).1 := by
  obtain ⟨shared, th₁, hlog, hsecrets⟩ := h
  refine ⟨shared, th₁, hlog, ?_, ?_, ?_⟩
  · exact (congrArg Vector.toList (hf.handshake (k.ram, k.rest))).trans hsecrets.handshake
  · exact (congrArg Vector.toList (hf.client (k.ram, k.rest))).trans hsecrets.client
  · exact (congrArg Vector.toList (hf.server (k.ram, k.rest))).trans hsecrets.server

theorem serverDone_verify (view : Buffer) (snap : List UInt8) (h : Derived base k) :
    ServerDone base (k.verifyFinished view snap).1 := by
  obtain ⟨shared, th₁, hlog, hsecrets⟩ := h
  obtain ⟨hkept, hmac⟩ := finished_secrets hsecrets (snapshot32 snap) k.ram.sHsSecret
  refine ⟨shared, th₁, (snapshot32 snap).toList, ?_, hkept⟩
  unfold ScheduleKeys.verifyFinished ScheduleKeys.emit
  dsimp only
  rw [hmac, hlog, hsecrets.server, List.append_assoc]
  rfl

theorem clientDone_compute (snap : List UInt8) (h : ServerDone base k) :
    ClientDone base snap (k.computeFinished snap).1 := by
  obtain ⟨shared, th₁, th₂, hlog, hsecrets⟩ := h
  obtain ⟨hkept, hmac⟩ := finished_secrets hsecrets (snapshot32 snap) k.ram.cHsSecret
  refine ⟨shared, th₁, th₂, ?_, hkept⟩
  unfold ScheduleKeys.computeFinished ScheduleKeys.emit
  dsimp only
  rw [hmac, hlog, hsecrets.client, List.append_assoc]
  rfl

/-- The last step, on the snapshot of the client's Finished. -/
theorem complete_traffic (snap : List UInt8) (h : ClientDone base snap k) :
    ∃ shared th₁ th₂ th₃,
      (k.deriveTrafficKeys snap).1.log = base ++ rfcLog shared th₁ th₂ th₃ := by
  obtain ⟨shared, th₁, th₂, hlog, hsecrets⟩ := h
  have hkeys := tlsDeriveTrafficKeys_eq { k.ram with transcript := snapshot32 snap }
  refine ⟨shared, th₁, th₂, (snapshot32 snap).toList, ?_⟩
  unfold ScheduleKeys.deriveTrafficKeys ScheduleKeys.emit KeyRam.appKeys
  dsimp only
  rw [hkeys.writeKey, hkeys.writeIv, hkeys.readKey, hkeys.readIv, hlog, List.append_assoc]
  dsimp only
  rw [hsecrets.handshake]
  rfl

end Keys

/-! ## Every connection -/

section Connection

variable {ρ : Type} {E : ConnEnv (KeyRam × ρ)} {base : List KeyEvent}

/-- The three messages before the Finished leave the secrets alone. -/
theorem scratch_rule (hE : KeepsSecrets E.df) (st : TlsState) (hst : dueType st ≠ some hsFinished) :
    KeyRule (ScheduleKeys.connEnv E).df st (Derived base) (Derived base) (OnSchedule base) where
  before := fun _ h => h.onSchedule
  after := fun _ h => h.onSchedule
  message := by
    intro ty ptr view snap k r hdue h hrun
    have hty : ty ≠ hsFinished := by
      rintro rfl
      exact hst hdue
    have hkept : Derived base r.1 := by
      unfold runHandler at hrun
      split at hrun
      · cases hrun
        exact h
      split at hrun
      · cases hrun
        exact derived_onAll (hE.certificate ptr view) h
      split at hrun
      · cases hrun
        exact derived_onAll (hE.certVerify ptr view snap) h
      · cases hrun
    unfold Settles
    split
    · exact hkept
    · exact hkept.onSchedule
  leaf := by
    intro _ buf len k h
    have hkept := derived_onAll (hE.leaf buf len) (h.elim id id)
    unfold Settles
    split
    · exact hkept
    · exact hkept.onSchedule

theorem serverFinished_rule : KeyRule (ScheduleKeys.connEnv E).df .finished (Derived base)
    (ServerDone base) (OnSchedule base) where
  before := fun _ h => h.onSchedule
  after := fun _ h => h.onSchedule
  message := by
    intro ty ptr view snap k r hdue h hrun
    cases hdue
    cases hrun
    have hdone := serverDone_verify view snap h
    unfold Settles
    split
    · exact hdone
    · exact hdone.onSchedule
  leaf := fun hdue => by cases hdue

/-- The client's Finished, from the secret that is still there. -/
theorem certPinSendFinished_keys : Triple (fun c => ServerDone base c.hs.keys)
    (certPinSendFinished (ScheduleKeys.connEnv E))
    (fun c => ClientDone base c.hs.snap c.hs.keys) (fun c => OnSchedule base c.hs.keys) := by
  intro c h c' ok hrun
  unfold certPinSendFinished at hrun
  split at hrun
  · have hdone : ClientDone base c'.hs.snap c'.hs.keys := by
      unfold tlsSendFinished at hrun
      have hc' := congrArg Prod.fst (Option.some.inj hrun)
      dsimp only at hc'
      unfold tlsRecordSendEncrypted at hc'
      rw [← hc', (tlsSendRecord_hs _ _).1]
      exact clientDone_compute c.hs.snap h
    cases ok with
    | true => exact hdone
    | false => exact hdone.onSchedule
  · cases hrun
    exact h.onSchedule

/-- Both key changes and both MACs, in one connection. -/
theorem connect_onSchedule (hE : KeepsSecrets E.df) : Triple (fun c => c.hs.keys.log = base)
    (tlsConnect (ScheduleKeys.connEnv E))
    (fun c => ∃ shared th₁ th₂ th₃, c.hs.keys.log = base ++ rfcLog shared th₁ th₂ th₃)
    (fun c => OnSchedule base c.hs.keys) := by
  intro c hc
  have hhello := (connectHello_quiet (ScheduleKeys.connEnv E) c.hs).and
    (connectHello_keys (E := ScheduleKeys.connEnv E) (R := fun k => k.log = base) fun _ h => h)
  have hserver := (connectServerHello_quiet (ScheduleKeys.connEnv E) c.hs).and
    (@connectServerHello_keys _ (ScheduleKeys.connEnv E) (fun k => k.log = base) (Derived base)
      (fun _ _ h => h) (fun _ _ _ h => h) (fun k snap h => derived_handshake E.pqHybrid snap h))
  have hstart : Triple (fun c' => Quiet c.hs c' ∧ Derived base c'.hs.keys)
      (Routine.pure (flightStart (ScheduleKeys.connEnv E)))
      (KeysBetween (ScheduleKeys.connEnv E) (Derived base))
      (fun c => OnSchedule base c.hs.keys) := by
    refine Triple.pure fun c h => ?_
    unfold flightStart
    split
    · exact ⟨h.1.1, fun _ => rfl, h.2⟩
    · rename_i hE
      exact ⟨h.1.1, fun hE' => absurd hE' hE, h.2⟩
  -- the first three messages leave the secrets alone, and the fourth checks the Finished under them
  have hflight := (((hstart.next (expect_keys (scratch_rule hE .encryptedExt (by decide)))).next
    (expect_keys (scratch_rule hE .certificate (by decide)))).next
      (expect_keys (scratch_rule hE .certVerify (by decide)))).next
        (expect_keys serverFinished_rule)
  have hfinish : Triple (fun c => ServerDone base c.hs.keys)
      (connectFinish (ScheduleKeys.connEnv E))
      (fun c => ∃ shared th₁ th₂ th₃, c.hs.keys.log = base ++ rfcLog shared th₁ th₂ th₃)
      (fun c => OnSchedule base c.hs.keys) := by
    refine Triple.next (Triple.next (Triple.pure fun c h => h) certPinSendFinished_keys)
      (Triple.pure fun c h => ?_)
    exact complete_traffic c.hs.snap h
  have hopened : Triple (fun c' => Resting c.hs c' ∧ c'.hs.keys.log = base)
      ((connectHello (ScheduleKeys.connEnv E)).next (connectServerHello (ScheduleKeys.connEnv E)))
      (fun c' => Quiet c.hs c' ∧ Derived base c'.hs.keys)
      (fun c => OnSchedule base c.hs.keys) := by
    refine Triple.next (Q := fun c' => Quiet c.hs c' ∧ c'.hs.keys.log = base) ?_ ?_
    · exact hhello.mono (fun _ h => h) (fun _ h => h) (fun _ h => onSchedule_start h.2)
    · exact hserver.mono (fun _ h => ⟨h.1, h.1.1, h.2⟩) (fun _ h => h)
        (fun _ h => onSchedule_start h.2)
  have hsteps := (hopened.next hflight).next
    (hfinish.mono (fun _ h => h.keys) (fun _ h => h) (fun _ h => h))
  refine Triple.onFail hsteps (fun c h => ?_) c ⟨⟨rfl, rfl⟩, hc⟩
  unfold connectError
  split
  · exact h
  · exact h

/-! ## The schedule is RFC 8446's -/

/-- The primitives, at the lengths that the schedule passes and beyond. -/
structure RfcPrimitives : Prop where
  hmac : ∀ m : HmacRam, m.dataLen.toNat ≤ 119 → bytesAt (hmacSha256 m).result 0 32 =
    Hkdf.hmac sha256 (bytesAt m.key 0 32) (bytesAt m.dataBuf 0 m.dataLen.toNat)
  extract : ∀ (r : KeyRam) (salt ikm : List UInt8),
    (r.deref r.hkdf.saltPtr).take r.hkdf.saltLen.toNat = salt →
    r.hkdf.saltLen.toNat = salt.length → salt.length ≤ 32 →
    (r.deref r.hkdf.ikmPtr).take r.hkdf.ikmLen.toNat = ikm →
    r.hkdf.ikmLen.toNat = ikm.length → ikm.length ≤ 64 →
    (hkdfExtract r).hkdf.prk.toList = Hkdf.extract sha256 32 salt ikm
  expandLabel : ∀ (r : KeyRam) (label context : List UInt8),
    (r.deref r.hkdf.labelPtr).take r.hkdf.labelLen.toNat = label →
    r.hkdf.labelLen.toNat = label.length →
    (r.deref r.hkdf.contextPtr).take r.hkdf.contextLen.toNat = context →
    r.hkdf.contextLen.toNat = context.length → label.length + context.length ≤ 100 →
    0 < r.hkdf.outLen.toNat → r.hkdf.outLen.toNat ≤ 32 →
    (hkdfExpandLabel r).hkdf.okm.toList.take r.hkdf.outLen.toNat =
      Hkdf.expandLabel sha256 32 r.hkdf.prk.toList label context r.hkdf.outLen.toNat

/-- The derivations, of whatever the memory holds. -/
structure RfcDerivations (pqHybrid : Bool) : Prop where
  handshake : ∀ r : KeyRam,
    HandshakeKeys (r.ikm pqHybrid) r.transcript.toList (tlsDeriveHandshakeKeys pqHybrid r)
  application : ∀ r : KeyRam,
    ApplicationKeys r.handshakeSecret.toList r.transcript.toList (tlsDeriveTrafficKeys r)
  finished : ∀ r : KeyRam, r.tlsComputeFinished.verifyData.toList =
    verifyData sha256 32 r.hkdf.prk.toList r.transcript.toList

theorem rfcPrimitives : RfcPrimitives where
  hmac := bytes_hmacSha256
  extract := by
    intro r salt ikm hsalt hsaltLen h32 hikm hikmLen h64
    obtain ⟨h, heq, hprk⟩ := hkdfExtract_eq r hsalt hsaltLen h32 hikm hikmLen h64
    rw [heq]
    exact hprk
  expandLabel := by
    intro r label context hlabel hlabelLen hcontext hcontextLen hshort hpos hout
    obtain ⟨h, heq, -, hokm⟩ :=
      hkdfExpandLabel_eq r hlabel hlabelLen hcontext hcontextLen hshort hpos hout
    rw [heq]
    exact hokm

theorem rfcDerivations (pqHybrid : Bool) : RfcDerivations pqHybrid where
  handshake := tlsDeriveHandshakeKeys_eq pqHybrid
  application := tlsDeriveTrafficKeys_eq
  finished := by
    intro r
    obtain ⟨h, key, mac, heq, hmac⟩ := tlsComputeFinished_eq r
    rw [heq]
    exact hmac

/-- HMAC, HKDF and the derivations are the RFC's, and in every connection, whatever its outcome, what
was computed is a beginning of the schedule for the shared secret and the transcript hashes it met: all
of it on success, the client's Finished from the client's handshake secret.  Of the certificate handlers it
is only asked that they leave the handshake secrets alone. -/
theorem keySchedule_rfc8446 (E : ConnEnv (KeyRam × ρ)) (hE : KeepsSecrets E.df) (c : Conn (ScheduleKeys ρ)) :
    RfcPrimitives ∧ RfcDerivations E.pqHybrid ∧
      Ends (fun c' => ∃ shared th₁ th₂ th₃,
          c'.hs.keys.log = c.hs.keys.log ++ rfcLog shared th₁ th₂ th₃)
        (fun c' => ∃ shared th₁ th₂ th₃ n,
          c'.hs.keys.log = c.hs.keys.log ++ (rfcLog shared th₁ th₂ th₃).take n)
        (tlsConnect (ScheduleKeys.connEnv E) c) :=
  ⟨rfcPrimitives, rfcDerivations _, fun c' ok hrun => connect_onSchedule hE c rfl c' ok hrun⟩

/-- Handlers that leave the memory as it is. -/
def idleHandlers : ConnEnv (KeyRam × Unit) where
  toRecordEnv := ConnEnv.accepting.toRecordEnv
  df :=
    { sha := Env.accepting.sha
      recBufAddr := Env.accepting.recBufAddr
      carryBufAddr := Env.accepting.carryBufAddr
      tlsHandleCertificate := fun _ _ r => (r, true)
      tlsHandleCertVerify := fun _ _ _ r => (r, true)
      tlsVerifyFinished := fun _ _ _ r => (r, true)
      tlsCertStreamFinish := fun _ _ r => (r, true) }
  streamDeframe := true
  shDrain := 0
  shFuel := 8
  tlsBuildClientHello := fun r => (r, some { head := [1, 0, 0, 0], bulk := [], tail := [] })
  pqShDecaps := fun r _ => (r, true)
  tlsEcdhComputeShared := fun r pub buf => (({ r.1 with sharedSecret := snapshot32 pub }, ()), buf, true)
  tlsDeriveHandshakeKeys := fun r _ => (r, .sample 1)
  certPinRequire := fun _ => true
  tlsComputeFinished := fun r _ => (r, List.replicate 32 0)
  tlsDeriveTrafficKeys := fun r _ => (r, .sample 3)

/-- Memory that holds zeros. -/
def KeyRam.blank : KeyRam where
  hkdf :=
    { hmac :=
        { sha :=
            { h0 := fun _ => 0, vars := fun _ => 0, w := fun _ => 0, block := fun _ => 0
              hash := fun _ => 0, temp1 := default, temp2 := default, temp3 := default
              t1 := default, t2 := default }
          key := fun _ => 0
          opadBlock := fun _ => 0
          dataBuf := fun _ => 0
          dataLen := 0
          result := fun _ => 0 }
      saltPtr := .emptyContext, saltLen := 0, ikmPtr := .emptyContext, ikmLen := 0
      labelPtr := .emptyContext, labelLen := 0, contextPtr := .emptyContext, contextLen := 0
      outLen := 0
      prk := .replicate 32 0
      okm := .replicate 32 0
      infoBuf := fun _ => 0
      infoLen := 0 }
  inputBuffer := .replicate 64 0
  sharedSecret := .replicate 32 0
  mlkemSs := .replicate 32 0
  kexGroup := 0
  transcript := .replicate 32 0
  earlySecret := .replicate 32 0
  handshakeSecret := .replicate 32 0
  masterSecret := .replicate 32 0
  hsWriteKey := .replicate 32 0
  hsWriteIv := .replicate 12 0
  hsReadKey := .replicate 32 0
  hsReadIv := .replicate 12 0
  appWriteKey := .replicate 32 0
  appWriteIv := .replicate 12 0
  appReadKey := .replicate 32 0
  appReadIv := .replicate 12 0
  cHsSecret := .replicate 32 0
  sHsSecret := .replicate 32 0
  derivedTmp := .replicate 32 0
  verifyData := .replicate 32 0
  finishedKey := .replicate 32 0

/-- Before the connection, with the server's records on the wire. -/
def idleConn : Conn (ScheduleKeys Unit) :=
  { Conn.blank [wireRecord ctHandshake sampleServerHello ++ sealedRecord sampleFlight] with
    hs := Hs.blank ⟨.blank, [], ()⟩ }

theorem keySchedule_rfc8446_idle :
    RfcPrimitives ∧ RfcDerivations false ∧
      Ends (fun c' => ∃ shared th₁ th₂ th₃,
          c'.hs.keys.log = idleConn.hs.keys.log ++ rfcLog shared th₁ th₂ th₃)
        (fun c' => ∃ shared th₁ th₂ th₃ n,
          c'.hs.keys.log = idleConn.hs.keys.log ++ (rfcLog shared th₁ th₂ th₃).take n)
        (tlsConnect (ScheduleKeys.connEnv idleHandlers) idleConn) := by
  have hkeeps : KeepsSecrets idleHandlers.df :=
    ⟨fun _ _ => ⟨fun _ => rfl, fun _ => rfl, fun _ => rfl⟩,
      fun _ _ _ => ⟨fun _ => rfl, fun _ => rfl, fun _ => rfl⟩,
      fun _ _ => ⟨fun _ => rfl, fun _ => rfl, fun _ => rfl⟩⟩
  exact keySchedule_rfc8446 idleHandlers hkeeps idleConn

end Connection

end Tls
end C64Https
