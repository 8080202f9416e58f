import C64Https.Store.StoreRuns
import C64Https.Tls.CertPin

/-!
# TrustPolicy — trust on first use (`src/net/uci/trust_policy.s`)

Around the connections of one fetch stand `trust_pre`, which loads the host's record and chooses what the
hook enforces, and `trust_post`, which records what a completed handshake has earned, or shows a changed key
and lets the operator accept it for the next fetch.  The hook itself is `certPinCheck`; between the two it
decides whether the client's Finished goes out.

A fetch is given what it cannot decide: the disk's answers, the keys that the operator presses, what the
signed bundle holds for the host, and of each connection the certificates that the hook is run on and whether
the rest of the handshake goes through.  What it leaves is its outcome, dial by dial.
-/

namespace C64Https
namespace Store

open Bytes Word Tls

/-! ## State -/

/-- What a build with the trust store links: `HTTPS_PIN_SPKI` with `HTTPS_PIN_WARN`, `TRUST_BUNDLE`, and
`http_host_target`. -/
structure Build where
  digest : Digest
  pin : Option (List UInt8 × Bool)
  bundle : Bool
  target : List UInt8

def Build.link (B : Build) : PinLink :=
  .trust B.pin B.bundle

/-- `TP_M_NONE`. -/
def tpMNone : UInt8 := 0

def keyA : UInt8 := 0x41

def keyY : UInt8 := 0x59

def tsModeTofu : UInt8 := 1

def tsModeAccepted : UInt8 := 2

/-- The store, and the policy's own state; the hook reads the record's hash in the store. -/
structure Policy where
  store : TrustStore
  hook : PinState
  tpOvrKey : List UInt8
  tlsReachedConnected : Bool

/-- `TS_REC_SPKI`. -/
def recordSpki (r : List UInt8) : List UInt8 :=
  (r.drop 16).take 32

namespace Policy

def setMode (mode : UInt8) (p : Policy) : Policy :=
  { p with hook := { p.hook with tpMode := mode } }

/-- The armed accept is dropped. -/
def disarm (p : Policy) : Policy :=
  { p with hook := { p.hook with tpOvrArmed := 0 } }

end Policy

/-- `trust_state_init`. -/
def trustStateInit (p : Policy) : Policy :=
  { p with
    hook := { p.hook with
      tpMode := 0, tpBwarn := 0, tpOvrArmed := 0, tpGot := List.replicate 32 0,
      tpOverride := List.replicate 32 0, tbFound := 0, tbSpki := List.replicate 32 0 }
    tpOvrKey := List.replicate 16 0 }

/-! ## `trust_pre` -/

/-- What `trust_pre` meets: a socket still open, the slots, and the answer to its question. -/
structure PreInput where
  busy : Bool
  reads : Reads
  key : UInt8

/-- The clears at the top; without `TRUST_BUNDLE` nothing reads `tb_found`. -/
def tpClear (p : Policy) : Policy :=
  { p with hook := { p.hook with certPinStatus := 0, tpBwarn := 0, tpMode := tpMNone, tbFound := 0 } }

/-- `tp_is_build_host`, in a build with a pin. -/
def tpIsBuildHost (B : Build) (host : List UInt8) : Bool :=
  B.pin.isSome && host.map lower == B.target.map lower

/-- `tp_ask_unpinned`; true is carry clear. -/
def tpAskUnpinned (key : UInt8) (p : Policy) : Policy × Bool :=
  if key = keyY then (p.setMode tpMUnpinned, true) else (p, false)

/-- `@loaded`. -/
def tpLoaded (p : Policy) : Policy :=
  let p := if p.store.key = p.tpOvrKey then p else p.disarm
  if p.store.found = true then p.setMode tpMStore else p.setMode tpMFirst

/-- `trust_pre`; true dials. -/
def trustPre (B : Build) (host : List UInt8) (i : PreInput) (p : Policy) : Policy × Bool :=
  let p := tpClear p
  if tpIsBuildHost B host = true then (p.disarm.setMode tpMPin, true)
  else
    let p := { p with store := trustStoreLoad B.digest i.busy host i.reads p.store }
    if p.store.state = .fail then tpAskUnpinned i.key p.disarm else (tpLoaded p, true)

/-- What `trust_bundle` has for the host. -/
def trustBundle (B : Build) (spki : Option (List UInt8)) (p : Policy) : Policy :=
  if B.bundle = true then
    { p with hook := { p.hook with
      tbFound := if spki.isSome then 1 else 0, tbSpki := spki.getD p.hook.tbSpki } }
  else p

/-! ## A connection -/

/-- One run of the hook: the curve and the hash of the key, and `x509_verify_hostname`. -/
structure Check where
  curveId : Nat
  hash : List UInt8
  length_hash : hash.length = 32
  nameOk : Bool

/-- A connection, as far as the policy is concerned, with what it leaves in the ring. -/
inductive Connection where
  /-- the name or the TCP connection failed -/
  | undialled (ring : Buffer)
  /-- `tls_connect` failed before the handshake keys -/
  | early (ring : Buffer)
  /-- the hook is run on each certificate, and the rest of the handshake goes through or not -/
  | handshake (ring : Buffer) (checks : List Check) (finish : Bool)

def Connection.checks : Connection → List Check
  | .handshake _ checks _ => checks
  | _ => []

def hookRun (B : Build) (c : Check) (p : Policy) : Policy × Bool :=
  let r := certPinCheck B.link c.curveId c.hash { p.hook with tsRecSpki := recordSpki p.store.record }
  ({ p with hook := r.1 }, r.2 && c.nameOk)

/-- A refusal ends the handshake. -/
def runChecks (B : Build) : List Check → Policy → Policy × Bool
  | [], p => (p, true)
  | c :: cs, p => if (hookRun B c p).2 = true then runChecks B cs (hookRun B c p).1 else hookRun B c p

def setRing (ring : Buffer) (p : Policy) : Policy :=
  { p with store := { p.store with buf := ring } }

/-- `cert_pin_send_finished` and what follows it. -/
def finishConnect (B : Build) (finish : Bool) (r : Policy × Bool) : Policy :=
  { r.1 with tlsReachedConnected := r.2 && certPinRequire B.link r.1.hook && finish }

def connect (B : Build) (c : Connection) (p : Policy) : Policy :=
  match c with
  | .undialled ring => setRing ring p
  | .early ring => { setRing ring p with tlsReachedConnected := false }
  | .handshake ring checks finish =>
      finishConnect B finish (runChecks B checks { setRing ring p with hook := certPinHsKeys p.hook })

/-! ## `trust_post` -/

/-- What `trust_post` meets; `record`, `accept` and `unpinned` are the answers to its questions. -/
structure PostInput where
  busy : Bool
  reads : Reads
  write : Write
  record : UInt8
  accept : UInt8
  unpinned : UInt8

/-- `@disp`: the first twelve bytes of the host, and zeros. -/
def tpDisplay (host : List UInt8) : List UInt8 :=
  host.take 12 ++ List.replicate (12 - host.length) 0

/-- The record that is built in `ts_rec`. -/
def tpRecordBytes (mode : UInt8) (host : List UInt8) (p : Policy) : List UInt8 :=
  p.store.record.take 16 ++ p.hook.tpGot ++ [mode, 0, 0, 0] ++ tpDisplay host

/-- What `trust_post` did beside its messages. -/
structure Post where
  redial : Bool
  /-- the record that was staged, and what became of the save -/
  saved : Option (List UInt8 × Saved)
  /-- the hash that the operator accepted -/
  armed : Option (List UInt8)

def Post.nothing : Post :=
  ⟨false, none, none⟩

/-- `@keep_armed`. -/
def tpKeepArmed (p : Policy) : Policy :=
  p.setMode tpMNone

/-- `@done`. -/
def tpDone (p : Policy) : Policy :=
  tpKeepArmed p.disarm

/-- `tp_record`, and `@done` behind it. -/
def tpRecord (B : Build) (mode : UInt8) (host : List UInt8) (i : PostInput) (p : Policy) :
    Policy × Post :=
  let staged := trustStoreStage (tpRecordBytes mode host p) p.store
  let s := trustStoreSave B.digest i.busy i.reads i.write staged
  (tpDone { p with store := s.store }, ⟨false, some (staged.record, s), none⟩)

/-- The accept is armed with exactly the hash that was shown, for exactly this host key. -/
def tpArm (p : Policy) : Policy :=
  { p with tpOvrKey := p.store.key, hook := { p.hook with tpOverride := p.hook.tpGot, tpOvrArmed := 1 } }

/-- `tp_changed`, and `@keep_armed` behind it when it returns carry set. -/
def tpChanged (i : PostInput) (p : Policy) : Policy × Post :=
  let p := p.disarm
  if i.accept = keyA then (tpKeepArmed (tpArm p), ⟨false, none, some p.hook.tpGot⟩)
  else if (tpAskUnpinned i.unpinned p).2 = true then
    ((tpAskUnpinned i.unpinned p).1, ⟨true, none, none⟩)
  else (tpKeepArmed p, .nothing)

/-- `@tofu` and the question before it. -/
def tpFirst (B : Build) (host : List UInt8) (i : PostInput) (p : Policy) : Policy × Post :=
  if B.bundle = true ∧ p.hook.tpBwarn ≠ 0 then
    if i.record = keyA then tpRecord B tsModeAccepted host i p else (tpDone p, .nothing)
  else tpRecord B tsModeTofu host i p

/-- `trust_post`. -/
def trustPost (B : Build) (host : List UInt8) (i : PostInput) (p : Policy) : Policy × Post :=
  if p.hook.tpMode = tpMUnpinned then (tpDone p, .nothing)
  else if p.tlsReachedConnected = false then
    if p.hook.certPinStatus = tpStChanged then tpChanged i p else (tpDone p, .nothing)
  else if p.hook.certPinStatus = tpStAccept then tpRecord B tsModeAccepted host i p
  else if p.hook.certPinStatus = tpMFirst then tpFirst B host i p
  else (tpDone p, .nothing)

/-! ## A fetch -/

/-- One round of `@redial`: what was in force, the hashes of the certificates, what the hook left, what the
operator answered to the questions of `trust_post`, and what came of it. -/
structure Dial where
  mode : UInt8
  seen : List (List UInt8)
  got : List UInt8
  status : UInt8
  /-- `tp_bwarn`: the bundle has another key -/
  warned : Bool
  reached : Bool
  answers : PostInput
  post : Post

def dial (B : Build) (host : List UInt8) (c : Connection × PostInput) (p : Policy) : Policy × Dial :=
  let p := connect B c.1 p
  let r := trustPost B host c.2 p
  (r.1, ⟨p.hook.tpMode, c.1.checks.map Check.hash, p.hook.tpGot, p.hook.certPinStatus,
    B.bundle && decide (p.hook.tpBwarn ≠ 0), p.tlsReachedConnected, c.2, r.2⟩)

/-- What a fetch is given; the target prompt may refuse the entry. -/
structure Attempt where
  prompt : Option (List UInt8)
  pre : PreInput
  spki : Option (List UInt8)
  first : Connection × PostInput
  second : Connection × PostInput

/-- A fetch that got past the target prompt: the host and its key, the state of the store, what was answered
to the question of `trust_pre`, the record that was loaded, and the dials. -/
structure Outcome where
  host : List UInt8
  key : List UInt8
  store : TsState
  answer : UInt8
  mode : UInt8
  record : Option (List UInt8)
  dials : List Dial

/-- `@redial`; the second time is the last (`dial_unpinned`). -/
def dials (B : Build) (host : List UInt8) (a : Attempt) (p : Policy) : Policy × List Dial :=
  let r := dial B host a.first p
  if r.2.post.redial = true then
    ((dial B host a.second r.1).1, [r.2, (dial B host a.second r.1).2])
  else (r.1, [r.2])

/-- A fetch from `trust_pre` on. -/
def fetch (B : Build) (host : List UInt8) (a : Attempt) (p : Policy) : Policy × Outcome :=
  let r := trustPre B host a.pre p
  let record := if r.1.hook.tpMode = tpMStore then some r.1.store.record else none
  let o : Outcome := ⟨host, r.1.store.key, r.1.store.state, a.pre.key, r.1.hook.tpMode, record, []⟩
  if r.2 = true then
    ((dials B host a (trustBundle B a.spki r.1)).1,
      { o with dials := (dials B host a (trustBundle B a.spki r.1)).2 })
  else (r.1, o)

/-- `do_https_get`, as far as the policy is concerned. -/
def doHttpsGet (B : Build) (a : Attempt) (p : Policy) : Policy × Option Outcome :=
  let p := { p with tlsReachedConnected := false }
  a.prompt.elim (p, none) fun host => ((fetch B host a p).1, some (fetch B host a p).2)

/-! ## What the hook decides -/

section Hook

variable {B : Build} {p : Policy} {c : Check}

/-- The verdicts that let the client's Finished go out. -/
inductive Accepts (B : Build) (p : Policy) (hash : List UInt8) : UInt8 → Prop where
  | first (hmode : p.hook.tpMode = tpMFirst) : Accepts B p hash tpMFirst
  | unpinned (hmode : p.hook.tpMode = tpMUnpinned) : Accepts B p hash tpMUnpinned
  | same (hmode : p.hook.tpMode = tpMStore) (hsame : hash = recordSpki p.store.record) :
      Accepts B p hash tpStMatch
  | accepted (hmode : p.hook.tpMode = tpMStore) (hother : hash ≠ recordSpki p.store.record)
      (harmed : p.hook.tpOvrArmed ≠ 0) (hover : hash = p.hook.tpOverride) : Accepts B p hash tpStAccept
  | pin (hmode : p.hook.tpMode = tpMPin) (warn : Bool) (hpin : B.pin = some (hash, warn)) :
      Accepts B p hash tpStMatch
  | warned (hmode : p.hook.tpMode = tpMPin) (expected : List UInt8) (hpin : B.pin = some (expected, true)) :
      Accepts B p hash tpStPinwarn

/-- And those that do not. -/
inductive Refuses (p : Policy) (hash : List UInt8) : UInt8 → Prop where
  | changed (hmode : p.hook.tpMode = tpMStore) (hother : hash ≠ recordSpki p.store.record) :
      Refuses p hash tpStChanged
  | refused : Refuses p hash tpStRefused

/-- What a run of the hook leaves as it was. -/
structure Kept (p q : Policy) : Prop where
  store : q.store = p.store
  ovrKey : q.tpOvrKey = p.tpOvrKey
  reached : q.tlsReachedConnected = p.tlsReachedConnected
  mode : q.hook.tpMode = p.hook.tpMode
  armed : q.hook.tpOvrArmed = p.hook.tpOvrArmed
  override : q.hook.tpOverride = p.hook.tpOverride

theorem Kept.refl (p : Policy) : Kept p p :=
  ⟨rfl, rfl, rfl, rfl, rfl, rfl⟩

theorem Kept.trans {q r : Policy} (h : Kept p q) (h' : Kept q r) : Kept p r :=
  ⟨h'.store.trans h.store, h'.ovrKey.trans h.ovrKey, h'.reached.trans h.reached, h'.mode.trans h.mode,
    h'.armed.trans h.armed, h'.override.trans h.override⟩

/-- What is in force stays in force, whatever becomes of the ring. -/
structure InForce (p q : Policy) : Prop where
  store : ∃ ring, q.store = { p.store with buf := ring }
  ovrKey : q.tpOvrKey = p.tpOvrKey
  mode : q.hook.tpMode = p.hook.tpMode
  armed : q.hook.tpOvrArmed = p.hook.tpOvrArmed
  override : q.hook.tpOverride = p.hook.tpOverride

theorem Kept.inForce {q : Policy} (h : Kept p q) : InForce p q :=
  ⟨⟨p.store.buf, h.store⟩, h.ovrKey, h.mode, h.armed, h.override⟩

theorem InForce.trans {q r : Policy} (h : InForce p q) (h' : InForce q r) : InForce p r := by
  obtain ⟨ring, hring⟩ := h.store
  obtain ⟨ring', hring'⟩ := h'.store
  refine ⟨⟨ring', ?_⟩, h'.ovrKey.trans h.ovrKey, h'.mode.trans h.mode, h'.armed.trans h.armed,
    h'.override.trans h.override⟩
  rw [hring', hring]

theorem InForce.record {q : Policy} (h : InForce p q) : q.store.record = p.store.record := by
  obtain ⟨ring, hring⟩ := h.store
  rw [hring]

theorem InForce.accepts {q : Policy} (h : InForce p q) {hash : List UInt8} {status : UInt8}
    (ha : Accepts B q hash status) : Accepts B p hash status := by
  cases ha with
  | first hmode => exact .first (h.mode ▸ hmode)
  | unpinned hmode => exact .unpinned (h.mode ▸ hmode)
  | same hmode hsame => exact .same (h.mode ▸ hmode) (h.record ▸ hsame)
  | accepted hmode hother harmed hover =>
      exact .accepted (h.mode ▸ hmode) (h.record ▸ hother) (h.armed ▸ harmed) (h.override ▸ hover)
  | pin hmode warn hpin => exact .pin (h.mode ▸ hmode) warn hpin
  | warned hmode expected hpin => exact .warned (h.mode ▸ hmode) expected hpin

theorem InForce.refuses {q : Policy} (h : InForce p q) {hash : List UInt8} {status : UInt8}
    (hr : Refuses q hash status) : Refuses p hash status := by
  cases hr with
  | changed hmode hother => exact .changed (h.mode ▸ hmode) (h.record ▸ hother)
  | refused => exact .refused

/-- What `@set` leaves. -/
structure IsSet (s : PinState) (status : UInt8) (r : PinState × Bool) : Prop where
  passes : r.2 = true
  status : r.1.certPinStatus = status
  got : r.1.tpGot = s.tpGot
  mode : r.1.tpMode = s.tpMode
  armed : r.1.tpOvrArmed = s.tpOvrArmed
  override : r.1.tpOverride = s.tpOverride

theorem isSet_pinSet (bundle : Bool) (status : UInt8) (s : PinState) :
    IsSet s status (pinSet bundle status s) := by
  unfold pinSet
  dsimp only
  split
  · exact ⟨rfl, rfl, rfl, rfl, rfl, rfl⟩
  · exact ⟨rfl, rfl, rfl, rfl, rfl, rfl⟩

/-- What one run of the hook can do. -/
structure HookSpec (B : Build) (p : Policy) (c : Check) (r : Policy × Bool) : Prop where
  kept : Kept p r.1
  got : r.1.hook.tpGot = c.hash
  accepts : r.2 = true → Accepts B p c.hash r.1.hook.certPinStatus
  verdict : Accepts B p c.hash r.1.hook.certPinStatus ∨ Refuses p c.hash r.1.hook.certPinStatus

theorem hookSpec_set {s : PinState} {status : UInt8} {r : PinState × Bool} (h : IsSet s status r)
    (hs : s = { p.hook with tsRecSpki := recordSpki p.store.record, tpGot := c.hash })
    (ha : Accepts B p c.hash status) : HookSpec B p c ({ p with hook := r.1 }, r.2 && c.nameOk) := by
  subst hs
  have hverdict : Accepts B p c.hash r.1.certPinStatus := by
    rw [h.status]
    exact ha
  exact ⟨⟨rfl, rfl, rfl, h.mode, h.armed, h.override⟩, h.got, fun _ => hverdict, Or.inl hverdict⟩

theorem hookSpec_refuse {s : PinState} {status : UInt8}
    (hs : s = { p.hook with tsRecSpki := recordSpki p.store.record, tpGot := c.hash })
    (hr : Refuses p c.hash status) :
    HookSpec B p c ({ p with hook := (pinRefuse status s).1 }, (pinRefuse status s).2 && c.nameOk) := by
  subst hs
  exact ⟨⟨rfl, rfl, rfl, rfl, rfl, rfl⟩, rfl, fun h => (nomatch h), Or.inr hr⟩

theorem hookRun_spec (B : Build) (c : Check) (p : Policy) : HookSpec B p c (hookRun B c p) := by
  unfold hookRun
  show HookSpec B p c ({ p with hook := (trustHook B.pin B.bundle c.curveId c.hash _).1 },
    (trustHook B.pin B.bundle c.curveId c.hash _).2 && c.nameOk)
  unfold trustHook
  dsimp only
  -- only a P-256 key comes to the comparison
  by_cases hcurve : c.curveId ≠ 0
  · rw [if_pos hcurve]
    exact hookSpec_refuse rfl .refused
  rw [if_neg hcurve]
  by_cases hfirst : p.hook.tpMode = tpMFirst
  · rw [if_pos hfirst]
    exact hookSpec_set (isSet_pinSet _ _ _) rfl (.first hfirst)
  rw [if_neg hfirst]
  by_cases hunpinned : p.hook.tpMode = tpMUnpinned
  · rw [if_pos hunpinned]
    exact hookSpec_set (isSet_pinSet _ _ _) rfl (.unpinned hunpinned)
  rw [if_neg hunpinned]
  by_cases hstore : p.hook.tpMode = tpMStore
  · rw [if_pos hstore]
    by_cases hsame : recordSpki p.store.record = c.hash
    · rw [if_pos hsame]
      exact hookSpec_set (isSet_pinSet _ _ _) rfl (.same hstore hsame.symm)
    rw [if_neg hsame]
    have hother : c.hash ≠ recordSpki p.store.record := fun h => hsame h.symm
    by_cases harmed : p.hook.tpOvrArmed = 0
    · rw [if_pos harmed]
      exact hookSpec_refuse rfl (.changed hstore hother)
    rw [if_neg harmed]
    by_cases hover : p.hook.tpOverride = c.hash
    · rw [if_pos hover]
      exact hookSpec_set (isSet_pinSet _ _ _) rfl (.accepted hstore hother harmed hover.symm)
    · rw [if_neg hover]
      exact hookSpec_refuse rfl (.changed hstore hother)
  rw [if_neg hstore]
  cases hlink : B.pin with
  | none => exact hookSpec_refuse rfl .refused
  | some pin =>
      obtain ⟨expected, warn⟩ := pin
      dsimp only
      by_cases hpin : p.hook.tpMode = tpMPin
      · rw [if_neg (not_not_intro hpin)]
        by_cases hexp : expected = c.hash
        · rw [if_pos hexp]
          exact hookSpec_set (isSet_pinSet _ _ _) rfl (.pin hpin warn (hexp ▸ hlink))
        rw [if_neg hexp]
        cases warn with
        | true => exact hookSpec_set (isSet_pinSet _ _ _) rfl (.warned hpin expected hlink)
        | false => exact hookSpec_refuse rfl .refused
      · rw [if_pos hpin]
        exact hookSpec_refuse rfl .refused

/-- The hook ran last on `c`. -/
structure RanLast (B : Build) (p : Policy) (c : Check) (r : Policy × Bool) : Prop where
  got : r.1.hook.tpGot = c.hash
  accepts : r.2 = true → Accepts B p c.hash r.1.hook.certPinStatus
  verdict : Accepts B p c.hash r.1.hook.certPinStatus ∨ Refuses p c.hash r.1.hook.certPinStatus

theorem runChecks_spec (B : Build) (checks : List Check) : ∀ p, Kept p (runChecks B checks p).1 ∧
    ((checks = [] ∧ runChecks B checks p = (p, true)) ∨
      ∃ c ∈ checks, RanLast B p c (runChecks B checks p)) := by
  induction checks with
  | nil => exact fun p => ⟨Kept.refl p, Or.inl ⟨rfl, rfl⟩⟩
  | cons c cs ih =>
      intro p
      have h := hookRun_spec B c p
      unfold runChecks
      split
      case isTrue hpass =>
        obtain ⟨hkept, hrest⟩ := ih (hookRun B c p).1
        refine ⟨h.kept.trans hkept, Or.inr ?_⟩
        rcases hrest with ⟨-, hrun⟩ | ⟨c', hc', hlast⟩
        · refine ⟨c, List.mem_cons_self, ?_⟩
          rw [hrun]
          exact ⟨h.got, fun _ => h.accepts hpass, h.verdict⟩
        · refine ⟨c', List.mem_cons_of_mem c hc', hlast.got, fun ht => ?_, ?_⟩
          · exact h.kept.inForce.accepts (hlast.accepts ht)
          · exact hlast.verdict.imp h.kept.inForce.accepts h.kept.inForce.refuses
      case isFalse => exact ⟨h.kept, Or.inr ⟨c, List.mem_cons_self, h.got, h.accepts, h.verdict⟩⟩

end Hook

/-! ## What a connection can come to -/

section Connect

variable {B : Build} {p : Policy}

/-- A connection that went through was let through by the hook, on a certificate of its own. -/
structure WentThrough (B : Build) (p : Policy) (c : Connection) (q : Policy) : Prop where
  ran : ∃ k ∈ c.checks, q.hook.tpGot = k.hash
  accepts : Accepts B p q.hook.tpGot q.hook.certPinStatus

/-- A changed key was seen by the hook, on a certificate of this connection. -/
structure SawChange (p : Policy) (c : Connection) (q : Policy) : Prop where
  ran : ∃ k ∈ c.checks, q.hook.tpGot = k.hash
  mode : p.hook.tpMode = tpMStore
  other : q.hook.tpGot ≠ recordSpki p.store.record

theorem accepts_ne_changed {hash : List UInt8} {status : UInt8} (h : Accepts B p hash status) :
    status ≠ tpStChanged := by
  cases h <;> decide

theorem connect_spec (B : Build) (c : Connection) (p : Policy)
    (hreached : p.tlsReachedConnected = false) : InForce p (connect B c p) ∧
      ((connect B c p).tlsReachedConnected = true → WentThrough B p c (connect B c p)) ∧
      (p.hook.certPinStatus ≠ tpStChanged →
        (connect B c p).hook.certPinStatus = tpStChanged → SawChange p c (connect B c p)) := by
  cases c with
  | undialled ring =>
      refine ⟨⟨⟨ring, rfl⟩, rfl, rfl, rfl, rfl⟩, fun h => ?_, fun hne h => absurd h hne⟩
      exact absurd (h.symm.trans hreached) (Ne.symm Bool.false_ne_true)
  | early ring =>
      exact ⟨⟨⟨ring, rfl⟩, rfl, rfl, rfl, rfl⟩, fun h => (nomatch h), fun hne h => absurd h hne⟩
  | handshake ring checks finish =>
      have hstart : InForce p { setRing ring p with hook := certPinHsKeys p.hook } :=
        ⟨⟨ring, rfl⟩, rfl, rfl, rfl, rfl⟩
      have hstatus : ({ setRing ring p with hook := certPinHsKeys p.hook } : Policy).hook.certPinStatus =
        0 := rfl
      unfold connect
      dsimp only
      generalize ({ setRing ring p with hook := certPinHsKeys p.hook } : Policy) = q at hstart hstatus
      obtain ⟨hkept, hran⟩ := runChecks_spec B checks q
      generalize runChecks B checks q = r at hkept hran
      have hfinish : InForce q (finishConnect B finish r) :=
        ⟨hkept.inForce.store, hkept.ovrKey, hkept.mode, hkept.armed, hkept.override⟩
      refine ⟨hstart.trans hfinish, fun h => ?_, fun _ h => ?_⟩
      · -- the interlock has seen a verdict, so the hook ran
        have hall : (r.2 && certPinRequire B.link r.1.hook && finish) = true := h
        rw [Bool.and_eq_true, Bool.and_eq_true] at hall
        obtain ⟨⟨hpass, hrequire⟩, -⟩ := hall
        have hreq : r.1.hook.certPinStatus ≠ 0 ∧ r.1.hook.certPinStatus < 0x80 :=
          of_decide_eq_true hrequire
        rcases hran with ⟨-, hr⟩ | ⟨k, hk, hlast⟩
        · rw [hr] at hreq
          exact absurd hstatus hreq.1
        · refine ⟨⟨k, hk, hlast.got⟩, ?_⟩
          have haccepts := hstart.accepts (hlast.accepts hpass)
          rw [← hlast.got] at haccepts
          exact haccepts
      · have hchanged : r.1.hook.certPinStatus = tpStChanged := h
        rcases hran with ⟨-, hr⟩ | ⟨k, hk, hlast⟩
        · rw [hr, hstatus] at hchanged
          exact absurd hchanged (by decide)
        · rcases hlast.verdict with haccepts | hrefuses
          · exact absurd hchanged (accepts_ne_changed haccepts)
          · have href := hstart.refuses hrefuses
            rw [hchanged, ← hlast.got] at href
            cases href with
            | changed hmode hother => exact ⟨⟨k, hk, hlast.got⟩, hmode, hother⟩

end Connect

end Store
end C64Https
