import C64Https.Lib.History
import C64Https.Store.TrustPolicy

/-!
# PolicyRuns — what the operator has to confirm, over whole runs of fetches

A run is a list of fetches, for any hosts, with any answers of the disk, any certificates and any keys pressed;
its log has an outcome for each fetch that got past the target prompt, with the keys that were pressed at its
questions.  Consent is a key: `A` when a changed key was shown, `Y` when an unpinned fetch was offered.  Every
fetch keeps to `Safe`, whatever came before (`policyRun_safe`): a host whose record was loaded is only ever
reached with the recorded key, with one that the operator accepted at the fetch before, for the same host, when
exactly that key was shown, or unpinned, when the operator went on with this fetch; and what is recorded is the
hash of a certificate of a connection that was completed.
-/

namespace C64Https
namespace Store

open Bytes Word Tls History

/-! ## Consent -/

namespace Dial

/-- A changed key was shown, and "ACCEPT ON RETRY?" asked. -/
def Asks (d : Dial) : Prop :=
  d.mode ≠ tpMUnpinned ∧ d.reached = false ∧ d.status = tpStChanged

/-- Shown this hash, the operator pressed `A`. -/
def Accepted (d : Dial) (hash : List UInt8) : Prop :=
  d.Asks ∧ d.got = hash ∧ d.answers.accept = keyA

/-- The operator pressed another key, and `Y` to "CONTINUE UNPINNED?". -/
def WentOn (d : Dial) : Prop :=
  d.Asks ∧ d.answers.accept ≠ keyA ∧ d.answers.unpinned = keyY

/-- The connection was completed on an accepted key, or on a first use; where the bundle has another key the
operator pressed `A` to "RECORD KEY?". -/
def Earns (d : Dial) : Prop :=
  d.reached = true ∧ d.mode ≠ tpMUnpinned ∧
    (d.status = tpStAccept ∨ d.status = tpMFirst ∧ (d.warned = true → d.answers.record = keyA))

end Dial

/-- The store failed, and the operator pressed `Y` to "CONTINUE UNPINNED?". -/
def Outcome.AskedUnpinned (o : Outcome) : Prop :=
  o.store = .fail ∧ o.answer = keyY

/-- At the fetch before, for this host key, the operator accepted this hash. -/
def AcceptedFor (log : List Outcome) (key hash : List UInt8) : Prop :=
  ∃ b, log.getLast? = some b ∧ b.key = key ∧ ∃ d ∈ b.dials, d.Accepted hash

/-! ## What a fetch may do -/

/-- Why a connection may be completed with a key of this hash, behind the dials `before` of the same fetch. -/
inductive Allowed (B : Build) (log : List Outcome) (o : Outcome) (before : List Dial) (mode : UInt8)
    (hash : List UInt8) : Prop where
  /-- first use: nothing was recorded for the host -/
  | first (hmode : mode = tpMFirst) (hnew : o.record = none)
  /-- the operator asked for this one fetch, or went on with it -/
  | unpinned (hmode : mode = tpMUnpinned) (hasked : o.AskedUnpinned ∨ ∃ d ∈ before, d.WentOn)
  | same (r : List UInt8) (hrec : o.record = some r) (hsame : hash = recordSpki r)
  | accepted (r : List UInt8) (hrec : o.record = some r) (hasked : AcceptedFor log o.key hash)
  | pin (hmode : mode = tpMPin) (expected : List UInt8) (warn : Bool) (hpin : B.pin = some (expected, warn))
      (hsame : hash = expected ∨ warn = true)

/-- The record of a key. -/
def recordOf (o : Outcome) (hash : List UInt8) (mode : UInt8) : List UInt8 :=
  o.key ++ hash ++ [mode, 0, 0, 0] ++ tpDisplay o.host

structure DialSafe (B : Build) (log : List Outcome) (o : Outcome) (before : List Dial) (d : Dial) :
    Prop where
  /-- the hook ran on a certificate of this connection, and allowed its key -/
  went : d.reached = true → d.got ∈ d.seen ∧ Allowed B log o before d.mode d.got
  /-- what this connection earned is staged for the store, and nothing else is -/
  earned : d.Earns ↔ d.post.saved.isSome = true
  saved : ∀ rec s, d.post.saved = some (rec, s) →
    (rec = recordOf o d.got tsModeTofu ∧ o.record = none) ∨
      (rec = recordOf o d.got tsModeAccepted ∧ o.record = none ∧ d.answers.record = keyA) ∨
      (rec = recordOf o d.got tsModeAccepted ∧ AcceptedFor log o.key d.got ∧
        ∃ r, o.record = some r ∧ d.got ≠ recordSpki r)
  /-- what is armed is what the operator accepted: a key that this connection was refused for -/
  armed : ∀ h, d.post.armed = some h → d.Accepted h ∧ h ∈ d.seen ∧
    ∃ r, o.record = some r ∧ h ≠ recordSpki r
  redial : d.post.redial = true → d.WentOn

/-- A fetch, after the fetches of the log. -/
structure Safe (B : Build) (log : List Outcome) (o : Outcome) : Prop where
  dials : Preceded (DialSafe B log o) o.dials
  /-- with a store that failed, nothing is dialled unless the operator asks for it -/
  failed : o.store = .fail → o.mode ≠ tpMPin → o.answer ≠ keyY → o.dials = []

/-- A run of fetches. -/
def policyRun (B : Build) : List Attempt → Policy → List Outcome
  | [], _ => []
  | a :: as, p => (doHttpsGet B a p).2.toList ++ policyRun B as (doHttpsGet B a p).1

/-! ## The states of a fetch -/

/-- The host key and the record have their lengths. -/
structure Sized (t : TrustStore) : Prop where
  key : t.key.length = 16
  record : t.record.length = 64

/-- Between two fetches an accept that is armed is that of the last one. -/
structure Between (log : List Outcome) (p : Policy) : Prop where
  armed : p.hook.tpOvrArmed ≠ 0 → AcceptedFor log p.tpOvrKey p.hook.tpOverride
  sized : Sized p.store

/-- Before the first dial. -/
structure Ready (log : List Outcome) (o : Outcome) (p : Policy) : Prop where
  status : p.hook.certPinStatus = 0
  reached : p.tlsReachedConnected = false
  key : p.store.key = o.key
  record : o.record = if p.hook.tpMode = tpMStore then some p.store.record else none
  armed : p.hook.tpOvrArmed ≠ 0 → AcceptedFor log o.key p.hook.tpOverride
  asked : p.hook.tpMode = tpMUnpinned → o.AskedUnpinned
  sized : Sized p.store

/-- After a dial; an accept that is armed now was given in it. -/
structure Dialled (o : Outcome) (d : Dial) (p : Policy) : Prop where
  armed : p.hook.tpOvrArmed ≠ 0 → d.post.armed = some p.hook.tpOverride ∧ p.tpOvrKey = o.key
  sized : Sized p.store
  again : d.post.redial = true → p.hook.tpMode = tpMUnpinned ∧ p.tlsReachedConnected = false

section Sizes

variable {D : Digest} {t : TrustStore}

theorem sized_of_session {u : TrustStore} (h : u.session = t.session) (ht : Sized t) : Sized u := by
  have hkey : u.key = t.key := congrArg Session.key h
  have hrecord : u.record = t.record := congrArg Session.record h
  exact ⟨hkey ▸ ht.key, hrecord ▸ ht.record⟩

theorem sized_trustStoreLoad (busy : Bool) (host : List UInt8) (r : Reads) (ht : Sized t) :
    Sized (trustStoreLoad D busy host r t) := by
  cases busy with
  | true => exact ⟨ht.key, ht.record⟩
  | false =>
      have hstart : Sized (tsHost D host { t with found := false, staged := .none }) :=
        ⟨length_hostKey D host, ht.record⟩
      have hscan := sized_of_session (session_tsScan (D := D) r) hstart
      rw [trustStoreLoad_eq]
      unfold tsRecIn
      split
      · exact ⟨hscan.key, length_bytesAt _ _ _⟩
      · exact hscan

theorem sized_trustStoreStage (record : List UInt8) (hlen : record.length = 64) (ht : Sized t) :
    Sized (trustStoreStage record t) := by
  refine ⟨ht.key, ?_⟩
  show (t.key ++ record.drop 16).length = 64
  rw [List.length_append, ht.key, List.length_drop, hlen]

def Prepared.memory : Prepared → TrustStore
  | .refused _ t => t
  | .put _ t => t

theorem sized_tsPlace (ht : Sized t) : Sized (tsPlace t).memory := by
  unfold tsPlace
  split
  · exact ht
  split
  · exact ht
  · exact ⟨ht.key, ht.record⟩

theorem sized_tsPrepare (busy : Bool) (r : Reads) (ht : Sized t) :
    Sized (tsPrepare D busy r t).memory := by
  have hscan := sized_of_session (session_tsScan (D := D) r) ht
  unfold tsPrepare
  split
  · exact ht
  split
  · exact ht
  unfold tsSame
  split
  · exact hscan
  · apply sized_tsPlace
    split
    · exact ⟨hscan.key, hscan.record⟩
    · exact hscan

theorem sized_tsWrite (w : Write) (ht : Sized t) : Sized (tsWrite D w t).store := by
  unfold tsWrite
  dsimp only
  split
  · exact ⟨ht.key, ht.record⟩
  · unfold tsVerify
    have hread (x : Slot) (r : SlotRead) : Sized (tsReadSlot D x r t).1 :=
      sized_of_session session_tsReadSlot ht
    split
    · exact ⟨(hread _ _).key, (hread _ _).record⟩
    · exact ⟨(hread _ _).key, (hread _ _).record⟩

theorem sized_trustStoreSave (busy : Bool) (r : Reads) (w : Write) (ht : Sized t) :
    Sized (trustStoreSave D busy r w t).store := by
  have hprep := sized_tsPrepare (D := D) busy r ht
  unfold trustStoreSave
  generalize tsPrepare D busy r t = q at hprep
  cases q with
  | refused c u => exact ⟨hprep.key, hprep.record⟩
  | put p u => exact sized_tsWrite w ⟨hprep.key, hprep.record⟩

end Sizes

/-! ## `trust_pre` -/

section Pre

variable {B : Build} {host : List UInt8} {p : Policy}

/-- What `trust_pre` leaves; an accept that stays armed is for this host. -/
structure PreSpec (i : PreInput) (p : Policy) (r : Policy × Bool) : Prop where
  status : r.1.hook.certPinStatus = 0
  reached : r.1.tlsReachedConnected = p.tlsReachedConnected
  ovrKey : r.1.tpOvrKey = p.tpOvrKey
  override : r.1.hook.tpOverride = p.hook.tpOverride
  armed : r.1.hook.tpOvrArmed ≠ 0 → p.hook.tpOvrArmed ≠ 0 ∧ r.1.store.key = p.tpOvrKey
  refused : r.2 = false → r.1.hook.tpOvrArmed = 0
  asked : r.1.hook.tpMode = tpMUnpinned → r.1.store.state = .fail ∧ i.key = keyY
  failed : r.1.store.state = .fail → r.1.hook.tpMode ≠ tpMPin → i.key ≠ keyY → r.2 = false
  sized : Sized p.store → Sized r.1.store

theorem preSpec_ask {i : PreInput} {q : Policy} (hstatus : q.hook.certPinStatus = 0)
    (hreached : q.tlsReachedConnected = p.tlsReachedConnected) (hkey : q.tpOvrKey = p.tpOvrKey)
    (hover : q.hook.tpOverride = p.hook.tpOverride) (harmed : q.hook.tpOvrArmed = 0)
    (hmode : q.hook.tpMode = tpMNone) (hfail : q.store.state = .fail)
    (hsized : Sized p.store → Sized q.store) : PreSpec i p (tpAskUnpinned i.key q) := by
  unfold tpAskUnpinned
  by_cases hasked : i.key = keyY
  · rw [if_pos hasked]
    exact ⟨hstatus, hreached, hkey, hover, fun h => absurd harmed h, fun _ => harmed,
      fun _ => ⟨hfail, hasked⟩, fun _ _ hno => absurd hasked hno, hsized⟩
  · rw [if_neg hasked]
    refine ⟨hstatus, hreached, hkey, hover, fun h => absurd harmed h, fun _ => harmed, fun h => ?_,
      fun _ _ _ => rfl, hsized⟩
    rw [hmode] at h
    exact absurd h (by decide)

theorem preSpec_loaded {i : PreInput} {q : Policy} (hstatus : q.hook.certPinStatus = 0)
    (hreached : q.tlsReachedConnected = p.tlsReachedConnected) (hkey : q.tpOvrKey = p.tpOvrKey)
    (hover : q.hook.tpOverride = p.hook.tpOverride) (harmed : q.hook.tpOvrArmed = p.hook.tpOvrArmed)
    (hok : q.store.state ≠ .fail) (hsized : Sized p.store → Sized q.store) :
    PreSpec i p (tpLoaded q, true) := by
  -- the mode is one of two
  have hmode : (tpLoaded q).hook.tpMode ≠ tpMUnpinned := by
    unfold tpLoaded
    dsimp only
    split
    · split
      · exact (by decide : tpMStore ≠ tpMUnpinned)
      · exact (by decide : tpMFirst ≠ tpMUnpinned)
    · split
      · exact (by decide : tpMStore ≠ tpMUnpinned)
      · exact (by decide : tpMFirst ≠ tpMUnpinned)
  have hstore : (tpLoaded q).store = q.store := by
    unfold tpLoaded
    dsimp only
    split <;> split <;> rfl
  have hkept : (tpLoaded q).hook.certPinStatus = q.hook.certPinStatus ∧
      (tpLoaded q).tlsReachedConnected = q.tlsReachedConnected ∧ (tpLoaded q).tpOvrKey = q.tpOvrKey ∧
      (tpLoaded q).hook.tpOverride = q.hook.tpOverride ∧
      ((tpLoaded q).hook.tpOvrArmed ≠ 0 → q.hook.tpOvrArmed ≠ 0 ∧ q.store.key = q.tpOvrKey) := by
    unfold tpLoaded
    dsimp only
    split
    case isTrue hsame => split <;> exact ⟨rfl, rfl, rfl, rfl, fun h => ⟨h, hsame⟩⟩
    case isFalse => split <;> exact ⟨rfl, rfl, rfl, rfl, fun h => absurd rfl h⟩
  obtain ⟨h₁, h₂, h₃, h₄, h₅⟩ := hkept
  refine ⟨h₁.trans hstatus, h₂.trans hreached, h₃.trans hkey, h₄.trans hover, fun h => ?_,
    fun h => (nomatch h), fun h => absurd h hmode, fun h => ?_, fun h => ?_⟩
  · obtain ⟨hbefore, hsame⟩ := h₅ h
    exact ⟨harmed ▸ hbefore, by rw [hstore, hsame, hkey]⟩
  · rw [hstore] at h
    exact absurd h hok
  · rw [hstore]
    exact hsized h

theorem trustPre_spec (B : Build) (host : List UInt8) (i : PreInput) (p : Policy) :
    PreSpec i p (trustPre B host i p) := by
  unfold trustPre
  dsimp only
  split
  case isTrue =>
    exact ⟨rfl, rfl, rfl, rfl, fun h => absurd rfl h, fun _ => rfl,
      fun h => absurd h (by decide : tpMPin ≠ tpMUnpinned), fun _ h => absurd rfl h, fun h => h⟩
  case isFalse =>
    have hsized := sized_trustStoreLoad (D := B.digest) (t := p.store) i.busy host i.reads
    split
    case isTrue hfail => exact preSpec_ask rfl rfl rfl rfl rfl rfl hfail hsized
    case isFalse hok => exact preSpec_loaded rfl rfl rfl rfl rfl hok hsized

end Pre

/-! ## `trust_post` -/

section Post

variable {B : Build} {host : List UInt8} {i : PostInput} {p : Policy}

/-- A changed key is shown. -/
structure Shown (p : Policy) : Prop where
  mode : p.hook.tpMode ≠ tpMUnpinned
  reached : p.tlsReachedConnected = false
  status : p.hook.certPinStatus = tpStChanged

/-- There is something to record. -/
structure Recordable (B : Build) (i : PostInput) (p : Policy) (m : UInt8) : Prop where
  mode : p.hook.tpMode ≠ tpMUnpinned
  reached : p.tlsReachedConnected = true
  status : p.hook.certPinStatus = tpStAccept ∧ m = tsModeAccepted ∨
    p.hook.certPinStatus = tpMFirst ∧ (B.bundle = true ∧ p.hook.tpBwarn ≠ 0 ∧ i.record = keyA ∧
      m = tsModeAccepted ∨ ¬ (B.bundle = true ∧ p.hook.tpBwarn ≠ 0) ∧ m = tsModeTofu)

/-- The four things that `trust_post` can come to. -/
inductive PostCase (B : Build) (host : List UInt8) (i : PostInput) (p : Policy) : Policy × Post → Prop where
  | nothing (hno : ∀ m, ¬ Recordable B i p m) : PostCase B host i p (tpDone p, .nothing)
  | recorded (m : UInt8) (h : Recordable B i p m) : PostCase B host i p (tpRecord B m host i p)
  | armed (h : Shown p) (hkey : i.accept = keyA) :
      PostCase B host i p (tpKeepArmed (tpArm p.disarm), ⟨false, none, some p.hook.tpGot⟩)
  | redial (h : Shown p) (hno : i.accept ≠ keyA) (hkey : i.unpinned = keyY) :
      PostCase B host i p (p.disarm.setMode tpMUnpinned, ⟨true, none, none⟩)

theorem postCase_changed (h : Shown p) : PostCase B host i p (tpChanged i p) := by
  unfold tpChanged
  dsimp only
  split
  case isTrue hkey => exact .armed h hkey
  case isFalse hno =>
    unfold tpAskUnpinned
    by_cases hkey : i.unpinned = keyY
    · rw [if_pos hkey, if_pos rfl]
      exact .redial h hno hkey
    · rw [if_neg hkey, if_neg Bool.false_ne_true]
      exact .nothing fun _ he => absurd (he.reached.symm.trans h.reached) (by decide)

theorem postCase_first (hmode : p.hook.tpMode ≠ tpMUnpinned) (hreached : p.tlsReachedConnected = true)
    (hstatus : p.hook.certPinStatus = tpMFirst) : PostCase B host i p (tpFirst B host i p) := by
  unfold tpFirst
  split
  case isTrue hwarned =>
    split
    case isTrue hkey =>
      exact .recorded _ ⟨hmode, hreached, Or.inr ⟨hstatus, Or.inl ⟨hwarned.1, hwarned.2, hkey, rfl⟩⟩⟩
    case isFalse hno =>
      refine .nothing fun m he => ?_
      rcases he.status with ⟨haccept, -⟩ | ⟨-, ⟨-, -, hkey, -⟩ | ⟨hunwarned, -⟩⟩
      · exact absurd (hstatus.symm.trans haccept) (by decide)
      · exact hno hkey
      · exact hunwarned hwarned
  case isFalse hunwarned =>
    exact .recorded _ ⟨hmode, hreached, Or.inr ⟨hstatus, Or.inr ⟨hunwarned, rfl⟩⟩⟩

theorem trustPost_cases (B : Build) (host : List UInt8) (i : PostInput) (p : Policy) :
    PostCase B host i p (trustPost B host i p) := by
  unfold trustPost
  split
  case isTrue hmode => exact .nothing fun _ he => he.mode hmode
  case isFalse hmode =>
    split
    case isTrue hreached =>
      split
      case isTrue hstatus => exact postCase_changed ⟨hmode, hreached, hstatus⟩
      case isFalse => exact .nothing fun _ he => absurd (he.reached.symm.trans hreached) (by decide)
    case isFalse hreached =>
      have hreached' : p.tlsReachedConnected = true := Bool.eq_true_of_not_eq_false hreached
      split
      case isTrue hstatus => exact .recorded _ ⟨hmode, hreached', Or.inl ⟨hstatus, rfl⟩⟩
      case isFalse haccept =>
        split
        case isTrue hstatus => exact postCase_first hmode hreached' hstatus
        case isFalse hfirst =>
          exact .nothing fun _ he => he.status.elim (fun h => haccept h.1) fun h => hfirst h.1

/-- An unpinned fetch records nothing and is the last one. -/
theorem trustPost_unpinned (h : p.hook.tpMode = tpMUnpinned) :
    trustPost B host i p = (tpDone p, .nothing) :=
  if_pos h

end Post

/-! ## A dial -/

section Dials

variable {B : Build} {log : List Outcome} {o : Outcome} {p : Policy} {hash : List UInt8} {status : UInt8}

theorem accepted_of_status (h : Accepts B p hash status) (hstatus : status = tpStAccept) :
    p.hook.tpMode = tpMStore ∧ hash ≠ recordSpki p.store.record ∧ p.hook.tpOvrArmed ≠ 0 ∧
      hash = p.hook.tpOverride := by
  cases h with
  | accepted hmode hother harmed hover => exact ⟨hmode, hother, harmed, hover⟩
  | first => exact absurd hstatus (by decide)
  | unpinned => exact absurd hstatus (by decide)
  | same => exact absurd hstatus (by decide)
  | pin => exact absurd hstatus (by decide)
  | warned => exact absurd hstatus (by decide)

theorem first_of_status (h : Accepts B p hash status) (hstatus : status = tpMFirst) :
    p.hook.tpMode = tpMFirst := by
  cases h with
  | first hmode => exact hmode
  | accepted => exact absurd hstatus (by decide)
  | unpinned => exact absurd hstatus (by decide)
  | same => exact absurd hstatus (by decide)
  | pin => exact absurd hstatus (by decide)
  | warned => exact absurd hstatus (by decide)

theorem Ready.record_of_store (h : Ready log o p) (hmode : p.hook.tpMode = tpMStore) :
    o.record = some p.store.record := by
  rw [h.record, if_pos hmode]

theorem Ready.record_of_first (h : Ready log o p) (hmode : p.hook.tpMode = tpMFirst) :
    o.record = none := by
  rw [h.record, hmode]
  rfl

theorem Ready.allowed (h : Ready log o p) (ha : Accepts B p hash status) :
    Allowed B log o [] p.hook.tpMode hash := by
  cases ha with
  | first hmode => exact .first hmode (h.record_of_first hmode)
  | unpinned hmode => exact .unpinned hmode (Or.inl (h.asked hmode))
  | same hmode hsame => exact .same _ (h.record_of_store hmode) hsame
  | accepted hmode hother harmed hover =>
      exact .accepted _ (h.record_of_store hmode) (hover ▸ h.armed harmed)
  | pin hmode warn hpin => exact .pin hmode hash warn hpin (Or.inl rfl)
  | warned hmode expected hpin => exact .pin hmode expected true hpin (Or.inr rfl)

theorem InForce.key {q : Policy} (h : InForce p q) : q.store.key = p.store.key := by
  obtain ⟨ring, hring⟩ := h.store
  rw [hring]

theorem InForce.sized {q : Policy} (h : InForce p q) (hp : Sized p.store) : Sized q.store :=
  ⟨h.key ▸ hp.key, h.record ▸ hp.record⟩

theorem length_tpDisplay (host : List UInt8) : (tpDisplay host).length = 12 := by
  unfold tpDisplay
  rw [List.length_append, List.length_take, List.length_replicate]
  omega

/-- The record that is staged: the host's key, the hash that the hook computed, and the mode. -/
theorem staged_record (host : List UInt8) (m : UInt8) (h : Sized p.store) :
    (trustStoreStage (tpRecordBytes m host p) p.store).record =
      p.store.key ++ p.hook.tpGot ++ [m, 0, 0, 0] ++ tpDisplay host := by
  have hlen : (p.store.record.take 16).length = 16 := by
    rw [List.length_take, h.record]
    rfl
  have hdrop : (tpRecordBytes m host p).drop 16 = p.hook.tpGot ++ ([m, 0, 0, 0] ++ tpDisplay host) := by
    unfold tpRecordBytes
    rw [List.append_assoc, List.append_assoc]
    exact List.drop_left' hlen
  show p.store.key ++ (tpRecordBytes m host p).drop 16 = _
  rw [hdrop, List.append_assoc, List.append_assoc]

theorem length_tpRecordBytes (host : List UInt8) (m : UInt8) (h : Sized p.store)
    (hgot : p.hook.tpGot.length = 32) : (tpRecordBytes m host p).length = 64 := by
  unfold tpRecordBytes
  rw [List.length_append, List.length_append, List.length_append, List.length_take, h.record, hgot,
    length_tpDisplay]
  rfl

theorem Sized.tpRecord {m : UInt8} {host : List UInt8} {i : PostInput} (h : Sized p.store)
    (hgot : p.hook.tpGot.length = 32) : Sized (tpRecord B m host i p).1.store :=
  sized_trustStoreSave _ _ _ (sized_trustStoreStage _ (length_tpRecordBytes host m h hgot) h)

/-- What `trust_post` records is what the dial earned. -/
theorem exists_recordable_iff {i : PostInput} : (∃ m, Recordable B i p m) ↔
    p.tlsReachedConnected = true ∧ p.hook.tpMode ≠ tpMUnpinned ∧ (p.hook.certPinStatus = tpStAccept ∨
      p.hook.certPinStatus = tpMFirst ∧
        ((B.bundle && decide (p.hook.tpBwarn ≠ 0)) = true → i.record = keyA)) := by
  rw [Bool.and_eq_true, decide_eq_true_iff]
  constructor
  · rintro ⟨m, hmode, hreached, ⟨haccept, -⟩ | ⟨hfirst, ⟨-, -, hkey, -⟩ | ⟨hunwarned, -⟩⟩⟩
    · exact ⟨hreached, hmode, Or.inl haccept⟩
    · exact ⟨hreached, hmode, Or.inr ⟨hfirst, fun _ => hkey⟩⟩
    · exact ⟨hreached, hmode, Or.inr ⟨hfirst, fun hwarned => absurd hwarned hunwarned⟩⟩
  · rintro ⟨hreached, hmode, haccept | ⟨hfirst, hkey⟩⟩
    · exact ⟨_, hmode, hreached, Or.inl ⟨haccept, rfl⟩⟩
    · by_cases hwarned : B.bundle = true ∧ p.hook.tpBwarn ≠ 0
      · exact ⟨_, hmode, hreached, Or.inr ⟨hfirst, Or.inl ⟨hwarned.1, hwarned.2, hkey hwarned, rfl⟩⟩⟩
      · exact ⟨_, hmode, hreached, Or.inr ⟨hfirst, Or.inr ⟨hwarned, rfl⟩⟩⟩

/-- A dial that saves nothing. -/
theorem dialSafe_unsaved {before : List Dial} {d : Dial}
    (hwent : d.reached = true → d.got ∈ d.seen ∧ Allowed B log o before d.mode d.got) (hno : ¬ d.Earns)
    (hnone : d.post.saved = none)
    (harmed : ∀ h, d.post.armed = some h → d.Accepted h ∧ h ∈ d.seen ∧
      ∃ r, o.record = some r ∧ h ≠ recordSpki r)
    (hredial : d.post.redial = true → d.WentOn) : DialSafe B log o before d := by
  refine ⟨hwent, iff_of_false hno ?_, fun rec s hs => ?_, harmed, hredial⟩
  · rw [hnone]
    exact Bool.false_ne_true
  · rw [hnone] at hs
    cases hs

/-- The first dial of a fetch. -/
theorem dial_ready {c : Connection × PostInput} (h : Ready log o p) :
    DialSafe B log o [] (dial B o.host c p).2 ∧
      Dialled o (dial B o.host c p).2 (dial B o.host c p).1 := by
  obtain ⟨hforce, hwent, hsaw⟩ := connect_spec B c.1 p h.reached
  have hchanged := hsaw (by rw [h.status]; decide)
  have hcase := trustPost_cases B o.host c.2 (connect B c.1 p)
  have hsized := hforce.sized h.sized
  have hkey : (connect B c.1 p).store.key = o.key := hforce.key.trans h.key
  unfold dial
  dsimp only
  generalize connect B c.1 p = q at *
  generalize trustPost B o.host c.2 q = r at hcase
  -- the hook ran on a certificate of this connection, whatever came of it
  have hpass : q.tlsReachedConnected = true →
      q.hook.tpGot ∈ c.1.checks.map Check.hash ∧ Allowed B log o [] q.hook.tpMode q.hook.tpGot := by
    intro hreached
    obtain ⟨⟨k, hk, hgot⟩, haccepts⟩ := hwent hreached
    rw [hforce.mode]
    exact ⟨hgot ▸ List.mem_map_of_mem hk, h.allowed haccepts⟩
  have hearns := exists_recordable_iff (B := B) (p := q) (i := c.2)
  cases hcase with
  | nothing hno =>
      refine ⟨dialSafe_unsaved hpass (fun he => ?_) rfl (fun _ ha => nomatch ha) (fun hr => nomatch hr),
        fun ha => absurd rfl ha, hsized, fun hr => nomatch hr⟩
      obtain ⟨m, hm⟩ := hearns.2 he
      exact hno m hm
  | recorded m he =>
      obtain ⟨⟨k, hk, hgot⟩, haccepts⟩ := hwent he.reached
      have hlen : q.hook.tpGot.length = 32 := by
        rw [hgot]
        exact k.length_hash
      have hrec := staged_record (p := q) o.host m hsized
      rw [hkey] at hrec
      refine ⟨⟨hpass, iff_of_true (hearns.1 ⟨m, he⟩) rfl, fun rec s hs => ?_, fun _ ha => (nomatch ha),
        fun hr => (nomatch hr)⟩, fun ha => absurd rfl ha, hsized.tpRecord hlen, fun hr => nomatch hr⟩
      cases hs
      rcases he.status with ⟨hstatus, rfl⟩ | ⟨hstatus, hwhy⟩
      · obtain ⟨hstore, hother, harmed, hover⟩ := accepted_of_status haccepts hstatus
        exact Or.inr (Or.inr ⟨hrec, hover ▸ h.armed harmed, _, h.record_of_store hstore, hother⟩)
      · have hnew := h.record_of_first (first_of_status haccepts hstatus)
        rcases hwhy with ⟨-, -, hasked, rfl⟩ | ⟨-, rfl⟩
        · exact Or.inr (Or.inl ⟨hrec, hnew, hasked⟩)
        · exact Or.inl ⟨hrec, hnew⟩
  | armed hshown hasked =>
      have hs := hchanged hshown.status
      obtain ⟨k, hk, hgot⟩ := hs.ran
      refine ⟨dialSafe_unsaved hpass (fun he => absurd (he.1.symm.trans hshown.reached) (by decide)) rfl
        (fun hash ha => ?_) (fun hr => nomatch hr), fun _ => ⟨rfl, hkey⟩, hsized, fun hr => nomatch hr⟩
      cases ha
      exact ⟨⟨⟨hshown.mode, hshown.reached, hshown.status⟩, rfl, hasked⟩, hgot ▸ List.mem_map_of_mem hk, _,
        h.record_of_store hs.mode, hs.other⟩
  | redial hshown hno hasked =>
      exact ⟨dialSafe_unsaved hpass (fun he => absurd (he.1.symm.trans hshown.reached) (by decide)) rfl
        (fun _ ha => nomatch ha)
        (fun _ => ⟨⟨hshown.mode, hshown.reached, hshown.status⟩, hno, hasked⟩),
        fun ha => absurd rfl ha, hsized, fun _ => ⟨rfl, hshown.reached⟩⟩

/-- An unpinned dial, behind one at which the operator went on: nothing is recorded, and there is no other
one. -/
theorem dial_unpinned {c : Connection × PostInput} {before : List Dial}
    (hbefore : ∃ d ∈ before, d.WentOn) (hmode : p.hook.tpMode = tpMUnpinned)
    (hreached : p.tlsReachedConnected = false) (hsized : Sized p.store) :
    DialSafe B log o before (dial B o.host c p).2 ∧
      Dialled o (dial B o.host c p).2 (dial B o.host c p).1 := by
  obtain ⟨hforce, hwent, -⟩ := connect_spec B c.1 p hreached
  have hq : (connect B c.1 p).hook.tpMode = tpMUnpinned := hforce.mode.trans hmode
  have hsized' := hforce.sized hsized
  unfold dial
  dsimp only
  generalize connect B c.1 p = q at *
  rw [trustPost_unpinned hq]
  refine ⟨dialSafe_unsaved (fun hr => ?_) (fun he => he.2.1 hq) rfl (fun _ ha => nomatch ha)
    (fun hr => nomatch hr), fun ha => absurd rfl ha, hsized', fun hr => nomatch hr⟩
  obtain ⟨⟨k, hk, hgot⟩, -⟩ := hwent hr
  exact ⟨hgot ▸ List.mem_map_of_mem hk, .unpinned hq (Or.inr hbefore)⟩

/-- It leaves nothing behind. -/
theorem post_of_unpinned {c : Connection × PostInput} {host : List UInt8}
    (hmode : p.hook.tpMode = tpMUnpinned) (hreached : p.tlsReachedConnected = false) :
    (dial B host c p).2.post = .nothing := by
  obtain ⟨hforce, -, -⟩ := connect_spec B c.1 p hreached
  unfold dial
  dsimp only
  rw [trustPost_unpinned (hforce.mode.trans hmode)]

end Dials

/-! ## A fetch, and a run -/

section Runs

variable {B : Build} {log : List Outcome} {o : Outcome} {p : Policy}

theorem trustBundle_keeps (B : Build) (spki : Option (List UInt8)) (p : Policy) :
    InForce p (trustBundle B spki p) ∧ (trustBundle B spki p).store = p.store ∧
      (trustBundle B spki p).hook.certPinStatus = p.hook.certPinStatus ∧
      (trustBundle B spki p).tlsReachedConnected = p.tlsReachedConnected := by
  unfold trustBundle
  split
  · exact ⟨⟨⟨p.store.buf, rfl⟩, rfl, rfl, rfl, rfl⟩, rfl, rfl, rfl⟩
  · exact ⟨⟨⟨p.store.buf, rfl⟩, rfl, rfl, rfl, rfl⟩, rfl, rfl, rfl⟩

/-- What a dial of the last fetch leaves armed was accepted there. -/
theorem between_of_dialled {d : Dial} {before : List Dial} (h : Dialled o d p)
    (hsafe : DialSafe B log o before d) (hd : d ∈ o.dials) : Between (log ++ [o]) p where
  armed ha :=
    ⟨o, List.getLast?_concat, (h.armed ha).2.symm, d, hd, (hsafe.armed _ (h.armed ha).1).1⟩
  sized := h.sized

/-- The dials of a fetch that is ready. -/
theorem dials_spec {a : Attempt} (h : Ready log o p) (hdials : o.dials = (dials B o.host a p).2) :
    Preceded (DialSafe B log o) o.dials ∧ Between (log ++ [o]) (dials B o.host a p).1 := by
  obtain ⟨hsafe, hdialled⟩ := dial_ready (B := B) (c := a.first) h
  have hone : Preceded (DialSafe B log o) [(dial B o.host a.first p).2] :=
    (preceded_nil _).concat hsafe
  unfold dials at hdials ⊢
  dsimp only at hdials ⊢
  split
  case isTrue hredial =>
    rw [if_pos hredial] at hdials
    obtain ⟨hmode, hreached⟩ := hdialled.again hredial
    have hbefore : ∃ d ∈ [(dial B o.host a.first p).2], d.WentOn :=
      ⟨_, List.mem_singleton.2 rfl, hsafe.redial hredial⟩
    obtain ⟨hsafe', hdialled'⟩ := @dial_unpinned B log o _ a.second _ hbefore hmode hreached
      hdialled.sized
    rw [hdials]
    refine ⟨hone.concat hsafe', between_of_dialled hdialled' hsafe' ?_⟩
    rw [hdials]
    exact List.mem_cons_of_mem _ List.mem_cons_self
  case isFalse hredial =>
    rw [if_neg hredial] at hdials
    rw [hdials]
    refine ⟨hone, between_of_dialled hdialled hsafe ?_⟩
    rw [hdials]
    exact List.mem_cons_self

theorem fetch_spec (host : List UInt8) (a : Attempt) (h : Between log p)
    (hreached : p.tlsReachedConnected = false) :
    Safe B log (fetch B host a p).2 ∧ Between (log ++ [(fetch B host a p).2]) (fetch B host a p).1 := by
  have hpre := trustPre_spec B host a.pre p
  unfold fetch
  dsimp only
  generalize trustPre B host a.pre p = r at hpre
  split
  case isTrue hdial =>
    obtain ⟨hforce, hstore, hstatus, hreach⟩ := trustBundle_keeps B a.spki r.1
    generalize ho : ({
        host := host
        key := r.1.store.key
        store := r.1.store.state
        answer := a.pre.key
        mode := r.1.hook.tpMode
        record := if r.1.hook.tpMode = tpMStore then some r.1.store.record else none
        dials := (dials B host a (trustBundle B a.spki r.1)).2 } : Outcome) = o
    subst ho
    obtain ⟨hsafe, hbetween⟩ := @dials_spec B log
      ⟨host, r.1.store.key, r.1.store.state, a.pre.key, r.1.hook.tpMode,
        if r.1.hook.tpMode = tpMStore then some r.1.store.record else none,
        (dials B host a (trustBundle B a.spki r.1)).2⟩ (trustBundle B a.spki r.1) a
      ⟨hstatus.trans hpre.status, hreach.trans (hpre.reached.trans hreached), congrArg TrustStore.key hstore,
        by rw [hforce.mode, hstore], fun harmed => by
          rw [hforce.armed] at harmed
          obtain ⟨hbefore, hkey⟩ := hpre.armed harmed
          rw [hforce.override, hpre.override]
          have hlast := h.armed hbefore
          rw [← hkey] at hlast
          exact hlast, fun hmode => hpre.asked (hforce.mode ▸ hmode), hforce.sized (hpre.sized h.sized)⟩ rfl
    refine ⟨⟨hsafe, fun hfail hpin hno => ?_⟩, hbetween⟩
    exact absurd (hdial.symm.trans (hpre.failed hfail hpin hno)) (by decide)
  case isFalse hdial =>
    -- nothing was dialled, so nothing is armed behind the fetch that was not before
    have hrefused : r.2 = false := Bool.eq_false_of_not_eq_true hdial
    exact ⟨⟨preceded_nil _, fun _ _ _ => rfl⟩, fun harmed => absurd (hpre.refused hrefused) harmed,
      hpre.sized h.sized⟩

theorem doHttpsGet_spec (a : Attempt) (h : Between log p) :
    (∀ o ∈ (doHttpsGet B a p).2, Safe B log o) ∧
      Between (log ++ (doHttpsGet B a p).2.toList) (doHttpsGet B a p).1 := by
  unfold doHttpsGet
  cases a.prompt with
  | none =>
      refine ⟨fun o ho => (nomatch ho), ?_⟩
      show Between (log ++ []) { p with tlsReachedConnected := false }
      rw [List.append_nil]
      exact ⟨h.armed, h.sized⟩
  | some host =>
      obtain ⟨hsafe, hbetween⟩ := fetch_spec (B := B) (p := { p with tlsReachedConnected := false }) host a
        ⟨h.armed, h.sized⟩ rfl
      refine ⟨fun o ho => ?_, hbetween⟩
      cases ho
      exact hsafe

theorem policyRun_preceded (as : List Attempt) : ∀ {log p}, Between log p → Preceded (Safe B) log →
    Preceded (Safe B) (log ++ policyRun B as p) := by
  induction as with
  | nil =>
      intro log p _ hlog
      rw [policyRun, List.append_nil]
      exact hlog
  | cons a as ih =>
      intro log p h hlog
      obtain ⟨hsafe, hbetween⟩ := doHttpsGet_spec (B := B) a h
      rw [policyRun, ← List.append_assoc]
      refine ih hbetween ?_
      cases hout : (doHttpsGet B a p).2 with
      | none => exact (List.append_nil log).symm ▸ hlog
      | some o => exact hlog.concat (hsafe o (hout ▸ rfl))

/-- In every run of fetches since the boot, for any hosts, disks, certificates, bundles and keys pressed, each
fetch is allowed by what came before it: a connection is completed only with a key that the hook allowed on one
of its own certificates; with a key that is not the recorded one only when the operator was shown exactly that
key at the fetch before, for the same host key, and pressed `A`, or pressed `Y` to go on unpinned with this
fetch; nothing is dialled with a store that failed unless the operator pressed `Y`; only a completed connection
that is not unpinned records, and it records the hash of its own certificate, for a host without a record or
with an accepted one. -/
theorem policyRun_safe (B : Build) (p : Policy) (hsized : Sized p.store) (as : List Attempt) :
    Preceded (Safe B) (policyRun B as (trustStateInit p)) := by
  have hstart : Between [] (trustStateInit p) := ⟨fun h => absurd rfl h, hsized⟩
  exact policyRun_preceded as hstart (preceded_nil _)

/-- A first use, on a disk without a store. -/
theorem policyRun_safe_first :
    Preceded (Safe ⟨.fips, none, false, []⟩) (policyRun ⟨.fips, none, false, []⟩
      [⟨some [0x61], ⟨false, readsOf fun _ => .absent, 0⟩, none,
        (.handshake (fun _ => 0) [⟨0, List.replicate 32 9, rfl, true⟩] true,
          ⟨false, readsOf fun _ => .absent, written, 0, 0, 0⟩),
        (.undialled fun _ => 0, ⟨false, readsOf fun _ => .absent, written, 0, 0, 0⟩)⟩]
      (trustStateInit ⟨.cleared fun _ => 0, ⟨0, 0, 0, 0, [], [], [], 0, []⟩, [], false⟩)) :=
  policyRun_safe ⟨.fips, none, false, []⟩
    ⟨.cleared fun _ => 0, ⟨0, 0, 0, 0, [], [], [], 0, []⟩, [], false⟩ ⟨rfl, rfl⟩ _

end Runs

end Store
end C64Https
