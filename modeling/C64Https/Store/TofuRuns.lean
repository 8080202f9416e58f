import C64Https.Store.PolicyRuns

/-!
# TofuRuns — the records of the hosts, over whole runs

On a disk that does what it is told, the fetches of a run, and nothing else, determine the records: the log's
own account of them (`recordsOf`) is what the disk holds and what every load finds.  With `Safe` this is trust
on first use as a whole (`tofuRun`): a host's first record is the key of its first completed connection, and it
is replaced only by a key that the operator accepted at the fetch before.
-/

namespace C64Https
namespace Store

open Bytes Word Tls Mirror History

/-! ## A disk that does what it is told -/

namespace Attempt

/-- The fetch on this disk. -/
def on (disk : Slot → Option (List UInt8)) (a : Attempt) : Attempt :=
  { a with
    pre := { a.pre with reads := readsOf (slotsOf disk) }
    first := (a.first.1, { a.first.2 with reads := readsOf (slotsOf disk), write := written })
    second := (a.second.1, { a.second.2 with reads := readsOf (slotsOf disk), write := written }) }

end Attempt

namespace Outcome

/-- The record that was staged, and what became of the save. -/
def saved (o : Outcome) : Option (List UInt8 × Saved) :=
  o.dials.findSome? fun d => d.post.saved

/-- The record, if it was saved. -/
def recorded (o : Outcome) : Option (List UInt8) :=
  o.saved.bind fun s => if s.2.ok = true then some s.1 else none

def file (o : Outcome) : Option (Slot × List UInt8) :=
  o.saved.bind fun s => s.2.file

end Outcome

/-- The program and its disk, with the log. -/
structure Home where
  policy : Policy
  disk : Slot → Option (List UInt8)
  log : List Outcome

def Home.next (B : Build) (h : Home) (a : Attempt) : Home :=
  let r := doHttpsGet B (a.on h.disk) h.policy
  ⟨r.1, World.put h.disk (r.2.bind Outcome.file), h.log ++ r.2.toList⟩

def Home.run (B : Build) (h : Home) (as : List Attempt) : Home :=
  as.foldl (Home.next B) h

/-! ## The account of the log -/

/-- One more fetch. -/
def account (m : Finmap fun _ : List UInt8 => List UInt8) (o : Outcome) :
    Finmap fun _ : List UInt8 => List UInt8 :=
  o.recorded.elim m fun r => m.insert o.key r

/-- The records by host key, as the fetches of the log left them. -/
def recordsOf (log : List Outcome) : Finmap fun _ : List UInt8 => List UInt8 :=
  log.foldl account ∅

theorem recordsOf_concat (log : List Outcome) (o : Outcome) :
    recordsOf (log ++ [o]) = account (recordsOf log) o :=
  List.foldl_concat _ _ _ _

/-! ## A fetch on the disk -/

section Fetch

variable {B : Build} {p : Policy} {disk : Slot → Option (List UInt8)}
  {map : Finmap fun _ : List UInt8 => List UInt8} {last : Option Slot} {k : List UInt8}

/-- What `trust_pre` found when the hook is to enforce the store, or to accept a first use. -/
structure PreLoaded (B : Build) (host : List UInt8) (i : PreInput) (p : Policy) (r : Policy × Bool) :
    Prop where
  store : r.1.store = trustStoreLoad B.digest false host i.reads p.store
  mode : r.1.hook.tpMode = if r.1.store.found = true then tpMStore else tpMFirst

theorem trustPre_loaded {host : List UInt8} {i : PreInput}
    (h : (trustPre B host i p).1.hook.tpMode = tpMStore ∨
      (trustPre B host i p).1.hook.tpMode = tpMFirst) : PreLoaded B host i p (trustPre B host i p) := by
  revert h
  unfold trustPre
  dsimp only
  split
  case isTrue => exact fun h => absurd h (show ¬ (tpMPin = tpMStore ∨ tpMPin = tpMFirst) by decide)
  case isFalse =>
    split
    case isTrue =>
      unfold tpAskUnpinned
      split
      · exact fun h => absurd h (show ¬ (tpMUnpinned = tpMStore ∨ tpMUnpinned = tpMFirst) by decide)
      · exact fun h => absurd h (show ¬ (tpMNone = tpMStore ∨ tpMNone = tpMFirst) by decide)
    case isFalse hstate =>
      intro _
      -- a socket that is open is a failed load
      have hbusy : i.busy = false := by
        cases hb : i.busy with
        | false => rfl
        | true =>
            rw [hb] at hstate
            exact absurd rfl hstate
      rw [hbusy]
      unfold tpLoaded
      dsimp only
      split
      · split
        case isTrue hfound => exact ⟨rfl, (if_pos hfound).symm⟩
        case isFalse hfound => exact ⟨rfl, (if_neg hfound).symm⟩
      · split
        case isTrue hfound => exact ⟨rfl, (if_pos hfound).symm⟩
        case isFalse hfound => exact ⟨rfl, (if_neg hfound).symm⟩

/-- A record that is staged over a load and saved: it is refused, or it is in the map. -/
theorem save_on (hst : Stored B.digest disk map last) {t : TrustStore}
    (hl : IsLoaded B.digest disk map k t) {bytes : List UInt8} (hlen : bytes.length = 64) (busy : Bool) :
    let s := trustStoreSave B.digest busy (readsOf (slotsOf disk)) written (trustStoreStage bytes t)
    (s.file = none ∧ s.ok = false ∧ ¬ (busy = false ∧ (k ∈ map ∨ map.keys.card < tsMaxRecs))) ∨
      (s.ok = true ∧ ∃ last', Stored B.digest (World.put disk s.file)
        (map.insert k (k ++ bytes.drop 16)) last') := by
  intro s
  have hkey : recordKey (k ++ bytes.drop 16) = k := List.take_left' hl.length_key
  have hsim := sim_stage (D := B.digest) (w := ⟨t, disk⟩) (s := ⟨map, last, .loaded k⟩) ⟨hst, hl⟩
    ⟨bytes, hlen⟩
  rcases save_cases hsim busy with ⟨⟨c, u, hsave⟩, hspec⟩ | ⟨record, ⟨u, c, hsave, hstored⟩, hspec⟩
  · -- refused: then the store was busy, or the map is full
    left
    have hs : s = ⟨tsRefuse c u, none, false⟩ := hsave
    rw [hs]
    refine ⟨rfl, rfl, fun ⟨hclosed, hroom⟩ => ?_⟩
    subst hclosed
    have hfits : Spec.Fits ⟨map, last, .staged (k ++ bytes.drop 16)⟩ (k ++ bytes.drop 16) := by
      unfold Spec.Fits
      rw [hkey]
      exact hroom
    have hrun : Spec.save ⟨map, last, .staged (k ++ bytes.drop 16)⟩ (.staged (k ++ bytes.drop 16)) =
        (_, true) := if_pos hfits
    exact absurd (congrArg Prod.snd (hrun.symm.trans hspec)) (Ne.symm Bool.false_ne_true)
  · right
    have hs : s = ⟨tsConsume u, some (target last, c.image B.digest), true⟩ := hsave
    -- the record that was written is the one that was staged
    have hmap : map.insert (recordKey record) record = map.insert k (k ++ bytes.drop 16) := by
      cases busy with
      | true => exact absurd (congrArg Prod.snd hspec) Bool.false_ne_true
      | false =>
          by_cases hfits : Spec.Fits ⟨map, last, .staged (k ++ bytes.drop 16)⟩ (k ++ bytes.drop 16)
          · have hrun : Spec.save ⟨map, last, .staged (k ++ bytes.drop 16)⟩ (.staged (k ++ bytes.drop 16)) =
                (Spec.insert ⟨map, last, .staged (k ++ bytes.drop 16)⟩ (k ++ bytes.drop 16), true) :=
              if_pos hfits
            have heq := congrArg (fun r => r.1.map) (hspec.symm.trans hrun)
            have hinsert : map.insert (recordKey record) record =
                map.insert (recordKey (k ++ bytes.drop 16)) (k ++ bytes.drop 16) := heq
            rwa [hkey] at hinsert
          · have hrun : Spec.save ⟨map, last, .staged (k ++ bytes.drop 16)⟩ (.staged (k ++ bytes.drop 16)) =
                (_, false) := if_neg hfits
            exact absurd (congrArg Prod.snd (hrun.symm.trans hspec)) Bool.false_ne_true
    rw [hs]
    exact ⟨rfl, _, hmap ▸ hstored⟩

/-- A save is that of a record over the state of the dial. -/
theorem dial_saved {host : List UInt8} {c : Connection × PostInput} (hreached : p.tlsReachedConnected = false)
    (hsized : Sized p.store) {s : List UInt8 × Saved} (h : (dial B host c p).2.post.saved = some s) :
    (p.hook.tpMode = tpMStore ∨ p.hook.tpMode = tpMFirst) ∧ ∃ bytes ring, bytes.length = 64 ∧
      s.1 = p.store.key ++ bytes.drop 16 ∧ s.2 = trustStoreSave B.digest c.2.busy c.2.reads c.2.write
        (trustStoreStage bytes { p.store with buf := ring }) := by
  obtain ⟨hforce, hwent, -⟩ := connect_spec B c.1 p hreached
  have hcase := trustPost_cases B host c.2 (connect B c.1 p)
  have hkey := hforce.key
  have hsized' := hforce.sized hsized
  unfold dial at h
  dsimp only at h
  generalize connect B c.1 p = q at *
  generalize trustPost B host c.2 q = r at hcase h
  cases hcase with
  | nothing => cases h
  | armed => cases h
  | redial => cases h
  | recorded m he =>
      -- only this case of the policy calls the store
      obtain ⟨⟨k, hk, hgot⟩, haccepts⟩ := hwent he.reached
      obtain ⟨ring, hring⟩ := hforce.store
      have hlen : q.hook.tpGot.length = 32 := by
        rw [hgot]
        exact k.length_hash
      cases h
      refine ⟨?_, tpRecordBytes m host q, ring, length_tpRecordBytes host m hsized' hlen, ?_, ?_⟩
      · rcases he.status with ⟨hstatus, -⟩ | ⟨hstatus, -⟩
        · exact Or.inl (accepted_of_status haccepts hstatus).1
        · exact Or.inr (first_of_status haccepts hstatus)
      · show q.store.key ++ (tpRecordBytes m host q).drop 16 = _
        rw [hkey]
      · rw [← hring]

/-- A dial that is made once more is made unpinned. -/
theorem dial_again {host : List UInt8} {c : Connection × PostInput} (hreached : p.tlsReachedConnected = false)
    (hsized : Sized p.store) (h : (dial B host c p).2.post.redial = true) :
    (dial B host c p).2.post.saved = none ∧ (dial B host c p).1.hook.tpMode = tpMUnpinned ∧
      (dial B host c p).1.tlsReachedConnected = false ∧ Sized (dial B host c p).1.store := by
  obtain ⟨hforce, -, -⟩ := connect_spec B c.1 p hreached
  have hcase := trustPost_cases B host c.2 (connect B c.1 p)
  have hsized' := hforce.sized hsized
  unfold dial at h ⊢
  dsimp only at h ⊢
  generalize connect B c.1 p = q at *
  generalize trustPost B host c.2 q = r at hcase h ⊢
  cases hcase with
  | nothing => cases h
  | recorded => cases h
  | armed => cases h
  | redial hshown => exact ⟨rfl, rfl, hshown.reached, hsized'⟩

/-- Only the first dial of a fetch can save. -/
theorem saved_dials {a : Attempt} {o : Outcome} (hreached : p.tlsReachedConnected = false)
    (hsized : Sized p.store) (hdials : o.dials = (dials B o.host a p).2) :
    o.saved = (dial B o.host a.first p).2.post.saved ∧
      ∀ d ∈ o.dials, d.post.saved.isSome = true → d = (dial B o.host a.first p).2 := by
  unfold Outcome.saved
  unfold dials at hdials
  dsimp only at hdials
  split at hdials
  case isTrue hredial =>
    obtain ⟨hnone, hmode, hreached', hsized'⟩ := dial_again hreached hsized hredial
    have hnothing := @post_of_unpinned B _ a.second o.host hmode hreached'
    rw [hdials, List.findSome?_cons, hnone, List.findSome?_cons, hnothing]
    refine ⟨rfl, fun d hd hsome => ?_⟩
    rcases List.mem_cons.1 hd with hd | hd
    · exact hd
    · rw [List.mem_singleton.1 hd, hnothing] at hsome
      exact absurd hsome Bool.false_ne_true
  case isFalse =>
    rw [hdials, List.findSome?_cons]
    refine ⟨?_, fun d hd _ => List.mem_singleton.1 hd⟩
    cases (dial B o.host a.first p).2.post.saved with
    | none => rfl
    | some s => rfl

/-- What a fetch on the disk leaves of the map. -/
structure FetchOn (B : Build) (disk : Slot → Option (List UInt8))
    (map : Finmap fun _ : List UInt8 => List UInt8) (o : Outcome) : Prop where
  loaded : o.mode = tpMStore ∨ o.mode = tpMFirst → o.record = map.lookup o.key
  recorded : ∀ r, o.recorded = some r → o.record = map.lookup o.key ∧ recordKey r = o.key ∧
    o.key.length = 16 ∧ r.length = 64
  /-- with the sockets closed and room in the store, what is staged is saved -/
  willing : ∀ d ∈ o.dials, d.post.saved.isSome = true → d.answers.busy = false →
    (o.key ∈ map ∨ map.keys.card < tsMaxRecs) → o.recorded = d.post.saved.map Prod.fst
  stored : ∃ last, Stored B.digest (World.put disk o.file) (account map o) last

theorem fetchOn_unsaved {o : Outcome} (hst : Stored B.digest disk map last) (hnone : o.saved = none)
    (hloaded : o.mode = tpMStore ∨ o.mode = tpMFirst → o.record = map.lookup o.key) :
    FetchOn B disk map o := by
  have hfile : o.file = none := by
    unfold Outcome.file
    rw [hnone]
    rfl
  have hrec : o.recorded = none := by
    unfold Outcome.recorded
    rw [hnone]
    rfl
  refine ⟨hloaded, fun r hr => ?_, fun d hd hsome => ?_, last, ?_⟩
  · rw [hrec] at hr
    cases hr
  · rw [List.findSome?_eq_none_iff.1 hnone d hd] at hsome
    exact absurd hsome Bool.false_ne_true
  · unfold account
    rw [hfile, hrec]
    exact hst

theorem fetchOn_saved {o : Outcome} {s : List UInt8 × Saved} {t : TrustStore} {bytes : List UInt8}
    {busy : Bool} (hst : Stored B.digest disk map last) (hsome : o.saved = some s)
    (hmode : o.mode = tpMStore ∨ o.mode = tpMFirst)
    (hloaded : o.mode = tpMStore ∨ o.mode = tpMFirst → o.record = map.lookup o.key) (hkey : o.key = k)
    (hl : IsLoaded B.digest disk map k t) (hlen : bytes.length = 64) (hrec : s.1 = k ++ bytes.drop 16)
    (hsave : s.2 = trustStoreSave B.digest busy (readsOf (slotsOf disk)) written
      (trustStoreStage bytes t))
    (hone : ∀ d ∈ o.dials, d.post.saved.isSome = true → d.post.saved = some s ∧ d.answers.busy = busy) :
    FetchOn B disk map o := by
  have hfile : o.file = s.2.file := by
    unfold Outcome.file
    rw [hsome]
    rfl
  have hrecorded : o.recorded = if s.2.ok = true then some s.1 else none := by
    unfold Outcome.recorded
    rw [hsome]
    rfl
  have hrk : recordKey s.1 = o.key := by
    rw [hrec, hkey]
    exact List.take_left' hl.length_key
  have hcases := save_on hst hl hlen busy
  refine ⟨hloaded, fun r hr => ?_, fun d hd hsome hclosed hroom => ?_, ?_⟩
  · rw [hrecorded] at hr
    split at hr
    · cases hr
      refine ⟨hloaded hmode, hrk, hkey ▸ hl.length_key, ?_⟩
      rw [hrec, List.length_append, hl.length_key, List.length_drop, hlen]
    · cases hr
  · -- the dial that earned is the one that saved
    obtain ⟨hd, hbusy⟩ := hone d hd hsome
    rcases hcases with ⟨-, -, hno⟩ | ⟨hok, -⟩
    · exact absurd ⟨hbusy.symm.trans hclosed, hkey ▸ hroom⟩ hno
    · rw [← hsave] at hok
      rw [hrecorded, if_pos hok, hd]
      rfl
  · unfold account
    rcases hcases with ⟨hnone, hno, -⟩ | ⟨hok, last', hstored⟩
    · rw [← hsave] at hnone hno
      rw [hfile, hnone, hrecorded, hno, if_neg Bool.false_ne_true]
      exact ⟨last, hst⟩
    · rw [← hsave] at hok hstored
      rw [hfile, hrecorded, hok, if_pos rfl, hkey, hrec]
      exact ⟨last', hstored⟩

theorem fetch_on (host : List UInt8) (a : Attempt) (hst : Stored B.digest disk map last)
    (hreached : p.tlsReachedConnected = false) (hsized : Sized p.store) :
    FetchOn B disk map (fetch B host (a.on disk) p).2 := by
  have hpre := trustPre_spec B host (a.on disk).pre p
  have hload : (trustPre B host (a.on disk).pre p).1.hook.tpMode = tpMStore ∨
      (trustPre B host (a.on disk).pre p).1.hook.tpMode = tpMFirst →
        PreLoaded B host (a.on disk).pre p (trustPre B host (a.on disk).pre p) := trustPre_loaded
  unfold fetch
  dsimp only
  generalize trustPre B host (a.on disk).pre p = r at hpre hload
  -- what was loaded is what the map has
  have hl : r.1.hook.tpMode = tpMStore ∨ r.1.hook.tpMode = tpMFirst →
      IsLoaded B.digest disk map (hostKey B.digest host) r.1.store := by
    intro hmode
    rw [(hload hmode).store]
    exact load_of_stored hst host p.store
  have hrecord : r.1.hook.tpMode = tpMStore ∨ r.1.hook.tpMode = tpMFirst →
      (if r.1.hook.tpMode = tpMStore then some r.1.store.record else none) = map.lookup r.1.store.key := by
    intro hmode
    rw [(hl hmode).key, ← (hl hmode).lookup, (hload hmode).mode]
    unfold trustStoreLookup
    by_cases hfound : r.1.store.found = true
    · rw [if_pos hfound, if_pos rfl, if_pos hfound]
    · rw [if_neg hfound, if_neg (by decide), if_neg hfound]
  split
  case isFalse => exact fetchOn_unsaved hst rfl hrecord
  case isTrue =>
    obtain ⟨hforce, hstore, -, hreach⟩ := trustBundle_keeps B (a.on disk).spki r.1
    have hsized' : Sized (trustBundle B (a.on disk).spki r.1).store := by
      have hs := hpre.sized hsized
      exact hstore ▸ hs
    have hreached' : (trustBundle B (a.on disk).spki r.1).tlsReachedConnected = false :=
      hreach.trans (hpre.reached.trans hreached)
    generalize ho : ({
        host := host
        key := r.1.store.key
        store := r.1.store.state
        answer := (a.on disk).pre.key
        mode := r.1.hook.tpMode
        record := if r.1.hook.tpMode = tpMStore then some r.1.store.record else none
        dials := (dials B host (a.on disk) (trustBundle B (a.on disk).spki r.1)).2 } : Outcome) = o
    obtain ⟨hsaved, hfirst⟩ := saved_dials (o := o) (a := a.on disk) hreached' hsized' (by rw [← ho])
    have hohost : o.host = host := by rw [← ho]
    have hokey : o.key = r.1.store.key := by rw [← ho]
    have hloaded : o.mode = tpMStore ∨ o.mode = tpMFirst → o.record = map.lookup o.key := by
      rw [← ho]
      exact hrecord
    rw [hohost] at hsaved hfirst
    cases hs : (dial B host (a.on disk).first (trustBundle B (a.on disk).spki r.1)).2.post.saved with
    | none => exact fetchOn_unsaved hst (hsaved.trans hs) hloaded
    | some s =>
        obtain ⟨hmode, bytes, ring, hlen, hrec, hsave⟩ := dial_saved hreached' hsized' hs
        rw [hforce.mode] at hmode
        rw [hstore, (hl hmode).key] at hrec
        rw [hstore] at hsave
        have hring := hl hmode
        have hk : o.key = hostKey B.digest host := hokey.trans hring.key
        have homode : o.mode = tpMStore ∨ o.mode = tpMFirst := by
          rw [← ho]
          exact hmode
        exact fetchOn_saved (t := { r.1.store with buf := ring }) hst (hsaved.trans hs) homode hloaded hk
          ⟨⟨hring.slot, hring.gen⟩, hring.key, hring.length_key, hring.state, hring.staged, hring.lookup⟩
          hlen hrec hsave fun d hd hsome => by
            rw [hfirst d hd hsome]
            exact ⟨hs, rfl⟩

end Fetch

/-! ## Whole runs -/

section Runs

variable {B : Build}

/-- What a record was earned with: a connection of this fetch that was completed, and, where the host had a
record, the operator's accept. -/
structure Earned (log : List Outcome) (o : Outcome) (r : List UInt8) : Prop where
  key : recordKey r = o.key
  dial : ∃ d ∈ o.dials, d.reached = true ∧ d.got ∈ d.seen ∧ recordSpki r = d.got
  before : (recordsOf log).lookup o.key = none ∨ ∃ r₀, (recordsOf log).lookup o.key = some r₀ ∧
    recordSpki r ≠ recordSpki r₀ ∧ AcceptedFor log o.key (recordSpki r)

/-- What holds of every fetch of a run, after the fetches before it. -/
structure Tofu (B : Build) (log : List Outcome) (o : Outcome) : Prop where
  safe : Safe B log o
  /-- a load finds what the fetches before have recorded -/
  loaded : o.mode = tpMStore ∨ o.mode = tpMFirst → o.record = (recordsOf log).lookup o.key
  earned : ∀ r, o.recorded = some r → Earned log o r
  /-- what a connection earned is recorded, with the sockets closed and room in the store -/
  records : ∀ d ∈ o.dials, d.Earns → d.answers.busy = false →
    (o.key ∈ recordsOf log ∨ (recordsOf log).keys.card < tsMaxRecs) →
      ∃ r, o.recorded = some r ∧ recordSpki r = d.got

theorem recordSpki_recordOf {o : Outcome} {hash : List UInt8} {m : UInt8} (hkey : o.key.length = 16)
    (hlen : (recordOf o hash m).length = 64) : recordSpki (recordOf o hash m) = hash := by
  have hhash : hash.length = 32 := by
    unfold recordOf at hlen
    rw [List.length_append, List.length_append, List.length_append, hkey, length_tpDisplay] at hlen
    have hfour : [m, 0, 0, 0].length = 4 := rfl
    omega
  unfold recordSpki recordOf
  rw [List.append_assoc, List.append_assoc, List.drop_left' hkey, List.take_left' hhash]

/-- What a dial staged. -/
theorem spki_of_saved {log : List Outcome} {o : Outcome} {before : List Dial} {d : Dial} {r : List UInt8}
    {s : Saved} (hd : DialSafe B log o before d) (hs : d.post.saved = some (r, s))
    (hkey : o.key.length = 16) (hlen : r.length = 64) : recordSpki r = d.got := by
  rcases hd.saved r s hs with ⟨rfl, -⟩ | ⟨rfl, -⟩ | ⟨rfl, -⟩
  · exact recordSpki_recordOf hkey hlen
  · exact recordSpki_recordOf hkey hlen
  · exact recordSpki_recordOf hkey hlen

/-- The dial that a record is from. -/
theorem exists_saved_of_recorded {o : Outcome} {r : List UInt8} (hr : o.recorded = some r) :
    ∃ d ∈ o.dials, ∃ s, d.post.saved = some (r, s) := by
  unfold Outcome.recorded at hr
  rw [Option.bind_eq_some_iff] at hr
  obtain ⟨s, hs, hr⟩ := hr
  split at hr
  · cases hr
    obtain ⟨d, hd, hds⟩ := List.exists_of_findSome?_eq_some hs
    exact ⟨d, hd, s.2, hds⟩
  · cases hr

theorem earned_of_fetchOn {disk : Slot → Option (List UInt8)} {log : List Outcome} {o : Outcome}
    {r : List UInt8} (hsafe : Safe B log o) (hon : FetchOn B disk (recordsOf log) o)
    (hr : o.recorded = some r) : Earned log o r := by
  obtain ⟨hrecord, hkey, hlenk, hlen⟩ := hon.recorded r hr
  obtain ⟨d, hd, s, hds⟩ := exists_saved_of_recorded hr
  obtain ⟨before, hsafe⟩ := Preceded.of_mem hsafe.dials hd
  have hearns : d.Earns := hsafe.earned.2 (hds ▸ rfl)
  have hspki := spki_of_saved hsafe hds hlenk hlen
  refine ⟨hkey, ⟨d, hd, hearns.1, (hsafe.went hearns.1).1, hspki⟩, ?_⟩
  rcases hsafe.saved r s hds with ⟨-, hnew⟩ | ⟨-, hnew, -⟩ | ⟨-, hasked, r₀, hr₀, hother⟩
  · exact Or.inl (hrecord.symm.trans hnew)
  · exact Or.inl (hrecord.symm.trans hnew)
  · refine Or.inr ⟨r₀, hrecord.symm.trans hr₀, ?_, ?_⟩
    · rw [hspki]
      exact hother
    · rw [hspki]
      exact hasked

theorem records_of_fetchOn {disk : Slot → Option (List UInt8)} {log : List Outcome} {o : Outcome} {d : Dial}
    (hsafe : Safe B log o) (hon : FetchOn B disk (recordsOf log) o) (hd : d ∈ o.dials) (hearns : d.Earns)
    (hclosed : d.answers.busy = false)
    (hroom : o.key ∈ recordsOf log ∨ (recordsOf log).keys.card < tsMaxRecs) :
    ∃ r, o.recorded = some r ∧ recordSpki r = d.got := by
  obtain ⟨before, hdial⟩ := Preceded.of_mem hsafe.dials hd
  have hsome := hdial.earned.1 hearns
  have hrec := hon.willing d hd hsome hclosed hroom
  obtain ⟨s, hs⟩ := Option.isSome_iff_exists.1 hsome
  rw [hs] at hrec
  obtain ⟨-, -, hlenk, hlen⟩ := hon.recorded s.1 hrec
  exact ⟨s.1, hrec, spki_of_saved hdial hs hlenk hlen⟩

structure Good (B : Build) (h : Home) : Prop where
  between : Between h.log h.policy
  stored : ∃ last, Stored B.digest h.disk (recordsOf h.log) last
  log : Preceded (Tofu B) h.log

theorem Good.next {h : Home} (hg : Good B h) (a : Attempt) : Good B (h.next B a) := by
  obtain ⟨last, hst⟩ := hg.stored
  obtain ⟨hsafe, hbetween⟩ := doHttpsGet_spec (B := B) (a.on h.disk) hg.between
  unfold Home.next
  cases hprompt : a.prompt with
  | none =>
      -- the prompt was left: no fetch, and the log stays as it is
      have hout : (doHttpsGet B (a.on h.disk) h.policy).2 = none := by
        unfold doHttpsGet
        have hp : (a.on h.disk).prompt = none := hprompt
        rw [hp]
        rfl
      rw [hout] at hbetween
      dsimp only
      rw [hout]
      refine ⟨hbetween, ⟨last, ?_⟩, ?_⟩
      · show Stored B.digest h.disk (recordsOf (h.log ++ [])) last
        rw [List.append_nil]
        exact hst
      · show Preceded (Tofu B) (h.log ++ [])
        rw [List.append_nil]
        exact hg.log
  | some host =>
      have hout : (doHttpsGet B (a.on h.disk) h.policy).2 =
          some (fetch B host (a.on h.disk) { h.policy with tlsReachedConnected := false }).2 := by
        unfold doHttpsGet
        have hp : (a.on h.disk).prompt = some host := hprompt
        rw [hp]
        rfl
      have hon := fetch_on (B := B) (p := { h.policy with tlsReachedConnected := false }) host a hst rfl
        hg.between.sized
      rw [hout] at hbetween hsafe
      dsimp only
      rw [hout]
      refine ⟨hbetween, ?_,
        hg.log.concat ⟨hsafe _ rfl, hon.loaded, fun r hr => earned_of_fetchOn (hsafe _ rfl) hon hr,
          fun d hd => records_of_fetchOn (hsafe _ rfl) hon hd⟩⟩
      obtain ⟨last', hstored⟩ := hon.stored
      refine ⟨last', ?_⟩
      show Stored B.digest _ (recordsOf (h.log ++ [_])) last'
      rw [recordsOf_concat]
      exact hstored

theorem Good.run (as : List Attempt) : ∀ {h : Home}, Good B h → Good B (h.run B as) := by
  induction as with
  | nil => exact fun hg => hg
  | cons a as ih => exact fun hg => ih (hg.next a)

/-- Trust on first use, over every run of fetches since the boot on a disk that starts out empty and does what
it is told: what is on the disk is what the fetches have recorded; every load finds that; what is recorded was
earned, by a completed connection of the same fetch with that key, for a host that had no record, or whose
operator was shown exactly this key at the fetch before and pressed `A`; and what a connection earned is
recorded, unless a socket is still open or the store is full. -/
theorem tofuRun (B : Build) (p : Policy) (hsized : Sized p.store) (as : List Attempt) :
    let h := Home.run B ⟨trustStateInit p, fun _ => none, []⟩ as
    (∃ last, Stored B.digest h.disk (recordsOf h.log) last) ∧ Preceded (Tofu B) h.log := by
  intro h
  have hstart : Good B ⟨trustStateInit p, fun _ => none, []⟩ :=
    ⟨⟨fun harmed => absurd rfl harmed, hsized⟩, ⟨none, Stored.fresh⟩, preceded_nil _⟩
  have hrun := hstart.run as
  exact ⟨hrun.stored, hrun.log⟩

/-- The same host twice. -/
theorem tofuRun_first :
    let a : Attempt := ⟨some [0x61], ⟨false, readsOf fun _ => .absent, 0⟩, none,
      (.handshake (fun _ => 0) [⟨0, List.replicate 32 9, rfl, true⟩] true,
        ⟨false, readsOf fun _ => .absent, written, 0, 0, 0⟩),
      (.undialled fun _ => 0, ⟨false, readsOf fun _ => .absent, written, 0, 0, 0⟩)⟩
    let h := Home.run ⟨.fips, none, false, []⟩
      ⟨trustStateInit ⟨.cleared fun _ => 0, ⟨0, 0, 0, 0, [], [], [], 0, []⟩, [], false⟩, fun _ => none, []⟩
      [a, a]
    (∃ last, Stored (Build.digest ⟨.fips, none, false, []⟩) h.disk (recordsOf h.log) last) ∧
      Preceded (Tofu ⟨.fips, none, false, []⟩) h.log :=
  tofuRun ⟨.fips, none, false, []⟩
    ⟨.cleared fun _ => 0, ⟨0, 0, 0, 0, [], [], [], 0, []⟩, [], false⟩ ⟨rfl, rfl⟩ _

end Runs

end Store
end C64Https
