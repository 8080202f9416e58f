import C64Https.Tls.Messages

/-!
# DeframeRuns — the same messages, however the records cut them

The caller of the deframer sets `tls_state` to what it waits for, pumps, and brings the next record
whenever the pump asks for more.  Over a list of messages and any records that carry their bytes
(`deframe_any_split`), the messages are dispatched in order, each with its own body and with the
hash of the messages before it, and every byte is folded once: just as when each message has a
record to itself.
-/

namespace C64Https
namespace Tls

open Word Loop Bytes

variable {κ : Type}

/-! ## The driver -/

/-- Where a run over given records ends. -/
inductive Halt where
  /-- the records are used up -/
  | drained
  | refused (e : DfErr)
  deriving DecidableEq, Repr

structure Drive (κ : Type) where
  hs : Hs κ
  /-- how many messages were dispatched -/
  k : Nat
  recs : List (List UInt8)

/-- One pump, in the state `due k` that the caller sets for message `k`.  A caller that `stops`
leaves at the first message that its handler refuses, as `tls_connect` does; the other kind pumps
on. -/
def driveTurn (E : Env κ) (due : Nat → TlsState) (stops : Bool) (d : Drive κ) :
    Turn (Drive κ) (Option (Hs κ × Halt)) :=
  match tlsDeframePump E { d.hs with tlsState := due d.k } with
  | none => .leave none
  | some (s, .msg) => .again { d with hs := s, k := d.k + 1 }
  | some (s, .more) =>
      match d.recs with
      | [] => .leave (some (s, .drained))
      | bs :: recs => .again { d with hs := loadRecord s bs, recs := recs }
  | some (s, .err e) =>
      if e = .dispatch ∧ stops = false then
        .again { d with hs := s, k := d.k + 1 }
      else
        .leave (some (s, .refused e))

/-- Every turn takes a byte or a record. -/
def Drive.left (d : Drive κ) : Nat :=
  d.hs.pending.length + d.recs.flatten.length + d.recs.length

def deframe (E : Env κ) (due : Nat → TlsState) (stops : Bool) (s : Hs κ)
    (recs : List (List UInt8)) : Option (Hs κ × Halt) :=
  (loop (driveTurn E due stops) (Drive.left ⟨s, 0, recs⟩ + 1) ⟨s, 0, recs⟩).join

/-! ## What came of the messages -/

def stream (ms : List HsMsg) : List UInt8 :=
  ms.flatMap HsMsg.bytes

/-- The past after some messages and the answers of their handlers. -/
def pastOf (E : Env κ) (b : Past) (ran : List (HsMsg × Bool)) : Past :=
  ran.foldl (fun b x => b.next E x.1 x.2) b

/-- The messages as their handlers see them: each with the hash of those before it. -/
def seenBy (sha : Sha256) (t : Transcript) : List (HsMsg × Bool) → List Dispatched
  | [] => []
  | x :: ran =>
      ⟨x.1.ty, x.1.body, tlsTranscriptHash sha t, x.2⟩ ::
        seenBy sha (tlsTranscriptUpdate sha t x.1.bytes) ran

@[simp] theorem stream_nil : stream [] = [] :=
  rfl

@[simp] theorem stream_cons (m : HsMsg) (ms : List HsMsg) : stream (m :: ms) = m.bytes ++ stream ms :=
  rfl

theorem pastOf_append (E : Env κ) (b : Past) (ran : List (HsMsg × Bool)) (m : HsMsg) (ok : Bool) :
    pastOf E b (ran ++ [(m, ok)]) = (pastOf E b ran).next E m ok := by
  simp [pastOf]

theorem pastOf_folded (E : Env κ) (ran : List (HsMsg × Bool)) :
    ∀ b : Past, (pastOf E b ran).folded = b.folded ++ stream (ran.map Prod.fst) := by
  induction ran with
  | nil =>
      intro b
      simp [pastOf]
  | cons x ran ih =>
      intro b
      have hstep : pastOf E b (x :: ran) = pastOf E (b.next E x.1 x.2) ran := rfl
      rw [hstep, ih]
      simp [Past.next]

theorem pastOf_dispatched (E : Env κ) (ran : List (HsMsg × Bool)) :
    ∀ b : Past, (pastOf E b ran).dispatched = b.dispatched ++ seenBy E.sha b.transcript ran := by
  induction ran with
  | nil =>
      intro b
      simp [pastOf, seenBy]
  | cons x ran ih =>
      intro b
      have hstep : pastOf E b (x :: ran) = pastOf E (b.next E x.1 x.2) ran := rfl
      rw [hstep, ih]
      simp [Past.next, seenBy]

/-! ## Where a run stands -/

theorem AtMessage.load {s : Hs κ} {b : Past} {pre : List UInt8} (h : AtMessage s b pre)
    {bs : List UInt8} (hbs : bs.length ≤ recBufSize) : AtMessage (loadRecord s bs) b pre :=
  ⟨⟨h.part.inv.load hbs, h.part.mode_eq, h.part.have_eq, h.part.hdr_eq, h.part.split⟩,
    h.transcript_eq, h.folded_eq, h.dispatched_eq⟩

theorem AtMessage.wait {s : Hs κ} {b : Past} {pre : List UInt8} (h : AtMessage s b pre)
    (st : TlsState) : AtMessage { s with tlsState := st } b pre :=
  ⟨⟨⟨⟨h.part.inv.safe, h.part.inv.recLen_le, h.part.inv.recOff_le, h.part.inv.hdrHave_le,
    h.part.inv.csNeed_lt⟩, h.part.inv.carry_fits, h.part.inv.stream_lt, h.part.inv.leaf_fits⟩,
    h.part.mode_eq, h.part.have_eq, h.part.hdr_eq, h.part.split⟩,
    h.transcript_eq, h.folded_eq, h.dispatched_eq⟩

theorem CarryPart.load {E : Env κ} {s : Hs κ} {b : Past} {m : HsMsg} {j : Nat}
    (h : CarryPart E s b m j) {bs : List UInt8} (hbs : bs.length ≤ recBufSize) :
    CarryPart E (loadRecord s bs) b m j :=
  ⟨h.inv.load hbs, h.mode_eq, h.ty_eq, h.msgLen_eq, h.off_eq, h.rem_eq, h.carry_eq, h.snap_eq,
    h.transcript_eq, h.folded_eq, h.dispatched_eq⟩

theorem CarryPart.wait {E : Env κ} {s : Hs κ} {b : Past} {m : HsMsg} {j : Nat}
    (h : CarryPart E s b m j) (st : TlsState) : CarryPart E { s with tlsState := st } b m j :=
  ⟨⟨⟨h.inv.safe, h.inv.recLen_le, h.inv.recOff_le, h.inv.hdrHave_le, h.inv.csNeed_lt⟩,
    h.inv.carry_fits, h.inv.stream_lt, h.inv.leaf_fits⟩, h.mode_eq, h.ty_eq, h.msgLen_eq,
    h.off_eq, h.rem_eq, h.carry_eq, h.snap_eq, h.transcript_eq, h.folded_eq, h.dispatched_eq⟩

/-- Between two pumps: in the header of the next message, or in the carried body of one that the
gate let through.  The bytes to come are those the messages still miss. -/
inductive Place (E : Env κ) (due : TlsState) (b : Past) (d : Drive κ) : List HsMsg → Prop where
  | header {rest : List HsMsg} (pre : List UInt8) (hat : AtMessage d.hs b pre)
      (hpre : pre.length < 4)
      (hbytes : pre ++ (d.hs.pending ++ d.recs.flatten) = stream rest) : Place E due b d rest
  | carry {rest : List HsMsg} (m : HsMsg) (j : Nat) (hpart : CarryPart E d.hs b m j)
      (hgate : tlsHsSeqCheck due m.ty = true) (hlive : j < m.bytes.length)
      (hbytes : d.hs.pending ++ d.recs.flatten = m.bytes.drop j ++ stream rest) :
      Place E due b d (m :: rest)

/-- A run over `msgs` that has dispatched `ran` and has `rest` to go. -/
structure Ran (due : Nat → TlsState) (stops : Bool) (msgs : List HsMsg)
    (ran : List (HsMsg × Bool)) (rest : List HsMsg) : Prop where
  split : msgs = ran.map Prod.fst ++ rest
  admitted : ∀ i x, ran[i]? = some x → tlsHsSeqCheck (due i) x.1.ty = true
  accepted : stops = true → ∀ i x, i + 1 < ran.length → ran[i]? = some x → x.2 = true

/-- How a run can end: all is consumed; or the gate refuses the next message; or a caller that
stops has met a refusal. -/
inductive Ending (due : Nat → TlsState) (stops : Bool) (ran : List (HsMsg × Bool)) :
    List HsMsg → Halt → Prop where
  | drained (hok : stops = true → ∀ x ∈ ran, x.2 = true) : Ending due stops ran [] .drained
  | gate {m : HsMsg} {rest : List HsMsg} (hok : stops = true → ∀ x ∈ ran, x.2 = true)
      (h : tlsHsSeqCheck (due ran.length) m.ty = false) :
      Ending due stops ran (m :: rest) (.refused .seq)
  | verdict {m : HsMsg} {rest : List HsMsg} {init : List (HsMsg × Bool)} (hstop : stops = true)
      (h : ran = init ++ [(m, false)]) : Ending due stops ran rest (.refused .dispatch)

/-- The end of a run: what was dispatched, with the answers, and what was folded. -/
structure Ended (E : Env κ) (due : Nat → TlsState) (stops : Bool) (b : Past) (msgs : List HsMsg)
    (ran : List (HsMsg × Bool)) (x : Hs κ × Halt) : Prop where
  rest : ∃ rest, Ran due stops msgs ran rest ∧ Ending due stops ran rest x.2
  transcript_eq : x.1.transcript = (pastOf E b ran).transcript
  folded_eq : folded x.1.trace = (pastOf E b ran).folded
  dispatched_eq : dispatched x.1.trace = (pastOf E b ran).dispatched

/-- The invariant of the driver. -/
def Underway (E : Env κ) (due : Nat → TlsState) (stops : Bool) (b : Past) (msgs : List HsMsg)
    (d : Drive κ) : Prop :=
  ∃ ran rest, Ran due stops msgs ran rest ∧ (stops = true → ∀ x ∈ ran, x.2 = true) ∧
    d.k = ran.length ∧ Delivered d.recs ∧ (∀ m ∈ rest, m.Carriable) ∧
      Place E (due ran.length) (pastOf E b ran) d rest

theorem Ran.push {due : Nat → TlsState} {stops : Bool} {msgs : List HsMsg}
    {ran : List (HsMsg × Bool)} {m : HsMsg} {rest : List HsMsg}
    (h : Ran due stops msgs ran (m :: rest)) (hok : stops = true → ∀ x ∈ ran, x.2 = true)
    (hgate : tlsHsSeqCheck (due ran.length) m.ty = true) (ok : Bool) :
    Ran due stops msgs (ran ++ [(m, ok)]) rest := by
  refine ⟨?_, ?_, ?_⟩
  · rw [h.split]
    simp
  · intro i x hx
    by_cases hi : i < ran.length
    · rw [List.getElem?_append_left hi] at hx
      exact h.admitted i x hx
    · rw [List.getElem?_append_right (by omega)] at hx
      rw [List.getElem?_singleton] at hx
      split at hx
      · have hlast : i = ran.length := by
          omega
        cases hx
        rw [hlast]
        exact hgate
      · cases hx
  · intro hstop i x hlt hx
    rw [List.length_append, List.length_singleton] at hlt
    rw [List.getElem?_append_left (by omega)] at hx
    exact hok hstop x (List.mem_of_getElem? hx)

/-! ## One turn -/

section Turn

variable {E : Env κ} {due : Nat → TlsState} {stops : Bool} {b : Past} {msgs : List HsMsg}
  {d : Drive κ}

/-- What a turn has to bring about. -/
def TurnGoal (E : Env κ) (due : Nat → TlsState) (stops : Bool) (b : Past) (msgs : List HsMsg)
    (d : Drive κ) : Prop :=
  (driveTurn E due stops d).Post
    (fun d' => Underway E due stops b msgs d' ∧ d'.left < d.left)
    (fun r => ∃ x ran, r = some x ∧ Ended E due stops b msgs ran x)

/-- The record is used up and the pump asks for more: the next record, or the end of the run. -/
theorem turn_more {s' : Hs κ} (hpump : tlsDeframePump E { d.hs with tlsState := due d.k } =
      some (s', .more))
    (hend : d.recs = [] → ∃ ran, Ended E due stops b msgs ran (s', .drained))
    (hload : ∀ bs recs, d.recs = bs :: recs →
      Underway E due stops b msgs { d with hs := loadRecord s' bs, recs := recs }) :
    TurnGoal E due stops b msgs d := by
  unfold TurnGoal driveTurn
  rw [hpump]
  dsimp only
  cases hrecs : d.recs with
  | nil =>
      obtain ⟨ran, hran⟩ := hend hrecs
      exact ⟨_, ran, rfl, hran⟩
  | cons bs recs =>
      refine ⟨hload bs recs hrecs, ?_⟩
      unfold Drive.left
      rw [hrecs, pending_loadRecord, List.flatten_cons, List.length_append, List.length_cons]
      show bs.length + recs.flatten.length + recs.length < _
      omega

/-- The pump went on with an admitted message. -/
theorem turn_pumpsOn {ran : List (HsMsg × Bool)} {m : HsMsg} {rest : List HsMsg} {pos : Nat}
    {r : Hs κ × Ret} (hran : Ran due stops msgs ran (m :: rest))
    (hok : stops = true → ∀ x ∈ ran, x.2 = true) (hk : d.k = ran.length)
    (hdel : Delivered d.recs) (hcarr : ∀ m' ∈ m :: rest, m'.Carriable)
    (hgate : tlsHsSeqCheck (due ran.length) m.ty = true) (hlive : pos < m.bytes.length)
    (hbytes : d.hs.pending ++ d.recs.flatten = m.bytes.drop pos ++ stream rest)
    (hpump : tlsDeframePump E { d.hs with tlsState := due d.k } = some r)
    (hon : PumpsOn E { d.hs with tlsState := due d.k } (pastOf E b ran) m pos r) :
    TurnGoal E due stops b msgs d := by
  have hsame : ({ d.hs with tlsState := due d.k } : Hs κ).pending = d.hs.pending := rfl
  have hmiss : (m.bytes.drop pos).length = m.bytes.length - pos := List.length_drop
  cases hon with
  | inside hshort hpart hpend =>
      rw [hsame] at hshort hpart
      refine turn_more hpump ?_ ?_
      · -- the message is not complete, so there are more records
        intro hnil
        exfalso
        have hlen := congrArg List.length hbytes
        rw [hnil, List.length_append, List.length_append, hmiss] at hlen
        simp only [List.flatten_nil, List.length_nil] at hlen
        omega
      · intro bs recs hrecs
        rw [hrecs] at hdel
        refine ⟨ran, m :: rest, hran, hok, hk, fun x hx => hdel x (by simp [hx]), hcarr, ?_⟩
        refine .carry m (pos + d.hs.pending.length) (hpart.load (hdel bs (by simp))) hgate
          (by omega) ?_
        have hcut := congrArg (List.drop d.hs.pending.length) hbytes
        rw [List.drop_left, List.drop_append_of_le_length (by omega), List.drop_drop,
          hrecs] at hcut
        rw [pending_loadRecord]
        exact hcut
  | @done s' ok hlong hat hpend =>
      rw [hsame] at hlong hpend
      have hlen : s'.pending.length < d.hs.pending.length := by
        rw [hpend, List.length_drop]
        omega
      have hrest : s'.pending ++ d.recs.flatten = stream rest := by
        have hcut := congrArg (List.drop (m.bytes.length - pos)) hbytes
        rw [List.drop_append_of_le_length (by omega), ← hmiss, List.drop_left] at hcut
        rw [hpend, ← hmiss]
        exact hcut
      have hpush := hran.push hok hgate ok
      have hnext : AtMessage s' (pastOf E b (ran ++ [(m, ok)])) [] := by
        rw [pastOf_append]
        exact hat
      have hk' : d.k + 1 = (ran ++ [(m, ok)]).length := by
        rw [List.length_append, List.length_singleton, hk]
      have hgo : (stops = true → ok = true) →
          Underway E due stops b msgs { d with hs := s', k := d.k + 1 } := by
        intro hverdict
        refine ⟨_, rest, hpush, ?_, hk', hdel, fun x hx => hcarr x (by simp [hx]),
          .header [] hnext (by simp) (by simpa using hrest)⟩
        intro hstop x hx
        rcases List.mem_append.1 hx with hx | hx
        · exact hok hstop x hx
        · obtain rfl : x = (m, ok) := by
            simpa using hx
          exact hverdict hstop
      have hless : ({ d with hs := s', k := d.k + 1 } : Drive κ).left < d.left := by
        unfold Drive.left
        show s'.pending.length + d.recs.flatten.length + d.recs.length < _
        omega
      unfold TurnGoal driveTurn
      rw [hpump]
      cases ok with
      | true => exact ⟨hgo fun _ => rfl, hless⟩
      | false =>
          -- a refusal: the caller that stops leaves here
          cases hstop : stops with
          | false => exact ⟨hstop ▸ hgo (fun hs => absurd hs (by simp [hstop])), hless⟩
          | true =>
              refine ⟨_, ran ++ [(m, false)], rfl, ⟨rest, hstop ▸ hpush, .verdict rfl rfl⟩,
                hnext.transcript_eq, hnext.folded_eq, hnext.dispatched_eq⟩

theorem stream_short {ms : List HsMsg} (h : (stream ms).length < 4) : ms = [] := by
  cases ms with
  | nil => rfl
  | cons m ms =>
      rw [stream_cons, List.length_append, m.length_bytes] at h
      omega

/-- Before the header of the next message is complete. -/
theorem turn_header {ran : List (HsMsg × Bool)} {rest : List HsMsg} {pre : List UInt8}
    (hran : Ran due stops msgs ran rest) (hok : stops = true → ∀ x ∈ ran, x.2 = true)
    (hk : d.k = ran.length) (hdel : Delivered d.recs) (hcarr : ∀ m ∈ rest, m.Carriable)
    (hat : AtMessage d.hs (pastOf E b ran) pre) (hpre : pre.length < 4)
    (hbytes : pre ++ (d.hs.pending ++ d.recs.flatten) = stream rest) :
    TurnGoal E due stops b msgs d := by
  have hat' := hat.wait (due d.k)
  have hsame : ({ d.hs with tlsState := due d.k } : Hs κ).pending = d.hs.pending := rfl
  -- the header ends behind this record: the rest of it is kept
  by_cases hlen : pre.length + d.hs.pending.length < 4
  · obtain ⟨s', hpump, hnext, _⟩ := pump_header E hat' (by rw [hsame]; exact hlen)
    rw [hsame] at hnext
    refine turn_more hpump ?_ ?_
    · intro hnil
      rw [hnil, List.flatten_nil, List.append_nil] at hbytes
      have hnone : rest = [] := by
        refine stream_short ?_
        rw [← hbytes, List.length_append]
        exact hlen
      subst hnone
      exact ⟨ran, ⟨[], hran, .drained hok⟩, hnext.transcript_eq, hnext.folded_eq, hnext.dispatched_eq⟩
    · intro bs recs hrecs
      rw [hrecs] at hdel hbytes
      refine ⟨ran, rest, hran, hok, hk, fun x hx => hdel x (by simp [hx]), hcarr, ?_⟩
      refine .header _ (hnext.load (hdel bs (by simp))) ?_ ?_
      · rw [List.length_append]
        exact hlen
      · rw [pending_loadRecord, List.append_assoc]
        exact hbytes
  · cases rest with
    | nil =>
        have hzero := congrArg List.length hbytes
        rw [List.length_append, List.length_append, stream_nil, List.length_nil] at hzero
        omega
    | cons m rest =>
        have hfour : 4 ≤ pre.length + ({ d.hs with tlsState := due d.k } : Hs κ).pending.length := by
          rw [hsame]
          omega
        -- the message is in order, or the gate refuses its type
        cases hgate : tlsHsSeqCheck (due ran.length) m.ty with
        | true =>
            obtain ⟨r, hpump, hon⟩ := pump_message E hat' (hcarr m (by simp))
              (by rw [hk]; exact hgate) (by omega) hbytes hfour
            have hshort : pre.length < m.bytes.length := by
              rw [m.length_bytes]
              omega
            refine turn_pumpsOn hran hok hk hdel hcarr hgate hshort ?_ hpump hon
            have hcut := congrArg (List.drop pre.length) hbytes
            rw [List.drop_left, stream_cons, List.drop_append_of_le_length (by omega)] at hcut
            exact hcut
        | false =>
            obtain ⟨s', hpump, ht, hf, hd⟩ := pump_refused E hat' (by rw [hk]; exact hgate)
              (by omega) hbytes hfour
            unfold TurnGoal driveTurn
            rw [hpump]
            exact ⟨_, ran, rfl, ⟨m :: rest, hran, .gate hok hgate⟩, ht, hf, hd⟩

theorem underway_turn (h : Underway E due stops b msgs d) : TurnGoal E due stops b msgs d := by
  obtain ⟨ran, rest, hran, hok, hk, hdel, hcarr, hplace⟩ := h
  cases hplace with
  | header pre hat hpre hbytes => exact turn_header hran hok hk hdel hcarr hat hpre hbytes
  | @carry rest m j hpart hgate hlive hbytes =>
      have hpart' := hpart.wait (due d.k)
      have hty : Handled m.ty := ⟨_, (tlsHsSeqCheck_iff _ _).1 hgate⟩
      have hrem : (m.bytes.drop j).length = d.hs.msgRem := by
        have := hpart.rem_eq
        rw [List.length_drop]
        omega
      have htake := take_take_of_append hbytes
      rw [hrem] at htake
      obtain ⟨r, hpump, hon⟩ := pump_carry E hpart' hty hlive htake
      exact turn_pumpsOn hran hok hk hdel hcarr hgate hlive hbytes hpump hon

end Turn

/-! ## Whole runs -/

/-- A fresh handshake, nothing folded or dispatched yet. -/
def Past.fresh (s : Hs κ) : Past where
  transcript := s.transcript
  folded := []
  dispatched := []

theorem DfStart.fresh {s : Hs κ} (h : DfStart s) :
    AtMessage s (Past.fresh s) [] ∧ s.pending = [] := by
  have hinv := h.inv
  rcases h with ⟨s, htr, _, _, rfl⟩
  have htrace : (tlsDeframeInit s).trace = [] := htr
  refine ⟨⟨⟨hinv, rfl, rfl, bytesAt_zero _ _, fun hne => absurd rfl hne⟩, rfl, ?_, ?_⟩, ?_⟩
  · rw [htrace]
    rfl
  · rw [htrace]
    rfl
  · -- `tls_deframe_init` puts the offset at the end of whatever record is there
    refine List.length_eq_zero_iff.1 ?_
    rw [length_pending]
    exact Nat.sub_self _

/-- The run ends, whatever the records. -/
theorem deframe_ends (E : Env κ) (due : Nat → TlsState) (stops : Bool) {s : Hs κ} (hs : DfStart s)
    {msgs : List HsMsg} (hm : ∀ m ∈ msgs, m.Carriable) {recs : List (List UInt8)}
    (hdel : Delivered recs) (hbytes : recs.flatten = stream msgs) :
    ∃ x ran, deframe E due stops s recs = some x ∧
      Ended E due stops (Past.fresh s) msgs ran x := by
  obtain ⟨hat, hpend⟩ := hs.fresh
  have hstart : Underway E due stops (Past.fresh s) msgs ⟨s, 0, recs⟩ := by
    refine ⟨[], msgs, ⟨rfl, ?_, ?_⟩, ?_, rfl, hdel, hm, .header [] hat (by simp) ?_⟩
    · intro i x hx
      simp at hx
    · intro _ i x hlt
      simp at hlt
    · intro _ x hx
      cases hx
    · rw [hpend, List.nil_append, List.nil_append, hbytes]
  obtain ⟨r, hrun, x, ran, rfl, hend⟩ :=
    loop_total (Underway E due stops (Past.fresh s) msgs)
      (fun r => ∃ x ran, r = some x ∧ Ended E due stops (Past.fresh s) msgs ran x) Drive.left
      (fun d hd => underway_turn hd) (Drive.left ⟨s, 0, recs⟩ + 1) ⟨s, 0, recs⟩ hstart
      (Nat.lt_succ_self _)
  refine ⟨x, ran, ?_, hend⟩
  unfold deframe
  rw [hrun]
  rfl

/-! ## What a caller sees of a run -/

def Dispatched.message (d : Dispatched) : HsMsg :=
  ⟨d.ty, d.body⟩

/-- The running transcript after some messages. -/
def afterMessages (sha : Sha256) (t : Transcript) (ms : List HsMsg) : Transcript :=
  ms.foldl (fun t m => tlsTranscriptUpdate sha t m.bytes) t

/-- The first `n` messages were dispatched in order, each with the hash of those before it, and
exactly their bytes were folded. -/
structure OrderKept (E : Env κ) (due : Nat → TlsState) (stops : Bool) (s : Hs κ)
    (msgs : List HsMsg) (x : Hs κ) (n : Nat) : Prop where
  le : n ≤ msgs.length
  messages : (dispatched x.trace).map Dispatched.message = msgs.take n
  snaps : ∀ (i : Nat) (d : Dispatched), (dispatched x.trace)[i]? = some d →
    d.snap = tlsTranscriptHash E.sha (afterMessages E.sha s.transcript (msgs.take i))
  folds : folded x.trace = stream (msgs.take n)
  transcript_eq : x.transcript = afterMessages E.sha s.transcript (msgs.take n)
  whole : (∀ (i : Nat) (m : HsMsg), msgs[i]? = some m → tlsHsSeqCheck (due i) m.ty = true) →
    (stops = false ∨ ∀ d ∈ dispatched x.trace, d.ok = true) → n = msgs.length

/-- The handlers gave the same answers in two runs, as far as both got. -/
def AnswersAlike (x y : Hs κ) : Prop :=
  ∀ (i : Nat) (d d' : Dispatched), (dispatched x.trace)[i]? = some d →
    (dispatched y.trace)[i]? = some d' → d.ok = d'.ok

/-- Two callers saw the same messages, and the same end. -/
def SameRun (x y : Hs κ × Halt) : Prop :=
  (dispatched x.1.trace).map Dispatched.message = (dispatched y.1.trace).map Dispatched.message ∧
    x.2 = y.2

theorem seenBy_message (sha : Sha256) (ran : List (HsMsg × Bool)) :
    ∀ t : Transcript, (seenBy sha t ran).map Dispatched.message = ran.map Prod.fst := by
  induction ran with
  | nil =>
      intro t
      rfl
  | cons x ran ih =>
      intro t
      rw [seenBy, List.map_cons, ih, List.map_cons]
      rfl

theorem seenBy_getElem? (sha : Sha256) (ran : List (HsMsg × Bool)) :
    ∀ (t : Transcript) (i : Nat), (seenBy sha t ran)[i]? = ran[i]?.map fun x =>
      ⟨x.1.ty, x.1.body,
        tlsTranscriptHash sha (afterMessages sha t ((ran.map Prod.fst).take i)), x.2⟩ := by
  induction ran with
  | nil =>
      intro t i
      rfl
  | cons x ran ih =>
      intro t i
      cases i with
      | zero => rfl
      | succ i =>
          rw [seenBy, List.getElem?_cons_succ, ih, List.getElem?_cons_succ]
          rfl

theorem pastOf_transcript (E : Env κ) (ran : List (HsMsg × Bool)) :
    ∀ b : Past, (pastOf E b ran).transcript =
      afterMessages E.sha b.transcript (ran.map Prod.fst) := by
  induction ran with
  | nil =>
      intro b
      rfl
  | cons x ran ih =>
      intro b
      exact ih (b.next E x.1 x.2)

section Compare

variable {E : Env κ} {due : Nat → TlsState} {stops : Bool} {s : Hs κ} {msgs : List HsMsg}
  {ran ran' : List (HsMsg × Bool)} {x y : Hs κ × Halt}

theorem Ended.dispatched (h : Ended E due stops (Past.fresh s) msgs ran x) :
    Tls.dispatched x.1.trace = seenBy E.sha s.transcript ran := by
  rw [h.dispatched_eq, pastOf_dispatched]
  rfl

theorem Ended.ran_eq (h : Ended E due stops (Past.fresh s) msgs ran x) :
    ran.map Prod.fst = msgs.take ran.length ∧ ran.length ≤ msgs.length := by
  obtain ⟨rest, hran, _⟩ := h.rest
  have hlen : (ran.map Prod.fst).length = ran.length := List.length_map _
  refine ⟨?_, ?_⟩
  · rw [hran.split, ← hlen, List.take_left]
  · rw [hran.split, List.length_append, hlen]
    omega

theorem Ended.orderKept (h : Ended E due stops (Past.fresh s) msgs ran x) :
    OrderKept E due stops s msgs x.1 ran.length := by
  obtain ⟨hran, hle⟩ := h.ran_eq
  have hd := h.dispatched
  refine ⟨hle, ?_, ?_, ?_, ?_, ?_⟩
  · rw [hd, seenBy_message, hran]
  · intro i d hi
    rw [hd, seenBy_getElem?] at hi
    obtain ⟨z, hz, rfl⟩ := Option.map_eq_some_iff.1 hi
    have hlt : i < ran.length := (List.getElem?_eq_some_iff.1 hz).1
    rw [hran, List.take_take, Nat.min_eq_left (by omega)]
  · rw [h.folded_eq, pastOf_folded, hran]
    rfl
  · rw [h.transcript_eq, pastOf_transcript, hran]
    rfl
  · intro hgates hacc
    obtain ⟨rest, hr, hends⟩ := h.rest
    generalize x.2 = halt at hends
    cases hends with
    | drained _ =>
        rw [hr.split, List.append_nil, List.length_map]
    | @gate m rest _ hgate =>
        have hm : msgs[ran.length]? = some m := by
          rw [hr.split]
          simp
        rw [hgates _ m hm] at hgate
        cases hgate
    | @verdict m rest init hstop hlast =>
        rcases hacc with hgo | hacc
        · rw [hgo] at hstop
          cases hstop
        · have hin : ran[init.length]? = some (m, false) := by
            rw [hlast]
            simp
          have hdis := seenBy_getElem? E.sha ran s.transcript init.length
          rw [← hd, hin] at hdis
          cases hacc _ (List.mem_of_getElem? hdis)

/-- The answers agree as far as both runs go. -/
def Alike (ran ran' : List (HsMsg × Bool)) : Prop :=
  ∀ (i : Nat) (a a' : HsMsg × Bool), ran[i]? = some a → ran'[i]? = some a' → a.2 = a'.2

theorem Alike.symm (h : Alike ran ran') : Alike ran' ran :=
  fun i a a' hi hi' => (h i a' a hi' hi).symm

theorem Ended.alike (h : Ended E due stops (Past.fresh s) msgs ran x)
    (h' : Ended E due stops (Past.fresh s) msgs ran' y) (ha : AnswersAlike x.1 y.1) :
    Alike ran ran' := by
  intro i a a' hi hi'
  have hd : (Tls.dispatched x.1.trace)[i]? = some ⟨a.1.ty, a.1.body,
      tlsTranscriptHash E.sha (afterMessages E.sha s.transcript ((ran.map Prod.fst).take i)),
      a.2⟩ := by
    rw [h.dispatched, seenBy_getElem?, hi]
    rfl
  have hd' : (Tls.dispatched y.1.trace)[i]? = some ⟨a'.1.ty, a'.1.body,
      tlsTranscriptHash E.sha (afterMessages E.sha s.transcript ((ran'.map Prod.fst).take i)),
      a'.2⟩ := by
    rw [h'.dispatched, seenBy_getElem?, hi']
    rfl
  exact ha i _ _ hd hd'

/-- A run that accepted all its messages, and one of the same length that ended on a refusal. -/
theorem not_all_accepted {init : List (HsMsg × Bool)} {m : HsMsg} (hok : ∀ x ∈ ran, x.2 = true)
    (hlast : ran' = init ++ [(m, false)]) (hlen : ran.length = ran'.length)
    (hal : Alike ran ran') : False := by
  rw [hlast, List.length_append, List.length_singleton] at hlen
  obtain ⟨z, hz⟩ : ∃ z, ran[init.length]? = some z := ⟨_, List.getElem?_eq_getElem (by omega)⟩
  have hi : ran'[init.length]? = some (m, false) := by
    rw [hlast]
    simp
  have hfalse := hal _ _ _ hz hi
  rw [hok z (List.mem_of_getElem? hz)] at hfalse
  cases hfalse

theorem Ending.halt_eq {rest : List HsMsg} {a b : Halt} (h : Ending due stops ran rest a)
    (h' : Ending due stops ran' rest b) (hlen : ran.length = ran'.length)
    (hal : stops = true → Alike ran ran') :
    a = b := by
  cases h with
  | drained hok =>
      cases h' with
      | drained _ => rfl
      | verdict hstop hlast => exact (not_all_accepted (hok hstop) hlast hlen (hal hstop)).elim
  | gate hok _ =>
      cases h' with
      | gate _ _ => rfl
      | verdict hstop hlast => exact (not_all_accepted (hok hstop) hlast hlen (hal hstop)).elim
  | verdict hstop hlast =>
      have hal' := (hal hstop).symm
      cases h' with
      | drained hok => exact (not_all_accepted (hok hstop) hlast hlen.symm hal').elim
      | gate hok _ => exact (not_all_accepted (hok hstop) hlast hlen.symm hal').elim
      | verdict _ _ => rfl

/-- No run stops short of another over the same messages. -/
theorem Ended.not_shorter (h : Ended E due stops (Past.fresh s) msgs ran x)
    (h' : Ended E due stops (Past.fresh s) msgs ran' y)
    (ha : stops = false ∨ AnswersAlike x.1 y.1) : ¬ ran.length < ran'.length := by
  intro hlt
  obtain ⟨hall, hle⟩ := h'.ran_eq
  obtain ⟨rest', hran', _⟩ := h'.rest
  obtain ⟨rest, hran, hend⟩ := h.rest
  obtain ⟨z, hz⟩ : ∃ z, ran'[ran.length]? = some z := ⟨_, List.getElem?_eq_getElem hlt⟩
  have hmsgs : msgs[ran.length]? = some z.1 := by
    rw [← List.getElem?_take_of_lt hlt, ← hall, List.getElem?_map, hz]
    rfl
  generalize x.2 = halt at hend
  cases hend with
  | drained _ =>
      rw [hran.split, List.append_nil] at hmsgs
      simp at hmsgs
  | @gate m rest _ hgate =>
      rw [hran.split] at hmsgs
      obtain rfl : m = z.1 := by
        simpa using hmsgs
      rw [hran'.admitted _ z hz] at hgate
      cases hgate
  | @verdict m rest init hstop hlast =>
      rcases ha with hgo | ha
      · rw [hgo] at hstop
        cases hstop
      · -- the message that ended the run was accepted in the other, which went on behind it
        have hlen : ran.length = init.length + 1 := by
          rw [hlast, List.length_append, List.length_singleton]
        have hi : ran[init.length]? = some (m, false) := by
          rw [hlast]
          simp
        obtain ⟨z', hz'⟩ : ∃ z', ran'[init.length]? = some z' :=
          ⟨_, List.getElem?_eq_getElem (by omega)⟩
        have hok := hran'.accepted hstop _ _ (by omega) hz'
        rw [← h.alike h' ha _ _ _ hi hz'] at hok
        cases hok

theorem Ended.sameRun (h : Ended E due stops (Past.fresh s) msgs ran x)
    (h' : Ended E due stops (Past.fresh s) msgs ran' y)
    (ha : stops = false ∨ AnswersAlike x.1 y.1) : SameRun x y := by
  have ha' : stops = false ∨ AnswersAlike y.1 x.1 :=
    ha.imp_right fun hal i d d' hi hi' => (hal i d' d hi' hi).symm
  have hlen : ran.length = ran'.length :=
    Nat.le_antisymm (Nat.le_of_not_lt (h'.not_shorter h ha')) (Nat.le_of_not_lt (h.not_shorter h' ha))
  obtain ⟨hran, _⟩ := h.ran_eq
  obtain ⟨hran', _⟩ := h'.ran_eq
  have hsame : ran.map Prod.fst = ran'.map Prod.fst := by
    rw [hran, hran', hlen]
  refine ⟨?_, ?_⟩
  · rw [h.dispatched, h'.dispatched, seenBy_message, seenBy_message, hsame]
  · obtain ⟨rest, hr, hend⟩ := h.rest
    obtain ⟨rest', hr', hend'⟩ := h'.rest
    have hrest : rest = rest' := by
      have := hr.split.symm.trans hr'.split
      rw [hsame] at this
      exact List.append_cancel_left this
    subst hrest
    refine hend.halt_eq hend' hlen ?_
    intro hstop
    rcases ha with hgo | ha
    · rw [hgo] at hstop
      cases hstop
    · exact h.alike h' ha

end Compare

theorem delivered_alone {msgs : List HsMsg} (hm : ∀ m ∈ msgs, m.Carriable) :
    Delivered (msgs.map HsMsg.bytes) := by
  intro bs hbs
  obtain ⟨m, hmem, rfl⟩ := List.mem_map.1 hbs
  have hfits := (hm m hmem).fits
  have hcarry : dfCarryMaxBody = 276 := rfl
  have hrec : recBufSize = 548 := rfl
  rw [m.length_bytes]
  omega

/-- Messages that the carry can hold come out of the deframer the same, whether each has a record
to itself or the records cut them anywhere: in order, with their own bodies, each handler seeing
the hash of the messages before its own, every byte folded once.  How far a run gets is up to the
gate; and, for a caller that stops at a refusal, up to the answers of the handlers. -/
theorem deframe_any_split (E : Env κ) (due : Nat → TlsState) (stops : Bool) {s : Hs κ}
    (hs : DfStart s) {msgs : List HsMsg} (hm : ∀ m ∈ msgs, m.Carriable)
    {recs : List (List UInt8)} (hdel : Delivered recs) (hbytes : recs.flatten = stream msgs) :
    ∃ x y n n', deframe E due stops s recs = some x ∧
      deframe E due stops s (msgs.map HsMsg.bytes) = some y ∧
        OrderKept E due stops s msgs x.1 n ∧ OrderKept E due stops s msgs y.1 n' ∧
          (stops = false ∨ AnswersAlike x.1 y.1 → SameRun x y) := by
  have halone : (msgs.map HsMsg.bytes).flatten = stream msgs := by
    rw [stream, List.flatMap_def]
  obtain ⟨x, ran, hx, hend⟩ := deframe_ends E due stops hs hm hdel hbytes
  obtain ⟨y, ran', hy, hend'⟩ := deframe_ends E due stops hs hm (delivered_alone hm) halone
  exact ⟨x, y, _, _, hx, hy, hend.orderKept, hend'.orderKept, hend.sameRun hend'⟩

/-- Two messages, the first cut inside its header and the second begun in the record that ends
the first. -/
def cutMessages : List HsMsg :=
  [⟨hsEncryptedExt, [0, 0]⟩, ⟨hsCertVerify, [4, 3, 7]⟩]

def cutRecords : List (List UInt8) :=
  [[8, 0], [0, 2, 0, 0, 15], [0, 0, 3, 4, 3, 7]]

def cutDue : Nat → TlsState
  | 0 => .encryptedExt
  | _ => .certVerify

def cutStart : Hs Unit :=
  tlsDeframeInit (Hs.blank ())

theorem deframe_any_split_cut :
    ∃ x y n n', deframe Env.accepting cutDue true cutStart cutRecords = some x ∧
      deframe Env.accepting cutDue true cutStart (cutMessages.map HsMsg.bytes) = some y ∧
        OrderKept Env.accepting cutDue true cutStart cutMessages x.1 n ∧
          OrderKept Env.accepting cutDue true cutStart cutMessages y.1 n' ∧
            (true = false ∨ AnswersAlike x.1 y.1 → SameRun x y) := by
  refine deframe_any_split Env.accepting cutDue true ?_ ?_ ?_ ?_
  · exact ⟨Hs.blank (), rfl, by decide, by decide, rfl⟩
  · intro m hm
    simp only [cutMessages, List.mem_cons, List.not_mem_nil, or_false] at hm
    rcases hm with rfl | rfl
    · exact ⟨by decide, by decide, by decide⟩
    · exact ⟨by decide, by decide, by decide⟩
  · intro bs hbs
    simp only [cutRecords, List.mem_cons, List.not_mem_nil, or_false] at hbs
    rcases hbs with rfl | rfl | rfl <;> decide
  · decide

end Tls
end C64Https
