import C64Https.Tls.CertStream

/-!
# Pump — one message over any number of records

The driver of the deframer pumps until a message ends and loads the next record whenever the pump
asks for more (`pumpOver`).  The two results here follow a message through it: its header is
collected byte by byte from as many records as it spans (`pumpOver_hdr`), and a streamed body runs
the byte machine on the whole body, wherever the records cut it (`pumpOver_stream`).
-/

namespace C64Https
namespace Tls

open Word Loop Bytes

variable {κ : Type}

/-- What is left of the current record. -/
def Hs.pending (s : Hs κ) : List UInt8 :=
  bytesAt s.recBuf s.recOff (s.recLen - s.recOff)

/-- A decrypted handshake record replaces the current one. -/
def loadRecord (s : Hs κ) (bs : List UInt8) : Hs κ :=
  tlsDeframeNewRecord { s with recBuf := ofList bs s.recBuf, recLen := bs.length }

/-- Pump until a message ends, over the given records. -/
def pumpOver (E : Env κ) (s : Hs κ) : List (List UInt8) → Option (Hs κ × Ret)
  | [] => tlsDeframePump E s
  | bs :: recs =>
      match tlsDeframePump E s with
      | some (s', .more) => pumpOver E (loadRecord s' bs) recs
      | x => x

/-- Go on from the result of a pump. -/
def resume (E : Env κ) (x : Option (Hs κ × Ret)) (recs : List (List UInt8)) :
    Option (Hs κ × Ret) :=
  match x, recs with
  | some (s, .more), bs :: recs => pumpOver E (loadRecord s bs) recs
  | x, _ => x

theorem pumpOver_eq (E : Env κ) (s : Hs κ) (recs : List (List UInt8)) :
    pumpOver E s recs = resume E (tlsDeframePump E s) recs := by
  cases recs with
  | nil =>
      unfold pumpOver resume
      split
      · rename_i h
        cases h
      · rfl
  | cons bs recs =>
      unfold pumpOver resume
      cases tlsDeframePump E s with
      | none => rfl
      | some r =>
          obtain ⟨s', ret⟩ := r
          cases ret <;> rfl

theorem resume_of_done {E : Env κ} {r : Hs κ × Ret} (hr : r.2 ≠ .more)
    (recs : List (List UInt8)) : resume E (some r) recs = some r := by
  obtain ⟨s', ret⟩ := r
  cases ret with
  | more => exact absurd rfl hr
  | msg => cases recs <;> rfl
  | err e => cases recs <;> rfl

theorem resume_of_more (E : Env κ) (s : Hs κ) (bs : List UInt8) (recs : List (List UInt8)) :
    resume E (some (s, .more)) (bs :: recs) = pumpOver E (loadRecord s bs) recs :=
  rfl

/-- Records as the record layer delivers them. -/
def Delivered (recs : List (List UInt8)) : Prop :=
  ∀ bs ∈ recs, bs.length ≤ recBufSize

theorem length_pending (s : Hs κ) : s.pending.length = s.recLen - s.recOff :=
  length_bytesAt _ _ _

theorem DfInv.load {s : Hs κ} (h : DfInv s) {bs : List UInt8} (hbs : bs.length ≤ recBufSize) :
    DfInv (loadRecord s bs) :=
  ⟨⟨h.safe, hbs, Nat.zero_le _, h.hdrHave_le, h.csNeed_lt⟩, h.carry_fits, h.stream_lt,
    h.leaf_fits⟩

@[simp] theorem pending_loadRecord (s : Hs κ) (bs : List UInt8) :
    (loadRecord s bs).pending = bs :=
  bytesAt_ofList bs s.recBuf

theorem walk_loadRecord (s : Hs κ) (bs : List UInt8) : (loadRecord s bs).walk = s.walk :=
  rfl

theorem marks_dfAvail (s : Hs κ) : marks (dfAvail s).trace = marks s.trace := by
  simp [dfAvail, marks, Event.isMark]

theorem DfInv.pump {s : Hs κ} (h : DfInv s) : PumpInv (dfAvail s) := by
  have hle := h.recOff_le
  have hav : (dfAvail s).avail = s.recLen - s.recOff := sub16_of_le hle (recOff_lt h.toRecInv)
  refine ⟨⟨⟨?_, h.recLen_le, h.recOff_le, h.hdrHave_le, h.csNeed_lt⟩, h.carry_fits,
    h.stream_lt, h.leaf_fits⟩, ?_⟩
  · exact traceSafe_append.2 ⟨h.safe, traceSafe_cons.2 ⟨hle, traceSafe_nil⟩⟩
  · show s.recOff + (dfAvail s).avail = s.recLen
    omega

theorem PumpInv.avail_pending {s : Hs κ} (h : PumpInv s) : s.avail = s.pending.length := by
  have := h.avail_eq
  rw [length_pending]
  omega

theorem avail_dfAvail {s : Hs κ} (h : DfInv s) : (dfAvail s).avail = s.pending.length :=
  h.pump.avail_pending

/-! ## The streamed body -/

/-- The state in which `@parse` starts on a chunk of `n` bytes. -/
def parseStart (E : Env κ) (s : Hs κ) (n : Nat) : Hs κ :=
  ({ s with take := n } : Hs κ).foldRec E n

theorem parseStart_inv (E : Env κ) {s : Hs κ} (h : PumpInv s) (hm : s.mode = .stream) {n : Nat}
    (hn : n ≤ s.avail) (hrem : n ≤ s.msgRem) : StreamInv (parseStart E s n) := by
  have hav := h.avail_eq
  refine ⟨⟨?_, hm, h.recLen_le, h.hdrHave_le, h.stream_lt hm, h.csNeed_lt, hrem, ?_⟩,
    h.leaf_fits hm⟩
  · exact foldRec_safe E h.toRecInv (by omega)
  · show s.recOff + n ≤ s.recLen
    omega

theorem parseStart_walk (E : Env κ) (s : Hs κ) (n : Nat) : (parseStart E s n).walk = s.walk := by
  unfold Hs.walk parseStart Hs.foldRec
  simp [copied, leaves, Event.copied, Event.leaf?]

theorem take_pending (s : Hs κ) {n : Nat} (hn : n ≤ s.pending.length) :
    s.pending.take n = bytesAt s.recBuf s.recOff n := by
  rw [length_pending] at hn
  exact take_bytesAt s.recBuf s.recOff hn

/-- What a call of `df_stream_body` on `n` bytes does around the machine. -/
structure StreamCall (E : Env κ) (s s' : Hs κ) (n : Nat) : Prop where
  recBuf_eq : s'.recBuf = s.recBuf
  recLen_eq : s'.recLen = s.recLen
  tlsState_eq : s'.tlsState = s.tlsState
  snap_eq : s'.snap = s.snap
  transcript_eq : s'.transcript = tlsTranscriptUpdate E.sha s.transcript (s.pending.take n)
  folded_eq : folded s'.trace = folded s.trace ++ s.pending.take n
  dispatched_eq : dispatched s'.trace = dispatched s.trace
  recOff_take : s'.recOff + s'.take = s.recOff + n
  msgRem_take : s'.msgRem + n = s.msgRem + s'.take

theorem dfStreamBody_sim (E : Env κ) {s : Hs κ} (h : PumpInv s) (hm : s.mode = .stream)
    (hlive : ExtLive s.csState s.csNeed) (hne : s.avail ≠ 0) {n : Nat}
    (hn : n = min s.avail s.msgRem) :
    ∃ r, dfStreamBody E s = some r ∧ DfInv r.1 ∧ StreamCall E s r.1 n ∧
      BodyDone s.msgRem n (s.walk.run E (s.pending.take n)) r := by
  have hav := h.avail_pending
  have hle₁ : n ≤ s.avail := by
    omega
  have hle₂ : n ≤ s.msgRem := by
    omega
  have hchunk : dfChunkMin s = n := by
    rw [dfChunkMin_eq, hn]
  have htake : s.pending.take n = bytesAt s.recBuf s.recOff n := take_pending s (by omega)
  have hbody : dfStreamBody E s = loop (csTurn E) (csFuel (parseStart E s n)) (parseStart E s n) := by
    unfold dfStreamBody
    rw [if_neg hne, hchunk]
    rfl
  obtain ⟨r, hr, hinv⟩ := dfStreamBody_inv E h hm
  have hloop := hr
  rw [hbody] at hloop
  obtain ⟨hframe, hdone⟩ := parse_sim E (parseStart_inv E h hm hle₁ hle₂) hlive hloop
  have hspan : (parseStart E s n).span = s.pending.take n := htake.symm
  rw [parseStart_walk, hspan] at hdone
  refine ⟨r, hr, hinv, ⟨hframe.recBuf_eq, hframe.recLen_eq, hframe.tlsState_eq,
    hframe.snap_eq, ?_, ?_, ?_, hframe.recOff_take, hframe.msgRem_take⟩, hdone⟩
  · rw [hframe.transcript_eq, htake]
    rfl
  · rw [hframe.folded_eq, htake]
    simp [parseStart, Hs.foldRec, folded, Event.folded]
  · rw [hframe.dispatched_eq]
    simp [parseStart, Hs.foldRec, dispatched, Event.dispatched]

theorem pump_stream_eq (E : Env κ) {s : Hs κ} (hm : s.mode = .stream) :
    tlsDeframePump E s = dfStreamBody E (dfAvail s) := by
  have hm' : (dfAvail s).mode = .stream := hm
  unfold tlsDeframePump
  dsimp only
  rw [hm']

theorem walk_dfAvail (s : Hs κ) : (dfAvail s).walk = s.walk := by
  unfold Hs.walk
  rw [copied_congr (marks_dfAvail s), leaves_congr (marks_dfAvail s)]
  rfl

/-- A streamed body that the records hold in full runs the machine on it, whatever the records. -/
theorem resume_stream (E : Env κ) {recs : List (List UInt8)} :
    ∀ {s : Hs κ}, PumpInv s → s.mode = .stream → ExtLive s.csState s.csNeed → s.msgRem ≠ 0 →
      Delivered recs → s.msgRem ≤ (s.pending ++ recs.flatten).length →
      ∃ r, resume E (dfStreamBody E s) recs = some r ∧
        BodyDone 0 0 (s.walk.run E ((s.pending ++ recs.flatten).take s.msgRem)) r := by
  induction recs with
  | nil =>
      intro s h hm hlive hrem _ hlen
      have hav := h.avail_pending
      simp only [List.flatten_nil, List.append_nil] at hlen ⊢
      obtain ⟨r, hr, _, _, hdone⟩ :=
        dfStreamBody_sim E h hm hlive (by omega) (n := s.msgRem) (by omega)
      refine ⟨r, ?_, hdone.final (Or.inl rfl)⟩
      rw [hr, resume_of_done (hdone.not_more (Or.inl rfl))]
  | cons bs recs ih =>
      intro s h hm hlive hrem hdel hlen
      have hbs := hdel bs (by simp)
      have hdel' : Delivered recs := fun b hb => hdel b (by simp [hb])
      have hav := h.avail_pending
      rw [List.flatten_cons, List.length_append, List.length_append] at hlen
      -- the next record, in a state that has `bs` pending and the same body under way
      have hgo : ∀ s' : Hs κ, DfInv s' → s'.mode = .stream → ExtLive s'.csState s'.csNeed →
          s'.msgRem ≠ 0 → s'.msgRem ≤ (bs ++ recs.flatten).length →
            ∃ r, resume E (some (s', .more)) (bs :: recs) = some r ∧
              BodyDone 0 0 (s'.walk.run E ((bs ++ recs.flatten).take s'.msgRem)) r := by
        intro s' hinv hm' hlive' hrem' hlen'
        have hpend : (dfAvail (loadRecord s' bs)).pending = bs := pending_loadRecord s' bs
        have hwalk : (dfAvail (loadRecord s' bs)).walk = s'.walk :=
          (walk_dfAvail _).trans (walk_loadRecord s' bs)
        obtain ⟨r, hr, hdone⟩ := ih (s := dfAvail (loadRecord s' bs)) (hinv.load hbs).pump hm' hlive'
          hrem' hdel' (by rw [hpend]; exact hlen')
        rw [hpend, hwalk] at hdone
        refine ⟨r, ?_, hdone⟩
        rw [resume_of_more, pumpOver_eq, pump_stream_eq E (s := loadRecord s' bs) hm']
        exact hr
      by_cases hne : s.avail = 0
      · have hnil : s.pending = [] := List.length_eq_zero_iff.1 (by omega)
        have hstop : dfStreamBody E s = some (s, .more) := by
          unfold dfStreamBody
          rw [if_pos hne]
          rfl
        rw [hnil, List.length_nil, Nat.zero_add, ← List.length_append] at hlen
        rw [hstop, hnil, List.nil_append]
        exact hgo s h.toDfInv hm hlive hrem hlen
      · obtain ⟨r, hr, hinv, hcall, hdone⟩ := dfStreamBody_sim E h hm hlive hne rfl
        rw [hr]
        generalize hn : min s.avail s.msgRem = n at hcall hdone
        by_cases hall : s.msgRem = n
        · -- the body ends in this record
          have hbody : (s.pending ++ (bs :: recs).flatten).take s.msgRem = s.pending.take n := by
            rw [hall, List.take_append_of_le_length (by omega)]
          rw [hbody]
          exact ⟨r, resume_of_done (hdone.not_more (Or.inl hall)) _, hdone.final (Or.inl hall)⟩
        · have hbody : (s.pending ++ (bs :: recs).flatten).take s.msgRem =
              s.pending ++ (bs ++ recs.flatten).take (s.msgRem - n) := by
            have hpn : n = s.pending.length := by
              omega
            rw [List.take_append, List.take_of_length_le (by omega), hpn]
            rfl
          have htake : s.pending.take n = s.pending := List.take_of_length_le (by omega)
          rw [htake] at hdone
          rw [hbody, Walk.run_append]
          cases hT : s.walk.run E s.pending with
          | leave p =>
              rw [hT] at hdone
              exact ⟨r, resume_of_done (hdone.not_more (Or.inr ⟨p, rfl⟩)) _,
                hdone.final (Or.inr ⟨p, rfl⟩)⟩
          | again w =>
              obtain ⟨hwalk, htz, hext⟩ := hdone.walked w hT
              obtain ⟨hmore, hstream⟩ := hdone.more w hT hall
              have hrem' : r.1.msgRem = s.msgRem - n := by
                have := hcall.msgRem_take
                omega
              have hr' : some r = some (r.1, Ret.more) := by
                rw [← hmore]
              rw [hr', Turn.again_bind, ← hwalk, ← hrem']
              rw [← hwalk] at hext
              exact hgo r.1 hinv hstream hext (by omega)
                (by rw [hrem', List.length_append]; omega)

/-! ## The header -/

/-- `k` header bytes were taken from the record. -/
structure Collected (s s' : Hs κ) (k : Nat) : Prop where
  eq : s' = { s with
    trace := s'.trace
    hdr := s'.hdr
    hdrHave := s.hdrHave + k
    recOff := s.recOff + k
    avail := s.avail - k }
  hdr_eq : bytesAt s'.hdr 0 (s.hdrHave + k) = bytesAt s.hdr 0 s.hdrHave ++ bytesAt s.recBuf s.recOff k
  quiet : marks s'.trace = marks s.trace

theorem Collected.refl (s : Hs κ) : Collected s s 0 :=
  ⟨rfl, by simp, rfl⟩

theorem dfHdrByte_collected {s : Hs κ} (h : PumpInv s) (hhave : s.hdrHave < 4)
    (hav : s.avail ≠ 0) : Collected s (dfHdrByte s) 1 := by
  have havail := h.avail_eq
  have hrec := recOff_lt h.toRecInv
  have hoff : add16 s.recOff 1 = s.recOff + 1 := add16_of_lt (by omega)
  have hsub : sub16 s.avail 1 = s.avail - 1 := sub16_of_le (by omega) (by omega)
  have hinc : inc8 s.hdrHave = s.hdrHave + 1 := inc8_of_lt (by omega)
  refine ⟨?_, ?_, ?_⟩
  · unfold dfHdrByte
    rw [hoff, hsub, hinc]
  · have hkeep : bytesAt (dfHdrByte s).hdr 0 s.hdrHave = bytesAt s.hdr 0 s.hdrHave := by
      refine bytesAt_congr ?_
      intro i hi
      have hne : i ≠ s.hdrHave := by
        omega
      simp [dfHdrByte, Function.update_of_ne hne]
    rw [bytesAt_add, hkeep]
    simp [dfHdrByte, bytesAt]
  · simp [dfHdrByte, marks, Event.isMark]

theorem Collected.trans {s s' s'' : Hs κ} {j k : Nat} (h : Collected s s' j)
    (h' : Collected s' s'' k) : Collected s s'' (j + k) := by
  have hhave : s'.hdrHave = s.hdrHave + j := congrArg Hs.hdrHave h.eq
  have hoff : s'.recOff = s.recOff + j := congrArg Hs.recOff h.eq
  have hbuf : s'.recBuf = s.recBuf := by
    rw [h.eq]
  refine ⟨?_, ?_, h'.quiet.trans h.quiet⟩
  · rw [h'.eq, h.eq]
    simp [Nat.add_assoc, Nat.sub_sub]
  · have h₁ := h'.hdr_eq
    rw [hhave, hoff, hbuf, h.hdr_eq] at h₁
    rw [← Nat.add_assoc, h₁, List.append_assoc, ← bytesAt_add]

/-- `@hdr_loop` takes as many bytes as the header misses and the record holds. -/
theorem hdrLoop_take {k : Nat} :
    ∀ {s : Hs κ}, PumpInv s → s.mode = .hdr → s.hdrHave + k ≤ 4 → k ≤ s.avail →
      ∃ s', Collected s s' k ∧ PumpInv s' ∧
        ∀ fuel, loop hdrTurn (fuel + k) s = loop hdrTurn fuel s' := by
  induction k with
  | zero =>
      intro s h _ _ _
      exact ⟨s, Collected.refl s, h, fun _ => rfl⟩
  | succ k ih =>
      intro s h hm hhave hav
      have hturn : hdrTurn s = .again (dfHdrByte s) := by
        unfold hdrTurn
        rw [if_neg (by omega), if_neg (by omega)]
      have hpost := hdrTurn_inv ⟨h, hm⟩
      rw [hturn] at hpost
      have hone := dfHdrByte_collected h (by omega) (by omega)
      have hhave₁ : (dfHdrByte s).hdrHave = s.hdrHave + 1 := congrArg Hs.hdrHave hone.eq
      have hav₁ : (dfHdrByte s).avail = s.avail - 1 := congrArg Hs.avail hone.eq
      obtain ⟨s', hcol, hinv, hloop⟩ := ih hpost.1.1 hm (by omega) (by omega)
      refine ⟨s', ?_, hinv, ?_⟩
      · have := hone.trans hcol
        rwa [Nat.add_comm 1 k] at this
      · intro fuel
        rw [← Nat.add_assoc, loop_again hturn, hloop]

/-- The state in which `@hdr_complete` runs. -/
structure HdrDone (s s' : Hs κ) (k : Nat) : Prop extends Collected (dfAvail s) s' k where
  inv : PumpInv s'

theorem pump_hdr_full (E : Env κ) {s : Hs κ} (h : DfInv s) (hm : s.mode = .hdr) {k : Nat}
    (hk : s.hdrHave + k = 4) (hlen : k ≤ s.pending.length) :
    ∃ s', HdrDone s s' k ∧ tlsDeframePump E s = dfHdrComplete E s' := by
  rw [← avail_dfAvail h] at hlen
  have hm' : (dfAvail s).mode = .hdr := hm
  have hhave : (dfAvail s).hdrHave = s.hdrHave := rfl
  obtain ⟨s', hcol, hinv, hloop⟩ := hdrLoop_take h.pump hm' (by omega) hlen
  refine ⟨s', ⟨hcol, hinv⟩, ?_⟩
  have hfour : 4 ≤ s'.hdrHave := by
    have : s'.hdrHave = s.hdrHave + k := congrArg Hs.hdrHave hcol.eq
    omega
  have hturn : hdrTurn s' = .leave (s', true) := by
    unfold hdrTurn
    rw [if_pos hfour]
  obtain ⟨f, hf⟩ : ∃ f, 5 = f + 1 + k := ⟨4 - k, by omega⟩
  have hrun : loop hdrTurn 5 (dfAvail s) = some (s', true) := by
    rw [hf, hloop, loop_leave hturn]
  unfold tlsDeframePump
  dsimp only
  rw [hm']
  dsimp only
  rw [hrun]

/-- The state after a pump that ran out of bytes inside the header. -/
structure HdrShort (s s' : Hs κ) : Prop where
  inv : DfInv s'
  eq : ∃ s₁, Collected (dfAvail s) s₁ s.pending.length ∧
    s' = { s₁ with hdrSplit := if s₁.hdrHave = 0 then s₁.hdrSplit else true }

theorem pump_hdr_short (E : Env κ) {s : Hs κ} (h : DfInv s) (hm : s.mode = .hdr)
    (hlen : s.hdrHave + s.pending.length < 4) :
    ∃ s', HdrShort s s' ∧ tlsDeframePump E s = some (s', .more) := by
  have hm' : (dfAvail s).mode = .hdr := hm
  have hhave : (dfAvail s).hdrHave = s.hdrHave := rfl
  have hav := avail_dfAvail h
  obtain ⟨s₁, hcol, hinv, hloop⟩ :=
    hdrLoop_take (k := s.pending.length) h.pump hm' (by omega) (by omega)
  have hless : ¬ 4 ≤ s₁.hdrHave := by
    have : s₁.hdrHave = s.hdrHave + s.pending.length := congrArg Hs.hdrHave hcol.eq
    omega
  have hz : s₁.avail = 0 := by
    have : s₁.avail = (dfAvail s).avail - s.pending.length := congrArg Hs.avail hcol.eq
    omega
  have hm₁ : s₁.mode = .hdr := (congrArg Hs.mode hcol.eq).trans hm
  have hturn : hdrTurn s₁ =
      .leave ({ s₁ with hdrSplit := if s₁.hdrHave = 0 then s₁.hdrSplit else true }, false) := by
    unfold hdrTurn
    rw [if_neg hless, if_pos hz]
    split <;> rfl
  obtain ⟨f, hf⟩ : ∃ f, 5 = f + 1 + s.pending.length := ⟨4 - s.pending.length, by omega⟩
  refine ⟨_, ⟨?_, s₁, hcol, rfl⟩, ?_⟩
  · exact dfInv_of_hdr ⟨hinv.safe, hinv.recLen_le, hinv.recOff_le, hinv.hdrHave_le,
      hinv.csNeed_lt⟩ hm₁
  · have hrun : loop hdrTurn 5 (dfAvail s) = some
        ({ s₁ with hdrSplit := if s₁.hdrHave = 0 then s₁.hdrSplit else true }, false) := by
      rw [hf, hloop, loop_leave hturn]
    unfold tlsDeframePump
    dsimp only
    rw [hm']
    dsimp only
    rw [hrun]
    rfl

/-! ## A message from its first byte -/

/-- `pre` is what earlier records brought of the header of the next message. -/
structure HdrPart (s : Hs κ) (pre : List UInt8) : Prop where
  inv : DfInv s
  mode_eq : s.mode = .hdr
  have_eq : s.hdrHave = pre.length
  hdr_eq : bytesAt s.hdr 0 pre.length = pre
  split : pre ≠ [] → s.hdrSplit = true

/-- What collecting a header leaves alone. -/
structure Around (s s' : Hs κ) : Prop where
  tlsState_eq : s'.tlsState = s.tlsState
  transcript_eq : s'.transcript = s.transcript
  snap_eq : s'.snap = s.snap
  keys_eq : s'.keys = s.keys
  certBuf_eq : s'.certBuf = s.certBuf
  marks_eq : marks s'.trace = marks s.trace

theorem Around.trans {s s' s'' : Hs κ} (h : Around s s') (h' : Around s' s'') : Around s s'' :=
  ⟨h'.tlsState_eq.trans h.tlsState_eq, h'.transcript_eq.trans h.transcript_eq,
    h'.snap_eq.trans h.snap_eq, h'.keys_eq.trans h.keys_eq, h'.certBuf_eq.trans h.certBuf_eq,
    h'.marks_eq.trans h.marks_eq⟩

theorem Collected.around {s s' : Hs κ} {k : Nat} (h : Collected (dfAvail s) s' k) : Around s s' := by
  have hq := h.quiet.trans (marks_dfAvail s)
  refine ⟨?_, ?_, ?_, ?_, ?_, hq⟩
  all_goals
    rw [h.eq]
    rfl

theorem Collected.pending {s s' : Hs κ} {k : Nat} (h : Collected (dfAvail s) s' k) :
    s'.pending = s.pending.drop k := by
  have hbuf : s'.recBuf = s.recBuf := by
    rw [h.eq]
    rfl
  have hoff : s'.recOff = s.recOff + k := by
    rw [h.eq]
    rfl
  have hlen : s'.recLen = s.recLen := by
    rw [h.eq]
    rfl
  unfold Hs.pending
  rw [hbuf, hoff, hlen]
  by_cases hk : k ≤ s.recLen - s.recOff
  · rw [drop_bytesAt _ _ hk, Nat.sub_sub]
  · have hz : s.recLen - (s.recOff + k) = 0 := by
      omega
    rw [hz, bytesAt_zero, List.drop_of_length_le (by rw [length_bytesAt]; omega)]

/-- The header bytes after `k` more were taken. -/
theorem Collected.header {s s' : Hs κ} {pre : List UInt8} {k : Nat} (h : Collected (dfAvail s) s' k)
    (hpart : HdrPart s pre) (hk : k ≤ s.pending.length) :
    bytesAt s'.hdr 0 (pre.length + k) = pre ++ s.pending.take k := by
  have hhdr := h.hdr_eq
  have hhave : (dfAvail s).hdrHave = pre.length := hpart.have_eq
  have hold : bytesAt (dfAvail s).hdr 0 pre.length = pre := hpart.hdr_eq
  rw [hhave, hold] at hhdr
  rw [hhdr, take_pending s hk]
  rfl

/-- A pump that runs out of record inside the header. -/
theorem pump_hdr_part (E : Env κ) {s : Hs κ} {pre : List UInt8} (h : HdrPart s pre)
    (hlen : pre.length + s.pending.length < 4) :
    ∃ s', tlsDeframePump E s = some (s', .more) ∧ HdrPart s' (pre ++ s.pending) ∧ Around s s' ∧
      s'.pending = [] := by
  obtain ⟨s', ⟨hinv, s₁, hcol, rfl⟩, hpump⟩ :=
    pump_hdr_short E h.inv h.mode_eq (by rw [h.have_eq]; exact hlen)
  have hhave : s₁.hdrHave = (pre ++ s.pending).length := by
    have h₁ : s₁.hdrHave = s.hdrHave + s.pending.length := congrArg Hs.hdrHave hcol.eq
    rw [h₁, h.have_eq, List.length_append]
  have hmode : s₁.mode = .hdr := by
    rw [hcol.eq]
    exact h.mode_eq
  have hhdr : bytesAt s₁.hdr 0 (pre ++ s.pending).length = pre ++ s.pending := by
    have := hcol.header h (le_refl _)
    rwa [List.take_length, ← List.length_append] at this
  have haround := hcol.around
  have hleft : s₁.pending = [] := by
    rw [hcol.pending, List.drop_length]
  refine ⟨_, hpump, ⟨hinv, hmode, hhave, hhdr, ?_⟩, ⟨haround.tlsState_eq, haround.transcript_eq,
    haround.snap_eq, haround.keys_eq, haround.certBuf_eq, haround.marks_eq⟩, hleft⟩
  intro hne
  have hpos : s₁.hdrHave ≠ 0 := by
    rw [hhave]
    simpa using hne
  show (if s₁.hdrHave = 0 then s₁.hdrSplit else true) = true
  rw [if_neg hpos]

theorem hdr_bytes {m : Buffer} {a b c d : UInt8} (h : bytesAt m 0 4 = [a, b, c, d]) :
    m 0 = a ∧ m 1 = b ∧ m 2 = c ∧ m 3 = d := by
  simpa [bytesAt, List.range_succ] using h

/-- The header is complete, in a state that is otherwise as the message found it. -/
structure HdrHere (s s' : Hs κ) (hd : List UInt8) : Prop where
  inv : PumpInv s'
  mode_eq : s'.mode = .hdr
  hdr_eq : bytesAt s'.hdr 0 4 = hd
  around : Around s s'

/-- A pump that completes the header. -/
theorem pump_hdr_here (E : Env κ) {s : Hs κ} {pre : List UInt8} (h : HdrPart s pre)
    (hpre : pre.length ≤ 4) (hlen : 4 ≤ pre.length + s.pending.length) :
    ∃ s', tlsDeframePump E s = dfHdrComplete E s' ∧
      HdrHere s s' (pre ++ s.pending.take (4 - pre.length)) ∧
        s'.pending = s.pending.drop (4 - pre.length) ∧ s'.hdrSplit = s.hdrSplit := by
  have hk : s.hdrHave + (4 - pre.length) = 4 := by
    rw [h.have_eq]
    omega
  obtain ⟨s', ⟨hcol, hinv⟩, hpump⟩ := pump_hdr_full E h.inv h.mode_eq hk (by omega)
  have hmode : s'.mode = .hdr := by
    rw [hcol.eq]
    exact h.mode_eq
  have hsplit : s'.hdrSplit = s.hdrSplit := by
    rw [hcol.eq]
    rfl
  have hhdr := hcol.header h (by omega)
  rw [Nat.add_sub_cancel' hpre] at hhdr
  exact ⟨s', hpump, ⟨hinv, hmode, hhdr, hcol.around⟩, hcol.pending, hsplit⟩

/-- The header ends in the current record. -/
theorem pumpOver_hdr_here (E : Env κ) {s : Hs κ} {pre hd rest : List UInt8}
    {recs : List (List UInt8)} (h : HdrPart s pre) (hpre : pre.length ≤ 4) (hhd : hd.length = 4)
    (hbytes : pre ++ (s.pending ++ recs.flatten) = hd ++ rest)
    (hlen : 4 ≤ pre.length + s.pending.length) :
    ∃ s', pumpOver E s recs = resume E (dfHdrComplete E s') recs ∧ HdrHere s s' hd ∧
      s'.pending ++ recs.flatten = rest ∧ s'.hdrSplit = s.hdrSplit ∧
        s'.pending.length + 4 = pre.length + s.pending.length := by
  obtain ⟨s', hpump, hhere, hpend, hsplit⟩ := pump_hdr_here E h hpre hlen
  have hcut : pre ++ (s.pending ++ recs.flatten) =
      (pre ++ s.pending.take (4 - pre.length)) ++
        (s.pending.drop (4 - pre.length) ++ recs.flatten) := by
    rw [List.append_assoc, ← List.append_assoc (s.pending.take _), List.take_append_drop]
  have hfour : (pre ++ s.pending.take (4 - pre.length)).length = hd.length := by
    rw [List.length_append, List.length_take, hhd]
    omega
  obtain ⟨hhd', hrest⟩ := List.append_inj (hcut.symm.trans hbytes) hfour
  refine ⟨s', by rw [pumpOver_eq, hpump], hhd' ▸ hhere, ?_, hsplit, ?_⟩
  · rw [hpend]
    exact hrest
  · rw [hpend, List.length_drop]
    omega

/-- The header of a message, wherever the records cut it: `df_hdr_split` is up when a record ended
inside it, and otherwise the body begins in the record that holds the header. -/
theorem pumpOver_hdr (E : Env κ) {recs : List (List UInt8)} :
    ∀ {s : Hs κ} {pre hd rest : List UInt8}, HdrPart s pre → pre.length ≤ 4 → Delivered recs →
      hd.length = 4 → pre ++ (s.pending ++ recs.flatten) = hd ++ rest →
      ∃ s' recs', pumpOver E s recs = resume E (dfHdrComplete E s') recs' ∧ HdrHere s s' hd ∧
        Delivered recs' ∧ s'.pending ++ recs'.flatten = rest ∧
          (pre ≠ [] ∨ (s.pending ≠ [] ∧ s.pending.length < 4) → s'.hdrSplit = true) ∧
          (4 ≤ pre.length + s.pending.length →
            s'.pending.length + 4 = pre.length + s.pending.length) := by
  induction recs with
  | nil =>
      intro s pre hd rest h hpre hdel hhd hbytes
      have hlen : 4 ≤ pre.length + s.pending.length := by
        have := congrArg List.length hbytes
        simp only [List.flatten_nil, List.append_nil, List.length_append] at this
        omega
      obtain ⟨s', hrun, hhere, hrest, hsplit, hleft⟩ := pumpOver_hdr_here E h hpre hhd hbytes hlen
      refine ⟨s', [], hrun, hhere, hdel, hrest, ?_, fun _ => hleft⟩
      rintro (hne | ⟨_, hlt⟩)
      · rw [hsplit]
        exact h.split hne
      · have hne : pre ≠ [] := by
          rintro rfl
          simp at hlen
          omega
        rw [hsplit]
        exact h.split hne
  | cons bs recs ih =>
      intro s pre hd rest h hpre hdel hhd hbytes
      -- the header ends in this record, or in a later one
      by_cases hlen : 4 ≤ pre.length + s.pending.length
      · obtain ⟨s', hrun, hhere, hrest, hsplit, hleft⟩ := pumpOver_hdr_here E h hpre hhd hbytes hlen
        refine ⟨s', bs :: recs, hrun, hhere, hdel, hrest, ?_, fun _ => hleft⟩
        intro hor
        have hne : pre ≠ [] := by
          rintro rfl
          rcases hor with hne | ⟨_, hlt⟩
          · exact hne rfl
          · simp at hlen
            omega
        rw [hsplit]
        exact h.split hne
      · obtain ⟨s₁, hpump, hpart, haround, _⟩ := pump_hdr_part E h (by omega)
        have hpart' : HdrPart (loadRecord s₁ bs) (pre ++ s.pending) :=
          ⟨hpart.inv.load (hdel bs (by simp)), hpart.mode_eq, hpart.have_eq, hpart.hdr_eq,
            hpart.split⟩
        have hload : Around s (loadRecord s₁ bs) :=
          ⟨haround.tlsState_eq, haround.transcript_eq, haround.snap_eq, haround.keys_eq,
            haround.certBuf_eq, haround.marks_eq⟩
        have hbytes' : (pre ++ s.pending) ++ ((loadRecord s₁ bs).pending ++ recs.flatten) =
            hd ++ rest := by
          rw [pending_loadRecord, List.append_assoc]
          exact hbytes
        obtain ⟨s', recs', hrun, hhere, hdel', hrest, hsplit, _⟩ :=
          ih hpart' (by rw [List.length_append]; omega) (fun b hb => hdel b (by simp [hb])) hhd
            hbytes'
        refine ⟨s', recs', ?_, ⟨hhere.inv, hhere.mode_eq, hhere.hdr_eq, hload.trans hhere.around⟩,
          hdel', hrest, ?_, fun hge => absurd hge hlen⟩
        · rw [pumpOver_eq, hpump, resume_of_more, hrun]
        · intro hor
          refine hsplit (Or.inl ?_)
          rcases hor with hne | ⟨hne, _⟩
          · simp [hne]
          · simp [hne]

end Tls
end C64Https
