import C64Https.Tls.Messages

/-!
# Consumed — the deframer takes every byte of the records once, message by message

Between two pumps the deframer has taken some bytes of the message that it is in (`Taking`).  A
pump that asks for more has taken the rest of the record; a pump that dispatches a message has taken
just the bytes that the header of the message announces (`tlsDeframePump_took`), on any of the
three routes.
-/

namespace C64Https
namespace Tls

open Word Loop Bytes

variable {κ : Type}

/-- The size of a handshake message, as its header announces it. -/
def hsSize (bs : List UInt8) : Nat :=
  4 + ((bs.getD 1 0).toNat * 65536 + word (bs.getD 2 0) (bs.getD 3 0))

theorem getD_append_lt {xs : List UInt8} (ys : List UInt8) {i : Nat} (h : i < xs.length) :
    (xs ++ ys).getD i 0 = xs.getD i 0 :=
  List.getD_append xs ys 0 i h

/-- The announcement stands in the first four bytes. -/
theorem hsSize_append {xs : List UInt8} (ys : List UInt8) (h : 4 ≤ xs.length) :
    hsSize (xs ++ ys) = hsSize xs := by
  unfold hsSize
  rw [getD_append_lt ys (by omega), getD_append_lt ys (by omega), getD_append_lt ys (by omega)]

/-- The bytes taken are no more than the message has, and all of them only if it has no body: with its header in
two records, such a message waits for one more. -/
def Unfinished (bs : List UInt8) : Prop :=
  4 ≤ bs.length → bs.length ≤ hsSize bs ∧ (4 < hsSize bs → bs.length < hsSize bs)

/-- `bs` has been taken of a message; everything before it has been folded as `base`. -/
inductive Taking (base : List UInt8) (s : Hs κ) (bs : List UInt8) : Prop where
  | header (hpart : HdrPart s bs) (hshort : bs.length < 4) (hf : folded s.trace = base)
  | body (hinv : DfInv s) (hm : s.mode ≠ .hdr) (hf : folded s.trace = base ++ bs)
      (hfour : 4 ≤ bs.length) (hsize : bs.length + s.msgRem = hsSize bs) (hopen : Unfinished bs)
      (hext : s.mode = .stream → ExtLive s.csState s.csNeed)

theorem Taking.inv {base bs : List UInt8} {s : Hs κ} (h : Taking base s bs) : DfInv s := by
  cases h with
  | header hpart _ _ => exact hpart.inv
  | body hinv _ _ _ _ _ _ => exact hinv

theorem Taking.unfinished {base bs : List UInt8} {s : Hs κ} (h : Taking base s bs) : Unfinished bs := by
  cases h with
  | header _ hshort _ => exact fun hfour => absurd hshort (Nat.not_lt.2 hfour)
  | body _ _ _ _ _ hopen _ => exact hopen

/-- A message that is read to its end is longer than what was taken of it before, if it has a body. -/
theorem Unfinished.lt_of_message {bs m r r' : List UInt8} (h : Unfinished bs) (hsplit : bs ++ r = m ++ r')
    (hsize : m.length = hsSize m) : bs.length ≤ m.length ∧ (4 < m.length → bs.length < m.length) := by
  have hfour : 4 ≤ m.length := hsize ▸ Nat.le_add_right 4 _
  rcases Nat.lt_or_ge bs.length m.length with hlt | hge
  · exact ⟨Nat.le_of_lt hlt, fun _ => hlt⟩
  · -- then the message is a beginning of what was taken
    have hm : m = bs.take m.length := by
      have htake := congrArg (fun xs => xs.take m.length) hsplit
      rw [List.take_append_of_le_length hge, List.take_left] at htake
      exact htake.symm
    have hsame : hsSize bs = m.length := by
      have happend := hsSize_append (bs.drop m.length) hfour
      rw [hm, List.length_take_of_le hge] at happend
      rw [List.take_append_drop] at happend
      rw [happend, ← hm, hsize]
    obtain ⟨hle, hlt⟩ := h (Nat.le_trans hfour hge)
    rw [hsame] at hle hlt
    exact ⟨hle, hlt⟩

/-- How a pump returns that had taken `bs` before: with the whole record, or with a message. -/
structure Took (base : List UInt8) (s : Hs κ) (bs : List UInt8) (r : Hs κ × Ret) : Prop where
  more : r.2 = .more → Taking base r.1 (bs ++ s.pending) ∧ r.1.pending = []
  msg : r.2 = .msg → ∃ m, bs ++ s.pending = m ++ r.1.pending ∧ m.length = hsSize m ∧
    Taking (base ++ m) r.1 []

theorem Took.fail (base : List UInt8) (s : Hs κ) (bs : List UInt8) (s' : Hs κ) (e : DfErr) :
    Took base s bs (dfFail s' e) :=
  ⟨fun h => (by cases h), fun h => (by cases h)⟩

/-- The bytes that were taken before may be counted as they come. -/
theorem Took.of_drop {base bs hd : List UInt8} {s g : Hs κ} {r : Hs κ × Ret}
    (h : Took base g hd r) (hg : hd ++ g.pending = bs ++ s.pending) : Took base s bs r :=
  ⟨fun hr => hg ▸ h.more hr, fun hr => hg ▸ h.msg hr⟩

theorem Took.of_pending {base bs : List UInt8} {s g : Hs κ} {r : Hs κ × Ret}
    (h : Took base g bs r) (hg : g.pending = s.pending) : Took base s bs r :=
  h.of_drop (by rw [hg])

section Routes

variable {base bs : List UInt8} {s : Hs κ}

/-- A dispatch takes nothing. -/
theorem dfDispatch_took (E : Env κ) (ptr : Nat) (view : Buffer) (s₀ : Hs κ) (bs : List UInt8)
    {n : Nat} (h : RecInv s) (hf : folded s.trace = base ++ (bs ++ s₀.pending.take n))
    (hpend : s.pending = s₀.pending.drop n) (hfour : 4 ≤ bs.length)
    (hsize : bs.length + n = hsSize bs) (hn : n ≤ s₀.pending.length) :
    Took base s₀ bs (dfDispatch E ptr view s) := by
  have hinv := dfDispatch_inv E ptr view h
  unfold RetInv at hinv
  revert hinv
  unfold dfDispatch
  dsimp only
  split
  · exact fun _ => Took.fail _ _ _ _ _
  · rename_i keys ok _
    cases ok with
    | false => exact fun _ => Took.fail _ _ _ _ _
    | true =>
        intro hinv
        refine ⟨fun hc => (by cases hc), fun _ => ⟨bs ++ s₀.pending.take n, ?_, ?_, ?_⟩⟩
        · have hleft : s.pending = s₀.pending.drop n := hpend
          show bs ++ s₀.pending = (bs ++ s₀.pending.take n) ++ s.pending
          rw [hleft, List.append_assoc, List.take_append_drop]
        · rw [hsSize_append _ hfour, ← hsize, List.length_append, List.length_take]
          omega
        · refine .header ⟨hinv, rfl, rfl, bytesAt_zero _ _, fun hne => absurd rfl hne⟩ (by simp) ?_
          rw [← hf]
          simp [folded, Event.folded]

theorem dfCarryBody_took (E : Env κ) (h : PumpInv s) (hm : s.mode = .carry)
    (hf : folded s.trace = base ++ bs) (hfour : 4 ≤ bs.length)
    (hsize : bs.length + s.msgRem = hsSize bs) (hopen : Unfinished bs) :
    Took base s bs (dfCarryBody E s) := by
  have hpend := h.avail_pending
  have hne : s.mode ≠ .hdr := by
    rw [hm]
    decide
  have hnot : s.mode ≠ .stream := by
    rw [hm]
    decide
  by_cases hz : s.avail = 0
  · have hnil : s.pending = [] := List.length_eq_zero_iff.1 (by omega)
    unfold dfCarryBody
    rw [if_pos hz]
    refine ⟨fun _ => ⟨?_, hnil⟩, fun hc => (by cases hc)⟩
    rw [hnil, List.append_nil]
    exact .body h.toDfInv hne hf hfour hsize hopen (fun hs => absurd hs hnot)
  · have hmin := dfChunkMin_eq s
    have hrec := recOff_lt h.toRecInv
    have havl := h.avail_eq
    have hfit := h.carry_fits hm
    have hcap : dfCarrySize = 280 := rfl
    have hinv := dfCarryChunk_inv E h hm (n := dfChunkMin s) (by omega) (by omega)
    have hrem : (dfCarryChunk E s (dfChunkMin s)).msgRem = s.msgRem - dfChunkMin s := by
      show sub16 s.msgRem (dfChunkMin s) = _
      exact sub16_of_le (by omega) (by omega)
    have htake : s.pending.take (dfChunkMin s) = bytesAt s.recBuf s.recOff (dfChunkMin s) :=
      take_pending s (by omega)
    have hf' : folded (dfCarryChunk E s (dfChunkMin s)).trace =
        base ++ (bs ++ s.pending.take (dfChunkMin s)) := by
      rw [htake, ← List.append_assoc, ← hf]
      simp [dfCarryChunk, dfConsumeChunk, dfCopyCarry, Hs.foldRec, folded, Event.folded]
    have hleft : (dfCarryChunk E s (dfChunkMin s)).pending = s.pending.drop (dfChunkMin s) := by
      show bytesAt s.recBuf (add16 s.recOff _) (s.recLen - add16 s.recOff _) = _
      rw [add16_of_lt (by omega), Hs.pending, drop_bytesAt _ _ (by omega), Nat.sub_sub]
    rw [dfCarryBody_eq E hz]
    split
    · exact dfDispatch_took E _ _ s bs hinv.toRecInv hf' hleft hfour (by omega) (by omega)
    · -- the message goes on, so the chunk was the rest of the record
      have hall : s.pending.length ≤ dfChunkMin s := by
        omega
      rw [List.take_of_length_le hall] at hf'
      refine ⟨fun _ => ⟨?_, ?_⟩, fun hc => (by cases hc)⟩
      · refine .body hinv hne hf' (by rw [List.length_append]; omega) ?_ (fun _ => ?_)
          (fun hs => absurd hs hnot)
        · rw [hsSize_append _ hfour, List.length_append]
          show bs.length + s.pending.length + (dfCarryChunk E s (dfChunkMin s)).msgRem = _
          omega
        · rw [hsSize_append _ hfour, List.length_append]
          omega
      · show (dfCarryChunk E s (dfChunkMin s)).pending = []
        rw [hleft, List.drop_of_length_le hall]

theorem dfStreamBody_took (E : Env κ) (h : PumpInv s) (hm : s.mode = .stream)
    (hext : ExtLive s.csState s.csNeed) (hf : folded s.trace = base ++ bs) (hfour : 4 ≤ bs.length)
    (hsize : bs.length + s.msgRem = hsSize bs) (hopen : Unfinished bs) {r : Hs κ × Ret}
    (hr : dfStreamBody E s = some r) : Took base s bs r := by
  have hpend := h.avail_pending
  have havl := h.avail_eq
  have hne : s.mode ≠ .hdr := by
    rw [hm]
    decide
  by_cases hz : s.avail = 0
  · have hnil : s.pending = [] := List.length_eq_zero_iff.1 (by omega)
    unfold dfStreamBody at hr
    rw [if_pos hz] at hr
    cases hr
    refine ⟨fun _ => ⟨?_, hnil⟩, fun hc => (by cases hc)⟩
    rw [hnil, List.append_nil]
    exact .body h.toDfInv hne hf hfour hsize hopen (fun _ => hext)
  · obtain ⟨r', hr', hinv, hcall, hdone⟩ := dfStreamBody_sim E h hm hext hz rfl
    rw [hr] at hr'
    cases hr'
    generalize hn : min s.avail s.msgRem = n at hcall hdone
    have hoff := hcall.recOff_take
    have hrem := hcall.msgRem_take
    have hleft : r.1.take = 0 → r.1.pending = s.pending.drop n := by
      intro htz
      have hoff' : r.1.recOff = s.recOff + n := by
        omega
      unfold Hs.pending
      rw [hcall.recBuf_eq, hcall.recLen_eq, hoff', drop_bytesAt _ _ (by omega), Nat.sub_sub]
    have hf' : folded r.1.trace = base ++ (bs ++ s.pending.take n) := by
      rw [hcall.folded_eq, hf, List.append_assoc]
    cases hT : s.walk.run E (s.pending.take n) with
    | leave p =>
        -- the machine refused the bytes
        have herr := (hdone.failed p.1 p.2 hT).2
        exact ⟨fun hc => (by rw [herr] at hc; cases hc), fun hc => (by rw [herr] at hc; cases hc)⟩
    | again w =>
        obtain ⟨hwalk, htz, hext'⟩ := hdone.walked w hT
        by_cases hall : s.msgRem = n
        · refine ⟨fun hc => absurd hc (hdone.not_more (Or.inl hall)), fun hmsg => ?_⟩
          by_cases hcomp : w.Complete
          · obtain ⟨_, hmode, hhave, hsplit⟩ := hdone.complete w hT hall hcomp
            refine ⟨bs ++ s.pending.take n, ?_, ?_, ?_⟩
            · rw [hleft htz, List.append_assoc, List.take_append_drop]
            · rw [hsSize_append _ hfour, ← hsize, List.length_append, List.length_take]
              omega
            · exact .header ⟨hinv, hmode, hhave, bytesAt_zero _ _, fun hne => absurd rfl hne⟩
                (by simp) hf'
          · rw [hdone.incomplete w hT hall hcomp] at hmsg
            cases hmsg
        · obtain ⟨hmore, hmode⟩ := hdone.more w hT hall
          have hlong : s.pending.length ≤ n := by
            omega
          refine ⟨fun _ => ⟨?_, ?_⟩, fun hc => (by rw [hmore] at hc; cases hc)⟩
          · rw [List.take_of_length_le hlong] at hf'
            rw [← hwalk] at hext'
            refine .body hinv (by rw [hmode]; decide) hf' (by rw [List.length_append]; omega) ?_
              (fun _ => ?_) (fun _ => hext')
            · rw [hsSize_append _ hfour, List.length_append]
              omega
            · rw [hsSize_append _ hfour, List.length_append]
              omega
          · rw [hleft htz, List.drop_of_length_le hlong]

/-- The header is complete, and nothing of the body has been taken. -/
theorem dfHdrComplete_took (E : Env κ) (h : PumpInv s) (hm : s.mode = .hdr) {hd : List UInt8}
    (hhd : bytesAt s.hdr 0 4 = hd) (hf : folded s.trace = base) {r : Hs κ × Ret}
    (hr : dfHdrComplete E s = some r) : Took base s hd r := by
  have hfour : hd.length = 4 := by
    rw [← hhd, length_bytesAt]
  have hfold := dfHdrFold_inv E h hm
  have hpend : (dfHdrFold E s).pending = s.pending := rfl
  have hf' : folded (dfHdrFold E s).trace = base ++ hd := by
    rw [← hf, ← hhd]
    simp [dfHdrFold, folded, Event.folded]
  unfold dfHdrComplete at hr
  split at hr
  · cases hr
    exact Took.fail _ _ _ _ _
  split at hr
  · cases hr
    exact Took.fail _ _ _ _ _
  rename_i hhigh
  -- a length of 64 KB or more has been refused
  have hzero : s.hdr 1 = 0 := not_not.1 hhigh
  have hsize : hd.length + (dfHdrFold E s).msgRem = hsSize hd := by
    have hget : ∀ i < 4, hd.getD i 0 = s.hdr i := by
      intro i hi
      have := (bytesAt_eq_iff.1 hhd).2 i hi
      rw [← this, Nat.zero_add]
    unfold hsSize
    rw [hget 1 (by omega), hget 2 (by omega), hget 3 (by omega), hzero, hfour]
    show 4 + word (s.hdr 2) (s.hdr 3) = 4 + (0 * 65536 + word (s.hdr 2) (s.hdr 3))
    omega
  have hopen : Unfinished hd := fun _ => ⟨by omega, by omega⟩
  unfold dfRoute at hr
  split at hr
  · rename_i hin
    cases hr
    have hrec := recOff_lt hfold.toRecInv
    have havl := hfold.avail_eq
    have hlen := hfold.avail_pending
    have hmsg : (dfHdrFold E s).msgRem = (dfHdrFold E s).msgLen := rfl
    have htaken := dfInPlaceTaken_inv E hfold hin.2
    refine dfDispatch_took E _ _ s hd (n := (dfHdrFold E s).msgLen) htaken ?_ ?_
      (by omega) (by omega) (by rw [← hpend]; omega)
    · rw [← hpend, take_pending _ (by omega), ← List.append_assoc, ← hf']
      simp [Hs.foldRec, folded, Event.folded]
    · rw [← hpend]
      show bytesAt s.recBuf (add16 (dfHdrFold E s).recOff (dfHdrFold E s).msgLen)
        (s.recLen - add16 (dfHdrFold E s).recOff (dfHdrFold E s).msgLen) = _
      rw [add16_of_lt (by omega), Hs.pending, drop_bytesAt _ _ (by omega), Nat.sub_sub]
      rfl
  split at hr
  · have hbegin := dfStreamBegin_pumpInv hfold (word_lt _ _)
    have htook := dfStreamBody_took (s := { dfHdrFold E s with
        mode := .stream, csState := .ctx, csIdx := 0, csEntry := 0, csOff := 0 }) E hbegin rfl
      (extLive_of_ne (by simp) _) hf' (by omega) hsize hopen hr
    exact htook.of_pending rfl
  split at hr
  · cases hr
    exact Took.fail _ _ _ _ _
  · rename_i hlen
    cases hr
    have hle : (dfHdrFold E s).msgRem ≤ dfCarryMaxBody := Nat.le_of_not_lt hlen
    have hf'' : folded (dfCarryBegin (dfHdrFold E s)).trace = base ++ hd := by
      rw [← hf']
      simp [dfCarryBegin, folded, Event.folded]
    have htook := dfCarryBody_took (s := dfCarryBegin (dfHdrFold E s)) E
      (dfCarryBegin_inv hfold hle) rfl hf'' (by omega) hsize hopen
    exact htook.of_pending rfl

end Routes

/-- One pump. -/
theorem tlsDeframePump_took (E : Env κ) {base bs : List UInt8} {s : Hs κ} (h : Taking base s bs)
    {r : Hs κ × Ret} (hr : tlsDeframePump E s = some r) : Took base s bs r := by
  cases h with
  | header hpart hshort hf =>
      by_cases hlen : bs.length + s.pending.length < 4
      · obtain ⟨s', hpump, hpart', haround, hleft⟩ := pump_hdr_part E hpart hlen
        rw [hr] at hpump
        cases hpump
        refine ⟨fun _ => ⟨.header hpart' (by rw [List.length_append]; omega) ?_, hleft⟩,
          fun hc => (by cases hc)⟩
        exact (folded_congr haround.marks_eq).trans hf
      · obtain ⟨g, hpump, hhere, hleft, _⟩ := pump_hdr_here E hpart (by omega) (by omega)
        rw [hpump] at hr
        have htook := dfHdrComplete_took E hhere.inv hhere.mode_eq hhere.hdr_eq
          ((folded_congr hhere.around.marks_eq).trans hf) hr
        refine htook.of_drop ?_
        rw [hleft, List.append_assoc, List.take_append_drop]
  | body hinv hm hf hfour hsize hopen hext =>
      have hf' := (folded_congr (marks_dfAvail s)).trans hf
      have hsame : (dfAvail s).pending = s.pending := rfl
      unfold tlsDeframePump at hr
      dsimp only at hr
      split at hr
      · exact absurd ‹_› hm
      · cases hr
        exact (dfCarryBody_took E hinv.pump ‹_› hf' hfour hsize hopen).of_pending hsame
      · exact (dfStreamBody_took E hinv.pump ‹_› (hext ‹_›) hf' hfour hsize hopen hr).of_pending hsame

end Tls
end C64Https
