import C64Https.Tls.CertWalk
import C64Https.Tls.Trace

/-!
# CertStream — the chunked `@parse` loop refines the byte machine

A state of the deframer is abstracted to `Hs.walk`; `Hs.span` is the share of the record that the
current call has yet to parse.  One turn of `@parse` takes some bytes off the span and does to the
abstraction what the byte machine does on those bytes (`csTurn_sim`), so a call of `df_stream_body`
runs the machine on its chunk (`dfStreamBody_sim`).
-/

namespace C64Https
namespace Tls

open Word Loop Bytes

variable {κ : Type}

/-- The abstraction. -/
def Hs.walk (s : Hs κ) : Walk κ where
  copied := copied s.trace
  leaves := leaves s.trace
  csState := s.csState
  csIdx := s.csIdx
  csTmpHi := s.csTmpHi
  csTmpLo := s.csTmpLo
  csNeed := s.csNeed
  csEntry := s.csEntry
  csOff := s.csOff
  certBuf := s.certBuf
  keys := s.keys

/-- The unparsed bytes of the current chunk. -/
def Hs.span (s : Hs κ) : List UInt8 :=
  bytesAt s.recBuf s.recOff s.take

/-- What `@parse` leaves alone since `s₀`: the record, the transcript, the protocol state; and the
cursors, which move together. -/
structure FrameOf (s₀ : Hs κ) (tr : List Event) (recBuf : Buffer) (recLen : Nat)
    (tlsState : TlsState) (transcript : Transcript) (snap : List UInt8)
    (recOff msgRem take : Nat) : Prop where
  recBuf_eq : recBuf = s₀.recBuf
  recLen_eq : recLen = s₀.recLen
  tlsState_eq : tlsState = s₀.tlsState
  transcript_eq : transcript = s₀.transcript
  snap_eq : snap = s₀.snap
  folded_eq : folded tr = folded s₀.trace
  dispatched_eq : dispatched tr = dispatched s₀.trace
  recOff_take : recOff + take = s₀.recOff + s₀.take
  msgRem_take : msgRem + s₀.take = s₀.msgRem + take

abbrev ParseFrame (s₀ s : Hs κ) : Prop :=
  FrameOf s₀ s.trace s.recBuf s.recLen s.tlsState s.transcript s.snap s.recOff s.msgRem s.take

theorem ParseFrame.refl (s : Hs κ) : ParseFrame s s :=
  ⟨rfl, rfl, rfl, rfl, rfl, rfl, rfl, rfl, rfl⟩

theorem ParseFrame.trans {s s' s'' : Hs κ} (h : ParseFrame s s') (h' : ParseFrame s' s'') :
    ParseFrame s s'' where
  recBuf_eq := h'.recBuf_eq.trans h.recBuf_eq
  recLen_eq := h'.recLen_eq.trans h.recLen_eq
  tlsState_eq := h'.tlsState_eq.trans h.tlsState_eq
  transcript_eq := h'.transcript_eq.trans h.transcript_eq
  snap_eq := h'.snap_eq.trans h.snap_eq
  folded_eq := h'.folded_eq.trans h.folded_eq
  dispatched_eq := h'.dispatched_eq.trans h.dispatched_eq
  recOff_take := h'.recOff_take.trans h.recOff_take
  msgRem_take := by
    have h₁ := h.msgRem_take
    have h₂ := h'.msgRem_take
    omega

/-! ## The primitives -/

section Primitives

variable {s : Hs κ}

theorem dfCsTakeByte_walk (s : Hs κ) : (dfCsTakeByte s).walk = s.walk := by
  have hq : marks (dfCsTakeByte s).trace = marks s.trace := by
    simp [dfCsTakeByte, marks, Event.isMark]
  unfold Hs.walk
  rw [copied_congr hq, leaves_congr hq]
  rfl

theorem dfCsTakeByte_eqs (h : StreamInv s) (ht : s.take ≠ 0) :
    (dfCsTakeByte s).recOff = s.recOff + 1 ∧ (dfCsTakeByte s).take = s.take - 1 ∧
      (dfCsTakeByte s).msgRem = s.msgRem - 1 := by
  have h₁ := h.cursors.take_le
  have h₂ := h.cursors.take_in
  have h₃ := h.cursors.msgRem_lt
  have h₄ := h.cursors.lt
  exact ⟨add16_of_lt (by omega), sub16_of_le (by omega) (by omega),
    sub16_of_le (by omega) (by omega)⟩

theorem dfCsTakeByte_frame (h : StreamInv s) (ht : s.take ≠ 0) :
    ParseFrame s (dfCsTakeByte s) := by
  have hle := h.cursors.take_le
  obtain ⟨hoff, htake, hrem⟩ := dfCsTakeByte_eqs h ht
  have hq : marks (dfCsTakeByte s).trace = marks s.trace := by
    simp [dfCsTakeByte, marks, Event.isMark]
  exact ⟨rfl, rfl, rfl, rfl, rfl, folded_congr hq, dispatched_congr hq, by omega, by omega⟩

/-- The byte taken is the head of the span. -/
theorem dfCsTakeByte_span (h : StreamInv s) (ht : s.take ≠ 0) :
    s.span = s.recBuf s.recOff :: (dfCsTakeByte s).span := by
  obtain ⟨hoff, htake, _⟩ := dfCsTakeByte_eqs h ht
  have hsucc : s.take = s.take - 1 + 1 := by
    omega
  have hrest : (dfCsTakeByte s).span = bytesAt s.recBuf (s.recOff + 1) (s.take - 1) := by
    unfold Hs.span
    rw [hoff, htake]
    rfl
  unfold Hs.span at hrest ⊢
  rw [hrest, ← bytesAt_succ, ← hsucc]

theorem dfCsAdvanceN_walk (s : Hs κ) (n : Nat) :
    (dfCsAdvanceN s n).walk = { s.walk with csNeed := (dfCsAdvanceN s n).csNeed } := by
  have hq : marks (dfCsAdvanceN s n).trace = marks s.trace := by
    simp [dfCsAdvanceN, marks, Event.isMark]
  unfold Hs.walk
  rw [copied_congr hq, leaves_congr hq]
  rfl

theorem dfCsAdvanceN_frame (h : StreamInv s) {n : Nat} (hn : n ≤ s.take) (hneed : n ≤ s.csNeed) :
    ParseFrame s (dfCsAdvanceN s n) := by
  have hle := h.cursors.take_le
  obtain ⟨hoff, htake, hrem, _⟩ := dfCsAdvanceN_eqs h hn hneed
  have hq : marks (dfCsAdvanceN s n).trace = marks s.trace := by
    simp [dfCsAdvanceN, marks, Event.isMark]
  exact ⟨rfl, rfl, rfl, rfl, rfl, folded_congr hq, dispatched_congr hq, by omega, by omega⟩

theorem dfCsAdvanceN_span (h : StreamInv s) {n : Nat} (hn : n ≤ s.take) (hneed : n ≤ s.csNeed) :
    s.span = bytesAt s.recBuf s.recOff n ++ (dfCsAdvanceN s n).span := by
  obtain ⟨hoff, htake, _, _⟩ := dfCsAdvanceN_eqs h hn hneed
  have hrest : (dfCsAdvanceN s n).span = bytesAt s.recBuf (s.recOff + n) (s.take - n) := by
    unfold Hs.span
    rw [hoff, htake]
    rfl
  rw [hrest, ← bytesAt_add, Nat.add_sub_cancel' hn]
  rfl

end Primitives

/-! ## One turn -/

/-- `@ext_data` is only entered with extensions left to discard. -/
def ExtLive (csState : CsState) (csNeed : Nat) : Prop :=
  csState = .extData → csNeed ≠ 0

theorem extLive_of_ne {st : CsState} (h : st ≠ .extData) (n : Nat) : ExtLive st n :=
  fun hst => absurd hst h

/-- A turn from `s` that leaves `rest` unparsed does to the abstraction what `u` says. -/
def Sim (s : Hs κ) (rest : List UInt8) (t : Turn (Hs κ) (Hs κ × Ret))
    (u : Turn (Walk κ) (Walk κ × DfErr)) : Prop :=
  t.Post (fun s' => ParseFrame s s' ∧ s'.span = rest ∧ ExtLive s'.csState s'.csNeed ∧
      u = .again s'.walk)
    (fun r => ParseFrame s r.1 ∧ ∃ e, r.2 = .err e ∧ u = .leave (r.1.walk, e))

/-- A turn of `@parse`: the machine on the whole span is the machine on the rest of it, after what
the turn did. -/
def TurnSim (E : Env κ) (s : Hs κ) (t : Turn (Hs κ) (Hs κ × Ret)) : Prop :=
  ∃ u rest, s.walk.run E s.span = u.bind (fun w => w.run E rest) ∧ Sim s rest t u

/-- A turn that takes one byte. -/
theorem turnSim_byte {E : Env κ} {s : Hs κ} (h : StreamInv s) (ht : s.take ≠ 0)
    (hst : s.csState ≠ .entryData) {t : Turn (Hs κ) (Hs κ × Ret)}
    (hsim : Sim s (dfCsTakeByte s).span t
      ((dfCsTakeByte s).walk.step E (s.recBuf s.recOff))) : TurnSim E s t := by
  refine ⟨_, _, ?_, hsim⟩
  have hbyte : s.walk.byte E (s.recBuf s.recOff) = s.walk.step E (s.recBuf s.recOff) :=
    Walk.byte_eq _ _ (fun hd => absurd hd hst)
  rw [dfCsTakeByte_span h ht, Walk.run_cons, hbyte, dfCsTakeByte_walk]

theorem csCtx_sim (E : Env κ) {s : Hs κ} (h : StreamInv s) (ht : s.take ≠ 0)
    (hst : s.csState = .ctx) : TurnSim E s (csCtx s) := by
  refine turnSim_byte h ht (by simp [hst]) ?_
  have hframe := dfCsTakeByte_frame h ht
  have hst' : (dfCsTakeByte s).walk.csState = .ctx := hst
  unfold csCtx Walk.step
  rw [hst']
  dsimp only
  split
  · exact ⟨hframe, rfl, extLive_of_ne (by simp) _, rfl⟩
  · exact ⟨hframe, _, rfl, rfl⟩

theorem csListLen_sim (E : Env κ) {s : Hs κ} (h : StreamInv s) (ht : s.take ≠ 0)
    (hst : s.csState = .listLen) : TurnSim E s (csListLen s) := by
  refine turnSim_byte h ht (by simp [hst]) ?_
  have hframe := dfCsTakeByte_frame h ht
  have hst' : (dfCsTakeByte s).walk.csState = .listLen := hst
  have hne : (dfCsTakeByte s).csState ≠ .extData := by
    rw [show (dfCsTakeByte s).csState = .listLen from hst]
    decide
  have hidx : (dfCsTakeByte s).walk.csIdx = (dfCsTakeByte s).csIdx := rfl
  unfold csListLen Walk.step
  rw [hst']
  dsimp only
  rw [hidx]
  split
  · exact ⟨hframe, _, rfl, rfl⟩
  split
  · exact ⟨hframe, rfl, extLive_of_ne (by simp) _, rfl⟩
  · refine ⟨hframe, rfl, extLive_of_ne hne _, ?_⟩
    rw [← hst']
    rfl

theorem csElByte_walk (s : Hs κ) (b : UInt8) : (csElByte s b).walk = s.walk.elByte b := by
  unfold csElByte Walk.elByte
  have hidx : s.walk.csIdx = s.csIdx := rfl
  rw [hidx]
  split
  · rfl
  split <;> rfl

/-- What storing a byte of a length moves: nothing of the frame. -/
theorem csElByte_frame {s₀ s : Hs κ} (h : ParseFrame s₀ s) (b : UInt8) :
    ParseFrame s₀ (csElByte s b) ∧ (csElByte s b).span = s.span ∧
      (csElByte s b).csState = s.csState := by
  unfold csElByte
  split
  · exact ⟨h, rfl, rfl⟩
  split
  · exact ⟨h, rfl, rfl⟩
  · exact ⟨h, rfl, rfl⟩

theorem csElDone_sim {s₀ s : Hs κ} (h : ParseFrame s₀ s) :
    Sim s₀ s.span (csElDone s) s.walk.elDone := by
  have hentry : s.walk.csEntry = s.csEntry := rfl
  have hhi : s.walk.csTmpHi = s.csTmpHi := rfl
  have hlo : s.walk.csTmpLo = s.csTmpLo := rfl
  unfold csElDone Walk.elDone
  dsimp only
  rw [hentry, hhi, hlo]
  split
  · exact ⟨h, rfl, extLive_of_ne (by simp) _, rfl⟩
  split
  · exact ⟨h, _, rfl, rfl⟩
  · exact ⟨h, rfl, extLive_of_ne (by simp) _, rfl⟩

theorem csEntryLen_sim (E : Env κ) {s : Hs κ} (h : StreamInv s) (ht : s.take ≠ 0)
    (hst : s.csState = .entryLen) : TurnSim E s (csEntryLen s) := by
  refine turnSim_byte h ht (by simp [hst]) ?_
  obtain ⟨hframe, hspan, hkeep⟩ := csElByte_frame (dfCsTakeByte_frame h ht) (s.recBuf s.recOff)
  have hst' : (dfCsTakeByte s).walk.csState = .entryLen := hst
  have hne : (csElByte (dfCsTakeByte s) (s.recBuf s.recOff)).csState ≠ .extData := by
    rw [hkeep, show (dfCsTakeByte s).csState = .entryLen from hst]
    decide
  have hidx : (dfCsTakeByte s).walk.csIdx = (dfCsTakeByte s).csIdx := rfl
  have hidx' : (csElByte (dfCsTakeByte s) (s.recBuf s.recOff)).walk.csIdx =
      (csElByte (dfCsTakeByte s) (s.recBuf s.recOff)).csIdx := rfl
  unfold csEntryLen Walk.step
  rw [hst']
  dsimp only
  rw [hidx, ← csElByte_walk, hidx', ← hspan]
  split
  · exact ⟨dfCsTakeByte_frame h ht, _, rfl, rfl⟩
  split
  · exact ⟨hframe, rfl, extLive_of_ne hne _, rfl⟩
  · exact csElDone_sim (s := { csElByte (dfCsTakeByte s) (s.recBuf s.recOff) with
      csIdx := inc8 (csElByte (dfCsTakeByte s) (s.recBuf s.recOff)).csIdx }) hframe

theorem csXlByte_walk (s : Hs κ) (b : UInt8) : (csXlByte s b).walk = s.walk.xlByte b := by
  unfold csXlByte Walk.xlByte
  have hidx : s.walk.csIdx = s.csIdx := rfl
  rw [hidx]
  split <;> rfl

theorem csXlByte_frame {s₀ s : Hs κ} (h : ParseFrame s₀ s) (b : UInt8) :
    ParseFrame s₀ (csXlByte s b) ∧ (csXlByte s b).span = s.span ∧
      (csXlByte s b).csState = s.csState := by
  unfold csXlByte
  split
  · exact ⟨h, rfl, rfl⟩
  · exact ⟨h, rfl, rfl⟩

theorem csXlDone_sim {s₀ s : Hs κ} (h : ParseFrame s₀ s) :
    Sim s₀ s.span (csXlDone s) s.walk.xlDone := by
  have hhi : s.walk.csTmpHi = s.csTmpHi := rfl
  have hlo : s.walk.csTmpLo = s.csTmpLo := rfl
  unfold csXlDone Walk.xlDone
  dsimp only
  rw [hhi, hlo]
  split
  · exact ⟨h, rfl, extLive_of_ne (by simp [csEntryDone]) _, rfl⟩
  · rename_i hpos
    exact ⟨h, rfl, fun _ => hpos, rfl⟩

theorem csExtLen_sim (E : Env κ) {s : Hs κ} (h : StreamInv s) (ht : s.take ≠ 0)
    (hst : s.csState = .extLen) : TurnSim E s (csExtLen s) := by
  refine turnSim_byte h ht (by simp [hst]) ?_
  obtain ⟨hframe, hspan, hkeep⟩ := csXlByte_frame (dfCsTakeByte_frame h ht) (s.recBuf s.recOff)
  have hst' : (dfCsTakeByte s).walk.csState = .extLen := hst
  have hne : (csXlByte (dfCsTakeByte s) (s.recBuf s.recOff)).csState ≠ .extData := by
    rw [hkeep, show (dfCsTakeByte s).csState = .extLen from hst]
    decide
  have hidx' : (csXlByte (dfCsTakeByte s) (s.recBuf s.recOff)).walk.csIdx =
      (csXlByte (dfCsTakeByte s) (s.recBuf s.recOff)).csIdx := rfl
  unfold csExtLen Walk.step
  rw [hst']
  dsimp only
  rw [← csXlByte_walk, hidx', ← hspan]
  split
  · exact ⟨hframe, rfl, extLive_of_ne hne _, rfl⟩
  · exact csXlDone_sim (s := { csXlByte (dfCsTakeByte s) (s.recBuf s.recOff) with
      csIdx := inc8 (csXlByte (dfCsTakeByte s) (s.recBuf s.recOff)).csIdx }) hframe

/-- A turn that takes a chunk of a field. -/
theorem csExtData_sim (E : Env κ) {s : Hs κ} (h : StreamInv s) (ht : s.take ≠ 0)
    (hst : s.csState = .extData) (hpos : s.csNeed ≠ 0) : TurnSim E s (csExtData s) := by
  have hn : dfCsMinTakeNeed s = min s.take s.csNeed := dfCsMinTakeNeed_eq s
  generalize hn' : dfCsMinTakeNeed s = n at hn
  have hle₁ : n ≤ s.take := by
    omega
  have hle₂ : n ≤ s.csNeed := by
    omega
  obtain ⟨_, _, _, hneed⟩ := dfCsAdvanceN_eqs h hle₁ hle₂
  have hframe := dfCsAdvanceN_frame h hle₁ hle₂
  have hne : bytesAt s.recBuf s.recOff n ≠ [] := by
    rw [← List.length_pos_iff, length_bytesAt]
    omega
  have hrun := Walk.run_skip (E := E) (w := s.walk) hst hne
    (by rw [length_bytesAt]; exact hle₂)
  have hskip : s.walk.skip n = (dfCsAdvanceN s n).walk := by
    rw [dfCsAdvanceN_walk, hneed]
    rfl
  have hneed' : (dfCsAdvanceN s n).walk.csNeed = (dfCsAdvanceN s n).csNeed := rfl
  rw [length_bytesAt, hskip, hneed'] at hrun
  refine ⟨s.walk.run E (bytesAt s.recBuf s.recOff n), (dfCsAdvanceN s n).span, ?_, ?_⟩
  · rw [dfCsAdvanceN_span h hle₁ hle₂, Walk.run_append]
  · rw [hrun]
    unfold csExtData
    dsimp only
    rw [hn']
    split
    · exact ⟨hframe, rfl, extLive_of_ne (by simp [csEntryDone]) _, rfl⟩
    · rename_i hleft
      exact ⟨hframe, rfl, fun _ => hleft, rfl⟩

theorem csEntryDataDone_sim (E : Env κ) {s₀ s : Hs κ} (h : ParseFrame s₀ s) :
    Sim s₀ s.span (csEntryDataDone E s) (s.walk.dataDone E) := by
  have hentry : s.walk.csEntry = s.csEntry := rfl
  unfold csEntryDataDone Walk.dataDone
  rw [hentry]
  split
  · exact ⟨h, rfl, extLive_of_ne (by simp [csEntryToExt]) _, rfl⟩
  · dsimp only
    have hext : s.walk.extract E = (({ s with
        keys := (E.tlsCertStreamFinish s.certBuf (word s.csTmpHi s.csTmpLo) s.keys).1 }.emit
          (.leaf (bytesAt s.certBuf 0 (word s.csTmpHi s.csTmpLo))
            (E.tlsCertStreamFinish s.certBuf (word s.csTmpHi s.csTmpLo) s.keys).2)).walk,
        (E.tlsCertStreamFinish s.certBuf (word s.csTmpHi s.csTmpLo) s.keys).2) := by
      unfold Walk.extract Hs.walk Hs.emit
      simp [copied, leaves, Event.copied, Event.leaf?]
    have hframe : ParseFrame s₀ ({ s with
        keys := (E.tlsCertStreamFinish s.certBuf (word s.csTmpHi s.csTmpLo) s.keys).1 }.emit
          (.leaf (bytesAt s.certBuf 0 (word s.csTmpHi s.csTmpLo))
            (E.tlsCertStreamFinish s.certBuf (word s.csTmpHi s.csTmpLo) s.keys).2)) := by
      refine { h with folded_eq := ?_, dispatched_eq := ?_ }
      · simpa [Hs.emit, folded, Event.folded] using h.folded_eq
      · simpa [Hs.emit, dispatched, Event.dispatched] using h.dispatched_eq
    rw [hext]
    split
    · exact ⟨hframe, rfl, extLive_of_ne (by simp [csEntryToExt]) _, rfl⟩
    · exact ⟨hframe, _, rfl, rfl⟩

/-- The bulk step of `@entry_data` is the machine's `data`. -/
theorem csEntryBulk_walk {s : Hs κ} (h : StreamInv s) (hst : s.csState = .entryData) {n : Nat}
    (hn : n ≤ s.take) (hneed : n ≤ s.csNeed) :
    (csEntryBulk s n).walk = s.walk.data (bytesAt s.recBuf s.recOff n) := by
  obtain ⟨_, _, hneed'⟩ := csEntryBulk_inv h hst hn hneed
  have hentry : s.walk.csEntry = s.csEntry := rfl
  unfold csEntryBulk at hneed' ⊢
  rw [dfCsAdvanceN_walk, hneed']
  unfold Walk.data
  rw [hentry, length_bytesAt]
  by_cases hleaf : s.csEntry = 0
  · have hoff : add16 s.csOff n = s.csOff + n := by
      have := h.leaf_fits hst hleaf
      have hcap : certBufSize = 2048 := rfl
      exact add16_of_lt (by omega)
    simp only [hleaf, if_true]
    unfold Hs.walk dfCsCopy
    simp [copied, leaves, Event.copied, Event.leaf?, hoff, hleaf]
  · simp only [hleaf, if_false, List.append_nil]
    rfl

theorem csEntryBulk_frame {s : Hs κ} (h : StreamInv s) {n : Nat} (hn : n ≤ s.take)
    (hneed : n ≤ s.csNeed) :
    ParseFrame s (csEntryBulk s n) ∧
      s.span = bytesAt s.recBuf s.recOff n ++ (csEntryBulk s n).span ∧
        (csEntryBulk s n).csState = s.csState := by
  have hframe := dfCsAdvanceN_frame h hn hneed
  have hspan := dfCsAdvanceN_span h hn hneed
  unfold csEntryBulk
  split
  · refine ⟨{ hframe with folded_eq := ?_, dispatched_eq := ?_ }, hspan, rfl⟩
    · simp [dfCsAdvanceN, dfCsCopy, folded, Event.folded]
    · simp [dfCsAdvanceN, dfCsCopy, dispatched, Event.dispatched]
  · exact ⟨hframe, hspan, rfl⟩

theorem csEntryData_sim (E : Env κ) {s : Hs κ} (h : StreamInv s) (ht : s.take ≠ 0)
    (hst : s.csState = .entryData) : TurnSim E s (csEntryData E s) := by
  have hspan_ne : s.span ≠ [] := by
    rw [dfCsTakeByte_span h ht]
    exact List.cons_ne_nil _ _
  by_cases hz : s.csNeed = 0
  · refine ⟨s.walk.dataDone E, s.span, ?_, ?_⟩
    · have hsettle : s.walk.settle E = s.walk.dataDone E := if_pos ⟨hst, hz⟩
      rw [Walk.run_settle _ hspan_ne, hsettle]
    · unfold csEntryData
      rw [if_pos hz]
      exact csEntryDataDone_sim E (ParseFrame.refl s)
  · have hn : dfCsMinTakeNeed s = min s.take s.csNeed := dfCsMinTakeNeed_eq s
    have hbulk : csEntryData E s =
        if (csEntryBulk s (dfCsMinTakeNeed s)).csNeed = 0 then
          csEntryDataDone E (csEntryBulk s (dfCsMinTakeNeed s))
        else .again (csEntryBulk s (dfCsMinTakeNeed s)) := by
      unfold csEntryData
      rw [if_neg hz]
      rfl
    rw [hbulk]
    generalize hn' : dfCsMinTakeNeed s = n at hn
    have hle₁ : n ≤ s.take := by
      omega
    have hle₂ : n ≤ s.csNeed := by
      omega
    obtain ⟨hframe, hspan, hkeep⟩ := csEntryBulk_frame h hle₁ hle₂
    have hne' : (csEntryBulk s n).csState ≠ .extData := by
      rw [hkeep, hst]
      decide
    have hne : bytesAt s.recBuf s.recOff n ≠ [] := by
      rw [← List.length_pos_iff, length_bytesAt]
      omega
    have hrun := Walk.run_data (E := E) (w := s.walk) hst hne
      (by rw [length_bytesAt]; exact hle₂)
    have hneed : (csEntryBulk s n).walk.csNeed = (csEntryBulk s n).csNeed := rfl
    rw [← csEntryBulk_walk h hst hle₁ hle₂, hneed] at hrun
    refine ⟨s.walk.run E (bytesAt s.recBuf s.recOff n), (csEntryBulk s n).span, ?_, ?_⟩
    · rw [hspan, Walk.run_append]
    · rw [hrun]
      split
      · exact csEntryDataDone_sim E hframe
      · exact ⟨hframe, rfl, extLive_of_ne hne' _, rfl⟩

theorem csTurn_sim (E : Env κ) {s : Hs κ} (h : StreamInv s) (ht : s.take ≠ 0)
    (hlive : ExtLive s.csState s.csNeed) : TurnSim E s (csTurn E s) := by
  unfold csTurn
  rw [if_neg ht]
  cases hst : s.csState with
  | ctx => exact csCtx_sim E h ht hst
  | listLen => exact csListLen_sim E h ht hst
  | entryLen => exact csEntryLen_sim E h ht hst
  | entryData => exact csEntryData_sim E h ht hst
  | extLen => exact csExtLen_sim E h ht hst
  | extData => exact csExtData_sim E h ht hst (hlive hst)

/-! ## One call -/

/-- How `@parse` ends, with `take` of the `rem` missing message bytes parsed to `T`. -/
structure BodyDone (rem take : Nat) (T : Turn (Walk κ) (Walk κ × DfErr)) (r : Hs κ × Ret) :
    Prop where
  failed : ∀ w e, T = .leave (w, e) → r.1.walk = w ∧ r.2 = .err e
  walked : ∀ w, T = .again w → r.1.walk = w ∧ r.1.take = 0 ∧ ExtLive w.csState w.csNeed
  more : ∀ w, T = .again w → rem ≠ take → r.2 = .more ∧ r.1.mode = .stream
  complete : ∀ w, T = .again w → rem = take → w.Complete →
    r.2 = .msg ∧ r.1.mode = .hdr ∧ r.1.hdrHave = 0 ∧ r.1.hdrSplit = false
  incomplete : ∀ w, T = .again w → rem = take → ¬ w.Complete → r.2 = .err .certFmt

/-- A call that ends the message, or fails, does not ask for more. -/
theorem BodyDone.not_more {rem take : Nat} {T : Turn (Walk κ) (Walk κ × DfErr)} {r : Hs κ × Ret}
    (h : BodyDone rem take T r) (hstop : rem = take ∨ ∃ p, T = .leave p) : r.2 ≠ .more := by
  cases hT : T with
  | leave p =>
      rw [(h.failed p.1 p.2 hT).2]
      exact fun hc => by cases hc
  | again w =>
      have hall : rem = take := by
        rcases hstop with hall | ⟨p, hp⟩
        · exact hall
        · rw [hT] at hp
          cases hp
      by_cases hc : w.Complete
      · rw [(h.complete w hT hall hc).1]
        decide
      · rw [h.incomplete w hT hall hc]
        decide

/-- At the end of the message, or on a failure, the counts no longer matter. -/
theorem BodyDone.final {rem take : Nat} {T : Turn (Walk κ) (Walk κ × DfErr)} {r : Hs κ × Ret}
    (h : BodyDone rem take T r) (hstop : rem = take ∨ ∃ p, T = .leave p) : BodyDone 0 0 T r := by
  refine ⟨h.failed, h.walked, fun _ _ hne => absurd rfl hne, ?_, ?_⟩
  all_goals
    intro w hT _ hc
    rcases hstop with hall | ⟨p, hp⟩
    · first
        | exact h.complete w hT hall hc
        | exact h.incomplete w hT hall hc
    · rw [hT] at hp
      cases hp

theorem csMsgEnd_done {s₀ s : Hs κ} (hframe : ParseFrame s₀ s) (ht : s.take = 0)
    (hrem : s.msgRem = 0) (hlive : ExtLive s.csState s.csNeed) :
    ParseFrame s₀ (csMsgEnd s).1 ∧ BodyDone s₀.msgRem s₀.take (.again s.walk) (csMsgEnd s) := by
  have hall : s₀.msgRem = s₀.take := by
    have := hframe.msgRem_take
    omega
  have hwalk : ∀ r : Hs κ × Ret, r.1.walk = s.walk → r.1.take = 0 →
      ∀ w, (Turn.again s.walk : Turn (Walk κ) (Walk κ × DfErr)) = .again w →
        r.1.walk = w ∧ r.1.take = 0 ∧ ExtLive w.csState w.csNeed := by
    rintro r hr htake w ⟨⟩
    exact ⟨hr, htake, hlive⟩
  -- each of the three tests fails only on a list that is not complete
  have hfail : ¬ s.walk.Complete →
      ParseFrame s₀ (dfFail s .certFmt).1 ∧
        BodyDone s₀.msgRem s₀.take (.again s.walk) (dfFail s .certFmt) := by
    intro hnot
    refine ⟨hframe, ?_, hwalk _ rfl ht, ?_, ?_, ?_⟩
    · intro w e hT
      cases hT
    · intro w _ hne
      exact absurd hall hne
    · rintro w ⟨⟩ _ hc
      exact absurd hc hnot
    · intro w _ _ _
      rfl
  unfold csMsgEnd
  split
  · rename_i hst
    exact hfail fun hc => hst hc.1
  split
  · rename_i hidx
    exact hfail fun hc => hidx hc.2.1
  split
  · rename_i hentry
    exact hfail fun hc => hc.2.2 hentry
  · rename_i hst hidx hentry
    have hc : s.walk.Complete := ⟨not_not.1 hst, not_not.1 hidx, hentry⟩
    refine ⟨{ hframe with folded_eq := ?_, dispatched_eq := ?_ }, ?_, hwalk _ ?_ ht, ?_, ?_, ?_⟩
    · simpa [Hs.emit, folded, Event.folded] using hframe.folded_eq
    · simpa [Hs.emit, dispatched, Event.dispatched] using hframe.dispatched_eq
    · intro w e hT
      cases hT
    · simp [Hs.walk, Hs.emit, copied, leaves, Event.copied, Event.leaf?]
    · intro w _ hne
      exact absurd hall hne
    · intro w _ _ _
      exact ⟨rfl, rfl, rfl, rfl⟩
    · rintro w ⟨⟩ _ hn
      exact absurd hc hn

/-- The whole loop runs the machine on the chunk. -/
theorem parse_sim (E : Env κ) {s₀ : Hs κ} (h : StreamInv s₀)
    (hlive : ExtLive s₀.csState s₀.csNeed) {n : Nat} {r : Hs κ × Ret}
    (hr : loop (csTurn E) n s₀ = some r) :
    ParseFrame s₀ r.1 ∧ BodyDone s₀.msgRem s₀.take (s₀.walk.run E s₀.span) r := by
  refine loop_rule (fun s => (StreamInv s ∧ ExtLive s.csState s.csNeed) ∧ ParseFrame s₀ s ∧
    s.walk.run E s.span = s₀.walk.run E s₀.span)
    (fun r => ParseFrame s₀ r.1 ∧ BodyDone s₀.msgRem s₀.take (s₀.walk.run E s₀.span) r)
    ?_ n s₀ r ⟨⟨h, hlive⟩, ParseFrame.refl s₀, rfl⟩ hr
  rintro s ⟨⟨hinv, hext⟩, hframe, hrun⟩
  -- no byte is left of the chunk: the walk over the empty list stays where it is
  by_cases ht : s.take = 0
  · have hspan : s.span = [] := by
      unfold Hs.span
      rw [ht, bytesAt_zero]
    rw [hspan, Walk.run_nil] at hrun
    unfold csTurn
    rw [if_pos ht, ← hrun]
    split
    · exact csMsgEnd_done hframe ht ‹_› hext
    · rename_i hrem
      have hne : s₀.msgRem ≠ s₀.take := by
        have := hframe.msgRem_take
        omega
      refine ⟨hframe, ?_, ?_, ?_, ?_, ?_⟩
      · intro w e hT
        cases hT
      · rintro w ⟨⟩
        exact ⟨rfl, ht, hext⟩
      · intro w _ _
        exact ⟨rfl, hinv.cursors.mode_eq⟩
      · intro w _ hall
        exact absurd hall hne
      · intro w _ hall
        exact absurd hall hne
  · obtain ⟨u, rest, hmach, hsim⟩ := csTurn_sim E hinv ht hext
    have hkeep := csTurn_inv E hinv
    rw [hrun] at hmach
    refine (Turn.Post.and hkeep hsim).mono ?_ ?_
    · rintro s' ⟨⟨hinv', _⟩, hframe', hrest, hext', hu⟩
      refine ⟨⟨hinv', hext'⟩, hframe.trans hframe', ?_⟩
      rw [hmach, hu, Turn.again_bind, hrest]
    · rintro r ⟨_, hframe', e, he, hu⟩
      rw [hu, Turn.leave_bind] at hmach
      refine ⟨hframe.trans hframe', ?_, ?_, ?_, ?_, ?_⟩
      · intro w e' hT
        rw [hmach] at hT
        cases hT
        exact ⟨rfl, he⟩
      all_goals
        intro w hT
        rw [hmach] at hT
        cases hT

end Tls
end C64Https
