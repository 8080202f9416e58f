import C64Https.Lib.Transition
import C64Https.Tls.Deframe

/-!
# DeframeSafety — bounds, underflows and termination of the deframer

`DfInv` ties the five cursors of the deframer together between two calls of the pump; `StreamInv`
is its form inside `@parse`, where the unparsed share of the record (`df_take`) joins them.  Each
primitive keeps them and records only safe events, so every reachable state is safe.
-/

namespace C64Https
namespace Tls

open Word Loop Bytes Transition

/-- An event that respects the buffers and does not underflow. -/
def Event.Safe : Event → Prop
  | .read off n len => off + n ≤ len ∧ len ≤ recBufSize
  | .carryWrite off n => off + n ≤ dfCarrySize
  | .certWrite off bs => off + bs.length ≤ certBufSize
  | .sub a b => b ≤ a
  | _ => True

def TraceSafe (tr : List Event) : Prop :=
  ∀ e ∈ tr, e.Safe

theorem traceSafe_nil : TraceSafe [] := by
  intro e he
  cases he

theorem traceSafe_append {tr tr' : List Event} :
    TraceSafe (tr ++ tr') ↔ TraceSafe tr ∧ TraceSafe tr' := by
  unfold TraceSafe
  constructor
  · intro h
    exact ⟨fun e he => h e (List.mem_append_left _ he), fun e he => h e (List.mem_append_right _ he)⟩
  · rintro ⟨h₁, h₂⟩ e he
    rcases List.mem_append.1 he with he | he
    · exact h₁ e he
    · exact h₂ e he

theorem traceSafe_cons {e : Event} {tr : List Event} :
    TraceSafe (e :: tr) ↔ e.Safe ∧ TraceSafe tr := by
  unfold TraceSafe
  simp

variable {κ : Type}

/-- The part of the invariant that no route touches. -/
structure RecInv (s : Hs κ) : Prop where
  safe : TraceSafe s.trace
  recLen_le : s.recLen ≤ recBufSize
  recOff_le : s.recOff ≤ s.recLen
  hdrHave_le : s.hdrHave ≤ 4
  csNeed_lt : s.csNeed < 65536

/-- The leaf that is being copied fits the rest of `cert_buf`. -/
def LeafFits (csState : CsState) (csEntry csOff csNeed : Nat) : Prop :=
  csState = .entryData → csEntry = 0 → csOff + csNeed ≤ certBufSize

/-- The invariant between two calls. -/
structure DfInv (s : Hs κ) : Prop extends RecInv s where
  carry_fits : s.mode = .carry → s.carryOff + s.msgRem ≤ dfCarrySize
  stream_lt : s.mode = .stream → s.msgRem < 65536
  leaf_fits : s.mode = .stream → LeafFits s.csState s.csEntry s.csOff s.csNeed

/-- The cursors inside `@parse`. -/
structure Cursors (tr : List Event) (mode : DfMode)
    (recLen recOff hdrHave msgRem csNeed take : Nat) : Prop where
  safe : TraceSafe tr
  mode_eq : mode = .stream
  recLen_le : recLen ≤ recBufSize
  hdrHave_le : hdrHave ≤ 4
  msgRem_lt : msgRem < 65536
  csNeed_lt : csNeed < 65536
  take_le : take ≤ msgRem
  take_in : recOff + take ≤ recLen

/-- The invariant inside `@parse`. -/
structure StreamInv (s : Hs κ) : Prop where
  cursors : Cursors s.trace s.mode s.recLen s.recOff s.hdrHave s.msgRem s.csNeed s.take
  leaf_fits : LeafFits s.csState s.csEntry s.csOff s.csNeed

/-- A call returns in a state that satisfies the invariant. -/
def RetInv (r : Hs κ × Ret) : Prop :=
  DfInv r.1

theorem leafFits_of_ne {st : CsState} (h : st ≠ .entryData) (e o n : Nat) : LeafFits st e o n :=
  fun hst => absurd hst h

theorem StreamInv.recInv {s : Hs κ} (h : StreamInv s) : RecInv s where
  safe := h.cursors.safe
  recLen_le := h.cursors.recLen_le
  recOff_le := by
    have := h.cursors.take_in
    omega
  hdrHave_le := h.cursors.hdrHave_le
  csNeed_lt := h.cursors.csNeed_lt

theorem StreamInv.dfInv {s : Hs κ} (h : StreamInv s) : DfInv s where
  toRecInv := h.recInv
  carry_fits := by
    intro hm
    rw [h.cursors.mode_eq] at hm
    cases hm
  stream_lt := fun _ => h.cursors.msgRem_lt
  leaf_fits := fun _ => h.leaf_fits

theorem DfInv.fail {s : Hs κ} (h : DfInv s) (e : DfErr) : DfInv (dfFail s e).1 where
  safe := h.safe
  recLen_le := h.recLen_le
  recOff_le := h.recOff_le
  hdrHave_le := h.hdrHave_le
  csNeed_lt := h.csNeed_lt
  carry_fits := h.carry_fits
  stream_lt := h.stream_lt
  leaf_fits := h.leaf_fits

/-! ## Dispatch -/

/-- Back in header mode nothing but the record part is left to keep. -/
theorem dfInv_of_hdr {s : Hs κ} (h : RecInv s) (hm : s.mode = .hdr) : DfInv s where
  toRecInv := h
  carry_fits := by
    intro hc
    rw [hm] at hc
    cases hc
  stream_lt := by
    intro hc
    rw [hm] at hc
    cases hc
  leaf_fits := by
    intro hc
    rw [hm] at hc
    cases hc

theorem dfDispatch_inv (E : Env κ) (ptr : Nat) (view : Buffer) {s : Hs κ} (h : RecInv s) :
    RetInv (dfDispatch E ptr view s) := by
  unfold dfDispatch
  dsimp only
  split
  · refine DfInv.fail ?_ .type
    exact dfInv_of_hdr ⟨h.safe, h.recLen_le, h.recOff_le, Nat.zero_le _, h.csNeed_lt⟩ rfl
  · rename_i keys ok _
    have hsafe : TraceSafe (s.trace ++
        [.dispatch (s.hdr 0) (bytesAt view 4 s.msgLen) s.snap ok]) :=
      traceSafe_append.2 ⟨h.safe, traceSafe_cons.2 ⟨trivial, traceSafe_nil⟩⟩
    cases ok with
    | true =>
        exact dfInv_of_hdr ⟨hsafe, h.recLen_le, h.recOff_le, Nat.zero_le _, h.csNeed_lt⟩ rfl
    | false =>
        refine DfInv.fail ?_ .dispatch
        exact dfInv_of_hdr ⟨hsafe, h.recLen_le, h.recOff_le, Nat.zero_le _, h.csNeed_lt⟩ rfl

/-! ## The carry route -/

theorem dfChunkMin_eq (s : Hs κ) : dfChunkMin s = min s.avail s.msgRem := by
  unfold dfChunkMin
  split <;> omega

/-- Inside a pump, `df_avail` is what is left of the record. -/
structure PumpInv (s : Hs κ) : Prop extends DfInv s where
  avail_eq : s.recOff + s.avail = s.recLen

theorem recOff_lt {s : Hs κ} (h : RecInv s) : s.recLen < 65536 := by
  have h₁ := h.recLen_le
  unfold recBufSize at h₁
  omega

theorem foldRec_safe (E : Env κ) {s : Hs κ} (h : RecInv s) {n : Nat}
    (hn : s.recOff + n ≤ s.recLen) : TraceSafe (s.foldRec E n).trace := by
  refine traceSafe_append.2 ⟨h.safe, ?_⟩
  exact traceSafe_cons.2 ⟨⟨hn, h.recLen_le⟩, traceSafe_cons.2 ⟨trivial, traceSafe_nil⟩⟩

/-- `n` bytes go from the record to the carry. -/
def dfCarryChunk (E : Env κ) (s : Hs κ) (n : Nat) : Hs κ :=
  dfConsumeChunk (dfCopyCarry (s.foldRec E n) n) n

theorem dfCarryChunk_inv (E : Env κ) {s : Hs κ} (h : PumpInv s) (hm : s.mode = .carry) {n : Nat}
    (hn₁ : n ≤ s.avail) (hn₂ : n ≤ s.msgRem) : DfInv (dfCarryChunk E s n) := by
  have hfit := h.carry_fits hm
  have havail := h.avail_eq
  have hrec := recOff_lt h.toRecInv
  have hcap : dfCarrySize = 280 := rfl
  have hoff : add16 s.recOff n = s.recOff + n := add16_of_lt (by omega)
  have hcarry : add16 s.carryOff n = s.carryOff + n := add16_of_lt (by omega)
  have hrem : sub16 s.msgRem n = s.msgRem - n := sub16_of_le hn₂ (by omega)
  have hnot : s.mode ≠ .stream := by
    rw [hm]
    decide
  refine ⟨⟨?_, h.recLen_le, ?_, h.hdrHave_le, h.csNeed_lt⟩, ?_, fun hc => absurd hc hnot,
    fun hc => absurd hc hnot⟩
  · refine traceSafe_append.2 ⟨traceSafe_append.2 ⟨foldRec_safe E h.toRecInv (by omega), ?_⟩, ?_⟩
    · refine traceSafe_cons.2 ⟨⟨?_, h.recLen_le⟩, traceSafe_cons.2 ⟨?_, traceSafe_nil⟩⟩
      · show s.recOff + n ≤ s.recLen
        omega
      · show s.carryOff + n ≤ dfCarrySize
        omega
    · exact traceSafe_cons.2 ⟨hn₁, traceSafe_cons.2 ⟨hn₂, traceSafe_nil⟩⟩
  · show add16 s.recOff n ≤ s.recLen
    omega
  · intro _
    show add16 s.carryOff n + sub16 s.msgRem n ≤ dfCarrySize
    omega

theorem dfCarryBody_eq (E : Env κ) {s : Hs κ} (h : s.avail ≠ 0) :
    dfCarryBody E s =
      if (dfCarryChunk E s (dfChunkMin s)).msgRem = 0 then
        dfDispatch E E.carryBufAddr (dfCarryChunk E s (dfChunkMin s)).carryBuf
          (dfCarryChunk E s (dfChunkMin s))
      else
        dfNeedData (dfCarryChunk E s (dfChunkMin s)) := by
  unfold dfCarryBody
  rw [if_neg h]
  rfl

theorem dfCarryBody_inv (E : Env κ) {s : Hs κ} (h : PumpInv s) (hm : s.mode = .carry) :
    RetInv (dfCarryBody E s) := by
  by_cases hz : s.avail = 0
  · unfold dfCarryBody
    rw [if_pos hz]
    exact h.toDfInv
  · have hmin := dfChunkMin_eq s
    have hinv := dfCarryChunk_inv E h hm (n := dfChunkMin s) (by omega) (by omega)
    rw [dfCarryBody_eq E hz]
    split
    · exact dfDispatch_inv E _ _ hinv.toRecInv
    · exact hinv

theorem dfCarryBegin_inv {s : Hs κ} (h : PumpInv s) (hlen : s.msgRem ≤ dfCarryMaxBody) :
    PumpInv (dfCarryBegin s) := by
  have hcap : dfCarryMaxBody + 4 = dfCarrySize := rfl
  have hnot : DfMode.carry ≠ .stream := by
    decide
  refine ⟨⟨⟨?_, h.recLen_le, h.recOff_le, h.hdrHave_le, h.csNeed_lt⟩, ?_, fun hc => absurd hc hnot,
    fun hc => absurd hc hnot⟩, h.avail_eq⟩
  · refine traceSafe_append.2 ⟨h.safe, traceSafe_cons.2 ⟨?_, traceSafe_nil⟩⟩
    show 0 + 4 ≤ dfCarrySize
    omega
  · intro _
    show 4 + s.msgRem ≤ dfCarrySize
    omega

/-! ## The streamed Certificate -/

def CsState.isData : CsState → Bool
  | .entryData | .extData => true
  | _ => false

/-- How many turns of `@parse` are left at most: a data state may be left without taking a byte. -/
def csMeasure (s : Hs κ) : Nat :=
  2 * s.take + s.csState.isData.toNat

/-- What a turn of `@parse` from `s` owes. -/
def TurnInv (s : Hs κ) (t : Turn (Hs κ) (Hs κ × Ret)) : Prop :=
  t.Post (fun s' => StreamInv s' ∧ csMeasure s' < csMeasure s) RetInv

theorem Cursors.lt {tr : List Event} {mode : DfMode}
    {recLen recOff hdrHave msgRem csNeed take : Nat}
    (h : Cursors tr mode recLen recOff hdrHave msgRem csNeed take) : recLen < 65536 := by
  have := h.recLen_le
  unfold recBufSize at this
  omega

/-- Taking one byte keeps the cursors, whatever becomes of `df_cs_need`. -/
theorem dfCsTakeByte_cursors {s : Hs κ} (h : StreamInv s) (ht : s.take ≠ 0) {need : Nat}
    (hneed : need < 65536) :
    Cursors (dfCsTakeByte s).trace s.mode s.recLen (dfCsTakeByte s).recOff s.hdrHave
      (dfCsTakeByte s).msgRem need (dfCsTakeByte s).take := by
  have h₁ := h.cursors.take_le
  have h₂ := h.cursors.take_in
  have h₃ := h.cursors.msgRem_lt
  have h₄ := h.cursors.lt
  have hoff : (dfCsTakeByte s).recOff = s.recOff + 1 := add16_of_lt (by omega)
  have htake : (dfCsTakeByte s).take = s.take - 1 := sub16_of_le (by omega) (by omega)
  have hrem : (dfCsTakeByte s).msgRem = s.msgRem - 1 := sub16_of_le (by omega) (by omega)
  refine ⟨?_, h.cursors.mode_eq, h.cursors.recLen_le, h.cursors.hdrHave_le, by omega, hneed,
    by omega, by omega⟩
  refine traceSafe_append.2 ⟨h.cursors.safe, traceSafe_cons.2 ⟨⟨?_, h.cursors.recLen_le⟩,
    traceSafe_cons.2 ⟨?_, traceSafe_cons.2 ⟨?_, traceSafe_nil⟩⟩⟩⟩
  · show s.recOff + 1 ≤ s.recLen
    omega
  · show 1 ≤ s.take
    omega
  · show 1 ≤ s.msgRem
    omega

theorem dfCsTakeByte_take {s : Hs κ} (h : StreamInv s) (ht : s.take ≠ 0) :
    (dfCsTakeByte s).take + 1 = s.take := by
  have h₂ := h.cursors.take_in
  have h₄ := h.cursors.lt
  have htake : (dfCsTakeByte s).take = s.take - 1 := sub16_of_le (by omega) (by omega)
  omega

/-- A turn that takes a byte is shorter, whatever state it goes to. -/
theorem csMeasure_take {s s' : Hs κ} (h : s'.take + 1 = s.take) : csMeasure s' < csMeasure s := by
  have h₁ : s'.csState.isData.toNat ≤ 1 := Bool.toNat_le _
  unfold csMeasure
  omega

/-- A turn that leaves a data state is shorter even if it takes nothing. -/
theorem csMeasure_leave {s s' : Hs κ} (h : s'.take ≤ s.take) (hs : s.csState.isData = true)
    (hs' : s'.csState.isData = false) : csMeasure s' < csMeasure s := by
  unfold csMeasure
  rw [hs, hs']
  simp only [Bool.toNat_true, Bool.toNat_false]
  omega

theorem csMeasure_stay {s s' : Hs κ} (h : s'.take < s.take) (hs : s'.csState = s.csState) :
    csMeasure s' < csMeasure s := by
  unfold csMeasure
  rw [hs]
  omega

/-- The state after a byte was taken, outside the data states. -/
theorem dfCsTakeByte_inv {s : Hs κ} (h : StreamInv s) (ht : s.take ≠ 0)
    (hst : s.csState ≠ .entryData) : StreamInv (dfCsTakeByte s) :=
  ⟨dfCsTakeByte_cursors h ht h.cursors.csNeed_lt, leafFits_of_ne hst _ _ _⟩

theorem csCtx_inv {s : Hs κ} (h : StreamInv s) (ht : s.take ≠ 0) (hst : s.csState = .ctx) :
    TurnInv s (csCtx s) := by
  have hinv := dfCsTakeByte_inv h ht (by simp [hst])
  unfold csCtx TurnInv
  dsimp only
  split
  · exact ⟨⟨hinv.cursors, leafFits_of_ne (by simp) _ _ _⟩,
      csMeasure_take (dfCsTakeByte_take h ht)⟩
  · exact hinv.dfInv.fail _

theorem csListLen_inv {s : Hs κ} (h : StreamInv s) (ht : s.take ≠ 0)
    (hst : s.csState = .listLen) : TurnInv s (csListLen s) := by
  have hinv := dfCsTakeByte_inv h ht (by simp [hst])
  unfold csListLen TurnInv
  dsimp only
  split
  · exact hinv.dfInv.fail _
  split
  · exact ⟨⟨hinv.cursors, leafFits_of_ne (by simp) _ _ _⟩,
      csMeasure_take (dfCsTakeByte_take h ht)⟩
  · exact ⟨⟨hinv.cursors, hinv.leaf_fits⟩, csMeasure_take (dfCsTakeByte_take h ht)⟩

/-- Storing a byte of a length field moves no cursor. -/
theorem csElByte_inv {s : Hs κ} (h : StreamInv s) (b : UInt8) : StreamInv (csElByte s b) := by
  unfold csElByte
  split
  · exact h
  split
  · exact ⟨h.cursors, h.leaf_fits⟩
  · exact ⟨h.cursors, h.leaf_fits⟩

theorem csElByte_take (s : Hs κ) (b : UInt8) : (csElByte s b).take = s.take := by
  unfold csElByte
  split
  · rfl
  split <;> rfl

/-- Any length may be loaded into `df_cs_need`. -/
theorem Cursors.withNeed {tr : List Event} {mode : DfMode}
    {recLen recOff hdrHave msgRem csNeed take : Nat}
    (h : Cursors tr mode recLen recOff hdrHave msgRem csNeed take) (hi lo : UInt8) :
    Cursors tr mode recLen recOff hdrHave msgRem (word hi lo) take :=
  { h with csNeed_lt := word_lt hi lo }

theorem csElDone_inv {s s₀ : Hs κ} (h : StreamInv s) (ht : s.take + 1 = s₀.take)
    (hst : s.csState ≠ .entryData) : TurnInv s₀ (csElDone s) := by
  have hcur := h.cursors.withNeed s.csTmpHi s.csTmpLo
  unfold csElDone TurnInv
  dsimp only
  split
  · rename_i hentry
    exact ⟨⟨hcur, fun _ he => absurd he hentry⟩, csMeasure_take ht⟩
  split
  · refine DfInv.fail ?_ _
    exact StreamInv.dfInv ⟨hcur, leafFits_of_ne hst _ _ _⟩
  · rename_i hfit
    refine ⟨⟨hcur, fun _ _ => ?_⟩, csMeasure_take ht⟩
    show 0 + word s.csTmpHi s.csTmpLo ≤ certBufSize
    omega

theorem csEntryLen_inv {s : Hs κ} (h : StreamInv s) (ht : s.take ≠ 0)
    (hst : s.csState = .entryLen) : TurnInv s (csEntryLen s) := by
  have hne : s.csState ≠ .entryData := by
    simp [hst]
  have hinv := dfCsTakeByte_inv h ht hne
  have hbyte := csElByte_inv hinv (s.recBuf s.recOff)
  have htake : (csElByte (dfCsTakeByte s) (s.recBuf s.recOff)).take + 1 = s.take := by
    rw [csElByte_take, dfCsTakeByte_take h ht]
  have hst' : (csElByte (dfCsTakeByte s) (s.recBuf s.recOff)).csState ≠ .entryData := by
    unfold csElByte
    split
    · exact hne
    split <;> exact hne
  unfold csEntryLen
  dsimp only
  split
  · exact hinv.dfInv.fail _
  split
  · exact ⟨⟨hbyte.cursors, hbyte.leaf_fits⟩, csMeasure_take htake⟩
  · exact csElDone_inv ⟨hbyte.cursors, hbyte.leaf_fits⟩ htake hst'

theorem csExtLen_inv {s : Hs κ} (h : StreamInv s) (ht : s.take ≠ 0) (hst : s.csState = .extLen) :
    TurnInv s (csExtLen s) := by
  have hne : s.csState ≠ .entryData := by
    simp [hst]
  have hinv := dfCsTakeByte_inv h ht hne
  have hbyte : StreamInv (csXlByte (dfCsTakeByte s) (s.recBuf s.recOff)) := by
    unfold csXlByte
    split <;> exact ⟨hinv.cursors, hinv.leaf_fits⟩
  have htake : (csXlByte (dfCsTakeByte s) (s.recBuf s.recOff)).take + 1 = s.take := by
    rw [← dfCsTakeByte_take h ht]
    unfold csXlByte
    split <;> rfl
  unfold csExtLen
  dsimp only
  split
  · exact ⟨⟨hbyte.cursors, hbyte.leaf_fits⟩, csMeasure_take htake⟩
  · unfold csXlDone
    dsimp only
    split
    · exact ⟨⟨hbyte.cursors.withNeed _ _, leafFits_of_ne (by simp [csEntryDone]) _ _ _⟩,
        csMeasure_take htake⟩
    · exact ⟨⟨hbyte.cursors.withNeed _ _, leafFits_of_ne (by simp) _ _ _⟩, csMeasure_take htake⟩

/-! ## The data states -/

theorem dfCsMinTakeNeed_eq (s : Hs κ) : dfCsMinTakeNeed s = min s.take s.csNeed := by
  unfold dfCsMinTakeNeed
  split <;> omega

/-- The three subtractions of `df_cs_advance_n`, and its step along the record. -/
theorem dfCsAdvanceN_eqs {s : Hs κ} (h : StreamInv s) {n : Nat} (hn : n ≤ s.take)
    (hneed : n ≤ s.csNeed) :
    (dfCsAdvanceN s n).recOff = s.recOff + n ∧ (dfCsAdvanceN s n).take = s.take - n ∧
      (dfCsAdvanceN s n).msgRem = s.msgRem - n ∧ (dfCsAdvanceN s n).csNeed = s.csNeed - n := by
  have h₁ := h.cursors.take_le
  have h₂ := h.cursors.take_in
  have h₃ := h.cursors.msgRem_lt
  have h₄ := h.cursors.lt
  have h₅ := h.cursors.csNeed_lt
  exact ⟨add16_of_lt (by omega), sub16_of_le hn (by omega), sub16_of_le (by omega) (by omega),
    sub16_of_le hneed (by omega)⟩

theorem dfCsAdvanceN_cursors {s : Hs κ} (h : StreamInv s) {n : Nat} (hn : n ≤ s.take)
    (hneed : n ≤ s.csNeed) :
    Cursors (dfCsAdvanceN s n).trace s.mode s.recLen (dfCsAdvanceN s n).recOff s.hdrHave
      (dfCsAdvanceN s n).msgRem (dfCsAdvanceN s n).csNeed (dfCsAdvanceN s n).take := by
  obtain ⟨hoff, htake, hrem, hneed'⟩ := dfCsAdvanceN_eqs h hn hneed
  have h₁ := h.cursors.take_le
  have h₂ := h.cursors.take_in
  have h₃ := h.cursors.msgRem_lt
  have h₅ := h.cursors.csNeed_lt
  refine ⟨?_, h.cursors.mode_eq, h.cursors.recLen_le, h.cursors.hdrHave_le, by omega, by omega,
    by omega, by omega⟩
  exact traceSafe_append.2 ⟨h.cursors.safe, traceSafe_cons.2 ⟨hn, traceSafe_cons.2
    ⟨Nat.le_trans hn h₁, traceSafe_cons.2 ⟨hneed, traceSafe_nil⟩⟩⟩⟩

theorem csExtData_inv {s : Hs κ} (h : StreamInv s) (ht : s.take ≠ 0)
    (hst : s.csState = .extData) : TurnInv s (csExtData s) := by
  have hn : dfCsMinTakeNeed s = min s.take s.csNeed := dfCsMinTakeNeed_eq s
  have hcur := dfCsAdvanceN_cursors h (n := dfCsMinTakeNeed s) (by omega) (by omega)
  obtain ⟨_, htake, _, hneed⟩ :=
    dfCsAdvanceN_eqs h (n := dfCsMinTakeNeed s) (by omega) (by omega)
  unfold csExtData
  dsimp only
  split
  · refine ⟨⟨hcur, leafFits_of_ne (by simp [csEntryDone]) _ _ _⟩,
      csMeasure_leave ?_ (by simp [hst, CsState.isData]) (by simp [csEntryDone, CsState.isData])⟩
    show (dfCsAdvanceN s (dfCsMinTakeNeed s)).take ≤ s.take
    omega
  · rename_i hpos
    refine ⟨⟨hcur, leafFits_of_ne ?_ _ _ _⟩, csMeasure_stay ?_ rfl⟩
    · show s.csState ≠ .entryData
      simp [hst]
    · omega

theorem csEntryDataDone_inv (E : Env κ) {s s₀ : Hs κ} (h : StreamInv s) (ht : s.take ≤ s₀.take)
    (hst₀ : s₀.csState = .entryData) : TurnInv s₀ (csEntryDataDone E s) := by
  have hdata : s₀.csState.isData = true := by
    simp [hst₀, CsState.isData]
  unfold csEntryDataDone TurnInv
  dsimp only
  split
  · exact ⟨⟨h.cursors, leafFits_of_ne (by simp [csEntryToExt]) _ _ _⟩,
      csMeasure_leave ht hdata (by simp [csEntryToExt, CsState.isData])⟩
  · generalize E.tlsCertStreamFinish s.certBuf (word s.csTmpHi s.csTmpLo) s.keys = r
    have hcur : Cursors (s.trace ++ [.leaf (bytesAt s.certBuf 0 (word s.csTmpHi s.csTmpLo)) r.2])
        s.mode s.recLen s.recOff s.hdrHave s.msgRem s.csNeed s.take :=
      { h.cursors with
        safe := traceSafe_append.2
          ⟨h.cursors.safe, traceSafe_cons.2 ⟨trivial, traceSafe_nil⟩⟩ }
    split
    · exact ⟨⟨hcur, leafFits_of_ne (by simp [csEntryToExt]) _ _ _⟩,
        csMeasure_leave ht hdata (by simp [csEntryToExt, CsState.isData])⟩
    · refine DfInv.fail ?_ _
      exact StreamInv.dfInv ⟨hcur, h.leaf_fits⟩

/-- The bulk step of `@entry_data`: the leaf's bytes are copied, all are consumed. -/
def csEntryBulk (s : Hs κ) (n : Nat) : Hs κ :=
  dfCsAdvanceN (if s.csEntry = 0 then dfCsCopy s n else s) n

theorem csEntryBulk_inv {s : Hs κ} (h : StreamInv s) (hst : s.csState = .entryData) {n : Nat}
    (hn : n ≤ s.take) (hneed : n ≤ s.csNeed) :
    StreamInv (csEntryBulk s n) ∧ (csEntryBulk s n).take = s.take - n ∧
      (csEntryBulk s n).csNeed = s.csNeed - n := by
  have h₂ := h.cursors.take_in
  unfold csEntryBulk
  split
  · rename_i hleaf
    have hfit := h.leaf_fits hst hleaf
    have hcap : certBufSize = 2048 := rfl
    have hcopy : StreamInv ({ dfCsCopy s n with csOff := s.csOff } : Hs κ) := by
      refine ⟨{ h.cursors with safe := ?_ }, h.leaf_fits⟩
      refine traceSafe_append.2 ⟨h.cursors.safe, traceSafe_cons.2 ⟨⟨?_, h.cursors.recLen_le⟩,
        traceSafe_cons.2 ⟨?_, traceSafe_nil⟩⟩⟩
      · show s.recOff + n ≤ s.recLen
        omega
      · show s.csOff + (bytesAt s.recBuf s.recOff n).length ≤ certBufSize
        rw [length_bytesAt]
        omega
    have hcur := dfCsAdvanceN_cursors hcopy hn hneed
    obtain ⟨_, htake, _, hneed'⟩ := dfCsAdvanceN_eqs hcopy hn hneed
    refine ⟨⟨hcur, fun _ _ => ?_⟩, htake, hneed'⟩
    have hoff : (dfCsAdvanceN (dfCsCopy s n) n).csOff = s.csOff + n := add16_of_lt (by omega)
    have hneed'' : (dfCsAdvanceN (dfCsCopy s n) n).csNeed = s.csNeed - n := hneed'
    omega
  · rename_i hother
    obtain ⟨_, htake, _, hneed'⟩ := dfCsAdvanceN_eqs h hn hneed
    exact ⟨⟨dfCsAdvanceN_cursors h hn hneed, fun _ he => absurd he hother⟩, htake, hneed'⟩

theorem csEntryData_inv (E : Env κ) {s : Hs κ} (h : StreamInv s) (ht : s.take ≠ 0)
    (hst : s.csState = .entryData) : TurnInv s (csEntryData E s) := by
  have hn : dfCsMinTakeNeed s = min s.take s.csNeed := dfCsMinTakeNeed_eq s
  obtain ⟨hinv, htake, hneed⟩ :=
    csEntryBulk_inv h hst (n := dfCsMinTakeNeed s) (by omega) (by omega)
  have hbulk : csEntryData E s = if s.csNeed = 0 then csEntryDataDone E s
      else if (csEntryBulk s (dfCsMinTakeNeed s)).csNeed = 0 then
        csEntryDataDone E (csEntryBulk s (dfCsMinTakeNeed s))
      else .again (csEntryBulk s (dfCsMinTakeNeed s)) := rfl
  rw [hbulk]
  split
  · exact csEntryDataDone_inv E h (le_refl _) hst
  split
  · exact csEntryDataDone_inv E hinv (by omega) hst
  · refine ⟨hinv, csMeasure_stay (by omega) ?_⟩
    unfold csEntryBulk
    split <;> rfl

/-! ## The pump -/

theorem csTurn_inv (E : Env κ) {s : Hs κ} (h : StreamInv s) : TurnInv s (csTurn E s) := by
  unfold csTurn
  split
  · split
    · unfold csMsgEnd
      have hinv := h.dfInv
      split
      · exact hinv.fail _
      split
      · exact hinv.fail _
      split
      · exact hinv.fail _
      · refine dfInv_of_hdr ⟨?_, h.cursors.recLen_le, h.recInv.recOff_le, Nat.zero_le _,
          h.cursors.csNeed_lt⟩ rfl
        exact traceSafe_append.2 ⟨h.cursors.safe, traceSafe_cons.2 ⟨trivial, traceSafe_nil⟩⟩
    · exact h.dfInv
  · rename_i ht
    split
    · exact csEntryData_inv E h ht ‹_›
    · exact csExtData_inv h ht ‹_›
    · exact csCtx_inv h ht ‹_›
    · exact csListLen_inv h ht ‹_›
    · exact csEntryLen_inv h ht ‹_›
    · exact csExtLen_inv h ht ‹_›

/-- A call that returns, in a state that satisfies the invariant. -/
def Returns (r : Option (Hs κ × Ret)) : Prop :=
  ∃ x, r = some x ∧ RetInv x

theorem dfStreamBody_inv (E : Env κ) {s : Hs κ} (h : PumpInv s) (hm : s.mode = .stream) :
    Returns (dfStreamBody E s) := by
  unfold dfStreamBody
  split
  · exact ⟨_, rfl, h.toDfInv⟩
  · have hmin := dfChunkMin_eq s
    have havail := h.avail_eq
    have hlt := h.stream_lt hm
    dsimp only
    have hinv : StreamInv (({ s with take := dfChunkMin s } : Hs κ).foldRec E (dfChunkMin s)) := by
      refine ⟨⟨?_, hm, h.recLen_le, h.hdrHave_le, hlt, h.csNeed_lt, ?_, ?_⟩, h.leaf_fits hm⟩
      · refine traceSafe_append.2 ⟨h.safe, traceSafe_cons.2 ⟨⟨?_, h.recLen_le⟩,
          traceSafe_cons.2 ⟨trivial, traceSafe_nil⟩⟩⟩
        show s.recOff + dfChunkMin s ≤ s.recLen
        omega
      · show dfChunkMin s ≤ s.msgRem
        omega
      · show s.recOff + dfChunkMin s ≤ s.recLen
        omega
    refine loop_total StreamInv RetInv csMeasure (fun s hs => csTurn_inv E hs) _ _ hinv ?_
    have hle : ∀ x : CsState, x.isData.toNat ≤ 1 := fun x => Bool.toNat_le _
    unfold csMeasure csFuel
    have := hle (({ s with take := dfChunkMin s } : Hs κ).foldRec E (dfChunkMin s)).csState
    omega

/-- The streamed consumer starts with nothing of the leaf under way. -/
theorem dfStreamBegin_pumpInv {s : Hs κ} (h : PumpInv s) (hrem : s.msgRem < 65536) :
    PumpInv { s with mode := .stream, csState := .ctx, csIdx := 0, csEntry := 0, csOff := 0 } := by
  refine ⟨⟨⟨h.safe, h.recLen_le, h.recOff_le, h.hdrHave_le, h.csNeed_lt⟩, ?_, fun _ => hrem,
    fun _ => leafFits_of_ne (by simp) _ _ _⟩, h.avail_eq⟩
  intro hc
  cases hc

theorem dfStreamBegin_inv (E : Env κ) {s : Hs κ} (h : PumpInv s) (hrem : s.msgRem < 65536) :
    Returns (dfStreamBegin E s) :=
  dfStreamBody_inv E (dfStreamBegin_pumpInv h hrem) rfl

/-- The record, with the body of a message that lies in it folded and stepped over. -/
def dfInPlaceTaken (E : Env κ) (s : Hs κ) : Hs κ :=
  { s.foldRec E s.msgLen with recOff := add16 s.recOff s.msgLen }

theorem dfInPlaceTaken_inv (E : Env κ) {s : Hs κ} (h : PumpInv s) (hfit : s.msgLen ≤ s.avail) :
    RecInv (dfInPlaceTaken E s) := by
  have havail := h.avail_eq
  have hrec := recOff_lt h.toRecInv
  have hoff : add16 s.recOff s.msgLen = s.recOff + s.msgLen := add16_of_lt (by omega)
  refine ⟨foldRec_safe E h.toRecInv (by omega), h.recLen_le, ?_, h.hdrHave_le, h.csNeed_lt⟩
  show add16 s.recOff s.msgLen ≤ s.recLen
  omega

/-- `@in_place` is only reached with the whole body in the record. -/
theorem dfInPlace_inv (E : Env κ) {s : Hs κ} (h : PumpInv s) (hfit : s.msgLen ≤ s.avail) :
    RetInv (dfInPlace E s) :=
  dfDispatch_inv E _ _ (dfInPlaceTaken_inv E h hfit)

theorem dfHdrFold_inv (E : Env κ) {s : Hs κ} (h : PumpInv s) (hm : s.mode = .hdr) :
    PumpInv (dfHdrFold E s) := by
  refine ⟨dfInv_of_hdr ⟨?_, h.recLen_le, h.recOff_le, h.hdrHave_le, h.csNeed_lt⟩ hm, h.avail_eq⟩
  exact traceSafe_append.2 ⟨h.safe, traceSafe_cons.2
    ⟨trivial, traceSafe_cons.2 ⟨trivial, traceSafe_nil⟩⟩⟩

theorem dfHdrComplete_inv (E : Env κ) {s : Hs κ} (h : PumpInv s) (hm : s.mode = .hdr) :
    Returns (dfHdrComplete E s) := by
  have hfold := dfHdrFold_inv E h hm
  have hrem : (dfHdrFold E s).msgRem < 65536 := word_lt _ _
  unfold dfHdrComplete
  split
  · exact ⟨_, rfl, h.toDfInv.fail _⟩
  split
  · exact ⟨_, rfl, h.toDfInv.fail _⟩
  · unfold dfRoute
    split
    · rename_i hin
      exact ⟨_, rfl, dfInPlace_inv E hfold hin.2⟩
    split
    · exact dfStreamBegin_inv E hfold hrem
    split
    · exact ⟨_, rfl, hfold.toDfInv.fail _⟩
    · rename_i hlen
      have hlen' : (dfHdrFold E s).msgRem ≤ dfCarryMaxBody := Nat.le_of_not_lt hlen
      exact ⟨_, rfl, dfCarryBody_inv E (dfCarryBegin_inv hfold hlen') rfl⟩

/-- The header loop: at most four turns, each taking one byte of the record. -/
theorem hdrTurn_inv {s : Hs κ} (h : PumpInv s ∧ s.mode = .hdr) :
    (hdrTurn s).Post (fun s' => (PumpInv s' ∧ s'.mode = .hdr) ∧ 4 - s'.hdrHave < 4 - s.hdrHave)
      (fun r => PumpInv r.1 ∧ r.1.mode = .hdr) := by
  obtain ⟨h, hm⟩ := h
  unfold hdrTurn
  split
  · exact ⟨h, hm⟩
  split
  · split
    · exact ⟨h, hm⟩
    · exact ⟨⟨dfInv_of_hdr ⟨h.safe, h.recLen_le, h.recOff_le, h.hdrHave_le, h.csNeed_lt⟩ hm,
        h.avail_eq⟩, hm⟩
  · have havail := h.avail_eq
    have hrec := recOff_lt h.toRecInv
    have hoff : (dfHdrByte s).recOff = s.recOff + 1 := add16_of_lt (by omega)
    have hav : (dfHdrByte s).avail = s.avail - 1 := sub16_of_le (by omega) (by omega)
    have hhave : (dfHdrByte s).hdrHave = s.hdrHave + 1 := inc8_of_lt (by omega)
    have hsafe : TraceSafe (dfHdrByte s).trace := by
      refine traceSafe_append.2 ⟨h.safe, traceSafe_cons.2 ⟨⟨?_, h.recLen_le⟩,
        traceSafe_cons.2 ⟨?_, traceSafe_nil⟩⟩⟩
      · show s.recOff + 1 ≤ s.recLen
        omega
      · show 1 ≤ s.avail
        omega
    have hlen : (dfHdrByte s).recLen = s.recLen := rfl
    have hrecInv : RecInv (dfHdrByte s) :=
      ⟨hsafe, h.recLen_le, by omega, by omega, h.csNeed_lt⟩
    exact ⟨⟨⟨dfInv_of_hdr hrecInv hm, by omega⟩, hm⟩, by omega⟩

theorem tlsDeframePump_inv (E : Env κ) {s : Hs κ} (h : DfInv s) :
    Returns (tlsDeframePump E s) := by
  have hlen := h.recOff_le
  have hrec := recOff_lt h.toRecInv
  have hav : (dfAvail s).avail = s.recLen - s.recOff := sub16_of_le hlen hrec
  have hpump : PumpInv (dfAvail s) := by
    refine ⟨⟨⟨?_, h.recLen_le, h.recOff_le, h.hdrHave_le, h.csNeed_lt⟩, h.carry_fits,
      h.stream_lt, h.leaf_fits⟩, ?_⟩
    · exact traceSafe_append.2 ⟨h.safe, traceSafe_cons.2 ⟨hlen, traceSafe_nil⟩⟩
    · show s.recOff + (dfAvail s).avail = s.recLen
      omega
  have hmode : (dfAvail s).mode = s.mode := rfl
  unfold tlsDeframePump
  dsimp only
  split
  · rename_i hm
    obtain ⟨⟨s', done⟩, hr, hpost⟩ :=
      loop_total (fun s : Hs κ => PumpInv s ∧ s.mode = .hdr)
        (fun r : Hs κ × Bool => PumpInv r.1 ∧ r.1.mode = .hdr) (fun s : Hs κ => 4 - s.hdrHave)
        (fun s hs => hdrTurn_inv hs) 5 (dfAvail s) ⟨hpump, hm⟩ (by omega)
    rw [hr]
    cases done with
    | true => exact dfHdrComplete_inv E hpost.1 hpost.2
    | false => exact ⟨_, rfl, hpost.1.toDfInv⟩
  · exact ⟨_, rfl, dfCarryBody_inv E hpump ‹_›⟩
  · exact dfStreamBody_inv E hpump ‹_›

/-! ## The frame -/

/-- Steps whose writes respect the two buffers write nothing outside them.  A safe trace is safe up to every
step, so the steps of a call compose. -/
def Frame (s s' : Hs κ) : Prop :=
  TraceSafe s'.trace → TraceSafe s.trace ∧ (∀ i, dfCarrySize ≤ i → s'.carryBuf i = s.carryBuf i) ∧
    ∀ i, certBufSize ≤ i → s'.certBuf i = s.certBuf i

section Frame

variable {s s' : Hs κ}

theorem Frame.refl (s : Hs κ) : Frame s s :=
  fun h => ⟨h, fun _ _ => rfl, fun _ _ => rfl⟩

theorem Frame.trans {s₁ s₂ s₃ : Hs κ} (h : Frame s₁ s₂) (h' : Frame s₂ s₃) : Frame s₁ s₃ := by
  intro hsafe
  -- the trace of the second step begins with that of the first, so its safety is passed back
  obtain ⟨hmid, hcarry', hcert'⟩ := h' hsafe
  obtain ⟨hfirst, hcarry, hcert⟩ := h hmid
  exact ⟨hfirst, fun i hi => (hcarry' i hi).trans (hcarry i hi),
    fun i hi => (hcert' i hi).trans (hcert i hi)⟩

/-- A step that writes to neither buffer. -/
theorem Frame.quiet (tr : List Event) (htrace : s'.trace = s.trace ++ tr)
    (hcarry : s'.carryBuf = s.carryBuf) (hcert : s'.certBuf = s.certBuf) : Frame s s' := by
  intro hsafe
  rw [htrace] at hsafe
  rw [hcarry, hcert]
  exact ⟨(traceSafe_append.1 hsafe).1, fun _ _ => rfl, fun _ _ => rfl⟩

theorem Frame.still (htrace : s'.trace = s.trace) (hcarry : s'.carryBuf = s.carryBuf)
    (hcert : s'.certBuf = s.certBuf) : Frame s s' :=
  .quiet [] (by rw [htrace, List.append_nil]) hcarry hcert

theorem dfFail_framed (s : Hs κ) (e : DfErr) : Frame s (dfFail s e).1 :=
  .still rfl rfl rfl

theorem foldRec_framed (E : Env κ) (s : Hs κ) (n : Nat) : Frame s (s.foldRec E n) :=
  .quiet _ rfl rfl rfl

theorem dfDispatch_framed (E : Env κ) (ptr : Nat) (view : Buffer) (s : Hs κ) :
    Frame s (dfDispatch E ptr view s).1 := by
  unfold dfDispatch
  dsimp only
  split
  · exact .still rfl rfl rfl
  · rename_i keys ok _
    cases ok with
    | true => exact .quiet _ rfl rfl rfl
    | false => exact .quiet _ rfl rfl rfl

/-- A write to `df_carry_buf`, with the event that reports it. -/
theorem Frame.carry (off : Nat) (bs : List UInt8) (tr : List Event)
    (htrace : s'.trace = s.trace ++ tr) (hmem : Event.carryWrite off bs.length ∈ tr)
    (hcarry : s'.carryBuf = store s.carryBuf off bs) (hcert : s'.certBuf = s.certBuf) : Frame s s' := by
  intro hsafe
  rw [htrace] at hsafe
  obtain ⟨hfirst, hnew⟩ := traceSafe_append.1 hsafe
  -- the event of the write says where it ends
  have hfit : off + bs.length ≤ dfCarrySize := hnew _ hmem
  refine ⟨hfirst, fun i hi => ?_, fun i _ => by rw [hcert]⟩
  rw [hcarry]
  exact store_of_outside _ (Or.inr (by omega))

/-- A write to `cert_buf`. -/
theorem dfCsCopy_framed (s : Hs κ) (n : Nat) : Frame s (dfCsCopy s n) := by
  intro hsafe
  obtain ⟨hfirst, hnew⟩ := traceSafe_append.1 hsafe
  have hfit : s.csOff + (bytesAt s.recBuf s.recOff n).length ≤ certBufSize :=
    hnew (.certWrite s.csOff (bytesAt s.recBuf s.recOff n)) (List.mem_cons_of_mem _ List.mem_cons_self)
  exact ⟨hfirst, fun _ _ => rfl, fun i hi => store_of_outside _ (Or.inr (by omega))⟩

theorem dfCarryBegin_framed (s : Hs κ) : Frame s (dfCarryBegin s) :=
  .carry 0 (bytesAt s.hdr 0 4) _ rfl (by rw [length_bytesAt]; exact List.mem_cons_self) rfl rfl

theorem dfCopyCarry_framed (s : Hs κ) (n : Nat) : Frame s (dfCopyCarry s n) :=
  .carry s.carryOff (bytesAt s.recBuf s.recOff n) _ rfl
    (by rw [length_bytesAt]; exact List.mem_cons_of_mem _ List.mem_cons_self) rfl rfl

theorem dfCarryChunk_framed (E : Env κ) (s : Hs κ) (n : Nat) : Frame s (dfCarryChunk E s n) :=
  ((foldRec_framed E s n).trans (dfCopyCarry_framed _ n)).trans (.quiet _ rfl rfl rfl)

theorem dfCarryBody_framed (E : Env κ) (s : Hs κ) : Frame s (dfCarryBody E s).1 := by
  by_cases hz : s.avail = 0
  · unfold dfCarryBody
    rw [if_pos hz]
    exact .refl s
  · rw [dfCarryBody_eq E hz]
    split
    · exact (dfCarryChunk_framed E s _).trans (dfDispatch_framed E _ _ _)
    · exact dfCarryChunk_framed E s _

/-- What a turn of `@parse` from `s` leaves outside the buffers. -/
def TurnFrame (s : Hs κ) (t : Turn (Hs κ) (Hs κ × Ret)) : Prop :=
  t.Post (Frame s) fun r => Frame s r.1

theorem TurnFrame.after {s₁ s₂ : Hs κ} {t : Turn (Hs κ) (Hs κ × Ret)} (h : Frame s₁ s₂)
    (ht : TurnFrame s₂ t) : TurnFrame s₁ t :=
  ht.mono (fun _ h' => h.trans h') fun _ h' => h.trans h'

theorem dfCsTakeByte_framed (s : Hs κ) : Frame s (dfCsTakeByte s) :=
  .quiet _ rfl rfl rfl

theorem dfCsAdvanceN_framed (s : Hs κ) (n : Nat) : Frame s (dfCsAdvanceN s n) :=
  .quiet _ rfl rfl rfl

theorem csCtx_framed (s : Hs κ) : TurnFrame s (csCtx s) := by
  unfold csCtx
  dsimp only
  split
  · exact (dfCsTakeByte_framed s).trans (.still rfl rfl rfl)
  · exact (dfCsTakeByte_framed s).trans (dfFail_framed _ _)

theorem csListLen_framed (s : Hs κ) : TurnFrame s (csListLen s) := by
  unfold csListLen
  dsimp only
  split
  · exact (dfCsTakeByte_framed s).trans (dfFail_framed _ _)
  split
  · exact (dfCsTakeByte_framed s).trans (.still rfl rfl rfl)
  · exact (dfCsTakeByte_framed s).trans (.still rfl rfl rfl)

theorem csElByte_framed (s : Hs κ) (b : UInt8) : Frame s (csElByte s b) := by
  unfold csElByte
  split
  · exact .refl s
  split
  · exact .still rfl rfl rfl
  · exact .still rfl rfl rfl

theorem csElDone_framed (s : Hs κ) : TurnFrame s (csElDone s) := by
  unfold csElDone
  dsimp only
  split
  · exact .still rfl rfl rfl
  split
  · exact .still rfl rfl rfl
  · exact .still rfl rfl rfl

theorem csEntryLen_framed (s : Hs κ) : TurnFrame s (csEntryLen s) := by
  have hbyte := (dfCsTakeByte_framed s).trans (csElByte_framed (dfCsTakeByte s) (s.recBuf s.recOff))
  unfold csEntryLen
  dsimp only
  split
  · exact (dfCsTakeByte_framed s).trans (dfFail_framed _ _)
  split
  · exact hbyte.trans (.still rfl rfl rfl)
  · exact (csElDone_framed _).after (hbyte.trans (.still rfl rfl rfl))

theorem csExtLen_framed (s : Hs κ) : TurnFrame s (csExtLen s) := by
  have hbyte : Frame s (csXlByte (dfCsTakeByte s) (s.recBuf s.recOff)) := by
    unfold csXlByte
    split
    · exact (dfCsTakeByte_framed s).trans (.still rfl rfl rfl)
    · exact (dfCsTakeByte_framed s).trans (.still rfl rfl rfl)
  unfold csExtLen csXlDone
  dsimp only
  split
  · exact hbyte.trans (.still rfl rfl rfl)
  split
  · exact hbyte.trans (.still rfl rfl rfl)
  · exact hbyte.trans (.still rfl rfl rfl)

theorem csExtData_framed (s : Hs κ) : TurnFrame s (csExtData s) := by
  unfold csExtData
  dsimp only
  split
  · exact (dfCsAdvanceN_framed s _).trans (.still rfl rfl rfl)
  · exact dfCsAdvanceN_framed s _

theorem csEntryDataDone_framed (E : Env κ) (s : Hs κ) : TurnFrame s (csEntryDataDone E s) := by
  unfold csEntryDataDone
  dsimp only
  split
  · exact .still rfl rfl rfl
  split
  · exact .quiet _ rfl rfl rfl
  · exact .quiet _ rfl rfl rfl

theorem csEntryBulk_framed (s : Hs κ) (n : Nat) : Frame s (csEntryBulk s n) := by
  unfold csEntryBulk
  split
  · exact (dfCsCopy_framed s n).trans (dfCsAdvanceN_framed _ n)
  · exact dfCsAdvanceN_framed s n

theorem csEntryData_framed (E : Env κ) (s : Hs κ) : TurnFrame s (csEntryData E s) := by
  have hbulk : csEntryData E s = if s.csNeed = 0 then csEntryDataDone E s
      else if (csEntryBulk s (dfCsMinTakeNeed s)).csNeed = 0 then
        csEntryDataDone E (csEntryBulk s (dfCsMinTakeNeed s))
      else .again (csEntryBulk s (dfCsMinTakeNeed s)) := rfl
  rw [hbulk]
  split
  · exact csEntryDataDone_framed E s
  split
  · exact (csEntryDataDone_framed E _).after (csEntryBulk_framed s _)
  · exact csEntryBulk_framed s _

theorem csMsgEnd_framed (s : Hs κ) : Frame s (csMsgEnd s).1 := by
  unfold csMsgEnd
  split
  · exact dfFail_framed s _
  split
  · exact dfFail_framed s _
  split
  · exact dfFail_framed s _
  · exact .quiet _ rfl rfl rfl

theorem csTurn_framed (E : Env κ) (s : Hs κ) : TurnFrame s (csTurn E s) := by
  unfold csTurn
  split
  · split
    · exact csMsgEnd_framed s
    · exact .refl s
  · split
    · exact csEntryData_framed E s
    · exact csExtData_framed s
    · exact csCtx_framed s
    · exact csListLen_framed s
    · exact csEntryLen_framed s
    · exact csExtLen_framed s

theorem dfStreamBody_framed (E : Env κ) (s : Hs κ) {r : Hs κ × Ret} (h : dfStreamBody E s = some r) :
    Frame s r.1 := by
  unfold dfStreamBody at h
  split at h
  · cases h
    exact .refl s
  · have hstart : Frame s (({ s with take := dfChunkMin s } : Hs κ).foldRec E (dfChunkMin s)) :=
      .quiet _ rfl rfl rfl
    exact @loop_rule _ _ (csTurn E) (Frame s) (fun r => Frame s r.1)
      (fun s' hs' => TurnFrame.after hs' (csTurn_framed E s')) _ _ r hstart h

theorem dfHdrComplete_framed (E : Env κ) (s : Hs κ) {r : Hs κ × Ret} (h : dfHdrComplete E s = some r) :
    Frame s r.1 := by
  have hfold : Frame s (dfHdrFold E s) := .quiet _ rfl rfl rfl
  unfold dfHdrComplete at h
  split at h
  · cases h
    exact dfFail_framed s _
  split at h
  · cases h
    exact dfFail_framed s _
  unfold dfRoute at h
  split at h
  · cases h
    have htaken : Frame (dfHdrFold E s) (dfInPlaceTaken E (dfHdrFold E s)) := .quiet _ rfl rfl rfl
    exact (hfold.trans htaken).trans (dfDispatch_framed E _ _ (dfInPlaceTaken E (dfHdrFold E s)))
  split at h
  · have hbegin : Frame (dfHdrFold E s) { dfHdrFold E s with
        mode := .stream, csState := .ctx, csIdx := 0, csEntry := 0, csOff := 0 } := .still rfl rfl rfl
    exact (hfold.trans hbegin).trans (dfStreamBody_framed E _ h)
  split at h
  · cases h
    exact hfold.trans (dfFail_framed _ _)
  · cases h
    exact (hfold.trans (dfCarryBegin_framed _)).trans (dfCarryBody_framed E _)

theorem hdrTurn_framed (s : Hs κ) : (hdrTurn s).Post (Frame s) fun r => Frame s r.1 := by
  unfold hdrTurn
  split
  · exact .refl s
  split
  · show Frame s (if s.hdrHave = 0 then s else { s with hdrSplit := true })
    split
    · exact .refl s
    · exact .still rfl rfl rfl
  · exact .quiet _ rfl rfl rfl

/-- A call of the pump writes nothing outside the two buffers. -/
theorem tlsDeframePump_framed (E : Env κ) (s : Hs κ) {r : Hs κ × Ret} (h : tlsDeframePump E s = some r) :
    Frame s r.1 := by
  have havail : Frame s (dfAvail s) := .quiet _ rfl rfl rfl
  -- the header loop, wherever it leaves
  have hhdr : ∀ r, loop hdrTurn 5 (dfAvail s) = some r → Frame s r.1 := fun r =>
    loop_rule (Frame s) (fun r => Frame s r.1)
      (fun s' hs' => (hdrTurn_framed s').mono (fun _ h' => hs'.trans h') fun _ h' => hs'.trans h')
      5 (dfAvail s) r havail
  unfold tlsDeframePump at h
  dsimp only at h
  split at h
  · split at h
    · cases h
    · rename_i u hloop
      exact (hhdr _ hloop).trans (dfHdrComplete_framed E u h)
    · rename_i u hloop
      cases h
      exact hhdr _ hloop
  · cases h
    exact havail.trans (dfCarryBody_framed E _)
  · exact havail.trans (dfStreamBody_framed E _ h)

end Frame

/-! ## Reachable states -/

/-- A fresh handshake: `tls_deframe_init` on any contents of the module's storage. -/
def DfStart (s' : Hs κ) : Prop :=
  ∃ s : Hs κ, s.trace = [] ∧ s.recLen ≤ recBufSize ∧ s.csNeed < 65536 ∧ s' = tlsDeframeInit s

/-- What happens to the deframer: a new record, a pump, or anything its callers do to the state
around it (`tls_state`, the transcript, the keys, `cert_buf`). -/
inductive DfStep (E : Env κ) : Hs κ → Hs κ → Prop where
  | record (s : Hs κ) (buf : Buffer) (len : Nat) (h : len ≤ recBufSize) :
      DfStep E s (tlsDeframeNewRecord { s with recBuf := buf, recLen := len })
  | pump (s s' : Hs κ) (r : Ret) (h : tlsDeframePump E s = some (s', r)) : DfStep E s s'
  | around (s : Hs κ) (st : TlsState) (t : Transcript) (snap : List UInt8) (keys : κ)
      (cert : Buffer) :
      DfStep E s { s with
        tlsState := st, transcript := t, snap := snap, keys := keys, certBuf := cert }

abbrev DfReachable (E : Env κ) : Hs κ → Prop :=
  Reachable DfStart (DfStep E)

theorem DfStart.inv {s : Hs κ} (h : DfStart s) : DfInv s := by
  rcases h with ⟨s, htr, hlen, hneed, rfl⟩
  refine dfInv_of_hdr ⟨?_, hlen, le_refl _, Nat.zero_le _, hneed⟩ rfl
  show TraceSafe s.trace
  rw [htr]
  exact traceSafe_nil

theorem DfReachable.inv {E : Env κ} {s : Hs κ} (h : DfReachable E s) : DfInv s := by
  refine h.invariant DfInv (fun s hs => hs.inv) ?_
  intro s s' hinv hstep
  cases hstep with
  | record buf len hlen =>
      exact ⟨⟨hinv.safe, hlen, Nat.zero_le _, hinv.hdrHave_le, hinv.csNeed_lt⟩,
        hinv.carry_fits, hinv.stream_lt, hinv.leaf_fits⟩
  | pump _ r hp =>
      obtain ⟨x, hx, hret⟩ := tlsDeframePump_inv E hinv
      rw [hp] at hx
      cases hx
      exact hret
  | around st t snap keys cert =>
      exact ⟨⟨hinv.safe, hinv.recLen_le, hinv.recOff_le, hinv.hdrHave_le, hinv.csNeed_lt⟩,
        hinv.carry_fits, hinv.stream_lt, hinv.leaf_fits⟩

/-- In every reachable state the record offset lies within the record, everything the deframer has
read, written and subtracted so far was in bounds, and the next pump terminates and writes nothing outside
the carry buffer and `cert_buf`. -/
theorem deframer_safe (E : Env κ) {s : Hs κ} (h : DfReachable E s) :
    s.recOff ≤ s.recLen ∧ s.recLen ≤ recBufSize ∧ s.hdrHave ≤ 4 ∧ TraceSafe s.trace ∧
      ∃ s' r, tlsDeframePump E s = some (s', r) ∧
        (∀ i, dfCarrySize ≤ i → s'.carryBuf i = s.carryBuf i) ∧
          ∀ i, certBufSize ≤ i → s'.certBuf i = s.certBuf i := by
  have hinv := h.inv
  obtain ⟨x, hx, hret⟩ := tlsDeframePump_inv E hinv
  exact ⟨hinv.recOff_le, hinv.recLen_le, hinv.hdrHave_le, hinv.safe, x.1, x.2, hx,
    (tlsDeframePump_framed E s hx hret.safe).2⟩

/-- A record of seven bytes, just arrived on a fresh deframer: EncryptedExtensions of one byte, and the
beginning of another message. -/
def firstRecord : Hs Unit :=
  tlsDeframeNewRecord
    { tlsDeframeInit { Hs.blank () with tlsState := .encryptedExt } with
      recBuf := ofList [8, 0, 0, 1, 0, 11, 0] (fun _ => 0), recLen := 7 }

/-- The pump has dispatched the first message. -/
def firstMessage : Hs Unit :=
  ((tlsDeframePump Env.accepting firstRecord).map Prod.fst).getD firstRecord

theorem firstMessage_reachable : DfReachable Env.accepting firstMessage := by
  have hrecord : DfReachable Env.accepting firstRecord := by
    refine .next (.start ?_) (.record _ _ _ (by decide))
    exact ⟨{ Hs.blank () with tlsState := .encryptedExt }, rfl, by decide, by decide, rfl⟩
  obtain ⟨⟨s', r⟩, hpump, -⟩ := tlsDeframePump_inv Env.accepting hrecord.inv
  have hstate : firstMessage = s' := by
    unfold firstMessage
    rw [hpump]
    rfl
  rw [hstate]
  exact .next hrecord (.pump _ _ r hpump)

theorem deframer_safe_firstRecord :
    firstMessage.trace.length = 14 ∧ firstMessage.recOff = 5 ∧
      firstMessage.recOff ≤ firstMessage.recLen ∧ firstMessage.recLen ≤ recBufSize ∧
        firstMessage.hdrHave ≤ 4 ∧ TraceSafe firstMessage.trace ∧
          ∃ s' r, tlsDeframePump Env.accepting firstMessage = some (s', r) ∧
            (∀ i, dfCarrySize ≤ i → s'.carryBuf i = firstMessage.carryBuf i) ∧
              ∀ i, certBufSize ≤ i → s'.certBuf i = firstMessage.certBuf i :=
  ⟨by decide +kernel, by decide +kernel, deframer_safe Env.accepting firstMessage_reachable⟩

end Tls
end C64Https
