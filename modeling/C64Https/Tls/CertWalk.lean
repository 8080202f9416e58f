import C64Https.Tls.Deframe

/-!
# CertWalk — the streamed Certificate, one byte at a time

`@parse` consumes the Certificate in whatever chunks the records and the declared lengths cut it
into.  `Walk` is the part of the deframer's state that decides what becomes of a byte, and
`Walk.byte` the machine that takes one byte a step; the chunked loop refines it (see `CertStream`),
so what holds of the machine on a whole certificate list holds for every way of delivering it.

`copied` and `leaves` record what went into `cert_buf` and what the key extractor was handed.
-/

namespace C64Https
namespace Tls

open Word Loop Bytes

structure Walk (κ : Type) where
  copied : List UInt8
  leaves : List (List UInt8 × Bool)
  csState : CsState
  csIdx : Nat
  csTmpHi : UInt8
  csTmpLo : UInt8
  csNeed : Nat
  csEntry : Nat
  csOff : Nat
  certBuf : Buffer
  keys : κ

variable {κ : Type}

namespace Walk

def toExt (w : Walk κ) : Walk κ :=
  { w with csState := .extLen, csIdx := 0 }

def nextEntry (w : Walk κ) : Walk κ :=
  { w with csEntry := inc8 w.csEntry, csState := .entryLen, csIdx := 0 }

/-- The extractor runs on the leaf in `cert_buf`. -/
def extract (E : Env κ) (w : Walk κ) : Walk κ × Bool :=
  let len := word w.csTmpHi w.csTmpLo
  let r := E.tlsCertStreamFinish w.certBuf len w.keys
  ({ w with keys := r.1, leaves := w.leaves ++ [(bytesAt w.certBuf 0 len, r.2)] }, r.2)

def dataDone (E : Env κ) (w : Walk κ) : Turn (Walk κ) (Walk κ × DfErr) :=
  if w.csEntry ≠ 0 then
    .again w.toExt
  else if (w.extract E).2 then
    .again (w.extract E).1.toExt
  else
    .leave ((w.extract E).1, .certFmt)

/-- An empty `cert_data` is only noticed when the next byte arrives. -/
def settle (E : Env κ) (w : Walk κ) : Turn (Walk κ) (Walk κ × DfErr) :=
  if w.csState = .entryData ∧ w.csNeed = 0 then w.dataDone E else .again w

/-- Bytes of a `cert_data` field: the leaf's are copied. -/
def data (w : Walk κ) (bs : List UInt8) : Walk κ :=
  { w with
    copied := w.copied ++ if w.csEntry = 0 then bs else []
    certBuf := if w.csEntry = 0 then store w.certBuf w.csOff bs else w.certBuf
    csOff := if w.csEntry = 0 then w.csOff + bs.length else w.csOff
    csNeed := w.csNeed - bs.length }

def skip (w : Walk κ) (n : Nat) : Walk κ :=
  { w with csNeed := w.csNeed - n }

def elByte (w : Walk κ) (b : UInt8) : Walk κ :=
  if w.csIdx = 0 then w
  else if w.csIdx = 1 then { w with csTmpHi := b }
  else { w with csTmpLo := b }

/-- The length of an entry's `cert_data` is known. -/
def elDone (w : Walk κ) : Turn (Walk κ) (Walk κ × DfErr) :=
  let w := { w with csNeed := word w.csTmpHi w.csTmpLo, csIdx := 0 }
  if w.csEntry ≠ 0 then
    .again { w with csState := .entryData }
  else if certBufSize < w.csNeed then
    .leave (w, .certTooBig)
  else
    .again { w with csOff := 0, csState := .entryData }

def xlByte (w : Walk κ) (b : UInt8) : Walk κ :=
  if w.csIdx = 0 then { w with csTmpHi := b } else { w with csTmpLo := b }

/-- The length of an entry's extensions is known. -/
def xlDone (w : Walk κ) : Turn (Walk κ) (Walk κ × DfErr) :=
  let w := { w with csNeed := word w.csTmpHi w.csTmpLo, csIdx := 0 }
  if w.csNeed = 0 then .again w.nextEntry else .again { w with csState := .extData }

/-- What one byte does in a settled state. -/
def step (E : Env κ) (w : Walk κ) (b : UInt8) : Turn (Walk κ) (Walk κ × DfErr) :=
  match w.csState with
  | .ctx =>
      if b = 0 then .again { w with csState := .listLen, csIdx := 0 } else .leave (w, .certFmt)
  | .listLen =>
      if w.csIdx = 0 ∧ b ≠ 0 then .leave (w, .certFmt)
      else if inc8 w.csIdx = 3 then .again { w with csState := .entryLen, csIdx := 0 }
      else .again { w with csIdx := inc8 w.csIdx }
  | .entryLen =>
      if w.csIdx = 0 ∧ b ≠ 0 then .leave (w, .certFmt)
      else
        let w := { w.elByte b with csIdx := inc8 (w.elByte b).csIdx }
        if w.csIdx ≠ 3 then .again w else w.elDone
  | .entryData =>
      let w := w.data [b]
      if w.csNeed = 0 then w.dataDone E else .again w
  | .extLen =>
      let w := { w.xlByte b with csIdx := inc8 (w.xlByte b).csIdx }
      if w.csIdx ≠ 2 then .again w else w.xlDone
  | .extData =>
      let w := w.skip 1
      if w.csNeed = 0 then .again w.nextEntry else .again w

def byte (E : Env κ) (w : Walk κ) (b : UInt8) : Turn (Walk κ) (Walk κ × DfErr) :=
  (w.settle E).bind fun w => w.step E b

/-- The machine on a string of bytes. -/
def run (E : Env κ) (w : Walk κ) (bs : List UInt8) : Turn (Walk κ) (Walk κ × DfErr) :=
  feed (byte E) w bs

/-- The start of a Certificate body. -/
def AtStart (w : Walk κ) : Prop :=
  w.csState = .ctx ∧ w.csIdx = 0 ∧ w.csEntry = 0

/-- What `@msg_end` asks for. -/
def Complete (w : Walk κ) : Prop :=
  w.csState = .entryLen ∧ w.csIdx = 0 ∧ w.csEntry ≠ 0

instance (w : Walk κ) : Decidable w.Complete :=
  inferInstanceAs (Decidable (_ ∧ _ ∧ _))

/-! ## Runs -/

variable {E : Env κ}

@[simp] theorem run_nil (w : Walk κ) : w.run E [] = .again w :=
  rfl

theorem run_cons (w : Walk κ) (b : UInt8) (bs : List UInt8) :
    w.run E (b :: bs) = (w.byte E b).bind fun w' => w'.run E bs :=
  rfl

theorem run_append (w : Walk κ) (as bs : List UInt8) :
    w.run E (as ++ bs) = (w.run E as).bind fun w' => w'.run E bs :=
  feed_append w as bs

theorem settle_eq (w : Walk κ) (h : w.csState = .entryData → w.csNeed ≠ 0) :
    w.settle E = .again w := by
  unfold settle
  rw [if_neg]
  rintro ⟨hst, hneed⟩
  exact h hst hneed

theorem byte_eq (w : Walk κ) (b : UInt8) (h : w.csState = .entryData → w.csNeed ≠ 0) :
    w.byte E b = w.step E b := by
  unfold byte
  rw [settle_eq w h, Turn.again_bind]

theorem dataDone_state {w w' : Walk κ} (h : w.dataDone E = .again w') : w'.csState = .extLen := by
  unfold dataDone at h
  split at h
  · cases h
    rfl
  split at h
  · cases h
    rfl
  · cases h

/-- Before the next byte the machine may settle first. -/
theorem run_settle (w : Walk κ) {bs : List UInt8} (h : bs ≠ []) :
    w.run E bs = (w.settle E).bind fun w' => w'.run E bs := by
  cases bs with
  | nil => exact absurd rfl h
  | cons b bs =>
      unfold settle
      split
      · rename_i hw
        cases hd : w.dataDone E with
        | again w' =>
            have hst := dataDone_state hd
            rw [Turn.again_bind, run_cons, run_cons, byte_eq w' b (by simp [hst])]
            simp [byte, settle, hw, hd]
        | leave r =>
            rw [Turn.leave_bind, run_cons]
            simp [byte, settle, hw, hd]
      · rfl

/-! ## Data fields in bulk -/

theorem data_data (w : Walk κ) (as bs : List UInt8) :
    (w.data as).data bs = w.data (as ++ bs) := by
  unfold data
  by_cases h : w.csEntry = 0
  · simp [h, store_store, Nat.add_assoc, Nat.sub_sub]
  · simp [h, Nat.sub_sub]

theorem run_data {bs : List UInt8} :
    ∀ {w : Walk κ}, w.csState = .entryData → bs ≠ [] → bs.length ≤ w.csNeed →
      w.run E bs = if (w.data bs).csNeed = 0 then (w.data bs).dataDone E else .again (w.data bs) := by
  induction bs with
  | nil =>
      intro w _ h
      exact absurd rfl h
  | cons b bs ih =>
      intro w hst _ hlen
      rw [List.length_cons] at hlen
      have hbyte : w.byte E b = w.step E b := byte_eq w b (fun _ => by omega)
      have hneed : (w.data [b]).csNeed = w.csNeed - 1 := rfl
      rw [run_cons, hbyte]
      by_cases hbs : bs = []
      · subst hbs
        simp only [step, hst]
        split
        · cases (w.data [b]).dataDone E <;> rfl
        · rfl
      · have hpos : bs.length ≠ 0 := by
          simpa using hbs
        have hnz : (w.data [b]).csNeed ≠ 0 := by
          omega
        have hstep : w.step E b = .again (w.data [b]) := by
          simp [step, hst, hnz]
        rw [hstep, Turn.again_bind, ih (w := w.data [b]) hst hbs (by omega), data_data]
        rfl

theorem skip_skip (w : Walk κ) (m n : Nat) : (w.skip m).skip n = w.skip (m + n) := by
  simp [skip, Nat.sub_sub]

theorem run_skip {bs : List UInt8} :
    ∀ {w : Walk κ}, w.csState = .extData → bs ≠ [] → bs.length ≤ w.csNeed →
      w.run E bs =
        .again (if (w.skip bs.length).csNeed = 0 then (w.skip bs.length).nextEntry
          else w.skip bs.length) := by
  induction bs with
  | nil =>
      intro w _ h
      exact absurd rfl h
  | cons b bs ih =>
      intro w hst _ hlen
      rw [List.length_cons] at hlen
      have hbyte : w.byte E b = w.step E b := byte_eq w b (by simp [hst])
      have hneed : (w.skip 1).csNeed = w.csNeed - 1 := rfl
      rw [run_cons, hbyte]
      by_cases hbs : bs = []
      · subst hbs
        simp only [step, hst]
        split
        · rename_i h
          simp only [List.length_cons, List.length_nil, Nat.zero_add]
          rw [if_pos h]
          rfl
        · rename_i h
          simp only [List.length_cons, List.length_nil, Nat.zero_add]
          rw [if_neg h]
          rfl
      · have hpos : bs.length ≠ 0 := by
          simpa using hbs
        have hnz : (w.skip 1).csNeed ≠ 0 := by
          omega
        have hstep : w.step E b = .again (w.skip 1) := by
          simp [step, hst, hnz]
        have hadd : 1 + bs.length = (b :: bs).length := by
          rw [List.length_cons, Nat.add_comm]
        rw [hstep, Turn.again_bind, ih (w := w.skip 1) hst hbs (by omega), skip_skip, hadd]

/-! ## What a run leaves in the log -/

/-- The log of the extractor after a turn extends the one before it. -/
def LogGrows (w : Walk κ) (t : Turn (Walk κ) (Walk κ × DfErr)) : Prop :=
  t.Post (fun w' => w.leaves <+: w'.leaves) (fun r => w.leaves <+: r.1.leaves)

theorem dataDone_logGrows (w : Walk κ) : w.LogGrows (w.dataDone E) := by
  have hext : w.leaves <+: (w.extract E).1.leaves := List.prefix_append _ _
  unfold dataDone LogGrows
  split
  · exact List.prefix_refl _
  split
  · exact hext
  · exact hext

theorem settle_logGrows (w : Walk κ) : w.LogGrows (w.settle E) := by
  unfold settle
  split
  · exact dataDone_logGrows w
  · exact List.prefix_refl _

theorem elDone_logGrows (w : Walk κ) : w.LogGrows w.elDone := by
  unfold elDone LogGrows
  dsimp only
  split
  · exact List.prefix_refl _
  split
  · exact List.prefix_refl _
  · exact List.prefix_refl _

theorem xlDone_logGrows (w : Walk κ) : w.LogGrows w.xlDone := by
  unfold xlDone LogGrows
  dsimp only
  split
  · exact List.prefix_refl _
  · exact List.prefix_refl _

theorem elByte_leaves (w : Walk κ) (b : UInt8) : (w.elByte b).leaves = w.leaves := by
  unfold elByte
  split
  · rfl
  split <;> rfl

theorem xlByte_leaves (w : Walk κ) (b : UInt8) : (w.xlByte b).leaves = w.leaves := by
  unfold xlByte
  split <;> rfl

theorem step_logGrows (w : Walk κ) (b : UInt8) : w.LogGrows (w.step E b) := by
  unfold step
  cases w.csState with
  | ctx =>
      dsimp only
      split <;> exact List.prefix_refl _
  | listLen =>
      dsimp only
      split
      · exact List.prefix_refl _
      split <;> exact List.prefix_refl _
  | entryLen =>
      have hkeep := elByte_leaves w b
      dsimp only
      split
      · exact List.prefix_refl _
      split
      · exact hkeep ▸ List.prefix_refl _
      · have := elDone_logGrows { w.elByte b with csIdx := inc8 (w.elByte b).csIdx }
        unfold LogGrows at this ⊢
        rwa [← hkeep]
  | entryData =>
      dsimp only
      split
      · exact dataDone_logGrows (w.data [b])
      · exact List.prefix_refl _
  | extLen =>
      have hkeep := xlByte_leaves w b
      dsimp only
      split
      · exact hkeep ▸ List.prefix_refl _
      · have := xlDone_logGrows { w.xlByte b with csIdx := inc8 (w.xlByte b).csIdx }
        unfold LogGrows at this ⊢
        rwa [← hkeep]
  | extData =>
      dsimp only
      split <;> exact List.prefix_refl _

theorem LogGrows.bind {w : Walk κ} {t : Turn (Walk κ) (Walk κ × DfErr)}
    {f : Walk κ → Turn (Walk κ) (Walk κ × DfErr)} (h : w.LogGrows t)
    (hf : ∀ w' : Walk κ, w'.LogGrows (f w')) : w.LogGrows (t.bind f) := by
  cases t with
  | again w' =>
      exact (hf w').mono (fun _ h' => List.IsPrefix.trans h h') (fun _ h' => List.IsPrefix.trans h h')
  | leave r => exact h

/-- The log only grows along a run. -/
theorem run_logGrows (bs : List UInt8) : ∀ w : Walk κ, w.LogGrows (w.run E bs) := by
  induction bs with
  | nil =>
      intro w
      exact List.prefix_refl _
  | cons b bs ih =>
      intro w
      rw [run_cons]
      exact ((settle_logGrows w).bind fun w' => step_logGrows w' b).bind ih

end Walk
end Tls
end C64Https
