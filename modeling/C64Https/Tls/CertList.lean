import C64Https.Tls.CertWalk

/-!
# CertList — certificate lists on the wire and what the machine makes of them

A Certificate body is an empty request context, the 24-bit length of the list and the entries, each
a 24-bit length with its `cert_data` and a 16-bit length with its extensions.  The lemmas follow the
machine over one length field, one entry and the rest of the list; the entry counter is a byte, so
the walk of the rest is stated up to the entry that brings it back to zero.
-/

namespace C64Https
namespace Tls

open Word Loop Bytes

/-- A big-endian 16-bit field. -/
def len16 (n : Nat) : List UInt8 :=
  [hi n, lo n]

/-- A big-endian 24-bit field. -/
def len24 (n : Nat) : List UInt8 :=
  [UInt8.ofNat (n / 65536), hi n, lo n]

/-- A handshake message. -/
def hsMessage (ty : UInt8) (body : List UInt8) : List UInt8 :=
  ty :: len24 body.length ++ body

structure CertEntry where
  certData : List UInt8
  extensions : List UInt8
  deriving DecidableEq, Repr

namespace CertEntry

def encode (e : CertEntry) : List UInt8 :=
  len24 e.certData.length ++ (e.certData ++ (len16 e.extensions.length ++ e.extensions))

/-- Both fields fit their length prefixes as far as a 64 KB message can carry them. -/
def Fits (e : CertEntry) : Prop :=
  e.certData.length < 65536 ∧ e.extensions.length < 65536

end CertEntry

def encodeList (es : List CertEntry) : List UInt8 :=
  es.flatMap CertEntry.encode

/-- The body of a Certificate message with an empty request context. -/
def certBody (es : List CertEntry) : List UInt8 :=
  0 :: len24 (encodeList es).length ++ encodeList es

theorem length_len24 (n : Nat) : (len24 n).length = 3 :=
  rfl

theorem length_hsMessage (ty : UInt8) (body : List UInt8) :
    (hsMessage ty body).length = 4 + body.length := by
  simp [hsMessage, len24]
  omega

theorem length_encode (e : CertEntry) :
    e.encode.length = 5 + e.certData.length + e.extensions.length := by
  simp [CertEntry.encode, len24, len16]
  omega

theorem length_encodeList_cons (e : CertEntry) (es : List CertEntry) :
    (encodeList (e :: es)).length = e.encode.length + (encodeList es).length := by
  simp [encodeList]

theorem length_certBody (es : List CertEntry) :
    (certBody es).length = 4 + (encodeList es).length := by
  simp [certBody, len24]
  omega

theorem encodeList_append (as bs : List CertEntry) :
    encodeList (as ++ bs) = encodeList as ++ encodeList bs := by
  simp [encodeList]

theorem length_encode_le (es : List CertEntry) {e : CertEntry} (h : e ∈ es) :
    e.encode.length ≤ (encodeList es).length := by
  induction es with
  | nil => cases h
  | cons a es ih =>
      rw [length_encodeList_cons]
      rcases List.mem_cons.1 h with rfl | h
      · omega
      · have := ih h
        omega

/-- Entries of a list that a 64 KB message can carry fit. -/
theorem CertEntry.fits_of_mem {es : List CertEntry} (h : (certBody es).length < 65536)
    {e : CertEntry} (he : e ∈ es) : e.Fits := by
  have h₁ := length_encode_le es he
  have h₂ := length_encode e
  have h₃ := length_certBody es
  constructor <;> omega

namespace Walk

variable {κ : Type} {E : Env κ}

/-- Between two entries, with `k` in the entry counter. -/
def AtEntry (w : Walk κ) (k : Nat) : Prop :=
  w.csState = .entryLen ∧ w.csIdx = 0 ∧ w.csEntry = k

/-- `cert_buf` and what was done with it so far. -/
def SameLeaf (w w' : Walk κ) : Prop :=
  w'.copied = w.copied ∧ w'.leaves = w.leaves ∧ w'.certBuf = w.certBuf ∧ w'.keys = w.keys

theorem SameLeaf.trans {w w' w'' : Walk κ} (h : w.SameLeaf w') (h' : w'.SameLeaf w'') :
    w.SameLeaf w'' := by
  obtain ⟨h₁, h₂, h₃, h₄⟩ := h
  obtain ⟨h₁', h₂', h₃', h₄'⟩ := h'
  exact ⟨h₁'.trans h₁, h₂'.trans h₂, h₃'.trans h₃, h₄'.trans h₄⟩

theorem inc8_zero : inc8 0 = 1 :=
  inc8_of_lt (by decide)

theorem inc8_one : inc8 1 = 2 :=
  inc8_of_lt (by decide)

theorem inc8_two : inc8 2 = 3 :=
  inc8_of_lt (by decide)

/-! ## One entry -/

/-- The three bytes of a `cert_data` length. -/
theorem run_certLen {w : Walk κ} {k n : Nat} (h : w.AtEntry k) (hn : n < 65536) :
    w.run E (len24 n) =
      { w with csTmpHi := hi n, csTmpLo := lo n, csIdx := 3 }.elDone := by
  obtain ⟨hst, hidx, _⟩ := h
  have hhigh : UInt8.ofNat (n / 65536) = 0 := by
    rw [Nat.div_eq_of_lt hn]
    rfl
  have h₀ : w.byte E 0 = .again { w with csIdx := 1 } := by
    rw [byte_eq w 0 (by simp [hst])]
    simp [step, hst, hidx, elByte, inc8_zero]
  have h₁ : Walk.byte E { w with csIdx := 1 } (hi n) =
      .again { w with csIdx := 2, csTmpHi := hi n } := by
    rw [byte_eq _ _ (by simp [hst])]
    simp [step, hst, elByte, inc8_one]
  have h₂ : Walk.byte E { w with csIdx := 2, csTmpHi := hi n } (lo n) =
      { w with csTmpHi := hi n, csTmpLo := lo n, csIdx := 3 }.elDone := by
    rw [byte_eq _ _ (by simp [hst])]
    simp [step, hst, elByte, inc8_two]
  rw [len24, hhigh, run_cons, h₀, Turn.again_bind, run_cons, h₁, Turn.again_bind, run_cons, h₂]
  cases Walk.elDone { w with csTmpHi := hi n, csTmpLo := lo n, csIdx := 3 } <;> rfl

/-- The two bytes of an extensions length. -/
theorem run_extLen {w : Walk κ} (hst : w.csState = .extLen) (hidx : w.csIdx = 0) (n : Nat) :
    w.run E (len16 n) = Walk.xlDone { w with csTmpHi := hi n, csTmpLo := lo n, csIdx := 2 } := by
  have h₁ : w.byte E (hi n) = .again { w with csTmpHi := hi n, csIdx := 1 } := by
    rw [byte_eq w _ (by simp [hst])]
    simp [step, hst, hidx, xlByte, inc8_zero]
  have h₂ : Walk.byte E { w with csTmpHi := hi n, csIdx := 1 } (lo n) =
      Walk.xlDone { w with csTmpHi := hi n, csTmpLo := lo n, csIdx := 2 } := by
    rw [byte_eq _ _ (by simp [hst])]
    simp [step, hst, xlByte, inc8_one]
  rw [len16, run_cons, h₁, Turn.again_bind, run_cons, h₂]
  cases Walk.xlDone { w with csTmpHi := hi n, csTmpLo := lo n, csIdx := 2 } <;> rfl

/-- The extensions of an entry: consumed, and the counter moves on. -/
theorem run_extensions {w : Walk κ} {ext : List UInt8} (hst : w.csState = .extLen)
    (hidx : w.csIdx = 0) (hlen : ext.length < 65536) :
    ∃ w', w.run E (len16 ext.length ++ ext) = .again w' ∧ w'.AtEntry (inc8 w.csEntry) ∧
      w.SameLeaf w' := by
  have hword : word (hi ext.length) (lo ext.length) = ext.length := word_hi_lo hlen
  rw [run_append, run_extLen hst hidx]
  unfold xlDone
  simp only [hword]
  by_cases hext : ext = []
  · subst hext
    exact ⟨_, rfl, ⟨rfl, rfl, rfl⟩, rfl, rfl, rfl, rfl⟩
  · have hpos : ext.length ≠ 0 := by
      simpa using hext
    rw [if_neg hpos, Turn.again_bind, run_skip rfl hext (le_refl _)]
    simp only [skip, Nat.sub_self, if_pos]
    exact ⟨_, rfl, ⟨rfl, rfl, rfl⟩, rfl, rfl, rfl, rfl⟩

/-- `cert_data` and what follows it: the data is consumed, then the machine settles. -/
theorem run_certData {w : Walk κ} {bs rest : List UInt8} (hst : w.csState = .entryData)
    (hneed : w.csNeed = bs.length) (hrest : rest ≠ []) :
    w.run E (bs ++ rest) = ((w.data bs).dataDone E).bind fun w' => w'.run E rest := by
  by_cases hbs : bs = []
  · subst hbs
    have hw : w.data [] = w := by
      simp [data]
    have hsettle : w.settle E = w.dataDone E := by
      unfold settle
      rw [if_pos ⟨hst, by simpa using hneed⟩]
    rw [List.nil_append, run_settle w hrest, hw, hsettle]
  · have hz : (w.data bs).csNeed = 0 := by
      simp [data, hneed]
    rw [run_append, run_data hst hbs (by omega), if_pos hz]

/-- The state in which the data of an entry begins. -/
def atData (w : Walk κ) (n off : Nat) : Walk κ :=
  { w with
    csTmpHi := hi n
    csTmpLo := lo n
    csIdx := 0
    csNeed := n
    csOff := off
    csState := .entryData }

theorem ext_ne_nil (ext : List UInt8) : len16 ext.length ++ ext ≠ [] := by
  simp [len16]

/-- An entry whose counter is not zero is discarded. -/
theorem run_entry_skip {w : Walk κ} {k : Nat} {e : CertEntry} (h : w.AtEntry k) (hk : k ≠ 0)
    (he : e.Fits) :
    ∃ w', w.run E e.encode = .again w' ∧ w'.AtEntry (inc8 k) ∧ w.SameLeaf w' := by
  have hentry : w.csEntry ≠ 0 := by
    rw [h.2.2]
    exact hk
  have hlen : w.run E (len24 e.certData.length) = .again (w.atData e.certData.length w.csOff) := by
    rw [run_certLen h he.1]
    simp [elDone, hentry, atData, word_hi_lo he.1]
  unfold CertEntry.encode
  rw [run_append, hlen, Turn.again_bind, run_certData rfl rfl (ext_ne_nil _)]
  have hdone : ((w.atData e.certData.length w.csOff).data e.certData).dataDone E =
      .again ((w.atData e.certData.length w.csOff).data e.certData).toExt := by
    unfold dataDone
    rw [if_pos]
    exact hentry
  rw [hdone, Turn.again_bind]
  obtain ⟨w', hrun, hat, hsame⟩ :=
    run_extensions (E := E) (w := ((w.atData e.certData.length w.csOff).data e.certData).toExt)
      rfl rfl he.2
  have hk' : inc8 (((w.atData e.certData.length w.csOff).data e.certData).toExt).csEntry = inc8 k :=
    congrArg inc8 h.2.2
  rw [hk'] at hat
  have hskip : w.SameLeaf ((w.atData e.certData.length w.csOff).data e.certData).toExt := by
    refine ⟨?_, rfl, ?_, rfl⟩
    · simp [toExt, data, atData, hentry]
    · simp [toExt, data, atData, hentry]
  exact ⟨w', hrun, hat, hskip.trans hsame⟩

/-- The extractor's answer on a leaf, over what `cert_buf` held before. -/
def leafAnswer (E : Env κ) (w : Walk κ) (leaf : List UInt8) : κ × Bool :=
  E.tlsCertStreamFinish (store w.certBuf 0 leaf) leaf.length w.keys

/-- A leaf too long for `cert_buf` is refused before any of it is copied. -/
theorem run_entry_tooBig {w : Walk κ} {e : CertEntry} (h : w.AtEntry 0) (he : e.Fits)
    (hbig : certBufSize < e.certData.length) :
    ∃ w', w.run E e.encode = .leave (w', .certTooBig) ∧ w.SameLeaf w' := by
  have hlen : w.run E (len24 e.certData.length) =
      .leave ({ w with
        csTmpHi := hi e.certData.length
        csTmpLo := lo e.certData.length
        csIdx := 0
        csNeed := e.certData.length }, .certTooBig) := by
    rw [run_certLen h he.1]
    simp [elDone, h.2.2, word_hi_lo he.1, hbig]
  unfold CertEntry.encode
  rw [run_append, hlen]
  exact ⟨_, rfl, rfl, rfl, rfl, rfl⟩

/-- What becomes of `cert_buf` and its log on a leaf of a fitting length. -/
def LeafTaken (E : Env κ) (w w' : Walk κ) (leaf : List UInt8) : Prop :=
  w'.copied = w.copied ++ leaf ∧
    w'.leaves = w.leaves ++ [(leaf, (w.leafAnswer E leaf).2)] ∧
      w'.certBuf = store w.certBuf 0 leaf ∧ w'.keys = (w.leafAnswer E leaf).1

/-- A leaf that fits is copied and handed to the extractor; the entry survives iff it accepts. -/
theorem run_entry_leaf {w : Walk κ} {e : CertEntry} (h : w.AtEntry 0) (he : e.Fits)
    (hfit : e.certData.length ≤ certBufSize) :
    ∃ w', LeafTaken E w w' e.certData ∧
      (((w.leafAnswer E e.certData).2 = true ∧ w.run E e.encode = .again w' ∧ w'.AtEntry 1) ∨
        ((w.leafAnswer E e.certData).2 = false ∧ w.run E e.encode = .leave (w', .certFmt))) := by
  have hentry : w.csEntry = 0 := h.2.2
  have hlen : w.run E (len24 e.certData.length) = .again (w.atData e.certData.length 0) := by
    rw [run_certLen h he.1]
    have hnot : ¬ certBufSize < e.certData.length := Nat.not_lt.2 hfit
    simp only [elDone, hentry, atData, word_hi_lo he.1, hnot, ne_eq, not_true_eq_false, if_false]
  have hzero : ((w.atData e.certData.length 0).data e.certData).csEntry = 0 := hentry
  have hbuf : ((w.atData e.certData.length 0).data e.certData).certBuf =
      store w.certBuf 0 e.certData := by
    simp [data, atData, hentry]
  have htmp : word ((w.atData e.certData.length 0).data e.certData).csTmpHi
      ((w.atData e.certData.length 0).data e.certData).csTmpLo = e.certData.length :=
    word_hi_lo he.1
  have htaken : LeafTaken E w (((w.atData e.certData.length 0).data e.certData).extract E).1
      e.certData := by
    refine ⟨?_, ?_, ?_, ?_⟩
    · simp [extract, data, atData, hentry]
    · unfold extract leafAnswer
      simp only [htmp, hbuf, bytesAt_store_self]
      rfl
    · exact hbuf
    · unfold extract leafAnswer
      simp only [htmp, hbuf]
      rfl
  have hans : (((w.atData e.certData.length 0).data e.certData).extract E).2 =
      (w.leafAnswer E e.certData).2 := by
    unfold extract leafAnswer
    simp only [htmp, hbuf]
    rfl
  unfold CertEntry.encode
  rw [run_append, hlen, Turn.again_bind, run_certData rfl rfl (ext_ne_nil _)]
  unfold dataDone
  rw [if_neg (by simp [hzero]), hans]
  -- an extraction that fails ends the list
  cases ha : (w.leafAnswer E e.certData).2 with
  | true =>
      obtain ⟨w', hrun, hat, hsame⟩ :=
        run_extensions (E := E)
          (w := (((w.atData e.certData.length 0).data e.certData).extract E).1.toExt) rfl rfl he.2
      have hk : inc8 (((w.atData e.certData.length 0).data e.certData).extract E).1.toExt.csEntry =
          1 := (congrArg inc8 hentry).trans inc8_zero
      rw [hk] at hat
      obtain ⟨h₁, h₂, h₃, h₄⟩ := hsame
      obtain ⟨t₁, t₂, t₃, t₄⟩ := htaken
      exact ⟨w', ⟨h₁.trans t₁, h₂.trans t₂, h₃.trans t₃, h₄.trans t₄⟩,
        Or.inl ⟨rfl, by rw [if_pos rfl, Turn.again_bind]; exact hrun, hat⟩⟩
  | false =>
      exact ⟨_, htaken, Or.inr ⟨rfl, by rw [if_neg (by simp), Turn.leave_bind]⟩⟩

/-! ## The rest of the list -/

/-- Entries are discarded as long as the counter does not come back to zero. -/
theorem run_entries_skip (es : List CertEntry) :
    ∀ {w : Walk κ} {k : Nat}, w.AtEntry k → k ≠ 0 → k + es.length < 256 → (∀ e ∈ es, e.Fits) →
      ∃ w', w.run E (encodeList es) = .again w' ∧ w'.AtEntry (k + es.length) ∧ w.SameLeaf w' := by
  induction es with
  | nil =>
      intro w k h _ _ _
      exact ⟨w, rfl, h, rfl, rfl, rfl, rfl⟩
  | cons e es ih =>
      intro w k h hk hlt hfits
      rw [List.length_cons] at hlt
      obtain ⟨w₁, hrun₁, hat₁, hsame₁⟩ := run_entry_skip (E := E) h hk (hfits e (by simp))
      have hinc : inc8 k = k + 1 := inc8_of_lt (by omega)
      rw [hinc] at hat₁
      obtain ⟨w₂, hrun₂, hat₂, hsame₂⟩ :=
        ih hat₁ (by omega) (by omega) (fun e he => hfits e (by simp [he]))
      refine ⟨w₂, ?_, ?_, hsame₁.trans hsame₂⟩
      · have hcons : encodeList (e :: es) = e.encode ++ encodeList es := rfl
        rw [hcons, run_append, hrun₁, Turn.again_bind, hrun₂]
      · have hk' : k + (e :: es).length = k + 1 + es.length := by
          rw [List.length_cons]
          omega
        rw [hk']
        exact hat₂

/-- The 256th entry brings the counter back to zero. -/
theorem run_entries_wrap {es : List CertEntry} {w : Walk κ} (h : w.AtEntry 1)
    (hlen : es.length = 255) (hfits : ∀ e ∈ es, e.Fits) :
    ∃ w', w.run E (encodeList es) = .again w' ∧ w'.AtEntry 0 ∧ w.SameLeaf w' := by
  obtain ⟨es, e, rfl⟩ : ∃ es' e, es = es' ++ [e] := by
    rcases List.eq_nil_or_concat es with rfl | ⟨es', e, rfl⟩
    · simp at hlen
    · exact ⟨es', e, by simp⟩
  have hlen' : es.length = 254 := by
    simpa using hlen
  obtain ⟨w₁, hrun₁, hat₁, hsame₁⟩ :=
    run_entries_skip (E := E) es h (by decide) (by omega)
      (fun e he => hfits e (List.mem_append_left _ he))
  rw [hlen'] at hat₁
  obtain ⟨w₂, hrun₂, hat₂, hsame₂⟩ :=
    run_entry_skip (E := E) hat₁ (by decide) (hfits e (by simp))
  have hwrap : inc8 (1 + 254) = 0 := by
    decide +kernel
  rw [hwrap] at hat₂
  refine ⟨w₂, ?_, hat₂, hsame₁.trans hsame₂⟩
  have hsingle : encodeList [e] = e.encode := by
    simp [encodeList]
  rw [encodeList_append, run_append, hrun₁, Turn.again_bind, hsingle, hrun₂]

end Walk
end Tls
end C64Https
