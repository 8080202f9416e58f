import C64Https.Tls.CertLeaf

/-!
# CertParse — what the streamed route accepts

The machine stops between two entries only on a string of whole entries (`run_inv`), so a streamed
Certificate is accepted only if its body is a certificate list to the last byte.  Which leaves the
extractor is shown on the way, and what it makes of the key state, is `stageList`: the entry whose
counter is zero is staged, which is the first one and then every 256th.
-/

namespace C64Https
namespace Tls

open Word Loop Bytes

theorem len24_word (b c : UInt8) : len24 (word b c) = [0, b, c] := by
  have hlt := word_lt b c
  have hb := toNat_lt b
  have hc := toNat_lt c
  have hhigh : word b c / 65536 = 0 := Nat.div_eq_of_lt hlt
  have hhi : word b c / 256 = b.toNat := by
    unfold word
    omega
  have hlo : UInt8.ofNat (word b c) = c := by
    refine UInt8.toNat_inj.1 ?_
    rw [UInt8.toNat_ofNat']
    unfold word
    omega
  unfold len24 hi lo
  rw [hhigh, hhi, hlo, UInt8.ofNat_toNat]
  rfl

theorem len16_word (b c : UInt8) : len16 (word b c) = [b, c] := by
  have h := len24_word b c
  unfold len24 at h
  exact (List.cons.inj h).2

namespace Walk

section Inversion

variable {κ : Type} {E : Env κ}

/-- Between two entries. -/
def AtBoundary (w : Walk κ) : Prop :=
  w.csState = .entryLen ∧ w.csIdx = 0

theorem not_boundary_of_state {w : Walk κ} {st : CsState} (h : w.csState = st)
    (hne : st ≠ .entryLen) : ¬ w.AtBoundary := by
  rintro ⟨hst, _⟩
  exact hne (h.symm.trans hst)

/-! ## Strings that end inside an entry -/

theorem run_skip_short {w : Walk κ} {bs : List UInt8} (hst : w.csState = .extData) (hbs : bs ≠ [])
    (hlen : bs.length < w.csNeed) : w.run E bs = .again (w.skip bs.length) := by
  have hleft : (w.skip bs.length).csNeed ≠ 0 := by
    show w.csNeed - bs.length ≠ 0
    omega
  rw [run_skip hst hbs (Nat.le_of_lt hlen), if_neg hleft]

/-- A string that ends inside the extensions. -/
theorem run_ext_short {w w' : Walk κ} {bs : List UInt8} (hst : w.csState = .extLen)
    (hidx : w.csIdx = 0) (hrun : w.run E bs = .again w') (hb : w'.AtBoundary) :
    ∃ ext rest, bs = len16 ext.length ++ (ext ++ rest) ∧ ext.length < 65536 := by
  rcases bs with _ | ⟨b, _ | ⟨c, bs⟩⟩
  · -- no byte of the length
    cases hrun
    exact absurd hb (not_boundary_of_state hst (by decide))
  · -- one byte of the length
    have hone : w.run E [b] = .again { w with csTmpHi := b, csIdx := 1 } := by
      rw [run_cons, byte_eq w _ (by simp [hst])]
      simp [step, hst, hidx, xlByte, inc8_zero]
    rw [hone] at hrun
    cases hrun
    exact absurd hb (not_boundary_of_state hst (by decide))
  · have hlen := run_extLen (E := E) hst hidx (word b c)
    rw [len16_word] at hlen
    have hcut : b :: c :: bs = [b, c] ++ bs := rfl
    by_cases hfit : word b c ≤ bs.length
    · refine ⟨bs.take (word b c), bs.drop (word b c), ?_, ?_⟩
      · rw [List.length_take, Nat.min_eq_left hfit, len16_word, List.take_append_drop, hcut]
      · rw [List.length_take]
        have := word_lt b c
        omega
    · -- the extensions do not end
      have hpos : word b c ≠ 0 := by
        omega
      have htmp : word (hi (word b c)) (lo (word b c)) = word b c := word_hi_lo (word_lt b c)
      rw [hcut, run_append, hlen] at hrun
      simp only [xlDone, htmp, if_neg hpos, Turn.again_bind] at hrun
      by_cases hbs : bs = []
      · rw [hbs, run_nil] at hrun
        cases hrun
        exact absurd hb (not_boundary_of_state rfl (by simp))
      · rw [run_skip_short rfl hbs (Nat.not_le.1 hfit)] at hrun
        cases hrun
        exact absurd hb (not_boundary_of_state rfl (by simp [skip]))

/-- The data of an entry, and what follows it, on a string that reaches the next boundary. -/
theorem run_data_short {w w' : Walk κ} {bs : List UInt8} (hst : w.csState = .entryData)
    (hrun : w.run E bs = .again w') (hb : w'.AtBoundary) :
    ∃ d rest w₁, bs = d ++ rest ∧ d.length = w.csNeed ∧ (w.data d).dataDone E = .again w₁ ∧
      w₁.run E rest = .again w' := by
  by_cases hlen : bs.length ≤ w.csNeed
  · -- the data does not end, or nothing follows it
    by_cases hbs : bs = []
    · rw [hbs, run_nil] at hrun
      cases hrun
      exact absurd hb (not_boundary_of_state hst (by decide))
    · rw [run_data hst hbs hlen] at hrun
      split at hrun
      · exact absurd hb (not_boundary_of_state (dataDone_state hrun) (by decide))
      · cases hrun
        exact absurd hb (not_boundary_of_state (w := w.data bs) hst (by decide))
  · have hrest : bs.drop w.csNeed ≠ [] := by
      rw [← List.length_pos_iff, List.length_drop]
      omega
    have htake : (bs.take w.csNeed).length = w.csNeed := by
      rw [List.length_take]
      omega
    rw [← List.take_append_drop w.csNeed bs, run_certData hst htake.symm hrest] at hrun
    cases hd : (w.data (bs.take w.csNeed)).dataDone E with
    | leave r =>
        rw [hd, Turn.leave_bind] at hrun
        cases hrun
    | again w₁ =>
        rw [hd, Turn.again_bind] at hrun
        exact ⟨_, _, w₁, (List.take_append_drop w.csNeed bs).symm, htake, hd, hrun⟩

/-- The length of an entry's data, on a string that reaches the next boundary. -/
theorem run_len_short {w w' : Walk κ} {k : Nat} {bs : List UInt8} (h : w.AtEntry k) (hbs : bs ≠ [])
    (hrun : w.run E bs = .again w') (hb : w'.AtBoundary) :
    ∃ n rest off, bs = len24 n ++ rest ∧ n < 65536 ∧ (w.atData n off).run E rest = .again w' := by
  obtain ⟨hst, hidx, hk⟩ := h
  rcases bs with _ | ⟨a, bs⟩
  · exact absurd rfl hbs
  by_cases ha : a = 0
  · subst ha
    have h₀ : w.byte E 0 = .again { w with csIdx := 1 } := by
      rw [byte_eq w 0 (by simp [hst])]
      simp [step, hst, hidx, elByte, inc8_zero]
    rcases bs with _ | ⟨b, _ | ⟨c, bs⟩⟩
    · -- one byte of the length
      rw [run_cons, h₀] at hrun
      cases hrun
      exact absurd hb.2 (by simp)
    · -- two bytes of the length
      have h₁ : Walk.byte E { w with csIdx := 1 } b = .again { w with csIdx := 2, csTmpHi := b } := by
        rw [byte_eq _ _ (by simp [hst])]
        simp [step, hst, elByte, inc8_one]
      rw [run_cons, h₀, Turn.again_bind, run_cons, h₁] at hrun
      cases hrun
      exact absurd hb.2 (by simp)
    · have hlt := word_lt b c
      have hlen := run_certLen (E := E) (w := w) (k := k) ⟨hst, hidx, hk⟩ hlt
      have hcut : 0 :: b :: c :: bs = len24 (word b c) ++ bs := by
        rw [len24_word]
        rfl
      rw [hcut, run_append, hlen] at hrun
      have htmp : word (hi (word b c)) (lo (word b c)) = word b c := word_hi_lo hlt
      unfold elDone at hrun
      simp only [htmp] at hrun
      split at hrun
      · exact ⟨_, bs, w.csOff, hcut, hlt, hrun⟩
      split at hrun
      · cases hrun
      · exact ⟨_, bs, 0, hcut, hlt, hrun⟩
  · -- a first byte that is not zero is refused
    have hfail : w.byte E a = .leave (w, .certFmt) := by
      rw [byte_eq w a (by simp [hst])]
      simp [step, hst, hidx, ha]
    rw [run_cons, hfail] at hrun
    cases hrun

/-! ## Inversion -/

/-- A string that brings the machine from one boundary to another starts with a whole entry. -/
theorem run_entry_inv {w w' : Walk κ} {k : Nat} {bs : List UInt8} (h : w.AtEntry k) (hbs : bs ≠ [])
    (hrun : w.run E bs = .again w') (hb : w'.AtBoundary) :
    ∃ (e : CertEntry) (rest : List UInt8), e.Fits ∧ bs = e.encode ++ rest := by
  obtain ⟨n, t, off, rfl, hn, hrun₁⟩ := run_len_short h hbs hrun hb
  obtain ⟨d, t', w₁, rfl, hd, hdone, hrun₂⟩ := run_data_short rfl hrun₁ hb
  have hst₁ := dataDone_state hdone
  have hidx₁ : w₁.csIdx = 0 := by
    unfold dataDone at hdone
    split at hdone
    · cases hdone
      rfl
    split at hdone
    · cases hdone
      rfl
    · cases hdone
  obtain ⟨ext, rest, rfl, hext⟩ := run_ext_short hst₁ hidx₁ hrun₂ hb
  have hdn : d.length = n := hd
  refine ⟨⟨d, ext⟩, rest, ⟨by rw [hdn]; exact hn, hext⟩, ?_⟩
  simp [CertEntry.encode, hdn]

/-- An entry that does not end the run leads to the next boundary. -/
theorem run_entry_again {w : Walk κ} {k : Nat} {e : CertEntry} (h : w.AtEntry k) (he : e.Fits) :
    (∃ w' k', w.run E e.encode = .again w' ∧ w'.AtEntry k') ∨
      ∃ p, w.run E e.encode = .leave p := by
  by_cases hk : k = 0
  · subst hk
    by_cases hbig : certBufSize < e.certData.length
    · obtain ⟨w', hrun, _⟩ := run_entry_tooBig (E := E) h he hbig
      exact Or.inr ⟨_, hrun⟩
    · obtain ⟨w', _, hor⟩ := run_entry_leaf (E := E) h he (by omega)
      rcases hor with ⟨_, hrun, hat⟩ | ⟨_, hrun⟩
      · exact Or.inl ⟨w', 1, hrun, hat⟩
      · exact Or.inr ⟨_, hrun⟩
  · obtain ⟨w', hrun, hat, _⟩ := run_entry_skip (E := E) h hk he
    exact Or.inl ⟨w', _, hrun, hat⟩

/-- The strings between two boundaries are the encodings of lists. -/
theorem run_inv (n : Nat) :
    ∀ {w w' : Walk κ} {k : Nat} {bs : List UInt8}, bs.length ≤ n → w.AtEntry k →
      w.run E bs = .again w' → w'.AtBoundary →
      ∃ es, bs = encodeList es ∧ ∀ e ∈ es, e.Fits := by
  induction n with
  | zero =>
      intro w w' k bs hlen _ _ _
      have hnil : bs = [] := List.length_eq_zero_iff.1 (Nat.le_zero.1 hlen)
      exact ⟨[], by rw [hnil]; rfl, by simp⟩
  | succ n ih =>
      intro w w' k bs hlen h hrun hb
      by_cases hbs : bs = []
      · exact ⟨[], by rw [hbs]; rfl, by simp⟩
      · obtain ⟨e, rest, he, rfl⟩ := run_entry_inv h hbs hrun hb
        have hpos := length_encode e
        rw [List.length_append] at hlen
        rw [run_append] at hrun
        rcases run_entry_again (E := E) h he with ⟨w₁, k', hrun₁, hat₁⟩ | ⟨p, hrun₁⟩
        · rw [hrun₁, Turn.again_bind] at hrun
          obtain ⟨es, rfl, hes⟩ := ih (by omega) hat₁ hrun hb
          refine ⟨e :: es, rfl, ?_⟩
          intro a ha
          rcases List.mem_cons.1 ha with rfl | ha
          · exact he
          · exact hes a ha
        · rw [hrun₁, Turn.leave_bind] at hrun
          cases hrun

/-- A body on which the machine does not fail starts with an empty context and a list length. -/
theorem run_prefix_inv {w w' : Walk κ} {bs : List UInt8} (h : w.AtStart)
    (hrun : w.run E bs = .again w') (hc : w'.Complete) :
    ∃ n rest, n < 65536 ∧ bs = 0 :: len24 n ++ rest := by
  obtain ⟨hst, hidx, _⟩ := h
  rcases bs with _ | ⟨a, bs⟩
  · cases hrun
    exact absurd ⟨hc.1, hc.2.1⟩ (not_boundary_of_state hst (by decide))
  -- the context length
  by_cases ha : a = 0
  · subst ha
    have h₀ : w.byte E 0 = .again { w with csState := .listLen, csIdx := 0 } := by
      rw [byte_eq w 0 (by simp [hst])]
      simp [step, hst]
    rw [run_cons, h₀, Turn.again_bind] at hrun
    rcases bs with _ | ⟨b, bs⟩
    · cases hrun
      exact absurd ⟨hc.1, hc.2.1⟩ (not_boundary_of_state rfl (by simp))
    -- the high byte of the length of the list
    by_cases hb : b = 0
    · subst hb
      have h₁ : Walk.byte E { w with csState := .listLen, csIdx := 0 } 0 =
          .again { w with csState := .listLen, csIdx := 1 } := by
        rw [byte_eq _ _ (by simp)]
        simp [step, inc8_zero]
      rw [run_cons, h₁, Turn.again_bind] at hrun
      rcases bs with _ | ⟨c, _ | ⟨d, bs⟩⟩
      · cases hrun
        exact absurd ⟨hc.1, hc.2.1⟩ (not_boundary_of_state rfl (by simp))
      · have h₂ : Walk.byte E { w with csState := .listLen, csIdx := 1 } c =
            .again { w with csState := .listLen, csIdx := 2 } := by
          rw [byte_eq _ _ (by simp)]
          simp [step, inc8_one]
        rw [run_cons, h₂] at hrun
        cases hrun
        exact absurd ⟨hc.1, hc.2.1⟩ (not_boundary_of_state rfl (by simp))
      · refine ⟨word c d, bs, word_lt c d, ?_⟩
        rw [len24_word]
        rfl
    · have hfail : Walk.byte E { w with csState := .listLen, csIdx := 0 } b =
          .leave ({ w with csState := .listLen, csIdx := 0 }, .certFmt) := by
        rw [byte_eq _ _ (by simp)]
        simp [step, hb]
      rw [run_cons, hfail] at hrun
      cases hrun
  · have hfail : w.byte E a = .leave (w, .certFmt) := by
      rw [byte_eq w a (by simp [hst])]
      simp [step, hst, ha]
    rw [run_cons, hfail] at hrun
    cases hrun

end Inversion

end Walk

/-! ## Which leaves are staged -/

variable {κ : Type}

/-- A certificate list under the entry counter `k`: an entry that finds the counter at zero is
staged in `cert_buf` and shown to the extractor; `none` when one of those is refused. -/
def stageList (E : Env κ) : List CertEntry → Nat → Buffer → κ → Option (Nat × Buffer × κ)
  | [], k, certBuf, keys => some (k, certBuf, keys)
  | e :: es, k, certBuf, keys =>
      if k ≠ 0 then
        stageList E es (inc8 k) certBuf keys
      else if certBufSize < e.certData.length then
        none
      else
        let certBuf := store certBuf 0 e.certData
        let r := E.tlsCertStreamFinish certBuf e.certData.length keys
        if r.2 then stageList E es 1 certBuf r.1 else none

namespace Walk

variable {E : Env κ}

/-- The machine on a list does what `stageList` says. -/
theorem run_list (es : List CertEntry) :
    ∀ {w : Walk κ} {k : Nat}, w.AtEntry k → (∀ e ∈ es, e.Fits) →
      match stageList E es k w.certBuf w.keys with
      | some (k', _, keys) =>
          ∃ w', w.run E (encodeList es) = .again w' ∧ w'.AtEntry k' ∧ w'.keys = keys
      | none => ∃ p, w.run E (encodeList es) = .leave p := by
  induction es with
  | nil =>
      intro w k h _
      exact ⟨w, rfl, h, rfl⟩
  | cons e es ih =>
      intro w k h hfits
      have he := hfits e (by simp)
      have hes : ∀ a ∈ es, a.Fits := fun a ha => hfits a (by simp [ha])
      have hcons : encodeList (e :: es) = e.encode ++ encodeList es := rfl
      by_cases hk : k = 0
      · subst hk
        unfold stageList
        rw [if_neg (by simp)]
        by_cases hbig : certBufSize < e.certData.length
        · obtain ⟨w', hrun, _⟩ := run_entry_tooBig (E := E) h he hbig
          rw [if_pos hbig]
          exact ⟨_, by rw [hcons, run_append, hrun, Turn.leave_bind]⟩
        · obtain ⟨w', ⟨_, _, hbuf, hkeys⟩, hor⟩ := run_entry_leaf (E := E) h he (by omega)
          rw [if_neg hbig]
          rcases hor with ⟨hyes, hrun, hat⟩ | ⟨hno, hrun⟩
          · -- the staged entry is accepted: the counter goes to one
            have hnext := ih hat hes
            unfold leafAnswer at hyes hkeys
            rw [hbuf, hkeys] at hnext
            simp only [hyes, if_true]
            rw [hcons, run_append, hrun, Turn.again_bind]
            exact hnext
          · unfold leafAnswer at hno
            simp only [hno]
            exact ⟨_, by rw [hcons, run_append, hrun, Turn.leave_bind]⟩
      · obtain ⟨w', hrun, hat, _, _, hbuf, hkeys⟩ := run_entry_skip (E := E) h hk he
        have hnext := ih hat hes
        rw [hbuf, hkeys] at hnext
        unfold stageList
        rw [if_pos hk, hcons, run_append, hrun, Turn.again_bind]
        exact hnext

end Walk

/-- The body of a Certificate whose entries are `es`: the value of the list length does not matter
to the streamed route, as long as it has two bytes. -/
def IsCertBody (body : List UInt8) (es : List CertEntry) : Prop :=
  (∃ n, n < 65536 ∧ body = 0 :: len24 n ++ encodeList es) ∧ ∀ e ∈ es, e.Fits

/-- The streamed route takes the list to the end, and leaves `keys`. -/
def StagesTo (E : Env κ) (s : Hs κ) (es : List CertEntry) (keys : κ) : Prop :=
  ∃ k certBuf, stageList E es 0 s.certBuf s.keys = some (k, certBuf, keys) ∧ k ≠ 0

section Accepts

variable {E : Env κ} {s : Hs κ} {r : Hs κ × Ret} {w : Walk κ} {body : List UInt8}

/-- A list whose staged entries are accepted is accepted. -/
theorem accepted_of_stagesTo (hstart : w.AtStart) (hsame : s.walk.SameLeaf w)
    (hdone : BodyDone 0 0 (w.run E body) r) {es : List CertEntry} {keys : κ}
    (hbody : IsCertBody body es) (hstage : StagesTo E s es keys) :
    r.2 = .msg ∧ r.1.keys = keys := by
  obtain ⟨⟨n, hn, rfl⟩, hfits⟩ := hbody
  obtain ⟨k, certBuf, hstage, hk⟩ := hstage
  obtain ⟨w₀, hpre, hat, hsame₀⟩ := Walk.run_certPrefix (E := E) hstart hn
  obtain ⟨_, _, hbuf, hkeys⟩ := hsame.trans hsame₀
  have hbuf' : w₀.certBuf = s.certBuf := hbuf
  have hkeys' : w₀.keys = s.keys := hkeys
  have hlist := Walk.run_list (E := E) es hat hfits
  rw [hbuf', hkeys', hstage] at hlist
  obtain ⟨w', hrun', hat', hfinal⟩ := hlist
  have hall : w.run E (0 :: len24 n ++ encodeList es) = .again w' := by
    rw [Walk.run_append, hpre, Turn.again_bind, hrun']
  have hc : w'.Complete := ⟨hat'.1, hat'.2.1, by rw [hat'.2.2]; exact hk⟩
  refine ⟨(hdone.complete w' hall rfl hc).1, ?_⟩
  rw [← hfinal, ← (hdone.walked w' hall).1]
  rfl

/-- What is accepted is a list whose staged entries are accepted. -/
theorem stagesTo_of_accepted (hstart : w.AtStart) (hsame : s.walk.SameLeaf w)
    (hdone : BodyDone 0 0 (w.run E body) r) (hmsg : r.2 = .msg) :
    ∃ es, IsCertBody body es ∧ StagesTo E s es r.1.keys := by
  cases hT : w.run E body with
  | leave p =>
      have herr := (hdone.failed p.1 p.2 hT).2
      rw [hmsg] at herr
      cases herr
  | again w' =>
      by_cases hc : w'.Complete
      · obtain ⟨n, rest, hn, rfl⟩ := Walk.run_prefix_inv hstart hT hc
        obtain ⟨w₀, hpre, hat, hsame₀⟩ := Walk.run_certPrefix (E := E) hstart hn
        obtain ⟨_, _, hbuf, hkeys⟩ := hsame.trans hsame₀
        have hbuf' : w₀.certBuf = s.certBuf := hbuf
        have hkeys' : w₀.keys = s.keys := hkeys
        have hrest := hT
        rw [Walk.run_append, hpre, Turn.again_bind] at hrest
        obtain ⟨es, rfl, hfits⟩ := Walk.run_inv _ (le_refl _) hat hrest ⟨hc.1, hc.2.1⟩
        have hlist := Walk.run_list (E := E) es hat hfits
        rw [hbuf', hkeys'] at hlist
        refine ⟨es, ⟨⟨n, hn, rfl⟩, hfits⟩, ?_⟩
        cases hstage : stageList E es 0 s.certBuf s.keys with
        | none =>
            rw [hstage] at hlist
            obtain ⟨p, hp⟩ := hlist
            rw [hrest] at hp
            cases hp
        | some q =>
            obtain ⟨k, certBuf, keys⟩ := q
            rw [hstage] at hlist
            obtain ⟨w'', hrun'', hat'', hfinal⟩ := hlist
            rw [hrest] at hrun''
            cases hrun''
            have hk : k ≠ 0 := by
              rw [← hat''.2.2]
              exact hc.2.2
            have hend : r.1.keys = keys := by
              rw [← hfinal, ← (hdone.walked w' hT).1]
              rfl
            exact ⟨k, certBuf, by rw [hend, hstage], hk⟩
      · have herr := hdone.incomplete w' hT rfl hc
        rw [hmsg] at herr
        cases herr

end Accepts

/-- A streamed Certificate is accepted if and only if its body is a certificate list whose staged
entries the extractor accepts; it then leaves what the last of them left. -/
theorem streamed_accepts_iff (E : Env κ) {s : Hs κ} (h : AtCertificate E s)
    {recs : List (List UInt8)} {body tail : List UInt8} (hin : StreamedCert s recs body tail)
    (hlen : body.length < 65536) :
    ∃ r, pumpOver E s recs = some r ∧
      (r.2 = .msg → ∃ es, IsCertBody body es ∧ StagesTo E s es r.1.keys) ∧
        (∀ es keys, IsCertBody body es → StagesTo E s es keys → r.2 = .msg ∧ r.1.keys = keys) := by
  by_cases hne : body = []
  · subst hne
    obtain ⟨g, recs', hrun, hinv, hmode, hstart, _, hrem, hdel, _⟩ := h.begin hin hlen
    obtain ⟨r, hr, hret⟩ := resume_stream_empty E hinv hmode hstart hrem hdel
    refine ⟨r, hrun.trans hr, fun hm => absurd hm hret, ?_⟩
    rintro es _ ⟨⟨n, _, hbody⟩, _⟩
    cases hbody
  · obtain ⟨r, w, hrun, hstart, hsame, hdone⟩ := pumpOver_certificate E h hin hne hlen
    exact ⟨r, hrun, stagesTo_of_accepted hstart hsame hdone,
      fun _ _ hb hs => accepted_of_stagesTo hstart hsame hdone hb hs⟩

end Tls
end C64Https
