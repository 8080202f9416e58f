import C64Https.Tls.CertList
import C64Https.Tls.Pump

/-!
# CertLeaf — which entries of a certificate list the streamed route treats as the leaf

A streamed Certificate runs the byte machine on its body (`pumpOver_certificate`), so the fate of a
list is that of the machine on it.  The entry counter of the machine is one byte: up to 255 entries
only the first is the leaf, but entry 256 finds the counter at zero again.
-/

namespace C64Https
namespace Tls

open Word Loop Bytes Transition

variable {κ : Type}

/-- A reachable deframer about to see the first byte of the Certificate. -/
structure AtCertificate (E : Env κ) (s : Hs κ) : Prop where
  reachable : DfReachable E s
  mode_eq : s.mode = .hdr
  have_eq : s.hdrHave = 0
  due : s.tlsState = .certificate

/-- The bytes that arrive are those of a Certificate message that does not lie whole in the record
it begins in; `tail` is whatever follows it. -/
structure StreamedCert (s : Hs κ) (recs : List (List UInt8)) (body tail : List UInt8) : Prop where
  delivered : Delivered recs
  bytes : s.pending ++ recs.flatten = hsMessage hsCertificate body ++ tail
  begun : s.pending ≠ []
  split : s.pending.length < (hsMessage hsCertificate body).length

/-! ## The streamed route -/

/-- The header of the Certificate arrives and passes the gate. -/
theorem AtCertificate.header {E : Env κ} {s : Hs κ} (h : AtCertificate E s)
    {recs : List (List UInt8)} {body tail : List UInt8} (hin : StreamedCert s recs body tail) :
    ∃ s' recs', pumpOver E s recs = resume E (dfHdrComplete E s') recs' ∧
      HdrHere s s' (hsCertificate :: len24 body.length) ∧ Delivered recs' ∧
        s'.pending ++ recs'.flatten = body ++ tail ∧
          (s'.hdrSplit = false → s'.pending.length < body.length) := by
  have hpart : HdrPart s [] :=
    ⟨h.reachable.inv, h.mode_eq, h.have_eq, bytesAt_zero _ _, fun hne => absurd rfl hne⟩
  have hbytes : [] ++ (s.pending ++ recs.flatten) =
      (hsCertificate :: len24 body.length) ++ (body ++ tail) := by
    rw [List.nil_append, hin.bytes, hsMessage, List.append_assoc]
  obtain ⟨s', recs', hrun, hhere, hdel, hrest, hflag, hleft⟩ :=
    pumpOver_hdr E hpart (Nat.zero_le _) hin.delivered rfl hbytes
  refine ⟨s', recs', hrun, hhere, hdel, hrest, ?_⟩
  intro hsplit
  have hlt := hin.split
  rw [length_hsMessage] at hlt
  by_cases hfour : s.pending.length < 4
  · rw [hflag (Or.inr ⟨hin.begun, hfour⟩)] at hsplit
    cases hsplit
  · have := hleft (by simpa using hfour)
    simp only [List.length_nil] at this
    omega

/-- A Certificate of 64 KB or more is refused on its header. -/
theorem pumpOver_certificate_long (E : Env κ) {s : Hs κ} (h : AtCertificate E s)
    {recs : List (List UInt8)} {body tail : List UInt8} (hin : StreamedCert s recs body tail)
    (hbig : 65536 ≤ body.length) (hlen : body.length < 16777216) :
    ∃ s', pumpOver E s recs = some (s', .err .hdrLen) ∧ s'.walk.copied = s.walk.copied ∧
      s'.walk.leaves = s.walk.leaves ∧ s'.certBuf = s.certBuf := by
  obtain ⟨s', recs', hrun, hhere, _, _, _⟩ := h.header hin
  obtain ⟨h0, h1, _, _⟩ := hdr_bytes hhere.hdr_eq
  have hgate : tlsHsSeqCheck s'.tlsState (s'.hdr 0) = true := by
    rw [tlsHsSeqCheck_iff, h0, hhere.around.tlsState_eq, h.due]
    rfl
  have hne : s'.hdr 1 ≠ 0 := by
    rw [h1]
    intro hz
    have hz' := congrArg UInt8.toNat hz
    simp only [UInt8.toNat_ofNat', UInt8.toNat_zero] at hz'
    omega
  have hfail : dfHdrComplete E s' = some (dfFail s' .hdrLen) := by
    unfold dfHdrComplete
    rw [if_neg (by simp [hgate]), if_pos hne]
  refine ⟨{ s' with lastErr := some .hdrLen }, ?_, copied_congr hhere.around.marks_eq,
    leaves_congr hhere.around.marks_eq, hhere.around.certBuf_eq⟩
  rw [hrun, hfail, resume_of_done (r := dfFail s' .hdrLen) (fun hc => by cases hc)]
  rfl

/-- The streamed consumer takes over behind the header. -/
theorem AtCertificate.begin {E : Env κ} {s : Hs κ} (h : AtCertificate E s)
    {recs : List (List UInt8)} {body tail : List UInt8} (hin : StreamedCert s recs body tail)
    (hlen : body.length < 65536) :
    ∃ g recs', pumpOver E s recs = resume E (dfStreamBody E g) recs' ∧ PumpInv g ∧
      g.mode = .stream ∧ g.walk.AtStart ∧ s.walk.SameLeaf g.walk ∧ g.msgRem = body.length ∧
        Delivered recs' ∧ g.pending ++ recs'.flatten = body ++ tail := by
  obtain ⟨s', recs', hrun, hhere, hdel, hrest, hroute⟩ := h.header hin
  obtain ⟨h0, h1, h2, h3⟩ := hdr_bytes hhere.hdr_eq
  have hgate : tlsHsSeqCheck s'.tlsState (s'.hdr 0) = true := by
    rw [tlsHsSeqCheck_iff, h0, hhere.around.tlsState_eq, h.due]
    rfl
  have hzero : s'.hdr 1 = 0 := by
    rw [h1, Nat.div_eq_of_lt hlen]
    rfl
  have hmsg : (dfHdrFold E s').msgRem = body.length := by
    show word (s'.hdr 2) (s'.hdr 3) = body.length
    rw [h2, h3, word_hi_lo hlen]
  have hfold := dfHdrFold_inv E hhere.inv hhere.mode_eq
  have hbody : dfHdrComplete E s' = dfStreamBegin E (dfHdrFold E s') := by
    have hcert : (dfHdrFold E s').hdr 0 = hsCertificate := h0
    -- not in place: the header was split, or the record ends before the body does
    have hnot : ¬ ((dfHdrFold E s').hdrSplit = false ∧
        (dfHdrFold E s').msgLen ≤ (dfHdrFold E s').avail) := by
      rintro ⟨hs, hle⟩
      have hlt := hroute hs
      have hmsg' : (dfHdrFold E s').msgLen = body.length := hmsg
      have hpend : (dfHdrFold E s').pending = s'.pending := rfl
      rw [hmsg', hfold.avail_pending, hpend] at hle
      omega
    unfold dfHdrComplete
    rw [if_neg (by simp [hgate]), if_neg (by simp [hzero])]
    unfold dfRoute
    rw [if_neg hnot, if_pos hcert]
  refine ⟨{ dfHdrFold E s' with
    mode := .stream, csState := .ctx, csIdx := 0, csEntry := 0, csOff := 0 }, recs', ?_,
    dfStreamBegin_pumpInv hfold (by omega), rfl, ⟨rfl, rfl, rfl⟩,
    ⟨?_, ?_, hhere.around.certBuf_eq, hhere.around.keys_eq⟩, hmsg, hdel, hrest⟩
  · rw [hrun, hbody]
    rfl
  · show copied (s'.trace ++ _) = copied s.trace
    rw [copied_append, copied_congr hhere.around.marks_eq]
    simp [copied, Event.copied]
  · show leaves (s'.trace ++ _) = leaves s.trace
    rw [leaves_append, leaves_congr hhere.around.marks_eq]
    simp [leaves, Event.leaf?]

theorem extLive_start {g : Hs κ} (h : g.walk.AtStart) : ExtLive g.csState g.csNeed := by
  refine extLive_of_ne ?_ _
  have hst : g.csState = .ctx := h.1
  rw [hst]
  decide

/-- The streamed route runs the byte machine on the body, whatever the records. -/
theorem pumpOver_certificate (E : Env κ) {s : Hs κ} (h : AtCertificate E s)
    {recs : List (List UInt8)} {body tail : List UInt8} (hin : StreamedCert s recs body tail)
    (hne : body ≠ []) (hlen : body.length < 65536) :
    ∃ r w, pumpOver E s recs = some r ∧ w.AtStart ∧ s.walk.SameLeaf w ∧
      BodyDone 0 0 (w.run E body) r := by
  obtain ⟨g, recs', hrun, hinv, hmode, hstart, hsame, hrem, hdel, hrest⟩ := h.begin hin hlen
  have hpos : g.msgRem ≠ 0 := by
    rw [hrem]
    simpa using hne
  obtain ⟨r, hr, hdone⟩ := resume_stream E hinv hmode (extLive_start hstart) hpos hdel (by
    rw [hrem, hrest, List.length_append]
    omega)
  have hbody : (g.pending ++ recs'.flatten).take g.msgRem = body := by
    rw [hrest, hrem, List.take_left']
    rfl
  exact ⟨r, g.walk, hrun.trans hr, hstart, hsame, hbody ▸ hdone⟩

/-- The first byte after an empty body makes `@msg_end` refuse it. -/
theorem dfStreamBody_empty (E : Env κ) {g : Hs κ} (hinv : PumpInv g) (hmode : g.mode = .stream)
    (hstart : g.walk.AtStart) (hrem : g.msgRem = 0) (hav : g.avail ≠ 0) :
    ∃ r, dfStreamBody E g = some r ∧ r.2 = .err .certFmt := by
  obtain ⟨r, hr, _, _, hdone⟩ :=
    dfStreamBody_sim E hinv hmode (extLive_start hstart) hav (n := 0) (by omega)
  have hnot : ¬ g.walk.Complete := by
    rintro ⟨hst, _⟩
    rw [hstart.1] at hst
    cases hst
  exact ⟨r, hr, hdone.incomplete g.walk (by simp) hrem hnot⟩

/-- An empty body never ends well: the consumer waits for a byte and then refuses it. -/
theorem resume_stream_empty (E : Env κ) {recs : List (List UInt8)} :
    ∀ {g : Hs κ}, PumpInv g → g.mode = .stream → g.walk.AtStart → g.msgRem = 0 → Delivered recs →
      ∃ r, resume E (dfStreamBody E g) recs = some r ∧ r.2 ≠ .msg := by
  induction recs with
  | nil =>
      intro g hinv hmode hstart hrem _
      by_cases hav : g.avail = 0
      · refine ⟨(g, .more), ?_, by simp⟩
        unfold dfStreamBody
        rw [if_pos hav]
        rfl
      · obtain ⟨r, hr, hret⟩ := dfStreamBody_empty E hinv hmode hstart hrem hav
        refine ⟨r, ?_, by rw [hret]; decide⟩
        rw [hr, resume_of_done (by rw [hret]; decide)]
  | cons bs recs ih =>
      intro g hinv hmode hstart hrem hdel
      by_cases hav : g.avail = 0
      · have hstop : dfStreamBody E g = some (g, .more) := by
          unfold dfStreamBody
          rw [if_pos hav]
          rfl
        have hload := (hinv.toDfInv.load (hdel bs (by simp))).pump
        have hwalk : (dfAvail (loadRecord g bs)).walk = g.walk :=
          (walk_dfAvail _).trans (walk_loadRecord g bs)
        rw [hstop, resume_of_more, pumpOver_eq, pump_stream_eq E (s := loadRecord g bs) hmode]
        exact ih hload hmode (hwalk ▸ hstart) hrem (fun b hb => hdel b (by simp [hb]))
      · obtain ⟨r, hr, hret⟩ := dfStreamBody_empty E hinv hmode hstart hrem hav
        refine ⟨r, ?_, by rw [hret]; decide⟩
        rw [hr, resume_of_done (by rw [hret]; decide)]

/-! ## The machine on a whole list -/

namespace Walk

variable {E : Env κ}

/-- The request context and the list length. -/
theorem run_certPrefix {w : Walk κ} (h : w.AtStart) {n : Nat} (hn : n < 65536) :
    ∃ w', w.run E (0 :: len24 n) = .again w' ∧ w'.AtEntry 0 ∧ w.SameLeaf w' := by
  obtain ⟨hst, hidx, hentry⟩ := h
  have hhigh : UInt8.ofNat (n / 65536) = 0 := by
    rw [Nat.div_eq_of_lt hn]
    rfl
  have h₀ : w.byte E 0 = .again { w with csState := .listLen, csIdx := 0 } := by
    rw [byte_eq w 0 (by simp [hst])]
    simp [step, hst]
  have h₁ : Walk.byte E { w with csState := .listLen, csIdx := 0 } 0 =
      .again { w with csState := .listLen, csIdx := 1 } := by
    rw [byte_eq _ _ (by simp)]
    simp [step, inc8_zero]
  have h₂ : ∀ b, Walk.byte E { w with csState := .listLen, csIdx := 1 } b =
      .again { w with csState := .listLen, csIdx := 2 } := by
    intro b
    rw [byte_eq _ _ (by simp)]
    simp [step, inc8_one]
  have h₃ : ∀ b, Walk.byte E { w with csState := .listLen, csIdx := 2 } b =
      .again { w with csState := .entryLen, csIdx := 0 } := by
    intro b
    rw [byte_eq _ _ (by simp)]
    simp [step, inc8_two]
  refine ⟨{ w with csState := .entryLen, csIdx := 0 }, ?_, ⟨rfl, rfl, hentry⟩, rfl, rfl, rfl, rfl⟩
  rw [len24, hhigh, run_cons, h₀, Turn.again_bind, run_cons, h₁, Turn.again_bind, run_cons, h₂,
    Turn.again_bind, run_cons, h₃]
  rfl

theorem leafAnswer_congr {w w' : Walk κ} (h : w.SameLeaf w') (leaf : List UInt8) :
    w'.leafAnswer E leaf = w.leafAnswer E leaf := by
  obtain ⟨_, _, hbuf, hkeys⟩ := h
  unfold leafAnswer
  rw [hbuf, hkeys]

theorem LeafTaken.trans {w w' w'' w₃ : Walk κ} {leaf : List UInt8} (h : w.SameLeaf w')
    (ht : LeafTaken E w' w'' leaf) (h' : w''.SameLeaf w₃) : LeafTaken E w w₃ leaf := by
  obtain ⟨t₁, t₂, t₃, t₄⟩ := ht
  obtain ⟨a₁, a₂, a₃, a₄⟩ := h'
  rw [leafAnswer_congr h] at t₂ t₄
  obtain ⟨b₁, b₂, b₃, _⟩ := h
  exact ⟨by rw [a₁, t₁, b₁], by rw [a₂, t₂, b₂], by rw [a₃, t₃, b₃], by rw [a₄, t₄]⟩

theorem SameLeaf.refl (w : Walk κ) : w.SameLeaf w :=
  ⟨rfl, rfl, rfl, rfl⟩

/-- A leaf that the machine refuses ends the run, taken or not. -/
theorem run_list_refused {w : Walk κ} (h : w.AtEntry 0) {e : CertEntry} (es : List CertEntry)
    (he : e.Fits) (hbad : certBufSize < e.certData.length ∨ (w.leafAnswer E e.certData).2 = false) :
    ∃ p, w.run E (encodeList (e :: es)) = .leave p ∧
      (certBufSize < e.certData.length → w.SameLeaf p.1) ∧
        (e.certData.length ≤ certBufSize → LeafTaken E w p.1 e.certData) := by
  have hcons : encodeList (e :: es) = e.encode ++ encodeList es := rfl
  rw [hcons, run_append]
  by_cases hbig : certBufSize < e.certData.length
  · obtain ⟨w', hrun, hsame⟩ := run_entry_tooBig (E := E) h he hbig
    exact ⟨_, by rw [hrun, Turn.leave_bind], fun _ => hsame, fun hle => absurd hbig (by omega)⟩
  · obtain ⟨w', htaken, hor⟩ := run_entry_leaf (E := E) h he (by omega)
    rcases hor with ⟨hyes, _⟩ | ⟨_, hrun⟩
    · rcases hbad with hb | hno
      · exact absurd hb hbig
      · rw [hyes] at hno
        cases hno
    · exact ⟨_, by rw [hrun, Turn.leave_bind], fun hb => absurd hb hbig, fun _ => htaken⟩

/-- Up to 255 entries only the first one is the leaf. -/
theorem run_list_short {w : Walk κ} (h : w.AtEntry 0) {e : CertEntry} {es : List CertEntry}
    (hfits : ∀ a ∈ e :: es, a.Fits) (hleaf : e.certData.length ≤ certBufSize)
    (hyes : (w.leafAnswer E e.certData).2 = true) (hlen : (e :: es).length < 256) :
    ∃ w', w.run E (encodeList (e :: es)) = .again w' ∧ w'.Complete ∧
      LeafTaken E w w' e.certData := by
  have hcons : encodeList (e :: es) = e.encode ++ encodeList es := rfl
  rw [List.length_cons] at hlen
  obtain ⟨w₁, htaken, hor⟩ := run_entry_leaf (E := E) h (hfits e (by simp)) hleaf
  rcases hor with ⟨_, hrun₁, hat₁⟩ | ⟨hno, _⟩
  · obtain ⟨w₂, hrun₂, hat₂, hsame₂⟩ := run_entries_skip (E := E) es hat₁ (by decide)
      (by omega) (fun a ha => hfits a (by simp [ha]))
    refine ⟨w₂, ?_, ⟨hat₂.1, hat₂.2.1, ?_⟩, LeafTaken.trans (SameLeaf.refl w) htaken hsame₂⟩
    · rw [hcons, run_append, hrun₁, Turn.again_bind, hrun₂]
    · rw [hat₂.2.2]
      omega
  · rw [hyes] at hno
    cases hno

/-- From the 256th entry on the list is refused, or a second entry goes to the extractor. -/
theorem run_list_long {w : Walk κ} (h : w.AtEntry 0) {e : CertEntry} {es : List CertEntry}
    (hfits : ∀ a ∈ e :: es, a.Fits) (hleaf : e.certData.length ≤ certBufSize)
    (hyes : (w.leafAnswer E e.certData).2 = true) (hlen : 256 ≤ (e :: es).length) :
    (w.run E (encodeList (e :: es))).Post
      (fun w' => ¬ w'.Complete ∨ w.leaves.length + 2 ≤ w'.leaves.length) (fun _ => True) := by
  rw [List.length_cons] at hlen
  obtain ⟨w₁, htaken, hor⟩ := run_entry_leaf (E := E) h (hfits e (by simp)) hleaf
  rcases hor with ⟨_, hrun₁, hat₁⟩ | ⟨hno, _⟩
  · -- the entries that bring the counter back to zero
    have hsplit : es = es.take 255 ++ es.drop 255 := (List.take_append_drop 255 es).symm
    have hfits₁ : ∀ a ∈ es.take 255, a.Fits := fun a ha =>
      hfits a (List.mem_cons_of_mem _ (List.mem_of_mem_take ha))
    obtain ⟨w₂, hrun₂, hat₂, hsame₂⟩ := run_entries_wrap (E := E) hat₁
      (by rw [List.length_take]; omega) hfits₁
    have hlog₂ : w₂.leaves.length = w.leaves.length + 1 := by
      rw [hsame₂.2.1, htaken.2.1, List.length_append]
      rfl
    have hrun : w.run E (encodeList (e :: es)) = w₂.run E (encodeList (es.drop 255)) := by
      have hcons : encodeList (e :: es) =
          e.encode ++ (encodeList (es.take 255) ++ encodeList (es.drop 255)) := by
        rw [← encodeList_append, ← hsplit]
        rfl
      rw [hcons, run_append, hrun₁, Turn.again_bind, run_append, hrun₂, Turn.again_bind]
    rw [hrun]
    cases hdrop : es.drop 255 with
    | nil =>
        refine Or.inl ?_
        rintro ⟨_, _, hne⟩
        exact hne hat₂.2.2
    | cons e' es' =>
        have he' : e' ∈ es := by
          have : e' ∈ es.drop 255 := by
            rw [hdrop]
            simp
          exact List.mem_of_mem_drop this
        have hfit' : e'.Fits := hfits e' (by simp [he'])
        have hcons : encodeList (e' :: es') = e'.encode ++ encodeList es' := rfl
        rw [hcons, run_append]
        by_cases hbig : certBufSize < e'.certData.length
        · obtain ⟨w₃, hrun₃, _⟩ := run_entry_tooBig (E := E) hat₂ hfit' hbig
          rw [hrun₃]
          trivial
        · obtain ⟨w₃, htaken₃, hor₃⟩ := run_entry_leaf (E := E) hat₂ hfit' (by omega)
          rcases hor₃ with ⟨_, hrun₃, _⟩ | ⟨_, hrun₃⟩
          · rw [hrun₃, Turn.again_bind]
            refine (run_logGrows (encodeList es') w₃).mono ?_ (fun _ _ => trivial)
            intro w' hpre
            have hle := hpre.length_le
            rw [htaken₃.2.1, List.length_append, hlog₂] at hle
            exact Or.inr hle
          · rw [hrun₃]
            trivial
  · rw [hyes] at hno
    cases hno

end Walk

/-! ## Only the first entry -/

/-- The extractor's answer on a leaf, over what `cert_buf` holds in `s`. -/
def leafAccepted (E : Env κ) (s : Hs κ) (leaf : List UInt8) : Bool :=
  (E.tlsCertStreamFinish (store s.certBuf 0 leaf) leaf.length s.keys).2

/-- The leaf is one that the streamed route copies at all: the message has a 16-bit length and the
leaf fits `cert_buf`. -/
def LeafCopied (e : CertEntry) (es : List CertEntry) : Prop :=
  (certBody (e :: es)).length < 65536 ∧ e.certData.length ≤ certBufSize

/-- Only the first entry was treated as the leaf, and the list was not refused for the number of
its entries. -/
structure OnlyLeaf (E : Env κ) (s : Hs κ) (e : CertEntry) (es : List CertEntry)
    (r : Hs κ × Ret) : Prop where
  copied_leaf : LeafCopied e es →
    copied r.1.trace = copied s.trace ++ e.certData ∧
      leaves r.1.trace = leaves s.trace ++ [(e.certData, leafAccepted E s e.certData)] ∧
        r.1.certBuf = store s.certBuf 0 e.certData
  copied_none : ¬ LeafCopied e es →
    copied r.1.trace = copied s.trace ∧ leaves r.1.trace = leaves s.trace ∧
      r.1.certBuf = s.certBuf
  accepted : LeafCopied e es → leafAccepted E s e.certData = true → r.2 = .msg

/-- The number of entries is one the counter can hold, or does not matter because the leaf is
refused. -/
def CountHarmless (E : Env κ) (s : Hs κ) (e : CertEntry) (es : List CertEntry) : Prop :=
  (e :: es).length < 256 ∨ ¬ LeafCopied e es ∨ leafAccepted E s e.certData = false

section Lists

variable {E : Env κ} {s : Hs κ} {r : Hs κ × Ret} {w : Walk κ} {e : CertEntry}
  {es : List CertEntry}

/-- The machine past the list length. -/
theorem run_certBody (hstart : w.AtStart) (hlen : (certBody (e :: es)).length < 65536) :
    ∃ w₀, w₀.AtEntry 0 ∧ w.SameLeaf w₀ ∧
      w.run E (certBody (e :: es)) = w₀.run E (encodeList (e :: es)) := by
  rw [length_certBody] at hlen
  obtain ⟨w₀, hrun, hat, hsame⟩ :=
    Walk.run_certPrefix (E := E) hstart (n := (encodeList (e :: es)).length) (by omega)
  refine ⟨w₀, hat, hsame, ?_⟩
  unfold certBody
  rw [Walk.run_append, hrun, Turn.again_bind]

theorem onlyLeaf_of_taken (hcopied : LeafCopied e es)
    (hsame : s.walk.SameLeaf w) (htaken : Walk.LeafTaken E w r.1.walk e.certData)
    (hacc : leafAccepted E s e.certData = true → r.2 = .msg) : OnlyLeaf E s e es r := by
  obtain ⟨t₁, t₂, t₃, _⟩ := Walk.LeafTaken.trans hsame htaken (Walk.SameLeaf.refl _)
  exact ⟨fun _ => ⟨t₁, t₂, t₃⟩, fun hn => absurd hcopied hn, fun _ => hacc⟩

theorem onlyLeaf_of_harmless (hsame : s.walk.SameLeaf w) (hstart : w.AtStart)
    (hlen : (certBody (e :: es)).length < 65536)
    (hdone : BodyDone 0 0 (w.run E (certBody (e :: es))) r) (hok : CountHarmless E s e es) :
    OnlyLeaf E s e es r := by
  have hfits : ∀ a ∈ e :: es, a.Fits := fun a ha => CertEntry.fits_of_mem hlen ha
  obtain ⟨w₀, hat, hsame₀, hrun⟩ := run_certBody (E := E) (w := w) hstart hlen
  have hsame' := hsame.trans hsame₀
  have hans : (w₀.leafAnswer E e.certData).2 = leafAccepted E s e.certData := by
    rw [Walk.leafAnswer_congr hsame']
    rfl
  rw [hrun] at hdone
  by_cases hbad : certBufSize < e.certData.length ∨ (w₀.leafAnswer E e.certData).2 = false
  · obtain ⟨p, hp, hbig, htaken⟩ :=
      Walk.run_list_refused (E := E) hat es (hfits e (by simp)) hbad
    obtain ⟨hwalk, herr⟩ := hdone.failed p.1 p.2 hp
    by_cases hle : e.certData.length ≤ certBufSize
    · refine onlyLeaf_of_taken ⟨hlen, hle⟩ hsame' (hwalk ▸ htaken hle) ?_
      intro hyes
      rcases hbad with hb | hno
      · omega
      · rw [hans, hyes] at hno
        cases hno
    · have hnot : ¬ LeafCopied e es := fun hc => hle hc.2
      obtain ⟨a₁, a₂, a₃, _⟩ := hsame'.trans (hwalk ▸ hbig (by omega))
      exact ⟨fun hc => absurd hc hnot, fun _ => ⟨a₁, a₂, a₃⟩, fun hc => absurd hc hnot⟩
  · have hle : e.certData.length ≤ certBufSize := by
      by_contra hgt
      exact hbad (Or.inl (by omega))
    have hyes : (w₀.leafAnswer E e.certData).2 = true := by
      cases ha : (w₀.leafAnswer E e.certData).2 with
      | true => rfl
      | false => exact absurd (Or.inr ha) hbad
    have hcount : (e :: es).length < 256 := by
      rcases hok with hc | hn | hno
      · exact hc
      · exact absurd ⟨hlen, hle⟩ hn
      · rw [← hans, hyes] at hno
        cases hno
    obtain ⟨w', hrun', hcomplete, htaken⟩ := Walk.run_list_short (E := E) hat hfits hle hyes hcount
    refine onlyLeaf_of_taken ⟨hlen, hle⟩ hsame' ((hdone.walked w' hrun').1 ▸ htaken) ?_
    intro _
    exact (hdone.complete w' hrun' rfl hcomplete).1

/-- From 256 entries on, behind an accepted leaf, the property fails. -/
theorem not_onlyLeaf_of_long (hsame : s.walk.SameLeaf w) (hstart : w.AtStart)
    (hcopied : LeafCopied e es) (hyes : leafAccepted E s e.certData = true)
    (hcount : 256 ≤ (e :: es).length)
    (hdone : BodyDone 0 0 (w.run E (certBody (e :: es))) r) : ¬ OnlyLeaf E s e es r := by
  intro hprop
  obtain ⟨_, hleaves, _⟩ := hprop.copied_leaf hcopied
  have hmsg := hprop.accepted hcopied hyes
  have hfits : ∀ a ∈ e :: es, a.Fits := fun a ha => CertEntry.fits_of_mem hcopied.1 ha
  obtain ⟨w₀, hat, hsame₀, hrun⟩ := run_certBody (E := E) (w := w) hstart hcopied.1
  have hsame' := hsame.trans hsame₀
  have hans : (w₀.leafAnswer E e.certData).2 = true := by
    rw [Walk.leafAnswer_congr hsame', ← hyes]
    rfl
  have hlong := Walk.run_list_long (E := E) hat hfits hcopied.2 hans hcount
  rw [hrun] at hdone
  cases hT : w₀.run E (encodeList (e :: es)) with
  | leave p =>
      have := (hdone.failed p.1 p.2 hT).2
      rw [hmsg] at this
      cases this
  | again w' =>
      rw [hT] at hlong
      by_cases hc : w'.Complete
      · rcases hlong with hn | hlen
        · exact hn hc
        · have hw : w'.leaves = leaves r.1.trace := by
            rw [← (hdone.walked w' hT).1]
            rfl
          have hs : w₀.leaves = leaves s.trace := hsame'.2.1
          rw [hw, hs, hleaves, List.length_append] at hlen
          simp at hlen
      · have := hdone.incomplete w' hT rfl hc
        rw [hmsg] at this
        cases this

end Lists

/-- A streamed list is treated as it should be if and only if the number of its entries is one the
counter can hold, or its leaf is refused anyway. -/
theorem onlyLeaf_iff (E : Env κ) {s : Hs κ} (h : AtCertificate E s) {recs : List (List UInt8)}
    {e : CertEntry} {es : List CertEntry} {tail : List UInt8}
    (hlen : (certBody (e :: es)).length < 16777216)
    (hin : StreamedCert s recs (certBody (e :: es)) tail) :
    ∃ r, pumpOver E s recs = some r ∧ (OnlyLeaf E s e es r ↔ CountHarmless E s e es) := by
  by_cases hbig : 65536 ≤ (certBody (e :: es)).length
  · obtain ⟨s', hrun, hc, hl, hb⟩ := pumpOver_certificate_long E h hin hbig hlen
    have hnot : ¬ LeafCopied e es := fun hc => absurd hc.1 (by omega)
    refine ⟨_, hrun, ?_, ?_⟩
    · intro _
      exact Or.inr (Or.inl hnot)
    · intro _
      exact ⟨fun hc => absurd hc hnot, fun _ => ⟨hc, hl, hb⟩, fun hc => absurd hc hnot⟩
  · have hshort : (certBody (e :: es)).length < 65536 := by
      omega
    have hne : certBody (e :: es) ≠ [] := by
      simp [certBody]
    obtain ⟨r, w, hrun, hstart, hsame, hdone⟩ := pumpOver_certificate E h hin hne hshort
    refine ⟨r, hrun, ?_, onlyLeaf_of_harmless hsame hstart hshort hdone⟩
    intro hprop
    by_contra hharm
    obtain ⟨hcount, hrest⟩ := not_or.1 hharm
    obtain ⟨hcopied, hyes⟩ := not_or.1 hrest
    exact not_onlyLeaf_of_long hsame hstart (not_not.1 hcopied) (by simpa using hyes)
      (Nat.not_lt.1 hcount) hdone hprop

/-! ## Concrete lists -/

/-- The first bytes of a Certificate arrive on a fresh deframer. -/
def certArrives (keys : κ) (bs : List UInt8) : Hs κ :=
  loadRecord { tlsDeframeInit (Hs.blank keys) with tlsState := .certificate } bs

theorem certArrives_at (E : Env κ) (keys : κ) {bs : List UInt8} (h : bs.length ≤ recBufSize) :
    AtCertificate E (certArrives keys bs) := by
  have hstart : DfReachable E (tlsDeframeInit (Hs.blank keys)) :=
    .start ⟨Hs.blank keys, rfl, Nat.zero_le _, by simp [Hs.blank], rfl⟩
  have hdue : DfReachable E { tlsDeframeInit (Hs.blank keys) with tlsState := .certificate } :=
    hstart.next (.around _ _ _ _ _ _)
  exact ⟨hdue.next (.record _ _ _ h), rfl, rfl, rfl⟩

/-- A message of more than one record, cut where the record buffer is full. -/
theorem streamedCert_cut (keys : κ) {body : List UInt8} {n : Nat} {recs : List (List UInt8)}
    (hn : 0 < n) (hlt : n < (hsMessage hsCertificate body).length) (hdel : Delivered recs)
    (hrecs : recs.flatten = (hsMessage hsCertificate body).drop n) :
    StreamedCert (certArrives keys ((hsMessage hsCertificate body).take n)) recs body [] := by
  have hpend : (certArrives keys ((hsMessage hsCertificate body).take n)).pending =
      (hsMessage hsCertificate body).take n := pending_loadRecord _ _
  refine ⟨hdel, ?_, ?_, ?_⟩
  · rw [hpend, hrecs, List.take_append_drop, List.append_nil]
  · rw [hpend, ← List.length_pos_iff, List.length_take]
    omega
  · rw [hpend, List.length_take]
    omega

def oneByteLeaf : CertEntry :=
  { certData := [0x30], extensions := [] }

def oneByteEntry : CertEntry :=
  { certData := [0x31], extensions := [] }

/-- The message with `n` one-byte entries behind the leaf. -/
def chainMessage (n : Nat) : List UInt8 :=
  hsMessage hsCertificate (certBody (oneByteLeaf :: List.replicate n oneByteEntry))

theorem length_chain (n : Nat) :
    (certBody (oneByteLeaf :: List.replicate n oneByteEntry)).length = 10 + 6 * n := by
  have hrep : (encodeList (List.replicate n oneByteEntry)).length = 6 * n := by
    induction n with
    | zero => rfl
    | succ n ih =>
        rw [List.replicate_succ, length_encodeList_cons, ih, length_encode]
        simp [oneByteEntry]
        omega
  rw [length_certBody, length_encodeList_cons, hrep, length_encode]
  simp [oneByteLeaf]
  omega

theorem onlyLeaf_iff_two :
    (certBody [oneByteLeaf, oneByteEntry]).length < 16777216 ∧
      ∃ r, pumpOver Env.accepting (certArrives () ((chainMessage 1).take 5)) [(chainMessage 1).drop 5] =
          some r ∧
        (OnlyLeaf Env.accepting (certArrives () ((chainMessage 1).take 5)) oneByteLeaf [oneByteEntry] r ↔
          CountHarmless Env.accepting (certArrives () ((chainMessage 1).take 5)) oneByteLeaf
            [oneByteEntry]) := by
  have hin : StreamedCert (certArrives () ((chainMessage 1).take 5)) [(chainMessage 1).drop 5]
      (certBody [oneByteLeaf, oneByteEntry]) [] :=
    streamedCert_cut () (by decide) (by decide) (by unfold Delivered; decide) (by decide)
  exact ⟨by decide, onlyLeaf_iff Env.accepting (certArrives_at _ () (by decide)) (by decide) hin⟩

/-- The records of a chain message that fills two of them and starts a third. -/
def chainRecords (n : Nat) : List (List UInt8) :=
  [((chainMessage n).drop 548).take 548, (chainMessage n).drop 1096]

theorem streamedCert_chain {n : Nat} (hn : 255 ≤ n) (hmax : n ≤ 271) :
    StreamedCert (certArrives () ((chainMessage n).take 548)) (chainRecords n)
      (certBody (oneByteLeaf :: List.replicate n oneByteEntry)) [] := by
  have hlen : (chainMessage n).length = 14 + 6 * n := by
    unfold chainMessage
    rw [length_hsMessage, length_chain]
    omega
  have hcap : recBufSize = 548 := rfl
  refine streamedCert_cut () (by decide) (by unfold chainMessage at hlen; omega) ?_ ?_
  · intro bs hbs
    rcases List.mem_cons.1 hbs with rfl | hbs
    · rw [List.length_take]
      omega
    · rw [List.mem_singleton.1 hbs, List.length_drop]
      omega
  · have hdrop : (chainMessage n).drop 1096 = ((chainMessage n).drop 548).drop 548 := by
      rw [List.drop_drop]
    unfold chainRecords
    simp only [List.flatten_cons, List.flatten_nil, List.append_nil]
    rw [hdrop, List.take_append_drop]
    rfl

/-- A chain whose entries bring the counter back to zero. -/
theorem not_onlyLeaf_chain {n : Nat} (hn : 255 ≤ n) (hmax : n ≤ 271) :
    ∃ r, pumpOver Env.accepting (certArrives () ((chainMessage n).take 548)) (chainRecords n) = some r ∧
      ¬ OnlyLeaf Env.accepting (certArrives () ((chainMessage n).take 548)) oneByteLeaf
        (List.replicate n oneByteEntry) r := by
  have hbody := length_chain n
  have hcount : 256 ≤ (oneByteLeaf :: List.replicate n oneByteEntry).length := by
    rw [List.length_cons, List.length_replicate]
    omega
  have hfirst : ((chainMessage n).take 548).length ≤ recBufSize := by
    rw [List.length_take]
    exact Nat.min_le_left _ _
  obtain ⟨r, w, hrun, hstart, hsame, hdone⟩ :=
    pumpOver_certificate Env.accepting (certArrives_at _ () hfirst) (streamedCert_chain hn hmax)
      (List.cons_ne_nil _ _) (by omega)
  exact ⟨r, hrun, not_onlyLeaf_of_long hsame hstart ⟨by omega, by decide⟩ rfl hcount hdone⟩

/-- A well-formed list of 257 entries behind an accepted leaf: entry 256 is treated as a leaf. -/
theorem not_onlyLeaf_257 :
    ∃ r, pumpOver Env.accepting (certArrives () ((chainMessage 256).take 548)) (chainRecords 256) =
        some r ∧
      ¬ OnlyLeaf Env.accepting (certArrives () ((chainMessage 256).take 548)) oneByteLeaf
        (List.replicate 256 oneByteEntry) r :=
  not_onlyLeaf_chain (by decide) (by decide)

end Tls
end C64Https
