import C64Https.Tls.ConnectOrder
import C64Https.Tls.Consumed
import C64Https.Tls.ServerHelloSpec
import C64Https.Tls.WireText

/-!
# KeyChanges — what is left of a record when the keys change

The keys change behind the ServerHello and behind the server's Finished.  The hybrid reader takes the ServerHello
to end with its record; the parser of the other builds does not look how long the record is, and `tls_connect`
does not look what the deframer has left when the Finished is in.  So nothing is dropped when the bytes of the
peer let both messages end with their record (`nothingDropped_of_endsWithRecord`).
-/

namespace C64Https
namespace Tls

open Word Loop Bytes Fallible

variable {κ : Type}

/-! ## An accepted connection -/

/-- A run that reaches `CONNECTED`, by its stages. -/
structure Accepted (E : ConnEnv κ) (c c₁ c₂ c₃ c' : Conn κ) : Prop where
  hello : connectHello E c = some (c₁, true)
  serverHello : connectServerHello E c₁ = some (c₂, true)
  flight : connectFlight E c₂ = some (c₃, true)
  finish : connectFinish E c₃ = some (c', true)

theorem Accepted.of_run {E : ConnEnv κ} {c c' : Conn κ} (h : tlsConnect E c = some (c', true)) :
    ∃ c₁ c₂ c₃, Accepted E c c₁ c₂ c₃ c' := by
  obtain ⟨c₃, h₁₂₃, h₄⟩ := Routine.next_success (Routine.onFail_success h)
  obtain ⟨c₂, h₁₂, h₃⟩ := Routine.next_success h₁₂₃
  obtain ⟨c₁, h₁, h₂⟩ := Routine.next_success h₁₂
  exact ⟨c₁, c₂, c₃, h₁, h₂, h₃, h₄⟩

/-- The text of the records that were handed over on the way from `c` to `c'`. -/
def textSince (c c' : Conn κ) : List UInt8 :=
  (c'.got.drop c.got.length).flatMap Prod.snd

/-- The storage of the deframer between two connections: a 16-bit counter, and accesses that were
in bounds so far. -/
structure Conn.Sound (c : Conn κ) : Prop where
  safe : TraceSafe c.hs.trace
  csNeed_lt : c.hs.csNeed < 65536

/-! ## Records and messages -/

/-- The records handed over since the log held `g` have these texts. -/
def Got (g : List (UInt8 × List UInt8)) (texts : List (List UInt8)) (c : Conn κ) : Prop :=
  ∃ recs, c.got = g ++ recs ∧ recs.map Prod.snd = texts

theorem Got.refl (c : Conn κ) : Got c.got [] c :=
  ⟨[], (List.append_nil _).symm, rfl⟩

theorem Got.textSince_eq {c₀ c : Conn κ} {texts : List (List UInt8)} (h : Got c₀.got texts c) :
    textSince c₀ c = texts.flatten := by
  obtain ⟨recs, hgot, rfl⟩ := h
  unfold textSince
  rw [hgot, List.drop_left, List.flatMap_def]

theorem Got.unique {g : List (UInt8 × List UInt8)} {texts texts' : List (List UInt8)} {c : Conn κ}
    (h : Got g texts c) (h' : Got g texts' c) : texts = texts' := by
  obtain ⟨recs, hgot, rfl⟩ := h
  obtain ⟨recs', hgot', rfl⟩ := h'
  rw [List.append_cancel_left (hgot.symm.trans hgot')]

/-- A record more. -/
theorem Got.handOver {g : List (UInt8 × List UInt8)} {texts : List (List UInt8)} {c c' : Conn κ}
    (h : Got g texts c) (hover : HandsOver c (c', true)) : Got g (texts ++ [c'.record]) c' := by
  obtain ⟨recs, hgot, rfl⟩ := h
  have hgot' : c'.got = c.got ++ [(c'.recType, c'.record)] := hover
  refine ⟨recs ++ [(c'.recType, c'.record)], ?_, ?_⟩
  · rw [hgot', hgot, List.append_assoc]
  · rw [List.map_append]
    rfl

theorem Got.keep {g : List (UInt8 × List UInt8)} {texts : List (List UInt8)} {c c' : Conn κ}
    (h : Got g texts c) (hover : HandsOver c (c', false)) : Got g texts c' := by
  obtain ⟨recs, hgot, htext⟩ := h
  have hgot' : c'.got = c.got := hover
  exact ⟨recs, hgot'.trans hgot, htext⟩

/-- Messages of the size that they announce. -/
def Whole (ms : List (List UInt8)) : Prop :=
  ∀ m ∈ ms, m.length = hsSize m

theorem hsSize_ge (bs : List UInt8) : 4 ≤ hsSize bs :=
  Nat.le_add_right 4 _

/-- A text is split into messages in one way. -/
theorem Whole.unique {ms : List (List UInt8)} : ∀ {ms' : List (List UInt8)} {r r' : List UInt8},
    Whole ms → Whole ms' → ms.length = ms'.length → ms.flatten ++ r = ms'.flatten ++ r' → ms = ms' := by
  induction ms with
  | nil =>
      intro ms' r r' _ _ hlen _
      exact (List.length_eq_zero_iff.1 hlen.symm).symm
  | cons m ms ih =>
      intro ms' r r' h h' hlen hflat
      cases ms' with
      | nil => cases hlen
      | cons m' ms' =>
          have hm : m.length = hsSize m := h m List.mem_cons_self
          have hm' : m'.length = hsSize m' := h' m' List.mem_cons_self
          rw [List.flatten_cons, List.flatten_cons, List.append_assoc, List.append_assoc] at hflat
          have hsame : m.length = m'.length := by
            have hsize := congrArg hsSize hflat
            rw [hsSize_append _ (hm ▸ hsSize_ge m), hsSize_append _ (hm' ▸ hsSize_ge m')] at hsize
            rw [hm, hm', hsize]
          obtain ⟨rfl, hrest⟩ := List.append_inj hflat hsame
          rw [ih (fun x hx => h x (List.mem_cons_of_mem _ hx))
            (fun x hx => h' x (List.mem_cons_of_mem _ hx)) (Nat.succ.inj hlen) hrest]

/-! ## The deframer under the record layer -/

theorem DfInv.reload {s : Hs κ} (h : DfInv s) (buf : Buffer) {len : Nat} (st : TlsState)
    (hlen : len ≤ recBufSize) :
    DfInv { s with recBuf := buf, recLen := len, recOff := 0, tlsState := st } :=
  ⟨⟨h.safe, hlen, Nat.zero_le _, h.hdrHave_le, h.csNeed_lt⟩, h.carry_fits, h.stream_lt,
    h.leaf_fits⟩

/-- A record replaces the one that was used up. -/
theorem Taking.reload {base bs : List UInt8} {s : Hs κ} (h : Taking base s bs) (buf : Buffer)
    {len : Nat} (st : TlsState) (hlen : len ≤ recBufSize) :
    Taking base { s with recBuf := buf, recLen := len, recOff := 0, tlsState := st } bs := by
  cases h with
  | header hpart hshort hf =>
      exact .header ⟨hpart.inv.reload buf st hlen, hpart.mode_eq, hpart.have_eq, hpart.hdr_eq,
        hpart.split⟩ hshort hf
  | body hinv hm hf hfour hsize hopen hext =>
      exact .body (hinv.reload buf st hlen) hm hf hfour hsize hopen hext

theorem Taking.wait {base bs : List UInt8} {s : Hs κ} (h : Taking base s bs) (st : TlsState) :
    Taking base { s with tlsState := st } bs := by
  have hkeep : ∀ {s : Hs κ}, DfInv s → DfInv { s with tlsState := st } := by
    intro s hinv
    exact ⟨⟨hinv.safe, hinv.recLen_le, hinv.recOff_le, hinv.hdrHave_le, hinv.csNeed_lt⟩,
      hinv.carry_fits, hinv.stream_lt, hinv.leaf_fits⟩
  cases h with
  | header hpart hshort hf =>
      exact .header ⟨hkeep hpart.inv, hpart.mode_eq, hpart.have_eq, hpart.hdr_eq, hpart.split⟩
        hshort hf
  | body hinv hm hf hfour hsize hopen hext => exact .body (hkeep hinv) hm hf hfour hsize hopen hext

/-- The deframer waits for a record, whatever the reader has put into the buffer meanwhile. -/
def Awaiting (base : List UInt8) (s : Hs κ) (bs : List UInt8) : Prop :=
  ∀ (buf : Buffer) (len : Nat) (st : TlsState), len ≤ recBufSize →
    Taking base { s with recBuf := buf, recLen := len, recOff := 0, tlsState := st } bs

theorem Awaiting.unfinished {base bs : List UInt8} {s : Hs κ} (h : Awaiting base s bs) : Unfinished bs :=
  (h s.recBuf 0 s.tlsState (Nat.zero_le _)).unfinished

theorem Awaiting.of_rest {base bs : List UInt8} {c c' : Conn κ} (h : Awaiting base c.hs bs)
    (hrest : c'.rest = c.rest) : Awaiting base c'.hs bs := by
  intro buf len st hlen
  have := h buf len st hlen
  rw [rest_hs hrest]
  exact this

/-! ## One receive -/

/-- The last record that was handed over was needed: the ones before it hold no more than `n` bytes. -/
def Needed (texts : List (List UInt8)) (n : Nat) : Prop :=
  ∀ front last, texts = front ++ [last] → front.flatten.length ≤ n

/-- And not all of the last message, if that has a body. -/
structure NeededFor (texts : List (List UInt8)) (ms : List (List UInt8)) : Prop where
  le : Needed texts ms.flatten.length
  last : ∀ pre m, ms = pre ++ [m] → 4 < m.length → ∀ front last, texts = front ++ [last] →
    front.flatten.length < ms.flatten.length

/-- Between two messages: `ms` have been taken, and what is left of the record comes next. -/
structure AtGap (g : List (UInt8 × List UInt8)) (base : List UInt8) (ms : List (List UInt8))
    (c : Conn κ) : Prop where
  reader : c.recvState = .header
  whole : Whole ms
  taking : Taking (base ++ ms.flatten) c.hs []
  got : ∃ texts, Got g texts c ∧ texts.flatten = ms.flatten ++ c.hs.pending ∧ NeededFor texts ms

/-- Between two turns, with `bs` taken of the message under way. -/
structure AtPump (g : List (UInt8 × List UInt8)) (base : List UInt8) (ms : List (List UInt8))
    (c : Conn κ) : Prop where
  reader : c.recvState = .header
  whole : Whole ms
  taking : ∃ bs texts, Taking (base ++ ms.flatten) c.hs bs ∧ Got g texts c ∧
    texts.flatten = ms.flatten ++ bs ++ c.hs.pending ∧ Needed texts (ms.flatten.length + bs.length)

/-- The record is used up. -/
structure AtWait (g : List (UInt8 × List UInt8)) (base : List UInt8) (ms : List (List UInt8))
    (c : Conn κ) : Prop where
  len : LenChecked c
  whole : Whole ms
  taking : ∃ bs texts, Awaiting (base ++ ms.flatten) c.hs bs ∧ Got g texts c ∧
    texts.flatten = ms.flatten ++ bs

def InFlight (g : List (UInt8 × List UInt8)) (base : List UInt8) (ms : List (List UInt8))
    (x : Conn κ × Nat × EncAt) : Prop :=
  match x.2.2 with
  | .pump => AtPump g base ms x.1
  | .wait => AtWait g base ms x.1

/-- A message more. -/
def Grown (g : List (UInt8 × List UInt8)) (base : List UInt8) (ms : List (List UInt8))
    (c : Conn κ) : Prop :=
  ∃ m, AtGap g base (ms ++ [m]) c

/-- The record in which a message ends was needed for it. -/
theorem Needed.message {texts ms : List (List UInt8)} {bs m : List UInt8}
    (h : Needed texts (ms.flatten.length + bs.length)) (hle : bs.length ≤ m.length)
    (hlt : 4 < m.length → bs.length < m.length) : NeededFor texts (ms ++ [m]) := by
  have hflat : (ms ++ [m]).flatten.length = ms.flatten.length + m.length := by
    simp
  refine ⟨fun front last htexts => ?_, fun pre m' hms hbody front last htexts => ?_⟩
  · have hfront := h front last htexts
    omega
  · have hfront := h front last htexts
    obtain ⟨-, hm⟩ := List.append_inj' hms rfl
    rw [← (List.cons.inj hm).1] at hbody
    have hbs := hlt hbody
    omega

theorem encTurn_inFlight (E : ConnEnv κ) {g : List (UInt8 × List UInt8)} {base : List UInt8}
    {ms : List (List UInt8)} (x : Conn κ × Nat × EncAt) (h : InFlight g base ms x) :
    (encTurn E x).Post (InFlight g base ms) (Lands (Grown g base ms)) := by
  rcases x with ⟨c, timeout, place⟩
  cases place with
  | pump =>
      obtain ⟨hst, hms, bs, texts, htaking, hgot, htext, hneed⟩ := h
      unfold encTurn
      dsimp only
      cases hpump : tlsDeframePump E.df c.hs with
      | none => exact lands_none _
      | some r =>
          rcases r with ⟨hs, ret⟩
          have htook := tlsDeframePump_took E.df htaking hpump
          cases ret with
          | msg =>
              -- a message is whole: what is left in the record stands behind it
              obtain ⟨m, hsplit, hsize, hnext⟩ := htook.msg rfl
              obtain ⟨hle, hlt⟩ := htaking.unfinished.lt_of_message hsplit hsize
              have hflat : (ms ++ [m]).flatten = ms.flatten ++ m := by
                simp
              refine lands_success ⟨m, hst, ?_, ?_, texts, hgot, ?_, hneed.message hle hlt⟩
              · intro x hx
                rcases List.mem_append.1 hx with hx | hx
                · exact hms x hx
                · rw [List.mem_singleton.1 hx]
                  exact hsize
              · rw [hflat, ← List.append_assoc]
                exact hnext
              · rw [List.append_assoc, hsplit, ← List.append_assoc, ← hflat] at htext
                exact htext
          | more =>
              -- the record is used up, so the next one is needed
              obtain ⟨hnext, hpend⟩ := htook.more rfl
              refine ⟨lenChecked_of_header hst, hms, bs ++ c.hs.pending, texts, ?_, hgot, ?_⟩
              · intro buf len st hlen
                exact hnext.reload buf st hlen
              · rw [← List.append_assoc]
                exact htext
          | err e => exact lands_fail _ _
  | wait =>
      obtain ⟨hlen, hms, bs, texts, hawait, hgot, htext⟩ := h
      have hpoll : Got g texts (netPoll c) := hgot
      refine encWait_post hlen ?_ ?_
      · intro c' hspec hover hst
        have hbuf : c'.hs.recLen ≤ recBufSize := hspec.recLen_le rfl
        have hawait' : Awaiting (base ++ ms.flatten) c'.hs bs := hawait.of_rest hspec.rest_eq
        refine ⟨hst, hms, bs, texts ++ [c'.record], hawait' _ _ _ hbuf, hpoll.handOver hover, ?_, ?_⟩
        · rw [List.flatten_append, htext, List.flatten_singleton]
          rfl
        · intro front last hsplit
          obtain ⟨rfl, -⟩ := List.append_inj' hsplit rfl
          rw [htext, List.length_append]
      · intro c' t hspec hover _ hl
        exact ⟨hl, hms, bs, texts, hawait.of_rest hspec.rest_eq, hpoll.keep hover, htext⟩

/-- One receive over the deframer takes one message. -/
theorem expect_grown (E : ConnEnv κ) (hE : E.streamDeframe = true)
    (g : List (UInt8 × List UInt8)) (base : List UInt8) (ms : List (List UInt8)) (st : TlsState) :
    Triple (AtGap g base ms) (expect E st) (Grown g base ms) (fun _ => True) := by
  refine Triple.next (Q := AtGap g base ms) (Triple.pure fun c h => ?_)
    (Triple.of_lands fun c h c' hrun => ?_)
  · exact ⟨h.reader, h.whole, h.taking.wait st, h.got⟩
  · unfold tlsRecvEncrypted at hrun
    rw [if_pos hE] at hrun
    refine loop_lands (InFlight g base ms) (fun x hx => encTurn_inFlight E x hx) ?_ hrun
    obtain ⟨texts, hgot, htext, hneed⟩ := h.got
    refine ⟨h.reader, h.whole, [], texts, h.taking, hgot, ?_, hneed.le⟩
    rw [List.append_nil]
    exact htext

/-! ## The flight -/

/-- `n` messages have been taken. -/
def GapAfter (g : List (UInt8 × List UInt8)) (base : List UInt8) (n : Nat) (c : Conn κ) : Prop :=
  ∃ ms, ms.length = n ∧ AtGap g base ms c

theorem expect_gapAfter (E : ConnEnv κ) (hE : E.streamDeframe = true)
    (g : List (UInt8 × List UInt8)) (base : List UInt8) (n : Nat) (st : TlsState) :
    Triple (GapAfter g base n) (expect E st) (GapAfter g base (n + 1)) (fun _ => True) := by
  refine Triple.exists fun ms => ?_
  rintro c ⟨hlen, hat⟩ c' ok hrun
  have hpost := expect_grown E hE g base ms st c hat c' ok hrun
  cases ok with
  | false => trivial
  | true =>
      obtain ⟨m, hat'⟩ := hpost
      refine ⟨ms ++ [m], ?_, hat'⟩
      rw [List.length_append, hlen]
      rfl

/-- `tls_deframe_init` finds nothing to take. -/
theorem flightStart_gap (E : ConnEnv κ) (hE : E.streamDeframe = true) {c : Conn κ}
    (hst : c.recvState = .header) (hsafe : TraceSafe c.hs.trace) (hneed : c.hs.csNeed < 65536)
    (hlen : c.hs.recLen ≤ recBufSize) :
    AtGap c.got (folded c.hs.trace) [] (flightStart E c) := by
  have hpend : (tlsDeframeInit c.hs).pending = [] := by
    refine List.length_eq_zero_iff.1 ?_
    rw [length_pending]
    exact Nat.sub_self _
  unfold flightStart
  rw [if_pos hE]
  refine ⟨hst, fun m hm => (by cases hm), ?_, [], Got.refl c, hpend.symm, ?_, ?_⟩
  · rw [List.flatten_nil, List.append_nil]
    refine .header ⟨?_, rfl, rfl, bytesAt_zero _ _, fun hne => absurd rfl hne⟩ (by simp) rfl
    exact dfInv_of_hdr ⟨hsafe, hlen, le_refl _, Nat.zero_le _, hneed⟩ rfl
  · intro front last hsplit
    exact absurd hsplit (List.append_ne_nil_of_right_ne_nil _ (List.cons_ne_nil _ _)).symm
  · intro pre m hsplit
    exact absurd hsplit (List.append_ne_nil_of_right_ne_nil _ (List.cons_ne_nil _ _)).symm

/-- The records of the flight hold the four messages, and then what the deframer has left; the last of them was
needed. -/
theorem connectFlight_gap (E : ConnEnv κ) (hE : E.streamDeframe = true) {c c' : Conn κ}
    (hst : c.recvState = .header) (hsafe : TraceSafe c.hs.trace) (hneed : c.hs.csNeed < 65536)
    (hlen : c.hs.recLen ≤ recBufSize) (hrun : connectFlight E c = some (c', true)) :
    GapAfter c.got (folded c.hs.trace) 4 c' := by
  have hstart : Triple (fun x => x = c) (Routine.pure (flightStart E))
      (GapAfter c.got (folded c.hs.trace) 0) (fun _ => True) := by
    refine Triple.pure ?_
    rintro x rfl
    exact ⟨[], rfl, flightStart_gap E hE hst hsafe hneed hlen⟩
  have hall := (((hstart.next (expect_gapAfter E hE _ _ 0 .encryptedExt)).next
    (expect_gapAfter E hE _ _ 1 .certificate)).next (expect_gapAfter E hE _ _ 2 .certVerify)).next
      (expect_gapAfter E hE _ _ 3 .finished)
  exact hall.success rfl hrun

/-! ## Before the ServerHello -/

/-- Nothing has been read of `w`, and the log holds `g`. -/
structure Unread (w : List (List UInt8)) (g : List (UInt8 × List UInt8)) (c : Conn κ) : Prop where
  boundary : AtBoundary c
  ring_eq : c.ring = []
  wire_eq : c.wire = w
  got_eq : c.got = g

section Before

variable {w : List (List UInt8)} {g : List (UInt8 × List UInt8)}

theorem Unread.pending_eq {c : Conn κ} (h : Unread w g c) : c.pending = w.flatten := by
  rw [pending_of_boundary h.boundary rfl, h.ring_eq, h.wire_eq, List.nil_append]

theorem Unread.send {c : Conn κ} (h : Unread w g c) (R : RecordEnv) :
    Unread w g (tlsSendRecord R c).1 := by
  unfold tlsSendRecord
  dsimp only
  split
  · exact ⟨h.boundary, h.ring_eq, h.wire_eq, h.got_eq⟩
  · exact ⟨h.boundary, h.ring_eq, h.wire_eq, h.got_eq⟩

theorem tlsChSection_unread (E : ConnEnv κ) (bs : List UInt8) :
    Triple (Unread w g) (tlsChSection E bs) (Unread w g) (fun _ => True) := by
  intro c h c' ok hrun
  cases ok with
  | false => trivial
  | true =>
      unfold tlsChSection at hrun
      dsimp only at hrun
      split at hrun
      · cases hrun
        exact ⟨h.boundary, h.ring_eq, h.wire_eq, h.got_eq⟩
      · rename_i hfail
        exact absurd (congrArg (fun r => r.map Prod.snd) hrun) (by simpa using hfail)

theorem tlsSendClientHello_unread (E : ConnEnv κ) (h : Hello) :
    Triple (Unread w g) (tlsSendClientHello E h) (Unread w g) (fun _ => True) := by
  have hsections : Triple (Unread w g) (tlsChSendSections E h) (Unread w g) (fun _ => True) := by
    refine Triple.next (Q := Unread w g) (Triple.next (Q := Unread w g)
      (Triple.next (Q := Unread w g) ?_ (tlsChSection_unread E _)) (tlsChSection_unread E _))
      (tlsChSection_unread E _)
    intro c hc c' ok hrun
    cases ok with
    | false => trivial
    | true =>
        have hstate := congrArg (fun r => r.map Prod.fst) hrun
        cases hstate
        exact ⟨hc.boundary, hc.ring_eq, hc.wire_eq, hc.got_eq⟩
  have hclassic : Triple (Unread w g) (tlsChSendClassic E) (Unread w g) (fun _ => True) := by
    intro c hc c' ok hrun
    cases ok with
    | false => trivial
    | true =>
        have hsent : Unread w g (tlsRecordSendPlaintext E.toRecordEnv c ctHandshake).1 :=
          Unread.send (c := { c with recHdr := recordHeader ctHandshake c.hs.recLen c.recHdr })
            ⟨hc.boundary, hc.ring_eq, hc.wire_eq, hc.got_eq⟩ E.toRecordEnv
        unfold tlsChSendClassic at hrun
        dsimp only at hrun
        split at hrun
        · cases hrun
          exact ⟨hsent.boundary, hsent.ring_eq, hsent.wire_eq, hsent.got_eq⟩
        · rename_i hfail
          exact absurd (congrArg (fun r => r.map Prod.snd) hrun) (by simpa using hfail)
  intro c hc
  have hc' : ∀ s : Hs κ, Unread w g { c with hs := s } :=
    fun s => ⟨hc.boundary, hc.ring_eq, hc.wire_eq, hc.got_eq⟩
  unfold tlsSendClientHello
  dsimp only
  split
  · exact hclassic _ (hc' _)
  · exact hsections _ (hc' _)

/-- The ClientHello goes out before anything is read, and what an earlier connection left in the ring is gone. -/
theorem connectHello_unread (E : ConnEnv κ) (c : Conn κ) :
    Triple (fun x => x = c) (connectHello E) (Unread c.wire c.got) (fun _ => True) := by
  rintro _ rfl c' ok hrun
  unfold connectHello at hrun
  dsimp only at hrun
  split at hrun
  · cases hrun
    trivial
  · refine tlsSendClientHello_unread E _ _ ?_ c' ok hrun
    exact ⟨⟨rfl, rfl⟩, rfl, rfl, rfl⟩

end Before

/-! ## The ServerHello -/

section Hello

variable {E : ConnEnv κ} {g : List (UInt8 × List UInt8)} {x : Option (UInt8 × List UInt8)}

/-- While the ServerHello is awaited: the hybrid reader has read the records so far, and the other parser waits
for its first. -/
structure HelloWait (E : ConnEnv κ) (g : List (UInt8 × List UInt8)) (x : Option (UInt8 × List UInt8))
    (c : Conn κ) : Prop where
  reading : Reading c
  len : LenChecked c
  counts : E.pqHybrid = true → ∃ texts, Got g texts c ∧ c.pq.Counts texts.flatten
  awaits : E.pqHybrid = false → c.got = g ∧ Awaits x c

/-- The ServerHello is in, in a record of the buffer's size at most.  The hybrid reader has read to the end of
it; the other parser has been given the first record that is no ChangeCipherSpec. -/
structure HelloIn (E : ConnEnv κ) (g : List (UInt8 × List UInt8)) (x : Option (UInt8 × List UInt8))
    (c : Conn κ) : Prop where
  boundary : AtBoundary c
  recLen_le : c.hs.recLen ≤ recBufSize
  ends : E.pqHybrid = true → ∃ texts, Got g texts c ∧ texts.flatten.length = hsSize texts.flatten
  record : E.pqHybrid = false → ∃ ty body, x = some (ty, body) ∧ Got g [body] c

theorem rest_pq {c c' : Conn κ} (h : c'.rest = c.rest) : c'.pq = c.pq := by
  have := congrArg (fun c : Conn κ => c.pq) h
  exact this

theorem shRecord_hello {c : Conn κ} (timeout : Nat) (hbound : AtBoundary c) (hlen : c.hs.recLen ≤ recBufSize)
    (hread : E.pqHybrid = true → ∃ texts, Got g (texts ++ [c.record]) c ∧ c.pq.Counts texts.flatten)
    (hfirst : E.pqHybrid = false → ∃ ty body, x = some (ty, body) ∧ Got g [body] c) :
    (shRecord E c timeout).Post (fun y => HelloWait E g x y.1) (Lands (HelloIn E g x)) := by
  unfold shRecord
  split
  · rename_i hpq
    have hnot : ∀ {p : Prop}, E.pqHybrid = false → p := fun h => absurd (hpq.symm.trans h) (by decide)
    obtain ⟨texts, hgot, hcounts⟩ := hread hpq
    have hfeed := ShReader.pqShFeed_counts hcounts c.recType c.record
    have hflat : (texts ++ [c.record]).flatten = texts.flatten ++ c.record := by
      simp
    rw [← hflat] at hfeed
    -- the reader counts the text across records, and sees to it that nothing follows
    cases hrun : c.pq.pqShFeed c.recType c.record with
    | leave r => exact lands_fail _ _
    | again r =>
        rcases r with ⟨r, complete⟩
        rw [hrun] at hfeed
        obtain ⟨hread', hsize⟩ := hfeed
        dsimp only
        split
        · exact lands_success ⟨hbound, hlen, fun _ => ⟨_, hgot, hsize ‹_›⟩, hnot⟩
        · exact ⟨AtBoundary.reading (c := Conn.fold E { c with pq := r } _) hbound,
            lenChecked_of_header hbound.1, fun _ => ⟨_, hgot, hread'⟩, hnot⟩
  rename_i hpq
  split
  · exact lands_fail _ _
  split
  · exact lands_none _
  · exact lands_fail _ _
  · exact lands_success ⟨hbound, hlen, fun hpq' => absurd hpq' hpq, hfirst⟩

theorem shTurn_hello (y : Conn κ × Nat) (h : HelloWait E g x y.1) :
    (shTurn E y).Post (fun y => HelloWait E g x y.1) (Lands (HelloIn E g x)) := by
  rcases y with ⟨c, timeout⟩
  have hpoll : E.pqHybrid = true → ∃ texts, Got g texts (netPoll c) ∧ c.pq.Counts texts.flatten := h.counts
  unfold shTurn
  dsimp only
  cases hrun : tlsRecordRecvAndDecrypt E.toRecordEnv (netPoll c) with
  | none => exact lands_none _
  | some r =>
      rcases r with ⟨c', ok⟩
      obtain ⟨hspec, hreader⟩ := recv_spec E.toRecordEnv (c := netPoll c) h.len hrun
      obtain ⟨hreading, hbound⟩ := recv_reading (netPoll_reading h.reading) hrun
      have hover := recv_got E.toRecordEnv hrun
      have hpq : c'.pq = c.pq := rest_pq hspec.rest_eq
      cases ok with
      | true =>
          refine shRecord_hello timeout (hbound rfl) (hspec.recLen_le rfl) (fun hE => ?_) fun hE => ?_
          · obtain ⟨texts, hgot, hcounts⟩ := hpoll hE
            exact ⟨texts, hgot.handOver hover, hpq ▸ hcounts⟩
          · obtain ⟨hgot, hawaits⟩ := h.awaits hE
            have hfirst := recv_hello hE hawaits.poll hrun
            rw [if_pos rfl] at hfirst
            refine ⟨_, _, hfirst, ?_⟩
            rw [← hgot]
            exact (Got.refl (netPoll c)).handOver hover
      | false =>
          -- no record yet: what is still to come is what it was
          dsimp only
          split
          · exact lands_fail _ _
          split
          · exact lands_fail _ _
          · refine ⟨hreading, hreader.len, fun hE => ?_, fun hE => ?_⟩
            · obtain ⟨texts, hgot, hcounts⟩ := hpoll hE
              exact ⟨texts, hgot.keep hover, hpq ▸ hcounts⟩
            · obtain ⟨hgot, hawaits⟩ := h.awaits hE
              have hrest := recv_hello hE hawaits.poll hrun
              rw [if_neg Bool.false_ne_true] at hrest
              have hkept : c'.got = c.got := hover
              exact ⟨hkept.trans hgot, hrest⟩

variable {w : List (List UInt8)}

theorem shWait_hello (E : ConnEnv κ) (w : List (List UInt8)) (g : List (UInt8 × List UInt8)) :
    Triple (fun c => Unread w g c ∧ c.hs.tlsState = .serverHello) (shWait E)
      (HelloIn E g (helloRecord (items w.flatten))) (fun _ => True) := by
  refine Triple.of_lands fun c h c' hrun => ?_
  obtain ⟨hun, hst⟩ := h
  unfold shWait at hrun
  dsimp only at hrun
  refine loop_lands _ (fun y hy => shTurn_hello y hy) ?_ hrun
  have hread : Reading { c with pq := if E.pqHybrid = true then c.pq.init else c.pq } :=
    AtBoundary.reading (c := { c with pq := if E.pqHybrid = true then c.pq.init else c.pq }) hun.boundary
  refine ⟨hread, lenChecked_of_header hun.boundary.1, fun hE => ?_, fun _ => ⟨hun.got_eq, hread, ?_, ?_⟩⟩
  · refine ⟨[], ⟨[], ?_, rfl⟩, ?_⟩
    · rw [List.append_nil]
      exact hun.got_eq
    · show (if E.pqHybrid = true then c.pq.init else c.pq).Counts []
      rw [if_pos hE]
      exact ShReader.init_counts c.pq
  · show c.hs.tlsState.code < _
    rw [hst]
    decide
  · exact congrArg (fun bs => helloRecord (items bs)) hun.pending_eq

theorem HelloIn.drain (n : Nat) : ∀ c : Conn κ, HelloIn E g x c → HelloIn E g x (shDrainPolls n c) := by
  induction n with
  | zero =>
      intro c h
      exact h
  | succ n ih =>
      intro c h
      exact ih (netPoll c) ⟨h.boundary, h.recLen_le, h.ends, h.record⟩

theorem sharedSecret_hello (E : ConnEnv κ) (g : List (UInt8 × List UInt8)) (x : Option (UInt8 × List UInt8)) :
    Triple (HelloIn E g x) (sharedSecret E) (HelloIn E g x) (fun _ => True) := by
  refine Triple.of_lands fun c h c' hrun => ?_
  unfold sharedSecret at hrun
  dsimp only at hrun
  generalize (if E.pqHybrid = true then E.pqShDecaps c.hs.keys c.pq
    else (c.hs.keys, true)) = r at hrun
  split at hrun
  · cases hrun
  · have hstate := congrArg (fun r => r.map Prod.fst) hrun
    cases hstate
    exact ⟨h.boundary, h.recLen_le, h.ends, h.record⟩

theorem connectServerHello_hello (E : ConnEnv κ) (w : List (List UInt8)) (g : List (UInt8 × List UInt8)) :
    Triple (Unread w g) (connectServerHello E) (HelloIn E g (helloRecord (items w.flatten)))
      (fun _ => True) := by
  have hrecv : Triple (fun c => Unread w g c ∧ c.hs.tlsState = .serverHello) (tlsRecvServerHello E)
      (HelloIn E g (helloRecord (items w.flatten))) (fun _ => True) :=
    Triple.next (Triple.next (shWait_hello E w g) (Triple.pure (HelloIn.drain _)))
      (sharedSecret_hello E _ _)
  exact Triple.next (Triple.next
    (Triple.pure fun c h => ⟨⟨h.boundary, h.ring_eq, h.wire_eq, h.got_eq⟩, rfl⟩) hrecv)
    (Triple.pure fun c h => ⟨h.boundary, h.recLen_le, h.ends, h.record⟩)

end Hello

/-! ## The texts of the flight -/

section Flow

variable {E : ConnEnv κ} {K : TrafficKeys} {g : List (UInt8 × List UInt8)} {T : List (List UInt8)} {c : Conn κ}

/-- In the flight: what was handed over since `g` and what is still to be opened are the texts `T`. -/
structure Flow (R : RecordEnv) (K : TrafficKeys) (g : List (UInt8 × List UInt8)) (T : List (List UInt8))
    (c : Conn κ) : Prop where
  reading : Reading c
  keys : c.hsKeys = K
  texts : ∃ texts, Got g texts c ∧ T = texts ++ c.texts R K.read

/-- What the deframer does between two records is not the reader's. -/
theorem Flow.withHs {R : RecordEnv} (h : Flow R K g T c) (hbound : AtBoundary c) (s : Hs κ) :
    Flow R K g T { c with hs := s } := by
  have hbound' : AtBoundary { c with hs := s } := hbound
  refine ⟨hbound'.reading, h.keys, ?_⟩
  have hpend : Conn.pending { c with hs := s } = c.pending := by
    rw [pending_of_boundary hbound' rfl, pending_of_boundary hbound rfl]
  have htexts : Conn.texts R K.read { c with hs := s } = c.texts R K.read := by
    unfold Conn.texts
    rw [hpend]
  rw [htexts]
  exact h.texts

/-- Between two turns. -/
def FlowAt (R : RecordEnv) (K : TrafficKeys) (g : List (UInt8 × List UInt8)) (T : List (List UInt8))
    (x : Conn κ × Nat × EncAt) : Prop :=
  Flow R K g T x.1 ∧ (x.2.2 = .pump → AtBoundary x.1)

/-- Between two messages. -/
def FlowGap (R : RecordEnv) (K : TrafficKeys) (g : List (UInt8 × List UInt8)) (T : List (List UInt8))
    (c : Conn κ) : Prop :=
  Flow R K g T c ∧ AtBoundary c

theorem encTurn_flow (E : ConnEnv κ) (x : Conn κ × Nat × EncAt) (hst : HandshakeState x.1.hs.tlsState)
    (h : FlowAt E.toRecordEnv K g T x) :
    (encTurn E x).Post (FlowAt E.toRecordEnv K g T) (Lands (FlowGap E.toRecordEnv K g T)) := by
  rcases x with ⟨c, timeout, place⟩
  obtain ⟨hflow, hbound⟩ := h
  cases place with
  | pump =>
      have hbound := hbound rfl
      unfold encTurn
      dsimp only
      cases tlsDeframePump E.df c.hs with
      | none => exact lands_none _
      | some r =>
          rcases r with ⟨hs, ret⟩
          cases ret with
          | msg => exact lands_success ⟨hflow.withHs hbound hs, hbound⟩
          | more => exact ⟨hflow.withHs hbound hs, fun _ => hbound⟩
          | err e => exact lands_fail _ _
  | wait =>
      obtain ⟨hreading, hkeys, texts, hgot, hT⟩ := hflow
      have hopen : Opening E.toRecordEnv K.read (c.texts E.toRecordEnv K.read) c :=
        ⟨hreading, hst, selectKeys_handshake hst hkeys .read, rfl⟩
      unfold encTurn encWait
      dsimp only
      cases hrun : tlsRecordRecvAndDecrypt E.toRecordEnv (netPoll c) with
      | none => exact lands_none _
      | some r =>
          rcases r with ⟨c', ok⟩
          have hopened := recv_opened hopen.poll hrun
          have hover := recv_got E.toRecordEnv hrun
          have hkeys' : c'.hsKeys = K := (rest_hsKeys (recv_effect E.toRecordEnv hrun).hsKeys_eq).trans hkeys
          have hpoll : Got g texts (netPoll c) := hgot
          unfold Opened₁ at hopened
          cases ok with
          | true =>
              -- one text more is handed over, and one less is to be opened
              rw [if_pos rfl] at hopened
              obtain ⟨T', hhead, hbound', hopen'⟩ := hopened
              dsimp only
              split
              · exact lands_fail _ _
              · have hflow' : Flow E.toRecordEnv K g T c' := by
                  refine ⟨hbound'.reading, hkeys', texts ++ [c'.record], hpoll.handOver hover, ?_⟩
                  rw [hT, hhead, hopen'.texts, List.append_assoc]
                  rfl
                exact ⟨hflow'.withHs hbound' _, fun _ => hbound'⟩
          | false =>
              rw [if_neg Bool.false_ne_true] at hopened
              dsimp only
              split
              · exact lands_fail _ _
              split
              · exact lands_fail _ _
              · rename_i hne _
                have hopen' := hopened hne
                refine ⟨⟨hopen'.reading, hkeys', texts, hpoll.keep hover, ?_⟩, fun h => (by cases h)⟩
                rw [hT, hopen'.texts]

/-- One message of the flight. -/
theorem expect_flow (hE : E.streamDeframe = true) {st : TlsState} (hst : HandshakeState st) :
    Triple (fun c => FlowGap E.toRecordEnv K g T c ∧ ∃ log, Between E log c) (expect E st)
      (fun c => FlowGap E.toRecordEnv K g T c ∧ ∃ log, Between E log c) (fun _ => True) := by
  refine Triple.next (Q := fun c => FlowGap E.toRecordEnv K g T c ∧ ∃ log, Ready E log st c)
    (Triple.pure ?_) (Triple.of_lands ?_)
  · rintro c ⟨hflow, log, hb⟩
    exact ⟨⟨hflow.1.withHs hflow.2 _, hflow.2⟩, log, ⟨hb.reader, rfl, hb.log, hb.mode_eq⟩⟩
  · rintro c ⟨hflow, log, hready⟩ c' hrun
    unfold tlsRecvEncrypted at hrun
    rw [if_pos hE] at hrun
    have hboth := loop_lands (Q := fun c => Received E log st c ∧ FlowGap E.toRecordEnv K g T c)
      (fun x => AtTurn log st x ∧ FlowAt E.toRecordEnv K g T x) ?_
      ⟨⟨lenChecked_of_header hready.reader, fun _ => hready.reader,
        .header (hready.mode_eq hE) hready.state_eq hready.log⟩, hflow.1, fun _ => hflow.2⟩ hrun
    · obtain ⟨⟨entry, -, hready'⟩, hflow'⟩ := hboth
      exact ⟨hflow', _, hready'.reader, hready'.log, hready'.mode_eq⟩
    · rintro x ⟨hat, hx⟩
      have hx' : HandshakeState x.1.hs.tlsState := by
        rw [hat.2.2.state]
        exact hst
      exact ((encTurn_spec E x hat).and (encTurn_flow E x hx' hx)).mono (fun _ h => h)
        fun _ h c'' hc'' => ⟨h.1 c'' hc'', h.2 c'' hc''⟩

/-- The records that the flight took are the first of those that the bytes behind the ServerHello hold. -/
theorem connectFlight_flow (hE : E.streamDeframe = true) {c c' : Conn κ} (hbound : AtBoundary c)
    (hrun : connectFlight E c = some (c', true)) :
    ∃ texts, Got c.got texts c' ∧ texts <+: c.texts E.toRecordEnv c.hsKeys.read := by
  have hstart : Triple (fun x => x = c) (Routine.pure (flightStart E))
      (fun x => FlowGap E.toRecordEnv c.hsKeys c.got (c.texts E.toRecordEnv c.hsKeys.read) x ∧
        ∃ log, Between E log x) (fun _ => True) := by
    refine Triple.pure ?_
    rintro x rfl
    have hflow : Flow E.toRecordEnv x.hsKeys x.got (x.texts E.toRecordEnv x.hsKeys.read) x :=
      ⟨hbound.reading, rfl, [], Got.refl x, rfl⟩
    refine ⟨?_, _, flightStart_between E (s := x.hs) ⟨hbound.1, rfl, rfl⟩⟩
    unfold flightStart
    rw [if_pos hE]
    exact ⟨hflow.withHs hbound _, hbound⟩
  have hstate : HandshakeState .encryptedExt ∧ HandshakeState .certificate ∧ HandshakeState .certVerify ∧
      HandshakeState .finished :=
    ⟨⟨by decide, by decide⟩, ⟨by decide, by decide⟩, ⟨by decide, by decide⟩, ⟨by decide, by decide⟩⟩
  have hall := (((hstart.next (expect_flow hE hstate.1)).next (expect_flow hE hstate.2.1)).next
    (expect_flow hE hstate.2.2.1)).next (expect_flow hE hstate.2.2.2)
  obtain ⟨⟨⟨-, -, texts, hgot, htexts⟩, -⟩, -⟩ := hall.success rfl hrun
  exact ⟨texts, hgot, _, htexts.symm⟩

end Flow

/-! ## Nothing is dropped -/

/-- No byte follows the ServerHello in its record. -/
def HelloEnds (c₁ c₂ : Conn κ) : Prop :=
  (textSince c₁ c₂).length ≤ hsSize (textSince c₁ c₂)

/-- On every accepted connection neither key change drops a byte. -/
def NothingDropped (E : ConnEnv κ) (c : Conn κ) : Prop :=
  ∀ c₁ c₂ c₃ c', Accepted E c c₁ c₂ c₃ c' →
    HelloEnds c₁ c₂ ∧ (E.streamDeframe = true → c₃.hs.recOff = c₃.hs.recLen)

/-- Of these bytes, the first record that is no ChangeCipherSpec is no longer than the message at its head. -/
def HelloFits (bs : List UInt8) : Prop :=
  ∀ ty body, helloRecord (items bs) = some (ty, body) → body.length ≤ hsSize body

/-- The first texts are four messages, and the last of the four ends with its text. -/
def FourEnd (T : List (List UInt8)) (last : List UInt8) : Prop :=
  ∃ front pre, front <+: T ∧ pre.length = 3 ∧ Whole (pre ++ [last]) ∧ front.flatten = (pre ++ [last]).flatten

/-- The peer lets both messages end with their record: the ServerHello, where the reader does not see to it, and
the Finished, a message with a body. -/
structure EndsWithRecord (E : ConnEnv κ) (c : Conn κ) : Prop where
  hello : E.pqHybrid = false → HelloFits c.wire.flatten
  finished : E.streamDeframe = true → ∀ c₁ c₂, connectHello E c = some (c₁, true) →
    connectServerHello E c₁ = some (c₂, true) →
      ∃ last, 4 < last.length ∧ FourEnd (c₂.texts E.toRecordEnv c₂.hsKeys.read) last

theorem pending_eq_nil {s : Hs κ} (h : DfInv s) : s.pending = [] ↔ s.recOff = s.recLen := by
  have hle := h.recOff_le
  rw [← List.length_eq_zero_iff, length_pending]
  omega

/-- What a run has taken of the texts when the four messages are in. -/
structure Taken (T texts ms : List (List UInt8)) (pending : List UInt8) : Prop where
  texts_eq : texts <+: T
  whole : Whole ms
  length_eq : ms.length = 4
  flatten_eq : texts.flatten = ms.flatten ++ pending
  needed : NeededFor texts ms

theorem flatten_prefix {a b : List (List UInt8)} (h : a <+: b) : ∃ r, b.flatten = a.flatten ++ r := by
  obtain ⟨r, rfl⟩ := h
  exact ⟨r.flatten, List.flatten_append⟩

/-- Where the four messages end with a text, the run takes them and nothing else: a record less would not have
been enough, and no record more was needed. -/
theorem Taken.pending_eq_nil {T texts ms : List (List UInt8)} {pending last : List UInt8}
    (h : Taken T texts ms pending) (hends : FourEnd T last) (hbody : 4 < last.length) : pending = [] := by
  obtain ⟨front, pre, hfront, hthree, hwhole, hflat⟩ := hends
  obtain ⟨r, hr⟩ := flatten_prefix h.texts_eq
  obtain ⟨r', hr'⟩ := flatten_prefix hfront
  have hms : pre ++ [last] = ms := by
    have hsame : (pre ++ [last]).flatten ++ r' = ms.flatten ++ (pending ++ r) := by
      rw [← hflat, ← hr', hr, h.flatten_eq, List.append_assoc]
    refine hwhole.unique h.whole ?_ hsame
    rw [h.length_eq, List.length_append, hthree]
    rfl
  rcases Nat.lt_or_ge front.length texts.length with hlt | hge
  · -- the last record taken stands behind the four messages
    obtain ⟨init, tail, rfl⟩ : ∃ init tail, texts = init ++ [tail] := by
      refine ⟨texts.dropLast, texts.getLast ?_, (List.dropLast_append_getLast _).symm⟩
      exact List.ne_nil_of_length_pos (by omega)
    have hneed := h.needed.last pre last hms.symm hbody init tail rfl
    have hinit : front <+: init := by
      refine List.prefix_of_prefix_length_le hfront ((List.prefix_append _ _).trans h.texts_eq) ?_
      rw [List.length_append] at hlt
      exact Nat.lt_succ_iff.1 hlt
    obtain ⟨more, hmore⟩ := flatten_prefix hinit
    have hlong := congrArg List.length hmore
    rw [hflat, hms, List.length_append] at hlong
    omega
  · obtain ⟨more, hmore⟩ := flatten_prefix (List.prefix_of_prefix_length_le h.texts_eq hfront hge)
    rw [hflat, hms, h.flatten_eq, List.append_assoc] at hmore
    have hnil := List.append_cancel_left ((List.append_nil ms.flatten).trans hmore)
    exact (List.append_eq_nil_iff.1 hnil.symm).1

/-- The records of an accepted connection. -/
structure StageRecords (E : ConnEnv κ) (c c₁ c₂ c₃ : Conn κ) : Prop where
  hybrid : E.pqHybrid = true → HelloEnds c₁ c₂
  classic : E.pqHybrid = false → ∃ ty body, helloRecord (items c.wire.flatten) = some (ty, body) ∧
    textSince c₁ c₂ = body
  flight : E.streamDeframe = true → DfInv c₃.hs ∧
    ∃ texts ms, Taken (c₂.texts E.toRecordEnv c₂.hsKeys.read) texts ms c₃.hs.pending

theorem Accepted.stages {E : ConnEnv κ} {c c₁ c₂ c₃ c' : Conn κ} (hc : c.Sound)
    (hrun : Accepted E c c₁ c₂ c₃ c') : StageRecords E c c₁ c₂ c₃ := by
  have hquiet₁ := (connectHello_quiet E c.hs).success ⟨rfl, rfl⟩ hrun.hello
  have hquiet₂ := (connectServerHello_quiet E c.hs).success hquiet₁ hrun.serverHello
  have hunread := (connectHello_unread E c).success rfl hrun.hello
  have hin := (connectServerHello_hello E c.wire c.got).success hunread hrun.serverHello
  rw [← hunread.got_eq] at hin
  obtain ⟨htrace, hneed⟩ := hquiet₂.2
  refine ⟨fun hE => ?_, fun hE => ?_, fun hE => ?_⟩
  · obtain ⟨texts, hgot, hsize⟩ := hin.ends hE
    unfold HelloEnds
    rw [hgot.textSince_eq, hsize]
  · obtain ⟨ty, body, hfirst, hgot⟩ := hin.record hE
    exact ⟨ty, body, hfirst, hgot.textSince_eq.trans List.flatten_singleton⟩
  · obtain ⟨ms, hfour, hgap⟩ := connectFlight_gap E hE hquiet₂.1 (by rw [htrace]; exact hc.safe)
      (by rw [hneed]; exact hc.csNeed_lt) hin.recLen_le hrun.flight
    obtain ⟨texts, hgot, htext, hneeded⟩ := hgap.got
    obtain ⟨texts', hgot', hprefix⟩ := connectFlight_flow hE hin.boundary hrun.flight
    rw [hgot'.unique hgot] at hprefix
    exact ⟨hgap.taking.inv, texts, ms, hprefix, hgap.whole, hfour, htext, hneeded⟩

/-- A connection drops no byte at a key change if the peer sends none there; and where none is dropped, none was
sent. -/
theorem nothingDropped_of_endsWithRecord (E : ConnEnv κ) {c : Conn κ} (hc : c.Sound) :
    (EndsWithRecord E c → NothingDropped E c) ∧
      (NothingDropped E c → ∀ c₁ c₂ c₃ c', Accepted E c c₁ c₂ c₃ c' →
        (E.pqHybrid = false → HelloFits c.wire.flatten) ∧
          (E.streamDeframe = true →
            ∃ last, FourEnd (c₂.texts E.toRecordEnv c₂.hsKeys.read) last)) := by
  constructor
  · intro hends c₁ c₂ c₃ c' hrun
    have hstages := hrun.stages hc
    refine ⟨?_, fun hE => ?_⟩
    · -- the streaming reader of a hybrid build compares the sizes itself
      cases hE : E.pqHybrid with
      | true => exact hstages.hybrid hE
      | false =>
          obtain ⟨ty, body, hfirst, htext⟩ := hstages.classic hE
          unfold HelloEnds
          rw [htext]
          exact hends.hello hE ty body hfirst
    · obtain ⟨hinv, texts, ms, htaken⟩ := hstages.flight hE
      obtain ⟨last, hbody, hfour⟩ := hends.finished hE c₁ c₂ hrun.hello hrun.serverHello
      exact (Tls.pending_eq_nil hinv).1 (htaken.pending_eq_nil hfour hbody)
  · intro hnone c₁ c₂ c₃ c' hrun
    have hstages := hrun.stages hc
    obtain ⟨hhello, hfin⟩ := hnone c₁ c₂ c₃ c' hrun
    refine ⟨fun hE ty body hfirst => ?_, fun hE => ?_⟩
    · obtain ⟨ty', body', hfirst', htext⟩ := hstages.classic hE
      cases hfirst'.symm.trans hfirst
      unfold HelloEnds at hhello
      rw [htext] at hhello
      exact hhello
    · obtain ⟨hinv, texts, ms, htaken⟩ := hstages.flight hE
      have hpend := (Tls.pending_eq_nil hinv).2 (hfin hE)
      obtain ⟨pre, last, rfl⟩ : ∃ pre last, ms = pre ++ [last] := by
        refine ⟨ms.dropLast, ms.getLast ?_, (List.dropLast_append_getLast _).symm⟩
        exact List.ne_nil_of_length_pos (by rw [htaken.length_eq]; decide)
      refine ⟨last, texts, pre, htaken.texts_eq, ?_, htaken.whole, ?_⟩
      · have hlen := htaken.length_eq
        rw [List.length_append] at hlen
        exact Nat.succ.inj hlen
      · rw [htaken.flatten_eq, hpend, List.append_nil]

/-! ## Two peers -/

theorem Conn.blank_sound (wire : List (List UInt8)) : (Conn.blank wire).Sound :=
  ⟨traceSafe_nil, Nat.zero_lt_succ _⟩

/-- A view of the stages of a connection, computed. -/
def viewStages {α : Type} (E : ConnEnv κ) (c : Conn κ) (view : Conn κ → Conn κ → Conn κ → α) :
    Option α :=
  (connectHello E c).bind fun r₁ =>
    (connectServerHello E r₁.1).bind fun r₂ =>
      (connectFlight E r₂.1).map fun r₃ => view r₁.1 r₂.1 r₃.1

theorem Accepted.view {α : Type} {E : ConnEnv κ} {c c₁ c₂ c₃ c' : Conn κ}
    (h : Accepted E c c₁ c₂ c₃ c') (view : Conn κ → Conn κ → Conn κ → α) :
    viewStages E c view = some (view c₁ c₂ c₃) := by
  unfold viewStages
  rw [h.hello, Option.bind_some, h.serverHello, Option.bind_some, h.flight, Option.map_some]

/-- Both messages end with their record. -/
def cleanPeer : Conn Unit :=
  Conn.blank [wireRecord ctHandshake sampleServerHello ++ sealedRecord sampleFlight]

theorem nothingDropped_clean : NothingDropped ConnEnv.accepting cleanPeer := by
  refine (nothingDropped_of_endsWithRecord ConnEnv.accepting (c := cleanPeer) (Conn.blank_sound _)).1
    ⟨fun _ ty body hfirst => ?_, fun _ c₁ c₂ h₁ h₂ => ?_⟩
  · have hrecord : (helloRecord (items cleanPeer.wire.flatten)).map (fun r => r.2.length - hsSize r.2) =
        some 0 := by
      decide +kernel
    rw [hfirst] at hrecord
    exact Nat.sub_eq_zero_iff_le.1 (Option.some.inj hrecord)
  · have htexts : (connectHello ConnEnv.accepting cleanPeer).bind (fun r₁ =>
        (connectServerHello ConnEnv.accepting r₁.1).map fun r₂ =>
          r₂.1.texts ConnEnv.accepting.toRecordEnv r₂.1.hsKeys.read) = some [sampleFlight] := by
      decide +kernel
    rw [h₁, Option.bind_some, h₂, Option.map_some] at htexts
    rw [Option.some.inj htexts]
    refine ⟨sampleFlight.drop 28, by decide, [sampleFlight],
      [sampleFlight.take 6, (sampleFlight.drop 6).take 14, (sampleFlight.drop 20).take 8],
      List.prefix_refl _, rfl, ?_, by decide⟩
    unfold Whole
    decide

/-- The record of the ServerHello goes on with the head of another message, and that of the Finished
with one byte. -/
def trailingPeer : Conn Unit :=
  Conn.blank [wireRecord ctHandshake (sampleServerHello ++ [hsEncryptedExt, 0, 0]) ++
    sealedRecord (sampleFlight ++ [4])]

/-- What is left of the two records: by the text of the ServerHello, and by the cursors of the deframer. -/
def leftovers (c₁ c₂ c₃ : Conn κ) : Nat × Nat :=
  ((textSince c₁ c₂).length - hsSize (textSince c₁ c₂), c₃.hs.recLen - c₃.hs.recOff)

/-- The connection is accepted, and the bytes behind both messages are gone. -/
theorem not_nothingDropped_trailing :
    ¬ NothingDropped ConnEnv.accepting trailingPeer ∧
      ∃ c₁ c₂ c₃ c', Accepted ConnEnv.accepting trailingPeer c₁ c₂ c₃ c' ∧
        leftovers c₁ c₂ c₃ = (3, 1) := by
  have hok : (tlsConnect ConnEnv.accepting trailingPeer).map Prod.snd = some true := by
    decide +kernel
  have hview : viewStages ConnEnv.accepting trailingPeer leftovers = some (3, 1) := by
    decide +kernel
  obtain ⟨⟨c', ok⟩, h, hflag⟩ := Option.map_eq_some_iff.1 hok
  cases hflag
  obtain ⟨c₁, c₂, c₃, hrun⟩ := Accepted.of_run h
  rw [hrun.view] at hview
  have hleft := Option.some.inj hview
  refine ⟨fun hnone => ?_, c₁, c₂, c₃, c', hrun, hleft⟩
  have hends : HelloEnds c₁ c₂ := (hnone c₁ c₂ c₃ c' hrun).1
  simp only [leftovers, Prod.mk.injEq] at hleft
  unfold HelloEnds at hends
  omega

end Tls
end C64Https
