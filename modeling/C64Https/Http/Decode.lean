import C64Https.Http.HeaderRuns

/-!
# Decode — what the parser makes of a well-formed response

The head and the payload are decoded as they were sent, in any framing.  The end of a chunked
response is not: the parser counts the bytes of a trailer line in eight bits and takes a line whose
count comes back to zero for the empty line (`Field.Wraps`).
-/

namespace C64Https
namespace Http

open Word Loop Bytes

section Bodies

variable (E : HttpEnv)

/-! ## The payload -/

/-- In the body, behind the payload `p`, of which the buffer keeps 512 bytes. -/
structure InBody (code : Nat) (f : Framing) (p : List UInt8) (h : Response) : Prop where
  state : h.parseState = .body
  status : h.status = code
  seen : f.Seen h
  bodyTotal : h.bodyTotal = p.length
  respLen : h.respLen = min 512 p.length
  stored : bytesAt h.respBuf 0 h.respLen = p.take 512

variable {code : Nat} {f : Framing} {p : List UInt8} {h : Response}

theorem AtBody.inBody (hat : AtBody code f h) : InBody code f [] h where
  state := hat.state
  status := hat.status
  seen := hat.seen
  bodyTotal := hat.bodyTotal
  respLen := hat.respLen
  stored := by
    rw [hat.respLen]
    rfl

/-- What `body_append` stores. -/
theorem bodyAppend_stored (hbuffer : E.bodySink = false) (b : UInt8)
    (hlen : h.respLen = min 512 p.length) (hstored : bytesAt h.respBuf 0 h.respLen = p.take 512) :
    (bodyAppend E h b).respLen = min 512 (p ++ [b]).length ∧
    bytesAt (bodyAppend E h b).respBuf 0 (bodyAppend E h b).respLen = (p ++ [b]).take 512 := by
  unfold bodyAppend
  dsimp only
  rw [List.length_append, List.length_singleton]
  split
  case isTrue hfull =>
    have hp : 512 ≤ p.length := by omega
    refine ⟨?_, ?_⟩
    · show h.respLen = _
      omega
    · rw [List.take_append_of_le_length hp]
      exact hstored
  case isFalse hroom =>
    have hp : p.length < 512 := by omega
    have hlen' : h.respLen = p.length := by omega
    rw [if_neg (fun hsink => absurd (hbuffer.symm.trans hsink.2.1) (by decide))]
    dsimp only
    rw [inc16_of_lt (by omega), update_eq_store, hlen']
    rw [hlen', List.take_of_length_le (by omega)] at hstored
    have happend := bytesAt_store_append h.respBuf 0 p.length [b]
    rw [Nat.zero_add, List.length_singleton, hstored] at happend
    refine ⟨by omega, ?_⟩
    rw [happend, List.take_of_length_le]
    rw [List.length_append, List.length_singleton]
    omega

theorem Framing.Seen.congr {h h' : Response} (hcl : h'.clValid = h.clValid)
    (hlen : h'.contentLength = h.contentLength) (hch : h'.chunked = h.chunked) (hseen : f.Seen h) :
    f.Seen h' := by
  cases f with
  | undeclared => exact ⟨hcl.trans hseen.1, hch.trans hseen.2⟩
  | length n => exact ⟨hcl.trans hseen.1, hlen.trans hseen.2.1, hch.trans hseen.2.2⟩
  | chunked => exact ⟨hcl.trans hseen.1, hch.trans hseen.2⟩

theorem InBody.append (hbuffer : E.bodySink = false) (hin : InBody code f p h) (b : UInt8)
    (hlt : p.length + 1 < 16777216) : InBody code f (p ++ [b]) (bodyAppend E h b) := by
  obtain ⟨hstate, hstatus, hcl, hlen, hch, -, -, -, htotal⟩ := bodyAppend_frame E h b
  obtain ⟨hrespLen, hstored⟩ := bodyAppend_stored E hbuffer b hin.respLen hin.stored
  refine ⟨hstate.trans hin.state, hstatus.trans hin.status, hin.seen.congr hcl hlen hch, ?_,
    hrespLen, hstored⟩
  rw [htotal, hin.bodyTotal, inc24_of_lt hlt, List.length_append, List.length_singleton]

/-- The chunk parser's own state does not matter here. -/
theorem InBody.withChunk (hin : InBody code f p h) (s : ChunkState) (rem idx : Nat) :
    InBody code f p { h with chunkState := s, chunkRem := rem, lineIdx := idx } :=
  ⟨hin.state, hin.status, Framing.Seen.congr (h := h) rfl rfl rfl hin.seen, hin.bodyTotal,
    hin.respLen, hin.stored⟩

theorem bodyFinish_buffer (hbuffer : E.bodySink = false) (h : Response) : bodyFinish E h = h := by
  unfold bodyFinish
  rw [hbuffer]
  cases E.uci <;> rfl

/-! ## A body of a declared length -/

theorem complete_length {n : Nat} (hin : InBody code (.length n) p h) :
    complete h = decide (p.length = n) := by
  obtain ⟨hcl, hlen, hch⟩ := hin.seen
  unfold complete bodyDone
  rw [hin.state, hcl, hlen, hch, hin.bodyTotal]
  simp

theorem recvFrom_identity (hbuffer : E.bodySink = false) {n : Nat} (hn : n < 16777216)
    (todo : List UInt8) :
    ∀ (p : List UInt8) (h : Response), InBody code (.length n) p h →
      p.length + todo.length = n →
      ∃ h', recvFrom E h todo = (h', [], true) ∧ InBody code (.length n) (p ++ todo) h' := by
  induction todo with
  | nil =>
      intro p h hin hlen
      refine ⟨h, ?_, by rwa [List.append_nil]⟩
      have hc : complete h = true := by
        rw [complete_length hin]
        exact decide_eq_true hlen
      rw [recvFrom_of_complete E hc, bodyFinish_buffer E hbuffer]
  | cons b todo ih =>
      intro p h hin hlen
      rw [List.length_cons] at hlen
      have hc : complete h = false := by
        rw [complete_length hin]
        exact decide_eq_false (by omega)
      have hbyte : parseByte E h b = .again (bodyAppend E h b) := by
        unfold parseByte
        rw [hin.state]
        dsimp only
        rw [if_neg (by rw [hin.seen.2.2]; decide)]
      obtain ⟨h', hrun, hin'⟩ := ih (p ++ [b]) (bodyAppend E h b)
        (hin.append E hbuffer b (by omega))
        (by rw [List.length_append, List.length_singleton]; omega)
      refine ⟨h', ?_, by rwa [List.append_assoc] at hin'⟩
      rw [recvFrom_again E hc hbyte]
      exact hrun

/-! ## Chunks -/

/-- In a chunked body. -/
abbrev Chunked (code : Nat) (p : List UInt8) (h : Response) : Prop :=
  InBody code .chunked p h

theorem complete_chunked (hin : Chunked code p h) : complete h = false := by
  unfold complete
  rw [hin.seen.2]
  simp

theorem parseByte_chunked (hin : Chunked code p h) (b : UInt8) :
    parseByte E h b = chunkedByte E h b := by
  unfold parseByte
  rw [hin.state]
  dsimp only
  rw [if_pos hin.seen.2]

theorem hexDigit_byte (d : HexDigit) : d.byte ≠ lf ∧ hexDigit d.byte = some d.value.val := by
  have hall : ∀ (v : Fin 16) (u : Bool), (HexDigit.mk v u).byte ≠ lf ∧
      hexDigit (HexDigit.mk v u).byte = some v.val := by
    decide
  exact hall d.value d.upper

theorem le_foldl_hex (ds : List HexDigit) :
    ∀ n : Nat, n ≤ ds.foldl (fun n d => n * 16 + d.value.val) n := by
  induction ds with
  | nil =>
      intro n
      exact Nat.le_refl n
  | cons d ds ih =>
      intro n
      calc
        n ≤ n * 16 + d.value.val := by omega
        _ ≤ (d :: ds).foldl (fun n d => n * 16 + d.value.val) n := ih _

/-- The digits of a size, in front of which the count is `n`. -/
theorem passes_digits (ds : List HexDigit) :
    ∀ h : Response, Chunked code p h → h.chunkState = .size →
      ds.foldl (fun n d => n * 16 + d.value.val) h.chunkRem < 16777216 →
      Passes E h (ds.map HexDigit.byte)
        { h with chunkRem := ds.foldl (fun n d => n * 16 + d.value.val) h.chunkRem } := by
  induction ds with
  | nil =>
      intro h _ _ _
      exact Passes.nil E h
  | cons d ds ih =>
      intro h hin hsize hlt
      obtain ⟨hlf, hdigit⟩ := hexDigit_byte d
      -- the count after this digit is at most the whole, so it does not saturate
      have hstep : h.chunkRem * 16 + d.value.val < 16777216 :=
        Nat.lt_of_le_of_lt (le_foldl_hex ds _) hlt
      have hbyte : parseByte E h d.byte =
          .again { h with chunkRem := h.chunkRem * 16 + d.value.val } := by
        rw [parseByte_chunked E hin]
        unfold chunkedByte sizeByte
        rw [hsize]
        dsimp only
        rw [if_neg hlf, hdigit]
        dsimp only
        rw [if_neg (by omega)]
      exact (Passes.byte E (complete_chunked hin) hbyte).append
        (ih _ (hin.withChunk h.chunkState _ h.lineIdx) hsize hlt)

theorem passes_skip (bs : List UInt8) (hin : Chunked code p h) (hskip : h.chunkState = .skip)
    (hlf : lf ∉ bs) : Passes E h bs h := by
  induction bs with
  | nil => exact Passes.nil E h
  | cons b bs ih =>
      have hb : b ≠ lf := fun heq => hlf (heq ▸ List.mem_cons_self)
      have hbyte : parseByte E h b = .again h := by
        rw [parseByte_chunked E hin]
        unfold chunkedByte
        rw [hskip]
        dsimp only
        rw [if_neg hb]
      exact (Passes.byte E (complete_chunked hin) hbyte).append
        (ih (fun hmem => hlf (List.mem_cons_of_mem b hmem)))

/-- What ends the digits of a size line: its extension or its carriage return. -/
theorem not_hex_head : ∀ b : UInt8, (b = 0x3b ∨ b = space ∨ b = 0x09) ∨ b = cr →
    hexDigit b = none ∧ b ≠ lf :=
  forall_byte (by decide +kernel)

/-- A whole size line. -/
theorem passes_sizeLine (s : SizeLine) (hin : Chunked code p h) (hsize : h.chunkState = .size)
    (hrem : h.chunkRem = 0) (hlt : s.size < 16777216) :
    Passes E h (endLine s.line)
      (sizeEol { h with chunkState := .skip, chunkRem := s.size }) := by
  have hdigits := passes_digits E s.digits h hin hsize (by rw [hrem]; exact hlt)
  rw [hrem] at hdigits
  have hin₁ : Chunked code p { h with chunkRem := s.size } :=
    hin.withChunk h.chunkState s.size h.lineIdx
  have hin₂ : Chunked code p { h with chunkState := .skip, chunkRem := s.size } :=
    hin.withChunk .skip s.size h.lineIdx
  -- the first byte behind the digits is no digit; the line feed is the next one that counts
  have hrest : ∃ b bs, s.extension ++ [cr] = b :: bs ∧ (hexDigit b = none ∧ b ≠ lf) ∧ lf ∉ bs := by
    have htext := (not_mem_of_text s.extension_text).1
    have hhead := s.extension_head
    cases hext : s.extension with
    | nil => exact ⟨cr, [], rfl, not_hex_head cr (Or.inr rfl), by decide⟩
    | cons b bs =>
        rw [hext] at htext hhead
        refine ⟨b, bs ++ [cr], rfl, not_hex_head b (Or.inl (hhead b rfl)), ?_⟩
        intro hmem
        rcases List.mem_append.1 hmem with hmem | hmem
        · exact htext (List.mem_cons_of_mem b hmem)
        · exact absurd hmem (by decide)
  obtain ⟨b, bs, heq, ⟨hhex, hb⟩, hbs⟩ := hrest
  have hfirst : parseByte E { h with chunkRem := s.size } b =
      .again { h with chunkState := .skip, chunkRem := s.size } := by
    rw [parseByte_chunked E hin₁]
    unfold chunkedByte sizeByte
    dsimp only
    rw [hsize]
    dsimp only
    rw [if_neg hb, hhex]
  have hlast : parseByte E { h with chunkState := .skip, chunkRem := s.size } lf =
      .again (sizeEol { h with chunkState := .skip, chunkRem := s.size }) := by
    rw [parseByte_chunked E hin₂]
    rfl
  have hline : endLine s.line = s.digits.map HexDigit.byte ++ ([b] ++ (bs ++ [lf])) := by
    unfold endLine SizeLine.line
    rw [show ([cr, lf] : List UInt8) = [cr] ++ [lf] from rfl, List.append_assoc,
      ← List.append_assoc s.extension, heq]
    rfl
  rw [hline]
  exact hdigits.append ((Passes.byte E (complete_chunked hin₁) hfirst).append
    ((passes_skip E bs hin₂ rfl hbs).append (Passes.byte E (complete_chunked hin₂) hlast)))

/-- The payload of a chunk. -/
theorem passes_data (hbuffer : E.bodySink = false) (data : List UInt8) :
    ∀ (p : List UInt8) (h : Response), Chunked code p h → h.chunkState = .data →
      h.chunkRem = data.length → data ≠ [] → p.length + data.length < 16777216 →
      ∃ h', Passes E h data h' ∧ Chunked code (p ++ data) h' ∧ h'.chunkState = .crlf ∧
        h'.chunkRem = 0 := by
  induction data with
  | nil =>
      intro p h _ _ _ hne
      exact absurd rfl hne
  | cons b data ih =>
      intro p h hin hdata hrem _ hlt
      rw [List.length_cons] at hrem hlt
      have hin₁ := hin.append E hbuffer b (by omega)
      obtain ⟨-, -, -, -, -, hstate, hrem', -, -⟩ := bodyAppend_frame E h b
      have hdec : dec24 (bodyAppend E h b).chunkRem = data.length := by
        rw [hrem', dec24_of_pos (by omega) (by omega), hrem, Nat.add_sub_cancel]
      have hbyte : parseByte E h b = .again (dataByte E h b) := by
        rw [parseByte_chunked E hin]
        unfold chunkedByte
        rw [hdata]
      have hfirst := Passes.byte E (complete_chunked hin) hbyte
      unfold dataByte at hfirst
      dsimp only at hfirst
      rw [hdec] at hfirst
      cases data with
      | nil =>
          rw [List.length_nil, if_pos rfl] at hfirst
          exact ⟨_, hfirst, hin₁.withChunk .crlf 0 _, rfl, rfl⟩
      | cons c data =>
          rw [if_neg (by simp)] at hfirst
          obtain ⟨h', hrest, hin', hstate', hzero⟩ := ih (p ++ [b])
            { bodyAppend E h b with chunkRem := (c :: data).length }
            (hin₁.withChunk _ _ _) (hstate.trans hdata) rfl (by simp)
            (by rw [List.length_append, List.length_singleton]; omega)
          rw [List.append_assoc] at hin'
          exact ⟨h', hfirst.append hrest, hin', hstate', hzero⟩

theorem passes_chunk (hbuffer : E.bodySink = false) (c : Chunk) (hin : Chunked code p h)
    (hsize : h.chunkState = .size) (hrem : h.chunkRem = 0)
    (hlt : p.length + c.data.length < 16777216) :
    ∃ h', Passes E h c.bytes h' ∧ Chunked code (p ++ c.data) h' ∧ h'.chunkState = .size ∧
      h'.chunkRem = 0 := by
  have hline := passes_sizeLine E c.head hin hsize hrem c.size_lt
  unfold sizeEol at hline
  rw [if_neg (Nat.ne_of_gt c.size_pos)] at hline
  have hne : c.data ≠ [] := by
    intro hnil
    have hpos := c.size_pos
    rw [c.size_eq, hnil] at hpos
    exact absurd hpos (Nat.lt_irrefl 0)
  obtain ⟨h₁, hdata, hin₁, hcrlf, hzero⟩ := passes_data E hbuffer c.data p
    { h with chunkState := .data, chunkRem := c.head.size }
    (hin.withChunk .data c.head.size h.lineIdx) rfl c.size_eq hne hlt
  have hcr : parseByte E h₁ cr = .again h₁ := by
    rw [parseByte_chunked E hin₁]
    unfold chunkedByte
    rw [hcrlf]
    rfl
  have hlf : parseByte E h₁ lf = .again { h₁ with chunkState := .size } := by
    rw [parseByte_chunked E hin₁]
    unfold chunkedByte
    rw [hcrlf]
    rfl
  have hc := complete_chunked hin₁
  exact ⟨_, hline.append (hdata.append ((Passes.byte E hc hcr).append (Passes.byte E hc hlf))),
    hin₁.withChunk .size h₁.chunkRem h₁.lineIdx, rfl, hzero⟩

theorem passes_chunks (hbuffer : E.bodySink = false) (cs : List Chunk) :
    ∀ (p : List UInt8) (h : Response), Chunked code p h → h.chunkState = .size →
      h.chunkRem = 0 → (p ++ cs.flatMap Chunk.data).length < 16777216 →
      ∃ h', Passes E h (cs.flatMap Chunk.bytes) h' ∧
        Chunked code (p ++ cs.flatMap Chunk.data) h' ∧ h'.chunkState = .size ∧
        h'.chunkRem = 0 := by
  induction cs with
  | nil =>
      intro p h hin hsize hrem _
      rw [List.flatMap_nil, List.flatMap_nil, List.append_nil]
      exact ⟨h, Passes.nil E h, hin, hsize, hrem⟩
  | cons c cs ih =>
      intro p h hin hsize hrem hlt
      rw [List.flatMap_cons, ← List.append_assoc] at hlt
      rw [List.flatMap_cons, List.flatMap_cons, ← List.append_assoc]
      have hlt₁ : p.length + c.data.length < 16777216 := by
        rw [List.length_append, List.length_append] at hlt
        exact Nat.lt_of_le_of_lt (Nat.le_add_right _ _) hlt
      obtain ⟨h₁, hfirst, hin₁, hsize₁, hrem₁⟩ := passes_chunk E hbuffer c hin hsize hrem hlt₁
      obtain ⟨h₂, hrest, hin₂, hsize₂, hrem₂⟩ := ih (p ++ c.data) h₁ hin₁ hsize₁ hrem₁ hlt
      exact ⟨h₂, hfirst.append hrest, hin₂, hsize₂, hrem₂⟩

/-! ## Trailers -/

/-- Behind the terminal chunk, at the start of a trailer line. -/
structure AtTrailer (code : Nat) (p : List UInt8) (h : Response) : Prop where
  body : Chunked code p h
  chunkState : h.chunkState = .final
  lineIdx : h.lineIdx = 0

/-- A line whose length `inc http_line_idx` takes back to zero. -/
def Field.Wraps (t : Field) : Prop :=
  t.line.length % 256 = 0

instance : DecidablePred Field.Wraps :=
  fun t => inferInstanceAs (Decidable (t.line.length % 256 = 0))

/-- The bytes of a trailer line, counted. -/
theorem passes_count (bs : List UInt8) :
    ∀ h : Response, Chunked code p h → h.chunkState = .final → h.lineIdx < 256 → lf ∉ bs →
      cr ∉ bs → Passes E h bs { h with lineIdx := (h.lineIdx + bs.length) % 256 } := by
  induction bs with
  | nil =>
      intro h _ _ hlt _ _
      rw [List.length_nil, Nat.add_zero, Nat.mod_eq_of_lt hlt]
      exact Passes.nil E h
  | cons b bs ih =>
      intro h hin hfinal _ hlf hcr
      have hb : b ≠ lf := fun heq => hlf (heq ▸ List.mem_cons_self)
      have hb' : b ≠ cr := fun heq => hcr (heq ▸ List.mem_cons_self)
      have hbyte : parseByte E h b = .again { h with lineIdx := inc8 h.lineIdx } := by
        rw [parseByte_chunked E hin]
        unfold chunkedByte finalByte
        rw [hfinal]
        dsimp only
        rw [if_neg hb, if_neg hb']
      have hrest := ih { h with lineIdx := inc8 h.lineIdx }
        (hin.withChunk h.chunkState h.chunkRem _) hfinal (inc8_lt _)
        (fun hmem => hlf (List.mem_cons_of_mem b hmem))
        (fun hmem => hcr (List.mem_cons_of_mem b hmem))
      have hcount : (inc8 h.lineIdx + bs.length) % 256 = (h.lineIdx + (b :: bs).length) % 256 := by
        rw [List.length_cons]
        unfold inc8
        omega
      dsimp only at hrest
      rw [hcount] at hrest
      exact (Passes.byte E (complete_chunked hin) hbyte).append hrest

/-- The end of a trailer line: the response is taken to be complete when the count is zero. -/
theorem recvFrom_trailer (hbuffer : E.bodySink = false) {line : List UInt8} (rest : List UInt8)
    (hat : AtTrailer code p h) (hlf : lf ∉ line) (hcr : cr ∉ line) :
    (line.length % 256 = 0 →
      ∃ h', recvFrom E h (endLine line ++ rest) = (h', rest, true) ∧ Chunked code p h') ∧
    (line.length % 256 ≠ 0 → ∃ h', Passes E h (endLine line) h' ∧ AtTrailer code p h') := by
  have hcount := passes_count E line h hat.body hat.chunkState (by rw [hat.lineIdx]; decide) hlf hcr
  rw [hat.lineIdx, Nat.zero_add] at hcount
  have hin : Chunked code p { h with lineIdx := line.length % 256 } :=
    hat.body.withChunk h.chunkState h.chunkRem _
  have hc := complete_chunked hin
  have hcrByte : parseByte E { h with lineIdx := line.length % 256 } cr =
      .again { h with lineIdx := line.length % 256 } := by
    rw [parseByte_chunked E hin]
    unfold chunkedByte
    rw [show ({ h with lineIdx := line.length % 256 } : Response).chunkState = .final from
      hat.chunkState]
    rfl
  have hlfByte : parseByte E { h with lineIdx := line.length % 256 } lf =
      if line.length % 256 = 0 then .leave { h with lineIdx := line.length % 256 }
      else .again { h with lineIdx := 0 } := by
    rw [parseByte_chunked E hin]
    unfold chunkedByte
    rw [show ({ h with lineIdx := line.length % 256 } : Response).chunkState = .final from
      hat.chunkState]
    rfl
  have hfront := hcount.append (Passes.byte E hc hcrByte)
  constructor
  · intro hzero
    rw [if_pos hzero] at hlfByte
    refine ⟨_, ?_, hin⟩
    rw [show endLine line ++ rest = (line ++ [cr]) ++ (lf :: rest) by simp [endLine], hfront,
      recvFrom_leave E hc hlfByte, bodyFinish_buffer E hbuffer]
  · intro hpos
    rw [if_neg hpos] at hlfByte
    refine ⟨_, ?_, hat.body.withChunk h.chunkState h.chunkRem 0, hat.chunkState, rfl⟩
    have hall := hfront.append (Passes.byte E hc hlfByte)
    rw [List.append_assoc] at hall
    exact hall

/-- What the parser leaves of the trailer part. -/
def unread : List Field → List UInt8
  | [] => []
  | t :: ts => if t.Wraps then fieldLines ts ++ endLine [] else unread ts

theorem recvFrom_trailers (hbuffer : E.bodySink = false) (ts : List Field) :
    ∀ h : Response, AtTrailer code p h →
      ∃ h', recvFrom E h (fieldLines ts ++ endLine []) = (h', unread ts, true) ∧
        Chunked code p h' := by
  induction ts with
  | nil =>
      intro h hat
      have hempty : lf ∉ ([] : List UInt8) ∧ cr ∉ ([] : List UInt8) := by decide
      have hend := (recvFrom_trailer E hbuffer [] hat hempty.1 hempty.2).1 rfl
      rw [List.append_nil] at hend
      exact hend
  | cons t ts ih =>
      intro h hat
      obtain ⟨hlf, hcr⟩ := not_mem_of_text (line_text t)
      have hline := recvFrom_trailer E hbuffer (fieldLines ts ++ endLine []) hat hlf hcr
      unfold fieldLines at hline ⊢
      rw [List.flatMap_cons, List.append_assoc]
      by_cases hwraps : t.Wraps
      · rw [unread, if_pos hwraps]
        exact hline.1 hwraps
      · obtain ⟨h₁, hpasses, hat₁⟩ := hline.2 hwraps
        rw [unread, if_neg hwraps, hpasses]
        exact ih h₁ hat₁

/-! ## The response -/

/-- The whole of a well-formed response, in one piece. -/
theorem recvFrom_response (hbuffer : E.bodySink = false) (r : WireResponse) (h : Response)
    (hpayload : r.payload.length < 16777216) :
    ∃ h', recvFrom E (respInit E h) r.bytes = (h', unread r.body.trailers, true) ∧
      InBody r.code r.body.framing r.payload h' := by
  obtain ⟨h₁, hhead, hat⟩ := passes_head E r h
  unfold WireResponse.bytes WireResponse.payload at *
  rw [hhead]
  cases hbody : r.body with
  | identity payload =>
      rw [hbody] at hat hpayload
      exact recvFrom_identity E hbuffer hpayload payload [] h₁ hat.inBody
        (Nat.zero_add _)
  | chunked chunks last hlast trailers =>
      rw [hbody] at hat hpayload
      obtain ⟨h₂, hchunks, hin₂, hsize₂, hrem₂⟩ := passes_chunks E hbuffer chunks [] h₁ hat.inBody
        hat.chunkState hat.chunkRem hpayload
      have hline := passes_sizeLine E last hin₂ hsize₂ hrem₂ (by rw [hlast]; decide)
      unfold sizeEol at hline
      rw [if_pos hlast] at hline
      have hat₃ : AtTrailer r.code (chunks.flatMap Chunk.data)
          { h₂ with chunkState := .final, chunkRem := last.size, lineIdx := 0 } :=
        ⟨hin₂.withChunk .final last.size 0, rfl, rfl⟩
      obtain ⟨h₄, hend, hin₄⟩ := recvFrom_trailers E hbuffer trailers _ hat₃
      refine ⟨h₄, ?_, hin₄⟩
      unfold Body.bytes Body.front
      dsimp only
      rw [hchunks.append hline]
      exact hend

end Bodies

/-- Nothing of the trailer part is left behind for long. -/
theorem unread_length_lt_iff {n : Nat} (hn : 0 < n) (ts : List Field) :
    (unread ts).length < n ↔
      ∀ (front : List Field) (t : Field) (back : List Field), ts = front ++ t :: back → t.Wraps →
        (fieldLines back ++ endLine []).length < n := by
  induction ts with
  | nil =>
      refine ⟨?_, fun _ => hn⟩
      intro _ front t back heq
      cases front <;> cases heq
  | cons t ts ih =>
      rw [unread]
      by_cases hwraps : t.Wraps
      · rw [if_pos hwraps]
        constructor
        · -- a later line leaves less
          intro hlt front u back heq _
          refine Nat.lt_of_le_of_lt ?_ hlt
          cases front with
          | nil =>
              cases heq
              exact Nat.le_refl _
          | cons u' front =>
              have htail : ts = front ++ u :: back := (List.cons.inj heq).2
              unfold fieldLines
              rw [htail, List.flatMap_append, List.flatMap_cons]
              simp only [List.length_append]
              omega
        · intro hall
          exact hall [] t ts rfl hwraps
      · rw [if_neg hwraps, ih]
        constructor
        · intro hall front u back heq hu
          cases front with
          | nil =>
              cases heq
              exact absurd hu hwraps
          | cons u' front =>
              cases heq
              exact hall front u back rfl hu
        · intro hall front u back heq hu
          exact hall (t :: front) u back (by rw [heq]; rfl) hu

/-- The calls return with carry clear on the delivery `last` and not before, and what they leave is
the response. -/
def DecodedAt (E : HttpEnv) (h : Response) (r : WireResponse) (before : List Delivery)
    (last : Delivery) : Prop :=
  (runDeliveries E (respInit E h) .empty before).2.2 = false ∧
  (runDeliveries E (respInit E h) .empty (before ++ [last])).2.2 = true ∧
  (runDeliveries E (respInit E h) .empty (before ++ [last])).1.status = r.code ∧
  (runDeliveries E (respInit E h) .empty (before ++ [last])).1.bodyTotal = r.payload.length ∧
  bytesAt (runDeliveries E (respInit E h) .empty (before ++ [last])).1.respBuf 0
    (runDeliveries E (respInit E h) .empty (before ++ [last])).1.respLen = r.payload.take 512

/-- `last` holds the end of every trailer line whose length is a multiple of 256. -/
def HoldsWrapping (r : WireResponse) (last : Delivery) : Prop :=
  ∀ (front : List Field) (t : Field) (back : List Field),
    r.body.trailers = front ++ t :: back → t.Wraps →
      (fieldLines back ++ endLine []).length < last.bytes.length

/-- In buffer mode a response is decoded on its last delivery, unless a trailer line that wraps ends
in an earlier one. -/
theorem decodedAt_iff (E : HttpEnv) (hbuffer : E.bodySink = false) (h : Response)
    (r : WireResponse) (hpayload : r.payload.length < 16777216) (before : List Delivery)
    (last : Delivery) (hbytes : (before ++ [last]).flatMap Delivery.bytes = r.bytes)
    (hlast : last.bytes ≠ []) :
    DecodedAt E h r before last ↔ HoldsWrapping r last := by
  obtain ⟨h', hrun, hin⟩ := recvFrom_response E hbuffer r h hpayload
  have hinit := complete_respInit E h
  have hsplit : before.flatMap Delivery.bytes ++ last.bytes = r.bytes := by
    rw [← hbytes, List.flatMap_append, List.flatMap_singleton]
  have hfirst := recvFrom_prefix_iff E (hsplit ▸ hrun)
  unfold DecodedAt HoldsWrapping
  rw [runDeliveries_eq E before _ _ hinit rfl, runDeliveries_eq E _ _ _ hinit rfl, hbytes, hrun,
    ← unread_length_lt_iff (List.length_pos_of_ne_nil hlast)]
  constructor
  · rintro ⟨hbefore, -⟩
    refine Nat.lt_of_not_le ?_
    intro hle
    exact absurd ((hfirst.2 hle).symm.trans hbefore) (by decide)
  · intro hlt
    refine ⟨?_, rfl, hin.status, hin.bodyTotal, hin.stored⟩
    rw [← Bool.not_eq_true]
    exact fun htrue => Nat.not_le_of_lt hlt (hfirst.1 htrue)

/-! ## A response with a trailer line of 256 bytes -/

def zeroLine : SizeLine where
  digits := [⟨0, false⟩]
  extension := []
  digits_ne := by decide
  extension_text := by nofun
  extension_head := by nofun

/-- `x:aaa…`, with 254 letters. -/
def longTrailer : Field where
  name := ascii "x"
  value := List.replicate 254 0x61
  name_ne := by decide
  name_text := by decide +kernel
  value_text := by
    intro b hb
    rw [List.eq_of_mem_replicate hb]
    exact Or.inr (by decide)

def chunkedResponse (trailers : List Field) : WireResponse where
  hundreds := 2
  tens := 0
  ones := 0
  reason := ascii "OK"
  reason_text := by
    intro b hb
    have hletter : b = 0x4f ∨ b = 0x4b := by
      simpa [ascii] using hb
    rcases hletter with rfl | rfl
    · exact Or.inr (by decide)
    · exact Or.inr (by decide)
  before := []
  framing := ascii "Transfer-Encoding: chunked"
  after := []
  body := .chunked [] zeroLine (by decide) trailers
  before_plain := by nofun
  after_plain := by nofun
  declares := by
    show (ascii "Transfer-Encoding: chunked").map lowercase = _
    decide

/-- Without the trailer line, one delivery decodes it. -/
theorem decodedAt_iff_chunked :
    DecodedAt ⟨true, false, false, 0, 0⟩ .zero (chunkedResponse []) []
      (.span (chunkedResponse []).bytes) :=
  (decodedAt_iff ⟨true, false, false, 0, 0⟩ rfl .zero (chunkedResponse []) (by decide) []
    (.span (chunkedResponse []).bytes) (by decide) (by decide)).2 (by
      intro front t back heq _
      cases front <;> cases heq)

/-- With it, the call on the line's own delivery is complete, and two bytes are still to come. -/
theorem not_decodedAt_wrapping :
    (chunkedResponse [longTrailer]).bytes =
        (chunkedResponse [longTrailer]).bytes.dropLast.dropLast ++ [cr, lf] ∧
      ¬ DecodedAt ⟨true, false, false, 0, 0⟩ .zero (chunkedResponse [longTrailer])
        [.span (chunkedResponse [longTrailer]).bytes.dropLast.dropLast] (.span [cr, lf]) := by
  refine ⟨by decide +kernel, ?_⟩
  rintro ⟨hbefore, -⟩
  revert hbefore
  decide +kernel

end Http
end C64Https
