import C64Https.Http.Grammar

/-!
# HeaderRuns — the parser over a well-formed status line and header block

Each kind of line has a lemma that says where the parser stands behind it.  A line is kept as far
as its first 31 bytes, which is enough for both of the fields that the parser looks for.
-/

namespace C64Https
namespace Http

open Word Loop Bytes

section Lines

variable (E : HttpEnv)

/-! ## The line buffer -/

/-- A line in the buffer. -/
def Response.withLine (h : Response) (line : List UInt8) : Response :=
  { h with
    lineBuf := store h.lineBuf h.lineIdx (line.take (31 - h.lineIdx))
    lineIdx := min 31 (h.lineIdx + line.length) }

theorem withLine_nil {h : Response} (hidx : h.lineIdx ≤ 31) : h.withLine [] = h := by
  unfold Response.withLine
  rw [List.take_nil, store_nil, List.length_nil, Nat.add_zero, Nat.min_eq_right hidx]

theorem withLine_cons {h : Response} (hidx : h.lineIdx ≤ 31) (b : UInt8) (line : List UInt8) :
    (lineByte h b).withLine line = h.withLine (b :: line) := by
  unfold lineByte
  split
  case isTrue hfull =>
    -- the buffer is full, and the rest of the line is dropped
    have heq : h.lineIdx = 31 := Nat.le_antisymm hidx hfull
    unfold Response.withLine
    rw [heq]
    simp
  case isFalse hroom =>
    have hlt : h.lineIdx < 31 := Nat.lt_of_not_le hroom
    have hinc : inc8 h.lineIdx = h.lineIdx + 1 := inc8_of_lt (by omega)
    have htake : 31 - h.lineIdx = (31 - (h.lineIdx + 1)) + 1 := by omega
    have hstore := store_store h.lineBuf h.lineIdx [b] (line.take (31 - (h.lineIdx + 1)))
    rw [List.length_singleton] at hstore
    unfold Response.withLine
    dsimp only
    rw [hinc, update_eq_store, hstore, htake, List.take_succ_cons, List.length_cons,
      Nat.add_assoc, Nat.add_comm 1 line.length]
    rfl

theorem lineByte_idx {h : Response} (hidx : h.lineIdx ≤ 31) (b : UInt8) :
    (lineByte h b).lineIdx ≤ 31 := by
  unfold lineByte
  split
  case isTrue => exact hidx
  case isFalse hroom =>
    show inc8 h.lineIdx ≤ 31
    rw [inc8_of_lt (by omega)]
    omega

theorem lineByte_parseState (h : Response) (b : UInt8) :
    (lineByte h b).parseState = h.parseState := by
  unfold lineByte
  split <;> rfl

theorem complete_of_ne_body {h : Response} (hstate : h.parseState ≠ .body) :
    complete h = false := by
  unfold complete
  rw [decide_eq_false hstate]
  rfl

/-- A status line up to its line feed. -/
theorem passes_statusLine (line : List UInt8) :
    ∀ h : Response, h.parseState = .status → h.lineIdx ≤ 31 → lf ∉ line →
      Passes E h line (h.withLine line) := by
  induction line with
  | nil =>
      intro h _ hidx _
      rw [withLine_nil hidx]
      exact Passes.nil E h
  | cons b line ih =>
      intro h hstate hidx hlf
      have hb : b ≠ lf := fun heq => hlf (heq ▸ List.mem_cons_self)
      have hbyte : parseByte E h b = .again (lineByte h b) := by
        unfold parseByte statusByte
        rw [hstate]
        dsimp only
        rw [if_neg hb]
      have hfirst := Passes.byte E (complete_of_ne_body (by rw [hstate]; decide)) hbyte
      have hrest := ih (lineByte h b) ((lineByte_parseState h b).trans hstate)
        (lineByte_idx hidx b) (fun hmem => hlf (List.mem_cons_of_mem b hmem))
      rw [withLine_cons hidx] at hrest
      exact hfirst.append hrest

/-- A header line up to its end. -/
theorem passes_headerLine (line : List UInt8) :
    ∀ h : Response, h.parseState = .headers → h.lineIdx ≤ 31 → lf ∉ line → cr ∉ line →
      Passes E h line (h.withLine line) := by
  induction line with
  | nil =>
      intro h _ hidx _ _
      rw [withLine_nil hidx]
      exact Passes.nil E h
  | cons b line ih =>
      intro h hstate hidx hlf hcr
      have hb : b ≠ lf := fun heq => hlf (heq ▸ List.mem_cons_self)
      have hb' : b ≠ cr := fun heq => hcr (heq ▸ List.mem_cons_self)
      have hbyte : parseByte E h b = .again (lineByte h b) := by
        unfold parseByte headerByte
        rw [hstate]
        dsimp only
        rw [if_neg hb, if_neg hb']
      have hfirst := Passes.byte E (complete_of_ne_body (by rw [hstate]; decide)) hbyte
      have hrest := ih (lineByte h b) ((lineByte_parseState h b).trans hstate)
        (lineByte_idx hidx b) (fun hmem => hlf (List.mem_cons_of_mem b hmem))
        (fun hmem => hcr (List.mem_cons_of_mem b hmem))
      rw [withLine_cons hidx] at hrest
      exact hfirst.append hrest

/-! ## What the two patterns match -/

/-- The characters of the patterns. -/
def IsPattern (b : UInt8) : Prop :=
  (0x61 ≤ b ∧ b ≤ 0x7a) ∨ b = 0x2d ∨ b = colon ∨ b = space

instance : DecidablePred IsPattern :=
  fun _ => inferInstanceAs (Decidable (_ ∨ _))

instance : DecidablePred IsName :=
  fun _ => inferInstanceAs (Decidable (_ ∧ _))

/-- The parser's way to ignore case. -/
def fold (b : UInt8) : UInt8 :=
  b ||| 0x20

theorem fold_of_lowercase : ∀ b : UInt8, IsPattern (lowercase b) → fold b = lowercase b :=
  forall_byte (by decide +kernel)

theorem lowercase_of_fold : ∀ b : UInt8, IsName b → IsPattern (fold b) → lowercase b = fold b :=
  forall_byte (by decide +kernel)

theorem fold_ne_colon : ∀ b : UInt8, IsName b → fold b ≠ colon :=
  forall_byte (by decide +kernel)

/-- A line as long as a pattern that folds to it. -/
theorem lineMatches_withLine {h : Response} (hidx : h.lineIdx = 0) (line : List UInt8)
    {pattern : List UInt8} (hlen : pattern.length ≤ 31) :
    lineMatches (h.withLine line) pattern = true ↔ pattern <+: line.map fold := by
  unfold lineMatches Response.withLine
  dsimp only
  rw [hidx, Nat.zero_add, Bool.and_eq_true, decide_eq_true_iff, List.prefix_iff_eq_take,
    ← List.map_take]
  constructor
  · rintro ⟨hle, heq⟩
    have hle' : pattern.length ≤ (line.take (31 - 0)).length := by
      rw [List.length_take]
      exact hle
    have hbytes := bytesAt_ofList_sub (line.take (31 - 0)) h.lineBuf
      (show 0 + pattern.length ≤ _ by rw [Nat.zero_add]; exact hle')
    unfold ofList at hbytes
    rw [hbytes, List.drop_zero, List.take_take, Nat.min_eq_left hlen] at heq
    exact (eq_of_beq heq).symm
  · intro heq
    have hle : pattern.length ≤ line.length := by
      have := congrArg List.length heq
      rw [List.length_map, List.length_take] at this
      omega
    have hle' : pattern.length ≤ (line.take (31 - 0)).length := by
      rw [List.length_take]
      exact Nat.le_min.2 ⟨hlen, hle⟩
    have hbytes := bytesAt_ofList_sub (line.take (31 - 0)) h.lineBuf
      (show 0 + pattern.length ≤ _ by rw [Nat.zero_add]; exact hle')
    unfold ofList at hbytes
    refine ⟨Nat.le_min.2 ⟨hlen, hle⟩, ?_⟩
    rw [hbytes, List.drop_zero, List.take_take, Nat.min_eq_left hlen]
    exact beq_iff_eq.2 heq.symm

/-- A field whose line starts as a pattern does has the pattern's name. -/
theorem name_of_starts {value tail : List UInt8} :
    ∀ pname name : List UInt8, (∀ c ∈ pname, IsPattern c ∧ c ≠ colon) → (∀ b ∈ name, IsName b) →
      pname ++ colon :: tail <+: (name ++ colon :: value).map fold →
      name.map lowercase = pname := by
  intro pname
  induction pname with
  | nil =>
      intro name _ hname hpre
      cases name with
      | nil => rfl
      | cons b name =>
          rw [List.nil_append, List.cons_append, List.map_cons, List.cons_prefix_cons] at hpre
          exact absurd hpre.1.symm (fold_ne_colon b (hname b List.mem_cons_self))
  | cons c pname ih =>
      intro name hpattern hname hpre
      have hc := hpattern c List.mem_cons_self
      cases name with
      | nil =>
          -- the colon of the line stands where the pattern still has a letter
          rw [List.cons_append, List.nil_append, List.map_cons, List.cons_prefix_cons] at hpre
          exact absurd hpre.1 hc.2
      | cons b name =>
          rw [List.cons_append, List.cons_append, List.map_cons, List.cons_prefix_cons] at hpre
          have hb := lowercase_of_fold b (hname b List.mem_cons_self) (hpre.1 ▸ hc.1)
          have htail := ih name (fun x hx => hpattern x (List.mem_cons_of_mem c hx))
            (fun x hx => hname x (List.mem_cons_of_mem b hx)) hpre.2
          rw [List.map_cons, hb, ← hpre.1, htail]

theorem clPattern_eq : clPattern = contentLengthName ++ colon :: [space] := by
  decide

theorem tePattern_eq : tePattern = transferEncodingName ++ colon :: ascii " chunked" := by
  decide

/-- A field of another name matches neither pattern. -/
theorem plain_no_match (f : Field) (hf : f.Plain) {h : Response} (hidx : h.lineIdx = 0) :
    lineMatches (h.withLine f.line) clPattern = false ∧
    lineMatches (h.withLine f.line) tePattern = false := by
  constructor
  · rw [← Bool.not_eq_true, lineMatches_withLine hidx _ (by decide), clPattern_eq]
    intro hpre
    exact hf.1 (name_of_starts _ _ (by decide +kernel) f.name_text hpre)
  · rw [← Bool.not_eq_true, lineMatches_withLine hidx _ (by decide), tePattern_eq]
    intro hpre
    exact hf.2 (name_of_starts _ _ (by decide +kernel) f.name_text hpre)

/-- What is a pattern in lower case folds to it. -/
theorem map_fold_of_lowercase {bs pattern : List UInt8} (hpattern : ∀ c ∈ pattern, IsPattern c)
    (hlower : bs.map lowercase = pattern) : bs.map fold = pattern := by
  rw [← hlower]
  refine List.map_congr_left ?_
  intro b hb
  refine fold_of_lowercase b (hpattern _ ?_)
  rw [← hlower]
  exact List.mem_map_of_mem hb

/-! ## The decimal number -/

theorem decimalByte_digit : ∀ d : Fin 10, ¬ decimalByte d < 0x30 ∧ ¬ 0x3a ≤ decimalByte d ∧
    (decimalByte d - 0x30).toNat = d.val := by
  decide

theorem le_foldl_decimal (ds : List (Fin 10)) :
    ∀ n : Nat, n ≤ ds.foldl (fun n d => n * 10 + d.val) n := by
  induction ds with
  | nil =>
      intro n
      exact Nat.le_refl n
  | cons d ds ih =>
      intro n
      calc
        n ≤ n * 10 + d.val := by omega
        _ ≤ (d :: ds).foldl (fun n d => n * 10 + d.val) n := ih _

/-- The 24 bits do not show as long as the number fits them. -/
theorem decimal_digits (ds : List (Fin 10)) :
    ∀ n : Nat, ds.foldl (fun n d => n * 10 + d.val) n < 16777216 →
      decimal n (ds.map decimalByte) = ds.foldl (fun n d => n * 10 + d.val) n := by
  induction ds with
  | nil =>
      intro n _
      rfl
  | cons d ds ih =>
      intro n hlt
      obtain ⟨hlow, hhigh, hval⟩ := decimalByte_digit d
      have hstep : n * 10 + d.val < 16777216 :=
        Nat.lt_of_le_of_lt (le_foldl_decimal ds _) hlt
      rw [List.map_cons, decimal, if_neg hlow, if_neg hhigh, hval, Nat.mod_eq_of_lt hstep]
      exact ih _ hlt

/-! ## The header block -/

/-- What the header lines so far have said of the framing. -/
inductive Framing where
  | undeclared
  | length (n : Nat)
  | chunked
  deriving DecidableEq, Repr

def Framing.Seen : Framing → Response → Prop
  | .undeclared, h => h.clValid = false ∧ h.chunked = false
  | .length n, h => h.clValid = true ∧ h.contentLength = n ∧ h.chunked = false
  | .chunked, h => h.clValid = false ∧ h.chunked = true

/-- At the start of a header line. -/
structure AtHeader (code : Nat) (f : Framing) (h : Response) : Prop where
  state : h.parseState = .headers
  lineIdx : h.lineIdx = 0
  status : h.status = code
  chunkState : h.chunkState = .size
  chunkRem : h.chunkRem = 0
  seen : f.Seen h

/-- `@hl_eol` behind a line that is not empty. -/
def headerEnd (h : Response) (line : List UInt8) : Response :=
  { checkTransferEncoding (checkContentLength (h.withLine line)) with lineIdx := 0 }

theorem checkContentLength_of_no {h : Response} (hno : lineMatches h clPattern = false) :
    checkContentLength h = h := by
  unfold checkContentLength
  rw [if_neg (by rw [hno]; decide)]

theorem checkContentLength_of_match {h : Response} (hmatch : lineMatches h clPattern = true) :
    checkContentLength h =
      { h with
        clValid := true
        contentLength := decimal 0 (bytesAt h.lineBuf 16 (h.lineIdx - 16)) } := by
  unfold checkContentLength
  rw [if_pos hmatch]

/-- The second check reads the same line. -/
theorem lineMatches_checkContentLength (h : Response) (pattern : List UInt8) :
    lineMatches (checkContentLength h) pattern = lineMatches h pattern := by
  unfold checkContentLength
  split <;> rfl

theorem checkTransferEncoding_of_no {h : Response} (hno : lineMatches h tePattern = false) :
    checkTransferEncoding h = h := by
  unfold checkTransferEncoding
  rw [if_neg (by rw [hno]; decide)]

theorem checkTransferEncoding_of_match {h : Response} (hmatch : lineMatches h tePattern = true) :
    checkTransferEncoding h = { h with chunked := true } := by
  unfold checkTransferEncoding
  rw [if_pos hmatch]

variable {h : Response} {code : Nat} {f : Framing}

theorem passes_endLine (line : List UInt8) (hstate : h.parseState = .headers)
    (hidx : h.lineIdx = 0) (hlf : lf ∉ line) (hcr : cr ∉ line) (hne : line ≠ []) :
    Passes E h (endLine line) (headerEnd h line) := by
  have hstate' : (h.withLine line).parseState = .headers := hstate
  have hidx' : (h.withLine line).lineIdx ≠ 0 := by
    have hpos := List.length_pos_of_ne_nil hne
    show min 31 (h.lineIdx + line.length) ≠ 0
    omega
  have hcomplete : complete (h.withLine line) = false :=
    complete_of_ne_body (by rw [hstate']; decide)
  have hcrByte : parseByte E (h.withLine line) cr = .again (h.withLine line) := by
    unfold parseByte headerByte
    rw [hstate']
    rfl
  have hlfByte : parseByte E (h.withLine line) lf = .again (headerEnd h line) := by
    unfold parseByte headerByte
    rw [hstate']
    dsimp only
    rw [if_pos rfl, if_neg hidx']
    rfl
  have hline := passes_headerLine E line h hstate (by omega) hlf hcr
  exact hline.append ((Passes.byte E hcomplete hcrByte).append (Passes.byte E hcomplete hlfByte))

theorem isText_ne {b : UInt8} (hb : IsText b) : b ≠ lf ∧ b ≠ cr := by
  constructor
  · rintro rfl
    exact absurd hb (by unfold IsText lf; decide)
  · rintro rfl
    exact absurd hb (by unfold IsText cr; decide)

theorem isName_isText {b : UInt8} (hb : IsName b) : IsText b := by
  refine Or.inr ⟨?_, ?_⟩
  · exact UInt8.le_trans (by decide) hb.1
  · rintro rfl
    exact absurd hb.2.1 (by decide)

theorem line_text (f : Field) : ∀ b ∈ f.line, IsText b := by
  intro b hb
  unfold Field.line at hb
  rcases List.mem_append.1 hb with hname | hvalue
  · exact isName_isText (f.name_text b hname)
  · rcases List.mem_cons.1 hvalue with rfl | hvalue
    · exact Or.inr (by decide)
    · exact f.value_text b hvalue

theorem not_mem_of_text {bs : List UInt8} (h : ∀ b ∈ bs, IsText b) : lf ∉ bs ∧ cr ∉ bs :=
  ⟨fun hmem => (isText_ne (h lf hmem)).1 rfl, fun hmem => (isText_ne (h cr hmem)).2 rfl⟩

theorem line_ne (f : Field) : f.line ≠ [] := by
  unfold Field.line
  simp

/-- A field of another name changes nothing that is asked for later. -/
theorem passes_plain (field : Field) (hplain : field.Plain) (hat : AtHeader code f h) :
    ∃ h', Passes E h (endLine field.line) h' ∧ AtHeader code f h' := by
  obtain ⟨hlf, hcr⟩ := not_mem_of_text (line_text field)
  refine ⟨_, passes_endLine E field.line hat.state hat.lineIdx hlf hcr (line_ne field), ?_⟩
  obtain ⟨hcl, hte⟩ := plain_no_match field hplain hat.lineIdx
  have hend : headerEnd h field.line = { h.withLine field.line with lineIdx := 0 } := by
    unfold headerEnd
    rw [checkContentLength_of_no hcl, checkTransferEncoding_of_no hte]
  rw [hend]
  refine ⟨hat.state, rfl, hat.status, hat.chunkState, hat.chunkRem, ?_⟩
  cases f with
  | undeclared => exact hat.seen
  | length n => exact hat.seen
  | chunked => exact hat.seen

theorem passes_plains (fields : List Field) :
    ∀ h : Response, (∀ field ∈ fields, field.Plain) → AtHeader code f h →
      ∃ h', Passes E h (fieldLines fields) h' ∧ AtHeader code f h' := by
  induction fields with
  | nil =>
      intro h _ hat
      exact ⟨h, Passes.nil E h, hat⟩
  | cons field fields ih =>
      intro h hplain hat
      obtain ⟨h₁, hfirst, hat₁⟩ := passes_plain E field (hplain field List.mem_cons_self) hat
      obtain ⟨h₂, hrest, hat₂⟩ :=
        ih h₁ (fun x hx => hplain x (List.mem_cons_of_mem field hx)) hat₁
      exact ⟨h₂, hfirst.append hrest, hat₂⟩

/-! ## The field that declares the framing -/

theorem lowercase_ne : ∀ b : UInt8, IsPattern (lowercase b) → b ≠ lf ∧ b ≠ cr :=
  forall_byte (by decide +kernel)

theorem not_mem_of_lowercase {bs pattern : List UInt8} (hpattern : ∀ c ∈ pattern, IsPattern c)
    (hlower : bs.map lowercase = pattern) : lf ∉ bs ∧ cr ∉ bs := by
  have hall : ∀ b ∈ bs, IsPattern (lowercase b) := by
    intro b hb
    refine hpattern _ ?_
    rw [← hlower]
    exact List.mem_map_of_mem hb
  exact ⟨fun hmem => (lowercase_ne lf (hall lf hmem)).1 rfl,
    fun hmem => (lowercase_ne cr (hall cr hmem)).2 rfl⟩

/-- The patterns differ from their first byte on. -/
theorem tePattern_not_starts (bs : List UInt8) : ¬ tePattern <+: clPattern ++ bs := by
  rintro ⟨t, ht⟩
  have hhead := congrArg List.head? ht
  change some (0x74 : UInt8) = some 0x63 at hhead
  exact absurd hhead (by decide)

theorem clPattern_not_starts (bs : List UInt8) : ¬ clPattern <+: tePattern ++ bs := by
  rintro ⟨t, ht⟩
  have hhead := congrArg List.head? ht
  change some (0x63 : UInt8) = some 0x74 at hhead
  exact absurd hhead (by decide)

theorem decimalByte_ne : ∀ d : Fin 10, decimalByte d ≠ lf ∧ decimalByte d ≠ cr := by
  decide

theorem not_mem_contentLength {name : List UInt8} {b : UInt8} (digits : List (Fin 10))
    (hname : b ∉ name) (hsep : b ∉ [colon, space]) (hdigit : ∀ d : Fin 10, decimalByte d ≠ b) :
    b ∉ name ++ [colon, space] ++ digits.map decimalByte := by
  intro hmem
  rcases List.mem_append.1 hmem with hfront | hback
  · rcases List.mem_append.1 hfront with hin | hin
    · exact hname hin
    · exact hsep hin
  · rcases List.mem_map.1 hback with ⟨d, _, hd⟩
    exact hdigit d hd

/-- The number, where `check_content_length` reads it. -/
theorem withLine_digits {line : List UInt8} {digits : List (Fin 10)} (hidx : h.lineIdx = 0)
    (hlen : digits.length ≤ 8) (hline : line.length = 16 + digits.length)
    (hdrop : line.drop 16 = digits.map decimalByte) :
    bytesAt (h.withLine line).lineBuf 16 ((h.withLine line).lineIdx - 16) =
      digits.map decimalByte := by
  have hfull : line.take 31 = line := List.take_of_length_le (by omega)
  have hcount : min 31 (16 + digits.length) - 16 = digits.length := by omega
  have hsub : bytesAt (ofList line h.lineBuf) 16 digits.length =
      (line.drop 16).take digits.length :=
    bytesAt_ofList_sub line h.lineBuf (by omega)
  rw [hdrop, List.take_of_length_le (by simp)] at hsub
  unfold Response.withLine
  dsimp only
  rw [hidx, Nat.sub_zero, Nat.zero_add, hline, hcount, hfull]
  exact hsub

theorem passes_contentLength {name : List UInt8} {digits : List (Fin 10)} {n : Nat}
    (hname : name.map lowercase = contentLengthName) (hlen : digits.length ≤ 8)
    (hvalue : decimalValue digits = n) (hn : n < 16777216) (hat : AtHeader code .undeclared h) :
    ∃ h', Passes E h (endLine (name ++ [colon, space] ++ digits.map decimalByte)) h' ∧
      AtHeader code (.length n) h' := by
  obtain ⟨hlf, hcr⟩ := not_mem_of_lowercase (by decide +kernel) hname
  have hnameLen : name.length = 14 := by
    have hlength := congrArg List.length hname
    rw [List.length_map] at hlength
    exact hlength
  have hfold : (name ++ [colon, space] ++ digits.map decimalByte).map fold =
      clPattern ++ (digits.map decimalByte).map fold := by
    rw [List.map_append, List.map_append, map_fold_of_lowercase (by decide +kernel) hname]
    rfl
  have hdrop : (name ++ [colon, space] ++ digits.map decimalByte).drop 16 =
      digits.map decimalByte := by
    rw [List.drop_append_of_le_length (by simp [hnameLen])]
    rw [List.drop_of_length_le (by simp [hnameLen]), List.nil_append]
  have hlineLen : (name ++ [colon, space] ++ digits.map decimalByte).length =
      16 + digits.length := by
    simp only [List.length_append, List.length_cons, List.length_nil, List.length_map, hnameLen]
  have hlf' := not_mem_contentLength digits hlf (by decide) (fun d => (decimalByte_ne d).1)
  have hcr' := not_mem_contentLength digits hcr (by decide) (fun d => (decimalByte_ne d).2)
  generalize name ++ [colon, space] ++ digits.map decimalByte = line at *
  have hne : line ≠ [] := by
    rintro rfl
    rw [List.length_nil] at hlineLen
    omega
  have hmatch : lineMatches (h.withLine line) clPattern = true :=
    (lineMatches_withLine hat.lineIdx _ (by decide)).2 (hfold ▸ List.prefix_append _ _)
  have hother : lineMatches (h.withLine line) tePattern = false := by
    rw [← Bool.not_eq_true, lineMatches_withLine hat.lineIdx _ (by decide), hfold]
    exact tePattern_not_starts _
  have hnumber : decimal 0
      (bytesAt (h.withLine line).lineBuf 16 ((h.withLine line).lineIdx - 16)) = n := by
    rw [withLine_digits hat.lineIdx hlen hlineLen hdrop, ← hvalue]
    exact decimal_digits digits 0 (lt_of_eq_of_lt hvalue hn)
  refine ⟨_, passes_endLine E line hat.state hat.lineIdx hlf' hcr' hne, ?_⟩
  have hend : headerEnd h line =
      { h.withLine line with clValid := true, contentLength := n, lineIdx := 0 } := by
    unfold headerEnd
    rw [checkTransferEncoding_of_no ((lineMatches_checkContentLength _ _).trans hother),
      checkContentLength_of_match hmatch, hnumber]
  rw [hend]
  exact ⟨hat.state, rfl, hat.status, hat.chunkState, hat.chunkRem, rfl, rfl, hat.seen.2⟩

theorem passes_chunked {line : List UInt8}
    (hline : line.map lowercase = transferEncodingName ++ [colon, space] ++ ascii "chunked")
    (hat : AtHeader code .undeclared h) :
    ∃ h', Passes E h (endLine line) h' ∧ AtHeader code .chunked h' := by
  obtain ⟨hlf, hcr⟩ := not_mem_of_lowercase (by decide +kernel) hline
  have hne : line ≠ [] := by
    rintro rfl
    exact absurd hline (by decide)
  have hfold : line.map fold = tePattern ++ [] :=
    (map_fold_of_lowercase (by decide +kernel) hline).trans (by decide +kernel)
  have hother : lineMatches (h.withLine line) clPattern = false := by
    rw [← Bool.not_eq_true, lineMatches_withLine hat.lineIdx _ (by decide), hfold]
    exact clPattern_not_starts _
  have hmatch : lineMatches (h.withLine line) tePattern = true :=
    (lineMatches_withLine hat.lineIdx _ (by decide)).2 (hfold ▸ List.prefix_append _ _)
  refine ⟨_, passes_endLine E line hat.state hat.lineIdx hlf hcr hne, ?_⟩
  have hend : headerEnd h line = { h.withLine line with chunked := true, lineIdx := 0 } := by
    unfold headerEnd
    rw [checkContentLength_of_no hother, checkTransferEncoding_of_match hmatch]
  rw [hend]
  exact ⟨hat.state, rfl, hat.status, hat.chunkState, hat.chunkRem, hat.seen.1, rfl⟩

/-! ## The whole head -/

/-- At the start of the body. -/
structure AtBody (code : Nat) (f : Framing) (h : Response) : Prop where
  state : h.parseState = .body
  status : h.status = code
  chunkState : h.chunkState = .size
  chunkRem : h.chunkRem = 0
  seen : f.Seen h
  bodyTotal : h.bodyTotal = 0
  respLen : h.respLen = 0

/-- The empty line. -/
theorem passes_empty (hat : AtHeader code f h) :
    ∃ h', Passes E h (endLine []) h' ∧ AtBody code f h' := by
  have hcomplete : complete h = false := complete_of_ne_body (by rw [hat.state]; decide)
  have hcrByte : parseByte E h cr = .again h := by
    unfold parseByte headerByte
    rw [hat.state]
    rfl
  have hlfByte : parseByte E h lf = .again (bodyBegin E { h with parseState := .body }) := by
    unfold parseByte headerByte
    rw [hat.state]
    dsimp only
    rw [if_pos rfl, if_pos hat.lineIdx]
  refine ⟨_, (Passes.byte E hcomplete hcrByte).append (Passes.byte E hcomplete hlfByte), ?_⟩
  have hseen : f.Seen (bodyBegin E { h with parseState := .body }) := by
    unfold bodyBegin
    cases f with
    | undeclared => cases E.uci <;> exact hat.seen
    | length n => cases E.uci <;> exact hat.seen
    | chunked => cases E.uci <;> exact hat.seen
  unfold bodyBegin at hseen ⊢
  cases hu : E.uci with
  | true =>
      rw [hu] at hseen
      exact ⟨rfl, hat.status, hat.chunkState, hat.chunkRem, hseen, rfl, rfl⟩
  | false =>
      rw [hu] at hseen
      exact ⟨rfl, hat.status, hat.chunkState, hat.chunkRem, hseen, rfl, rfl⟩

/-- The three digits, behind the nine bytes of the version. -/
theorem passes_status (r : WireResponse) (h : Response) :
    ∃ h', Passes E (respInit E h) (endLine r.statusLine) h' ∧
      AtHeader r.code .undeclared h' := by
  have hlf : lf ∉ r.statusLine ++ [cr] := by
    intro hmem
    unfold WireResponse.statusLine at hmem
    rcases List.mem_append.1 hmem with hmem | hcr
    · rcases List.mem_append.1 hmem with hmem | hreason
      · rcases List.mem_append.1 hmem with hversion | hdigits
        · exact absurd hversion (by decide)
        · rcases List.mem_map.1 hdigits with ⟨d, _, hd⟩
          exact (decimalByte_ne d).1 hd
      · rcases List.mem_cons.1 hreason with hspace | hreason
        · exact absurd hspace (by decide)
        · exact (not_mem_of_text r.reason_text).1 hreason
    · exact absurd hcr (by decide)
  have hstate : (respInit E h).parseState = .status := by
    unfold respInit bodyBegin
    cases E.uci <;> rfl
  have hidx : (respInit E h).lineIdx = 0 := by
    unfold respInit bodyBegin
    cases E.uci <;> rfl
  generalize respInit E h = h₀ at *
  have hline := passes_statusLine E (r.statusLine ++ [cr]) h₀ hstate (by omega) hlf
  have hlfByte : parseByte E (h₀.withLine (r.statusLine ++ [cr])) lf =
      .again (statusByte (h₀.withLine (r.statusLine ++ [cr])) lf) := by
    unfold parseByte
    rw [show (h₀.withLine (r.statusLine ++ [cr])).parseState = .status from hstate]
  have hpasses := hline.append (Passes.byte E (complete_of_ne_body (by
    rw [show (h₀.withLine (r.statusLine ++ [cr])).parseState = .status from hstate]
    decide)) hlfByte)
  rw [List.append_assoc] at hpasses
  refine ⟨_, hpasses, rfl, rfl, ?_, rfl, rfl, rfl, rfl⟩
  have hbyte : ∀ i : Nat, i < 12 → (h₀.withLine (r.statusLine ++ [cr])).lineBuf i =
      (r.statusLine ++ [cr]).getD i 0 := by
    intro i hi
    have hlen : 12 ≤ r.statusLine.length := by
      unfold WireResponse.statusLine
      rw [List.length_append, List.length_append, List.length_cons]
      exact Nat.le_add_right 12 _
    have hin : 0 ≤ i ∧ i < 0 + ((r.statusLine ++ [cr]).take (31 - 0)).length := by
      rw [List.length_take, List.length_append, List.length_singleton]
      omega
    unfold Response.withLine store
    dsimp only
    rw [hidx, if_pos hin, List.getD_eq_getElem?_getD, List.getD_eq_getElem?_getD,
      List.getElem?_take_of_lt (by omega), Nat.sub_zero]
  show statusOf (h₀.withLine (r.statusLine ++ [cr])).lineBuf = r.code
  unfold statusOf
  rw [hbyte 9 (by decide), hbyte 10 (by decide), hbyte 11 (by decide)]
  show 100 * (decimalByte r.hundreds - 0x30).toNat + 10 * (decimalByte r.tens - 0x30).toNat +
    (decimalByte r.ones - 0x30).toNat = r.code
  rw [(decimalByte_digit r.hundreds).2.2, (decimalByte_digit r.tens).2.2,
    (decimalByte_digit r.ones).2.2]
  rfl

/-- What a body declares. -/
def Body.framing : Body → Framing
  | .identity payload => .length payload.length
  | .chunked _ _ _ _ => .chunked

theorem passes_head (r : WireResponse) (h : Response) :
    ∃ h', Passes E (respInit E h) r.head h' ∧ AtBody r.code r.body.framing h' := by
  obtain ⟨h₁, hstatus, hat₁⟩ := passes_status E r h
  obtain ⟨h₂, hbefore, hat₂⟩ := passes_plains E r.before h₁ r.before_plain hat₁
  have hframing : ∃ h₃, Passes E h₂ (endLine r.framing) h₃ ∧ AtHeader r.code r.body.framing h₃ := by
    have hdeclares := r.declares
    cases hbody : r.body with
    | identity payload =>
        rw [hbody] at hdeclares
        obtain ⟨name, digits, hname, hline, _, hlen, hvalue, hn⟩ := hdeclares
        rw [hline]
        exact passes_contentLength E hname hlen hvalue hn hat₂
    | chunked chunks last hlast trailers =>
        rw [hbody] at hdeclares
        exact passes_chunked E hdeclares hat₂
  obtain ⟨h₃, hdeclared, hat₃⟩ := hframing
  obtain ⟨h₄, hafter, hat₄⟩ := passes_plains E r.after h₃ r.after_plain hat₃
  obtain ⟨h₅, hend, hat₅⟩ := passes_empty E hat₄
  exact ⟨h₅, (((hstatus.append hbefore).append hdeclared).append hafter).append hend, hat₅⟩

end Lines

end Http
end C64Https
