import C64Https.Http.Sink
import C64Https.Http.HeaderRuns

/-!
# History — what an earlier response leaves behind

Two clients that parse the same response from `http_resp_init` on go in step, whatever they did
before: `Alike` is what they have in common after every byte.  There are two exceptions.  The status
line is read from three places of the line buffer, whether or not the line is long enough to reach
them (`LongStatus`).  And `http_body_finish` fetches the front of the body back also when the sink
has refused it, which the REU then does not hold: where the region is smaller than a block, an
earlier body may still be there (`FrontKept`).
-/

namespace C64Https
namespace Http

open Word Loop Bytes

/-! ## What two clients have in common -/

structure Alike (E : HttpEnv) (h k : Response) : Prop where
  state : h.parseState = k.parseState
  lineIdx : h.lineIdx = k.lineIdx
  /-- the line so far; the index means something else in the body -/
  line : h.parseState ≠ .body → ∀ i < h.lineIdx, h.lineBuf i = k.lineBuf i
  clValid : h.clValid = k.clValid
  contentLength : h.clValid = true → h.contentLength = k.contentLength
  chunked : h.chunked = k.chunked
  chunkState : h.chunkState = k.chunkState
  chunkRem : h.chunkRem = k.chunkRem
  bodyTotal : h.bodyTotal = k.bodyTotal
  respLen : h.respLen = k.respLen
  stored : ∀ i < h.respLen, h.respBuf i = k.respBuf i
  flushed : h.sinkFlushed = k.sinkFlushed
  cursor : h.reuCursor = k.reuCursor
  region : ∀ a, E.reuBodyBase ≤ a → a < E.reuBodyBase + h.reuCursor → h.reu a = k.reu a
  full : E.uci = true → h.sinkFull = k.sinkFull
  room : E.uci = true → h.sinkRoom = sinkRoomInit E ∧ k.sinkRoom = sinkRoomInit E

/-- Two turns that go the same way. -/
def TurnAlike (R : Response → Response → Prop) :
    Turn Response Response → Turn Response Response → Prop
  | .again h, .again k => R h k
  | .leave h, .leave k => R h k
  | _, _ => False

variable {E : HttpEnv} {h k : Response}

theorem alike_respInit (E : HttpEnv) (h k : Response) :
    Alike E (respInit E h) (respInit E k) := by
  unfold respInit bodyBegin
  cases huci : E.uci with
  | true =>
      refine ⟨rfl, rfl, ?_, rfl, nofun, rfl, rfl, rfl, rfl, rfl, ?_, rfl, rfl, ?_, fun _ => rfl,
        fun _ => ⟨rfl, rfl⟩⟩
      · intro _ i hi
        exact absurd hi (Nat.not_lt_zero i)
      · intro i hi
        exact absurd hi (Nat.not_lt_zero i)
      · intro a hle hlt
        exact absurd hlt (Nat.not_lt_of_le hle)
  | false =>
      refine ⟨rfl, rfl, ?_, rfl, nofun, rfl, rfl, rfl, rfl, rfl, ?_, rfl, rfl, ?_, ?_, ?_⟩
      · intro _ i hi
        exact absurd hi (Nat.not_lt_zero i)
      · intro i hi
        exact absurd hi (Nat.not_lt_zero i)
      · intro a hle hlt
        exact absurd hlt (Nat.not_lt_of_le hle)
      · intro hc
        rw [huci] at hc
        cases hc
      · intro hc
        rw [huci] at hc
        cases hc

theorem Alike.bytes (ha : Alike E h k) :
    bytesAt h.respBuf 0 h.respLen = bytesAt k.respBuf 0 k.respLen := by
  rw [← ha.respLen]
  refine bytesAt_congr ?_
  intro i hi
  rw [Nat.zero_add]
  exact ha.stored i hi

theorem Alike.lineBytes (ha : Alike E h k) (hne : h.parseState ≠ .body) {off n : Nat}
    (hle : off + n ≤ h.lineIdx) : bytesAt h.lineBuf off n = bytesAt k.lineBuf off n := by
  refine bytesAt_congr ?_
  intro i hi
  exact ha.line hne (off + i) (by omega)

theorem Alike.complete_eq (ha : Alike E h k) : complete h = complete k := by
  unfold complete bodyDone
  rw [ha.state, ha.chunked, ha.bodyTotal, ha.clValid]
  cases hcl : k.clValid with
  | false => rfl
  | true => rw [ha.contentLength (ha.clValid.trans hcl)]

/-! ## Lines -/

theorem Alike.lineByte (ha : Alike E h k) (hne : h.parseState ≠ .body) (b : UInt8) :
    Alike E (lineByte h b) (lineByte k b) := by
  unfold Http.lineByte
  rw [← ha.lineIdx]
  split
  case isTrue => exact ha
  case isFalse hroom =>
    have hinc : inc8 h.lineIdx = h.lineIdx + 1 := inc8_of_lt (by omega)
    refine ⟨ha.state, rfl, ?_, ha.clValid, ha.contentLength, ha.chunked, ha.chunkState,
      ha.chunkRem, ha.bodyTotal, ha.respLen, ha.stored, ha.flushed, ha.cursor, ha.region, ha.full,
      ha.room⟩
    intro _ i hi
    dsimp only at hi ⊢
    rw [hinc] at hi
    rcases Nat.lt_succ_iff_lt_or_eq.1 hi with hlt | heq
    · rw [Function.update_of_ne (Nat.ne_of_lt hlt), Function.update_of_ne (Nat.ne_of_lt hlt)]
      exact ha.line hne i hlt
    · rw [heq, Function.update_self, Function.update_self]

theorem Alike.lineMatches_eq (ha : Alike E h k) (hne : h.parseState ≠ .body)
    (pattern : List UInt8) : lineMatches h pattern = lineMatches k pattern := by
  unfold lineMatches
  rw [← ha.lineIdx]
  rcases Nat.lt_or_ge h.lineIdx pattern.length with hlt | hge
  · rw [decide_eq_false (Nat.not_le_of_lt hlt)]
    rfl
  · rw [ha.lineBytes hne (by omega)]

theorem Alike.checkContentLength (ha : Alike E h k) (hne : h.parseState ≠ .body) :
    Alike E (checkContentLength h) (checkContentLength k) := by
  unfold Http.checkContentLength
  rw [← ha.lineMatches_eq hne]
  split
  case isFalse => exact ha
  case isTrue hmatch =>
    -- the pattern is sixteen bytes long, so the digits are of this line
    have hidx : 16 ≤ h.lineIdx := by
      unfold lineMatches at hmatch
      rw [Bool.and_eq_true, decide_eq_true_iff] at hmatch
      exact hmatch.1
    refine ⟨ha.state, ha.lineIdx, ha.line, rfl, ?_, ha.chunked, ha.chunkState, ha.chunkRem,
      ha.bodyTotal, ha.respLen, ha.stored, ha.flushed, ha.cursor, ha.region, ha.full, ha.room⟩
    intro _
    dsimp only
    rw [← ha.lineIdx, ha.lineBytes hne (by omega)]

theorem Alike.checkTransferEncoding (ha : Alike E h k) (hne : h.parseState ≠ .body) :
    Alike E (checkTransferEncoding h) (checkTransferEncoding k) := by
  unfold Http.checkTransferEncoding
  rw [← ha.lineMatches_eq hne]
  split
  case isFalse => exact ha
  case isTrue =>
    exact ⟨ha.state, ha.lineIdx, ha.line, ha.clValid, ha.contentLength, rfl, ha.chunkState,
      ha.chunkRem, ha.bodyTotal, ha.respLen, ha.stored, ha.flushed, ha.cursor, ha.region, ha.full,
      ha.room⟩

/-- A new line. -/
theorem Alike.newLine (ha : Alike E h k) : Alike E { h with lineIdx := 0 } { k with lineIdx := 0 } :=
  ⟨ha.state, rfl, fun _ i hi => absurd hi (Nat.not_lt_zero i), ha.clValid, ha.contentLength,
    ha.chunked, ha.chunkState, ha.chunkRem, ha.bodyTotal, ha.respLen, ha.stored, ha.flushed,
    ha.cursor, ha.region, ha.full, ha.room⟩

theorem checkContentLength_parseState (h : Response) :
    (checkContentLength h).parseState = h.parseState := by
  unfold checkContentLength
  split <;> rfl

theorem Alike.bodyBegin (ha : Alike E h k) : Alike E (bodyBegin E { h with parseState := .body })
    (bodyBegin E { k with parseState := .body }) := by
  unfold Http.bodyBegin
  cases huci : E.uci with
  | true =>
      refine ⟨rfl, ha.lineIdx, fun hne => absurd rfl hne, ha.clValid, ha.contentLength, ha.chunked,
        ha.chunkState, ha.chunkRem, rfl, rfl, ?_, rfl, rfl, ?_, fun _ => rfl, fun _ => ⟨rfl, rfl⟩⟩
      · intro i hi
        exact absurd hi (Nat.not_lt_zero i)
      · intro a hle hlt
        exact absurd hlt (Nat.not_lt_of_le hle)
  | false =>
      refine ⟨rfl, ha.lineIdx, fun hne => absurd rfl hne, ha.clValid, ha.contentLength, ha.chunked,
        ha.chunkState, ha.chunkRem, rfl, rfl, ?_, rfl, rfl, ?_, ?_, ?_⟩
      · intro i hi
        exact absurd hi (Nat.not_lt_zero i)
      · intro a hle hlt
        exact absurd hlt (Nat.not_lt_of_le hle)
      · intro hc
        rw [huci] at hc
        cases hc
      · intro hc
        rw [huci] at hc
        cases hc

theorem Alike.headerByte (ha : Alike E h k) (hstate : h.parseState = .headers) (b : UInt8) :
    Alike E (headerByte E h b) (headerByte E k b) := by
  have hne : h.parseState ≠ .body := by
    rw [hstate]
    decide
  unfold Http.headerByte
  split
  case isTrue =>
    by_cases hempty : h.lineIdx = 0
    · rw [if_pos hempty, if_pos (ha.lineIdx.symm.trans hempty)]
      exact ha.bodyBegin
    · rw [if_neg hempty, if_neg (fun hk => hempty (ha.lineIdx.trans hk))]
      have hcl := ha.checkContentLength hne
      exact (hcl.checkTransferEncoding
        (by rw [checkContentLength_parseState]; exact hne)).newLine
  case isFalse =>
    split
    case isTrue => exact ha
    case isFalse => exact ha.lineByte hne b

/-- The status is not among what they have in common. -/
theorem Alike.statusByte (ha : Alike E h k) (hstate : h.parseState = .status) (b : UInt8) :
    Alike E (statusByte h b) (statusByte k b) := by
  have hne : h.parseState ≠ .body := by
    rw [hstate]
    decide
  unfold Http.statusByte
  split
  case isTrue =>
    exact ⟨rfl, rfl, fun _ i hi => absurd hi (Nat.not_lt_zero i), rfl, nofun, rfl, rfl, rfl,
      ha.bodyTotal, ha.respLen, ha.stored, ha.flushed, ha.cursor, ha.region, ha.full, ha.room⟩
  case isFalse => exact ha.lineByte hne b

/-! ## The body -/

/-- The framing of the chunks. -/
theorem Alike.withChunk (ha : Alike E h k) (hstate : h.parseState = .body) {s s' : ChunkState}
    {rem rem' idx idx' : Nat} (hs : s = s') (hrem : rem = rem') (hidx : idx = idx') :
    Alike E { h with chunkState := s, chunkRem := rem, lineIdx := idx }
      { k with chunkState := s', chunkRem := rem', lineIdx := idx' } :=
  ⟨ha.state, hidx, fun hne => absurd hstate hne, ha.clValid, ha.contentLength, ha.chunked, hs, hrem,
    ha.bodyTotal, ha.respLen, ha.stored, ha.flushed, ha.cursor, ha.region, ha.full, ha.room⟩

theorem Alike.sizeEol (ha : Alike E h k) (hstate : h.parseState = .body) :
    Alike E (sizeEol h) (sizeEol k) := by
  unfold Http.sizeEol
  rw [← ha.chunkRem]
  split
  case isTrue => exact ha.withChunk hstate rfl rfl rfl
  case isFalse => exact ha.withChunk hstate rfl rfl ha.lineIdx

theorem Alike.sizeByte (ha : Alike E h k) (hstate : h.parseState = .body) (b : UInt8) :
    Alike E (sizeByte h b) (sizeByte k b) := by
  unfold Http.sizeByte
  rw [← ha.chunkRem]
  split
  case isTrue => exact ha.sizeEol hstate
  case isFalse =>
    split
    case h_1 => exact ha.withChunk hstate rfl rfl ha.lineIdx
    case h_2 d _ =>
      split
      case isTrue => exact ha.withChunk hstate rfl rfl ha.lineIdx
      case isFalse => exact ha.withChunk hstate ha.chunkState rfl ha.lineIdx

theorem Alike.finalByte (ha : Alike E h k) (hstate : h.parseState = .body) (b : UInt8) :
    TurnAlike (Alike E) (finalByte h b) (finalByte k b) := by
  unfold Http.finalByte
  rw [← ha.lineIdx]
  split
  case isTrue =>
    split
    case isTrue => exact ha
    case isFalse => exact ha.withChunk hstate ha.chunkState ha.chunkRem rfl
  case isFalse =>
    split
    case isTrue => exact ha
    case isFalse => exact ha.withChunk hstate ha.chunkState ha.chunkRem rfl

theorem Alike.bounce (ha : Alike E h k) (b : UInt8) (hlen : h.respLen < 512) :
    Alike E (bounce h b) (bounce k b) := by
  have hinc : inc16 h.respLen = h.respLen + 1 := inc16_of_lt (by omega)
  unfold Http.bounce
  rw [← ha.respLen, ← ha.bodyTotal]
  refine ⟨ha.state, ha.lineIdx, ha.line, ha.clValid, ha.contentLength, ha.chunked, ha.chunkState,
    ha.chunkRem, rfl, rfl, ?_, ha.flushed, ha.cursor, ha.region, ha.full, ha.room⟩
  intro i hi
  dsimp only at hi ⊢
  rw [hinc] at hi
  rcases Nat.lt_succ_iff_lt_or_eq.1 hi with hlt | heq
  · rw [Function.update_of_ne (Nat.ne_of_lt hlt), Function.update_of_ne (Nat.ne_of_lt hlt)]
    exact ha.stored i hlt
  · rw [heq, Function.update_self, Function.update_self]

theorem Alike.sinkFits_eq (ha : Alike E h k) (huci : E.uci = true) : sinkFits h = sinkFits k := by
  obtain ⟨hroom, hroom'⟩ := ha.room huci
  unfold sinkFits
  rw [ha.full huci, ha.cursor, ha.respLen, hroom, hroom']

/-- A transfer takes the same bytes to the same place. -/
theorem Alike.sinkBlit (hfits : E.Fits) (huci : E.uci = true) (ha : Alike E h k) :
    Alike E (sinkBlit E h) (sinkBlit E k) := by
  unfold Http.sinkBlit
  rw [← ha.respLen, ← ha.sinkFits_eq huci, ← ha.cursor]
  split
  case isTrue => exact ha
  case isFalse hne =>
    split
    case isFalse =>
      -- the block does not fit: both runs latch the same flag
      exact ⟨ha.state, ha.lineIdx, ha.line, ha.clValid, ha.contentLength, ha.chunked,
        ha.chunkState, ha.chunkRem, ha.bodyTotal, rfl, ha.stored, ha.flushed, rfl, ha.region,
        fun _ => rfl, ha.room⟩
    case isTrue hfit =>
      obtain ⟨-, hle, htop, hfloor, -⟩ := fits_region hfits (ha.room huci).1 hne hfit
      have haddr : (E.reuBodyBase + h.reuCursor) % 16777216 = E.reuBodyBase + h.reuCursor :=
        Nat.mod_eq_of_lt (by omega)
      have hnext : (h.reuCursor + h.respLen) % 16777216 = h.reuCursor + h.respLen :=
        Nat.mod_eq_of_lt (by omega)
      have hbytes := ha.bytes
      rw [← ha.respLen] at hbytes
      refine ⟨ha.state, ha.lineIdx, ha.line, ha.clValid, ha.contentLength, ha.chunked,
        ha.chunkState, ha.chunkRem, ha.bodyTotal, rfl, ha.stored, ha.flushed, rfl, ?_, ha.full,
        ha.room⟩
      intro a hbase hlt
      dsimp only at hlt ⊢
      rw [hnext] at hlt
      rw [haddr, ← hbytes]
      unfold store
      rw [length_bytesAt]
      split
      case isTrue => rfl
      case isFalse hout => exact ha.region a hbase (by omega)

theorem Alike.bodyAppend (hfits : E.Fits) (ha : Alike E h k) (b : UInt8) :
    Alike E (bodyAppend E h b) (bodyAppend E k b) := by
  unfold Http.bodyAppend
  dsimp only
  rw [← ha.respLen, ← ha.bodyTotal]
  split
  case isTrue =>
    exact ⟨ha.state, ha.lineIdx, ha.line, ha.clValid, ha.contentLength, ha.chunked, ha.chunkState,
      ha.chunkRem, rfl, rfl, ha.stored, ha.flushed, ha.cursor, ha.region, ha.full, ha.room⟩
  case isFalse hroom =>
    have hbounce := ha.bounce b (Nat.lt_of_not_le hroom)
    unfold Http.bounce at hbounce
    rw [← ha.respLen, ← ha.bodyTotal] at hbounce
    split
    case isTrue hsink =>
      have hblit := hbounce.sinkBlit hfits hsink.1
      exact ⟨hblit.state, hblit.lineIdx, hblit.line, hblit.clValid, hblit.contentLength,
        hblit.chunked, hblit.chunkState, hblit.chunkRem, hblit.bodyTotal, rfl,
        fun i hi => absurd hi (Nat.not_lt_zero i), hblit.flushed, hblit.cursor, hblit.region,
        hblit.full, hblit.room⟩
    case isFalse => exact hbounce

/-- One byte. -/
theorem Alike.byte (hfits : E.Fits) (ha : Alike E h k) (b : UInt8) :
    TurnAlike (Alike E) (parseByte E h b) (parseByte E k b) := by
  unfold parseByte
  rw [← ha.state, ← ha.chunked]
  cases hstate : h.parseState with
  | status => exact ha.statusByte hstate b
  | headers => exact ha.headerByte hstate b
  | body =>
      have happend := ha.bodyAppend hfits b
      have hbody : (Http.bodyAppend E h b).parseState = .body :=
        (bodyAppend_frame E h b).1.trans hstate
      cases hchunked : h.chunked with
      | false => exact happend
      | true =>
          unfold chunkedByte
          rw [← ha.chunkState]
          cases hchunk : h.chunkState with
          | size => exact ha.sizeByte hstate b
          | skip =>
              show TurnAlike (Alike E) (.again (if b = lf then Http.sizeEol h else h))
                (.again (if b = lf then Http.sizeEol k else k))
              split
              case isTrue => exact ha.sizeEol hstate
              case isFalse => exact ha
          | data =>
              show Alike E (dataByte E h b) (dataByte E k b)
              unfold dataByte
              dsimp only
              rw [← happend.chunkRem]
              split
              case isTrue => exact happend.withChunk hbody rfl rfl happend.lineIdx
              case isFalse => exact happend.withChunk hbody happend.chunkState rfl happend.lineIdx
          | crlf =>
              show TurnAlike (Alike E) (.again (if b = lf then { h with chunkState := .size } else h))
                (.again (if b = lf then { k with chunkState := .size } else k))
              split
              case isTrue => exact ha.withChunk hstate rfl ha.chunkRem ha.lineIdx
              case isFalse => exact ha
          | final => exact ha.finalByte hstate b

/-! ## What a caller reads -/

structure Outcome where
  status : Nat
  clValid : Bool
  contentLength : Option Nat
  chunked : Bool
  bodyTotal : Nat
  full : Bool
  /-- the body in the REU -/
  region : List UInt8
  /-- the body in `http_resp_buf` -/
  buffer : List UInt8

def Response.outcome (E : HttpEnv) (h : Response) : Outcome where
  status := h.status
  clValid := h.clValid
  contentLength := if h.clValid then some h.contentLength else none
  chunked := h.chunked
  bodyTotal := h.bodyTotal
  full := E.uci && h.sinkFull
  region := bytesAt h.reu E.reuBodyBase h.reuCursor
  buffer := bytesAt h.respBuf 0 h.respLen

theorem Alike.full_eq (ha : Alike E h k) : (E.uci && h.sinkFull) = (E.uci && k.sinkFull) := by
  cases huci : E.uci with
  | false => rfl
  | true => rw [ha.full huci]

theorem Alike.region_eq (ha : Alike E h k) {n : Nat} (hn : n ≤ h.reuCursor) :
    bytesAt h.reu E.reuBodyBase n = bytesAt k.reu E.reuBodyBase n := by
  refine bytesAt_congr ?_
  intro i hi
  exact ha.region _ (Nat.le_add_right _ _) (by omega)

theorem Alike.outcome_eq (ha : Alike E h k) (hstatus : h.status = k.status) :
    h.outcome E = k.outcome E := by
  have hlength : (if h.clValid then some h.contentLength else none) =
      if k.clValid then some k.contentLength else none := by
    rw [← ha.clValid]
    cases hcl : h.clValid with
    | false => rfl
    | true => rw [ha.contentLength hcl]
  unfold Response.outcome
  rw [hstatus, ha.clValid, ha.chunked, ha.bodyTotal, ha.full_eq, ha.region_eq (Nat.le_refl _),
    ha.cursor, ha.bytes]
  rw [ha.clValid] at hlength
  rw [hlength]

/-! ## The end of the body -/

/-- What holds of the sink between two bytes: it has taken whole blocks, and none if its region is smaller than a
block; outside the region the REU is `m`, and so is all of it where nothing has been taken. -/
structure Blocks (E : HttpEnv) (m : Buffer) (h : Response) : Prop where
  flushed : h.sinkFlushed = false
  respLen : h.respLen < 512
  room : h.sinkRoom = sinkRoomInit E
  whole : h.reuCursor % 512 = 0
  enough : h.sinkFull = true → 512 ≤ sinkRoomInit E → 512 ≤ h.reuCursor
  outside : ∀ a, a < E.reuBodyBase ∨ E.reuBodyBase + sinkRoomInit E ≤ a → h.reu a = m a
  untouched : sinkRoomInit E < 512 → h.reu = m

/-- The sink is open, if there is one. -/
def Open (E : HttpEnv) (m : Buffer) (h : Response) : Prop :=
  E.uci = true → E.bodySink = true → (∃ t, Sunk E t h) ∧ Blocks E m h

section Blocks

variable {m : Buffer}

theorem sinkBlit_outside (hfits : E.Fits) (hroom : h.sinkRoom = sinkRoomInit E) {a : Nat}
    (ha : a < E.reuBodyBase ∨ E.reuBodyBase + sinkRoomInit E ≤ a) : (sinkBlit E h).reu a = h.reu a := by
  rw [sinkBlit_reu]
  exact replay_outside ha _ _ (blitStash_inRegion hfits hroom)

/-- A transfer is refused behind a first block, or by a region without room for it. -/
theorem sinkBlit_enough (hroom : h.sinkRoom = sinkRoomInit E) (hwhole : h.reuCursor % 512 = 0)
    (hlen : h.respLen ≤ 512) (henough : h.sinkFull = true → 512 ≤ sinkRoomInit E → 512 ≤ h.reuCursor)
    (hfull : (sinkBlit E h).sinkFull = true) (hle : 512 ≤ sinkRoomInit E) :
    512 ≤ (sinkBlit E h).reuCursor := by
  unfold sinkBlit at hfull ⊢
  split
  case isTrue hzero =>
    rw [if_pos hzero] at hfull
    exact henough hfull hle
  case isFalse hne =>
    rw [if_neg hne] at hfull
    split
    case isTrue hfit =>
      rw [if_pos hfit] at hfull
      unfold sinkFits at hfit
      rw [show h.sinkFull = true from hfull] at hfit
      cases hfit
    case isFalse hfit =>
      show 512 ≤ h.reuCursor
      cases hbefore : h.sinkFull with
      | true => exact henough hbefore hle
      | false =>
          unfold sinkFits at hfit
          rw [hbefore, hroom] at hfit
          simp only [Bool.not_false, Bool.true_and, decide_eq_true_eq] at hfit
          omega

/-- A transfer that does not fit, or of which nothing is left, writes nothing. -/
theorem sinkBlit_untouched (h : Response)
    (hno : (sinkBlit E h).sinkFull = true ∨ h.sinkRoom < h.respLen) : (sinkBlit E h).reu = h.reu := by
  unfold sinkBlit at hno ⊢
  split
  case isTrue => rfl
  case isFalse hne =>
    rw [if_neg hne] at hno
    split
    case isFalse => rfl
    case isTrue hfit =>
      rw [if_pos hfit] at hno
      unfold sinkFits at hfit
      rw [Bool.and_eq_true, decide_eq_true_iff] at hfit
      rcases hno with hfull | hlt
      · rw [show h.sinkFull = true from hfull] at hfit
        cases hfit.1
      · omega

theorem Blocks.append (hfits : E.Fits) (huci : E.uci = true) (hsink : E.bodySink = true)
    (hb : Blocks E m h) (b : UInt8) : Blocks E m (Http.bodyAppend E h b) := by
  have hlen := hb.respLen
  have hinc : inc16 h.respLen = h.respLen + 1 := inc16_of_lt (by omega)
  rw [bodyAppend_eq huci hsink hlen]
  split
  case isFalse hmore =>
    -- the block is not full yet
    refine ⟨hb.flushed, ?_, hb.room, hb.whole, hb.enough, hb.outside, hb.untouched⟩
    show inc16 h.respLen < 512
    omega
  case isTrue hblock =>
    -- 512 bytes: the block goes to the REU and a new one begins
    obtain ⟨-, hflushed, hroom, -, -⟩ := sinkBlit_frame E (Http.bounce h b)
    have hsize : (Http.bounce h b).respLen = 512 := by
      show inc16 h.respLen = 512
      omega
    have hinit : (Http.bounce h b).sinkRoom = sinkRoomInit E := hb.room
    refine ⟨hflushed.trans hb.flushed, by show (0 : Nat) < 512; decide, hroom.trans hb.room, ?_, ?_, ?_, ?_⟩
    · have hcursor : (Http.bounce h b).reuCursor % 512 = 0 := hb.whole
      show (Http.sinkBlit E (Http.bounce h b)).reuCursor % 512 = 0
      unfold Http.sinkBlit
      split
      case isTrue => exact hcursor
      case isFalse =>
        split
        case isFalse => exact hcursor
        case isTrue =>
          show ((Http.bounce h b).reuCursor + (Http.bounce h b).respLen) % 16777216 % 512 = 0
          omega
    · exact sinkBlit_enough hinit hb.whole (Nat.le_of_eq hsize) hb.enough
    · exact fun a ha => (sinkBlit_outside hfits hinit ha).trans (hb.outside a ha)
    · intro hsmall
      refine Eq.trans (sinkBlit_untouched _ (Or.inr ?_)) (hb.untouched hsmall)
      rw [hinit, hsize]
      exact hsmall

theorem Blocks.byte (hfits : E.Fits) (huci : E.uci = true) (hsink : E.bodySink = true)
    (hb : Blocks E m h) (b : UInt8) : (parseByte E h b).Post (Blocks E m) (Blocks E m) := by
  refine parseByte_rule E ?_ (fun x b hx => hx.append hfits huci hsink b) ?_ b hb
  · intro x _ _ _ _ _ _ _ _ _ hx
    exact ⟨hx.flushed, hx.respLen, hx.room, hx.whole, hx.enough, hx.outside, hx.untouched⟩
  · intro x hx
    unfold Http.bodyBegin
    dsimp only
    rw [if_pos huci]
    exact ⟨rfl, by show (0 : Nat) < 512; decide, rfl, rfl, nofun, hx.outside, hx.untouched⟩

theorem Open.byte (hfits : E.Fits) (ho : Open E m h) (b : UInt8) :
    (parseByte E h b).Post (Open E m) (Open E m) := by
  cases hb : parseByte E h b with
  | again h' =>
      intro huci hsink
      obtain ⟨⟨t, hs⟩, hblocks⟩ := ho huci hsink
      have hstep := hs.byte hfits huci hsink b
      have hstep' := hblocks.byte hfits huci hsink b
      rw [hb] at hstep hstep'
      exact ⟨⟨_, hstep⟩, hstep'⟩
  | leave h' =>
      intro huci hsink
      obtain ⟨⟨t, hs⟩, hblocks⟩ := ho huci hsink
      have hstep := hs.byte hfits huci hsink b
      have hstep' := hblocks.byte hfits huci hsink b
      rw [hb] at hstep hstep'
      exact ⟨⟨_, hstep⟩, hstep'⟩

end Blocks

theorem bodyFinish_off (hoff : E.uci = false ∨ E.bodySink = false) (h : Response) :
    bodyFinish E h = h := by
  unfold bodyFinish
  rcases hoff with huci | hsink
  · rw [huci]
    rfl
  · rw [hsink]
    cases E.uci <;> rfl

/-- The bytes that are fetched back. -/
def frontLen (h : Response) : Nat :=
  if h.bodyTotal < 512 then h.bodyTotal else 512

/-- The first bytes of the body, back in the buffer. -/
def refetch (E : HttpEnv) (h : Response) : Response :=
  { h with
    respLen := frontLen h
    respBuf := store h.respBuf 0 (bytesAt h.reu E.reuBodyBase (frontLen h)) }

theorem bodyFinish_on (huci : E.uci = true) (hsink : E.bodySink = true)
    (hflushed : h.sinkFlushed = false) :
    bodyFinish E h = refetch E (sinkBlit E { h with sinkFlushed := true }) := by
  unfold bodyFinish
  rw [huci, hsink, hflushed]
  rfl

theorem refetch_bytes (E : HttpEnv) (h : Response) :
    bytesAt (refetch E h).respBuf 0 (refetch E h).respLen = bytesAt h.reu E.reuBodyBase (frontLen h) := by
  have hself := bytesAt_store_self h.respBuf 0 (bytesAt h.reu E.reuBodyBase (frontLen h))
  rw [length_bytesAt] at hself
  exact hself

theorem bodyFinish_again (E : HttpEnv) (h : Response) : bodyFinish E (bodyFinish E h) = bodyFinish E h := by
  cases huci : E.uci with
  | false => exact bodyFinish_off (Or.inl huci) _
  | true =>
      cases hsink : E.bodySink with
      | false => exact bodyFinish_off (Or.inr hsink) _
      | true =>
          have hdone : (bodyFinish E h).sinkFlushed = true := by
            cases hflushed : h.sinkFlushed with
            | true =>
                unfold bodyFinish
                rw [huci, hsink, hflushed]
                exact hflushed
            | false =>
                rw [bodyFinish_on huci hsink hflushed]
                exact (sinkBlit_frame E { h with sinkFlushed := true }).2.1
          generalize bodyFinish E h = x at hdone
          unfold bodyFinish
          rw [huci, hsink, hdone]
          rfl

/-- The front of the body is in the REU when it is fetched back, or no earlier body can be there, or nothing is
fetched. -/
def Fetchable (E : HttpEnv) (h : Response) : Prop :=
  E.uci = true → E.bodySink = true → (sinkBlit E { h with sinkFlushed := true }).sinkFull = true →
    sinkRoomInit E = 0 ∨ 512 ≤ sinkRoomInit E ∨ h.bodyTotal = 0

/-- The two finish their bodies alike. -/
theorem Alike.finish (hfits : E.Fits) (ha : Alike E h k) {m m' : Buffer}
    (hm : ∀ a, a < E.reuBodyBase ∨ E.reuBodyBase + sinkRoomInit E ≤ a → m a = m' a) (ho : Open E m h)
    (ho' : Open E m' k) (hfetch : Fetchable E h) (hstatus : h.status = k.status) :
    (bodyFinish E h).outcome E = (bodyFinish E k).outcome E := by
  by_cases hon : E.uci = true ∧ E.bodySink = true
  case neg =>
    have hoff : E.uci = false ∨ E.bodySink = false := by
      cases huci : E.uci with
      | false => exact Or.inl rfl
      | true => exact Or.inr (Bool.eq_false_iff.2 fun hsink => hon ⟨huci, hsink⟩)
    rw [bodyFinish_off hoff, bodyFinish_off hoff]
    exact ha.outcome_eq hstatus
  case pos =>
  obtain ⟨huci, hsink⟩ := hon
  obtain ⟨⟨t, hs⟩, hb⟩ := ho huci hsink
  obtain ⟨-, hb'⟩ := ho' huci hsink
  have hfetch := hfetch huci hsink
  rw [bodyFinish_on huci hsink hb.flushed, bodyFinish_on huci hsink hb'.flushed]
  have hlatched : Alike E { h with sinkFlushed := true } { k with sinkFlushed := true } :=
    ⟨ha.state, ha.lineIdx, ha.line, ha.clValid, ha.contentLength, ha.chunked, ha.chunkState,
      ha.chunkRem, ha.bodyTotal, ha.respLen, ha.stored, rfl, ha.cursor, ha.region, ha.full, ha.room⟩
  have hblit := hlatched.sinkBlit hfits huci
  have hstatus' : (Http.sinkBlit E { h with sinkFlushed := true }).status =
      (Http.sinkBlit E { k with sinkFlushed := true }).status := by
    have hkeep : ∀ x : Response, (Http.sinkBlit E x).status = x.status := by
      intro x
      unfold Http.sinkBlit
      split
      case isTrue => rfl
      case isFalse => split <;> rfl
    rw [hkeep, hkeep]
    exact hstatus
  obtain ⟨-, -, -, htotal, -⟩ := sinkBlit_frame E { h with sinkFlushed := true }
  have hfront : bytesAt (Http.sinkBlit E { h with sinkFlushed := true }).reu E.reuBodyBase
        (frontLen (Http.sinkBlit E { h with sinkFlushed := true })) =
      bytesAt (Http.sinkBlit E { k with sinkFlushed := true }).reu E.reuBodyBase
        (frontLen (Http.sinkBlit E { k with sinkFlushed := true })) := by
    have hsame : frontLen (Http.sinkBlit E { h with sinkFlushed := true }) =
        frontLen (Http.sinkBlit E { k with sinkFlushed := true }) := by
      unfold frontLen
      rw [hblit.bodyTotal]
    rw [← hsame]
    cases hfull : (Http.sinkBlit E { h with sinkFlushed := true }).sinkFull with
    | false =>
        -- as far as the buffer is filled again, the REU holds the body
        obtain ⟨hheld, hcount⟩ := hs.held (sinkFull_of_sinkBlit (h := { h with sinkFlushed := true }) hfull)
        have hheld' : Held E t.body { h with sinkFlushed := true } :=
          ⟨hheld.room, hheld.cursor, hheld.total, hheld.bytes⟩
        obtain ⟨hcursor, -, -⟩ := sinkBlit_holds hfits hheld' hfull
        refine hblit.region_eq ?_
        have hcount' : (Http.sinkBlit E { h with sinkFlushed := true }).bodyTotal = t.body.length :=
          htotal.trans hcount
        unfold frontLen
        rw [hcursor, hcount']
        split
        case isTrue => exact Nat.le_refl _
        case isFalse hlong => exact Nat.le_of_not_lt hlong
    | true =>
        rcases hfetch hfull with hnone | hblock | hzero
        · -- nothing is ever written
          refine bytesAt_congr fun i _ => ?_
          have hout : E.reuBodyBase + i < E.reuBodyBase ∨
              E.reuBodyBase + sinkRoomInit E ≤ E.reuBodyBase + i := by
            omega
          rw [sinkBlit_outside (h := { h with sinkFlushed := true }) hfits hb.room hout,
            sinkBlit_outside (h := { k with sinkFlushed := true }) hfits hb'.room hout]
          exact (hb.outside _ hout).trans ((hm _ hout).trans (hb'.outside _ hout).symm)
        · -- the first block is there
          refine hblit.region_eq (Nat.le_trans ?_ (sinkBlit_enough (h := { h with sinkFlushed := true }) hb.room
            hb.whole (Nat.le_of_lt hb.respLen) hb.enough hfull hblock))
          unfold frontLen
          split
          case isTrue hlt => exact Nat.le_of_lt hlt
          case isFalse => exact Nat.le_refl _
        · have hnil : frontLen (Http.sinkBlit E { h with sinkFlushed := true }) = 0 := by
            unfold frontLen
            rw [htotal.trans hzero]
            rfl
          rw [hnil, bytesAt_zero, bytesAt_zero]
  have hbuffer := (refetch_bytes E _).trans (hfront.trans (refetch_bytes E _).symm)
  generalize Http.sinkBlit E { h with sinkFlushed := true } = h' at *
  generalize Http.sinkBlit E { k with sinkFlushed := true } = k' at *
  have houtcome := hblit.outcome_eq hstatus'
  unfold Response.outcome at houtcome ⊢
  injection houtcome with h₁ h₂ h₃ h₄ h₅ h₆ h₇ h₈
  rw [hbuffer]
  show Outcome.mk h'.status h'.clValid (if h'.clValid then some h'.contentLength else none)
    h'.chunked h'.bodyTotal (E.uci && h'.sinkFull) (bytesAt h'.reu E.reuBodyBase h'.reuCursor) _ =
    Outcome.mk k'.status k'.clValid (if k'.clValid then some k'.contentLength else none)
      k'.chunked k'.bodyTotal (E.uci && k'.sinkFull) (bytesAt k'.reu E.reuBodyBase k'.reuCursor) _
  rw [h₁, h₃, h₂, h₄, h₅, h₆, h₇]

/-! ## The status line -/

/-- No line feed before the three digits of the status are there. -/
def LongStatus (bs : List UInt8) : Prop :=
  ∀ front back : List UInt8, bs = front ++ lf :: back → lf ∉ front → 12 ≤ front.length

/-- The status is the same, and will be: the line that is being read is long enough. -/
def StatusKnown (h k : Response) (bs : List UInt8) : Prop :=
  h.status = k.status ∧
  (h.parseState = .status → h.lineIdx ≤ 31 ∧
    ∀ front back : List UInt8, bs = front ++ lf :: back → lf ∉ front →
      12 ≤ h.lineIdx + front.length)

/-- What holds behind `body_append` and is not about the chunks holds behind a byte of a chunk. -/
theorem dataByte_keeps {P : Response → Prop} {b : UInt8} (hP : P (Http.bodyAppend E h b))
    (hchunk : ∀ (x : Response) (s : ChunkState) (rem : Nat), P x →
      P { x with chunkState := s, chunkRem := rem }) : P (dataByte E h b) := by
  unfold dataByte
  generalize Http.bodyAppend E h b = x at hP
  dsimp only
  split
  case isTrue => exact hchunk x .crlf _ hP
  case isFalse => exact hchunk x x.chunkState _ hP

/-- Outside the status line the status stays as it is. -/
theorem status_kept (hne : h.parseState ≠ .status) (b : UInt8) :
    (parseByte E h b).Post (fun h' => h'.parseState ≠ .status ∧ h'.status = h.status)
      (fun h' => h'.parseState ≠ .status ∧ h'.status = h.status) := by
  have hsame : h.parseState ≠ .status ∧ h.status = h.status := ⟨hne, rfl⟩
  unfold parseByte
  cases hstate : h.parseState with
  | status => exact absurd hstate hne
  | headers =>
      rw [hstate] at hsame
      show (headerByte E h b).parseState ≠ .status ∧ (headerByte E h b).status = h.status
      unfold Http.headerByte
      split
      case isTrue =>
        split
        case isTrue =>
          unfold Http.bodyBegin
          cases E.uci <;> exact ⟨nofun, rfl⟩
        case isFalse =>
          unfold Http.checkTransferEncoding Http.checkContentLength
          split
          case isTrue => split <;> exact ⟨hne, rfl⟩
          case isFalse => split <;> exact ⟨hne, rfl⟩
      case isFalse =>
        split
        case isTrue => exact ⟨hne, rfl⟩
        case isFalse =>
          unfold Http.lineByte
          split <;> exact ⟨hne, rfl⟩
  | body =>
      have happend : (Http.bodyAppend E h b).parseState ≠ .status ∧
          (Http.bodyAppend E h b).status = h.status := by
        refine ⟨by rw [(bodyAppend_frame E h b).1]; exact hne, ?_⟩
        unfold Http.bodyAppend
        dsimp only
        split
        case isTrue => rfl
        case isFalse =>
          split
          case isFalse => rfl
          case isTrue =>
            show (Http.sinkBlit E _).status = h.status
            unfold Http.sinkBlit
            split
            case isTrue => rfl
            case isFalse => split <;> rfl
      cases hchunked : h.chunked with
      | false => exact happend
      | true =>
          unfold chunkedByte
          cases hchunk : h.chunkState with
          | size =>
              show (Http.sizeByte h b).parseState ≠ .status ∧ (Http.sizeByte h b).status = h.status
              unfold Http.sizeByte Http.sizeEol
              split
              case isTrue => split <;> exact ⟨hne, rfl⟩
              case isFalse =>
                split
                case h_1 => exact ⟨hne, rfl⟩
                case h_2 => split <;> exact ⟨hne, rfl⟩
          | skip =>
              show (if b = lf then Http.sizeEol h else h).parseState ≠ .status ∧
                (if b = lf then Http.sizeEol h else h).status = h.status
              unfold Http.sizeEol
              split
              case isTrue => split <;> exact ⟨hne, rfl⟩
              case isFalse => exact ⟨hne, rfl⟩
          | data =>
              exact dataByte_keeps (P := fun x => x.parseState ≠ .status ∧ x.status = h.status)
                happend (fun _ _ _ hx => hx)
          | crlf =>
              show (if b = lf then { h with chunkState := .size } else h).parseState ≠ .status ∧
                (if b = lf then { h with chunkState := .size } else h).status = h.status
              split <;> exact ⟨hne, rfl⟩
          | final =>
              show (Http.finalByte h b).Post _ _
              unfold Http.finalByte
              split
              case isTrue => split <;> exact ⟨hne, rfl⟩
              case isFalse => split <;> exact ⟨hne, rfl⟩

theorem bodyFinish_status (E : HttpEnv) (h : Response) : (bodyFinish E h).status = h.status := by
  unfold bodyFinish
  split
  case isTrue => rfl
  case isFalse =>
    split
    case isTrue => rfl
    case isFalse =>
      split
      case isTrue => rfl
      case isFalse =>
        show (Http.sinkBlit E _).status = h.status
        unfold Http.sinkBlit
        split
        case isTrue => rfl
        case isFalse => split <;> rfl

theorem recvFrom_status (bs : List UInt8) :
    ∀ h : Response, h.parseState ≠ .status → (recvFrom E h bs).1.status = h.status := by
  induction bs with
  | nil =>
      intro h _
      cases hc : complete h with
      | true => rw [recvFrom_of_complete E hc, bodyFinish_status]
      | false => rw [recvFrom_nil E hc]
  | cons b bs ih =>
      intro h hne
      cases hc : complete h with
      | true => rw [recvFrom_of_complete E hc, bodyFinish_status]
      | false =>
          have hstep := status_kept (E := E) hne b
          cases hb : parseByte E h b with
          | again h' =>
              rw [hb] at hstep
              rw [recvFrom_again E hc hb, ih h' hstep.1, hstep.2]
          | leave h' =>
              rw [hb] at hstep
              rw [recvFrom_leave E hc hb, bodyFinish_status, hstep.2]

/-- The status behind its line. -/
theorem Alike.status_eq (ha : Alike E h k) (hstate : h.parseState = .status)
    (hidx : 12 ≤ h.lineIdx) : statusOf h.lineBuf = statusOf k.lineBuf := by
  have hne : h.parseState ≠ .body := by
    rw [hstate]
    decide
  unfold statusOf
  rw [ha.line hne 9 (by omega), ha.line hne 10 (by omega), ha.line hne 11 (by omega)]

theorem StatusKnown.next {b : UInt8} {bs : List UInt8} {h' k' : Response} (ha : Alike E h k)
    (hs : StatusKnown h k (b :: bs)) (hb : parseByte E h b = .again h')
    (hb' : parseByte E k b = .again k') : StatusKnown h' k' bs := by
  by_cases hstate : h.parseState = .status
  case neg =>
    have hkept := status_kept (E := E) hstate b
    have hkept' := status_kept (E := E) (fun hk => hstate (ha.state.trans hk)) b
    rw [hb] at hkept
    rw [hb'] at hkept'
    exact ⟨hkept.2.trans (hs.1.trans hkept'.2.symm), fun hst => absurd hst hkept.1⟩
  case pos =>
    have hstate' : k.parseState = .status := ha.state.symm.trans hstate
    obtain ⟨hidx, hlong⟩ := hs.2 hstate
    unfold parseByte at hb hb'
    rw [hstate] at hb
    rw [hstate'] at hb'
    cases hb
    cases hb'
    unfold Http.statusByte
    by_cases hlf : b = lf
    · -- the end of the line, which must have its digits
      rw [if_pos hlf, if_pos hlf]
      have henough := hlong [] bs (by rw [hlf]; rfl) (by nofun)
      exact ⟨ha.status_eq hstate henough, nofun⟩
    · rw [if_neg hlf, if_neg hlf]
      refine ⟨?_, ?_⟩
      · unfold Http.lineByte
        rw [← ha.lineIdx]
        split <;> exact hs.1
      · intro _
        refine ⟨lineByte_idx hidx b, ?_⟩
        intro front back heq hfront
        have hall := hlong (b :: front) back (by rw [heq]; rfl) (by
          intro hmem
          rcases List.mem_cons.1 hmem with hhead | htail
          · exact hlf hhead.symm
          · exact hfront htail)
        unfold Http.lineByte
        split
        case isTrue hfull => omega
        case isFalse hroom =>
          show 12 ≤ inc8 h.lineIdx + front.length
          rw [inc8_of_lt (by omega)]
          rw [List.length_cons] at hall
          omega

/-! ## Runs -/

/-- Two runs go in step up to the end, where `http_body_finish` may follow. -/
theorem alike_recvFrom (hfits : E.Fits) {m m' : Buffer} (bs : List UInt8) :
    ∀ h k : Response, Alike E h k → Open E m h → Open E m' k → StatusKnown h k bs →
      (recvFrom E h bs).2 = (recvFrom E k bs).2 ∧
        ∃ x y, Alike E x y ∧ Open E m x ∧ Open E m' y ∧ x.status = y.status ∧
          ((recvFrom E h bs).1 = x ∧ (recvFrom E k bs).1 = y ∨
            (recvFrom E h bs).1 = bodyFinish E x ∧ (recvFrom E k bs).1 = bodyFinish E y) := by
  induction bs with
  | nil =>
      intro h k ha ho ho' hs
      cases hc : complete h with
      | true =>
          rw [recvFrom_of_complete E hc, recvFrom_of_complete E (ha.complete_eq.symm.trans hc)]
          exact ⟨rfl, h, k, ha, ho, ho', hs.1, Or.inr ⟨rfl, rfl⟩⟩
      | false =>
          rw [recvFrom_nil E hc, recvFrom_nil E (ha.complete_eq.symm.trans hc)]
          exact ⟨rfl, h, k, ha, ho, ho', hs.1, Or.inl ⟨rfl, rfl⟩⟩
  | cons b bs ih =>
      intro h k ha ho ho' hs
      cases hc : complete h with
      | true =>
          rw [recvFrom_of_complete E hc, recvFrom_of_complete E (ha.complete_eq.symm.trans hc)]
          exact ⟨rfl, h, k, ha, ho, ho', hs.1, Or.inr ⟨rfl, rfl⟩⟩
      | false =>
          have hc' := ha.complete_eq.symm.trans hc
          have hstep := ha.byte hfits b
          have hopen := ho.byte hfits b
          have hopen' := ho'.byte hfits b
          cases hb : parseByte E h b with
          | again h' =>
              cases hb' : parseByte E k b with
              | again k' =>
                  rw [hb, hb'] at hstep
                  rw [hb] at hopen
                  rw [hb'] at hopen'
                  rw [recvFrom_again E hc hb, recvFrom_again E hc' hb']
                  exact ih h' k' hstep hopen hopen' (hs.next ha hb hb')
              | leave k' =>
                  rw [hb, hb'] at hstep
                  exact hstep.elim
          | leave h' =>
              cases hb' : parseByte E k b with
              | again k' =>
                  rw [hb, hb'] at hstep
                  exact hstep.elim
              | leave k' =>
                  rw [hb, hb'] at hstep
                  rw [hb] at hopen
                  rw [hb'] at hopen'
                  rw [recvFrom_leave E hc hb, recvFrom_leave E hc' hb']
                  -- the last byte of a chunked body is far behind the status line
                  have hne : h.parseState ≠ .status := by
                    intro hstate
                    unfold parseByte at hb
                    rw [hstate] at hb
                    cases hb
                  have hkept := status_kept (E := E) hne b
                  have hkept' := status_kept (E := E) (fun hk => hne (ha.state.trans hk)) b
                  rw [hb] at hkept
                  rw [hb'] at hkept'
                  exact ⟨rfl, h', k', hstep, hopen, hopen', hkept.2.trans (hs.1.trans hkept'.2.symm),
                    Or.inr ⟨rfl, rfl⟩⟩

/-- A run from `http_resp_init`: what the caller reads behind the parser and behind `http_body_finish`, the
number of bytes taken, the verdict. -/
def runOutcome (E : HttpEnv) (h : Response) (ds : List Delivery) : Outcome × Outcome × Nat × Bool :=
  ((runDeliveries E (respInit E h) .empty ds).1.outcome E, (finishedRun E h ds).outcome E,
    (runDeliveries E (respInit E h) .empty ds).2)

/-- The states that earlier fetches of a client leave, from power-on; each with or without the sink. -/
inductive Prior (E : HttpEnv) : Response → Prop where
  | boot : Prior E .zero
  | fetch (sink : Bool) (ds : List Delivery) {h : Response} : Prior E h →
      Prior E (runDeliveries { E with bodySink := sink } (respInit { E with bodySink := sink } h) .empty ds).1
  | finish (sink : Bool) {h : Response} : Prior E h → Prior E (bodyFinish { E with bodySink := sink } h)

/-- Outside the region the REU is as it was at power-on, and no more room is on record than there is. -/
structure Confined (E : HttpEnv) (h : Response) : Prop where
  room : h.sinkRoom ≤ sinkRoomInit E
  outside : ∀ a, a < E.reuBodyBase ∨ E.reuBodyBase + sinkRoomInit E ≤ a → h.reu a = Response.zero.reu a

theorem Confined.blit (hfits : E.Fits) (hx : Confined E h) (sink : Bool) :
    Confined E (Http.sinkBlit { E with bodySink := sink } h) := by
  refine ⟨Nat.le_trans (Nat.le_of_eq (sinkBlit_frame _ h).2.2.1) hx.room, fun a ha => ?_⟩
  unfold Http.sinkBlit
  split
  case isTrue => exact hx.outside a ha
  case isFalse hne =>
    split
    case isFalse => exact hx.outside a ha
    case isTrue hfit =>
      unfold sinkFits at hfit
      rw [Bool.and_eq_true, decide_eq_true_iff] at hfit
      have hle := hx.room
      have htop := hfits.topBank
      have haddr : (E.reuBodyBase + h.reuCursor) % 16777216 = E.reuBodyBase + h.reuCursor := by
        refine Nat.mod_eq_of_lt ?_
        rcases sinkRoomInit_cases hfits with hzero | ⟨-, hend⟩
        · omega
        · unfold reuSize at hend
          omega
      show store h.reu ((E.reuBodyBase + h.reuCursor) % 16777216) (bytesAt h.respBuf 0 h.respLen) a = _
      rw [haddr, store_of_outside]
      · exact hx.outside a ha
      · rw [length_bytesAt]
        omega

/-- No fetch writes outside the region. -/
theorem Prior.confined (hfits : E.Fits) (hp : Prior E h) : Confined E h := by
  -- the end of a body writes where a block does
  have hfinish : ∀ (sink : Bool) (x : Response), Confined E x →
      Confined E (bodyFinish { E with bodySink := sink } x) := by
    intro sink x hx
    unfold bodyFinish
    split
    case isTrue => exact hx
    case isFalse =>
      split
      case isTrue => exact hx
      case isFalse =>
        split
        case isTrue => exact hx
        case isFalse =>
          have hlatched : Confined E { x with sinkFlushed := true } := ⟨hx.room, hx.outside⟩
          have hblit := hlatched.blit hfits sink
          exact ⟨hblit.room, hblit.outside⟩
  have hbegin : ∀ (sink : Bool) (x : Response), Confined E x →
      Confined E (Http.bodyBegin { E with bodySink := sink } x) := by
    intro sink x hx
    unfold Http.bodyBegin
    dsimp only
    split
    case isTrue => exact ⟨Nat.le_refl _, hx.outside⟩
    case isFalse => exact ⟨hx.room, hx.outside⟩
  have happend : ∀ (sink : Bool) (x : Response) (b : UInt8), Confined E x →
      Confined E (Http.bodyAppend { E with bodySink := sink } x b) := by
    intro sink x b hx
    unfold Http.bodyAppend
    dsimp only
    split
    case isTrue => exact ⟨hx.room, hx.outside⟩
    case isFalse =>
      split
      case isTrue =>
        have hbounce : Confined E (Http.bounce x b) := ⟨hx.room, hx.outside⟩
        have hblit := hbounce.blit hfits sink
        exact ⟨hblit.room, hblit.outside⟩
      case isFalse => exact ⟨hx.room, hx.outside⟩
  induction hp with
  | boot => exact ⟨Nat.zero_le _, fun _ _ => rfl⟩
  | finish sink _ ih => exact hfinish sink _ ih
  | @fetch sink ds h _ ih =>
      have hinit : Confined E (respInit { E with bodySink := sink } h) :=
        hbegin sink (hdrInit { h with status := 0, parseState := .status, lineIdx := 0 }) ⟨ih.room, ih.outside⟩
      rw [runDeliveries_eq _ ds _ _ (complete_respInit _ h) rfl]
      refine recvFrom_rule { E with bodySink := sink } (fun x b hx => ?_) (hfinish sink) _ _ hinit
      exact parseByte_rule _ (fun _ _ _ _ _ _ _ _ _ _ hx => ⟨hx.room, hx.outside⟩) (happend sink) (hbegin sink) b
        hx

/-- An earlier response that ended behind its status line. -/
def afterStatus (E : HttpEnv) (line : String) : Response :=
  (runDeliveries E (respInit E .zero) .empty [.span (ascii line ++ [lf])]).1

theorem prior_afterStatus (E : HttpEnv) (line : String) : Prior E (afterStatus E line) :=
  .fetch E.bodySink _ .boot

theorem respInit_lineBuf (E : HttpEnv) (h : Response) : (respInit E h).lineBuf = h.lineBuf := by
  unfold respInit Http.bodyBegin
  cases E.uci <;> rfl

theorem respInit_state (E : HttpEnv) (h : Response) :
    (respInit E h).parseState = .status ∧ (respInit E h).lineIdx = 0 := by
  unfold respInit Http.bodyBegin
  cases E.uci <;> exact ⟨rfl, rfl⟩

/-- The line buffer behind the status line of a response. -/
theorem run_statusLine (E : HttpEnv) (h : Response) {front : List UInt8} (hfront : lf ∉ front)
    (back : List UInt8) :
    ∃ x, x.lineBuf = store h.lineBuf 0 (front.take 31) ∧ x.status = statusOf x.lineBuf ∧
      x.parseState ≠ .status ∧ complete x = false ∧
        recvFrom E (respInit E h) (front ++ lf :: back) = recvFrom E x back := by
  obtain ⟨hstate, hidx⟩ := respInit_state E h
  have hline := passes_statusLine E front (respInit E h) hstate (by rw [hidx]; decide) hfront
  have hbuf : ((respInit E h).withLine front).lineBuf = store h.lineBuf 0 (front.take 31) := by
    show store (respInit E h).lineBuf (respInit E h).lineIdx
      (front.take (31 - (respInit E h).lineIdx)) = _
    rw [hidx, respInit_lineBuf]
  have hstate' : ((respInit E h).withLine front).parseState = .status := hstate
  have hc : complete ((respInit E h).withLine front) = false :=
    complete_of_ne_body (by rw [hstate']; decide)
  have hb : parseByte E ((respInit E h).withLine front) lf =
      .again (Http.statusByte ((respInit E h).withLine front) lf) := by
    unfold parseByte
    rw [hstate']
  refine ⟨Http.statusByte ((respInit E h).withLine front) lf, ?_, ?_, ?_, ?_, ?_⟩
  · unfold Http.statusByte
    rw [if_pos rfl]
    exact hbuf
  · unfold Http.statusByte
    rw [if_pos rfl]
    rfl
  · unfold Http.statusByte
    rw [if_pos rfl]
    nofun
  · exact complete_of_ne_body (by unfold Http.statusByte; rw [if_pos rfl]; nofun)
  · rw [hline, recvFrom_again E hc hb]

/-- The status of a run, out of the line buffer. -/
theorem run_status (E : HttpEnv) (h : Response) {front back : List UInt8} {ds : List Delivery}
    (hbytes : ds.flatMap Delivery.bytes = front ++ lf :: back) (hfront : lf ∉ front) :
    ((runOutcome E h ds).1).status = statusOf (store h.lineBuf 0 (front.take 31)) := by
  obtain ⟨x, hbuf, hstatus, hne, -, hrun⟩ := run_statusLine E h hfront back
  show (runDeliveries E (respInit E h) .empty ds).1.status = _
  rw [runDeliveries_eq E ds _ _ (complete_respInit E h) rfl, hbytes, hrun]
  rw [recvFrom_status back x hne, hstatus, hbuf]

/-- What an earlier status line leaves in the line buffer. -/
theorem afterStatus_lineBuf (E : HttpEnv) {line : String} (hline : lf ∉ ascii line) :
    (afterStatus E line).lineBuf = store Response.zero.lineBuf 0 ((ascii line).take 31) := by
  obtain ⟨x, hbuf, -, -, hc, hrun⟩ := run_statusLine E .zero hline []
  unfold afterStatus
  rw [runDeliveries_eq E _ _ _ (complete_respInit E .zero) rfl]
  show (recvFrom E (respInit E .zero) (ascii line ++ [lf] ++ [])).1.lineBuf = _
  rw [List.append_nil, hrun, recvFrom_nil E hc]
  exact hbuf

/-! ## The front of a body -/

/-- The body of a response, by the framing. -/
def payload (E : HttpEnv) (ds : List Delivery) : List UInt8 :=
  (finishedTrace E .zero ds).body

/-- The sink does not refuse a body whose front another body may have left behind: its region is empty, or has
room for a block, or has room for this body.  (The counter of the bytes has 24 bits, and a body that it counts as
empty is not fetched back.) -/
def FrontKept (E : HttpEnv) (ds : List Delivery) : Prop :=
  E.uci = true → E.bodySink = true → sinkRoomInit E = 0 ∨ 512 ≤ sinkRoomInit E ∨
    (payload E ds).length ≤ sinkRoomInit E ∨ (payload E ds).length % 16777216 = 0

theorem open_respInit (E : HttpEnv) (h : Response) : Open E h.reu (respInit E h) := by
  intro huci _
  refine ⟨⟨.empty, sunk_respInit huci h⟩, ?_⟩
  unfold respInit Http.bodyBegin
  dsimp only
  rw [if_pos huci]
  exact ⟨rfl, by show (0 : Nat) < 512; decide, rfl, rfl, nofun, fun _ _ => rfl, fun _ => rfl⟩

theorem statusKnown_respInit {ds : List Delivery} (hlong : LongStatus (ds.flatMap Delivery.bytes))
    (h k : Response) : StatusKnown (respInit E h) (respInit E k) (ds.flatMap Delivery.bytes) := by
  refine ⟨?_, fun _ => ⟨by rw [(respInit_state E h).2]; decide, ?_⟩⟩
  · unfold respInit Http.bodyBegin
    cases E.uci <;> rfl
  · intro front back hbytes hfront
    exact Nat.le_add_left_of_le (hlong front back hbytes hfront)

/-- Two runs of a response whose status line is its own, up to `http_body_finish`. -/
theorem run_alike (hfits : E.Fits) {ds : List Delivery} (hlong : LongStatus (ds.flatMap Delivery.bytes))
    (h k : Response) :
    (runDeliveries E (respInit E h) .empty ds).2 = (runDeliveries E (respInit E k) .empty ds).2 ∧
      ∃ x y, Alike E x y ∧ Open E h.reu x ∧ Open E k.reu y ∧ x.status = y.status ∧
        finishedRun E h ds = bodyFinish E x ∧ finishedRun E k ds = bodyFinish E y ∧
          ((runDeliveries E (respInit E h) .empty ds).1 = x ∧
              (runDeliveries E (respInit E k) .empty ds).1 = y ∨
            (runDeliveries E (respInit E h) .empty ds).1 = finishedRun E h ds ∧
              (runDeliveries E (respInit E k) .empty ds).1 = finishedRun E k ds) := by
  obtain ⟨hrest, x, y, ha, ho, ho', hstatus, hends⟩ := alike_recvFrom hfits _ _ _ (alike_respInit E h k)
    (open_respInit E h) (open_respInit E k) (statusKnown_respInit hlong h k)
  unfold finishedRun
  rw [runDeliveries_eq E ds _ _ (complete_respInit E h) rfl,
    runDeliveries_eq E ds _ _ (complete_respInit E k) rfl]
  refine ⟨by rw [hrest], x, y, ha, ho, ho', hstatus, ?_⟩
  dsimp only
  rcases hends with ⟨h₁, h₂⟩ | ⟨h₁, h₂⟩
  · rw [h₁, h₂]
    exact ⟨rfl, rfl, Or.inl ⟨rfl, rfl⟩⟩
  · rw [h₁, h₂, bodyFinish_again, bodyFinish_again]
    exact ⟨rfl, rfl, Or.inr ⟨rfl, rfl⟩⟩

/-- Whether the front of the body is where it is fetched from, by the body. -/
theorem fetchable_of_frontKept (hfits : E.Fits) {ds : List Delivery} {x : Response} (hx : Open E h.reu x)
    {y : Response} (ha : Alike E x y) (hy : Open E Response.zero.reu y)
    (hrun : finishedRun E .zero ds = bodyFinish E y) (hfront : FrontKept E ds) : Fetchable E x := by
  intro huci hsink hfull
  obtain ⟨-, hb⟩ := hx huci hsink
  obtain ⟨-, hb'⟩ := hy huci hsink
  have hlatched : Alike E { x with sinkFlushed := true } { y with sinkFlushed := true } :=
    ⟨ha.state, ha.lineIdx, ha.line, ha.clValid, ha.contentLength, ha.chunked, ha.chunkState,
      ha.chunkRem, ha.bodyTotal, ha.respLen, ha.stored, rfl, ha.cursor, ha.region, ha.full, ha.room⟩
  have hblit := hlatched.sinkBlit hfits huci
  have hfinished := finished_run hfits huci hsink .zero ds
  have htotal := (finishedTrace_traced E .zero ds).total
  rw [hrun, bodyFinish_on huci hsink hb'.flushed] at hfinished htotal
  have hgrown : sinkRoomInit E < (payload E ds).length :=
    hfinished.full_iff.1 ((hblit.full huci).symm.trans hfull)
  rcases hfront huci hsink with hnone | hblock | hfits' | hwrap
  · exact Or.inl hnone
  · exact Or.inr (Or.inl hblock)
  · omega
  · refine Or.inr (Or.inr ?_)
    have hsame : (Http.sinkBlit E { y with sinkFlushed := true }).bodyTotal = y.bodyTotal :=
      (sinkBlit_frame E { y with sinkFlushed := true }).2.2.2.1
    rw [ha.bodyTotal, ← hsame]
    exact htotal.trans hwrap

/-- A body of one byte in front of the region. -/
def afterByte (E : HttpEnv) (b : UInt8) : Response :=
  finishedRun E .zero [.span [lf, lf, b]]

theorem prior_afterByte (E : HttpEnv) (b : UInt8) : Prior E (afterByte E b) :=
  .finish E.bodySink (.fetch E.bodySink _ .boot)

theorem afterByte_reu (hfits : E.Fits) (huci : E.uci = true) (hsink : E.bodySink = true)
    (hroom : 0 < sinkRoomInit E) (b : UInt8) : (afterByte E b).reu E.reuBodyBase = b := by
  have hfinished := finished_run hfits huci hsink .zero [.span [lf, lf, b]]
  have hbody : (finishedTrace E .zero [.span [lf, lf, b]]).body = [b] := by
    obtain ⟨uci, sink, ok, top, base⟩ := E
    cases huci
    cases hsink
    simp [finishedTrace, runTrace, recvTrace, respInit, Http.bodyBegin, hdrInit, Response.zero, Input.deliver,
      Input.pending, complete, bodyDone, parseByte, Http.statusByte, Http.headerByte, takesPayload,
      Http.bodyAppend, Trace.empty, httpRecvResponse, recvFrom, Input.withPending, inc16, inc24, Input.empty]
  have hopen : (finishedRun E .zero [.span [lf, lf, b]]).sinkFull = false := by
    rw [Bool.eq_false_iff]
    intro hfull
    have hlt := hfinished.full_iff.1 hfull
    rw [hbody, List.length_singleton] at hlt
    omega
  have hbytes := (hfinished.held hopen).1
  rw [hbody] at hbytes
  exact (List.cons.inj hbytes).1

/-- A refused body that is fetched back all the same begins with what was there before. -/
theorem run_front (hfits : E.Fits) (huci : E.uci = true) (hsink : E.bodySink = true)
    (hsmall : sinkRoomInit E < 512) {ds : List Delivery}
    (hlong : LongStatus (ds.flatMap Delivery.bytes)) (hgrown : sinkRoomInit E < (payload E ds).length)
    (hwrap : (payload E ds).length % 16777216 ≠ 0) (h : Response) :
    ((runOutcome E h ds).2.1).buffer.head? = some (h.reu E.reuBodyBase) := by
  obtain ⟨-, x, y, ha, ho, ho', -, hrun, hrun', -⟩ := run_alike hfits hlong h .zero
  obtain ⟨-, hb⟩ := ho huci hsink
  obtain ⟨-, hb'⟩ := ho' huci hsink
  have hlatched : Alike E { x with sinkFlushed := true } { y with sinkFlushed := true } :=
    ⟨ha.state, ha.lineIdx, ha.line, ha.clValid, ha.contentLength, ha.chunked, ha.chunkState,
      ha.chunkRem, ha.bodyTotal, ha.respLen, ha.stored, rfl, ha.cursor, ha.region, ha.full, ha.room⟩
  have hblit := hlatched.sinkBlit hfits huci
  have hfinished := finished_run hfits huci hsink .zero ds
  have htotal := (finishedTrace_traced E .zero ds).total
  rw [hrun', bodyFinish_on huci hsink hb'.flushed] at hfinished htotal
  have hfull : (Http.sinkBlit E { x with sinkFlushed := true }).sinkFull = true :=
    (hblit.full huci).trans (hfinished.full_iff.2 hgrown)
  have hreu : (Http.sinkBlit E { x with sinkFlushed := true }).reu = h.reu :=
    (sinkBlit_untouched _ (Or.inl hfull)).trans (hb.untouched hsmall)
  have hpos : 0 < frontLen (Http.sinkBlit E { x with sinkFlushed := true }) := by
    have htotal' : (Http.sinkBlit E { y with sinkFlushed := true }).bodyTotal =
        (payload E ds).length % 16777216 := htotal
    unfold frontLen
    rw [hblit.bodyTotal, htotal']
    split
    case isTrue => omega
    case isFalse => decide
  show (bytesAt (finishedRun E h ds).respBuf 0 (finishedRun E h ds).respLen).head? = _
  rw [hrun, bodyFinish_on huci hsink hb.flushed, refetch_bytes, hreu]
  obtain ⟨n, hn⟩ := Nat.exists_eq_succ_of_ne_zero (Nat.ne_of_gt hpos)
  rw [hn, bytesAt_succ]
  rfl

end Http
end C64Https
