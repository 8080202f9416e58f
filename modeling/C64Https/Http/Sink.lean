import C64Https.Http.Split

/-!
# Sink — the body in the REU

With `http_body_sink` set, a body goes to the REU in blocks of 512 bytes and a last shorter one,
and its first 512 bytes are fetched back at the end.  `Trace` records, beside a run of the parser,
every block that is stashed and every byte of payload; `Sunk` is what holds of it throughout.
-/

namespace C64Https
namespace Http

open Word Loop Bytes

/-! ## What a run stashes -/

/-- A DMA transfer to the REU. -/
structure Stash where
  addr : Nat
  data : List UInt8

/-- The transfer that `http_sink_blit` starts. -/
def blitStash (E : HttpEnv) (h : Response) : List Stash :=
  if h.respLen = 0 then []
  else if sinkFits h then
    [⟨(E.reuBodyBase + h.reuCursor) % 16777216, bytesAt h.respBuf 0 h.respLen⟩]
  else []

/-- The bounce buffer with one byte more. -/
def bounce (h : Response) (b : UInt8) : Response :=
  { h with
    bodyTotal := inc24 h.bodyTotal
    respBuf := Function.update h.respBuf h.respLen b
    respLen := inc16 h.respLen }

/-- The transfer that `body_append` starts. -/
def appendStash (E : HttpEnv) (h : Response) (b : UInt8) : List Stash :=
  if 512 ≤ h.respLen then []
  else if E.uci = true ∧ E.bodySink = true ∧ 512 ≤ inc16 h.respLen then blitStash E (bounce h b)
  else []

/-- The transfer that `http_body_finish` starts. -/
def finishStash (E : HttpEnv) (h : Response) : List Stash :=
  if E.uci = false then []
  else if E.bodySink = false then []
  else if h.sinkFlushed then []
  else blitStash E { h with sinkFlushed := true }

/-- The next byte is one of the payload. -/
def takesPayload (h : Response) : Bool :=
  decide (h.parseState = .body) && (!h.chunked || decide (h.chunkState = .data))

/-- The payload so far, and what has been stashed of it. -/
structure Trace where
  body : List UInt8
  stashes : List Stash

def Trace.empty : Trace :=
  ⟨[], []⟩

/-- `http_recv_response`, traced. -/
def recvTrace (E : HttpEnv) (t : Trace) (h : Response) (bs : List UInt8) : Trace :=
  if complete h then { t with stashes := t.stashes ++ finishStash E h }
  else
    match bs with
    | [] => t
    | b :: bs =>
        let t := if takesPayload h then ⟨t.body ++ [b], t.stashes ++ appendStash E h b⟩ else t
        match parseByte E h b with
        | .again h => recvTrace E t h bs
        | .leave h => { t with stashes := t.stashes ++ finishStash E h }

/-- `runDeliveries`, traced. -/
def runTrace (E : HttpEnv) : Trace → Response → Input → List Delivery → Trace
  | t, _, _, [] => t
  | t, h, i, d :: ds =>
      let i := i.deliver d
      let r := httpRecvResponse E h i
      let t := recvTrace E t h i.pending
      if r.2.2 then t else runTrace E t r.1 r.2.1 ds

/-! ## The region -/

/-- The size of the expansion as it was probed, in bytes. -/
def reuSize (E : HttpEnv) : Nat :=
  (E.reuTopBank + 1) * 65536

/-- A transfer within the region of a body. -/
structure InRegion (E : HttpEnv) (s : Stash) : Prop where
  above : E.reuBodyBase ≤ s.addr
  below : s.addr + s.data.length ≤ E.reuBodyBase + sinkRoomInit E
  /-- behind the three banks that hold the multiply rows, the comb table and the cold code -/
  floor : 3 * 65536 ≤ s.addr
  inside : s.addr + s.data.length ≤ reuSize E

/-- The values fit the bytes that hold them. -/
structure HttpEnv.Fits (E : HttpEnv) : Prop where
  topBank : E.reuTopBank < 256
  base : E.reuBodyBase < 16777216

theorem sinkRoomInit_cases {E : HttpEnv} (hfits : E.Fits) :
    sinkRoomInit E = 0 ∨
      (3 * 65536 ≤ E.reuBodyBase ∧ E.reuBodyBase + sinkRoomInit E = reuSize E) := by
  obtain ⟨htop, hbase⟩ := hfits
  unfold sinkRoomInit reuSize
  split
  case isTrue => exact Or.inl rfl
  case isFalse =>
    dsimp only
    split
    case isTrue => exact Or.inl rfl
    case isFalse hfloor =>
      split
      case isTrue => exact Or.inl rfl
      case isFalse hbanks =>
        refine Or.inr ⟨by omega, ?_⟩
        -- 256 banks are counted as none
        rcases Nat.lt_or_ge (E.reuTopBank + 1) 256 with hlt | hge
        · rw [inc8_of_lt hlt] at hbanks ⊢
          omega
        · have htop' : E.reuTopBank = 255 := by omega
          have hinc : inc8 E.reuTopBank = 0 := by
            rw [htop']
            unfold inc8
            rfl
          rw [hinc, htop']
          omega

/-! ## One transfer -/

/-- The payload `body`, in the REU up to the cursor and behind it in the bounce buffer. -/
structure Held (E : HttpEnv) (body : List UInt8) (h : Response) : Prop where
  room : h.sinkRoom = sinkRoomInit E
  cursor : h.reuCursor ≤ sinkRoomInit E
  total : h.reuCursor + h.respLen = body.length
  bytes : bytesAt h.reu E.reuBodyBase h.reuCursor ++ bytesAt h.respBuf 0 h.respLen = body

variable {E : HttpEnv} {body : List UInt8} {h : Response}

/-- The address of a transfer that fits does not wrap. -/
theorem fits_region (hfits : E.Fits) (hroom : h.sinkRoom = sinkRoomInit E) (hne : h.respLen ≠ 0)
    (hfit : sinkFits h = true) :
    h.sinkFull = false ∧ h.reuCursor + h.respLen ≤ sinkRoomInit E ∧
    E.reuBodyBase + sinkRoomInit E ≤ 16777216 ∧ 3 * 65536 ≤ E.reuBodyBase ∧
    E.reuBodyBase + sinkRoomInit E = reuSize E := by
  unfold sinkFits at hfit
  rw [Bool.and_eq_true, decide_eq_true_iff, hroom] at hfit
  obtain ⟨hfull, hle⟩ := hfit
  have htop := hfits.topBank
  rcases sinkRoomInit_cases hfits with hzero | ⟨hfloor, hend⟩
  · omega
  · refine ⟨by simpa using hfull, hle, ?_, hfloor, hend⟩
    unfold reuSize at hend
    omega

theorem blitStash_inRegion (hfits : E.Fits) (hroom : h.sinkRoom = sinkRoomInit E) :
    ∀ s ∈ blitStash E h, InRegion E s := by
  unfold blitStash
  split
  case isTrue => nofun
  case isFalse hne =>
    split
    case isFalse => nofun
    case isTrue hfit =>
      obtain ⟨-, hle, htop, hfloor, hend⟩ := fits_region hfits hroom hne hfit
      intro s hs
      rw [List.mem_singleton] at hs
      subst hs
      have haddr : (E.reuBodyBase + h.reuCursor) % 16777216 = E.reuBodyBase + h.reuCursor :=
        Nat.mod_eq_of_lt (by omega)
      refine ⟨?_, ?_, ?_, ?_⟩
      · show E.reuBodyBase ≤ (E.reuBodyBase + h.reuCursor) % 16777216
        omega
      · show (E.reuBodyBase + h.reuCursor) % 16777216 + (bytesAt h.respBuf 0 h.respLen).length ≤ _
        rw [haddr, length_bytesAt]
        omega
      · show 3 * 65536 ≤ (E.reuBodyBase + h.reuCursor) % 16777216
        omega
      · show (E.reuBodyBase + h.reuCursor) % 16777216 + (bytesAt h.respBuf 0 h.respLen).length ≤ _
        rw [haddr, length_bytesAt]
        omega

/-- What a transfer leaves alone. -/
theorem sinkBlit_frame (E : HttpEnv) (h : Response) :
    (sinkBlit E h).parseState = h.parseState ∧ (sinkBlit E h).sinkFlushed = h.sinkFlushed ∧
    (sinkBlit E h).sinkRoom = h.sinkRoom ∧ (sinkBlit E h).bodyTotal = h.bodyTotal ∧
    (sinkBlit E h).respBuf = h.respBuf := by
  unfold sinkBlit
  split
  case isTrue => exact ⟨rfl, rfl, rfl, rfl, rfl⟩
  case isFalse =>
    split
    case isTrue => exact ⟨rfl, rfl, rfl, rfl, rfl⟩
    case isFalse => exact ⟨rfl, rfl, rfl, rfl, rfl⟩

/-- The memory behind some transfers. -/
def replay (m : Buffer) (stashes : List Stash) : Buffer :=
  stashes.foldl (fun m s => store m s.addr s.data) m

theorem replay_append (m : Buffer) (ss ss' : List Stash) :
    replay m (ss ++ ss') = replay (replay m ss) ss' :=
  List.foldl_append

/-- Transfers within the region leave the rest of the memory as it is. -/
theorem replay_outside {a : Nat} (ha : a < E.reuBodyBase ∨ E.reuBodyBase + sinkRoomInit E ≤ a)
    (ss : List Stash) : ∀ m : Buffer, (∀ s ∈ ss, InRegion E s) → replay m ss a = m a := by
  induction ss with
  | nil => exact fun _ _ => rfl
  | cons s ss ih =>
      intro m hregion
      have hs := hregion s List.mem_cons_self
      have habove := hs.above
      have hbelow := hs.below
      show replay (store m s.addr s.data) ss a = m a
      rw [ih _ fun x hx => hregion x (List.mem_cons_of_mem s hx), store_of_outside]
      omega

/-- The transfer is all that is written to the REU. -/
theorem sinkBlit_reu (E : HttpEnv) (h : Response) :
    (sinkBlit E h).reu = replay h.reu (blitStash E h) := by
  unfold sinkBlit blitStash
  split
  case isTrue => rfl
  case isFalse =>
    split
    case isTrue => rfl
    case isFalse => rfl

/-- A sink that is not full behind a transfer was not full before it. -/
theorem sinkFull_of_sinkBlit (hno : (sinkBlit E h).sinkFull = false) : h.sinkFull = false := by
  unfold sinkBlit at hno
  split at hno
  case isTrue => exact hno
  case isFalse =>
    split at hno
    case isTrue => exact hno
    case isFalse => cases hno

/-- Behind a transfer that was not refused all of the payload is in the REU. -/
theorem sinkBlit_holds (hfits : E.Fits) (hheld : Held E body h)
    (hno : (sinkBlit E h).sinkFull = false) :
    (sinkBlit E h).reuCursor = body.length ∧ body.length ≤ sinkRoomInit E ∧
    bytesAt (sinkBlit E h).reu E.reuBodyBase body.length = body := by
  have hcursor := hheld.cursor
  have htotal := hheld.total
  unfold sinkBlit at hno ⊢
  split
  case isTrue hzero =>
    -- nothing is left in the bounce buffer
    have hbytes := hheld.bytes
    rw [hzero, Nat.add_zero] at htotal
    rw [hzero, bytesAt_zero, List.append_nil, htotal] at hbytes
    exact ⟨htotal, htotal ▸ hcursor, hbytes⟩
  case isFalse hne =>
    rw [if_neg hne] at hno
    split
    case isFalse hfit =>
      rw [if_neg hfit] at hno
      cases hno
    case isTrue hfit =>
      obtain ⟨-, hle, htop, hfloor, -⟩ := fits_region hfits hheld.room hne hfit
      have haddr : (E.reuBodyBase + h.reuCursor) % 16777216 = E.reuBodyBase + h.reuCursor :=
        Nat.mod_eq_of_lt (by omega)
      have hnext : (h.reuCursor + h.respLen) % 16777216 = body.length := by
        rw [htotal]
        exact Nat.mod_eq_of_lt (by omega)
      refine ⟨hnext, htotal ▸ hle, ?_⟩
      have happend := bytesAt_store_append h.reu E.reuBodyBase h.reuCursor
        (bytesAt h.respBuf 0 h.respLen)
      rw [length_bytesAt, htotal, hheld.bytes] at happend
      dsimp only
      rw [haddr]
      exact happend

/-- A transfer is refused only when the payload has outgrown the region. -/
theorem sinkBlit_over (hheld : h.sinkFull = false → Held E body h)
    (hover : h.sinkFull = true → sinkRoomInit E < body.length)
    (hfull : (sinkBlit E h).sinkFull = true) : sinkRoomInit E < body.length := by
  cases hbefore : h.sinkFull with
  | true => exact hover hbefore
  | false =>
      have hh := hheld hbefore
      unfold sinkBlit at hfull
      split at hfull
      case isTrue => exact absurd (hbefore.symm.trans hfull) (by decide)
      case isFalse =>
        split at hfull
        case isTrue => exact absurd (hbefore.symm.trans hfull) (by decide)
        case isFalse hfit =>
          unfold sinkFits at hfit
          rw [hbefore, hh.room, hh.total] at hfit
          simpa using hfit

/-! ## The invariant -/

/-- What holds in a run with the sink on. -/
structure Sunk (E : HttpEnv) (t : Trace) (h : Response) : Prop where
  flushed : h.sinkFlushed = false
  respLen : h.respLen < 512
  room : h.sinkRoom = sinkRoomInit E
  head : h.parseState ≠ .body → t.body = []
  region : ∀ s ∈ t.stashes, InRegion E s
  held : h.sinkFull = false → Held E t.body h ∧ h.bodyTotal = t.body.length
  outgrown : h.sinkFull = true → sinkRoomInit E < t.body.length

variable {t : Trace}

/-- What is not about the body does not matter. -/
theorem Sunk.congr {h' : Response} (hs : Sunk E t h) (hflushed : h'.sinkFlushed = h.sinkFlushed)
    (hlen : h'.respLen = h.respLen) (hroom : h'.sinkRoom = h.sinkRoom)
    (hfull : h'.sinkFull = h.sinkFull) (hcursor : h'.reuCursor = h.reuCursor)
    (htotal : h'.bodyTotal = h.bodyTotal) (hreu : h'.reu = h.reu) (hbuf : h'.respBuf = h.respBuf)
    (hhead : h'.parseState ≠ .body → t.body = []) : Sunk E t h' := by
  refine ⟨hflushed.trans hs.flushed, hlen ▸ hs.respLen, hroom.trans hs.room, hhead, hs.region, ?_,
    fun hover => hs.outgrown (hfull ▸ hover)⟩
  intro hno
  obtain ⟨hheld, hcount⟩ := hs.held (hfull ▸ hno)
  refine ⟨⟨hroom.trans hheld.room, hcursor ▸ hheld.cursor, ?_, ?_⟩, htotal.trans hcount⟩
  · rw [hcursor, hlen]
    exact hheld.total
  · rw [hreu, hcursor, hbuf, hlen]
    exact hheld.bytes

/-- The bounce buffer takes one byte more. -/
theorem held_bounce (hheld : Held E body h) (hlen : h.respLen < 512) (b : UInt8) :
    Held E (body ++ [b]) (bounce h b) := by
  have hinc : inc16 h.respLen = h.respLen + 1 := inc16_of_lt (by omega)
  have hstore := bytesAt_store_append h.respBuf 0 h.respLen [b]
  rw [Nat.zero_add, List.length_singleton] at hstore
  refine ⟨hheld.room, hheld.cursor, ?_, ?_⟩
  · show h.reuCursor + inc16 h.respLen = (body ++ [b]).length
    rw [hinc, List.length_append, List.length_singleton, ← hheld.total, Nat.add_assoc]
  · show bytesAt h.reu E.reuBodyBase h.reuCursor ++
      bytesAt (Function.update h.respBuf h.respLen b) 0 (inc16 h.respLen) = body ++ [b]
    rw [hinc, update_eq_store, hstore, ← List.append_assoc, hheld.bytes]

theorem bodyAppend_eq (huci : E.uci = true) (hsink : E.bodySink = true) (hlen : h.respLen < 512)
    (b : UInt8) :
    bodyAppend E h b =
      if h.respLen = 511 then { sinkBlit E (bounce h b) with respLen := 0 } else bounce h b := by
  have hinc : inc16 h.respLen = h.respLen + 1 := inc16_of_lt (by omega)
  unfold bodyAppend
  dsimp only
  rw [if_neg (by omega), hinc]
  by_cases hfull : h.respLen = 511
  · rw [if_pos ⟨huci, hsink, by omega⟩, if_pos hfull]
    unfold bounce
    rw [hinc]
  · rw [if_neg (fun hc => hfull (by omega)), if_neg hfull]
    unfold bounce
    rw [hinc]

theorem appendStash_eq (huci : E.uci = true) (hsink : E.bodySink = true) (hlen : h.respLen < 512)
    (b : UInt8) :
    appendStash E h b = if h.respLen = 511 then blitStash E (bounce h b) else [] := by
  have hinc : inc16 h.respLen = h.respLen + 1 := inc16_of_lt (by omega)
  unfold appendStash
  rw [if_neg (by omega), hinc]
  by_cases hfull : h.respLen = 511
  · rw [if_pos ⟨huci, hsink, by omega⟩, if_pos hfull]
  · rw [if_neg (fun hc => hfull (by omega)), if_neg hfull]

/-- One byte of payload. -/
theorem Sunk.append (hfits : E.Fits) (huci : E.uci = true) (hsink : E.bodySink = true)
    (hs : Sunk E t h) (hbody : h.parseState = .body) (b : UInt8) :
    Sunk E ⟨t.body ++ [b], t.stashes ++ appendStash E h b⟩ (bodyAppend E h b) := by
  have hlen := hs.respLen
  have hinc : inc16 h.respLen = h.respLen + 1 := inc16_of_lt (by omega)
  -- what the counters say as long as nothing has been refused
  have hnext : h.sinkFull = false →
      Held E (t.body ++ [b]) (bounce h b) ∧ (bounce h b).bodyTotal = (t.body ++ [b]).length := by
    intro hno
    obtain ⟨hheld, hcount⟩ := hs.held hno
    refine ⟨held_bounce hheld hlen b, ?_⟩
    have hle := hheld.cursor
    have htotal := hheld.total
    have hroom : sinkRoomInit E ≤ 16777216 - 3 * 65536 := by
      have htop := hfits.topBank
      rcases sinkRoomInit_cases hfits with hzero | ⟨hfloor, hend⟩
      · omega
      · unfold reuSize at hend
        omega
    show inc24 h.bodyTotal = _
    rw [hcount, inc24_of_lt (by omega), List.length_append, List.length_singleton]
  have hgrown : h.sinkFull = true → sinkRoomInit E < (t.body ++ [b]).length := by
    intro hover
    rw [List.length_append]
    exact Nat.lt_add_right _ (hs.outgrown hover)
  rw [bodyAppend_eq huci hsink hlen, appendStash_eq huci hsink hlen]
  by_cases hfull : h.respLen = 511
  · -- the bounce buffer is full: a transfer
    rw [if_pos hfull, if_pos hfull]
    obtain ⟨hstate, hflushed, hroom, htotal, hbuf⟩ := sinkBlit_frame E (bounce h b)
    have hinit : (bounce h b).sinkRoom = sinkRoomInit E := hs.room
    refine ⟨hflushed.trans hs.flushed, by show (0 : Nat) < 512; decide, hroom.trans hs.room, ?_, ?_,
      ?_, ?_⟩
    · intro hne
      exact absurd (hstate.trans hbody) hne
    · intro s hmem
      rcases List.mem_append.1 hmem with hold | hnew
      · exact hs.region s hold
      · exact blitStash_inRegion hfits hinit s hnew
    · intro hno
      have hnoBlit : (sinkBlit E (bounce h b)).sinkFull = false := hno
      have hnoBefore : (bounce h b).sinkFull = false := sinkFull_of_sinkBlit hnoBlit
      obtain ⟨hheld, hcount⟩ := hnext hnoBefore
      obtain ⟨hcursor, hle, hbytes⟩ := sinkBlit_holds hfits hheld hnoBlit
      refine ⟨⟨hroom.trans hs.room, hcursor.symm ▸ hle, hcursor, ?_⟩, htotal.trans hcount⟩
      show bytesAt (sinkBlit E (bounce h b)).reu E.reuBodyBase (sinkBlit E (bounce h b)).reuCursor ++
        bytesAt _ 0 0 = _
      rw [hcursor, bytesAt_zero, List.append_nil, hbytes]
    · intro hover
      have hblit : (sinkBlit E (bounce h b)).sinkFull = true := hover
      have hnextHeld : (bounce h b).sinkFull = false → Held E (t.body ++ [b]) (bounce h b) :=
        fun hno => (hnext hno).1
      exact sinkBlit_over hnextHeld hgrown hblit
  · rw [if_neg hfull, if_neg hfull, List.append_nil]
    refine ⟨hs.flushed, ?_, hs.room, fun hne => absurd hbody hne, hs.region, hnext, hgrown⟩
    show inc16 h.respLen < 512
    omega

/-! ## One byte -/

/-- The trace behind a byte. -/
def byteTrace (E : HttpEnv) (t : Trace) (h : Response) (b : UInt8) : Trace :=
  if takesPayload h then ⟨t.body ++ [b], t.stashes ++ appendStash E h b⟩ else t

theorem Sunk.status (hs : Sunk E t h) (hne : h.parseState ≠ .body) (b : UInt8) :
    Sunk E t (statusByte h b) := by
  have hbody := hs.head hne
  unfold statusByte
  split
  case isTrue => exact hs.congr rfl rfl rfl rfl rfl rfl rfl rfl (fun _ => hbody)
  case isFalse =>
    unfold lineByte
    split
    case isTrue => exact hs
    case isFalse => exact hs.congr rfl rfl rfl rfl rfl rfl rfl rfl (fun _ => hbody)

/-- At the start of a body nothing is held. -/
theorem sunk_bodyBegin (huci : E.uci = true) (hregion : ∀ s ∈ t.stashes, InRegion E s)
    (hnil : t.body = []) : Sunk E t (bodyBegin E h) := by
  unfold bodyBegin
  dsimp only
  rw [if_pos huci]
  refine ⟨rfl, by show (0 : Nat) < 512; decide, rfl, fun _ => hnil, hregion, ?_, nofun⟩
  intro _
  rw [hnil]
  exact ⟨⟨rfl, Nat.zero_le _, rfl, rfl⟩, rfl⟩

theorem Sunk.header (huci : E.uci = true) (hs : Sunk E t h) (hne : h.parseState ≠ .body)
    (b : UInt8) : Sunk E t (headerByte E h b) := by
  have hbody := hs.head hne
  unfold headerByte
  split
  case isTrue =>
    split
    case isTrue => exact sunk_bodyBegin huci hs.region hbody
    case isFalse =>
      unfold checkTransferEncoding checkContentLength
      split
      case isTrue =>
        split
        case isTrue => exact hs.congr rfl rfl rfl rfl rfl rfl rfl rfl (fun _ => hbody)
        case isFalse => exact hs.congr rfl rfl rfl rfl rfl rfl rfl rfl (fun _ => hbody)
      case isFalse =>
        split
        case isTrue => exact hs.congr rfl rfl rfl rfl rfl rfl rfl rfl (fun _ => hbody)
        case isFalse => exact hs.congr rfl rfl rfl rfl rfl rfl rfl rfl (fun _ => hbody)
  case isFalse =>
    split
    case isTrue => exact hs
    case isFalse =>
      unfold lineByte
      split
      case isTrue => exact hs
      case isFalse => exact hs.congr rfl rfl rfl rfl rfl rfl rfl rfl (fun _ => hbody)

/-- The framing of the chunks is not payload. -/
theorem Sunk.withChunk (hs : Sunk E t h) (hbody : h.parseState = .body) (s : ChunkState)
    (rem idx : Nat) : Sunk E t { h with chunkState := s, chunkRem := rem, lineIdx := idx } :=
  hs.congr rfl rfl rfl rfl rfl rfl rfl rfl (fun hne => absurd hbody hne)

theorem Sunk.sizeEol (hs : Sunk E t h) (hbody : h.parseState = .body) : Sunk E t (sizeEol h) := by
  unfold Http.sizeEol
  split
  case isTrue => exact hs.withChunk hbody .final h.chunkRem 0
  case isFalse => exact hs.withChunk hbody .data h.chunkRem h.lineIdx

theorem Sunk.sizeByte (hs : Sunk E t h) (hbody : h.parseState = .body) (b : UInt8) :
    Sunk E t (sizeByte h b) := by
  unfold Http.sizeByte
  split
  case isTrue => exact hs.sizeEol hbody
  case isFalse =>
    split
    case h_1 => exact hs.withChunk hbody .skip h.chunkRem h.lineIdx
    case h_2 d _ =>
      split
      case isTrue => exact hs.withChunk hbody .skip 16777215 h.lineIdx
      case isFalse => exact hs.withChunk hbody h.chunkState (h.chunkRem * 16 + d) h.lineIdx

theorem Sunk.finalByte (hs : Sunk E t h) (hbody : h.parseState = .body) (b : UInt8) :
    (finalByte h b).Post (Sunk E t) (Sunk E t) := by
  unfold Http.finalByte
  split
  case isTrue =>
    split
    case isTrue => exact hs
    case isFalse => exact hs.withChunk hbody h.chunkState h.chunkRem 0
  case isFalse =>
    split
    case isTrue => exact hs
    case isFalse => exact hs.withChunk hbody h.chunkState h.chunkRem (inc8 h.lineIdx)

/-- What one byte does, in any state of the parser. -/
theorem Sunk.byte (hfits : E.Fits) (huci : E.uci = true) (hsink : E.bodySink = true)
    (hs : Sunk E t h) (b : UInt8) :
    (parseByte E h b).Post (Sunk E (byteTrace E t h b)) (Sunk E (byteTrace E t h b)) := by
  unfold byteTrace takesPayload parseByte
  cases hstate : h.parseState with
  | status => exact hs.status (by rw [hstate]; decide) b
  | headers => exact hs.header huci (by rw [hstate]; decide) b
  | body =>
      have happend := hs.append hfits huci hsink hstate b
      have hbody : (bodyAppend E h b).parseState = .body :=
        (bodyAppend_frame E h b).1.trans hstate
      cases hchunked : h.chunked with
      | false => exact happend
      | true =>
          unfold chunkedByte
          cases hchunk : h.chunkState with
          | size => exact hs.sizeByte hstate b
          | skip =>
              -- the rest of the size line is dropped
              show Sunk E t (if b = lf then Http.sizeEol h else h)
              split
              case isTrue => exact hs.sizeEol hstate
              case isFalse => exact hs
          | data =>
              -- the payload byte goes to the sink, and the chunk counts down
              show Sunk E ⟨t.body ++ [b], t.stashes ++ appendStash E h b⟩ (dataByte E h b)
              have hrem := happend.withChunk hbody (bodyAppend E h b).chunkState
                (dec24 (bodyAppend E h b).chunkRem) (bodyAppend E h b).lineIdx
              unfold dataByte
              dsimp only
              split
              case isTrue => exact hrem.withChunk hbody .crlf _ _
              case isFalse => exact hrem
          | crlf =>
              show Sunk E t (if b = lf then { h with chunkState := .size } else h)
              split
              case isTrue => exact hs.withChunk hstate .size h.chunkRem h.lineIdx
              case isFalse => exact hs
          | final => exact hs.finalByte hstate b

/-! ## The end -/

/-- What holds of the region and the buffer behind `http_body_finish`. -/
structure Finished (E : HttpEnv) (t : Trace) (h : Response) : Prop where
  flushed : h.sinkFlushed = true
  region : ∀ s ∈ t.stashes, InRegion E s
  held : h.sinkFull = false →
    bytesAt h.reu E.reuBodyBase t.body.length = t.body ∧
    h.respLen = min 512 t.body.length ∧
    bytesAt h.respBuf 0 h.respLen = t.body.take 512
  full_iff : h.sinkFull = true ↔ sinkRoomInit E < t.body.length

theorem Sunk.finish (hfits : E.Fits) (huci : E.uci = true) (hsink : E.bodySink = true)
    (hs : Sunk E t h) :
    Finished E { t with stashes := t.stashes ++ finishStash E h } (bodyFinish E h) := by
  have hflushed := hs.flushed
  have hroom : ({ h with sinkFlushed := true } : Response).sinkRoom = sinkRoomInit E := hs.room
  unfold bodyFinish finishStash
  rw [if_neg (by rw [huci]; decide), if_neg (by rw [hsink]; decide),
    if_neg (by rw [hflushed]; decide), if_neg (by rw [huci]; decide),
    if_neg (by rw [hsink]; decide), if_neg (by rw [hflushed]; decide)]
  obtain ⟨-, hflag, -, htotal, -⟩ := sinkBlit_frame E { h with sinkFlushed := true }
  have hbefore : ({ h with sinkFlushed := true } : Response).sinkFull = false →
      Held E t.body { h with sinkFlushed := true } := by
    intro hno
    have hheld := (hs.held hno).1
    exact ⟨hheld.room, hheld.cursor, hheld.total, hheld.bytes⟩
  refine ⟨hflag, ?_, ?_, ?_⟩
  · intro s hmem
    rcases List.mem_append.1 hmem with hold | hnew
    · exact hs.region s hold
    · exact blitStash_inRegion hfits hroom s hnew
  rotate_left
  · show (sinkBlit E { h with sinkFlushed := true }).sinkFull = true ↔ sinkRoomInit E < t.body.length
    constructor
    · exact sinkBlit_over hbefore hs.outgrown
    · intro hlt
      by_contra hno
      rw [Bool.not_eq_true] at hno
      obtain ⟨-, hle, -⟩ := sinkBlit_holds hfits (hbefore (sinkFull_of_sinkBlit hno)) hno
      exact absurd hlt (Nat.not_lt_of_le hle)
  · intro hno
    have hnoBlit : (sinkBlit E { h with sinkFlushed := true }).sinkFull = false := hno
    have hnoBefore : ({ h with sinkFlushed := true } : Response).sinkFull = false :=
      sinkFull_of_sinkBlit hnoBlit
    obtain ⟨-, hcount⟩ := hs.held hnoBefore
    obtain ⟨-, -, hbytes⟩ := sinkBlit_holds hfits (hbefore hnoBefore) hnoBlit
    have htotal' : (sinkBlit E { h with sinkFlushed := true }).bodyTotal = t.body.length :=
      htotal.trans hcount
    have hlen : (if (sinkBlit E { h with sinkFlushed := true }).bodyTotal < 512 then
        (sinkBlit E { h with sinkFlushed := true }).bodyTotal else 512) =
        min 512 t.body.length := by
      rw [htotal']
      rcases Nat.lt_or_ge t.body.length 512 with hshort | hlong
      · rw [if_pos hshort, Nat.min_eq_right (Nat.le_of_lt hshort)]
      · rw [if_neg (Nat.not_lt_of_le hlong), Nat.min_eq_left hlong]
    -- the first bytes of the payload, as the REU gives them back
    have hfront : bytesAt (sinkBlit E { h with sinkFlushed := true }).reu E.reuBodyBase
        (min 512 t.body.length) = t.body.take 512 := by
      rw [← take_bytesAt _ _ (Nat.min_le_right 512 t.body.length), hbytes, List.take_eq_take_iff]
      omega
    refine ⟨hbytes, hlen, ?_⟩
    dsimp only
    rw [hlen, hfront]
    have hself := bytesAt_store_self (sinkBlit E { h with sinkFlushed := true }).respBuf 0
      (t.body.take 512)
    rw [List.length_take] at hself
    exact hself

/-- `http_body_finish` has nothing left to do. -/
theorem Finished.again (hf : Finished E t h) : bodyFinish E h = h := by
  unfold bodyFinish
  rw [hf.flushed]
  cases E.uci <;> cases E.bodySink <;> rfl

/-! ## Runs -/

theorem sunk_respInit (huci : E.uci = true) (h : Response) : Sunk E .empty (respInit E h) :=
  sunk_bodyBegin huci (by nofun) rfl

/-- A call that completes the response has finished the sink; one that does not leaves it open. -/
theorem recvTrace_spec (hfits : E.Fits) (huci : E.uci = true) (hsink : E.bodySink = true)
    (bs : List UInt8) :
    ∀ (t : Trace) (h : Response), Sunk E t h →
      (((recvFrom E h bs).2.2 = true → Finished E (recvTrace E t h bs) (recvFrom E h bs).1) ∧
        ((recvFrom E h bs).2.2 = false → Sunk E (recvTrace E t h bs) (recvFrom E h bs).1)) := by
  induction bs with
  | nil =>
      intro t h hs
      unfold recvTrace
      cases hc : complete h with
      | true =>
          -- complete before the next byte: the body is finished and the bytes stay
          rw [recvFrom_of_complete E hc]
          exact ⟨fun _ => hs.finish hfits huci hsink, nofun⟩
      | false =>
          rw [recvFrom_nil E hc]
          exact ⟨nofun, fun _ => hs⟩
  | cons b bs ih =>
      intro t h hs
      unfold recvTrace
      cases hc : complete h with
      | true =>
          rw [recvFrom_of_complete E hc]
          exact ⟨fun _ => hs.finish hfits huci hsink, nofun⟩
      | false =>
          have hstep := hs.byte hfits huci hsink b
          unfold byteTrace at hstep
          rw [if_neg (by decide)]
          dsimp only
          cases hb : parseByte E h b with
          | again h' =>
              rw [hb] at hstep
              rw [recvFrom_again E hc hb]
              exact ih _ h' hstep
          | leave h' =>
              rw [hb] at hstep
              rw [recvFrom_leave E hc hb]
              exact ⟨fun _ => hstep.finish hfits huci hsink, nofun⟩

theorem runTrace_spec (hfits : E.Fits) (huci : E.uci = true) (hsink : E.bodySink = true)
    (ds : List Delivery) :
    ∀ (t : Trace) (h : Response) (i : Input), Sunk E t h →
      (((runDeliveries E h i ds).2.2 = true →
          Finished E (runTrace E t h i ds) (runDeliveries E h i ds).1) ∧
        ((runDeliveries E h i ds).2.2 = false →
          Sunk E (runTrace E t h i ds) (runDeliveries E h i ds).1)) := by
  induction ds with
  | nil =>
      intro t h i hs
      exact ⟨fun hdone => absurd hdone Bool.false_ne_true, fun _ => hs⟩
  | cons d ds ih =>
      intro t h i hs
      obtain ⟨hdone, hopen⟩ := recvTrace_spec hfits huci hsink (i.deliver d).pending t h hs
      unfold runDeliveries runTrace httpRecvResponse
      dsimp only
      cases hcall : (recvFrom E h (i.deliver d).pending).2.2 with
      | true =>
          rw [if_pos rfl, if_pos rfl]
          exact ⟨fun _ => hdone hcall, fun hopen => absurd hopen.symm Bool.false_ne_true⟩
      | false =>
          rw [if_neg (by decide), if_neg (by decide)]
          exact ih _ _ _ (hopen hcall)

/-! ## What a run writes -/

/-- The trace tells what has been written and counted: the REU is what the transfers have made of `m`. -/
structure Traced (m : Buffer) (t : Trace) (h : Response) : Prop where
  reu : h.reu = replay m t.stashes
  total : h.bodyTotal = t.body.length % 16777216
  head : h.parseState ≠ .body → t.body = []

section Traced

variable {m : Buffer}

theorem Traced.congr {h' : Response} (ht : Traced m t h) (hreu : h'.reu = h.reu)
    (htotal : h'.bodyTotal = h.bodyTotal) (hhead : h'.parseState ≠ .body → t.body = []) :
    Traced m t h' :=
  ⟨hreu.trans ht.reu, htotal.trans ht.total, hhead⟩

theorem bodyAppend_reu (E : HttpEnv) (h : Response) (b : UInt8) :
    (bodyAppend E h b).reu = replay h.reu (appendStash E h b) ∧
      (bodyAppend E h b).bodyTotal = inc24 h.bodyTotal := by
  unfold bodyAppend appendStash
  dsimp only
  split
  case isTrue => exact ⟨rfl, rfl⟩
  case isFalse =>
    split
    case isFalse => exact ⟨rfl, rfl⟩
    case isTrue =>
      obtain ⟨-, -, -, htotal, -⟩ := sinkBlit_frame E (bounce h b)
      exact ⟨sinkBlit_reu E (bounce h b), htotal⟩

theorem Traced.append (ht : Traced m t h) (hbody : h.parseState = .body) (b : UInt8) :
    Traced m ⟨t.body ++ [b], t.stashes ++ appendStash E h b⟩ (bodyAppend E h b) := by
  obtain ⟨hreu, htotal⟩ := bodyAppend_reu E h b
  refine ⟨?_, ?_, fun hne => absurd ((bodyAppend_frame E h b).1.trans hbody) hne⟩
  · rw [hreu, ht.reu, replay_append]
  · rw [htotal, ht.total, List.length_append, List.length_singleton]
    unfold inc24
    omega

theorem Traced.header (ht : Traced m t h) (hne : h.parseState ≠ .body) (b : UInt8) :
    Traced m t (headerByte E h b) := by
  have hnil := ht.head hne
  have hkeep : ∀ x : Response, x.reu = h.reu → x.bodyTotal = h.bodyTotal → Traced m t x :=
    fun x hreu htotal => ht.congr hreu htotal fun _ => hnil
  unfold headerByte
  split
  case isTrue =>
    split
    case isTrue =>
      unfold bodyBegin
      dsimp only
      split
      case isTrue => exact ⟨ht.reu, by rw [hnil]; rfl, fun _ => hnil⟩
      case isFalse => exact ⟨ht.reu, by rw [hnil]; rfl, fun _ => hnil⟩
    case isFalse =>
      unfold checkTransferEncoding checkContentLength
      split
      case isTrue => split <;> exact hkeep _ rfl rfl
      case isFalse => split <;> exact hkeep _ rfl rfl
  case isFalse =>
    split
    case isTrue => exact ht
    case isFalse =>
      unfold lineByte
      split
      case isTrue => exact ht
      case isFalse => exact hkeep _ rfl rfl

/-- One byte. -/
theorem Traced.byte (ht : Traced m t h) (b : UInt8) :
    (parseByte E h b).Post (Traced m (byteTrace E t h b)) (Traced m (byteTrace E t h b)) := by
  unfold byteTrace takesPayload parseByte
  cases hstate : h.parseState with
  | status =>
      have hnil := ht.head (by rw [hstate]; decide)
      show Traced m t (statusByte h b)
      unfold statusByte lineByte
      split
      case isTrue => exact ht.congr rfl rfl fun _ => hnil
      case isFalse =>
        split
        case isTrue => exact ht
        case isFalse => exact ht.congr rfl rfl fun _ => hnil
  | headers => exact ht.header (by rw [hstate]; decide) b
  | body =>
      have happend := ht.append (E := E) hstate b
      have hbody : (bodyAppend E h b).parseState = .body := (bodyAppend_frame E h b).1.trans hstate
      have hkeep : ∀ (s : ChunkState) (rem idx : Nat),
          Traced m t { h with chunkState := s, chunkRem := rem, lineIdx := idx } :=
        fun _ _ _ => ht.congr rfl rfl fun hne => absurd hstate hne
      cases hchunked : h.chunked with
      | false => exact happend
      | true =>
          unfold chunkedByte
          cases hchunk : h.chunkState with
          | size =>
              show Traced m t (Http.sizeByte h b)
              unfold Http.sizeByte Http.sizeEol
              split
              case isTrue => split <;> exact hkeep _ _ _
              case isFalse =>
                split
                case h_1 => exact hkeep _ _ _
                case h_2 => split <;> exact hkeep _ _ _
          | skip =>
              show Traced m t (if b = lf then Http.sizeEol h else h)
              unfold Http.sizeEol
              split
              case isTrue => split <;> exact hkeep _ _ _
              case isFalse => exact ht
          | data =>
              show Traced m ⟨t.body ++ [b], t.stashes ++ appendStash E h b⟩ (dataByte E h b)
              unfold dataByte
              dsimp only
              split
              case isTrue => exact happend.congr rfl rfl fun hne => absurd hbody hne
              case isFalse => exact happend.congr rfl rfl fun hne => absurd hbody hne
          | crlf =>
              show Traced m t (if b = lf then { h with chunkState := .size } else h)
              split
              case isTrue => exact hkeep _ _ _
              case isFalse => exact ht
          | final =>
              show (Http.finalByte h b).Post (Traced m t) (Traced m t)
              unfold Http.finalByte
              split
              case isTrue =>
                split
                case isTrue => exact ht
                case isFalse => exact hkeep _ _ _
              case isFalse =>
                split
                case isTrue => exact ht
                case isFalse => exact hkeep _ _ _

theorem Traced.finish (ht : Traced m t h) :
    Traced m { t with stashes := t.stashes ++ finishStash E h } (bodyFinish E h) := by
  have hnothing : Traced m { t with stashes := t.stashes ++ [] } h := by
    rw [List.append_nil]
    exact ht
  unfold bodyFinish finishStash
  split
  case isTrue => exact hnothing
  case isFalse =>
    split
    case isTrue => exact hnothing
    case isFalse =>
      split
      case isTrue => exact hnothing
      case isFalse =>
        obtain ⟨hstate, -, -, htotal, -⟩ := sinkBlit_frame E { h with sinkFlushed := true }
        refine ⟨?_, htotal.trans ht.total, fun hne => ht.head (hstate ▸ hne)⟩
        show (sinkBlit E { h with sinkFlushed := true }).reu = _
        rw [sinkBlit_reu, replay_append, ← ht.reu]

theorem recvTrace_traced (bs : List UInt8) :
    ∀ (t : Trace) (h : Response), Traced m t h → Traced m (recvTrace E t h bs) (recvFrom E h bs).1 := by
  induction bs with
  | nil =>
      intro t h ht
      unfold recvTrace
      cases hc : complete h with
      | true =>
          rw [recvFrom_of_complete E hc]
          exact ht.finish
      | false =>
          rw [recvFrom_nil E hc]
          exact ht
  | cons b bs ih =>
      intro t h ht
      unfold recvTrace
      cases hc : complete h with
      | true =>
          rw [recvFrom_of_complete E hc]
          exact ht.finish
      | false =>
          have hstep := ht.byte (E := E) b
          unfold byteTrace at hstep
          rw [if_neg (by decide)]
          dsimp only
          cases hb : parseByte E h b with
          | again h' =>
              rw [hb] at hstep
              rw [recvFrom_again E hc hb]
              exact ih _ h' hstep
          | leave h' =>
              rw [hb] at hstep
              rw [recvFrom_leave E hc hb]
              exact hstep.finish

theorem runTrace_traced (ds : List Delivery) :
    ∀ (t : Trace) (h : Response) (i : Input), Traced m t h →
      Traced m (runTrace E t h i ds) (runDeliveries E h i ds).1 := by
  induction ds with
  | nil => exact fun _ _ _ ht => ht
  | cons d ds ih =>
      intro t h i ht
      have hcall := recvTrace_traced (E := E) (i.deliver d).pending t h ht
      unfold runDeliveries runTrace httpRecvResponse
      dsimp only
      split
      case isTrue => exact hcall
      case isFalse => exact ih _ _ _ hcall

end Traced

/-- The run of a response that ends with `http_body_finish`, by itself or by the caller. -/
def finishedRun (E : HttpEnv) (h : Response) (ds : List Delivery) : Response :=
  bodyFinish E (runDeliveries E (respInit E h) .empty ds).1

def finishedTrace (E : HttpEnv) (h : Response) (ds : List Delivery) : Trace :=
  let t := runTrace E .empty (respInit E h) .empty ds
  { t with stashes := t.stashes ++ finishStash E (runDeliveries E (respInit E h) .empty ds).1 }

/-- The trace of a finished run tells what it has written and counted. -/
theorem finishedTrace_traced (E : HttpEnv) (h : Response) (ds : List Delivery) :
    Traced h.reu (finishedTrace E h ds) (finishedRun E h ds) := by
  have hinit : Traced h.reu .empty (respInit E h) := by
    unfold respInit bodyBegin
    dsimp only
    split
    case isTrue => exact ⟨rfl, rfl, fun _ => rfl⟩
    case isFalse => exact ⟨rfl, rfl, fun _ => rfl⟩
  exact (runTrace_traced ds .empty (respInit E h) .empty hinit).finish

theorem finished_run (hfits : E.Fits) (huci : E.uci = true) (hsink : E.bodySink = true)
    (h : Response) (ds : List Delivery) : Finished E (finishedTrace E h ds) (finishedRun E h ds) := by
  obtain ⟨hdone, hopen⟩ := runTrace_spec hfits huci hsink ds .empty (respInit E h) .empty
    (sunk_respInit huci h)
  unfold finishedTrace finishedRun
  cases hcall : (runDeliveries E (respInit E h) .empty ds).2.2 with
  | true =>
      -- the parser has finished it already
      have hf := hdone hcall
      have hnothing : finishStash E (runDeliveries E (respInit E h) .empty ds).1 = [] := by
        unfold finishStash
        rw [hf.flushed]
        cases E.uci <;> cases E.bodySink <;> rfl
      dsimp only
      rw [hf.again, hnothing, List.append_nil]
      exact hf
  | false => exact (hopen hcall).finish hfits huci hsink

/-- A body in the REU: every transfer stays in the body's region, and a sink that is not full at the
end holds the body, whose beginning is in the buffer.  The transfers are all that is written, so
outside the region the REU stays as it is. -/
theorem sink_safe (E : HttpEnv) (hfits : E.Fits) (huci : E.uci = true) (hsink : E.bodySink = true)
    (h : Response) (ds : List Delivery) :
    (∀ s ∈ (finishedTrace E h ds).stashes, InRegion E s) ∧
    ((finishedRun E h ds).sinkFull = false →
      bytesAt (finishedRun E h ds).reu E.reuBodyBase (finishedTrace E h ds).body.length =
          (finishedTrace E h ds).body ∧
        (finishedRun E h ds).respLen = min 512 (finishedTrace E h ds).body.length ∧
        bytesAt (finishedRun E h ds).respBuf 0 (finishedRun E h ds).respLen =
          (finishedTrace E h ds).body.take 512) ∧
    bodyFinish E (finishedRun E h ds) = finishedRun E h ds ∧
    (finishedRun E h ds).reu = replay h.reu (finishedTrace E h ds).stashes ∧
    ∀ a, a < E.reuBodyBase ∨ E.reuBodyBase + sinkRoomInit E ≤ a →
      (finishedRun E h ds).reu a = h.reu a := by
  have hfinished := finished_run hfits huci hsink h ds
  have hreu := (finishedTrace_traced E h ds).reu
  refine ⟨hfinished.region, hfinished.held, hfinished.again, hreu, fun a ha => ?_⟩
  rw [hreu]
  exact replay_outside ha _ _ hfinished.region

/-- A base in bank 4 of a 1 MB expansion. -/
def smallReu : HttpEnv :=
  ⟨true, true, true, 15, 262144⟩

def twoByteBody : List Delivery :=
  [.span (ascii "HTTP/1.1 200 OK\r\nContent-Length: 2\r\n\r\nh"), .span (ascii "i")]

theorem sink_safe_twoBytes :
    (finishedTrace smallReu .zero twoByteBody).body = ascii "hi" ∧
    bytesAt (finishedRun smallReu .zero twoByteBody).reu smallReu.reuBodyBase
        (finishedTrace smallReu .zero twoByteBody).body.length =
      (finishedTrace smallReu .zero twoByteBody).body :=
  ⟨by decide +kernel,
    ((sink_safe smallReu ⟨by decide, by decide⟩ rfl rfl .zero twoByteBody).2.1
      (by decide +kernel)).1⟩

end Http
end C64Https
