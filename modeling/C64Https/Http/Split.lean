import C64Https.Http.Parser

/-!
# Split — the parser does not see where its input was cut

The parser takes one byte after the other, tests for completion before each, and keeps what it knows
in its state; so two runs over the same bytes agree, however the bytes were delivered
(`runDeliveries_agree`).
-/

namespace C64Https
namespace Http

open Word Loop Bytes

/-! ## Deliveries -/

/-- What arrives between two calls: a record's plaintext, or bytes at the end of the ring. -/
inductive Delivery where
  | span (bs : List UInt8)
  | ring (bs : List UInt8)
  deriving DecidableEq, Repr

def Delivery.bytes : Delivery → List UInt8
  | .span bs => bs
  | .ring bs => bs

def Input.deliver (i : Input) : Delivery → Input
  | .span bs => { i with mode := .span, span := bs }
  | .ring bs => { i with mode := .ring, ring := i.ring ++ bs }

/-- Nothing has arrived. -/
def Input.empty : Input where
  mode := .ring
  ring := []
  span := []

/-- A call after each delivery, up to the one that returns with carry clear: the response, the
number of bytes taken, and whether the response is complete. -/
def runDeliveries (E : HttpEnv) : Response → Input → List Delivery → Response × Nat × Bool
  | h, _, [] => (h, 0, false)
  | h, i, d :: ds =>
      let i := i.deliver d
      let r := httpRecvResponse E h i
      let taken := i.pending.length - r.2.1.pending.length
      if r.2.2 then (r.1, taken, true)
      else
        let rest := runDeliveries E r.1 r.2.1 ds
        (rest.1, taken + rest.2.1, rest.2.2)

/-! ## One call -/

section Calls

variable (E : HttpEnv)

theorem recvFrom_of_complete {h : Response} (hc : complete h = true) (bs : List UInt8) :
    recvFrom E h bs = (bodyFinish E h, bs, true) := by
  unfold recvFrom
  rw [if_pos hc]

theorem recvFrom_nil {h : Response} (hc : complete h = false) :
    recvFrom E h [] = (h, [], false) := by
  unfold recvFrom
  rw [if_neg (by simp [hc])]

theorem recvFrom_again {h h' : Response} {b : UInt8} (hc : complete h = false)
    (hb : parseByte E h b = .again h') (bs : List UInt8) :
    recvFrom E h (b :: bs) = recvFrom E h' bs := by
  rw [recvFrom, if_neg (by simp [hc]), hb]

theorem recvFrom_leave {h h' : Response} {b : UInt8} (hc : complete h = false)
    (hb : parseByte E h b = .leave h') (bs : List UInt8) :
    recvFrom E h (b :: bs) = (bodyFinish E h', bs, true) := by
  rw [recvFrom, if_neg (by simp [hc]), hb]

/-- Bytes in two pieces: a call that is not complete has taken its piece, and the next goes on. -/
theorem recvFrom_append (ys : List UInt8) :
    ∀ (xs : List UInt8) (h : Response),
      (∃ h' rest, recvFrom E h xs = (h', rest, true) ∧
        recvFrom E h (xs ++ ys) = (h', rest ++ ys, true)) ∨
      (∃ h', recvFrom E h xs = (h', [], false) ∧ complete h' = false ∧
        recvFrom E h (xs ++ ys) = recvFrom E h' ys) := by
  intro xs
  induction xs with
  | nil =>
      intro h
      cases hc : complete h with
      | true =>
          exact Or.inl ⟨_, _, recvFrom_of_complete E hc [], recvFrom_of_complete E hc ys⟩
      | false => exact Or.inr ⟨h, recvFrom_nil E hc, hc, rfl⟩
  | cons b xs ih =>
      intro h
      cases hc : complete h with
      | true =>
          exact Or.inl ⟨_, _, recvFrom_of_complete E hc _, recvFrom_of_complete E hc _⟩
      | false =>
          cases hb : parseByte E h b with
          | leave h' =>
              exact Or.inl ⟨_, _, recvFrom_leave E hc hb xs, recvFrom_leave E hc hb (xs ++ ys)⟩
          | again h' =>
              rw [List.cons_append, recvFrom_again E hc hb, recvFrom_again E hc hb]
              exact ih h'

/-- What is left is the end of what was there. -/
theorem recvFrom_rest (xs : List UInt8) :
    ∀ h : Response, (recvFrom E h xs).2.1.length ≤ xs.length := by
  induction xs with
  | nil =>
      intro h
      cases hc : complete h with
      | true =>
          rw [recvFrom_of_complete E hc]
      | false =>
          rw [recvFrom_nil E hc]
  | cons b xs ih =>
      intro h
      cases hc : complete h with
      | true =>
          rw [recvFrom_of_complete E hc]
      | false =>
          cases hb : parseByte E h b with
          | leave h' =>
              rw [recvFrom_leave E hc hb]
              exact Nat.le_succ _
          | again h' =>
              rw [recvFrom_again E hc hb]
              exact Nat.le_succ_of_le (ih h')

/-- What is left of a call that becomes complete is less than it was given. -/
theorem recvFrom_rest_lt {h h' : Response} {bs rest : List UInt8} (hc : complete h = false)
    (hrun : recvFrom E h bs = (h', rest, true)) : rest.length < bs.length := by
  cases bs with
  | nil =>
      rw [recvFrom_nil E hc] at hrun
      cases hrun
  | cons b bs =>
      -- the first byte is taken, and what follows it takes no bytes back
      cases hb : parseByte E h b with
      | leave h₁ =>
          rw [recvFrom_leave E hc hb] at hrun
          cases hrun
          exact Nat.lt_succ_self _
      | again h₁ =>
          rw [recvFrom_again E hc hb] at hrun
          have hle := recvFrom_rest E bs h₁
          rw [hrun] at hle
          exact Nat.lt_succ_of_le hle

/-- A run that leaves `rest` is complete on the first piece when the second is within `rest`. -/
theorem recvFrom_prefix_iff {h h' : Response} {xs ys rest : List UInt8}
    (hrun : recvFrom E h (xs ++ ys) = (h', rest, true)) :
    (recvFrom E h xs).2.2 = true ↔ ys.length ≤ rest.length := by
  rcases recvFrom_append E ys xs h with ⟨h₁, rest₁, hfirst, hall⟩ | ⟨h₁, hfirst, hc, hall⟩
  · rw [hall] at hrun
    cases hrun
    rw [hfirst, List.length_append]
    exact ⟨fun _ => Nat.le_add_left _ _, fun _ => rfl⟩
  · rw [hall] at hrun
    have hlt := recvFrom_rest_lt E hc hrun
    rw [hfirst]
    exact ⟨(nofun), fun hle => absurd hle (Nat.not_le_of_lt hlt)⟩

/-- The parser takes `bs` and goes on in `h'`. -/
def Passes (h : Response) (bs : List UInt8) (h' : Response) : Prop :=
  ∀ rest : List UInt8, recvFrom E h (bs ++ rest) = recvFrom E h' rest

theorem Passes.nil (h : Response) : Passes E h [] h := by
  intro rest
  rfl

theorem Passes.byte {h h' : Response} {b : UInt8} (hc : complete h = false)
    (hb : parseByte E h b = .again h') : Passes E h [b] h' := by
  intro rest
  exact recvFrom_again E hc hb rest

variable {E} in
theorem Passes.append {h₁ h₂ h₃ : Response} {as bs : List UInt8} (h₁₂ : Passes E h₁ as h₂)
    (h₂₃ : Passes E h₂ bs h₃) : Passes E h₁ (as ++ bs) h₃ := by
  intro rest
  rw [List.append_assoc, h₁₂, h₂₃]

/-! ## What a byte of the body leaves alone -/

theorem sinkBlit_framing (h : Response) :
    (sinkBlit E h).parseState = h.parseState ∧ (sinkBlit E h).status = h.status ∧
    (sinkBlit E h).clValid = h.clValid ∧ (sinkBlit E h).contentLength = h.contentLength ∧
    (sinkBlit E h).chunked = h.chunked ∧ (sinkBlit E h).chunkState = h.chunkState ∧
    (sinkBlit E h).chunkRem = h.chunkRem ∧ (sinkBlit E h).lineIdx = h.lineIdx ∧
    (sinkBlit E h).bodyTotal = h.bodyTotal := by
  unfold sinkBlit
  split
  case isTrue => exact ⟨rfl, rfl, rfl, rfl, rfl, rfl, rfl, rfl, rfl⟩
  case isFalse =>
    split
    case isTrue => exact ⟨rfl, rfl, rfl, rfl, rfl, rfl, rfl, rfl, rfl⟩
    case isFalse => exact ⟨rfl, rfl, rfl, rfl, rfl, rfl, rfl, rfl, rfl⟩

/-- `body_append` counts the byte and leaves the framing alone. -/
theorem bodyAppend_frame (h : Response) (b : UInt8) :
    (bodyAppend E h b).parseState = h.parseState ∧ (bodyAppend E h b).status = h.status ∧
    (bodyAppend E h b).clValid = h.clValid ∧
    (bodyAppend E h b).contentLength = h.contentLength ∧
    (bodyAppend E h b).chunked = h.chunked ∧
    (bodyAppend E h b).chunkState = h.chunkState ∧
    (bodyAppend E h b).chunkRem = h.chunkRem ∧ (bodyAppend E h b).lineIdx = h.lineIdx ∧
    (bodyAppend E h b).bodyTotal = inc24 h.bodyTotal := by
  unfold bodyAppend
  dsimp only
  split
  case isTrue => exact ⟨rfl, rfl, rfl, rfl, rfl, rfl, rfl, rfl, rfl⟩
  case isFalse =>
    split
    case isTrue => exact sinkBlit_framing E _
    case isFalse => exact ⟨rfl, rfl, rfl, rfl, rfl, rfl, rfl, rfl, rfl⟩

/-! ## The invariant rule -/

/-- What the parser's own state does not matter to, and what the three routines of the body keep,
every byte keeps. -/
theorem parseByte_rule {P : Response → Prop}
    (hown : ∀ (x : Response) (status : Nat) (state : ParseState) (idx : Nat) (line : Buffer)
      (valid : Bool) (len : Nat) (chunked : Bool) (chunk : ChunkState) (rem : Nat), P x →
      P { x with
        status := status
        parseState := state
        lineIdx := idx
        lineBuf := line
        clValid := valid
        contentLength := len
        chunked := chunked
        chunkState := chunk
        chunkRem := rem })
    (happend : ∀ (x : Response) (b : UInt8), P x → P (bodyAppend E x b))
    (hbegin : ∀ x : Response, P x → P (bodyBegin E x)) {h : Response} (b : UInt8) (hP : P h) :
    (parseByte E h b).Post P P := by
  have hline : ∀ x : Response, P x → P (lineByte x b) := by
    intro x hx
    unfold lineByte
    split
    case isTrue => exact hx
    case isFalse => exact hown x _ _ _ _ _ _ _ _ _ hx
  have heol : P (sizeEol h) := by
    unfold sizeEol
    split
    case isTrue => exact hown h _ _ _ _ _ _ _ _ _ hP
    case isFalse => exact hown h _ _ _ _ _ _ _ _ _ hP
  unfold parseByte
  split
  case h_1 =>
    show P (statusByte h b)
    unfold statusByte
    split
    case isTrue => exact hown h _ _ _ _ _ _ _ _ _ hP
    case isFalse => exact hline h hP
  case h_2 =>
    -- a header line: its end may set the framing, and an empty one begins the body
    show P (headerByte E h b)
    unfold headerByte
    split
    case isTrue =>
      split
      case isTrue => exact hbegin _ (hown h _ _ _ _ _ _ _ _ _ hP)
      case isFalse =>
        have hcl : P (checkContentLength h) := by
          unfold checkContentLength
          split
          case isTrue => exact hown h _ _ _ _ _ _ _ _ _ hP
          case isFalse => exact hP
        have hte : P (checkTransferEncoding (checkContentLength h)) := by
          unfold checkTransferEncoding
          split
          case isTrue => exact hown _ _ _ _ _ _ _ _ _ _ hcl
          case isFalse => exact hcl
        exact hown _ _ _ _ _ _ _ _ _ _ hte
    case isFalse =>
      split
      case isTrue => exact hP
      case isFalse => exact hline h hP
  case h_3 =>
    split
    case isFalse => exact happend h b hP
    case isTrue =>
      unfold chunkedByte
      split
      case h_1 =>
        show P (sizeByte h b)
        unfold sizeByte
        split
        case isTrue => exact heol
        case isFalse =>
          split
          case h_1 => exact hown h _ _ _ _ _ _ _ _ _ hP
          case h_2 =>
            split
            case isTrue => exact hown h _ _ _ _ _ _ _ _ _ hP
            case isFalse => exact hown h _ _ _ _ _ _ _ _ _ hP
      case h_2 =>
        show P (if b = lf then sizeEol h else h)
        split
        case isTrue => exact heol
        case isFalse => exact hP
      case h_3 =>
        -- the payload byte is appended before the chunk counts down
        show P (dataByte E h b)
        have hdata := happend h b hP
        unfold dataByte
        generalize bodyAppend E h b = x at hdata
        dsimp only
        split
        case isTrue => exact hown x _ _ _ _ _ _ _ _ _ hdata
        case isFalse => exact hown x _ _ _ _ _ _ _ _ _ hdata
      case h_4 =>
        show P (if b = lf then { h with chunkState := .size } else h)
        split
        case isTrue => exact hown h _ _ _ _ _ _ _ _ _ hP
        case isFalse => exact hP
      case h_5 =>
        unfold finalByte
        split
        case isTrue =>
          split
          case isTrue => exact hP
          case isFalse => exact hown h _ _ _ _ _ _ _ _ _ hP
        case isFalse =>
          split
          case isTrue => exact hP
          case isFalse => exact hown h _ _ _ _ _ _ _ _ _ hP

/-- An invariant of the bytes that `http_body_finish` keeps is one of the calls. -/
theorem recvFrom_rule {P : Response → Prop}
    (hbyte : ∀ (x : Response) (b : UInt8), P x → (parseByte E x b).Post P P)
    (hfinish : ∀ x : Response, P x → P (bodyFinish E x)) (bs : List UInt8) :
    ∀ h : Response, P h → P (recvFrom E h bs).1 := by
  induction bs with
  | nil =>
      intro h hP
      cases hc : complete h with
      | true =>
          rw [recvFrom_of_complete E hc]
          exact hfinish h hP
      | false =>
          rw [recvFrom_nil E hc]
          exact hP
  | cons b bs ih =>
      intro h hP
      cases hc : complete h with
      | true =>
          rw [recvFrom_of_complete E hc]
          exact hfinish h hP
      | false =>
          have hstep := hbyte h b hP
          cases hb : parseByte E h b with
          | again h' =>
              rw [hb] at hstep
              rw [recvFrom_again E hc hb]
              exact ih h' hstep
          | leave h' =>
              rw [hb] at hstep
              rw [recvFrom_leave E hc hb]
              exact hfinish h' hstep

end Calls

/-! ## Runs -/

theorem withPending_pending (i : Input) (bs : List UInt8) : (i.withPending bs).pending = bs := by
  obtain ⟨mode, ring, span⟩ := i
  cases mode with
  | ring => rfl
  | span => rfl

/-- The ring is empty again behind a call that was not complete. -/
theorem withPending_ring {i : Input} (d : Delivery) (hi : i.ring = []) :
    (i.deliver d).pending = d.bytes ∧ ((i.deliver d).withPending []).ring = [] := by
  cases d with
  | span bs => exact ⟨rfl, hi⟩
  | ring bs =>
      refine ⟨?_, rfl⟩
      show i.ring ++ bs = bs
      rw [hi, List.nil_append]

/-- A run of calls is one call on all of the bytes. -/
theorem runDeliveries_eq (E : HttpEnv) (ds : List Delivery) :
    ∀ (h : Response) (i : Input), complete h = false → i.ring = [] →
      runDeliveries E h i ds =
        ((recvFrom E h (ds.flatMap Delivery.bytes)).1,
          (ds.flatMap Delivery.bytes).length -
            (recvFrom E h (ds.flatMap Delivery.bytes)).2.1.length,
          (recvFrom E h (ds.flatMap Delivery.bytes)).2.2) := by
  induction ds with
  | nil =>
      intro h i hc _
      rw [List.flatMap_nil, recvFrom_nil E hc]
      rfl
  | cons d ds ih =>
      intro h i hc hi
      obtain ⟨hpending, hring⟩ := withPending_ring d hi
      have hcall : httpRecvResponse E h (i.deliver d) = ((recvFrom E h d.bytes).1,
          (i.deliver d).withPending (recvFrom E h d.bytes).2.1, (recvFrom E h d.bytes).2.2) := by
        unfold httpRecvResponse
        rw [hpending]
      rw [List.flatMap_cons]
      unfold runDeliveries
      dsimp only
      rw [hcall, hpending]
      rcases recvFrom_append E (ds.flatMap Delivery.bytes) d.bytes h with
        ⟨h', rest, hfirst, hall⟩ | ⟨h', hfirst, hc', hall⟩
      · rw [hfirst, hall]
        dsimp only
        rw [if_pos rfl, withPending_pending, List.length_append, List.length_append,
          Nat.add_sub_add_right]
      · rw [hfirst, hall]
        dsimp only
        rw [if_neg (by decide), ih h' _ hc' hring, withPending_pending, List.length_append,
          List.length_nil]
        have hle := recvFrom_rest E (ds.flatMap Delivery.bytes) h'
        have htaken : ∀ n m r : Nat, r ≤ m → n - 0 + (m - r) = n + m - r := by
          intro n m r hr
          omega
        exact Prod.ext rfl (Prod.ext (htaken _ _ _ hle) rfl)

theorem complete_respInit (E : HttpEnv) (h : Response) : complete (respInit E h) = false := by
  unfold complete respInit bodyBegin
  dsimp only
  split
  · rfl
  · rfl

/-- Memory of zeros. -/
def Response.zero : Response where
  status := 0
  parseState := .status
  lineIdx := 0
  lineBuf := fun _ => 0
  clValid := false
  contentLength := 0
  chunked := false
  chunkState := .size
  chunkRem := 0
  bodyTotal := 0
  respLen := 0
  respBuf := fun _ => 0
  sinkFlushed := false
  sinkFull := false
  sinkRoom := 0
  reuCursor := 0
  reu := fun _ => 0

def ascii (s : String) : List UInt8 :=
  s.toList.map fun c => UInt8.ofNat c.toNat

/-- From the start of a response, two runs over the same bytes come to the same: the response with
its status, its framing, its body and its sink, the number of bytes taken, and the verdict. -/
theorem runDeliveries_agree (E : HttpEnv) (h : Response) (ds ds' : List Delivery)
    (hbytes : ds.flatMap Delivery.bytes = ds'.flatMap Delivery.bytes) :
    runDeliveries E (respInit E h) .empty ds = runDeliveries E (respInit E h) .empty ds' := by
  rw [runDeliveries_eq E ds _ _ (complete_respInit E h) rfl,
    runDeliveries_eq E ds' _ _ (complete_respInit E h) rfl, hbytes]

/-- A response in one record, and byte by byte through the ring. -/
theorem runDeliveries_agree_bytes :
    runDeliveries ⟨true, true, true, 15, 262144⟩
        (respInit ⟨true, true, true, 15, 262144⟩ .zero) .empty
        [.span (ascii "HTTP/1.1 200 OK\r\nContent-Length: 2\r\n\r\nhi")] =
      runDeliveries ⟨true, true, true, 15, 262144⟩
        (respInit ⟨true, true, true, 15, 262144⟩ .zero) .empty
        ((ascii "HTTP/1.1 200 OK\r\nContent-Length: 2\r\n\r\nhi").map fun b => .ring [b]) :=
  runDeliveries_agree _ _ _ _ (by decide +kernel)

end Http
end C64Https
