import C64Https.Tls.Connect
import C64Https.Tls.RecordSpec

/-!
# RecordStream — the record reader against the stream of the peer

`tls_recv_record` takes the bytes as they come and may be left at any of them.  `parseOne` reads the
first record of a stream that is there as a whole; a call of the reader does the same to what it
holds and what is in the ring (`tlsRecvRecord_step`), so the records of a run are those of the
stream, whatever the arrival of the bytes (`run_records`).
-/

namespace C64Https
namespace Tls

open Word Loop Bytes

variable {κ : Type}

/-! ## The stream as a whole -/

/-- What is at the head of a stream. -/
inductive Item where
  | record (ty : UInt8) (body : List UInt8)
  | bad
  deriving DecidableEq, Repr

/-- No outer content type. -/
def badType (ty : UInt8) : Prop :=
  ty < 20 ∨ 24 ≤ ty

instance (ty : UInt8) : Decidable (badType ty) :=
  inferInstanceAs (Decidable (ty < 20 ∨ 24 ≤ ty))

/-- The first item of a stream and what follows it: a bad type costs one byte, any other bad header
five. -/
def parseOne : List UInt8 → Option (Item × List UInt8)
  | [] => none
  | ty :: rest =>
      if badType ty then some (.bad, rest)
      else
        match rest with
        | v :: w :: h :: l :: body =>
            if v ≠ 3 ∨ w ≠ 3 ∨ recBufSize < word h l then some (.bad, body)
            else if body.length < word h l then none
            else some (.record ty (body.take (word h l)), body.drop (word h l))
        | _ => none

theorem parseOne_cons (ty : UInt8) (rest : List UInt8) :
    parseOne (ty :: rest) =
      if badType ty then some (.bad, rest)
      else
        match rest with
        | v :: w :: h :: l :: body =>
            if v ≠ 3 ∨ w ≠ 3 ∨ recBufSize < word h l then some (.bad, body)
            else if body.length < word h l then none
            else some (.record ty (body.take (word h l)), body.drop (word h l))
        | _ => none :=
  rfl

/-- The grammar that `parseOne` decides. -/
inductive Head : List UInt8 → Item → List UInt8 → Prop where
  | badType {ty : UInt8} (rest : List UInt8) (h : badType ty) : Head (ty :: rest) .bad rest
  | badHeader {ty v w hb lb : UInt8} (rest : List UInt8) (hty : ¬ badType ty)
      (h : v ≠ 3 ∨ w ≠ 3 ∨ recBufSize < word hb lb) :
      Head (ty :: v :: w :: hb :: lb :: rest) .bad rest
  | record {ty hb lb : UInt8} (body rest : List UInt8) (hty : ¬ badType ty)
      (hcap : word hb lb ≤ recBufSize) (hlen : body.length = word hb lb) :
      Head (ty :: 3 :: 3 :: hb :: lb :: (body ++ rest)) (.record ty body) rest

theorem head_of_parseOne {s rest : List UInt8} {x : Item} (h : parseOne s = some (x, rest)) :
    Head s x rest := by
  cases s with
  | nil => cases h
  | cons ty s =>
      rw [parseOne_cons] at h
      by_cases hty : badType ty
      · rw [if_pos hty, Option.some.injEq, Prod.mk.injEq] at h
        rcases h with ⟨rfl, rfl⟩
        exact .badType s hty
      rw [if_neg hty] at h
      split at h
      · rename_i v w hb lb body
        by_cases hbad : v ≠ 3 ∨ w ≠ 3 ∨ recBufSize < word hb lb
        · rw [if_pos hbad, Option.some.injEq, Prod.mk.injEq] at h
          rcases h with ⟨rfl, rfl⟩
          exact .badHeader body hty hbad
        rw [if_neg hbad] at h
        have hv : v = 3 := by
          by_contra hne
          exact hbad (Or.inl hne)
        have hw : w = 3 := by
          by_contra hne
          exact hbad (Or.inr (Or.inl hne))
        have hcap : word hb lb ≤ recBufSize := Nat.le_of_not_lt fun hlt => hbad (Or.inr (Or.inr hlt))
        by_cases hlen : body.length < word hb lb
        · rw [if_pos hlen] at h
          cases h
        · rw [if_neg hlen, Option.some.injEq, Prod.mk.injEq] at h
          rcases h with ⟨rfl, rfl⟩
          have hhead := Head.record (body.take (word hb lb)) (body.drop (word hb lb)) hty hcap
            (List.length_take_of_le (by omega))
          rw [List.take_append_drop] at hhead
          rw [hv, hw]
          exact hhead
      · cases h

theorem Head.parseOne_eq {s rest : List UInt8} {x : Item} (h : Head s x rest) :
    parseOne s = some (x, rest) := by
  cases h with
  | badType _ hty => rw [parseOne_cons, if_pos hty]
  | badHeader _ hty hbad =>
      rw [parseOne_cons, if_neg hty]
      exact if_pos hbad
  | @record ty hb lb body _ hty hcap hlen =>
      have hgood : ¬ ((3 : UInt8) ≠ 3 ∨ (3 : UInt8) ≠ 3 ∨ recBufSize < word hb lb) := by
        rintro (hne | hne | hlt)
        · exact hne rfl
        · exact hne rfl
        · omega
      rw [parseOne_cons, if_neg hty]
      dsimp only
      rw [if_neg hgood, if_neg (by rw [List.length_append]; omega), List.take_left' hlen,
        List.drop_left' hlen]

/-- What was read of a stream is read of every longer one. -/
theorem parseOne_append {s rest : List UInt8} {x : Item} (t : List UInt8)
    (h : parseOne s = some (x, rest)) : parseOne (s ++ t) = some (x, rest ++ t) := by
  refine Head.parseOne_eq ?_
  cases head_of_parseOne h with
  | badType rest hty => exact .badType (rest ++ t) hty
  | badHeader rest hty hbad => exact .badHeader (rest ++ t) hty hbad
  | @record ty hb lb body rest hty hcap hlen =>
      have hhead := Head.record body (rest ++ t) hty hcap hlen
      rw [← List.append_assoc] at hhead
      exact hhead

/-- An item takes at least a byte. -/
theorem parseOne_length {s rest : List UInt8} {x : Item} (h : parseOne s = some (x, rest)) :
    rest.length < s.length := by
  cases head_of_parseOne h with
  | badType rest hty => simp
  | badHeader rest hty hbad =>
      simp only [List.length_cons]
      omega
  | record body rest hty hcap hlen =>
      simp only [List.length_cons, List.length_append]
      omega

/-- Less than a header decides nothing but the type. -/
theorem parseOne_short {ty : UInt8} (hty : ¬ badType ty) {rest : List UInt8}
    (h : rest.length < 4) : parseOne (ty :: rest) = none := by
  rw [parseOne_cons, if_neg hty]
  split
  · simp only [List.length_cons] at h
    omega
  · rfl

/-- A header with less behind it than it announces. -/
theorem parseOne_partial {ty hb lb : UInt8} (hty : ¬ badType ty) (hcap : word hb lb ≤ recBufSize)
    {body : List UInt8} (h : body.length < word hb lb) :
    parseOne (ty :: 3 :: 3 :: hb :: lb :: body) = none := by
  rw [parseOne_cons, if_neg hty]
  dsimp only
  rw [if_neg (by simp; omega), if_pos h]

/-- The items of a stream, with a bound on their number. -/
def itemsUpTo : Nat → List UInt8 → List Item
  | 0, _ => []
  | n + 1, s =>
      match parseOne s with
      | none => []
      | some (x, rest) => x :: itemsUpTo n rest

/-- The items of a stream. -/
def items (s : List UInt8) : List Item :=
  itemsUpTo s.length s

theorem itemsUpTo_eq {n : Nat} :
    ∀ {m : Nat} {s : List UInt8}, s.length ≤ n → s.length ≤ m → itemsUpTo n s = itemsUpTo m s := by
  induction n with
  | zero =>
      intro m s hn _
      have hnil : s = [] := List.eq_nil_of_length_eq_zero (by omega)
      rw [hnil]
      cases m with
      | zero => rfl
      | succ m => rfl
  | succ n ih =>
      intro m s hn hm
      cases m with
      | zero =>
          have hnil : s = [] := List.eq_nil_of_length_eq_zero (by omega)
          rw [hnil]
          rfl
      | succ m =>
          unfold itemsUpTo
          cases hp : parseOne s with
          | none => rfl
          | some found =>
              have hlt : found.2.length < s.length := parseOne_length hp
              have hrec := ih (m := m) (s := found.2) (by omega) (by omega)
              show found.1 :: _ = found.1 :: _
              rw [hrec]

theorem items_of_none {s : List UInt8} (h : parseOne s = none) : items s = [] := by
  unfold items
  cases s.length with
  | zero => rfl
  | succ n =>
      unfold itemsUpTo
      rw [h]

theorem items_of_some {s rest : List UInt8} {x : Item} (h : parseOne s = some (x, rest)) :
    items s = x :: items rest := by
  have hlt := parseOne_length h
  obtain ⟨n, hn⟩ : ∃ n, s.length = n + 1 := ⟨s.length - 1, by omega⟩
  unfold items
  rw [hn]
  show (match parseOne s with | none => [] | some (x, rest) => x :: itemsUpTo n rest) = _
  rw [h]
  show x :: itemsUpTo n rest = _
  rw [itemsUpTo_eq (m := rest.length) (by omega) (le_refl _)]

/-- The records among the items. -/
def recordsOf (xs : List Item) : List (UInt8 × List UInt8) :=
  xs.filterMap fun x => match x with
    | .record ty body => some (ty, body)
    | .bad => none

/-! ## What the reader holds -/

/-- The bytes of the stream that the reader has taken since the last item. -/
def Conn.held (c : Conn κ) : List UInt8 :=
  match c.recvState with
  | .header => bytesAt c.recHdr 0 c.recvCount
  | .payload => bytesAt c.recHdr 0 5 ++ bytesAt c.hs.recBuf 0 c.recvCount

/-- Between two items. -/
def AtBoundary (c : Conn κ) : Prop :=
  c.recvState = .header ∧ c.recvCount = 0

/-- The reader is inside a header or a payload that has been good so far. -/
structure Reading (c : Conn κ) : Prop where
  header : c.recvState = .header →
    c.recvCount < 5 ∧ (0 < c.recvCount → ¬ badType (c.recHdr 0))
  payload : c.recvState = .payload →
    ¬ badType (c.recHdr 0) ∧ c.recHdr 1 = 3 ∧ c.recHdr 2 = 3 ∧
      c.hs.recLen = word (c.recHdr 3) (c.recHdr 4) ∧ c.hs.recLen ≤ recBufSize ∧
        c.recvCount < c.hs.recLen ∧ c.recType = c.recHdr 0

theorem AtBoundary.reading {c : Conn κ} (h : AtBoundary c) : Reading c := by
  obtain ⟨hst, hn⟩ := h
  refine ⟨fun _ => ⟨by omega, fun hpos => absurd hpos (by omega)⟩, ?_⟩
  intro hp
  rw [hst] at hp
  cases hp

theorem AtBoundary.held_eq {c : Conn κ} (h : AtBoundary c) : c.held = [] := by
  unfold Conn.held
  rw [h.1, h.2]
  rfl

theorem bytesAt_header (m : Buffer) : bytesAt m 0 5 = [m 0, m 1, m 2, m 3, m 4] :=
  rfl

/-- What the reader holds is no item yet. -/
theorem Reading.parseOne_held {c : Conn κ} (h : Reading c) : parseOne c.held = none := by
  unfold Conn.held
  cases hst : c.recvState with
  | header =>
      obtain ⟨hlt, hty⟩ := h.header hst
      show parseOne (bytesAt c.recHdr 0 c.recvCount) = none
      cases hn : c.recvCount with
      | zero => rfl
      | succ n =>
          rw [bytesAt_succ]
          exact parseOne_short (hty (by omega)) (by rw [length_bytesAt]; omega)
  | payload =>
      obtain ⟨hty, h1, h2, hlen, hcap, hcount, -⟩ := h.payload hst
      show parseOne (bytesAt c.recHdr 0 5 ++ bytesAt c.hs.recBuf 0 c.recvCount) = none
      rw [bytesAt_header, h1, h2]
      refine parseOne_partial hty (by omega) ?_
      show (bytesAt c.hs.recBuf 0 c.recvCount).length < _
      rw [length_bytesAt]
      omega

theorem bytesAt_update_succ (m : Buffer) (n : Nat) (b : UInt8) :
    bytesAt (Function.update m n b) 0 (n + 1) = bytesAt m 0 n ++ [b] := by
  rw [bytesAt_add]
  have hkeep : bytesAt (Function.update m n b) 0 n = bytesAt m 0 n := by
    refine bytesAt_congr ?_
    intro i hi
    exact Function.update_of_ne (by omega) _ _
  have hnew : bytesAt (Function.update m n b) (0 + n) 1 = [b] := by
    show [Function.update m n b (0 + n + 0)] = [b]
    rw [Nat.zero_add, Nat.add_zero, Function.update_self]
  rw [hkeep, hnew]

/-- What a call of the reader leaves alone. -/
structure Keeps (c c' : Conn κ) : Prop where
  wire_eq : c'.wire = c.wire
  beyond : ∀ i, recBufSize ≤ i → c'.hs.recBuf i = c.hs.recBuf i

theorem Keeps.refl (c : Conn κ) : Keeps c c :=
  ⟨rfl, fun _ _ => rfl⟩

theorem Keeps.trans {c c' c'' : Conn κ} (h : Keeps c c') (h' : Keeps c' c'') : Keeps c c'' :=
  ⟨h'.wire_eq.trans h.wire_eq, fun i hi => (h'.beyond i hi).trans (h.beyond i hi)⟩

/-- The header of a record that is complete. -/
def HasHeader (c : Conn κ) : Prop :=
  bytesAt c.recHdr 0 5 = [c.recType, 3, 3, hi c.hs.recLen, lo c.hs.recLen]

/-- What one byte does to the reader, against the stream so far. -/
inductive ByteRead (c : Conn κ) (b : UInt8) : Conn κ × ByteStep → Prop where
  | more {c' : Conn κ} (hread : Reading c') (hheld : c'.held = c.held ++ [b]) (hkeep : Keeps c c')
      (hstate : c'.hs.tlsState = c.hs.tlsState) : ByteRead c b (c', .more)
  | complete {c' : Conn κ} (hbound : AtBoundary c')
      (hparse : parseOne (c.held ++ [b]) = some (.record c'.recType c'.record, []))
      (hhdr : HasHeader c') (hkeep : Keeps c c') (hstate : c'.hs.tlsState = c.hs.tlsState) :
      ByteRead c b (c', .complete)
  | bad {c' : Conn κ} (hparse : parseOne (c.held ++ [b]) = some (.bad, [])) (hkeep : Keeps c c')
      (hstate : c'.hs.tlsState = c.hs.tlsState) : ByteRead c b (c', .bad)

/-- The fifth byte of a header has been stored. -/
theorem headerDone_read {c₀ c : Conn κ} {b : UInt8} (hheld : c₀.held ++ [b] = bytesAt c.recHdr 0 5)
    (hty : ¬ badType (c.recHdr 0)) (hkeep : Keeps c₀ c)
    (hstate : c.hs.tlsState = c₀.hs.tlsState) : ByteRead c₀ b (headerDone c) := by
  rw [bytesAt_header] at hheld
  have hbad : c.recHdr 1 ≠ 3 ∨ c.recHdr 2 ≠ 3 ∨ recBufSize < word (c.recHdr 3) (c.recHdr 4) →
      parseOne (c₀.held ++ [b]) = some (.bad, []) := by
    intro h
    rw [hheld]
    exact (Head.badHeader [] hty h).parseOne_eq
  unfold headerDone
  dsimp only
  by_cases h1 : c.recHdr 1 = 3
  · rw [if_neg (not_not.2 h1)]
    by_cases h2 : c.recHdr 2 = 3
    · rw [if_neg (not_not.2 h2)]
      by_cases hcap : recBufSize < word (c.recHdr 3) (c.recHdr 4)
      · rw [if_pos hcap]
        exact .bad (hbad (Or.inr (Or.inr hcap))) ⟨hkeep.1, hkeep.2⟩ hstate
      rw [if_neg hcap]
      by_cases hzero : word (c.recHdr 3) (c.recHdr 4) = 0
      · -- an empty record is complete with its header
        rw [if_pos hzero]
        refine .complete ⟨rfl, rfl⟩ ?_ ?_ ⟨hkeep.1, hkeep.2⟩ hstate
        swap
        · unfold HasHeader
          show bytesAt c.recHdr 0 5 = [c.recHdr 0, 3, 3, hi (word (c.recHdr 3) (c.recHdr 4)),
            lo (word (c.recHdr 3) (c.recHdr 4))]
          rw [hi_word, lo_word, bytesAt_header, h1, h2]
        have hhead : Head [c.recHdr 0, 3, 3, c.recHdr 3, c.recHdr 4] (.record (c.recHdr 0) []) [] :=
          .record [] [] hty (by omega) (by rw [hzero]; rfl)
        rw [hheld, h1, h2, hhead.parseOne_eq]
        show some (Item.record (c.recHdr 0) [], []) =
          some (Item.record (c.recHdr 0)
            (bytesAt c.hs.recBuf 0 (word (c.recHdr 3) (c.recHdr 4))), [])
        rw [hzero]
        rfl
      · rw [if_neg hzero]
        refine .more ⟨fun hc => (by cases hc), fun _ => ?_⟩ ?_ ⟨hkeep.1, hkeep.2⟩ hstate
        · exact ⟨hty, h1, h2, rfl, Nat.le_of_not_lt hcap, Nat.pos_of_ne_zero hzero, rfl⟩
        · rw [hheld]
          rfl
    · rw [if_pos h2]
      exact .bad (hbad (Or.inr (Or.inl h2))) ⟨hkeep.1, hkeep.2⟩ hstate
  · rw [if_pos h1]
    exact .bad (hbad (Or.inl h1)) ⟨hkeep.1, hkeep.2⟩ hstate

theorem headerByte_read {c : Conn κ} (b : UInt8) (h : Reading c) (hst : c.recvState = .header) :
    ByteRead c b (headerByte c b) := by
  obtain ⟨hlt, hgood⟩ := h.header hst
  have hheld : c.held ++ [b] = bytesAt (Function.update c.recHdr c.recvCount b) 0 (c.recvCount + 1) := by
    rw [bytesAt_update_succ]
    unfold Conn.held
    rw [hst]
  have hinc : inc16 c.recvCount = c.recvCount + 1 := inc16_of_lt (by omega)
  unfold headerByte
  dsimp only
  by_cases hfirst : c.recvCount = 0 ∧ (b < 20 ∨ 24 ≤ b)
  · rw [if_pos hfirst]
    refine .bad ?_ ⟨rfl, fun _ _ => rfl⟩ rfl
    have hnil : c.held = [] := AtBoundary.held_eq ⟨hst, hfirst.1⟩
    rw [hnil]
    exact (Head.badType [] hfirst.2).parseOne_eq
  rw [if_neg hfirst, hinc]
  have hty : ¬ badType (Function.update c.recHdr c.recvCount b 0) := by
    by_cases hzero : c.recvCount = 0
    · rw [hzero, Function.update_self]
      exact fun hb => hfirst ⟨hzero, hb⟩
    · rw [Function.update_of_ne (Ne.symm hzero)]
      exact hgood (by omega)
  by_cases hfive : c.recvCount + 1 = 5
  · rw [if_pos hfive]
    rw [hfive] at hheld
    exact headerDone_read hheld hty ⟨rfl, fun _ _ => rfl⟩ rfl
  · rw [if_neg hfive]
    refine .more ⟨fun _ => ⟨?_, fun _ => hty⟩, fun hp => ?_⟩ ?_ ⟨rfl, fun _ _ => rfl⟩ rfl
    · show c.recvCount + 1 < 5
      omega
    · have hp' : c.recvState = .payload := hp
      rw [hst] at hp'
      cases hp'
    · rw [hheld]
      unfold Conn.held
      dsimp only
      rw [hst]

theorem payloadByte_read {c : Conn κ} (b : UInt8) (h : Reading c) (hst : c.recvState = .payload) :
    ByteRead c b (payloadByte c b) := by
  have hsize : recBufSize = 548 := rfl
  obtain ⟨hty, h1, h2, hlen, hcap, hcount, htype⟩ := h.payload hst
  have hinc : inc16 c.recvCount = c.recvCount + 1 := inc16_of_lt (by omega)
  have hbuf := bytesAt_update_succ c.hs.recBuf c.recvCount b
  have hheld : c.held ++ [b] = bytesAt c.recHdr 0 5 ++
      bytesAt (Function.update c.hs.recBuf c.recvCount b) 0 (c.recvCount + 1) := by
    rw [hbuf, ← List.append_assoc]
    unfold Conn.held
    rw [hst]
  have hkeep : ∀ i, recBufSize ≤ i →
      Function.update c.hs.recBuf c.recvCount b i = c.hs.recBuf i := by
    intro i hi
    exact Function.update_of_ne (by omega) _ _
  have hinc' : inc16 (c.withRecord (Function.update c.hs.recBuf c.recvCount b)
      c.hs.recLen).recvCount = c.recvCount + 1 := hinc
  unfold payloadByte
  dsimp only
  rw [hinc']
  -- the last byte of the record, or one before it
  by_cases hlast : c.recvCount + 1 = c.hs.recLen
  · have hend : c.recvCount + 1 = (c.withRecord (Function.update c.hs.recBuf c.recvCount b)
        c.hs.recLen).hs.recLen := hlast
    rw [if_pos hend]
    refine .complete ⟨rfl, rfl⟩ ?_ ?_ ⟨rfl, hkeep⟩ rfl
    swap
    · unfold HasHeader
      show bytesAt c.recHdr 0 5 = [c.recType, 3, 3, hi c.hs.recLen, lo c.hs.recLen]
      rw [hlen, hi_word, lo_word, bytesAt_header, h1, h2, htype]
    have hhead : Head ([c.recHdr 0, 3, 3, c.recHdr 3, c.recHdr 4] ++
        bytesAt (Function.update c.hs.recBuf c.recvCount b) 0 c.hs.recLen)
        (.record (c.recHdr 0) (bytesAt (Function.update c.hs.recBuf c.recvCount b) 0 c.hs.recLen))
        [] := by
      have hgo := Head.record (bytesAt (Function.update c.hs.recBuf c.recvCount b) 0 c.hs.recLen) []
        hty (hlen ▸ hcap) (by rw [length_bytesAt, hlen])
      rw [List.append_nil] at hgo
      exact hgo
    rw [hheld, bytesAt_header, h1, h2, hlast, hhead.parseOne_eq, ← htype]
    rfl
  · have hgo : ¬ c.recvCount + 1 = (c.withRecord (Function.update c.hs.recBuf c.recvCount b)
        c.hs.recLen).hs.recLen := hlast
    rw [if_neg hgo]
    refine .more ⟨fun hp => ?_, fun _ => ?_⟩ ?_ ⟨rfl, hkeep⟩ rfl
    · have hp' : c.recvState = .header := hp
      rw [hst] at hp'
      cases hp'
    · refine ⟨hty, h1, h2, hlen, hcap, ?_, htype⟩
      show c.recvCount + 1 < c.hs.recLen
      omega
    · rw [hheld]
      unfold Conn.held
      dsimp only
      show (match c.recvState with | .header => _ | .payload => _) = _
      rw [hst]
      rfl

theorem recvByte_read {c : Conn κ} (b : UInt8) (h : Reading c) : ByteRead c b (recvByte c b) := by
  unfold recvByte
  cases hst : c.recvState with
  | header => exact headerByte_read b h hst
  | payload => exact payloadByte_read b h hst

/-! ## One call -/

/-- What a bad header does to the state. -/
def failState (R : RecordEnv) (st : TlsState) : TlsState :=
  if st.code < (if R.pqHybrid then TlsState.serverHello else TlsState.encryptedExt).code then st
  else .error

/-- What a call of `tls_recv_record` does, against what it holds and what is in the ring. -/
inductive RecvStep (R : RecordEnv) (c : Conn κ) (ring : List UInt8) : Conn κ × Bool → Prop where
  | wait {c' : Conn κ} (hread : Reading c') (hheld : c'.held = c.held ++ ring)
      (hring : c'.ring = []) (hkeep : Keeps c c') (hstate : c'.hs.tlsState = c.hs.tlsState) :
      RecvStep R c ring (c', false)
  | record {c' : Conn κ} (hbound : AtBoundary c')
      (hparse : parseOne (c.held ++ ring) = some (.record c'.recType c'.record, c'.ring))
      (hhdr : HasHeader c') (hkeep : Keeps c c') (hstate : c'.hs.tlsState = c.hs.tlsState) :
      RecvStep R c ring (c', true)
  | bad {c' : Conn κ} (hbound : AtBoundary c')
      (hparse : parseOne (c.held ++ ring) = some (.bad, c'.ring)) (hkeep : Keeps c c')
      (hstate : c'.hs.tlsState = failState R c.hs.tlsState) : RecvStep R c ring (c', false)

theorem tlsRecFrameFail_step (R : RecordEnv) (c : Conn κ) :
    AtBoundary (tlsRecFrameFail R c) ∧ (tlsRecFrameFail R c).ring = c.ring ∧
      Keeps c (tlsRecFrameFail R c) ∧
        (tlsRecFrameFail R c).hs.tlsState = failState R c.hs.tlsState := by
  unfold tlsRecFrameFail failState
  dsimp only
  generalize (if R.pqHybrid = true then TlsState.serverHello else TlsState.encryptedExt) = fatal
  by_cases h : c.hs.tlsState.code < fatal.code
  · have h' : (tlsRecReaderReset c).hs.tlsState.code < fatal.code := h
    rw [if_pos h', if_pos h]
    exact ⟨⟨rfl, rfl⟩, rfl, ⟨rfl, fun _ _ => rfl⟩, rfl⟩
  · have h' : ¬ (tlsRecReaderReset c).hs.tlsState.code < fatal.code := h
    rw [if_neg h', if_neg h]
    exact ⟨⟨rfl, rfl⟩, rfl, ⟨rfl, fun _ _ => rfl⟩, rfl⟩

theorem recvFrom_step (R : RecordEnv) (ring : List UInt8) :
    ∀ c : Conn κ, Reading c → RecvStep R c ring (recvFrom R ring c) := by
  induction ring with
  | nil =>
      intro c h
      refine .wait ⟨h.header, h.payload⟩ ?_ rfl ⟨rfl, fun _ _ => rfl⟩ rfl
      rw [List.append_nil]
      rfl
  | cons b ring ih =>
      intro c h
      have hbyte := recvByte_read b h
      have hsplit : c.held ++ b :: ring = c.held ++ [b] ++ ring := by
        rw [List.append_assoc]
        rfl
      unfold recvFrom
      generalize recvByte c b = r at hbyte ⊢
      -- the byte is taken into the record, or ends it, or shows that it is none
      cases hbyte with
      | more hread hheld hkeep hstate =>
          rename_i c'
          show RecvStep R c (b :: ring) (recvFrom R ring c')
          have hgo := ih c' hread
          generalize recvFrom R ring c' = r at hgo
          cases hgo with
          | wait hread' hheld' hring hkeep' hstate' =>
              refine .wait hread' ?_ hring (hkeep.trans hkeep') (hstate'.trans hstate)
              rw [hheld', hheld, hsplit]
          | record hbound hparse hhdr hkeep' hstate' =>
              rw [hheld, ← hsplit] at hparse
              exact .record hbound hparse hhdr (hkeep.trans hkeep') (hstate'.trans hstate)
          | bad hbound hparse hkeep' hstate' =>
              rw [hheld, ← hsplit] at hparse
              rw [hstate] at hstate'
              exact .bad hbound hparse (hkeep.trans hkeep') hstate'
      | complete hbound hparse hhdr hkeep hstate =>
          have hall := parseOne_append ring hparse
          rw [← hsplit, List.nil_append] at hall
          exact .record hbound hall hhdr ⟨hkeep.1, hkeep.2⟩ hstate
      | bad hparse hkeep hstate =>
          rename_i c'
          have hall := parseOne_append ring hparse
          rw [← hsplit, List.nil_append] at hall
          obtain ⟨hbound, hring, hkeep', hstate'⟩ :=
            tlsRecFrameFail_step R { c' with ring := ring }
          have hring' : (tlsRecFrameFail R { c' with ring := ring }).ring = ring := hring
          have hfrom : Keeps c { c' with ring := ring } := ⟨hkeep.1, hkeep.2⟩
          have hstate'' : ({ c' with ring := ring } : Conn κ).hs.tlsState = c.hs.tlsState := hstate
          rw [hstate''] at hstate'
          refine .bad hbound ?_ (hfrom.trans hkeep') hstate'
          rw [hring']
          exact hall

/-- A call of the reader is one reading of the stream. -/
theorem tlsRecvRecord_step (R : RecordEnv) {c : Conn κ} (h : Reading c) :
    RecvStep R c c.ring (tlsRecvRecord R c) :=
  recvFrom_step R c.ring c h

/-! ## Runs -/

/-- What can happen between two calls: bytes arrive, or the caller does its own work. -/
inductive ReaderEvent (κ : Type) where
  | poll
  | recv
  | caller (f : Conn κ → Conn κ)

/-- A caller that leaves the reader its storage: the ring and the cursor always, header and payload
while a record is incomplete. -/
structure LeavesReader (f : Conn κ → Conn κ) : Prop where
  ring_eq : ∀ c, (f c).ring = c.ring
  recvState_eq : ∀ c, (f c).recvState = c.recvState
  recvCount_eq : ∀ c, (f c).recvCount = c.recvCount
  keeps : ∀ c, Keeps c (f c)
  inside : ∀ c, ¬ AtBoundary c →
    (f c).recHdr = c.recHdr ∧ (f c).hs.recBuf = c.hs.recBuf ∧ (f c).hs.recLen = c.hs.recLen ∧
      (f c).recType = c.recType

/-- The records that a schedule of calls yields. -/
def runEvents (R : RecordEnv) : List (ReaderEvent κ) → Conn κ → Conn κ × List (UInt8 × List UInt8)
  | [], c => (c, [])
  | .poll :: events, c => runEvents R events (netPoll c)
  | .caller f :: events, c => runEvents R events (f c)
  | .recv :: events, c =>
      let r := tlsRecvRecord R c
      let rest := runEvents R events r.1
      (rest.1, if r.2 then (r.1.recType, r.1.record) :: rest.2 else rest.2)

/-- The stream from the last item on: held, in the ring, still to come. -/
def Conn.pending (c : Conn κ) : List UInt8 :=
  c.held ++ c.ring ++ c.wire.flatten

theorem netPoll_pending (c : Conn κ) : (netPoll c).pending = c.pending := by
  have hheld : (netPoll c).held = c.held := rfl
  unfold Conn.pending
  rw [hheld]
  show c.held ++ (c.ring ++ c.wire.headD []) ++ c.wire.tail.flatten = _
  cases c.wire with
  | nil => simp
  | cons bs wire => simp

theorem netPoll_reading {c : Conn κ} (h : Reading c) : Reading (netPoll c) :=
  ⟨h.header, h.payload⟩

theorem LeavesReader.reading {f : Conn κ → Conn κ} (hf : LeavesReader f) {c : Conn κ}
    (h : Reading c) : Reading (f c) ∧ (f c).held = c.held := by
  by_cases hb : AtBoundary c
  · have hb' : AtBoundary (f c) :=
      ⟨(hf.recvState_eq c).trans hb.1, (hf.recvCount_eq c).trans hb.2⟩
    exact ⟨hb'.reading, hb'.held_eq.trans hb.held_eq.symm⟩
  · obtain ⟨hhdr, hbuf, hlen, hty⟩ := hf.inside c hb
    refine ⟨⟨?_, ?_⟩, ?_⟩
    · rw [hf.recvState_eq, hf.recvCount_eq, hhdr]
      exact h.header
    · rw [hf.recvState_eq, hf.recvCount_eq, hhdr, hlen, hty]
      exact h.payload
    · unfold Conn.held
      rw [hf.recvState_eq, hf.recvCount_eq, hhdr, hbuf]

theorem LeavesReader.pending_eq {f : Conn κ → Conn κ} (hf : LeavesReader f) {c : Conn κ}
    (h : Reading c) : (f c).pending = c.pending := by
  unfold Conn.pending
  rw [(hf.reading h).2, hf.ring_eq, (hf.keeps c).wire_eq]

/-- What one call adds to the records of a run. -/
def yields (r : Conn κ × Bool) : List (UInt8 × List UInt8) :=
  if r.2 then [(r.1.recType, r.1.record)] else []

theorem recv_pending (R : RecordEnv) {c : Conn κ} (h : Reading c) :
    Reading (tlsRecvRecord R c).1 ∧ Keeps c (tlsRecvRecord R c).1 ∧
      recordsOf (items c.pending) =
        yields (tlsRecvRecord R c) ++ recordsOf (items (tlsRecvRecord R c).1.pending) := by
  have hstep := tlsRecvRecord_step R h
  generalize tlsRecvRecord R c = r at hstep ⊢
  cases hstep with
  | wait hread hheld hring hkeep hstate =>
      rename_i c'
      have hpend : c'.pending = c.pending := by
        unfold Conn.pending
        rw [hheld, hring, hkeep.wire_eq, List.append_nil]
      refine ⟨hread, hkeep, ?_⟩
      rw [hpend]
      rfl
  | record hbound hparse hhdr hkeep hstate =>
      rename_i c'
      have hall : items c.pending = .record c'.recType c'.record :: items c'.pending := by
        have hpend : c'.pending = c'.ring ++ c.wire.flatten := by
          unfold Conn.pending
          rw [hbound.held_eq, hkeep.wire_eq, List.nil_append]
        rw [hpend]
        exact items_of_some (parseOne_append c.wire.flatten hparse)
      refine ⟨hbound.reading, hkeep, ?_⟩
      rw [hall]
      rfl
  | bad hbound hparse hkeep hstate =>
      rename_i c'
      have hall : items c.pending = .bad :: items c'.pending := by
        have hpend : c'.pending = c'.ring ++ c.wire.flatten := by
          unfold Conn.pending
          rw [hbound.held_eq, hkeep.wire_eq, List.nil_append]
        rw [hpend]
        exact items_of_some (parseOne_append c.wire.flatten hparse)
      refine ⟨hbound.reading, hkeep, ?_⟩
      rw [hall]
      rfl

theorem runEvents_recv (R : RecordEnv) (events : List (ReaderEvent κ)) (c : Conn κ) :
    runEvents R (.recv :: events) c =
      ((runEvents R events (tlsRecvRecord R c).1).1,
        yields (tlsRecvRecord R c) ++ (runEvents R events (tlsRecvRecord R c).1).2) := by
  unfold yields
  show ((runEvents R events (tlsRecvRecord R c).1).1, if (tlsRecvRecord R c).2 = true then _ else _) = _
  cases (tlsRecvRecord R c).2 with
  | true => rfl
  | false => rfl

/-- The records of a run, then those still to come, are the records of the stream. -/
theorem run_records (R : RecordEnv) (events : List (ReaderEvent κ)) :
    ∀ c : Conn κ, Reading c → (∀ f, ReaderEvent.caller f ∈ events → LeavesReader f) →
      Reading (runEvents R events c).1 ∧
        (∀ i, recBufSize ≤ i → (runEvents R events c).1.hs.recBuf i = c.hs.recBuf i) ∧
        recordsOf (items c.pending) =
          (runEvents R events c).2 ++ recordsOf (items (runEvents R events c).1.pending) := by
  induction events with
  | nil =>
      intro c h _
      exact ⟨h, fun _ _ => rfl, rfl⟩
  | cons event events ih =>
      intro c h hcallers
      have htail : ∀ f, ReaderEvent.caller f ∈ events → LeavesReader f :=
        fun f hf => hcallers f (List.mem_cons_of_mem _ hf)
      cases event with
      | poll =>
          obtain ⟨hread, hkeep, hrec⟩ := ih (netPoll c) (netPoll_reading h) htail
          rw [netPoll_pending] at hrec
          exact ⟨hread, hkeep, hrec⟩
      | caller f =>
          have hf := hcallers f (List.mem_cons_self ..)
          obtain ⟨hread, hkeep, hrec⟩ := ih (f c) (hf.reading h).1 htail
          rw [hf.pending_eq h] at hrec
          exact ⟨hread, fun i hi => (hkeep i hi).trans ((hf.keeps c).beyond i hi), hrec⟩
      | recv =>
          obtain ⟨hread₁, hkeep₁, hrec₁⟩ := recv_pending R h
          obtain ⟨hread, hkeep, hrec⟩ := ih (tlsRecvRecord R c).1 hread₁ htail
          rw [runEvents_recv]
          refine ⟨hread, fun i hi => (hkeep i hi).trans (hkeep₁.beyond i hi), ?_⟩
          rw [hrec₁, hrec, List.append_assoc]

/-! ## Where records are encrypted -/

/-- The first item that is not read over: ChangeCipherSpec records are, if `skip`. -/
def firstKept (skip : Bool) : List Item → Option Item
  | [] => none
  | .bad :: _ => some .bad
  | .record ty body :: rest =>
      if ty = ctChangeCipher ∧ skip = true then firstKept skip rest else some (.record ty body)

/-- What `tls_record_recv_and_decrypt` makes of that item, in a state where records are encrypted:
a bad header, an outer type other than application data and a body that is not longer than the tag
end the connection; anything else goes to the AEAD. -/
def ItemOutcome (R : RecordEnv) (st : TlsState) : Option Item → Conn κ × Bool → Prop
  | none, r => r.2 = false ∧ r.1.hs.tlsState = st
  | some .bad, r => r.2 = false ∧ r.1.hs.tlsState = .error
  | some (.record ty body), r =>
      (ty ≠ ctApplication ∨ body.length ≤ 16 → r.2 = false ∧ r.1.hs.tlsState = .error) ∧
      (ty = ctApplication → 16 < body.length →
        ∃ c : Conn κ, c.recType = ty ∧ c.record = body ∧ c.hs.tlsState = st ∧
          r.2 = (tlsRecordDecrypt R c).2 ∧ (r.2 = false → r.1.hs.tlsState = .error))

theorem failState_encrypted (R : RecordEnv) {st : TlsState}
    (h : TlsState.encryptedExt.code ≤ st.code) : failState R st = .error := by
  have hle : TlsState.serverHello.code ≤ TlsState.encryptedExt.code := by
    decide
  unfold failState
  rw [if_neg]
  cases R.pqHybrid with
  | true =>
      simp only [if_true]
      omega
  | false =>
      simp only [Bool.false_eq_true, if_false]
      omega

/-- A complete record that is no ChangeCipherSpec. -/
theorem recordGot_received (R : RecordEnv) {c : Conn κ} {st : TlsState}
    (hst : c.hs.tlsState = st) (henc : TlsState.encryptedExt.code ≤ st.code) :
    ItemOutcome R st (some (.record c.recType c.record)) (recordGot R c) := by
  have hlen : c.record.length = c.hs.recLen := length_bytesAt _ _ _
  have henc' : TlsState.encryptedExt.code ≤ c.hs.tlsState.code := by
    rw [hst]
    exact henc
  unfold recordGot
  rw [if_neg (by omega)]
  by_cases hty : c.recType = ctApplication
  · rw [if_neg (not_not.2 hty)]
    dsimp only
    have herr := (tlsRecAuthFail_spec (tlsRecDecryptChk R c).1).2.1
    constructor
    · rintro (hne | hshort)
      · exact absurd hty hne
      rw [hlen] at hshort
      have hchk : (tlsRecDecryptChk R c).2 = false := by
        unfold tlsRecDecryptChk
        rw [if_pos ⟨by omega, hshort⟩]
      rw [hchk, if_neg (by simp)]
      exact ⟨rfl, herr⟩
    · intro _ hlong
      rw [hlen] at hlong
      have hchk : tlsRecDecryptChk R c = tlsRecordDecrypt R c := by
        unfold tlsRecDecryptChk
        rw [if_neg (by omega)]
      refine ⟨c, rfl, rfl, hst, ?_⟩
      rw [← hchk]
      cases hok : (tlsRecDecryptChk R c).2 with
      | true =>
          rw [if_pos rfl]
          exact ⟨rfl, fun hc => (by cases hc)⟩
      | false =>
          rw [if_neg (by simp)]
          exact ⟨rfl, fun _ => herr⟩
  · rw [if_pos hty]
    exact ⟨fun _ => ⟨rfl, tlsRecFrameFail_error R henc'⟩, fun hc => absurd hc hty⟩

/-- What one turn of `@retry` makes of the items that have arrived. -/
theorem recvDecryptTurn_received (R : RecordEnv) {c : Conn κ} (h : Reading c) {st : TlsState}
    (hst : c.hs.tlsState = st) (henc : TlsState.encryptedExt.code ≤ st.code) :
    (recvDecryptTurn R c).Post
      (fun c' => Reading c' ∧ c'.hs.tlsState = st ∧
        firstKept (decide (st.code < TlsState.connected.code)) (items (c.held ++ c.ring)) =
          firstKept (decide (st.code < TlsState.connected.code)) (items (c'.held ++ c'.ring)))
      (fun r => ItemOutcome R st
        (firstKept (decide (st.code < TlsState.connected.code)) (items (c.held ++ c.ring))) r) := by
  have hstep := tlsRecvRecord_step R h
  unfold recvDecryptTurn
  generalize tlsRecvRecord R c = r at hstep ⊢
  dsimp only
  cases hstep with
  | wait hread hheld hring hkeep hstate =>
      rename_i c'
      have hnone : items (c.held ++ c.ring) = [] := by
        rw [← hheld]
        exact items_of_none hread.parseOne_held
      rw [if_pos rfl, hnone]
      exact ⟨rfl, hstate.trans hst⟩
  | bad hbound hparse hkeep hstate =>
      rename_i c'
      rw [if_pos rfl, items_of_some hparse]
      refine ⟨rfl, hstate.trans ?_⟩
      rw [hst]
      exact failState_encrypted R henc
  | record hbound hparse hhdr hkeep hstate =>
      rename_i c'
      have hst' : c'.hs.tlsState = st := hstate.trans hst
      rw [if_neg (by simp), items_of_some hparse]
      by_cases hccs : c'.recType = ctChangeCipher
      · rw [if_pos hccs]
        by_cases hconn : st.code < TlsState.connected.code
        · -- a ChangeCipherSpec record of the handshake
          rw [if_pos (by rw [hst']; exact hconn)]
          refine ⟨hbound.reading, hst', ?_⟩
          rw [hbound.held_eq]
          exact if_pos ⟨hccs, decide_eq_true hconn⟩
        · rw [if_neg (by rw [hst']; exact hconn)]
          have herr : (tlsRecFrameFail R c').hs.tlsState = .error :=
            tlsRecFrameFail_error R (by rw [hst']; exact henc)
          unfold firstKept
          rw [if_neg fun hc => hconn (of_decide_eq_true hc.2)]
          refine ⟨fun _ => ⟨rfl, herr⟩, fun hty => ?_⟩
          rw [hty] at hccs
          exact absurd hccs (by decide)
      · rw [if_neg hccs]
        unfold firstKept
        rw [if_neg fun hc => hccs hc.1]
        exact recordGot_received R hst' henc

theorem recv_received (R : RecordEnv) {c : Conn κ} (h : Reading c)
    (henc : TlsState.encryptedExt.code ≤ c.hs.tlsState.code) :
    ∃ r, tlsRecordRecvAndDecrypt R c = some r ∧
      ItemOutcome R c.hs.tlsState (firstKept (decide (c.hs.tlsState.code < TlsState.connected.code))
        (items (c.held ++ c.ring))) r := by
  rcases recv_total R c with ⟨r, hr⟩
  refine ⟨r, hr, ?_⟩
  refine loop_rule
    (fun x => (Reading x ∧ x.hs.tlsState = c.hs.tlsState) ∧
      firstKept (decide (c.hs.tlsState.code < TlsState.connected.code)) (items (c.held ++ c.ring)) =
        firstKept (decide (c.hs.tlsState.code < TlsState.connected.code))
          (items (x.held ++ x.ring)))
    _ ?_ _ c r ⟨⟨h, rfl⟩, rfl⟩ hr
  rintro x ⟨⟨hread, hst⟩, hkept⟩
  have hturn := recvDecryptTurn_received R hread hst henc
  rw [← hkept] at hturn
  exact hturn.mono (fun x' hx => ⟨⟨hx.1, hx.2.1⟩, hx.2.2⟩) fun r hr => hr

/-! ## Every stream, every schedule -/

/-- The reader yields the records of the stream in whatever pieces it arrives and however it is
polled, stays within its buffer, and fails closed where records are encrypted. -/
theorem recvRecord_stream (R : RecordEnv) (c : Conn κ) (hstart : AtBoundary c)
    (events : List (ReaderEvent κ)) (hcallers : ∀ f, .caller f ∈ events → LeavesReader f) :
    recordsOf (items c.pending) =
      (runEvents R events c).2 ++ recordsOf (items (runEvents R events c).1.pending) ∧
    ((runEvents R events c).1.ring ++ (runEvents R events c).1.wire.flatten = [] →
      (runEvents R events c).2 = recordsOf (items c.pending)) ∧
    (∀ i, recBufSize ≤ i → (runEvents R events c).1.hs.recBuf i = c.hs.recBuf i) ∧
    (TlsState.encryptedExt.code ≤ (runEvents R events c).1.hs.tlsState.code →
      ∃ r, tlsRecordRecvAndDecrypt R (runEvents R events c).1 = some r ∧
        ItemOutcome R (runEvents R events c).1.hs.tlsState
          (firstKept
            (decide ((runEvents R events c).1.hs.tlsState.code < TlsState.connected.code))
            (items ((runEvents R events c).1.held ++ (runEvents R events c).1.ring))) r) := by
  obtain ⟨hread, hwithin, hrec⟩ := run_records R events c hstart.reading hcallers
  refine ⟨hrec, ?_, hwithin, fun henc => recv_received R hread henc⟩
  intro hempty
  have hheld : (runEvents R events c).1.pending = (runEvents R events c).1.held := by
    unfold Conn.pending
    rw [List.append_assoc, hempty, List.append_nil]
  rw [hrec, hheld, items_of_none hread.parseOne_held]
  exact (List.append_nil _).symm

theorem leavesReader_setState (st : TlsState) :
    LeavesReader fun c : Conn κ => c.setState st :=
  ⟨fun _ => rfl, fun _ => rfl, fun _ => rfl, fun _ => ⟨rfl, fun _ _ => rfl⟩,
    fun _ _ => ⟨rfl, rfl, rfl, rfl⟩⟩

/-- Two records in three pieces, the state changed in the middle of the second. -/
theorem recvRecord_stream_pieces :
    (runEvents ConnEnv.accepting.toRecordEnv
        [.poll, .recv, .recv, .poll, .recv, .caller fun c => c.setState .connected, .poll, .recv]
        (.blank [[22, 3, 3, 0, 2, 7], [8, 23, 3, 3, 0], [1, 9]])).2 =
      recordsOf (items (Conn.blank [[22, 3, 3, 0, 2, 7], [8, 23, 3, 3, 0], [1, 9]]).pending) := by
  refine (recvRecord_stream ConnEnv.accepting.toRecordEnv _ ⟨rfl, rfl⟩ _ ?_).2.1 (by decide +kernel)
  intro f hf
  have hcaller : f = fun c => c.setState .connected := by
    simpa using hf
  rw [hcaller]
  exact leavesReader_setState .connected

end Tls
end C64Https
