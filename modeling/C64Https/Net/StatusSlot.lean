import C64Https.Lib.Bytes

/-!
# StatusSlot — the captured status line (`src/net/uci/uci_cmd.s`)

Every UCI target reports its result as a line of text, and `uci_drain_status` keeps the first line of
interest in a slot of sixteen bytes.  A line that is held stays until the slot is armed again; routine
lines (`"00,…"`, `"02,…"`) are passed over, except just after an error.

The index of the drain has eight bits and counts the bytes that are seen, and it is this count that
becomes the length of the slot.  So the slot describes the line when the line is short enough, and
otherwise not (`held_is_first_kept`, `not_held_is_first_kept`).

There is one more writer: `net_poll` (`src/net/uci/net.s`) holds the line that says what killed the
socket, again by the count of the bytes seen (`ddDead`).
-/

namespace C64Https
namespace Net

open Bytes

/-! ## The slot -/

/-- `UCI_STATUS_MAX`. -/
def uciStatusMax : UInt8 :=
  16

/-- `UCI_WAIT_IDLE_BUDGET_TENTHS`. -/
def uciWaitIdleBudgetTenths : UInt8 :=
  50

structure StatusSlot where
  /-- `uci_status_buf` -/
  buf : Buffer
  /-- `uci_status_len` -/
  len : UInt8
  /-- `uci_status_seen` -/
  seen : UInt8
  /-- `uci_status_tail` -/
  tail : UInt8 × UInt8
  /-- `uci_status_force` -/
  force : UInt8
  /-- `net_last_error` -/
  lastError : UInt8

/-- The variables of a drain: `@dst_idx`, `@dst_last_tenths` and `@dst_elapsed`. -/
structure Drain where
  idx : UInt8
  lastTenths : UInt8
  elapsed : UInt8
  deriving DecidableEq, Repr

/-- `@dst_have`, up to the clock: a byte from the FIFO. -/
def dstHave (d : Drain) (s : StatusSlot) (b : UInt8) : StatusSlot :=
  { s with
    tail := (s.tail.2, b)
    buf := if s.len = 0 ∧ d.idx < uciStatusMax then Function.update s.buf d.idx.toNat b else s.buf }

/-- `@dst_commit_take`. -/
def dstCommitTake (d : Drain) (s : StatusSlot) : StatusSlot :=
  { s with len := d.idx }

/-- `@dst_filter`: success lines and idle polls are passed over. -/
def dstFilter (d : Drain) (s : StatusSlot) : StatusSlot :=
  if d.idx < 2 then dstCommitTake d s
  else if s.buf 0 ≠ 0x30 then dstCommitTake d s
  else if s.buf 1 = 0x30 then s
  else if s.buf 1 = 0x32 then s
  else dstCommitTake d s

def dstCommit (d : Drain) (s : StatusSlot) : StatusSlot :=
  let s := { s with seen := d.idx }
  if d.idx = 0 then s
  else if s.len ≠ 0 then s
  else if s.force ≠ 0 then dstCommitTake d { s with force := 0 }
  else dstFilter d s

/-- What a drain leaves: the slot, what it has not read, and the carry. -/
structure Drained where
  slot : StatusSlot
  rest : List UInt8
  carry : Bool

/-- `@dst_loop` over the bytes in the FIFO.  The clock is read for the `n`th time after the `n`th
byte. -/
def dstLoop (clock : Nat → UInt8) : List UInt8 → Nat → Drain → StatusSlot → Drained
  | [], _, d, s => { slot := dstCommit d s, rest := [], carry := false }
  | b :: rest, n, d, s =>
      let s := dstHave d s b
      let d := { d with idx := d.idx + 1 }
      if clock n = d.lastTenths then dstLoop clock rest (n + 1) d s
      else
        let d := { d with lastTenths := clock n, elapsed := d.elapsed + 1 }
        if d.elapsed < uciWaitIdleBudgetTenths then dstLoop clock rest (n + 1) d s
        else { slot := dstCommit d { s with lastError := 0x89 }, rest := rest, carry := true }

def uciDrainStatus (clock : Nat → UInt8) (fifo : List UInt8) (s : StatusSlot) : Drained :=
  dstLoop clock fifo 1 { idx := 0, lastTenths := clock 0, elapsed := 0 } s

/-- `uci_check_err`, with what it reads from the status register. -/
def uciCheckErr (status : UInt8) (s : StatusSlot) : StatusSlot × Bool :=
  if status &&& 0x08 ≠ 0 then ({ s with len := 0, force := 0xff }, true) else (s, false)

/-- `"02,NO DATA: 11"`, told by its length and its end. -/
def StatusSlot.idle (s : StatusSlot) : Bool :=
  decide (s.seen = 14) && (s.tail == (0x31, 0x31))

/-- The end of `net_poll` for a header of `$FFFF`: any line but the idle one is held at `@dd_dead`, although
the filter has passed it over, unless another is. -/
def ddDead (s : StatusSlot) : StatusSlot :=
  if s.idle then s
  else if s.len ≠ 0 then s
  else { s with len := s.seen }

/-! ## Runs -/

/-- The slot and the status channel: the line that the firmware staged last, and what is left of it in
the FIFO. -/
structure StatusChannel where
  slot : StatusSlot
  line : List UInt8
  fifo : List UInt8

inductive StatusEvent where
  /-- a command is answered, with this status line -/
  | reply (line : List UInt8)
  | drain (clock : Nat → UInt8)
  | checkErr (status : UInt8)
  /-- `net_init` -/
  | netInit
  /-- `dos_finish`, before it pushes -/
  | dosFinish
  /-- `net_poll`, behind the drain of a SOCKET_READ that was answered with the header `$FFFF` -/
  | noData

def StatusChannel.step (c : StatusChannel) : StatusEvent → StatusChannel
  | .reply line => { c with line := line, fifo := line }
  | .drain clock =>
      let r := uciDrainStatus clock c.fifo c.slot
      { c with slot := r.slot, fifo := r.rest }
  | .checkErr status => { c with slot := (uciCheckErr status c.slot).1 }
  | .netInit => { c with slot := { c.slot with len := 0, force := 0 } }
  | .dosFinish => { c with slot := { c.slot with len := 0 } }
  | .noData => { c with slot := ddDead c.slot }

def StatusChannel.run (c : StatusChannel) (es : List StatusEvent) : StatusChannel :=
  es.foldl StatusChannel.step c

/-- At boot the slot is armed by `net_init`, whatever the memory held. -/
def StatusChannel.Booted (c : StatusChannel) : Prop :=
  c.slot.len = 0 ∧ c.slot.force = 0 ∧ c.fifo = []

/-! ## Which line it should be -/

/-- `"00,…"` and `"02,…"`. -/
def routine : List UInt8 → Bool
  | a :: b :: _ => a == 0x30 && (b == 0x30 || b == 0x32)
  | _ => false

/-- What a drain hears before its time is up. -/
def heard (clock : Nat → UInt8) : List UInt8 → Nat → UInt8 → UInt8 → List UInt8
  | [], _, _, _ => []
  | b :: rest, n, last, elapsed =>
      if clock n = last then b :: heard clock rest (n + 1) last elapsed
      else if elapsed + 1 < uciWaitIdleBudgetTenths then
        b :: heard clock rest (n + 1) (clock n) (elapsed + 1)
      else [b]

/-- The line to be held: the first since the slot was armed that is not passed over. -/
structure Wanted where
  line : Option (List UInt8)
  /-- armed by an error, and no line since -/
  forced : Bool
  deriving DecidableEq

/-- A line comes by. -/
def Wanted.hear (w : Wanted) (line : List UInt8) : Wanted :=
  if w.line ≠ none then w
  else if w.forced then { line := some line, forced := false }
  else if routine line then w
  else { w with line := some line }

/-- The same from the events, with the channel as it stands before each. -/
def Wanted.step (w : Wanted) (c : StatusChannel) : StatusEvent → Wanted
  | .reply _ => w
  | .drain _ => if c.fifo = [] then w else w.hear c.line
  | .checkErr status => if status &&& 0x08 ≠ 0 then { line := none, forced := true } else w
  | .netInit => { line := none, forced := false }
  | .dosFinish => { w with line := none }
  | .noData => w

def Wanted.run : Wanted → StatusChannel → List StatusEvent → Wanted
  | w, _, [] => w
  | w, c, e :: es => (w.step c e).run (c.step e) es

/-- The length is within the buffer, and the bytes begin the line that is wanted. -/
def StatusSlot.Holds (s : StatusSlot) (w : Wanted) : Prop :=
  s.len.toNat ≤ uciStatusMax.toNat ∧ bytesAt s.buf 0 s.len.toNat <+: w.line.getD []

/-! ## One drain -/

section Drains

variable {d : Drain} {s : StatusSlot}

@[simp] theorem dstHave_len (b : UInt8) : (dstHave d s b).len = s.len :=
  rfl

@[simp] theorem dstHave_force (b : UInt8) : (dstHave d s b).force = s.force :=
  rfl

/-- The index and the slot behind some bytes. -/
def haveAll : List UInt8 → Drain → StatusSlot → Drain × StatusSlot
  | [], d, s => (d, s)
  | b :: bs, d, s => haveAll bs { d with idx := d.idx + 1 } (dstHave d s b)

theorem haveAll_congr (bs : List UInt8) : ∀ {d d' : Drain} (s : StatusSlot), d.idx = d'.idx →
    (haveAll bs d s).1.idx = (haveAll bs d' s).1.idx ∧
      (haveAll bs d s).2 = (haveAll bs d' s).2 := by
  induction bs with
  | nil =>
      intro d d' s h
      exact ⟨h, rfl⟩
  | cons b bs ih =>
      intro d d' s h
      have hsame : dstHave d s b = dstHave d' s b := by
        unfold dstHave
        rw [h]
      unfold haveAll
      rw [hsame]
      exact ih _ (congrArg (· + 1) h)

/-- The error code has no part in it. -/
theorem dstCommit_lastError (d : Drain) (s : StatusSlot) (e : UInt8) :
    dstCommit d { s with lastError := e } = { dstCommit d s with lastError := e } := by
  unfold dstCommit dstFilter dstCommitTake
  dsimp only
  split_ifs <;> rfl

/-- Two slots that hold the same. -/
structure SameLine (s s' : StatusSlot) : Prop where
  buf : s'.buf = s.buf
  len : s'.len = s.len
  force : s'.force = s.force

/-- A drain takes what it hears, and then commits. -/
theorem dstLoop_heard (clock : Nat → UInt8) (fifo : List UInt8) :
    ∀ (n : Nat) (d : Drain) (s : StatusSlot),
      ∃ d', d'.idx = (haveAll (heard clock fifo n d.lastTenths d.elapsed) d s).1.idx ∧
        SameLine (dstCommit d' (haveAll (heard clock fifo n d.lastTenths d.elapsed) d s).2)
          (dstLoop clock fifo n d s).slot := by
  induction fifo with
  | nil =>
      intro n d s
      exact ⟨d, rfl, rfl, rfl, rfl⟩
  | cons b rest ih =>
      intro n d s
      unfold dstLoop heard
      dsimp only
      split
      · exact ih (n + 1) { d with idx := d.idx + 1 } (dstHave d s b)
      · split
        · obtain ⟨d', hidx, hslot⟩ := ih (n + 1)
            { idx := d.idx + 1, lastTenths := clock n, elapsed := d.elapsed + 1 } (dstHave d s b)
          obtain ⟨hi, hs⟩ := @haveAll_congr (heard clock rest (n + 1) (clock n) (d.elapsed + 1))
            { idx := d.idx + 1, lastTenths := clock n, elapsed := d.elapsed + 1 }
            { d with idx := d.idx + 1 } (dstHave d s b) rfl
          dsimp only at hidx hslot
          rw [hi] at hidx
          rw [hs] at hslot
          exact ⟨d', hidx, hslot⟩
        · -- time is up
          have hcode := dstCommit_lastError
            { idx := d.idx + 1, lastTenths := clock n, elapsed := d.elapsed + 1 } (dstHave d s b) 0x89
          refine ⟨{ idx := d.idx + 1, lastTenths := clock n, elapsed := d.elapsed + 1 }, rfl, ?_⟩
          dsimp only at hcode ⊢
          rw [hcode]
          exact ⟨rfl, rfl, rfl⟩

theorem heard_prefix (clock : Nat → UInt8) (fifo : List UInt8) : ∀ n last elapsed,
    heard clock fifo n last elapsed <+: fifo := by
  induction fifo with
  | nil =>
      intro n last elapsed
      exact List.prefix_refl _
  | cons b rest ih =>
      intro n last elapsed
      unfold heard
      split
      · exact (List.cons_prefix_cons).2 ⟨rfl, ih _ _ _⟩
      · split
        · exact (List.cons_prefix_cons).2 ⟨rfl, ih _ _ _⟩
        · exact (List.cons_prefix_cons).2 ⟨rfl, List.nil_prefix⟩

/-- The time is never up before the fiftieth byte. -/
theorem le_length_heard (clock : Nat → UInt8) (fifo : List UInt8) : ∀ n last (elapsed : UInt8) k,
    k + elapsed.toNat ≤ 50 → k ≤ fifo.length → elapsed.toNat < 50 →
      k ≤ (heard clock fifo n last elapsed).length := by
  have hone : (1 : UInt8).toNat = 1 := rfl
  have hfifty : uciWaitIdleBudgetTenths.toNat = 50 := rfl
  induction fifo with
  | nil =>
      intro n last elapsed k _ hk _
      exact hk
  | cons b rest ih =>
      intro n last elapsed k hbudget hk hlt
      rw [List.length_cons] at hk
      have hsum : (elapsed + 1).toNat = elapsed.toNat + 1 := by
        rw [UInt8.toNat_add, hone]
        omega
      unfold heard
      split
      · have hrest := ih (n + 1) last elapsed (k - 1) (by omega) (by omega) hlt
        rw [List.length_cons]
        omega
      · split
        · rename_i hmore
          rw [UInt8.lt_iff_toNat_lt, hsum, hfifty] at hmore
          have hrest := ih (n + 1) (clock n) (elapsed + 1) (k - 1) (by omega) (by omega) (by omega)
          rw [List.length_cons]
          omega
        · rename_i hover
          rw [UInt8.lt_iff_toNat_lt, hsum, hfifty] at hover
          rw [List.length_singleton]
          omega

/-- The index counts. -/
theorem haveAll_idx (bs : List UInt8) : ∀ (d : Drain) (s : StatusSlot),
    d.idx.toNat + bs.length < 256 →
      (haveAll bs d s).1.idx.toNat = d.idx.toNat + bs.length := by
  have hone : (1 : UInt8).toNat = 1 := rfl
  induction bs with
  | nil =>
      intro d s _
      rfl
  | cons b bs ih =>
      intro d s h
      rw [List.length_cons] at h ⊢
      have hnext : (d.idx + 1).toNat = d.idx.toNat + 1 := by
        rw [UInt8.toNat_add, hone]
        omega
      unfold haveAll
      rw [ih _ _ (by rw [hnext]; omega), hnext]
      omega

theorem haveAll_kept (bs : List UInt8) : ∀ (d : Drain) (s : StatusSlot),
    (haveAll bs d s).2.len = s.len ∧ (haveAll bs d s).2.force = s.force := by
  induction bs with
  | nil =>
      intro d s
      exact ⟨rfl, rfl⟩
  | cons b bs ih =>
      intro d s
      exact ih _ _

/-- A line that is held is not touched. -/
theorem haveAll_held (bs : List UInt8) : ∀ (d : Drain) (s : StatusSlot), s.len ≠ 0 →
    (haveAll bs d s).2.buf = s.buf := by
  induction bs with
  | nil =>
      intro d s _
      rfl
  | cons b bs ih =>
      intro d s h
      have hsame : (dstHave d s b).buf = s.buf := by
        unfold dstHave
        exact if_neg fun hfree => h hfree.1
      unfold haveAll
      rw [ih _ (dstHave d s b) h, hsame]

/-- In a free slot the first sixteen bytes are stored. -/
theorem haveAll_stored (bs : List UInt8) : ∀ (d : Drain) (s : StatusSlot), s.len = 0 →
    d.idx.toNat + bs.length < 256 → ∀ i < 16,
      (haveAll bs d s).2.buf i =
        if d.idx.toNat ≤ i ∧ i < d.idx.toNat + bs.length then bs.getD (i - d.idx.toNat) 0
        else s.buf i := by
  have hone : (1 : UInt8).toNat = 1 := rfl
  have hmax : uciStatusMax.toNat = 16 := rfl
  induction bs with
  | nil =>
      intro d s _ _ i _
      rw [if_neg (by rw [List.length_nil]; omega)]
      rfl
  | cons b bs ih =>
      intro d s hfree hlt i hi
      rw [List.length_cons] at hlt ⊢
      have hnext : (d.idx + 1).toNat = d.idx.toNat + 1 := by
        rw [UInt8.toNat_add, hone]
        omega
      have hrest := ih { d with idx := d.idx + 1 } (dstHave d s b) hfree
        (by dsimp only; rw [hnext]; omega) i hi
      dsimp only at hrest
      rw [hnext] at hrest
      unfold haveAll
      rw [hrest]
      -- the index counts on behind the sixteenth byte, but nothing is stored there
      have hbyte : (dstHave d s b).buf i = if i = d.idx.toNat then b else s.buf i := by
        unfold dstHave
        dsimp only
        by_cases hroom : d.idx < uciStatusMax
        · rw [if_pos ⟨hfree, hroom⟩, Function.update_apply]
        · rw [if_neg fun h => hroom h.2]
          rw [UInt8.lt_iff_toNat_lt, hmax] at hroom
          rw [if_neg (by omega)]
      rw [hbyte]
      by_cases hbehind : d.idx.toNat + 1 ≤ i ∧ i < d.idx.toNat + 1 + bs.length
      · have hsub : i - d.idx.toNat = (i - (d.idx.toNat + 1)) + 1 := by omega
        rw [if_pos hbehind, if_pos (by omega), hsub, List.getD_cons_succ]
      · rw [if_neg hbehind]
        by_cases hself : i = d.idx.toNat
        · rw [if_pos hself, if_pos (by omega), hself, Nat.sub_self, List.getD_cons_zero]
        · rw [if_neg hself, if_neg (by omega)]

/-- A drain, by what it hears. -/
theorem uciDrainStatus_heard (clock : Nat → UInt8) (fifo : List UInt8) (s : StatusSlot) :
    ∃ d, d.idx = (haveAll (heard clock fifo 1 (clock 0) 0) ⟨0, clock 0, 0⟩ s).1.idx ∧
      SameLine (dstCommit d (haveAll (heard clock fifo 1 (clock 0) 0) ⟨0, clock 0, 0⟩ s).2)
        (uciDrainStatus clock fifo s).slot :=
  dstLoop_heard clock fifo 1 ⟨0, clock 0, 0⟩ s

/-- Nothing comes of a line while another is held. -/
theorem uciDrainStatus_held (clock : Nat → UInt8) (fifo : List UInt8) (h : s.len ≠ 0) :
    SameLine s (uciDrainStatus clock fifo s).slot := by
  obtain ⟨d, -, hslot⟩ := uciDrainStatus_heard clock fifo s
  generalize heard clock fifo 1 (clock 0) 0 = bs at hslot
  have hbuf := haveAll_held bs ⟨0, clock 0, 0⟩ s h
  obtain ⟨hlen, hforce⟩ := haveAll_kept bs ⟨0, clock 0, 0⟩ s
  generalize (haveAll bs ⟨0, clock 0, 0⟩ s).2 = t at hslot hbuf hlen hforce
  have hheld : t.len ≠ 0 := by
    rwa [hlen]
  have hcommit : SameLine t (dstCommit d t) := by
    unfold dstCommit
    dsimp only
    by_cases hnone : d.idx = 0
    · rw [if_pos hnone]
      exact ⟨rfl, rfl, rfl⟩
    · rw [if_neg hnone, if_pos hheld]
      exact ⟨rfl, rfl, rfl⟩
  exact ⟨hslot.buf.trans (hcommit.buf.trans hbuf), hslot.len.trans (hcommit.len.trans hlen),
    hslot.force.trans (hcommit.force.trans hforce)⟩

/-- An empty FIFO changes nothing. -/
theorem uciDrainStatus_nil (clock : Nat → UInt8) : SameLine s (uciDrainStatus clock [] s).slot := by
  unfold uciDrainStatus dstLoop dstCommit
  exact ⟨rfl, rfl, rfl⟩

end Drains

/-! ## Lines that come by a free slot -/

section Lines

variable {clock : Nat → UInt8} {line : List UInt8} {s : StatusSlot}

/-- The head of a line that goes by the filter is its head as it was heard. -/
theorem routine_prefix {bs : List UInt8} (h : bs <+: line) (hlen : 2 ≤ bs.length ∨ bs = line) :
    routine bs = routine line := by
  rcases hlen with hlen | rfl
  · obtain ⟨rest, rfl⟩ := h
    match bs, hlen with
    | a :: b :: bs, _ => rfl
  · rfl

theorem heard_routine (clock : Nat → UInt8) (line : List UInt8) :
    routine (heard clock line 1 (clock 0) 0) = routine line := by
  have hzero : (0 : UInt8).toNat = 0 := rfl
  have hpre := heard_prefix clock line 1 (clock 0) 0
  by_cases htwo : 2 ≤ line.length
  · refine routine_prefix hpre (Or.inl ?_)
    exact le_length_heard clock line 1 (clock 0) 0 2 (by omega) htwo (by omega)
  · refine routine_prefix hpre (Or.inr (hpre.eq_of_length_le ?_))
    exact le_length_heard clock line 1 (clock 0) 0 line.length (by omega) (Nat.le_refl _) (by omega)

/-- What is stored of a line that is heard in a free slot. -/
theorem stored_heard {bs : List UInt8} (hfree : s.len = 0) (hlt : bs.length < 256) {n : Nat}
    (hn : n ≤ bs.length) (hmax : n ≤ 16) (c : UInt8) :
    bytesAt (haveAll bs ⟨0, c, 0⟩ s).2.buf 0 n = bs.take n := by
  have hzero : (0 : UInt8).toNat = 0 := rfl
  rw [bytesAt_eq_iff]
  refine ⟨by rw [List.length_take]; omega, fun i hi => ?_⟩
  have hbyte := haveAll_stored bs ⟨0, c, 0⟩ s hfree (by dsimp only; omega) i (by omega)
  dsimp only at hbyte
  rw [hzero, Nat.zero_add, if_pos ⟨Nat.zero_le i, by omega⟩, Nat.sub_zero] at hbyte
  rw [Nat.zero_add, hbyte, List.getD_eq_getElem?_getD, List.getD_eq_getElem?_getD,
    List.getElem?_take_of_lt hi]

/-- The filter of a commit is that of the line. -/
theorem dstFilter_eq {bs : List UInt8} {t : StatusSlot} {d : Drain} (hidx : d.idx.toNat = bs.length)
    (hbuf : ∀ i < 2, i < bs.length → t.buf i = bs.getD i 0) :
    dstFilter d t = if routine bs = true then t else dstCommitTake d t := by
  have htwo : (2 : UInt8).toNat = 2 := rfl
  have hshort : d.idx < 2 ↔ bs.length < 2 := by
    rw [UInt8.lt_iff_toNat_lt, htwo, hidx]
  unfold dstFilter
  simp only [hshort]
  match bs, hbuf with
  | [], _ =>
      rw [if_pos (by decide), if_neg (by decide)]
  | [a], _ =>
      rw [if_pos (by rw [List.length_singleton]; decide)]
      exact (if_neg (Bool.eq_false_iff.1 (rfl : routine [a] = false))).symm
  | a :: b :: bs, hbuf =>
      have h0 : t.buf 0 = a := hbuf 0 (by decide) (by rw [List.length_cons]; omega)
      have h1 : t.buf 1 = b := hbuf 1 (by decide) (by simp only [List.length_cons]; omega)
      rw [if_neg (by simp only [List.length_cons]; omega), h0, h1]
      unfold routine
      by_cases ha : a = 0x30
      · rw [if_neg (not_not.2 ha)]
        by_cases hb : b = 0x30 <;> by_cases hc : b = 0x32 <;> simp [ha, hb, hc]
      · rw [if_pos ha]
        simp [ha]

/-- A line that fits, in a free slot: it is taken, or passed over. -/
theorem uciDrainStatus_free (hfree : s.len = 0) (hline : line ≠ [])
    (hfits : if s.force ≠ 0 ∨ routine line = false then line.length ≤ 16
      else (heard clock line 1 (clock 0) 0).length ≤ 255) :
    let s' := (uciDrainStatus clock line s).slot
    if s.force ≠ 0 ∨ routine line = false then
      s'.force = 0 ∧ s'.len.toNat = line.length ∧ bytesAt s'.buf 0 line.length = line
    else s'.force = 0 ∧ s'.len = 0 := by
  have hzero : (0 : UInt8).toNat = 0 := rfl
  obtain ⟨d, hidx, hslot⟩ := uciDrainStatus_heard clock line s
  have hpre := heard_prefix clock line 1 (clock 0) 0
  have hroutine := heard_routine clock line
  have hpos : 0 < line.length := List.length_pos_iff.2 hline
  have hone := le_length_heard clock line 1 (clock 0) 0 1 (by omega) hpos (by omega)
  -- a line of sixteen bytes is heard to its end
  have hall : line.length ≤ 16 → heard clock line 1 (clock 0) 0 = line := by
    intro hshort
    refine hpre.eq_of_length_le ?_
    exact le_length_heard clock line 1 (clock 0) 0 line.length (by omega) (Nat.le_refl _) (by omega)
  have hlt : (heard clock line 1 (clock 0) 0).length < 256 := by
    split at hfits
    · rw [hall hfits]
      omega
    · omega
  generalize heard clock line 1 (clock 0) 0 = bs at *
  have hcount := haveAll_idx bs ⟨0, clock 0, 0⟩ s (by dsimp only; omega)
  have hstored : ∀ n ≤ bs.length, n ≤ 16 →
      bytesAt (haveAll bs ⟨0, clock 0, 0⟩ s).2.buf 0 n = bs.take n :=
    fun n hn hmax => stored_heard hfree hlt hn hmax (clock 0)
  obtain ⟨hlen, hforce⟩ := haveAll_kept bs ⟨0, clock 0, 0⟩ s
  dsimp only at hcount
  rw [hzero, Nat.zero_add, ← hidx] at hcount
  rw [hfree] at hlen
  generalize (haveAll bs ⟨0, clock 0, 0⟩ s).2 = t at *
  have hne : d.idx ≠ 0 := by
    intro h0
    rw [h0, hzero] at hcount
    omega
  have hheads : ∀ i < 2, i < bs.length → t.buf i = bs.getD i 0 := by
    intro i hi hin
    have hbytes := hstored (i + 1) hin (by omega)
    have hget := getD_bytesAt t.buf 0 (Nat.lt_succ_self i)
    rw [hbytes, Nat.zero_add, List.getD_eq_getElem?_getD, List.getElem?_take_of_lt (by omega),
      ← List.getD_eq_getElem?_getD] at hget
    exact hget.symm
  have hcommit : dstCommit d t = if t.force ≠ 0 then
      dstCommitTake d { t with seen := d.idx, force := 0 } else dstFilter d { t with seen := d.idx } := by
    unfold dstCommit
    dsimp only
    rw [if_neg hne, if_neg (not_not.2 hlen)]
  have hfilter := @dstFilter_eq bs { t with seen := d.idx } d hcount hheads
  dsimp only
  split
  · rename_i htaken
    rw [if_pos htaken] at hfits
    have hbs := hall hfits
    subst hbs
    have hbytes := hstored bs.length (Nat.le_refl _) hfits
    rw [List.take_length] at hbytes
    rw [hslot.buf, hslot.len, hslot.force, hcommit]
    by_cases hforced : t.force ≠ 0
    · rw [if_pos hforced]
      exact ⟨rfl, hcount, hbytes⟩
    · have hplain : routine bs = false := by
        rcases htaken with h | h
        · exact absurd (hforce ▸ h) hforced
        · exact h
      rw [if_neg hforced, hfilter, if_neg (by rw [hplain]; decide)]
      exact ⟨not_not.1 hforced, hcount, hbytes⟩
  · rename_i hpassed
    rw [not_or, not_not] at hpassed
    obtain ⟨hunforced, hroute⟩ := hpassed
    have htrue : routine bs = true := by
      rw [hroutine]
      exact Bool.eq_true_of_not_eq_false hroute
    rw [hslot.len, hslot.force, hcommit, if_neg (not_not.2 (hforce.trans hunforced)), hfilter,
      if_pos htrue]
    exact ⟨hforce.trans hunforced, hlen⟩

end Lines

/-! ## Runs -/

/-- When a step does as it should.  A drain: a line is held already, or there is nothing to read, or it reads a
line from its beginning that the index can count, and that the slot has room for if it is to be held.  A poll
without data: the line is the idle one, or none came, or one is held already. -/
def StatusEvent.Fits (c : StatusChannel) : StatusEvent → Prop
  | .drain clock => c.slot.len ≠ 0 ∨ c.fifo = [] ∨ c.fifo = c.line ∧
      if c.slot.force ≠ 0 ∨ routine c.line = false then c.line.length ≤ 16
      else (heard clock c.line 1 (clock 0) 0).length ≤ 255
  | .noData => c.slot.idle = true ∨ c.slot.len ≠ 0 ∨ c.slot.seen = 0
  | _ => True

/-- Every step of the run does. -/
def Fitting : StatusChannel → List StatusEvent → Prop
  | _, [] => True
  | c, e :: es => e.Fits c ∧ Fitting (c.step e) es

/-- The slot and the line that it should hold go together. -/
structure Agree (s : StatusSlot) (w : Wanted) : Prop where
  forced : s.force ≠ 0 ↔ w.forced = true
  free : s.len = 0 ↔ w.line = none
  short : s.len.toNat ≤ 16
  bytes : bytesAt s.buf 0 s.len.toNat <+: w.line.getD []

/-- Where the poll does as it should, it leaves the slot alone. -/
theorem ddDead_of_fits {s : StatusSlot} (h : s.idle = true ∨ s.len ≠ 0 ∨ s.seen = 0) : ddDead s = s := by
  unfold ddDead
  by_cases hidle : s.idle = true
  · rw [if_pos hidle]
  · rw [if_neg hidle]
    by_cases hheld : s.len ≠ 0
    · rw [if_pos hheld]
    · have hnone : s.seen = s.len := ((h.resolve_left hidle).resolve_left hheld).trans (not_not.1 hheld).symm
      rw [if_neg hheld]
      exact congrArg (fun n => { s with len := n }) hnone

/-- A drain that leaves the line alone. -/
theorem Agree.same {s s' : StatusSlot} {w : Wanted} (h : Agree s w) (hsame : SameLine s s') : Agree s' w := by
  refine ⟨?_, ?_, ?_, ?_⟩
  · rw [hsame.force]
    exact h.forced
  · rw [hsame.len]
    exact h.free
  · rw [hsame.len]
    exact h.short
  · rw [hsame.len, hsame.buf]
    exact h.bytes

/-- A whole line, heard with the slot free. -/
theorem Agree.hear {s : StatusSlot} {w : Wanted} {clock : Nat → UInt8} {line : List UInt8} (h : Agree s w)
    (hfree : s.len = 0) (hline : line ≠ [])
    (hfits : if s.force ≠ 0 ∨ routine line = false then line.length ≤ 16
      else (heard clock line 1 (clock 0) 0).length ≤ 255) :
    Agree (uciDrainStatus clock line s).slot (w.hear line) := by
  have hzero : (0 : UInt8).toNat = 0 := rfl
  have hnone := h.free.1 hfree
  have hdrain := uciDrainStatus_free hfree hline hfits
  dsimp only at hdrain
  unfold Wanted.hear
  rw [if_neg (not_not.2 hnone)]
  by_cases htaken : s.force ≠ 0 ∨ routine line = false
  · -- the line is held
    rw [if_pos htaken] at hdrain hfits
    obtain ⟨hforce, hlen, hbytes⟩ := hdrain
    have hpos := List.length_pos_iff.2 hline
    have hwant : (if w.forced then { line := some line, forced := false }
        else if routine line then w else { w with line := some line } : Wanted) =
          { line := some line, forced := false } := by
      by_cases hforced : w.forced = true
      · rw [if_pos hforced]
      · have hplain := htaken.resolve_left fun hf => hforced (h.forced.1 hf)
        rw [if_neg hforced, if_neg (by rw [hplain]; decide), Bool.eq_false_iff.2 hforced]
    rw [hwant]
    refine ⟨by simp [hforce], ?_, by omega, ?_⟩
    · constructor
      · intro h0
        rw [h0, hzero] at hlen
        omega
      · intro hsome
        cases hsome
    · rw [hlen, hbytes]
      exact List.prefix_refl _
  · -- a routine line goes by the filter, whatever it left in the buffer
    rw [if_neg htaken] at hdrain
    obtain ⟨hforce, hlen⟩ := hdrain
    rw [not_or] at htaken
    have hforced : ¬ w.forced = true := fun hf => htaken.1 (h.forced.2 hf)
    rw [if_neg hforced, if_pos (Bool.eq_true_of_not_eq_false htaken.2)]
    refine ⟨by simp [hforce, hforced], by simp [hlen, hnone], by simp [hlen], ?_⟩
    rw [hlen, hzero, bytesAt_zero]
    exact List.nil_prefix

/-- One event. -/
theorem Agree.step {c : StatusChannel} {w : Wanted} {e : StatusEvent} (h : Agree c.slot w)
    (hfits : e.Fits c) : Agree (c.step e).slot (w.step c e) := by
  have hzero : (0 : UInt8).toNat = 0 := rfl
  cases e with
  | reply line => exact h
  | drain clock =>
      have hmove : (c.step (.drain clock)).slot = (uciDrainStatus clock c.fifo c.slot).slot := rfl
      unfold Wanted.step
      dsimp only
      rw [hmove]
      by_cases hempty : c.fifo = []
      · rw [if_pos hempty, hempty]
        exact h.same (uciDrainStatus_nil clock)
      rw [if_neg hempty]
      by_cases hheld : c.slot.len ≠ 0
      · have hline : w.line ≠ none := fun hnone => hheld (h.free.2 hnone)
        unfold Wanted.hear
        rw [if_pos hline]
        exact h.same (uciDrainStatus_held clock c.fifo hheld)
      · obtain ⟨hwhole, hfits⟩ := (hfits.resolve_left hheld).resolve_left hempty
        have hline : c.line ≠ [] := by rwa [← hwhole]
        rw [hwhole]
        exact h.hear (not_not.1 hheld) hline hfits
  | checkErr status =>
      unfold StatusChannel.step Wanted.step uciCheckErr
      dsimp only
      split
      · refine ⟨by simp, by simp, by simp, ?_⟩
        rw [hzero, bytesAt_zero]
        exact List.nil_prefix
      · exact h
  | netInit =>
      refine ⟨by simp [StatusChannel.step, Wanted.step], by simp [StatusChannel.step, Wanted.step],
        by simp [StatusChannel.step], ?_⟩
      exact List.nil_prefix
  | dosFinish =>
      refine ⟨h.forced, by simp [StatusChannel.step, Wanted.step], by simp [StatusChannel.step], ?_⟩
      exact List.nil_prefix
  | noData =>
      have hmove : (c.step .noData).slot = ddDead c.slot := rfl
      have hsame : ddDead c.slot = c.slot := ddDead_of_fits hfits
      rw [hmove, hsame]
      exact h

theorem Agree.run (es : List StatusEvent) : ∀ {c : StatusChannel} {w : Wanted}, Agree c.slot w →
    Fitting c es → Agree (c.run es).slot (w.run c es) := by
  induction es with
  | nil =>
      intro c w h _
      exact h
  | cons e es ih =>
      intro c w h hfits
      exact ih (h.step hfits.1) hfits.2

/-- In every run from boot in which every drain fits, the slot begins the first line since it was armed
that is not passed over, and no more than that. -/
theorem held_is_first_kept (c : StatusChannel) (es : List StatusEvent) (hboot : c.Booted)
    (hfits : Fitting c es) :
    (c.run es).slot.Holds (Wanted.run { line := none, forced := false } c es) := by
  have hstart : Agree c.slot { line := none, forced := false } := by
    refine ⟨by simp [hboot.2.1], by simp [hboot.1], by simp [hboot.1], ?_⟩
    rw [hboot.1]
    exact List.nil_prefix
  have hrun := hstart.run es hfits
  exact ⟨hrun.short, hrun.bytes⟩

/-- A booted channel. -/
def StatusChannel.boot : StatusChannel where
  slot := { buf := fun _ => 0, len := 0, seen := 0, tail := (0, 0), force := 0, lastError := 0 }
  line := []
  fifo := []

/-- `"12,SEND ERROR: 9"`, behind an idle poll. -/
theorem held_is_first_kept_sendError :
    let es : List StatusEvent :=
      [ .reply [0x30, 0x32, 0x2c, 0x4e, 0x4f, 0x20, 0x44, 0x41, 0x54, 0x41, 0x3a, 0x20, 0x31, 0x31],
        .drain fun _ => 0, .noData,
        .reply [0x31, 0x32, 0x2c, 0x53, 0x45, 0x4e, 0x44, 0x20, 0x45, 0x52, 0x52, 0x4f, 0x52, 0x3a,
          0x20, 0x39], .drain fun _ => 0 ]
    (StatusChannel.boot.run es).slot.Holds
      (Wanted.run { line := none, forced := false } StatusChannel.boot es) :=
  held_is_first_kept StatusChannel.boot _ ⟨rfl, rfl, rfl⟩
    ⟨True.intro, Or.inr (Or.inr ⟨rfl, by decide⟩), Or.inl (by decide), True.intro,
      Or.inr (Or.inr ⟨rfl, by decide⟩), True.intro⟩

/-- `"85,ERROR OPENING SOCKET"` makes the length 23. -/
theorem not_held_is_first_kept :
    let es : List StatusEvent :=
      [ .reply [0x38, 0x35, 0x2c, 0x45, 0x52, 0x52, 0x4f, 0x52, 0x20, 0x4f, 0x50, 0x45, 0x4e, 0x49,
          0x4e, 0x47, 0x20, 0x53, 0x4f, 0x43, 0x4b, 0x45, 0x54], .drain fun _ => 0 ]
    ¬ (StatusChannel.boot.run es).slot.Holds
      (Wanted.run { line := none, forced := false } StatusChannel.boot es) := by
  intro es hholds
  have hlen : (StatusChannel.boot.run es).slot.len = 23 := by decide
  have hshort := hholds.1
  rw [hlen] at hshort
  exact absurd hshort (by decide)

end Net
end C64Https
