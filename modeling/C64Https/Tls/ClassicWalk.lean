import C64Https.Tls.ServerHello

/-!
# ClassicWalk — the extensions of a ServerHello (`src/tls_handshake.s`)

`tls_parse_server_hello` goes from extension to extension with an 8-bit index into the record buffer,
and counts down what is left of the block in 16 bits that wrap.  The way it goes is a matter of the
buffer alone (`ExtPath`); where on that way it stops is a matter of the sums.  When no extension on it
is refused and the sizes never add up to the length of the block, it goes round for ever
(`tlsParseServerHello_ends_iff`).
-/

namespace C64Https
namespace Tls

open Word Loop Bytes

/-! ## The way of the walk -/

/-- The record buffer as an 8-bit index sees it. -/
def wrapped (buf : Buffer) : Buffer :=
  fun i => buf (i % 256)

def IsVersion (buf : Buffer) (y : Nat) : Prop :=
  wrapped buf y = 0 ∧ wrapped buf (y + 1) = 0x2b

def IsShare (buf : Buffer) (y : Nat) : Prop :=
  wrapped buf y = 0 ∧ wrapped buf (y + 1) = 0x33

instance (buf : Buffer) (y : Nat) : Decidable (IsVersion buf y) :=
  inferInstanceAs (Decidable (_ ∧ _))

instance (buf : Buffer) (y : Nat) : Decidable (IsShare buf y) :=
  inferInstanceAs (Decidable (_ ∧ _))

/-- What is taken off the bytes remaining for the extension at `y`: its header, and the two bytes of
its length one after the other. -/
def extTaken (buf : Buffer) (y : Nat) : Nat :=
  4 + (wrapped buf (y + 3)).toNat + (wrapped buf (y + 2)).toNat

/-- Where the index is behind the extension at `y`; `none` where it is refused. -/
def extBehind (buf : Buffer) (y : Nat) : Option Nat :=
  if IsVersion buf y then
    if wrapped buf (y + 4) = 3 ∧ wrapped buf (y + 5) = 4 then some ((y + 6) % 256) else none
  else if IsShare buf y then
    if wrapped buf (y + 4) = 0 ∧ wrapped buf (y + 5) = 0x1d ∧ wrapped buf (y + 6) = 0 ∧
        wrapped buf (y + 7) = 0x20 then
      some ((y + 40) % 256)
    else none
  else if wrapped buf (y + 2) ≠ 0 then none
  else some ((y + 4 + (wrapped buf (y + 3)).toNat) % 256)

/-- From one place to another over the extensions in between. -/
inductive ExtPath (buf : Buffer) : Nat → List Nat → Nat → Prop where
  | nil (y : Nat) : ExtPath buf y [] y
  | cons {y y₁ y₂ : Nat} {ys : List Nat} : extBehind buf y = some y₁ → ExtPath buf y₁ ys y₂ →
      ExtPath buf y (y :: ys) y₂

/-- What is taken off for all of them. -/
def pathTaken (buf : Buffer) (ys : List Nat) : Nat :=
  (ys.map (extTaken buf)).sum

/-! ## One turn -/

variable {buf : Buffer}

/-- The bytes remaining. -/
def ShParse.rem (p : ShParse) : Nat :=
  word p.remHi p.remLo

theorem ShParse.rem_less (p : ShParse) (n : UInt8) : (p.less n).rem = sub16 p.rem n.toNat := by
  have hhi := p.remHi.toNat_lt
  have hlo := p.remLo.toNat_lt
  have hn := n.toNat_lt
  unfold less rem word sub16
  dsimp only
  rw [UInt8.toNat_sub]
  split
  case isTrue hlt =>
    rw [UInt8.lt_iff_toNat_lt] at hlt
    rw [UInt8.toNat_sub]
    have hone : (1 : UInt8).toNat = 1 := rfl
    omega
  case isFalse hge =>
    rw [UInt8.lt_iff_toNat_lt] at hge
    omega

theorem ShParse.rem_eq_zero {p : ShParse} : p.remLo ||| p.remHi = 0 ↔ p.rem = 0 := by
  have hor : p.remLo ||| p.remHi = 0 ↔ p.remLo = 0 ∧ p.remHi = 0 := by
    rw [UInt8.or_eq_zero_iff]
  have hzero : ∀ b : UInt8, b.toNat = 0 ↔ b = 0 := fun b =>
    ⟨fun h => UInt8.toNat.inj h, fun h => by rw [h]; rfl⟩
  rw [hor, ← hzero, ← hzero]
  unfold rem word
  omega

theorem ShParse.at_eq (p : ShParse) (n : Nat) : p.at buf n = wrapped buf (p.y + n) :=
  rfl

/-- What a turn does to the place and to the bytes remaining, and to the rest. -/
structure ExtStep (buf : Buffer) (p p' : ShParse) : Prop where
  behind : extBehind buf p.y = some p'.y
  rem : p'.rem = sub16 p.rem (extTaken buf p.y)
  foundVer : p'.foundVer = if IsVersion buf p.y then p.foundVer + 1 else p.foundVer
  foundKs : p'.foundKs = if IsShare buf p.y then p.foundKs + 1 else p.foundKs
  pubkey : p'.serverPubkey =
    if IsShare buf p.y then (List.range 32).map (fun i => wrapped buf (p.y + 8 + i))
    else p.serverPubkey

theorem sub16_sub16 (a b c : Nat) : sub16 (sub16 a b) c = sub16 a (b + c) := by
  unfold sub16
  omega

theorem wrapped_mod (buf : Buffer) (y n : Nat) : wrapped buf (y % 256 + n) = wrapped buf (y + n) := by
  unfold wrapped
  rw [Nat.mod_add_mod]

/-- Behind the header of an extension. -/
def ShParse.header (p : ShParse) (buf : Buffer) : ShParse :=
  (((p.skip 4).less 4).less (p.at buf 3)).less (p.at buf 2)

theorem ShParse.header_rem (p : ShParse) (buf : Buffer) :
    (p.header buf).rem = sub16 p.rem (extTaken buf p.y) := by
  have hskip : (p.skip 4).rem = p.rem := rfl
  unfold header extTaken
  rw [rem_less, rem_less, rem_less, hskip, sub16_sub16, sub16_sub16, at_eq, at_eq, Nat.add_assoc]
  rfl

theorem ShParse.header_at (p : ShParse) (buf : Buffer) (n : Nat) :
    (p.header buf).at buf n = wrapped buf (p.y + 4 + n) :=
  wrapped_mod buf (p.y + 4) n

/-- With nothing left the walk ends, and the two extensions must have been seen. -/
theorem shExtTurn_done {p : ShParse} (h : p.rem = 0) :
    shExtTurn buf p = .leave (p, decide (p.foundVer ≠ 0) && decide (p.foundKs ≠ 0)) := by
  unfold shExtTurn
  rw [if_pos (ShParse.rem_eq_zero.2 h)]

/-- The three kinds of extension. -/
theorem shExtTurn_eq {p : ShParse} (h : p.rem ≠ 0) :
    shExtTurn buf p =
      if IsVersion buf p.y then shSupVer buf (p.header buf)
      else if IsShare buf p.y then shKeyShare buf (p.header buf)
      else if wrapped buf (p.y + 2) ≠ 0 then .leave (p.header buf, false)
      else .again ((p.header buf).skip (p.at buf 3).toNat) := by
  unfold shExtTurn
  rw [if_neg (fun hz => h (ShParse.rem_eq_zero.1 hz))]
  rfl

/-- The walk stops at an extension that is refused. -/
theorem shExtTurn_refused {p : ShParse} (h : p.rem ≠ 0) (hno : extBehind buf p.y = none) :
    ∃ q, shExtTurn buf p = .leave (q, false) := by
  rw [shExtTurn_eq h]
  unfold extBehind at hno
  -- of the two kinds, the first byte that differs refuses
  by_cases hver : IsVersion buf p.y
  · rw [if_pos hver] at hno
    rw [if_pos hver]
    unfold shSupVer
    rw [ShParse.header_at, ShParse.header_at]
    by_cases h₀ : wrapped buf (p.y + 4) = 3
    · by_cases h₁ : wrapped buf (p.y + 5) = 4
      · rw [if_pos ⟨h₀, h₁⟩] at hno
        cases hno
      · rw [if_neg (not_not.2 h₀), if_pos h₁]
        exact ⟨_, rfl⟩
    · rw [if_pos h₀]
      exact ⟨_, rfl⟩
  rw [if_neg hver] at hno
  rw [if_neg hver]
  by_cases hks : IsShare buf p.y
  · rw [if_pos hks] at hno
    rw [if_pos hks]
    unfold shKeyShare
    rw [ShParse.header_at, ShParse.header_at, ShParse.header_at, ShParse.header_at]
    by_cases h₀ : wrapped buf (p.y + 4) = 0
    · rw [if_neg (not_not.2 h₀)]
      by_cases h₁ : wrapped buf (p.y + 5) = 0x1d
      · rw [if_neg (not_not.2 h₁)]
        by_cases h₂ : wrapped buf (p.y + 6) = 0
        · rw [if_neg (not_not.2 h₂)]
          by_cases h₃ : wrapped buf (p.y + 7) = 0x20
          · rw [if_pos ⟨h₀, h₁, h₂, h₃⟩] at hno
            cases hno
          · rw [if_pos h₃]
            exact ⟨_, rfl⟩
        · rw [if_pos h₂]
          exact ⟨_, rfl⟩
      · rw [if_pos h₁]
        exact ⟨_, rfl⟩
    · rw [if_pos h₀]
      exact ⟨_, rfl⟩
  rw [if_neg hks] at hno
  rw [if_neg hks]
  -- of any other, a length of 256 or more
  by_cases hhi : wrapped buf (p.y + 2) = 0
  · rw [if_neg (not_not.2 hhi)] at hno
    cases hno
  · rw [if_pos hhi]
    exact ⟨_, rfl⟩

/-- Over any other extension it goes on. -/
theorem shExtTurn_again {p : ShParse} {y : Nat} (h : p.rem ≠ 0) (hyes : extBehind buf p.y = some y) :
    ∃ p', shExtTurn buf p = .again p' ∧ p'.y = y ∧ ExtStep buf p p' := by
  rw [shExtTurn_eq h]
  have hrem := p.header_rem buf
  have hskip : ∀ n, ((p.y + 4) % 256 + n) % 256 = (p.y + 4 + n) % 256 := fun n => Nat.mod_add_mod _ _ _
  have hbehind := hyes
  unfold extBehind at hbehind
  by_cases hver : IsVersion buf p.y
  · -- an extension has one type
    have hks : ¬ IsShare buf p.y := by
      rintro ⟨-, hks⟩
      rw [hver.2] at hks
      exact absurd hks (by decide)
    rw [if_pos hver] at hbehind
    split at hbehind
    case isFalse => cases hbehind
    case isTrue hbytes =>
      have hy : (p.y + 6) % 256 = y := Option.some.inj hbehind
      refine ⟨{ (p.header buf).skip 2 with foundVer := (p.header buf).foundVer + 1 }, ?_, ?_, ?_⟩
      · rw [if_pos hver]
        unfold shSupVer
        rw [ShParse.header_at, ShParse.header_at, if_neg (not_not.2 hbytes.1),
          if_neg (not_not.2 hbytes.2)]
      · exact (hskip 2).trans hy
      · refine ⟨?_, hrem, ?_, ?_, ?_⟩
        · exact hyes.trans (congrArg some ((hskip 2).trans hy).symm)
        · rw [if_pos hver]
          rfl
        · rw [if_neg hks]
          rfl
        · rw [if_neg hks]
          rfl
  rw [if_neg hver] at hbehind
  by_cases hks : IsShare buf p.y
  · rw [if_pos hks] at hbehind
    split at hbehind
    case isFalse => cases hbehind
    case isTrue hbytes =>
      obtain ⟨h₀, h₁, h₂, h₃⟩ := hbytes
      have hy : (p.y + 40) % 256 = y := Option.some.inj hbehind
      -- four bytes of header, four of the entry and 32 of the key
      have hplace : (((p.y + 4) % 256 + 4) % 256 + 32) % 256 = y := by
        omega
      refine ⟨{ (((p.header buf).skip 4).skip 32) with
          serverPubkey := ((p.header buf).skip 4).span buf 32
          foundKs := (p.header buf).foundKs + 1 }, ?_, hplace, ?_⟩
      · rw [if_neg hver, if_pos hks]
        unfold shKeyShare
        rw [ShParse.header_at, ShParse.header_at, ShParse.header_at, ShParse.header_at,
          if_neg (not_not.2 h₀), if_neg (not_not.2 h₁), if_neg (not_not.2 h₂), if_neg (not_not.2 h₃)]
        rfl
      · refine ⟨hyes.trans (congrArg some hplace.symm), hrem, ?_, ?_, ?_⟩
        · rw [if_neg hver]
          rfl
        · rw [if_pos hks]
          rfl
        · rw [if_pos hks]
          unfold ShParse.span
          refine List.map_congr_left ?_
          intro i _
          have hmod : ((p.header buf).skip 4).y = (p.y + 8) % 256 := hskip 4
          rw [ShParse.at_eq, hmod, wrapped_mod]
  rw [if_neg hks] at hbehind
  split at hbehind
  case isTrue => cases hbehind
  case isFalse hhi =>
    have hy : (p.y + 4 + (wrapped buf (p.y + 3)).toNat) % 256 = y := Option.some.inj hbehind
    refine ⟨(p.header buf).skip (p.at buf 3).toNat, ?_, (hskip _).trans hy, ?_⟩
    · rw [if_neg hver, if_neg hks, if_neg hhi]
    · refine ⟨hyes.trans (congrArg some ((hskip _).trans hy).symm), hrem, ?_, ?_, ?_⟩
      · rw [if_neg hver]
        rfl
      · rw [if_neg hks]
        rfl
      · rw [if_neg hks]
        rfl

/-! ## The loop -/

theorem ShParse.rem_lt (p : ShParse) : p.rem < 65536 :=
  word_lt _ _

/-- The sum of the sizes from here on, and from behind one extension on. -/
theorem taken_iff {p p' : ShParse} (h : ExtStep buf p p') (ys : List Nat) :
    pathTaken buf (p.y :: ys) % 65536 = p.rem ↔ pathTaken buf ys % 65536 = p'.rem := by
  have hlt := p.rem_lt
  have hsum : pathTaken buf (p.y :: ys) = extTaken buf p.y + pathTaken buf ys := rfl
  rw [hsum, h.rem]
  unfold sub16
  omega

/-- The loop ends if and only if the way comes to an extension that is refused, or to a place where
the sizes behind it add up to what remains. -/
theorem loop_ends_iff {p : ShParse} :
    (∃ fuel r, loop (shExtTurn buf) fuel p = some r) ↔
      ∃ ys y, ExtPath buf p.y ys y ∧ (extBehind buf y = none ∨ pathTaken buf ys % 65536 = p.rem) := by
  constructor
  · rintro ⟨fuel, r, hrun⟩
    induction fuel generalizing p with
    | zero => cases hrun
    | succ fuel ih =>
        by_cases hrem : p.rem = 0
        · exact ⟨[], p.y, .nil _, Or.inr hrem.symm⟩
        cases hbehind : extBehind buf p.y with
        | none => exact ⟨[], p.y, .nil _, Or.inl hbehind⟩
        | some y =>
            obtain ⟨p', hturn, rfl, hstep⟩ := shExtTurn_again hrem hbehind
            rw [loop_again hturn] at hrun
            obtain ⟨ys, y', hpath, hend⟩ := ih hrun
            exact ⟨p.y :: ys, y', .cons hbehind hpath, hend.imp_right (taken_iff hstep ys).2⟩
  · rintro ⟨ys, y, hpath, hend⟩
    generalize hy : p.y = y₀ at hpath
    induction hpath generalizing p with
    | nil y₀ =>
        subst hy
        by_cases hrem : p.rem = 0
        · exact ⟨1, _, loop_leave (shExtTurn_done hrem)⟩
        · rcases hend with hno | hsum
          · obtain ⟨q, hturn⟩ := shExtTurn_refused hrem hno
            exact ⟨1, _, loop_leave hturn⟩
          · exact absurd hsum.symm hrem
    | cons hbehind _ ih =>
        subst hy
        by_cases hrem : p.rem = 0
        · exact ⟨1, _, loop_leave (shExtTurn_done hrem)⟩
        · obtain ⟨p', hturn, hy', hstep⟩ := shExtTurn_again hrem hbehind
          obtain ⟨fuel, r, hrun⟩ := ih (hend.imp_right (taken_iff hstep _).1) hy'
          exact ⟨fuel + 1, r, (loop_again hturn).trans hrun⟩

/-! ## The fields before the extensions -/

/-- The length of the session id. -/
def sidLen (buf : Buffer) : Nat :=
  (buf 38).toNat

/-- Where the extensions begin. -/
def extStart (buf : Buffer) : Nat :=
  (44 + sidLen buf) % 256

/-- The length that the extension block declares. -/
def extBlock (buf : Buffer) : Nat :=
  word (wrapped buf (42 + sidLen buf)) (wrapped buf (43 + sidLen buf))

/-- Type, random, cipher suite or compression method are refused. -/
def HeadRefused (buf : Buffer) : Prop :=
  buf 0 ≠ hsServerHello ∨ bytesAt buf 6 32 = hrrMagic ∨ wrapped buf (39 + sidLen buf) ≠ 0x13 ∨
    wrapped buf (40 + sidLen buf) ≠ 0x03 ∨ wrapped buf (41 + sidLen buf) ≠ 0

/-- What the walk starts from. -/
def walkStart (buf : Buffer) (p : ShParse) : ShParse :=
  { p with
    shErr := .none
    serverRandom := bytesAt buf 6 32
    y := extStart buf
    remHi := wrapped buf (42 + sidLen buf)
    remLo := wrapped buf (43 + sidLen buf)
    foundVer := 0
    foundKs := 0 }

theorem span_random (buf : Buffer) (p : ShParse) :
    (({ p with shErr := .none, y := 0 } : ShParse).skip 6).span buf 32 = bytesAt buf 6 32 := by
  unfold ShParse.span bytesAt
  refine List.map_congr_left ?_
  intro i hi
  have hlt := List.mem_range.1 hi
  show buf ((6 + i) % 256) = buf (6 + i)
  rw [Nat.mod_eq_of_lt (by omega)]

/-- The fields, and then the walk. -/
theorem tlsParseServerHello_eq (fuel : Nat) (buf : Buffer) (p : ShParse) :
    (HeadRefused buf ∧ ∃ q, tlsParseServerHello fuel buf p = some (q, false)) ∨
      (¬ HeadRefused buf ∧
        tlsParseServerHello fuel buf p = loop (shExtTurn buf) fuel (walkStart buf p)) := by
  -- the cursor behind the session id
  have hfield : ∀ (q : ShParse) (n : Nat), q.y = (38 + (1 + (buf 38).toNat)) % 256 →
      q.at buf n = wrapped buf (39 + n + sidLen buf) := by
    intro q n hq
    rw [ShParse.at_eq, hq, wrapped_mod]
    congr 1
    unfold sidLen
    omega
  unfold tlsParseServerHello
  dsimp only
  rw [span_random]
  split
  case isTrue h => exact Or.inl ⟨Or.inl h, _, rfl⟩
  case isFalse h₀ =>
    split
    case isTrue h => exact Or.inl ⟨Or.inr (Or.inl (beq_iff_eq.1 h)), _, rfl⟩
    case isFalse hhrr =>
      rw [hfield _ 0 rfl, hfield _ 1 rfl, hfield _ 2 rfl, hfield _ 3 rfl, hfield _ 4 rfl]
      split
      case isTrue h => exact Or.inl ⟨Or.inr (Or.inr (Or.inl h)), _, rfl⟩
      case isFalse h₁ =>
        split
        case isTrue h => exact Or.inl ⟨Or.inr (Or.inr (Or.inr (Or.inl h))), _, rfl⟩
        case isFalse h₂ =>
          split
          case isTrue h => exact Or.inl ⟨Or.inr (Or.inr (Or.inr (Or.inr h))), _, rfl⟩
          case isFalse h₃ =>
            refine Or.inr ⟨?_, ?_⟩
            · rintro (h | h | h | h | h)
              · exact h₀ h
              · exact hhrr (beq_iff_eq.2 h)
              · exact h₁ h
              · exact h₂ h
              · exact h₃ h
            · have hy : ((38 + (1 + (buf 38).toNat)) % 256 + 5) % 256 = extStart buf := by
                unfold extStart sidLen
                omega
              refine congrArg (loop (shExtTurn buf) fuel) ?_
              unfold walkStart
              rw [← hy]
              rfl

/-! ## Whether the parse ends -/

/-- The parse ends if and only if a field before the extensions is refused, or the way over the
extensions comes to one that is refused, or their sizes add up to the length of the block, in 16
bits. -/
theorem tlsParseServerHello_ends_iff (buf : Buffer) (p : ShParse) :
    (∃ fuel r, tlsParseServerHello fuel buf p = some r) ↔
      HeadRefused buf ∨ ∃ ys y, ExtPath buf (extStart buf) ys y ∧
        (extBehind buf y = none ∨ pathTaken buf ys % 65536 = extBlock buf) := by
  have hloop := @loop_ends_iff buf (walkStart buf p)
  constructor
  · rintro ⟨fuel, r, hrun⟩
    rcases tlsParseServerHello_eq fuel buf p with ⟨hno, -⟩ | ⟨-, heq⟩
    · exact Or.inl hno
    · rw [heq] at hrun
      exact Or.inr (hloop.1 ⟨fuel, r, hrun⟩)
  · rintro (hno | hpath)
    · rcases tlsParseServerHello_eq 0 buf p with ⟨-, q, heq⟩ | ⟨hyes, -⟩
      · exact ⟨0, _, heq⟩
      · exact absurd hno hyes
    · by_cases hno : HeadRefused buf
      · rcases tlsParseServerHello_eq 0 buf p with ⟨-, q, heq⟩ | ⟨hyes, -⟩
        · exact ⟨0, _, heq⟩
        · exact absurd hno hyes
      · obtain ⟨fuel, r, hrun⟩ := hloop.2 hpath
        rcases tlsParseServerHello_eq fuel buf p with ⟨hbad, -⟩ | ⟨-, heq⟩
        · exact absurd hbad hno
        · exact ⟨fuel, r, heq.trans hrun⟩

/-- A record of 48 bytes whose one extension is 208 bytes long: the index comes back to the beginning
of the record, where the header of the message reads as an extension of 40 bytes. -/
def roundHello : Buffer :=
  ofList ([0x02, 0x00, 0x00, 0x28, 0x03, 0x03] ++ List.replicate 32 0x00 ++
    [0x00, 0x13, 0x03, 0x00, 0x00, 0x01, 0xaa, 0xaa, 0x00, 0xd0]) (fun _ => 0)

theorem not_tlsParseServerHello_ends :
    ¬ ∃ fuel p r, tlsParseServerHello fuel roundHello p = some r := by
  rintro ⟨fuel, p, r, hrun⟩
  have h44 : extBehind roundHello 44 = some 0 := by decide +kernel
  have h0 : extBehind roundHello 0 = some 44 := by decide +kernel
  have ht44 : extTaken roundHello 44 = 212 := by decide +kernel
  have ht0 : extTaken roundHello 0 = 44 := by decide +kernel
  have hhead : ¬ HeadRefused roundHello := by
    rintro (h | h | h | h | h)
    · exact h (by decide +kernel)
    · exact absurd h (by decide +kernel)
    · exact h (by decide +kernel)
    · exact h (by decide +kernel)
    · exact h (by decide +kernel)
  rcases tlsParseServerHello_eq fuel roundHello p with ⟨hno, -⟩ | ⟨-, heq⟩
  · exact absurd hno hhead
  rw [heq] at hrun
  refine absurd (hrun.symm.trans ?_) (Option.some_ne_none r)
  -- the low byte of what remains is 1 at the one place and 45 at the other
  refine loop_diverges
    (fun q => (q.y = 44 ∧ q.rem % 256 = 1) ∨ (q.y = 0 ∧ q.rem % 256 = 45)) ?_ _ _ (Or.inl ?_)
  · rintro q (⟨hy, hrem⟩ | ⟨hy, hrem⟩)
    · obtain ⟨q', hturn, hy', hstep⟩ := @shExtTurn_again roundHello q 0 (by omega) (by rw [hy, h44])
      refine ⟨q', hturn, Or.inr ⟨hy', ?_⟩⟩
      rw [hstep.rem, hy, ht44]
      unfold sub16
      omega
    · obtain ⟨q', hturn, hy', hstep⟩ := @shExtTurn_again roundHello q 44 (by omega) (by rw [hy, h0])
      refine ⟨q', hturn, Or.inl ⟨hy', ?_⟩⟩
      rw [hstep.rem, hy, ht0]
      unfold sub16
      omega
  · refine ⟨show extStart roundHello = 44 by decide +kernel, ?_⟩
    show extBlock roundHello % 256 = 1
    decide +kernel

end Tls
end C64Https
