import C64Https.X509.Hostname

/-!
# MatchName — the name and the host (`src/x509_name.s`)

`match_name` as the machine runs it: the indices `y` into the name and `x` into the host have one
byte, `tmp` and `clen` serve several purposes, and the cursor and the length of the name are those of
the caller, who passes over the name with them when it does not match.  It decides whether the name
is the host's (`matchNameAt_iff`).
-/

namespace C64Https
namespace X509

open Word Loop Bytes

/-! ## The routine -/

/-- The registers and variables of `match_name`: `zp_ptr` and `der_len` are the caller's. -/
structure MatchState where
  zpPtr : Nat
  derLen : Nat
  y : Nat := 0
  x : Nat := 0
  tmp : UInt8 := 0
  clen : Nat := 0
  deriving Repr

/-- One turn of `@scan_dot`; `none` is `no_match`. -/
def scanDotTurn (m : Buffer) (s : MatchState) : Turn MatchState (Option MatchState) :=
  if s.derLen ≤ s.y then .leave none
  else if peek m (s.zpPtr + s.y) = dot then .leave (some s)
  else
    let s := { s with y := inc8 s.y }
    if s.y = 0 then .leave (some s) else .again s

/-- One turn of `@find_dot`, in the host `hb` of `hl` bytes. -/
def findDotTurn (hb : Buffer) (hl : Nat) (s : MatchState) : Turn MatchState (Option MatchState) :=
  if hl ≤ s.x then .leave none
  else if hb s.x = dot then .leave (some s)
  else
    let s := { s with x := inc8 s.x }
    if s.x = 0 then .leave (some s) else .again s

/-- One turn of `@cmp_loop`. -/
def compareTurn (m hb : Buffer) (s : MatchState) : Turn MatchState (MatchState × Bool) :=
  if s.derLen ≤ s.y then .leave (s, true)
  else
    let s := { s with tmp := toLower (peek m (s.zpPtr + s.y)) }
    if toLower (hb s.x) ≠ s.tmp then .leave (s, false)
    else
      let s := { s with y := inc8 s.y, x := inc8 s.x }
      if s.x = 0 then .leave (s, true) else .again s

/-- `@lengths`, and the loop behind it. -/
def compareFrom (m hb : Buffer) (hl n : Nat) (s : MatchState) : Option (MatchState × Bool) :=
  let s := { s with clen := (s.derLen + 256 - s.y) % 256, tmp := UInt8.ofNat s.x }
  if (hl + 256 - s.x) % 256 ≠ s.clen then some (s, false)
  else loop (compareTurn m hb) n s

/-- `match_name`, with a bound on the turns of each loop; `true` for carry clear. -/
def matchNameAt (m hb : Buffer) (hl n : Nat) (s : MatchState) : Option (MatchState × Bool) :=
  if 256 ≤ s.derLen then some (s, false)
  else if s.derLen = 0 then some (s, false)
  else
    let s := { s with y := 0, x := 0 }
    if peek m (s.zpPtr + s.y) ≠ star then compareFrom m hb hl n s
    else if s.derLen < 3 then some (s, false)
    else
      let s := { s with y := 1 }
      if peek m (s.zpPtr + s.y) ≠ dot then some (s, false)
      else
        let s := { s with y := 2, tmp := 0 }
        match loop (scanDotTurn m) n s with
        | none => none
        | some none => some (s, false)
        | some (some s) =>
            let s := { s with y := 2 }
            match loop (findDotTurn hb hl) n s with
            | none => none
            | some none => some (s, false)
            | some (some s) => compareFrom m hb hl n { s with x := inc8 s.x }

/-! ## The loops -/

variable {m hb : Buffer}

/-- The name as the cursor shows it. -/
def nameView (m : Buffer) (p : Nat) : Buffer :=
  fun i => peek m (p + i)

theorem bytesFrom_eq (m : Buffer) (p n : Nat) : bytesFrom m p n = bytesAt (nameView m p) 0 n := by
  unfold bytesFrom bytesAt nameView
  simp only [Nat.zero_add]

/-- The same cursor and length. -/
def SameName (s s' : MatchState) : Prop :=
  s'.zpPtr = s.zpPtr ∧ s'.derLen = s.derLen

theorem compareTurn_run (k : Nat) : ∀ (n : Nat) (s : MatchState), k < n → s.y + k = s.derLen →
    s.derLen < 256 → s.x + k < 256 →
    ∃ s', SameName s s' ∧ loop (compareTurn m hb) n s =
      some (s', (bytesAt (nameView m s.zpPtr) s.y k).map toLower ==
        (bytesAt hb s.x k).map toLower) := by
  induction k with
  | zero =>
      intro n s hn hy _ _
      obtain ⟨n, rfl⟩ := Nat.exists_eq_add_of_lt hn
      refine ⟨s, ⟨rfl, rfl⟩, ?_⟩
      have hturn : compareTurn m hb s = .leave (s, true) := by
        unfold compareTurn
        rw [if_pos (by omega)]
      rw [Nat.zero_add, loop_leave hturn]
      simp
  | succ k ih =>
      intro n s hn hy hlen hx
      obtain ⟨n, rfl⟩ : ∃ j, n = j + 1 := ⟨n - 1, by omega⟩
      have hnot : ¬ s.derLen ≤ s.y := by
        omega
      rw [bytesAt_succ, bytesAt_succ, List.map_cons, List.map_cons]
      by_cases heq : toLower (hb s.x) = toLower (peek m (s.zpPtr + s.y))
      · have hyinc : inc8 s.y = s.y + 1 := inc8_of_lt (by omega)
        have hxinc : inc8 s.x = s.x + 1 := inc8_of_lt (by omega)
        have hturn : compareTurn m hb s = .again { s with
            tmp := toLower (peek m (s.zpPtr + s.y)), y := s.y + 1, x := s.x + 1 } := by
          unfold compareTurn
          rw [if_neg hnot]
          dsimp only
          rw [if_neg (not_not.2 heq), hyinc, hxinc, if_neg (Nat.succ_ne_zero _)]
        obtain ⟨s', hsame, hrun⟩ := ih n { s with
            tmp := toLower (peek m (s.zpPtr + s.y)), y := s.y + 1, x := s.x + 1 }
          (by omega) (by dsimp only; omega) hlen (by dsimp only; omega)
        refine ⟨s', hsame, ?_⟩
        rw [loop_again hturn, hrun]
        have hhead : toLower (nameView m s.zpPtr s.y) = toLower (hb s.x) := heq.symm
        rw [hhead]
        simp
      · have hturn : compareTurn m hb s =
            .leave ({ s with tmp := toLower (peek m (s.zpPtr + s.y)) }, false) := by
          unfold compareTurn
          rw [if_neg hnot]
          dsimp only
          rw [if_pos heq]
        refine ⟨{ s with tmp := toLower (peek m (s.zpPtr + s.y)) }, ⟨rfl, rfl⟩, ?_⟩
        rw [loop_leave hturn]
        have hhead : ¬ toLower (nameView m s.zpPtr s.y) = toLower (hb s.x) := fun h => heq h.symm
        simp [hhead]

theorem scanDotTurn_run (k : Nat) : ∀ (n : Nat) (s : MatchState), k < n → s.y + k = s.derLen →
    s.derLen < 256 →
    (dot ∉ bytesAt (nameView m s.zpPtr) s.y k ∧ loop (scanDotTurn m) n s = some none) ∨
    (dot ∈ bytesAt (nameView m s.zpPtr) s.y k ∧
      ∃ y, loop (scanDotTurn m) n s = some (some { s with y := y })) := by
  induction k with
  | zero =>
      intro n s hn hy _
      obtain ⟨n, rfl⟩ := Nat.exists_eq_add_of_lt hn
      have hturn : scanDotTurn m s = .leave none := by
        unfold scanDotTurn
        rw [if_pos (by omega)]
      rw [Nat.zero_add, loop_leave hturn]
      exact Or.inl ⟨by simp, rfl⟩
  | succ k ih =>
      intro n s hn hy hlen
      obtain ⟨n, rfl⟩ : ∃ j, n = j + 1 := ⟨n - 1, by omega⟩
      have hnot : ¬ s.derLen ≤ s.y := by
        omega
      rw [bytesAt_succ]
      by_cases hdot : peek m (s.zpPtr + s.y) = dot
      · have hturn : scanDotTurn m s = .leave (some s) := by
          unfold scanDotTurn
          rw [if_neg hnot, if_pos hdot]
        refine Or.inr ⟨List.mem_cons.2 (Or.inl hdot.symm), s.y, ?_⟩
        rw [loop_leave hturn]
      · have hinc : inc8 s.y = s.y + 1 := inc8_of_lt (by omega)
        have hturn : scanDotTurn m s = .again { s with y := s.y + 1 } := by
          unfold scanDotTurn
          rw [if_neg hnot, if_neg hdot]
          dsimp only
          rw [hinc, if_neg (Nat.succ_ne_zero _)]
        rw [loop_again hturn]
        have hne : ¬ dot = nameView m s.zpPtr s.y := fun h => hdot h.symm
        rcases ih n { s with y := s.y + 1 } (by omega) (by dsimp only; omega) hlen with
          ⟨hmem, hrun⟩ | ⟨hmem, y, hrun⟩
        · refine Or.inl ⟨?_, hrun⟩
          rw [List.mem_cons, not_or]
          exact ⟨hne, hmem⟩
        · exact Or.inr ⟨List.mem_cons.2 (Or.inr hmem), y, hrun⟩

theorem findDotTurn_run {hl : Nat} (k : Nat) : ∀ (n : Nat) (s : MatchState), k < n →
    s.x + k = hl → hl < 256 →
    (behindDot (bytesAt hb s.x k) = none ∧ loop (findDotTurn hb hl) n s = some none) ∨
    ∃ x, x < hl ∧ behindDot (bytesAt hb s.x k) = some (bytesAt hb (x + 1) (hl - (x + 1))) ∧
      loop (findDotTurn hb hl) n s = some (some { s with x := x }) := by
  induction k with
  | zero =>
      intro n s hn hx _
      obtain ⟨n, rfl⟩ := Nat.exists_eq_add_of_lt hn
      have hturn : findDotTurn hb hl s = .leave none := by
        unfold findDotTurn
        rw [if_pos (by omega)]
      rw [Nat.zero_add, loop_leave hturn]
      exact Or.inl ⟨by simp [behindDot], rfl⟩
  | succ k ih =>
      intro n s hn hx hlen
      obtain ⟨n, rfl⟩ : ∃ j, n = j + 1 := ⟨n - 1, by omega⟩
      have hnot : ¬ hl ≤ s.x := by
        omega
      rw [bytesAt_succ]
      by_cases hdot : hb s.x = dot
      · have hturn : findDotTurn hb hl s = .leave (some s) := by
          unfold findDotTurn
          rw [if_neg hnot, if_pos hdot]
        refine Or.inr ⟨s.x, by omega, ?_, ?_⟩
        · have hk : hl - (s.x + 1) = k := by
            omega
          rw [hk]
          simp [behindDot, hdot]
        · rw [loop_leave hturn]
      · have hinc : inc8 s.x = s.x + 1 := inc8_of_lt (by omega)
        have hturn : findDotTurn hb hl s = .again { s with x := s.x + 1 } := by
          unfold findDotTurn
          rw [if_neg hnot, if_neg hdot]
          dsimp only
          rw [hinc, if_neg (Nat.succ_ne_zero _)]
        have hskip : behindDot (hb s.x :: bytesAt hb (s.x + 1) k) =
            behindDot (bytesAt hb (s.x + 1) k) := by
          unfold behindDot
          rw [List.dropWhile_cons_of_pos (by simpa using hdot)]
        rw [loop_again hturn, hskip]
        exact ih n { s with x := s.x + 1 } (by omega) (by dsimp only; omega) hlen

/-! ## The routine compares the strings -/

/-- What is left of the name and of the host is compared, lengths included. -/
theorem compareFrom_eq {hl n : Nat} {s : MatchState} (hn : 256 ≤ n) (hy : s.y ≤ s.derLen)
    (hlen : s.derLen < 256) (hx : s.x ≤ hl) (hhost : hl < 256) :
    ∃ s', SameName s s' ∧ compareFrom m hb hl n s =
      some (s', sameName (bytesAt (nameView m s.zpPtr) s.y (s.derLen - s.y))
        (bytesAt hb s.x (hl - s.x))) := by
  have hclen : (s.derLen + 256 - s.y) % 256 = s.derLen - s.y := by
    omega
  have hrest : (hl + 256 - s.x) % 256 = hl - s.x := by
    omega
  unfold compareFrom sameName
  dsimp only
  rw [hclen, hrest, length_bytesAt, length_bytesAt]
  by_cases heq : hl - s.x = s.derLen - s.y
  · rw [if_neg (not_not.2 heq), heq]
    obtain ⟨s', hsame, hrun⟩ := @compareTurn_run m hb (s.derLen - s.y) n { s with
        clen := s.derLen - s.y, tmp := UInt8.ofNat s.x }
      (by omega) (by dsimp only; omega) hlen (by dsimp only; omega)
    refine ⟨s', hsame, ?_⟩
    rw [hrun]
    simp
  · rw [if_pos heq]
    refine ⟨{ s with clen := s.derLen - s.y, tmp := UInt8.ofNat s.x }, ⟨rfl, rfl⟩, ?_⟩
    have hne : ¬ s.derLen - s.y = hl - s.x := fun h => heq h.symm
    simp [hne]

/-- The verdict is that on the two strings, and the cursor and the length are as they were. -/
theorem matchNameAt_eq {hl n : Nat} {s : MatchState} (hn : 256 ≤ n) (hlen : s.derLen < 256)
    (hhost : hl < 256) :
    ∃ s', SameName s s' ∧ matchNameAt m hb hl n s =
      some (s', matchName (bytesFrom m s.zpPtr s.derLen) (bytesAt hb 0 hl)) := by
  have hself : SameName s s := ⟨rfl, rfl⟩
  rw [bytesFrom_eq]
  unfold matchNameAt
  rw [if_neg (Nat.not_le_of_lt hlen)]
  by_cases hzero : s.derLen = 0
  · refine ⟨s, hself, ?_⟩
    rw [if_pos hzero, hzero, bytesAt_zero]
    rfl
  rw [if_neg hzero]
  dsimp only
  obtain ⟨k, hk⟩ : ∃ k, s.derLen = k + 1 := ⟨s.derLen - 1, by omega⟩
  have hcons : bytesAt (nameView m s.zpPtr) 0 s.derLen =
      peek m (s.zpPtr + 0) :: bytesAt (nameView m s.zpPtr) 1 k := by
    rw [hk, bytesAt_succ]
    rfl
  by_cases hstar : peek m (s.zpPtr + 0) = star
  · rw [if_neg (not_not.2 hstar)]
    by_cases hshort : s.derLen < 3
    · refine ⟨{ s with y := 0, x := 0 }, ⟨rfl, rfl⟩, ?_⟩
      have hlist : (peek m (s.zpPtr + 0) :: bytesAt (nameView m s.zpPtr) 1 k).length < 3 := by
        rw [← hcons, length_bytesAt]
        exact hshort
      rw [if_pos hshort, hcons]
      unfold matchName
      dsimp only
      rw [if_neg (not_not.2 hstar), if_pos hlist]
    rw [if_neg hshort]
    obtain ⟨j, hj⟩ : ∃ j, k = j + 1 := ⟨k - 1, by omega⟩
    have hlist : ¬ (peek m (s.zpPtr + 0) :: bytesAt (nameView m s.zpPtr) 1 k).length < 3 := by
      rw [← hcons, length_bytesAt]
      exact hshort
    have htail : bytesAt (nameView m s.zpPtr) 1 k =
        peek m (s.zpPtr + 1) :: bytesAt (nameView m s.zpPtr) 2 j := by
      rw [hj, bytesAt_succ]
      rfl
    -- the part of the name behind `*.`
    have hdrop : (peek m (s.zpPtr + 0) :: bytesAt (nameView m s.zpPtr) 1 k).drop 2 =
        bytesAt (nameView m s.zpPtr) 2 j := by
      rw [htail]
      rfl
    have hverdict : matchName (bytesAt (nameView m s.zpPtr) 0 s.derLen) (bytesAt hb 0 hl) =
        if peek m (s.zpPtr + 1) ≠ dot then false
        else if dot ∉ bytesAt (nameView m s.zpPtr) 2 j then false
        else (behindDot (bytesAt hb 0 hl)).elim false (sameName (bytesAt (nameView m s.zpPtr) 2 j)) := by
      rw [hcons]
      unfold matchName
      dsimp only
      rw [if_neg (not_not.2 hstar), if_neg hlist, hdrop, htail]
      have hhead : some (peek m (s.zpPtr + 1)) ≠ some dot ↔ peek m (s.zpPtr + 1) ≠ dot :=
        not_congr Option.some_inj
      refine if_congr hhead rfl ?_
      cases behindDot (bytesAt hb 0 hl) <;> rfl
    rw [hverdict]
    by_cases hdot : peek m (s.zpPtr + 1) = dot
    · rw [if_neg (not_not.2 hdot), if_neg (not_not.2 hdot)]
      have hlen₂ : s.derLen = 2 + j := by
        omega
      rcases @scanDotTurn_run m j n { s with y := 2, x := 0, tmp := 0 } (by omega)
        (by dsimp only; omega) hlen with ⟨hmem, hrun⟩ | ⟨hmem, y, hrun⟩
      · refine ⟨{ s with y := 2, x := 0, tmp := 0 }, ⟨rfl, rfl⟩, ?_⟩
        rw [hrun, if_pos hmem]
      rw [hrun, if_neg (not_not.2 hmem)]
      dsimp only
      rcases @findDotTurn_run hb hl hl n { s with y := 2, x := 0, tmp := 0 } (by omega)
        (Nat.zero_add hl) hhost with ⟨hnone, hrun₂⟩ | ⟨x, hx, hsome, hrun₂⟩
      · refine ⟨{ s with y := 2, x := 0, tmp := 0 }, ⟨rfl, rfl⟩, ?_⟩
        rw [hrun₂, hnone, Option.elim_none]
      · have hinc : inc8 x = x + 1 := inc8_of_lt (by omega)
        obtain ⟨s', hsame, hcompare⟩ := @compareFrom_eq m hb hl n
          { s with y := 2, x := x + 1, tmp := 0 } hn (by dsimp only; omega) hlen
          (by dsimp only; omega) hhost
        refine ⟨s', hsame, ?_⟩
        rw [hrun₂, hsome]
        dsimp only
        rw [hinc, hcompare]
        have hrest : s.derLen - 2 = j := by
          omega
        dsimp only
        rw [hrest, Option.elim_some]
    · refine ⟨{ s with y := 1, x := 0 }, ⟨rfl, rfl⟩, ?_⟩
      rw [if_pos hdot, if_pos hdot]
  · rw [if_pos hstar]
    obtain ⟨s', hsame, hcompare⟩ := @compareFrom_eq m hb hl n { s with y := 0, x := 0 } hn
      (Nat.zero_le _) hlen (Nat.zero_le _) hhost
    refine ⟨s', hsame, ?_⟩
    rw [hcompare]
    dsimp only
    rw [Nat.sub_zero, Nat.sub_zero]
    congr 2
    rw [hcons]
    unfold matchName
    dsimp only
    rw [if_pos hstar]

/-! ## Names and hosts -/

def IsUpper (c : UInt8) : Prop :=
  0x41 ≤ c ∧ c ≤ 0x5a

def IsHostChar (c : UInt8) : Prop :=
  IsUpper c ∨ (0x61 ≤ c ∧ c ≤ 0x7a) ∨ (0x30 ≤ c ∧ c ≤ 0x39) ∨ c = 0x2d ∨ c = dot

/-- A host that can be typed. -/
structure PromptHost (host : List UInt8) : Prop where
  length_le : host.length ≤ 63
  chars : ∀ c ∈ host, IsHostChar c
  labels : [] ∉ host.splitOn dot

/-- The same character, but for the case of a letter. -/
def EqFold (a b : UInt8) : Prop :=
  a = b ∨ (IsUpper a ∧ b = a + 0x20) ∨ (IsUpper b ∧ a = b + 0x20)

def SameFold (as bs : List UInt8) : Prop :=
  List.Forall₂ EqFold as bs

/-- The name is the host, or `*.` and a suffix that has a dot, where the host is one label before
that suffix. -/
def NameOf (name host : List UInt8) : Prop :=
  SameFold name host ∨
    ∃ suffix label rest, name = star :: dot :: suffix ∧ dot ∈ suffix ∧
      host = label ++ dot :: rest ∧ label ≠ [] ∧ dot ∉ label ∧ SameFold suffix rest

theorem toLower_of_upper {c : UInt8} (h : IsUpper c) : toLower c = c + 0x20 := by
  have hle : ¬ 0x5b ≤ c := by
    rw [UInt8.not_le]
    exact UInt8.lt_of_le_of_lt h.2 (by decide)
  unfold toLower
  rw [if_neg (UInt8.not_lt.2 h.1), if_neg hle]

theorem toLower_of_not_upper {c : UInt8} (h : ¬ IsUpper c) : toLower c = c := by
  unfold toLower
  split
  case isTrue => rfl
  case isFalse hge =>
    split
    case isTrue => rfl
    case isFalse hlt =>
      refine absurd ⟨UInt8.not_lt.1 hge, ?_⟩ h
      have := UInt8.not_le.1 hlt
      rw [UInt8.lt_iff_toNat_lt] at this
      rw [UInt8.le_iff_toNat_le]
      exact Nat.le_of_lt_succ this

theorem toLower_eq_iff (a b : UInt8) : toLower a = toLower b ↔ EqFold a b := by
  unfold EqFold
  by_cases ha : IsUpper a
  · rw [toLower_of_upper ha]
    by_cases hb : IsUpper b
    · rw [toLower_of_upper hb]
      have hnot : ∀ {c d : UInt8}, IsUpper c → IsUpper d → c ≠ d + 0x20 := by
        rintro c d ⟨-, hc⟩ ⟨hd, hd'⟩ rfl
        rw [UInt8.le_iff_toNat_le] at hc hd hd'
        rw [UInt8.toNat_add] at hc
        have h₁ : (0x20 : UInt8).toNat = 32 := rfl
        have h₂ : (0x41 : UInt8).toNat = 65 := rfl
        have h₃ : (0x5a : UInt8).toNat = 90 := rfl
        omega
      constructor
      · intro h
        exact Or.inl ((UInt8.add_left_inj 0x20).1 h)
      · rintro (rfl | ⟨-, h⟩ | ⟨-, h⟩)
        · rfl
        · exact absurd h (hnot hb ha)
        · exact absurd h (hnot ha hb)
    · rw [toLower_of_not_upper hb]
      constructor
      · intro h
        exact Or.inr (Or.inl ⟨ha, h.symm⟩)
      · rintro (rfl | ⟨-, h⟩ | ⟨h, -⟩)
        · exact absurd ha hb
        · exact h.symm
        · exact absurd h hb
  · rw [toLower_of_not_upper ha]
    by_cases hb : IsUpper b
    · rw [toLower_of_upper hb]
      constructor
      · intro h
        exact Or.inr (Or.inr ⟨hb, h⟩)
      · rintro (rfl | ⟨h, -⟩ | ⟨-, h⟩)
        · exact absurd hb ha
        · exact absurd h ha
        · exact h
    · rw [toLower_of_not_upper hb]
      constructor
      · exact Or.inl
      · rintro (h | ⟨h, -⟩ | ⟨h, -⟩)
        · exact h
        · exact absurd h ha
        · exact absurd h hb

theorem sameName_iff (as bs : List UInt8) : sameName as bs = true ↔ SameFold as bs := by
  have hmap : SameFold as bs ↔ as.map toLower = bs.map toLower := by
    unfold SameFold
    rw [← List.forall₂_eq_eq_eq, List.forall₂_map_left_iff, List.forall₂_map_right_iff]
    simp only [toLower_eq_iff]
  rw [hmap]
  unfold sameName
  rw [Bool.and_eq_true, decide_eq_true_iff, beq_iff_eq]
  constructor
  · exact fun h => h.2
  · intro h
    refine ⟨?_, h⟩
    have hlen := congrArg List.length h
    simpa using hlen

/-- What is behind the first dot. -/
theorem behindDot_iff {host rest : List UInt8} :
    behindDot host = some rest ↔ ∃ label, host = label ++ dot :: rest ∧ dot ∉ label := by
  induction host with
  | nil => simp [behindDot]
  | cons c host ih =>
      by_cases hc : c = dot
      · subst hc
        have hhead : behindDot (dot :: host) = some host := by
          simp [behindDot]
        rw [hhead]
        constructor
        · rintro ⟨⟩
          exact ⟨[], rfl, by simp⟩
        · rintro ⟨label, heq, hno⟩
          cases label with
          | nil =>
              cases heq
              rfl
          | cons d label =>
              rw [List.cons_append, List.cons.injEq] at heq
              exact absurd (List.mem_cons.2 (Or.inl heq.1)) hno
      · have hskip : behindDot (c :: host) = behindDot host := by
          unfold behindDot
          rw [List.dropWhile_cons_of_pos (by simpa using hc)]
        rw [hskip, ih]
        constructor
        · rintro ⟨label, rfl, hno⟩
          refine ⟨c :: label, rfl, ?_⟩
          rw [List.mem_cons, not_or]
          exact ⟨fun h => hc h.symm, hno⟩
        · rintro ⟨label, heq, hno⟩
          cases label with
          | nil =>
              rw [List.nil_append, List.cons.injEq] at heq
              exact absurd heq.1 hc
          | cons d label =>
              rw [List.cons_append, List.cons.injEq] at heq
              exact ⟨label, heq.2, fun h => hno (List.mem_cons.2 (Or.inr h))⟩

/-! ## A typed host -/

theorem PromptHost.not_nil {host : List UInt8} (h : PromptHost host) : host ≠ [] := by
  rintro rfl
  exact h.labels (by simp)

/-- Its first label is not empty. -/
theorem PromptHost.label_ne_nil {host label rest : List UInt8} (h : PromptHost host)
    (heq : host = label ++ dot :: rest) : label ≠ [] := by
  rintro rfl
  refine h.labels ?_
  rw [heq, List.nil_append, List.splitOn, List.splitOnP_cons_eq_if_modifyHead, if_pos (by simp)]
  exact List.mem_cons_self

/-- No wildcard is the same as a host. -/
theorem PromptHost.no_star {host tail : List UInt8} (h : PromptHost host) :
    ¬ SameFold (star :: tail) host := by
  intro hsame
  rcases hsame with _ | ⟨hc, -⟩
  rename_i c cs
  have hne : ∀ c : UInt8, IsHostChar c → ¬ EqFold star c := by
    unfold IsHostChar EqFold IsUpper
    exact forall_byte (by decide +kernel)
  exact hne c (h.chars c List.mem_cons_self) hc

theorem matchName_iff {name host : List UInt8} (h : PromptHost host) :
    matchName name host = true ↔ NameOf name host := by
  unfold matchName NameOf
  cases name with
  | nil =>
      constructor
      · nofun
      · rintro (hsame | ⟨_, _, _, hname, -⟩)
        · cases hsame
          exact absurd rfl h.not_nil
        · cases hname
  | cons c tail =>
      dsimp only
      by_cases hc : c = star
      · subst hc
        rw [if_neg (not_not.2 rfl)]
        constructor
        · intro hmatch
          refine Or.inr ?_
          by_cases hshort : (star :: tail).length < 3
          · rw [if_pos hshort] at hmatch
            cases hmatch
          rw [if_neg hshort] at hmatch
          -- the star is a whole label
          by_cases hhead : tail.head? = some dot
          · rw [if_neg (not_not.2 hhead)] at hmatch
            obtain ⟨suffix, rfl⟩ := List.head?_eq_some_iff.1 hhead
            have hdrop : (star :: dot :: suffix).drop 2 = suffix := rfl
            rw [hdrop] at hmatch
            -- at least two labels stand behind it
            by_cases hdot : dot ∈ suffix
            · rw [if_neg (not_not.2 hdot)] at hmatch
              cases hbehind : behindDot host with
              | none =>
                  rw [hbehind] at hmatch
                  cases hmatch
              | some rest =>
                  rw [hbehind] at hmatch
                  obtain ⟨label, heq, hno⟩ := behindDot_iff.1 hbehind
                  exact ⟨suffix, label, rest, rfl, hdot, heq, h.label_ne_nil heq, hno,
                    (sameName_iff _ _).1 hmatch⟩
            · rw [if_pos hdot] at hmatch
              cases hmatch
          · rw [if_pos hhead] at hmatch
            cases hmatch
        · rintro (hsame | ⟨suffix, label, rest, hname, hdot, heq, -, hno, hsame⟩)
          · -- no host begins with a star
            exact absurd hsame h.no_star
          · cases hname
            have hlen : ¬ (star :: dot :: suffix).length < 3 := by
              have hpos := List.length_pos_of_mem hdot
              simp only [List.length_cons]
              omega
            have hdrop : (star :: dot :: suffix).drop 2 = suffix := rfl
            rw [if_neg hlen, if_neg (fun hne => hne rfl), hdrop, if_neg (not_not.2 hdot),
              behindDot_iff.2 ⟨label, heq, hno⟩]
            exact (sameName_iff _ _).2 hsame
      · rw [if_pos hc, sameName_iff]
        constructor
        · exact Or.inl
        · rintro (hsame | ⟨_, _, _, hname, -⟩)
          · exact hsame
          · cases hname
            exact absurd rfl hc

/-- The routine accepts the name if and only if it is the host's, and leaves the cursor and the
length to the caller as they were. -/
theorem matchNameAt_iff {m hb : Buffer} {hl n : Nat} {s : MatchState} (hn : 256 ≤ n)
    (hlen : s.derLen ≤ 255) (hhost : PromptHost (bytesAt hb 0 hl)) :
    ∃ s' b, matchNameAt m hb hl n s = some (s', b) ∧ SameName s s' ∧
      (b = true ↔ NameOf (bytesFrom m s.zpPtr s.derLen) (bytesAt hb 0 hl)) := by
  have hl63 := hhost.length_le
  rw [length_bytesAt] at hl63
  have hl256 : hl < 256 := lt_of_le_of_lt hl63 (by decide)
  obtain ⟨s', hsame, hrun⟩ := @matchNameAt_eq m hb hl n s hn (Nat.lt_succ_of_le hlen) hl256
  exact ⟨s', _, hrun, hsame, matchName_iff hhost⟩

/-- `*.b.c` and `a.b.c`. -/
theorem matchNameAt_iff_wildcard :
    ∃ s' b, matchNameAt (ofList [0x2a, 0x2e, 0x62, 0x2e, 0x63] (fun _ => 0))
        (ofList [0x61, 0x2e, 0x62, 0x2e, 0x63] (fun _ => 0)) 5 256 { zpPtr := 0, derLen := 5 } =
        some (s', b) ∧
      SameName { zpPtr := 0, derLen := 5 } s' ∧
      (b = true ↔ NameOf (bytesFrom (ofList [0x2a, 0x2e, 0x62, 0x2e, 0x63] (fun _ => 0)) 0 5)
        (bytesAt (ofList [0x61, 0x2e, 0x62, 0x2e, 0x63] (fun _ => 0)) 0 5)) := by
  refine matchNameAt_iff (le_refl 256) (by decide) ⟨by decide, ?_, ?_⟩
  · have hbytes : bytesAt (ofList [0x61, 0x2e, 0x62, 0x2e, 0x63] (fun _ => 0)) 0 5 =
        [0x61, 0x2e, 0x62, 0x2e, 0x63] := bytesAt_ofList _ _
    rw [hbytes]
    unfold IsHostChar IsUpper
    decide +kernel
  · decide

end X509
end C64Https
