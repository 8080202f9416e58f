import C64Https.X509.MatchName

/-!
# TargetPrompt — asking for the host and the path (`https_target_prompt` of `src/boot.s`)

`tgt_read_line` is a line editor over the keys that `getin` delivers: a key is translated and stored,
DEL takes the last character back, and a key that cannot be stored refuses the line but does not end
it.  The prompt reads two lines, folds and checks the host, looks at the first byte of the path, and
fails as a whole when either line fails; the second line is read in any case.

What the two lines come to is said on strings (`edited`, `Admitted`), and the routine is shown to
accept and to store exactly that (`targetPrompt_accepts_iff`).
-/

namespace C64Https
namespace Ui

open Bytes Loop X509

/-! ## `tgt_read_line` -/

/-- `HTTPS_HOST_MAX`. -/
def httpsHostMax : Nat :=
  63

/-- `HTTPS_PATH_MAX`. -/
def httpsPathMax : Nat :=
  100

def keyReturn : UInt8 :=
  0x0d

/-- DEL. -/
def keyDel : UInt8 :=
  0x14

structure ReadLine where
  /-- the buffer behind `zp_ptr` -/
  buf : Buffer
  /-- `tgt_len` -/
  len : Nat
  /-- bit 7 of `tgt_bad` -/
  bad : Bool
  /-- what went to `chrout` -/
  echo : List UInt8

/-- `@key`, behind the cap: the character that is stored for a key. -/
def translate (key : UInt8) : Option UInt8 :=
  if key = 0xa4 then some 0x5f
  else if key < 0xc1 then
    if key < 0x21 then none
    else if 0x60 ≤ key then none
    else if key < 0x41 then some key
    else if 0x5b ≤ key then some key
    else some (key ||| 0x20)
  else if 0xdb ≤ key then none
  else some (key ^^^ 0x80)

/-- `@done`: the terminator; the carry is the bit that is shifted out of `tgt_bad`. -/
def readLineDone (l : ReadLine) : ReadLine × Bool :=
  ({ l with
      buf := Function.update l.buf l.len 0
      bad := false
      echo := l.echo ++ [keyReturn] }, l.bad)

/-- A turn of `@wait`, with what `getin` returns; it returns zero when no key is down. -/
def readLineKey (cap : Nat) (l : ReadLine) (key : UInt8) : Turn ReadLine (ReadLine × Bool) :=
  if key = 0 then .again l
  else if key = keyReturn then .leave (readLineDone l)
  else if l.bad then .again l
  else if key = keyDel then
    if l.len = 0 then .again l
    else .again { l with len := l.len - 1, echo := l.echo ++ [keyDel] }
  else if cap ≤ l.len then .again { l with bad := true }
  else
    match translate key with
    | none => .again { l with bad := true }
    | some c =>
        .again { l with
          buf := Function.update l.buf l.len c
          len := l.len + 1
          echo := l.echo ++ [key] }

/-- The routine, and the keys that it leaves; `none` while it waits. -/
def tgtReadLine (cap : Nat) : List UInt8 → ReadLine → Option ((ReadLine × Bool) × List UInt8)
  | [], _ => none
  | key :: keys, l =>
      match readLineKey cap l key with
      | .again l => tgtReadLine cap keys l
      | .leave r => some (r, keys)

/-! ## `https_target_prompt` -/

/-- The built-in target, within the bounds that `boot.s` asserts. -/
structure BuiltIn where
  /-- `http_host_target`, up to its terminator -/
  host : List UInt8
  /-- `https_path_target` -/
  path : List UInt8
  host_le : host.length ≤ 63
  path_le : path.length ≤ 100

/-- Where `http_path_ptr` leads. -/
inductive PathPtr where
  /-- `http_resp_buf` -/
  | respBuf
  /-- `https_path_target` -/
  | builtIn
  deriving DecidableEq, Repr

structure TargetPrompt where
  /-- `tls_hostname` and `tls_hostname_len` -/
  hostname : Buffer
  hostnameLen : Nat
  /-- `http_host_len`; `http_host_ptr` is set to `tls_hostname` with it -/
  httpHostLen : Nat
  pathPtr : PathPtr
  pathLen : Nat
  /-- `http_resp_buf` -/
  respBuf : Buffer
  /-- bit 7 of `tgt_bad` and of `tgt_fail` -/
  bad : Bool
  fail : Bool
  reachedConnected : Bool
  /-- KERNAL `NDX`, the number of keys typed ahead -/
  ndx : UInt8

/-- `@host_default`, from place `y` on. -/
def hostDefault : List UInt8 → Nat → Buffer → Buffer × Nat
  | [], y, m => (Function.update m y 0, y)
  | b :: bs, y, m => hostDefault bs (y + 1) (Function.update m y b)

/-- `@hc_loop`'s view of the host: the index, `tgt_prev` and the buffer. -/
structure HostCheck where
  y : Nat
  prev : UInt8
  hostname : Buffer

/-- A turn of `@hc_loop`; it leaves with whether the host is good, or at `@host_bad`. -/
def hostCheckTurn (h : HostCheck) : Turn HostCheck (HostCheck × Bool) :=
  let c := h.hostname h.y
  if c = 0 then .leave (h, decide (h.prev ≠ dot))
  else if c = dot then
    if c = h.prev then .leave (h, false) else .again { h with prev := c, y := h.y + 1 }
  else if c = 0x2d then .again { h with prev := c, y := h.y + 1 }
  else if c < 0x30 then .leave (h, false)
  else if c < 0x3a then .again { h with prev := c, y := h.y + 1 }
  else
    let c := c ||| 0x20
    if c < 0x61 then .leave (h, false)
    else if 0x7b ≤ c then .leave (h, false)
    else .again { y := h.y + 1, prev := c, hostname := Function.update h.hostname h.y c }

/-- `@host_check`, over the 64 bytes of `tls_hostname`. -/
def hostCheck (m : Buffer) : Option (HostCheck × Bool) :=
  loop hostCheckTurn 64 { y := 0, prev := dot, hostname := m }

/-- The host line, up to `@path`. -/
def promptHost (B : BuiltIn) (p : TargetPrompt) (l : ReadLine) (refused : Bool) :
    Option TargetPrompt :=
  let p := { p with hostname := l.buf, bad := l.bad }
  if refused then some { p with fail := true }
  else if l.len = 0 then
    let r := hostDefault B.host 0 p.hostname
    some { p with hostname := r.1, hostnameLen := r.2, httpHostLen := r.2 }
  else
    match hostCheck p.hostname with
    | none => none
    | some (h, false) => some { p with hostname := h.hostname, fail := true }
    | some (h, true) => some { p with hostname := h.hostname, hostnameLen := h.y, httpHostLen := h.y }

/-- `@refused`. -/
def promptRefused (p : TargetPrompt) : TargetPrompt × Bool :=
  ({ p with ndx := 0, hostnameLen := 0 }, true)

/-- `@path_set`, and what follows. -/
def promptPathSet (p : TargetPrompt) (ptr : PathPtr) (len : Nat) : TargetPrompt × Bool :=
  let p := { p with pathPtr := ptr, pathLen := len }
  if p.fail then promptRefused p else (p, false)

/-- The path line. -/
def promptPath (B : BuiltIn) (p : TargetPrompt) (l : ReadLine) (refused : Bool) :
    TargetPrompt × Bool :=
  let p := { p with respBuf := l.buf, bad := l.bad }
  if refused then promptRefused p
  else if l.len = 0 then promptPathSet p .builtIn B.path.length
  else if p.respBuf 0 ≠ 0x2f then promptRefused p
  else promptPathSet p .respBuf l.len

/-- The prompt over the keys that are typed: the carry, and the keys that are left; `none` while it
waits for more. -/
def httpsTargetPrompt (B : BuiltIn) (p : TargetPrompt) (keys : List UInt8) :
    Option ((TargetPrompt × Bool) × List UInt8) :=
  let p := { p with reachedConnected := false, fail := false }
  match tgtReadLine httpsHostMax keys { buf := p.hostname, len := 0, bad := p.bad, echo := [] } with
  | none => none
  | some ((l, refused), keys) =>
      match promptHost B p l refused with
      | none => none
      | some p =>
          match tgtReadLine httpsPathMax keys
              { buf := p.respBuf, len := 0, bad := p.bad, echo := [] } with
          | none => none
          | some ((l, refused), keys) => some (promptPath B p l refused, keys)

/-! ## What the keys come to -/

/-- One key of a line: `none` when a key has been refused. -/
def editKey (cap : Nat) : Option (List UInt8) → UInt8 → Option (List UInt8)
  | none, _ => none
  | some text, key =>
      if key = 0 then some text
      else if key = keyDel then some text.dropLast
      else if cap ≤ text.length then none
      else (translate key).map fun c => text ++ [c]

/-- The text that the keys of a line make. -/
def edited (cap : Nat) (keys : List UInt8) : Option (List UInt8) :=
  keys.foldl (editKey cap) (some [])

/-- The host line is admitted: empty, or letters, digits, `-` and `.`, and no label empty. -/
def HostAdmitted (host : List UInt8) : Prop :=
  host = [] ∨ (∀ c ∈ host, IsHostChar c) ∧ [] ∉ host.splitOn dot

/-- The path line is admitted: empty, or begun with `/`. -/
def PathAdmitted (path : List UInt8) : Prop :=
  path = [] ∨ path.head? = some 0x2f

/-- No key was refused, and both lines are admitted. -/
def Admitted (hostKeys pathKeys host path : List UInt8) : Prop :=
  edited httpsHostMax hostKeys = some host ∧ edited httpsPathMax pathKeys = some path ∧
    HostAdmitted host ∧ PathAdmitted path

/-! ## A line -/

section Lines

variable {cap : Nat} {l : ReadLine} {t : Option (List UInt8)}

/-- What is stored for a key is not the terminator. -/
theorem translate_ne_zero (key : UInt8) : translate key ≠ some 0 := by
  refine forall_byte (p := fun key => translate key ≠ some 0) ?_ key
  decide +kernel

/-- The editor holds a text, or has refused a key. -/
def Holds (cap : Nat) (l : ReadLine) : Option (List UInt8) → Prop
  | none => l.bad = true
  | some text => l.bad = false ∧ l.len = text.length ∧ bytesAt l.buf 0 text.length = text ∧
      text.length ≤ cap ∧ 0 ∉ text

/-- One key. -/
theorem Holds.key (h : Holds cap l t) {key : UInt8} (hkey : key ≠ keyReturn) :
    ∃ l', readLineKey cap l key = .again l' ∧ Holds cap l' (editKey cap t key) := by
  unfold readLineKey
  cases t with
  | none =>
      have hbad : l.bad = true := h
      by_cases hzero : key = 0
      · exact ⟨l, if_pos hzero, hbad⟩
      · rw [if_neg hzero, if_neg hkey, if_pos hbad]
        exact ⟨l, rfl, hbad⟩
  | some text =>
      obtain ⟨hbad, hlen, hbytes, hcap, hne⟩ := h
      have hgood : ¬ l.bad = true := by
        rw [hbad]
        decide
      unfold editKey
      dsimp only
      by_cases hzero : key = 0
      · rw [if_pos hzero, if_pos hzero]
        exact ⟨l, rfl, hbad, hlen, hbytes, hcap, hne⟩
      rw [if_neg hzero, if_neg hkey, if_neg hgood, if_neg hzero]
      by_cases hdel : key = keyDel
      · rw [if_pos hdel, if_pos hdel]
        -- DEL on an empty line does nothing
        by_cases hempty : l.len = 0
        · have htext : text = [] := List.eq_nil_of_length_eq_zero (hlen.symm.trans hempty)
          rw [if_pos hempty, htext]
          exact ⟨l, rfl, hbad, by rw [hempty]; rfl, bytesAt_zero _ _, Nat.zero_le _, List.not_mem_nil⟩
        · have hless : text.length - 1 ≤ text.length := Nat.sub_le _ _
          rw [if_neg hempty]
          refine ⟨_, rfl, hbad, ?_, ?_, ?_, fun hmem => hne (List.mem_of_mem_dropLast hmem)⟩
          · rw [List.length_dropLast, hlen]
          · rw [List.length_dropLast, List.dropLast_eq_take, ← hbytes, length_bytesAt,
              take_bytesAt _ _ hless]
          · rw [List.length_dropLast]
            exact hless.trans hcap
      rw [if_neg hdel, if_neg hdel, hlen]
      -- a key too many, or one that has no ASCII code, makes the line bad
      by_cases hfull : cap ≤ text.length
      · rw [if_pos hfull, if_pos hfull]
        exact ⟨_, rfl, rfl⟩
      rw [if_neg hfull, if_neg hfull]
      cases htr : translate key with
      | none => exact ⟨_, rfl, rfl⟩
      | some c =>
          refine ⟨_, rfl, hbad, ?_, ?_, ?_, ?_⟩
          · rw [List.length_append, List.length_singleton]
          · have happend := bytesAt_store_append l.buf 0 text.length [c]
            rw [Nat.zero_add, hbytes, List.length_singleton] at happend
            dsimp only
            rw [List.length_append, List.length_singleton, update_eq_store]
            exact happend
          · rw [List.length_append, List.length_singleton]
            omega
          · intro hmem
            rcases List.mem_append.1 hmem with hmem | hmem
            · exact hne hmem
            · exact translate_ne_zero key (htr.trans (congrArg some (List.mem_singleton.1 hmem).symm))

/-- A line that is entered: its text, and behind it the terminator, or the carry. -/
def Entered (cap : Nat) (r : ReadLine × Bool) : Option (List UInt8) → Prop
  | none => r.2 = true ∧ r.1.bad = false
  | some text => r.2 = false ∧ r.1.bad = false ∧ r.1.len = text.length ∧
      bytesAt r.1.buf 0 text.length = text ∧ r.1.buf text.length = 0 ∧ text.length ≤ cap ∧ 0 ∉ text

theorem Holds.done (h : Holds cap l t) : Entered cap (readLineDone l) t := by
  cases t with
  | none => exact ⟨h, rfl⟩
  | some text =>
      obtain ⟨hbad, hlen, hbytes, hcap, hne⟩ := h
      refine ⟨hbad, rfl, hlen, ?_, ?_, hcap, hne⟩
      · show bytesAt (Function.update l.buf l.len 0) 0 text.length = text
        rw [hlen, update_eq_store, bytesAt_store_of_disjoint _ _ (Or.inl (by omega)), hbytes]
      · show Function.update l.buf l.len 0 text.length = 0
        rw [hlen, Function.update_self]

/-- The line ends with its RETURN, and the keys behind it are left. -/
theorem Holds.run {keys rest : List UInt8} (hkeys : keyReturn ∉ keys) :
    ∀ {l : ReadLine} {t : Option (List UInt8)}, Holds cap l t →
      ∃ r, tgtReadLine cap (keys ++ keyReturn :: rest) l = some (r, rest) ∧
        Entered cap r (keys.foldl (editKey cap) t) := by
  induction keys with
  | nil =>
      intro l t h
      refine ⟨readLineDone l, ?_, h.done⟩
      have hleave : readLineKey cap l keyReturn = .leave (readLineDone l) := by
        unfold readLineKey
        rw [if_neg (by decide), if_pos rfl]
      rw [List.nil_append]
      unfold tgtReadLine
      rw [hleave]
  | cons key keys ih =>
      intro l t h
      have hne : key ≠ keyReturn := fun heq => hkeys (heq ▸ List.mem_cons_self)
      obtain ⟨l', hagain, hholds⟩ := h.key hne
      obtain ⟨r, hrun, hentered⟩ := ih (fun hmem => hkeys (List.mem_cons_of_mem _ hmem)) hholds
      refine ⟨r, ?_, hentered⟩
      rw [List.cons_append]
      unfold tgtReadLine
      rw [hagain]
      exact hrun

/-- From an empty line. -/
theorem tgtReadLine_entered {keys : List UInt8} (rest : List UInt8) (hkeys : keyReturn ∉ keys)
    (cap : Nat) (buf : Buffer) :
    ∃ r, tgtReadLine cap (keys ++ keyReturn :: rest)
        { buf := buf, len := 0, bad := false, echo := [] } = some (r, rest) ∧
      Entered cap r (edited cap keys) := by
  refine Holds.run hkeys (t := some []) ?_
  exact ⟨rfl, rfl, bytesAt_zero _ _, Nat.zero_le _, List.not_mem_nil⟩

end Lines

/-! ## The host -/

section Host

variable {m : Buffer}

/-- What `@hc_loop` makes of a character other than the dot. -/
def hostChar (c : UInt8) : Option UInt8 :=
  if c = 0x2d then some c
  else if c < 0x30 then none
  else if c < 0x3a then some c
  else if c ||| 0x20 < 0x61 then none
  else if 0x7b ≤ c ||| 0x20 then none
  else some (c ||| 0x20)

/-- It is folded when it may be in a host, and refused otherwise. -/
theorem hostChar_eq (c : UInt8) (hdot : c ≠ dot) :
    (IsHostChar c ∧ hostChar c = some (toLower c) ∧ toLower c ≠ dot) ∨
      (¬ IsHostChar c ∧ hostChar c = none) := by
  revert hdot
  unfold IsHostChar IsUpper
  refine forall_byte (p := fun c => c ≠ dot →
    (((0x41 ≤ c ∧ c ≤ 0x5a) ∨ (0x61 ≤ c ∧ c ≤ 0x7a) ∨ (0x30 ≤ c ∧ c ≤ 0x39) ∨ c = 0x2d ∨ c = dot) ∧
      hostChar c = some (toLower c) ∧ toLower c ≠ dot) ∨
    (¬ ((0x41 ≤ c ∧ c ≤ 0x5a) ∨ (0x61 ≤ c ∧ c ≤ 0x7a) ∨ (0x30 ≤ c ∧ c ≤ 0x39) ∨ c = 0x2d ∨ c = dot) ∧
      hostChar c = none)) ?_ c
  decide +kernel

theorem hostCheckTurn_end {h : HostCheck} (hend : h.hostname h.y = 0) :
    hostCheckTurn h = .leave (h, decide (h.prev ≠ dot)) := by
  unfold hostCheckTurn
  dsimp only
  rw [if_pos hend]

theorem hostCheckTurn_dot {h : HostCheck} (hdot : h.hostname h.y = dot) :
    hostCheckTurn h =
      if h.prev = dot then .leave (h, false) else .again { h with prev := dot, y := h.y + 1 } := by
  unfold hostCheckTurn
  dsimp only
  rw [hdot, if_neg (by decide), if_pos rfl]
  by_cases hprev : h.prev = dot
  · rw [if_pos hprev, if_pos hprev.symm]
  · rw [if_neg hprev, if_neg (Ne.symm hprev)]

theorem hostCheckTurn_char {h : HostCheck} (hzero : h.hostname h.y ≠ 0)
    (hdot : h.hostname h.y ≠ dot) :
    hostCheckTurn h = match hostChar (h.hostname h.y) with
      | none => .leave (h, false)
      | some c =>
          .again { y := h.y + 1, prev := c, hostname := Function.update h.hostname h.y c } := by
  have hsame : Function.update h.hostname h.y (h.hostname h.y) = h.hostname :=
    Function.update_eq_self _ _
  unfold hostCheckTurn hostChar
  dsimp only
  rw [if_neg hzero, if_neg hdot]
  split_ifs
  · dsimp only
    rw [hsame]
  · rfl
  · dsimp only
    rw [hsame]
  · rfl
  · rfl
  · rfl

/-- No label is empty, the first one apart when it has begun. -/
def Labels (begun : Bool) (host : List UInt8) : Prop :=
  [] ∉ if begun then (host.splitOn dot).tail else host.splitOn dot

theorem labels_nil (begun : Bool) : Labels begun [] ↔ begun = true := by
  unfold Labels
  cases begun with
  | false => simp
  | true => simp

theorem splitOn_dot (host : List UInt8) : (dot :: host).splitOn dot = [] :: host.splitOn dot := by
  rw [List.splitOn, List.splitOnP_cons_eq_if_modifyHead, if_pos (by simp), List.splitOn]

theorem splitOn_char {c : UInt8} (hc : c ≠ dot) (host : List UInt8) :
    ∃ label labels, host.splitOn dot = label :: labels ∧
      (c :: host).splitOn dot = (c :: label) :: labels := by
  have hparts : host.splitOn dot ≠ [] := List.splitOnP_ne_nil _ _
  have hcons : (c :: host).splitOn dot = (host.splitOn dot).modifyHead (List.cons c) := by
    rw [List.splitOn, List.splitOnP_cons_eq_if_modifyHead, if_neg (by simpa using hc), List.splitOn]
  cases hsplit : host.splitOn dot with
  | nil => exact absurd hsplit hparts
  | cons label labels =>
      refine ⟨label, labels, rfl, ?_⟩
      rw [hcons, hsplit, List.modifyHead_cons]

theorem labels_dot (begun : Bool) (host : List UInt8) :
    Labels begun (dot :: host) ↔ begun = true ∧ Labels false host := by
  unfold Labels
  rw [splitOn_dot]
  cases begun with
  | false => simp
  | true => simp

theorem labels_char (begun : Bool) {c : UInt8} (hc : c ≠ dot) (host : List UInt8) :
    Labels begun (c :: host) ↔ Labels true host := by
  obtain ⟨label, labels, hsplit, hcons⟩ := splitOn_char hc host
  unfold Labels
  rw [hcons, hsplit]
  cases begun with
  | false => simp
  | true => simp

/-- What the loop makes of the host from place `y` on. -/
structure Checked (m : Buffer) (y : Nat) (host : List UInt8) (begun : Bool) (r : HostCheck × Bool) :
    Prop where
  good : r.2 = true ↔ (∀ c ∈ host, IsHostChar c) ∧ Labels begun host
  index : r.2 = true → r.1.y = y + host.length
  folded : r.2 = true → bytesAt r.1.hostname y host.length = host.map toLower
  frame : ∀ i, i < y ∨ y + host.length ≤ i → r.1.hostname i = m i

theorem hostCheck_checked (host : List UInt8) : ∀ (n y : Nat) (prev : UInt8) (m : Buffer),
    host.length < n → bytesAt m y host.length = host → m (y + host.length) = 0 → 0 ∉ host →
      ∃ r, loop hostCheckTurn n { y := y, prev := prev, hostname := m } = some r ∧
        Checked m y host (decide (prev ≠ dot)) r := by
  induction host with
  | nil =>
      intro n y prev m hn _ hend _
      obtain ⟨n, rfl⟩ : ∃ k, n = k + 1 := ⟨n - 1, by omega⟩
      refine ⟨_, loop_leave (hostCheckTurn_end hend), ?_, fun _ => rfl, fun _ => ?_, fun _ _ => rfl⟩
      · rw [labels_nil]
        simp
      · exact bytesAt_zero _ _
  | cons c host ih =>
      intro n y prev m hn hbytes hend hne
      rw [List.length_cons] at hn hbytes hend
      obtain ⟨n, rfl⟩ : ∃ k, n = k + 1 := ⟨n - 1, by omega⟩
      rw [bytesAt_succ] at hbytes
      have hc : m y = c := (List.cons.inj hbytes).1
      have hrest : bytesAt m (y + 1) host.length = host := (List.cons.inj hbytes).2
      have hzero : c ≠ 0 := fun h => hne (h ▸ List.mem_cons_self)
      have hnone : 0 ∉ host := fun h => hne (List.mem_cons_of_mem _ h)
      have hplace : y + 1 + host.length = y + (host.length + 1) := by omega
      by_cases hdot : c = dot
      · subst hdot
        have hturn := @hostCheckTurn_dot { y := y, prev := prev, hostname := m } hc
        dsimp only at hturn
        by_cases hprev : prev = dot
        · -- an empty label
          rw [if_pos hprev] at hturn
          refine ⟨_, loop_leave hturn, ?_, nofun, nofun, fun _ _ => rfl⟩
          rw [labels_dot]
          simp [hprev]
        · rw [if_neg hprev] at hturn
          obtain ⟨r, hrun, hr⟩ := ih n (y + 1) dot m (by omega) hrest (by rw [hplace]; exact hend)
            hnone
          refine ⟨r, (loop_again hturn).trans hrun, ?_, ?_, ?_, ?_⟩
          · rw [hr.good, labels_dot]
            simp [hprev, IsHostChar]
          · intro hgood
            rw [hr.index hgood, List.length_cons, hplace]
          · intro hgood
            have hfirst : r.1.hostname y = dot := (hr.frame y (Or.inl (Nat.lt_succ_self y))).trans hc
            rw [List.length_cons, bytesAt_succ, hfirst, hr.folded hgood]
            rfl
          · intro i hi
            rw [List.length_cons] at hi
            exact hr.frame i (by omega)
      · have hturn := @hostCheckTurn_char { y := y, prev := prev, hostname := m }
          (by dsimp only; rw [hc]; exact hzero) (by dsimp only; rw [hc]; exact hdot)
        dsimp only at hturn
        rw [hc] at hturn
        rcases hostChar_eq c hdot with ⟨hchar, hfold, hnext⟩ | ⟨hchar, hfold⟩
        · rw [hfold] at hturn
          have hkept : bytesAt (Function.update m y (toLower c)) (y + 1) host.length = host := by
            rw [update_eq_store,
              bytesAt_store_of_disjoint m [toLower c] (Or.inr (Nat.le_refl (y + 1))), hrest]
          have hstop : Function.update m y (toLower c) (y + 1 + host.length) = 0 := by
            rw [Function.update_of_ne (by omega), hplace, hend]
          obtain ⟨r, hrun, hr⟩ := ih n (y + 1) (toLower c) (Function.update m y (toLower c)) (by omega)
            hkept hstop hnone
          rw [decide_eq_true hnext] at hr
          refine ⟨r, (loop_again hturn).trans hrun, ?_, ?_, ?_, ?_⟩
          · rw [hr.good, labels_char _ hdot]
            simp [hchar]
          · intro hgood
            rw [hr.index hgood, List.length_cons, hplace]
          · intro hgood
            have hfirst : r.1.hostname y = toLower c := by
              rw [hr.frame y (Or.inl (Nat.lt_succ_self y)), Function.update_self]
            rw [List.length_cons, bytesAt_succ, hfirst, hr.folded hgood, List.map_cons]
          · intro i hi
            rw [List.length_cons] at hi
            rw [hr.frame i (by omega), Function.update_of_ne (by omega)]
        · rw [hfold] at hturn
          refine ⟨_, loop_leave hturn, ?_, nofun, nofun, fun _ _ => rfl⟩
          simp [hchar]

/-- The built-in host, and its terminator. -/
theorem hostDefault_eq (bs : List UInt8) : ∀ (y : Nat) (m : Buffer),
    hostDefault bs y m = (store m y (bs ++ [0]), y + bs.length) := by
  induction bs with
  | nil =>
      intro y m
      unfold hostDefault
      rw [update_eq_store]
      rfl
  | cons b bs ih =>
      intro y m
      have hjoin := store_store m y [b] (bs ++ [0])
      rw [List.length_singleton, List.singleton_append] at hjoin
      unfold hostDefault
      rw [ih, update_eq_store, hjoin, List.length_cons, List.cons_append]
      congr 1
      omega

end Host

/-! ## The prompt -/

section Prompt

variable {B : BuiltIn} {p : TargetPrompt} {r : ReadLine × Bool} {t : Option (List UInt8)}

/-- The host that is dialled: folded, or the built-in one. -/
def dialled (B : BuiltIn) (host : List UInt8) : List UInt8 :=
  if host = [] then B.host else host.map toLower

/-- The host is in place, with its terminator and its lengths. -/
structure HostStored (p : TargetPrompt) (name : List UInt8) : Prop where
  bytes : bytesAt p.hostname 0 name.length = name
  terminator : p.hostname name.length = 0
  len : p.hostnameLen = name.length
  httpLen : p.httpHostLen = name.length

/-- The path is in place: as it was edited, or the built-in one. -/
def PathStored (B : BuiltIn) (p : TargetPrompt) (path : List UInt8) : Prop :=
  if path = [] then p.pathPtr = .builtIn ∧ p.pathLen = B.path.length
  else p.pathPtr = .respBuf ∧ p.pathLen = path.length ∧ bytesAt p.respBuf 0 path.length = path

theorem promptHost_spec (hfail : p.fail = false) (h : Entered httpsHostMax r t) :
    ∃ p', promptHost B p r.1 r.2 = some p' ∧ p'.bad = false ∧
      (p'.fail = false ↔ ∃ host, t = some host ∧ HostAdmitted host) ∧
      ∀ host, t = some host → HostAdmitted host → HostStored p' (dialled B host) := by
  unfold promptHost
  dsimp only
  cases t with
  | none =>
      obtain ⟨hcarry, hbad⟩ := h
      rw [if_pos hcarry]
      exact ⟨_, rfl, hbad, by simp, nofun⟩
  | some host =>
      obtain ⟨hcarry, hbad, hlen, hbytes, hend, hcap, hne⟩ := h
      rw [hcarry, if_neg (by decide), hlen]
      by_cases hempty : host = []
      · -- RETURN alone
        have hdialled : dialled B host = B.host := if_pos hempty
        have hdefault := hostDefault_eq B.host 0 r.1.buf
        rw [Nat.zero_add] at hdefault
        rw [hempty, if_pos List.length_nil, hdefault]
        refine ⟨_, rfl, hbad, ?_, ?_⟩
        · exact iff_of_true hfail ⟨[], rfl, Or.inl rfl⟩
        · intro host' heq _
          obtain rfl : [] = host' := Option.some.inj heq
          have hall := bytesAt_store_self r.1.buf 0 (B.host ++ [0])
          rw [List.length_append, List.length_singleton] at hall
          have hzero : store r.1.buf 0 (B.host ++ [0]) B.host.length = 0 := by
            have hlast := getD_bytesAt (store r.1.buf 0 (B.host ++ [0])) 0
              (Nat.lt_succ_self B.host.length)
            rw [hall, Nat.zero_add] at hlast
            rw [← hlast]
            simp
          refine ⟨?_, ?_, ?_, ?_⟩
          · show bytesAt (store r.1.buf 0 (B.host ++ [0])) 0 B.host.length = B.host
            rw [← take_bytesAt _ _ (Nat.le_succ B.host.length), hall, List.take_left]
          · exact hzero
          · rfl
          · rfl
      · have hpos : host.length ≠ 0 := fun h0 => hempty (List.eq_nil_of_length_eq_zero h0)
        have hcap' : host.length < 64 := Nat.lt_succ_of_le hcap
        obtain ⟨q, hloop, hchecked⟩ := hostCheck_checked host 64 0 dot r.1.buf hcap' hbytes
          (by rw [Nat.zero_add]; exact hend) hne
        have hrun : hostCheck r.1.buf = some q := hloop
        have hgood : q.2 = true ↔ HostAdmitted host := by
          rw [hchecked.good]
          unfold HostAdmitted Labels
          simp [hempty]
        rw [if_neg hpos, hrun]
        obtain ⟨c, ok⟩ := q
        cases ok with
        | false =>
            refine ⟨_, rfl, hbad, ?_, ?_⟩
            · refine iff_of_false Bool.false_ne_true.symm ?_
              rintro ⟨host', heq, hadm⟩
              obtain rfl : host = host' := Option.some.inj heq
              exact absurd (hgood.2 hadm) Bool.false_ne_true
            · intro host' heq hadm
              obtain rfl : host = host' := Option.some.inj heq
              exact absurd (hgood.2 hadm) Bool.false_ne_true
        | true =>
            refine ⟨_, rfl, hbad, ?_, ?_⟩
            · exact iff_of_true hfail ⟨host, rfl, hgood.1 rfl⟩
            · intro host' heq _
              obtain rfl : host = host' := Option.some.inj heq
              have hdialled : dialled B host = host.map toLower := if_neg hempty
              have hindex := hchecked.index rfl
              have hframe := hchecked.frame host.length (Or.inr (by omega))
              rw [Nat.zero_add] at hindex
              rw [hdialled]
              refine ⟨?_, ?_, ?_, ?_⟩
              · rw [List.length_map]
                exact hchecked.folded rfl
              · rw [List.length_map]
                exact hframe.trans hend
              · rw [List.length_map]
                exact hindex
              · rw [List.length_map]
                exact hindex

theorem promptPathSet_spec (ptr : PathPtr) (len : Nat) :
    ((promptPathSet p ptr len).2 = false ↔ p.fail = false) ∧
      (promptPathSet p ptr len).1.bad = p.bad ∧
      ((promptPathSet p ptr len).2 = true → (promptPathSet p ptr len).1.hostnameLen = 0) ∧
      (p.fail = false → (promptPathSet p ptr len).1 = { p with pathPtr := ptr, pathLen := len }) := by
  unfold promptPathSet promptRefused
  dsimp only
  cases hfail : p.fail with
  | false => exact ⟨Iff.rfl, rfl, nofun, fun _ => rfl⟩
  | true => exact ⟨by simp, rfl, fun _ => rfl, nofun⟩

theorem promptPath_spec (h : Entered httpsPathMax r t) :
    ((promptPath B p r.1 r.2).2 = false ↔ p.fail = false ∧ ∃ path, t = some path ∧ PathAdmitted path) ∧
      (promptPath B p r.1 r.2).1.bad = false ∧
      ((promptPath B p r.1 r.2).2 = true → (promptPath B p r.1 r.2).1.hostnameLen = 0) ∧
      (p.fail = false → ∀ path, t = some path → PathAdmitted path →
        PathStored B (promptPath B p r.1 r.2).1 path ∧
          ∀ name, HostStored p name → HostStored (promptPath B p r.1 r.2).1 name) := by
  unfold promptPath
  dsimp only
  cases t with
  | none =>
      obtain ⟨hcarry, hbad⟩ := h
      rw [if_pos hcarry]
      exact ⟨by simp [promptRefused], hbad, fun _ => rfl, nofun⟩
  | some path =>
      obtain ⟨hcarry, hbad, hlen, hbytes, -, -, -⟩ := h
      rw [hcarry, if_neg (by decide), hlen]
      -- an empty line stands for the path of the build
      by_cases hempty : path = []
      · subst hempty
        obtain ⟨hiff, hkept, hrefused, hset⟩ := promptPathSet_spec
          (p := { p with respBuf := r.1.buf, bad := r.1.bad }) .builtIn B.path.length
        rw [if_pos List.length_nil]
        refine ⟨?_, hkept.trans hbad, hrefused, ?_⟩
        · rw [hiff]
          exact ⟨fun hf => ⟨hf, [], rfl, Or.inl rfl⟩, fun hf => hf.1⟩
        · intro hf path' heq _
          obtain rfl : [] = path' := Option.some.inj heq
          rw [hset hf]
          exact ⟨⟨rfl, rfl⟩, fun name hname => ⟨hname.bytes, hname.terminator, hname.len, hname.httpLen⟩⟩
      · have hpos : path.length ≠ 0 := fun h0 => hempty (List.eq_nil_of_length_eq_zero h0)
        have hhead : path.head? = some (r.1.buf 0) := by
          obtain ⟨n, hn⟩ := Nat.exists_eq_succ_of_ne_zero hpos
          rw [← hbytes, hn, bytesAt_succ]
          rfl
        rw [if_neg hpos]
        by_cases hslash : r.1.buf 0 = 0x2f
        · obtain ⟨hiff, hkept, hrefused, hset⟩ := promptPathSet_spec
            (p := { p with respBuf := r.1.buf, bad := r.1.bad }) .respBuf path.length
          rw [if_neg (not_not.2 hslash)]
          refine ⟨?_, hkept.trans hbad, hrefused, ?_⟩
          · rw [hiff]
            exact ⟨fun hf => ⟨hf, path, rfl, Or.inr (hhead.trans (congrArg some hslash))⟩,
              fun hf => hf.1⟩
          · intro hf path' heq _
            obtain rfl : path = path' := Option.some.inj heq
            rw [hset hf]
            refine ⟨?_, fun name hname => ⟨hname.bytes, hname.terminator, hname.len, hname.httpLen⟩⟩
            unfold PathStored
            rw [if_neg hempty]
            exact ⟨rfl, rfl, hbytes⟩
        · have hnot : ¬ PathAdmitted path := by
            rintro (h0 | h0)
            · exact hempty h0
            · exact hslash (Option.some.inj (hhead.symm.trans h0))
          rw [if_pos hslash]
          refine ⟨?_, hbad, fun _ => rfl, ?_⟩
          · refine iff_of_false Bool.false_ne_true.symm ?_
            rintro ⟨-, path', heq, hadm⟩
            exact hnot (Option.some.inj heq ▸ hadm)
          · intro _ path' heq hadm
            exact absurd (Option.some.inj heq ▸ hadm) hnot

/-- For every sequence of keys with two RETURNs: they are taken up to the second one, the prompt accepts
if and only if no key was refused and both lines are admitted, what it stores is what was edited, and a
refusal leaves no host.  `tgt_bad` is clear before and after. -/
theorem targetPrompt_accepts_iff (B : BuiltIn) (p : TargetPrompt) (hbad : p.bad = false)
    (hostKeys pathKeys rest : List UInt8) (hhost : keyReturn ∉ hostKeys)
    (hpath : keyReturn ∉ pathKeys) :
    ∃ p' carry,
      httpsTargetPrompt B p (hostKeys ++ keyReturn :: (pathKeys ++ keyReturn :: rest)) =
        some ((p', carry), rest) ∧ p'.bad = false ∧
      (carry = false ↔ ∃ host path, Admitted hostKeys pathKeys host path) ∧
      (∀ host path, Admitted hostKeys pathKeys host path →
        HostStored p' (dialled B host) ∧ PathStored B p' path) ∧
      (carry = true → p'.hostnameLen = 0) := by
  obtain ⟨r, hrun, hentered⟩ := tgtReadLine_entered (pathKeys ++ keyReturn :: rest) hhost
    httpsHostMax p.hostname
  obtain ⟨p₁, hp₁, hbad₁, hfail, hstored⟩ := promptHost_spec (B := B)
    (p := { p with reachedConnected := false, fail := false, bad := false }) rfl hentered
  obtain ⟨s, hrun₂, hentered₂⟩ := tgtReadLine_entered rest hpath httpsPathMax p₁.respBuf
  obtain ⟨haccept, hbad₂, hrefused, hkeep⟩ := promptPath_spec (B := B) (p := p₁) hentered₂
  have hprompt : httpsTargetPrompt B p (hostKeys ++ keyReturn :: (pathKeys ++ keyReturn :: rest)) =
      some (promptPath B p₁ s.1 s.2, rest) := by
    unfold httpsTargetPrompt
    dsimp only
    rw [hbad, hrun]
    dsimp only
    rw [hp₁]
    dsimp only
    rw [hbad₁, hrun₂]
  refine ⟨(promptPath B p₁ s.1 s.2).1, (promptPath B p₁ s.1 s.2).2, hprompt, hbad₂, ?_, ?_, hrefused⟩
  · rw [haccept, hfail]
    constructor
    · rintro ⟨⟨host, hh, hhadm⟩, path, hq, hqadm⟩
      exact ⟨host, path, hh, hq, hhadm, hqadm⟩
    · rintro ⟨host, path, hh, hq, hhadm, hqadm⟩
      exact ⟨⟨host, hh, hhadm⟩, path, hq, hqadm⟩
  · rintro host path ⟨hh, hq, hhadm, hqadm⟩
    obtain ⟨hpathStored, hhostStored⟩ := hkeep (hfail.2 ⟨host, hh, hhadm⟩) path hq hqadm
    exact ⟨hhostStored _ (hstored host hh hhadm), hpathStored⟩

/-- `A.bx`, DEL, and `/`: a key is taken back. -/
theorem targetPrompt_accepts_iff_del :
    let B : BuiltIn := { host := [0x61], path := [0x2f], host_le := by decide, path_le := by decide }
    let p : TargetPrompt :=
      { hostname := fun _ => 0, hostnameLen := 0, httpHostLen := 0, pathPtr := .builtIn, pathLen := 0
        respBuf := fun _ => 0, bad := false, fail := false, reachedConnected := true, ndx := 0 }
    let hostKeys : List UInt8 := [0xc1, 0x2e, 0x42, 0x58, keyDel]
    ∃ p' carry,
      httpsTargetPrompt B p (hostKeys ++ keyReturn :: ([0x2f] ++ keyReturn :: [0x48])) =
        some ((p', carry), [0x48]) ∧ p'.bad = false ∧
      (carry = false ↔ ∃ host path, Admitted hostKeys [0x2f] host path) ∧
      (∀ host path, Admitted hostKeys [0x2f] host path →
        HostStored p' (dialled B host) ∧ PathStored B p' path) ∧
      (carry = true → p'.hostnameLen = 0) :=
  targetPrompt_accepts_iff _ _ rfl _ _ _ (by decide) (by decide)

end Prompt

end Ui
end C64Https
