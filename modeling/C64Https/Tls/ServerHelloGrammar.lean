import C64Https.Tls.ServerHelloSpec

/-!
# ServerHelloGrammar — the ServerHellos that the hybrid reader accepts

The messages of the grammar are a data type (`HelloMessage`) with an encoding.  A reader that has
been armed for a field takes its bytes and then makes one move (`Move`), so a run that ends in
`SS_DONE` has read one field after the other; put together, it has read an encoding
(`reads_iff`).
-/

namespace C64Https
namespace Tls

open Word Loop Bytes

/-! ## The grammar -/

/-- The share of the server, for one of the two groups. -/
inductive KeyShare where
  | x25519 (pub : List UInt8) (hpub : pub.length = 32)
  | hybrid (ct pub : List UInt8) (hct : ct.length = 1088) (hpub : pub.length = 32)

namespace KeyShare

/-- The length of the extension behind its header. -/
def dataLen : KeyShare → Nat
  | .x25519 _ _ => 36
  | .hybrid _ _ _ _ => 1124

/-- The extension behind its header: group, length, share. -/
def body : KeyShare → List UInt8
  | .x25519 pub _ => [0, 0x1d, 0, 32] ++ pub
  | .hybrid ct pub _ _ => [0x11, 0xec, hi 1120, lo 1120] ++ (ct ++ pub)

/-- The key_share extension. -/
def encode (s : KeyShare) : List UInt8 :=
  [0, 0x33, hi s.dataLen, lo s.dataLen] ++ s.body

def isHybrid : KeyShare → Bool
  | .x25519 _ _ => false
  | .hybrid _ _ _ _ => true

/-- `tls_kex_group` -/
def group : KeyShare → UInt8
  | .x25519 _ _ => 0x1d
  | .hybrid _ _ _ _ => 0xec

def pub : KeyShare → List UInt8
  | .x25519 pub _ => pub
  | .hybrid _ pub _ _ => pub

def ct : KeyShare → List UInt8
  | .x25519 _ _ => []
  | .hybrid ct _ _ _ => ct

theorem length_body (s : KeyShare) : s.body.length = s.dataLen := by
  cases s with
  | x25519 pub hpub => simp [body, dataLen, hpub]
  | hybrid ct pub hct hpub => simp [body, dataLen, hct, hpub]

theorem length_encode (s : KeyShare) : s.encode.length = s.dataLen + 4 := by
  unfold encode
  rw [List.length_append, s.length_body, Nat.add_comm]
  rfl

theorem length_pub (s : KeyShare) : s.pub.length = 32 := by
  cases s with
  | x25519 pub hpub => exact hpub
  | hybrid ct pub hct hpub => exact hpub

end KeyShare

/-- The supported_versions extension, with TLS 1.3. -/
def versionExt : List UInt8 :=
  [0, 0x2b, 0, 2] ++ [3, 4]

/-- A ServerHello of the grammar: each of the two extensions once, in either order. -/
structure HelloMessage where
  version : List UInt8
  random : List UInt8
  share : KeyShare
  versionFirst : Bool
  version_length : version.length = 2
  random_length : random.length = 32
  random_ne : random ≠ hrrMagic

namespace HelloMessage

def extensions (m : HelloMessage) : List UInt8 :=
  if m.versionFirst then versionExt ++ m.share.encode else m.share.encode ++ versionExt

/-- The length in the message header. -/
def size (m : HelloMessage) : Nat :=
  40 + m.extensions.length

def encode (m : HelloMessage) : List UInt8 :=
  [hsServerHello, 0, hi m.size, lo m.size] ++ (m.version ++ (m.random ++
    ([0, 0x13, 0x03, 0, hi m.extensions.length, lo m.extensions.length] ++ m.extensions)))

theorem length_extensions (m : HelloMessage) :
    m.extensions.length = 10 + m.share.dataLen := by
  have hshare := m.share.length_encode
  have hver : versionExt.length = 6 := rfl
  unfold extensions
  split
  · rw [List.length_append]
    omega
  · rw [List.length_append]
    omega

theorem size_lt (m : HelloMessage) : m.size < 1536 := by
  have hext := m.length_extensions
  unfold size
  cases hs : m.share with
  | x25519 pub hpub =>
      rw [hs] at hext
      unfold KeyShare.dataLen at hext
      dsimp only at hext
      omega
  | hybrid ct pub hct hpub =>
      rw [hs] at hext
      unfold KeyShare.dataLen at hext
      dsimp only at hext
      omega

end HelloMessage

namespace ShReader

/-! ## Field by field -/

/-- The reader that `shs_arm` leaves. -/
def armed (st : ShsState) (r : ShReader) : ShReader :=
  { r with state := st, cnt := st.len, field := [] }

/-- At the start of a field, which fits the message. -/
structure Armed (r : ShReader) : Prop where
  cnt_eq : r.cnt = r.state.len
  field_eq : r.field = []
  live : r.state ≠ .done
  room : r.state = .hdr ∨ r.state.len ≤ r.rem ∧ r.rem < 65536

/-- What is left of the message behind `n` bytes of the field. -/
def remAfter (r : ShReader) (n : Nat) : Nat :=
  if r.state = .hdr then r.rem else r.rem - n

/-- `bs` of the field have been taken. -/
def part (r : ShReader) (bs : List UInt8) : ShReader :=
  { r with field := bs, cnt := r.state.len - bs.length, rem := r.remAfter bs.length }

theorem len_lt (st : ShsState) : st.len < 65536 := by
  cases st <;> decide

theorem len_pos {st : ShsState} (h : st ≠ .done) : 0 < st.len := by
  cases st with
  | done => exact absurd rfl h
  | _ => decide

/-- A byte of the field, before the handler. -/
def took (r : ShReader) (b : UInt8) : ShReader :=
  { r with
    field := r.field ++ [b]
    rem := if r.state = .hdr then r.rem else sub16 r.rem 1
    cnt := sub16 r.cnt 1 }

theorem byte_live {r : ShReader} (h : r.state ≠ .done) (b : UInt8) :
    r.byte b = if (r.took b).cnt = 0 then (r.took b).handler else .again (r.took b) :=
  if_neg h

/-- One more byte of the field: the handler runs behind the last one. -/
theorem byte_part {r : ShReader} (h : Armed r) {bs : List UInt8} (hlt : bs.length < r.state.len)
    (b : UInt8) :
    (r.part bs).byte b =
      if bs.length + 1 = r.state.len then (r.part (bs ++ [b])).handler
      else .again (r.part (bs ++ [b])) := by
  have hlen := len_lt r.state
  have hone : (bs ++ [b]).length = bs.length + 1 := by
    simp
  have hcnt : sub16 (r.state.len - bs.length) 1 = r.state.len - (bs ++ [b]).length := by
    rw [sub16_of_le (by omega) (by omega), hone]
    omega
  have hrem : (if r.state = .hdr then r.remAfter bs.length else sub16 (r.remAfter bs.length) 1) =
      r.remAfter (bs ++ [b]).length := by
    unfold remAfter
    split
    · rfl
    · rename_i hst
      rcases h.room with hhdr | ⟨hroom, hsmall⟩
      · exact absurd hhdr hst
      · rw [sub16_of_le (by omega) (by omega), hone]
        omega
  have hnext : (r.part bs).took b = r.part (bs ++ [b]) := by
    show ({ r with
        field := bs ++ [b]
        rem := if r.state = .hdr then r.remAfter bs.length else sub16 (r.remAfter bs.length) 1
        cnt := sub16 (r.state.len - bs.length) 1 } : ShReader) = _
    rw [hcnt, hrem]
    rfl
  have hzero : (r.part (bs ++ [b])).cnt = 0 ↔ bs.length + 1 = r.state.len := by
    show r.state.len - (bs ++ [b]).length = 0 ↔ _
    rw [hone]
    omega
  rw [byte_live (r := r.part bs) h.live, hnext]
  by_cases hlast : bs.length + 1 = r.state.len
  · rw [if_pos (hzero.2 hlast), if_pos hlast]
  · rw [if_neg (fun h => hlast (hzero.1 h)), if_neg hlast]

theorem part_nil {r : ShReader} (h : Armed r) : r.part [] = r := by
  have hrem : r.remAfter ([] : List UInt8).length = r.rem := by
    unfold remAfter
    split
    · rfl
    · rfl
  have hcnt : r.state.len - ([] : List UInt8).length = r.cnt := h.cnt_eq.symm
  have hfield : ([] : List UInt8) = r.field := h.field_eq.symm
  unfold part
  rw [hrem, hcnt, hfield]

/-- Less than the field. -/
theorem feed_part {r : ShReader} (h : Armed r) (bs : List UInt8) (hlt : bs.length < r.state.len) :
    feed byte r bs = .again (r.part bs) := by
  induction bs using List.reverseRecOn with
  | nil => rw [feed_nil, part_nil h]
  | append_singleton bs b ih =>
      have hone : (bs ++ [b]).length = bs.length + 1 := by
        simp
      rw [feed_append, ih (by omega), Turn.again_bind, feed_cons, byte_part h (by omega),
        if_neg (by omega)]
      rfl

/-- All of the field. -/
theorem feed_field {r : ShReader} (h : Armed r) {fs : List UInt8} (hlen : fs.length = r.state.len) :
    feed byte r fs = (r.part fs).handler := by
  have hpos := len_pos h.live
  rcases List.eq_nil_or_concat fs with rfl | ⟨bs, b, rfl⟩
  · rw [List.length_nil] at hlen
    omega
  · rw [List.concat_eq_append] at hlen ⊢
    have hone : (bs ++ [b]).length = bs.length + 1 := by
      simp
    rw [feed_append, feed_part h bs (by omega), Turn.again_bind, feed_cons,
      byte_part h (by omega), if_pos (by omega)]
    cases (r.part (bs ++ [b])).handler with
    | again r' => rfl
    | leave r' => rfl

/-- `bs` takes the reader to the end of the message. -/
def Reads (r : ShReader) (bs : List UInt8) (r' : ShReader) : Prop :=
  feed byte r bs = .again r' ∧ r'.state = .done

/-- A field, and what its handler makes of it. -/
theorem reads_field {r r' : ShReader} (h : Armed r) {bs : List UInt8} :
    Reads r bs r' ↔ ∃ fs rest r₁, bs = fs ++ rest ∧ fs.length = r.state.len ∧
      (r.part fs).handler = .again r₁ ∧ Reads r₁ rest r' := by
  constructor
  · rintro ⟨hrun, hdone⟩
    rcases Nat.lt_or_ge bs.length r.state.len with hlt | hge
    · rw [feed_part h bs hlt] at hrun
      cases hrun
      exact absurd hdone h.live
    · have hsplit : bs = bs.take r.state.len ++ bs.drop r.state.len :=
        (List.take_append_drop _ _).symm
      have hlen : (bs.take r.state.len).length = r.state.len := by
        rw [List.length_take, Nat.min_eq_left hge]
      rw [hsplit, feed_append, feed_field h hlen] at hrun
      cases hturn : (r.part (bs.take r.state.len)).handler with
      | leave r₁ =>
          rw [hturn] at hrun
          cases hrun
      | again r₁ =>
          rw [hturn] at hrun
          exact ⟨_, _, r₁, hsplit, hlen, hturn, hrun, hdone⟩
  · rintro ⟨fs, rest, r₁, rfl, hlen, hturn, hrun, hdone⟩
    refine ⟨?_, hdone⟩
    rw [feed_append, feed_field h hlen, hturn]
    exact hrun

/-- Behind the message there is nothing. -/
theorem reads_done {r r' : ShReader} (h : r.state = .done) {bs : List UInt8} :
    Reads r bs r' ↔ bs = [] ∧ r' = r := by
  constructor
  · rintro ⟨hrun, -⟩
    cases bs with
    | nil =>
        cases hrun
        exact ⟨rfl, rfl⟩
    | cons b bs =>
        have hbyte : r.byte b = r.fail .trail := by
          unfold byte
          rw [if_pos h]
        rw [feed_cons, hbyte] at hrun
        cases hrun
  · rintro ⟨rfl, rfl⟩
    exact ⟨rfl, h⟩

/-! ## What a handler can do -/

/-- Another extension header, or the end of the message. -/
inductive Next (r : ShReader) : ShReader → Prop where
  | done (hrem : r.rem = 0) (hver : r.seenVer = true) (hks : r.seenKs = true) :
      Next r (armed .done r)
  | more (hrem : 4 ≤ r.rem) : Next r (armed .exh r)

/-- The move behind a complete field, with all that it has checked. -/
def Move (r r' : ShReader) : Prop :=
  match r.state with
  | .hdr => ∃ n, r.field = [hsServerHello, 0, hi n, lo n] ∧ 40 ≤ n ∧ n < 1536 ∧
      r' = armed .ver { r with rem := n }
  | .ver => r' = armed .rnd r
  | .rnd => r.field ≠ hrrMagic ∧ r' = armed .fix { r with serverRandom := r.field }
  | .fix => r.field = [0, 0x13, 0x03, 0, hi r.rem, lo r.rem] ∧ Next r r'
  | .exh => r.field = [0, 0x2b, 0, 2] ∧ 2 ≤ r.rem ∧ r.seenVer = false ∧
        r' = armed .sv { r with d := 2 } ∨
      ∃ n, r.field = [0, 0x33, hi n, lo n] ∧ 4 ≤ n ∧ n ≤ r.rem ∧ r.seenKs = false ∧
        r' = armed .ksh { r with d := n }
  | .sv => r.field = [3, 4] ∧ Next { r with seenVer := true } r'
  | .ksh => r.field = [0, 0x1d, 0, 32] ∧ r.d = 36 ∧ r' = armed .pub { r with kexGroup := 0x1d } ∨
      r.field = [0x11, 0xec, hi 1120, lo 1120] ∧ r.d = 1124 ∧ r.offered = true ∧
        r' = armed .ct { r with kexGroup := 0xec }
  | .ct => r' = armed .pub { r with ciphertext := r.field }
  | .pub => Next { r with serverPubkey := r.field, seenKs := true } r'
  | .done => False

section Handlers

variable {r r' : ShReader}

theorem extNext_iff : r.extNext = .again r' ↔ Next r r' := by
  unfold extNext
  constructor
  · intro h
    split at h
    · rename_i hrem
      split at h
      · rename_i hboth
        obtain ⟨hver, hks⟩ := Bool.and_eq_true_iff.1 hboth
        cases h
        exact .done hrem hver hks
      · cases h
    split at h
    · cases h
    · rename_i hrem
      cases h
      exact .more (Nat.le_of_not_lt hrem)
  · intro h
    cases h with
    | done hrem hver hks =>
        rw [if_pos hrem, if_pos (by rw [hver, hks]; rfl)]
        rfl
    | more hrem =>
        rw [if_neg (by omega), if_neg (by omega)]
        rfl

/-- A list is its bytes. -/
theorem field_four (h : r.field.length = 4) : r.field = [r.f 0, r.f 1, r.f 2, r.f 3] := by
  unfold f
  match hf : r.field, h with
  | [a, b, c, d], _ => rfl

theorem hi_word (a b : UInt8) : hi (word a b) = a := by
  have ha := toNat_lt a
  have hb := toNat_lt b
  have hdiv : word a b / 256 = a.toNat := by
    unfold word
    omega
  unfold hi
  rw [hdiv]
  exact UInt8.ofNat_toNat

theorem lo_word (a b : UInt8) : lo (word a b) = b := by
  apply UInt8.toNat_inj.1
  have hb := toNat_lt b
  unfold lo word
  rw [UInt8.toNat_ofNat']
  omega

theorem f_of_field {bs : List UInt8} (h : r.field = bs) (i : Nat) : r.f i = bs.getD i 0 := by
  unfold f
  rw [h]

theorem hHdr_iff (hlen : r.field.length = 4) :
    r.hHdr = .again r' ↔ ∃ n, r.field = [hsServerHello, 0, hi n, lo n] ∧ 40 ≤ n ∧ n < 1536 ∧
      r' = armed .ver { r with rem := n } := by
  constructor
  · intro h
    have hf := field_four hlen
    unfold hHdr at h
    split at h
    · cases h
    rename_i h0
    split at h
    · cases h
    rename_i h1
    split at h
    · cases h
    rename_i h2
    dsimp only at h
    split at h
    · cases h
    rename_i hmin
    cases h
    refine ⟨word (r.f 2) (r.f 3), ?_, Nat.le_of_not_lt hmin, ?_, rfl⟩
    · rw [hi_word, lo_word, ← not_not.1 h0, ← not_not.1 h1]
      exact hf
    · have hlo := toNat_lt (r.f 3)
      have hhigh : (r.f 2).toNat < 6 := UInt8.not_le.1 h2
      unfold word
      omega
  · rintro ⟨n, hf, hmin, hmax, rfl⟩
    have h0 : r.f 0 = hsServerHello := f_of_field hf 0
    have h1 : r.f 1 = 0 := f_of_field hf 1
    have h2 : r.f 2 = hi n := f_of_field hf 2
    have h3 : r.f 3 = lo n := f_of_field hf 3
    have hhigh : ¬ 6 ≤ hi n := by
      rw [UInt8.le_iff_toNat_le]
      unfold hi
      rw [UInt8.toNat_ofNat']
      show ¬ 6 ≤ _
      omega
    unfold hHdr
    rw [h0, h1, h2, h3, if_neg (by simp), if_neg (by simp), if_neg hhigh]
    dsimp only
    rw [word_hi_lo (by omega), if_neg (by omega)]
    rfl

theorem hRnd_iff : r.hRnd = .again r' ↔
    r.field ≠ hrrMagic ∧ r' = armed .fix { r with serverRandom := r.field } := by
  unfold hRnd tlsShChkHrr
  dsimp only
  constructor
  · intro h
    split at h
    · cases h
    · rename_i hne
      cases h
      exact ⟨fun heq => hne (by rw [heq]; exact beq_self_eq_true _), rfl⟩
  · rintro ⟨hne, rfl⟩
    rw [if_neg (by simpa using hne)]
    rfl

/-- The fixed part, and the extension block is all that is left. -/
theorem hFix_iff (hlen : r.field.length = 6) (hrem : r.rem < 65536) :
    r.hFix = .again r' ↔ r.field = [0, 0x13, 0x03, 0, hi r.rem, lo r.rem] ∧ Next r r' := by
  constructor
  · intro h
    have hf : r.field = [r.f 0, r.f 1, r.f 2, r.f 3, r.f 4, r.f 5] := by
      unfold f
      match hf : r.field, hlen with
      | [a, b, c, d, x, y], _ => rfl
    unfold hFix at h
    split at h
    · cases h
    rename_i h0
    split at h
    · cases h
    rename_i h1
    split at h
    · cases h
    rename_i h2
    split at h
    · cases h
    rename_i h3
    split at h
    · cases h
    rename_i hext
    refine ⟨?_, extNext_iff.1 h⟩
    rw [← not_not.1 hext, hi_word, lo_word, hf]
    rw [not_not.1 h0, not_not.1 h1, not_not.1 h2, not_not.1 h3]
  · rintro ⟨hf, hnext⟩
    have h0 : r.f 0 = 0 := f_of_field hf 0
    have h1 : r.f 1 = 0x13 := f_of_field hf 1
    have h2 : r.f 2 = 0x03 := f_of_field hf 2
    have h3 : r.f 3 = 0 := f_of_field hf 3
    have h4 : r.f 4 = hi r.rem := f_of_field hf 4
    have h5 : r.f 5 = lo r.rem := f_of_field hf 5
    unfold hFix
    rw [h0, h1, h2, h3, h4, h5, if_neg (by simp), if_neg (by simp), if_neg (by simp),
      if_neg (by simp), if_neg (by rw [word_hi_lo hrem]; simp)]
    exact extNext_iff.2 hnext

/-- `h_exh`, with the length of the extension read. -/
theorem hExh_eq {n : Nat} (hn : word (r.f 2) (r.f 3) = n) :
    r.hExh =
      if r.rem < n then { r with d := n }.fail .extLen
      else if r.f 0 ≠ 0 then { r with d := n }.fail .ext
      else if r.f 1 = 0x2b then
        if r.seenVer then { r with d := n }.fail .version
        else if n ≠ 2 then { r with d := n }.fail .version
        else { r with d := n }.arm .sv
      else if r.f 1 = 0x33 then
        if r.seenKs then { r with d := n }.fail .ksLen
        else if n < 4 then { r with d := n }.fail .ksLen
        else { r with d := n }.arm .ksh
      else { r with d := n }.fail .ext := by
  subst hn
  rfl

theorem hExh_iff (hlen : r.field.length = 4) (hrem : r.rem < 65536) :
    r.hExh = .again r' ↔
      (r.field = [0, 0x2b, 0, 2] ∧ 2 ≤ r.rem ∧ r.seenVer = false ∧
        r' = armed .sv { r with d := 2 }) ∨
      ∃ n, r.field = [0, 0x33, hi n, lo n] ∧ 4 ≤ n ∧ n ≤ r.rem ∧ r.seenKs = false ∧
        r' = armed .ksh { r with d := n } := by
  constructor
  · intro h
    have hf := field_four hlen
    rw [hExh_eq rfl] at h
    split at h
    · cases h
    rename_i hfit
    split at h
    · cases h
    rename_i h0
    split at h
    · rename_i h1
      split at h
      · cases h
      rename_i hnew
      split at h
      · cases h
      rename_i hd
      have htwo : word (r.f 2) (r.f 3) = 2 := not_not.1 hd
      rw [htwo] at h hfit
      cases h
      have h2 : r.f 2 = 0 := by
        rw [← hi_word (r.f 2) (r.f 3), htwo]
        rfl
      have h3 : r.f 3 = 2 := by
        rw [← lo_word (r.f 2) (r.f 3), htwo]
        rfl
      refine Or.inl ⟨?_, Nat.le_of_not_lt hfit, Bool.eq_false_of_not_eq_true hnew, rfl⟩
      rw [hf, not_not.1 h0, h1, h2, h3]
    split at h
    · rename_i h1
      split at h
      · cases h
      rename_i hnew
      split at h
      · cases h
      rename_i hd
      cases h
      refine Or.inr ⟨word (r.f 2) (r.f 3), ?_, Nat.le_of_not_lt hd, Nat.le_of_not_lt hfit,
        Bool.eq_false_of_not_eq_true hnew, rfl⟩
      rw [hi_word, lo_word, ← not_not.1 h0, ← h1]
      exact hf
    · cases h
  · rintro (⟨hf, hfit, hnew, rfl⟩ | ⟨n, hf, hmin, hfit, hnew, rfl⟩)
    · have h0 : r.f 0 = 0 := f_of_field hf 0
      have h1 : r.f 1 = 0x2b := f_of_field hf 1
      have hw : word (r.f 2) (r.f 3) = 2 := by
        rw [f_of_field hf 2, f_of_field hf 3]
        rfl
      rw [hExh_eq hw, h0, h1, if_neg (by omega), if_neg (by simp), if_pos rfl,
        if_neg (by rw [hnew]; simp), if_neg (by simp)]
      rfl
    · have h0 : r.f 0 = 0 := f_of_field hf 0
      have h1 : r.f 1 = 0x33 := f_of_field hf 1
      have hw : word (r.f 2) (r.f 3) = n := by
        rw [f_of_field hf 2, f_of_field hf 3]
        exact word_hi_lo (by omega)
      rw [hExh_eq hw, h0, h1, if_neg (by omega), if_neg (by simp), if_neg (by decide), if_pos rfl,
        if_neg (by rw [hnew]; simp), if_neg (by omega)]
      rfl

theorem hSv_iff (hlen : r.field.length = 2) :
    r.hSv = .again r' ↔ r.field = [3, 4] ∧ Next { r with seenVer := true } r' := by
  constructor
  · intro h
    have hf : r.field = [r.f 0, r.f 1] := by
      unfold f
      match hf : r.field, hlen with
      | [a, b], _ => rfl
    unfold hSv at h
    split at h
    · cases h
    rename_i h0
    split at h
    · cases h
    rename_i h1
    refine ⟨?_, extNext_iff.1 h⟩
    rw [hf, not_not.1 h0, not_not.1 h1]
  · rintro ⟨hf, hnext⟩
    have h0 : r.f 0 = 3 := f_of_field hf 0
    have h1 : r.f 1 = 4 := f_of_field hf 1
    unfold hSv
    rw [h0, h1, if_neg (by simp), if_neg (by simp)]
    exact extNext_iff.2 hnext

theorem hKsh_iff (hlen : r.field.length = 4) :
    r.hKsh = .again r' ↔
      (r.field = [0, 0x1d, 0, 32] ∧ r.d = 36 ∧ r' = armed .pub { r with kexGroup := 0x1d }) ∨
      (r.field = [0x11, 0xec, hi 1120, lo 1120] ∧ r.d = 1124 ∧ r.offered = true ∧
        r' = armed .ct { r with kexGroup := 0xec }) := by
  constructor
  · intro h
    have hf := field_four hlen
    unfold hKsh at h
    split at h
    · cases h
    rename_i hsum
    have hsum : add16 (word (r.f 2) (r.f 3)) 4 = r.d := not_not.1 hsum
    split at h
    · rename_i h0
      split at h
      · cases h
      rename_i h1
      split at h
      · cases h
      rename_i hd
      have hw : word (r.f 2) (r.f 3) = 32 := not_not.1 hd
      cases h
      -- the length of the key fixes the last two bytes of the field
      have h2 : r.f 2 = 0 := by
        rw [← hi_word (r.f 2) (r.f 3), hw]
        rfl
      have h3 : r.f 3 = 32 := by
        rw [← lo_word (r.f 2) (r.f 3), hw]
        rfl
      refine Or.inl ⟨?_, ?_, rfl⟩
      · rw [hf, h0, not_not.1 h1, h2, h3]
      · rw [← hsum, hw, add16_of_lt (by omega)]
    split at h
    · cases h
    rename_i h0
    split at h
    · cases h
    rename_i h1
    split at h
    · cases h
    rename_i hoff
    split at h
    · cases h
    rename_i hd
    have hw : word (r.f 2) (r.f 3) = 1120 := not_not.1 hd
    cases h
    -- the hybrid group, where it was offered
    refine Or.inr ⟨?_, ?_, by simpa using hoff, rfl⟩
    · rw [← hw, hi_word, lo_word, ← not_not.1 h0, ← not_not.1 h1]
      exact hf
    · rw [← hsum, hw, add16_of_lt (by omega)]
  · rintro (⟨hf, hd, rfl⟩ | ⟨hf, hd, hoff, rfl⟩)
    · have h0 : r.f 0 = 0 := f_of_field hf 0
      have h1 : r.f 1 = 0x1d := f_of_field hf 1
      have h2 : r.f 2 = 0 := f_of_field hf 2
      have h3 : r.f 3 = 32 := f_of_field hf 3
      have hw : word 0 32 = 32 := rfl
      unfold hKsh
      rw [h0, h1, h2, h3, hw, hd, if_neg (by rw [add16_of_lt (by omega)]; simp), if_pos rfl,
        if_neg (by simp), if_neg (by simp)]
      rfl
    · have h0 : r.f 0 = 0x11 := f_of_field hf 0
      have h1 : r.f 1 = 0xec := f_of_field hf 1
      have h2 : r.f 2 = hi 1120 := f_of_field hf 2
      have h3 : r.f 3 = lo 1120 := f_of_field hf 3
      unfold hKsh
      rw [h0, h1, h2, h3, word_hi_lo (by omega), hd, hoff,
        if_neg (by rw [add16_of_lt (by omega)]; simp), if_neg (by decide), if_neg (by simp),
        if_neg (by simp), if_neg (by simp), if_neg (by simp)]
      rfl

/-- A handler that goes on has made the move of its state. -/
theorem handler_iff (hlive : r.state ≠ .done) (hlen : r.field.length = r.state.len)
    (hrem : r.state = .hdr ∨ r.rem < 65536) : r.handler = .again r' ↔ Move r r' := by
  obtain ⟨shErr, st, cnt, rem, d, field, seenVer, seenKs, offered, kexGroup, random, ct, pub⟩ := r
  cases st with
  | hdr => exact hHdr_iff hlen
  | ver => exact ⟨fun h => (Turn.again.inj h).symm, fun h => congrArg Turn.again h.symm⟩
  | rnd => exact hRnd_iff
  | fix => exact hFix_iff hlen (hrem.resolve_left nofun)
  | exh => exact hExh_iff hlen (hrem.resolve_left nofun)
  | sv => exact hSv_iff hlen
  | ksh => exact hKsh_iff hlen
  | ct => exact ⟨fun h => (Turn.again.inj h).symm, fun h => congrArg Turn.again h.symm⟩
  | pub => exact extNext_iff
  | done => exact absurd rfl hlive

end Handlers

/-! ## The message, from its end -/

section Message

variable {r r' : ShReader} {bs : List UInt8}

/-- A field, and the move behind it. -/
theorem reads_move (h : Armed r) : Reads r bs r' ↔ ∃ fs rest r₁, bs = fs ++ rest ∧
    fs.length = r.state.len ∧ Move (r.part fs) r₁ ∧ Reads r₁ rest r' := by
  have hmove : ∀ fs : List UInt8, fs.length = r.state.len → ∀ r₁,
      (r.part fs).handler = .again r₁ ↔ Move (r.part fs) r₁ := by
    intro fs hlen r₁
    refine handler_iff h.live hlen ?_
    rcases h.room with hhdr | ⟨hroom, hsmall⟩
    · exact Or.inl hhdr
    · refine Or.inr ?_
      show (if r.state = .hdr then r.rem else r.rem - fs.length) < 65536
      split
      · exact hsmall
      · omega
  rw [reads_field h]
  constructor
  · rintro ⟨fs, rest, r₁, hbs, hlen, hturn, hrest⟩
    exact ⟨fs, rest, r₁, hbs, hlen, (hmove fs hlen r₁).1 hturn, hrest⟩
  · rintro ⟨fs, rest, r₁, hbs, hlen, hturn, hrest⟩
    exact ⟨fs, rest, r₁, hbs, hlen, (hmove fs hlen r₁).2 hturn, hrest⟩

/-- Behind a complete extension. -/
def ReadsNext (q : ShReader) (bs : List UInt8) (r' : ShReader) : Prop :=
  ∃ r₁, Next q r₁ ∧ Reads r₁ bs r'

/-- The field that was read last does not count any more. -/
theorem ReadsNext.congr {q q' : ShReader} (hq : ReadsNext q bs r')
    (h : armed .exh q = armed .exh q') : ReadsNext q' bs r' := by
  have hdone : armed .done (armed .exh q) = armed .done (armed .exh q') := congrArg (armed .done) h
  have hrem : (armed .exh q).rem = (armed .exh q').rem := congrArg ShReader.rem h
  have hver : (armed .exh q).seenVer = (armed .exh q').seenVer := congrArg ShReader.seenVer h
  have hks : (armed .exh q).seenKs = (armed .exh q').seenKs := congrArg ShReader.seenKs h
  obtain ⟨r₁, hnext, hrest⟩ := hq
  cases hnext with
  | done h₁ h₂ h₃ =>
      exact ⟨armed .done q', .done (hrem.symm.trans h₁) (hver.symm.trans h₂) (hks.symm.trans h₃),
        (show armed .done q = armed .done q' from hdone) ▸ hrest⟩
  | more h₁ => exact ⟨armed .exh q', .more (h₁.trans hrem.le), h ▸ hrest⟩

/-- The reader behind supported_versions. -/
def withVersion (q : ShReader) : ShReader :=
  { q with rem := q.rem - 6, d := 2, seenVer := true }

/-- The reader behind key_share. -/
def withShare (q : ShReader) (s : KeyShare) : ShReader :=
  { q with
    rem := q.rem - (s.dataLen + 4), d := s.dataLen, seenKs := true, kexGroup := s.group
    ciphertext := if s.isHybrid then s.ct else q.ciphertext
    serverPubkey := s.pub }

theorem armed_armed (st : ShsState) (hst : st ≠ .done) (q : ShReader)
    (hroom : st = .hdr ∨ st.len ≤ q.rem ∧ q.rem < 65536) : Armed (armed st q) :=
  ⟨rfl, rfl, hst, hroom⟩

/-- The body of supported_versions. -/
theorem reads_sv {q : ShReader} (hroom : 2 ≤ q.rem) (hrem : q.rem < 65536) :
    Reads (armed .sv q) bs r' ↔ ∃ rest, bs = [3, 4] ++ rest ∧
      ReadsNext { q with rem := q.rem - 2, seenVer := true } rest r' := by
  rw [reads_move (armed_armed .sv (by decide) q (Or.inr ⟨hroom, hrem⟩))]
  constructor
  · rintro ⟨fs, rest, r₁, rfl, hlen, ⟨hf, hnext⟩, hrest⟩
    have hfs : fs = [3, 4] := hf
    subst hfs
    have hq : ReadsNext _ rest r' := ⟨r₁, hnext, hrest⟩
    exact ⟨rest, rfl, hq.congr rfl⟩
  · rintro ⟨rest, rfl, hq⟩
    have hq' : ReadsNext { (armed .sv q).part [3, 4] with seenVer := true } rest r' := hq.congr rfl
    obtain ⟨r₁, hnext, hrest⟩ := hq'
    exact ⟨[3, 4], rest, r₁, rfl, rfl, ⟨rfl, hnext⟩, hrest⟩

/-- The share. -/
theorem reads_pub {q : ShReader} (hroom : 32 ≤ q.rem) (hrem : q.rem < 65536) :
    Reads (armed .pub q) bs r' ↔ ∃ pub rest, bs = pub ++ rest ∧ pub.length = 32 ∧
      ReadsNext { q with rem := q.rem - 32, serverPubkey := pub, seenKs := true } rest r' := by
  rw [reads_move (armed_armed .pub (by decide) q (Or.inr ⟨hroom, hrem⟩))]
  constructor
  · rintro ⟨fs, rest, r₁, rfl, hlen, hnext, hrest⟩
    have hlen' : fs.length = 32 := hlen
    have hq : ReadsNext { (armed .pub q).part fs with serverPubkey := fs, seenKs := true } rest r' :=
      ⟨r₁, hnext, hrest⟩
    refine ⟨fs, rest, rfl, hlen', ?_⟩
    rw [← hlen']
    exact hq.congr rfl
  · rintro ⟨pub, rest, rfl, hlen, hq⟩
    rw [← hlen] at hq
    have hq' : ReadsNext { (armed .pub q).part pub with serverPubkey := pub, seenKs := true } rest r' :=
      hq.congr rfl
    obtain ⟨r₁, hnext, hrest⟩ := hq'
    exact ⟨pub, rest, r₁, rfl, hlen, hnext, hrest⟩

/-- The ciphertext, and then the share. -/
theorem reads_ct {q : ShReader} (hroom : 1120 ≤ q.rem) (hrem : q.rem < 65536) :
    Reads (armed .ct q) bs r' ↔ ∃ ct rest, bs = ct ++ rest ∧ ct.length = 1088 ∧
      Reads (armed .pub { q with rem := q.rem - 1088, ciphertext := ct }) rest r' := by
  rw [reads_move (armed_armed .ct (by decide) q
    (Or.inr ⟨show 1088 ≤ q.rem by omega, hrem⟩))]
  constructor
  · rintro ⟨fs, rest, r₁, rfl, hlen, hr₁, hrest⟩
    have hlen' : fs.length = 1088 := hlen
    have hnext : r₁ = armed .pub { q with rem := q.rem - fs.length, ciphertext := fs } := hr₁
    rw [hlen'] at hnext
    exact ⟨fs, rest, rfl, hlen', hnext ▸ hrest⟩
  · rintro ⟨ct, rest, rfl, hlen, hrest⟩
    rw [← hlen] at hrest
    exact ⟨ct, rest, _, rfl, hlen, rfl, hrest⟩

/-- Behind an X25519 share. -/
theorem withShare_x25519 {q : ShReader} (hd : q.d = 36) {pub : List UInt8}
    (hp : pub.length = 32) :
    armed .exh (withShare { q with rem := q.rem + 4 } (.x25519 pub hp)) =
      armed .exh { q with
        rem := q.rem - 4 - 32, kexGroup := 0x1d, serverPubkey := pub, seenKs := true } := by
  have hsum : q.rem + 4 - (36 + 4) = q.rem - 4 - 32 := by omega
  show armed .exh { q with
    rem := q.rem + 4 - (36 + 4), d := 36, kexGroup := 0x1d, serverPubkey := pub
    seenKs := true } = _
  rw [hsum, ← hd]

/-- Behind a hybrid share. -/
theorem withShare_hybrid {q : ShReader} (hd : q.d = 1124) {ct pub : List UInt8}
    (hc : ct.length = 1088) (hp : pub.length = 32) :
    armed .exh (withShare { q with rem := q.rem + 4 } (.hybrid ct pub hc hp)) =
      armed .exh { q with
        rem := q.rem - 4 - 1088 - 32, kexGroup := 0xec, ciphertext := ct, serverPubkey := pub
        seenKs := true } := by
  have hsum : q.rem + 4 - (1124 + 4) = q.rem - 4 - 1088 - 32 := by omega
  show armed .exh { q with
    rem := q.rem + 4 - (1124 + 4), d := 1124, kexGroup := 0xec, ciphertext := ct
    serverPubkey := pub, seenKs := true } = _
  rw [hsum, ← hd]

/-- The body of key_share. -/
theorem reads_ksh {q : ShReader} (hfour : 4 ≤ q.d) (hroom : q.d ≤ q.rem) (hrem : q.rem < 65536) :
    Reads (armed .ksh q) bs r' ↔ ∃ (s : KeyShare) (rest : List UInt8),
      bs = s.body ++ rest ∧ q.d = s.dataLen ∧ (s.isHybrid = true → q.offered = true) ∧
        ReadsNext (withShare { q with rem := q.rem + 4 } s) rest r' := by
  rw [reads_move (armed_armed .ksh (by decide) q
    (Or.inr ⟨show 4 ≤ q.rem by omega, hrem⟩))]
  constructor
  · rintro ⟨fs, rest, r₁, rfl, hlen, hmove, hrest⟩
    rcases hmove with ⟨hf, hd, rfl⟩ | ⟨hf, hd, hoff, rfl⟩
    · have hfs : fs = [0, 0x1d, 0, 32] := hf
      have hd' : q.d = 36 := hd
      subst hfs
      have hpub : Reads (armed .pub { q with rem := q.rem - 4, kexGroup := 0x1d }) rest r' := hrest
      rw [reads_pub (show 32 ≤ q.rem - 4 by omega) (show q.rem - 4 < 65536 by omega)] at hpub
      obtain ⟨pub, rest', rfl, hp, hq⟩ := hpub
      exact ⟨.x25519 pub hp, rest', rfl, hd', nofun, hq.congr (withShare_x25519 hd' hp).symm⟩
    · have hfs : fs = [0x11, 0xec, hi 1120, lo 1120] := hf
      have hd' : q.d = 1124 := hd
      subst hfs
      have hct : Reads (armed .ct { q with rem := q.rem - 4, kexGroup := 0xec }) rest r' := hrest
      have hmin : 1120 ≤ q.rem - 4 := by omega
      have hmax : q.rem - 4 < 65536 := by omega
      obtain ⟨ct, rest', rfl, hc, hpub⟩ :=
        (reads_ct (q := { q with rem := q.rem - 4, kexGroup := 0xec }) hmin hmax).1 hct
      have hmin' : 32 ≤ q.rem - 4 - 1088 := by omega
      have hmax' : q.rem - 4 - 1088 < 65536 := by omega
      obtain ⟨pub, rest'', rfl, hp, hq⟩ := (reads_pub (q := { q with
        rem := q.rem - 4 - 1088, kexGroup := 0xec, ciphertext := ct }) hmin' hmax').1 hpub
      refine ⟨.hybrid ct pub hc hp, rest'', ?_, hd', fun _ => hoff,
        hq.congr (withShare_hybrid hd' hc hp).symm⟩
      unfold KeyShare.body
      rw [List.append_assoc, List.append_assoc]
  · rintro ⟨s, rest, rfl, hd, hoff, hq⟩
    cases s with
    | x25519 pub hp =>
        have hd' : q.d = 36 := hd
        refine ⟨[0, 0x1d, 0, 32], pub ++ rest, _, rfl, rfl, Or.inl ⟨rfl, hd', rfl⟩, ?_⟩
        show Reads (armed .pub { q with rem := q.rem - 4, kexGroup := 0x1d }) _ r'
        rw [reads_pub (show 32 ≤ q.rem - 4 by omega) (show q.rem - 4 < 65536 by omega)]
        exact ⟨pub, rest, rfl, hp, hq.congr (withShare_x25519 hd' hp)⟩
    | hybrid ct pub hc hp =>
        have hd' : q.d = 1124 := hd
        refine ⟨[0x11, 0xec, hi 1120, lo 1120], ct ++ (pub ++ rest), _, ?_, rfl,
          Or.inr ⟨rfl, hd', hoff rfl, rfl⟩, ?_⟩
        · unfold KeyShare.body
          rw [List.append_assoc, List.append_assoc]
        · have hmin : 1120 ≤ q.rem - 4 := by omega
          have hmax : q.rem - 4 < 65536 := by omega
          have hmin' : 32 ≤ q.rem - 4 - 1088 := by omega
          have hmax' : q.rem - 4 - 1088 < 65536 := by omega
          refine (reads_ct (q := { q with rem := q.rem - 4, kexGroup := 0xec }) hmin hmax).2
            ⟨ct, pub ++ rest, rfl, hc, ?_⟩
          refine (reads_pub (q := { q with
            rem := q.rem - 4 - 1088, kexGroup := 0xec, ciphertext := ct }) hmin' hmax').2
              ⟨pub, rest, rfl, hp, hq.congr (withShare_hybrid hd' hc hp)⟩

/-- Both extensions have been read: the message has to end. -/
theorem readsNext_both {q : ShReader} (hver : q.seenVer = true) (hks : q.seenKs = true)
    (hrem : q.rem < 65536) :
    ReadsNext q bs r' ↔ bs = [] ∧ q.rem = 0 ∧ r' = armed .done q := by
  constructor
  · rintro ⟨r₁, hnext, hrest⟩
    cases hnext with
    | done hzero _ _ =>
        obtain ⟨hbs, hr⟩ := (reads_done rfl).1 hrest
        exact ⟨hbs, hzero, hr⟩
    | more hfour =>
        obtain ⟨fs, rest, r₂, -, -, hmove, -⟩ :=
          (reads_move (armed_armed .exh (by decide) q (Or.inr ⟨hfour, hrem⟩))).1 hrest
        rcases hmove with ⟨-, -, hnew, -⟩ | ⟨n, -, -, -, hnew, -⟩
        · exact absurd (hver.symm.trans hnew) (by decide)
        · exact absurd (hks.symm.trans hnew) (by decide)
  · rintro ⟨rfl, hzero, rfl⟩
    exact ⟨armed .done q, .done hzero hver hks, (reads_done rfl).2 ⟨rfl, rfl⟩⟩

/-- One of them is missing: it is the next, and it is a new one. -/
theorem readsNext_ext {q : ShReader} (hmissing : q.seenVer = false ∨ q.seenKs = false)
    (hrem : q.rem < 65536) :
    ReadsNext q bs r' ↔
      (q.seenVer = false ∧ 6 ≤ q.rem ∧ ∃ rest, bs = versionExt ++ rest ∧
        ReadsNext q.withVersion rest r') ∨
      (q.seenKs = false ∧ ∃ (s : KeyShare) (rest : List UInt8), s.dataLen + 4 ≤ q.rem ∧
        bs = s.encode ++ rest ∧ (s.isHybrid = true → q.offered = true) ∧
          ReadsNext (q.withShare s) rest r') := by
  constructor
  · rintro ⟨r₁, hnext, hrest⟩
    cases hnext with
    | done _ hver hks =>
        -- the reader does not stop while one of the two extensions is missing
        rcases hmissing with hno | hno
        · exact absurd (hver.symm.trans hno) (by decide)
        · exact absurd (hks.symm.trans hno) (by decide)
    | more hfour =>
        obtain ⟨fs, rest, r₂, rfl, -, hmove, hbody⟩ :=
          (reads_move (armed_armed .exh (by decide) q (Or.inr ⟨hfour, hrem⟩))).1 hrest
        -- either supported_versions with its two bytes, or a key_share
        rcases hmove with ⟨hf, hfit, hnew, rfl⟩ | ⟨n, hf, hmin, hfit, hnew, rfl⟩
        · have hfs : fs = [0, 0x2b, 0, 2] := hf
          subst hfs
          have hfit' : 2 ≤ q.rem - 4 := hfit
          have hmax : q.rem - 4 < 65536 := by omega
          obtain ⟨rest', rfl, hq⟩ :=
            (reads_sv (q := { q with rem := q.rem - 4, d := 2 }) hfit' hmax).1 hbody
          exact Or.inl ⟨hnew, by omega, rest', rfl, hq⟩
        · have hfs : fs = [0, 0x33, hi n, lo n] := hf
          subst hfs
          have hfit' : n ≤ q.rem - 4 := hfit
          have hmax : q.rem - 4 < 65536 := by omega
          obtain ⟨s, rest', rfl, hn, hoff, hq⟩ :=
            (reads_ksh (q := { q with rem := q.rem - 4, d := n }) hmin hfit' hmax).1 hbody
          have hback : q.rem - 4 + 4 = q.rem := by omega
          have hn' : n = s.dataLen := hn
          subst hn'
          refine Or.inr ⟨hnew, s, rest', by omega, ?_, hoff, ?_⟩
          · unfold KeyShare.encode
            rw [List.append_assoc]
          · refine hq.congr ?_
            show armed .exh (withShare { q with rem := q.rem - 4 + 4, d := s.dataLen } s) = _
            rw [hback]
            rfl
  · rintro (⟨hnew, hsix, rest, rfl, hq⟩ | ⟨hnew, s, rest, hfit, rfl, hoff, hq⟩)
    · have hfour : 4 ≤ q.rem := by omega
      have hfit : 2 ≤ q.rem - 4 := by omega
      have hmax : q.rem - 4 < 65536 := by omega
      refine ⟨_, .more hfour,
        (reads_move (armed_armed .exh (by decide) q (Or.inr ⟨hfour, hrem⟩))).2
          ⟨[0, 0x2b, 0, 2], [3, 4] ++ rest, _, rfl, rfl, Or.inl ⟨rfl, hfit, hnew, rfl⟩, ?_⟩⟩
      exact (reads_sv (q := { q with rem := q.rem - 4, d := 2 }) hfit hmax).2 ⟨rest, rfl, hq⟩
    · have hfour : 4 ≤ q.rem := by omega
      have hfit' : s.dataLen ≤ q.rem - 4 := by omega
      have hmax : q.rem - 4 < 65536 := by omega
      have hmin : 4 ≤ s.dataLen := by
        cases s with
        | x25519 pub hpub => exact (by decide : 4 ≤ 36)
        | hybrid ct pub hct hpub => exact (by decide : 4 ≤ 1124)
      refine ⟨_, .more hfour,
        (reads_move (armed_armed .exh (by decide) q (Or.inr ⟨hfour, hrem⟩))).2
          ⟨[0, 0x33, hi s.dataLen, lo s.dataLen], s.body ++ rest, _, ?_, rfl,
            Or.inr ⟨s.dataLen, rfl, hmin, hfit', hnew, rfl⟩, ?_⟩⟩
      · unfold KeyShare.encode
        rw [List.append_assoc]
      · refine (reads_ksh (q := { q with rem := q.rem - 4, d := s.dataLen }) hmin hfit' hmax).2
          ⟨s, rest, rfl, rfl, hoff, hq.congr ?_⟩
        have hback : q.rem - 4 + 4 = q.rem := by omega
        show _ = armed .exh (withShare { q with rem := q.rem - 4 + 4, d := s.dataLen } s)
        rw [hback]
        rfl

/-- The reader behind the extension block. -/
def withExtensions (q : ShReader) (first : Bool) (s : KeyShare) : ShReader :=
  if first then (q.withVersion).withShare s else (q.withShare s).withVersion

/-- The extension block, from its start to the end of the message. -/
theorem readsNext_block {q : ShReader} (hver : q.seenVer = false) (hks : q.seenKs = false)
    (hrem : q.rem < 65536) :
    ReadsNext q bs r' ↔ ∃ (s : KeyShare) (first : Bool),
      bs = (if first then versionExt ++ s.encode else s.encode ++ versionExt) ∧
        q.rem = s.dataLen + 10 ∧ (s.isHybrid = true → q.offered = true) ∧
          r' = armed .done (q.withExtensions first s) := by
  rw [readsNext_ext (Or.inl hver) hrem]
  constructor
  · rintro (⟨-, hsix, rest, rfl, hq⟩ | ⟨-, s, rest, hfit, rfl, hoff, hq⟩)
    · have hmax : q.rem - 6 < 65536 := by omega
      rcases (readsNext_ext (q := q.withVersion) (Or.inr hks) hmax).1 hq with
        ⟨hno, -⟩ | ⟨-, s, rest', hfit, rfl, hoff, hq'⟩
      · cases hno
      · have hfit' : s.dataLen + 4 ≤ q.rem - 6 := hfit
        obtain ⟨rfl, hzero, hr⟩ :=
          (readsNext_both (q := q.withVersion.withShare s) rfl rfl (by
            show q.rem - 6 - (s.dataLen + 4) < 65536
            omega)).1 hq'
        have hzero' : q.rem - 6 - (s.dataLen + 4) = 0 := hzero
        refine ⟨s, true, ?_, by omega, hoff, hr⟩
        rw [if_pos rfl, List.append_nil]
    · have hmax : q.rem - (s.dataLen + 4) < 65536 := by omega
      rcases (readsNext_ext (q := q.withShare s) (Or.inl hver) hmax).1 hq with
        ⟨-, hsix, rest', rfl, hq'⟩ | ⟨hno, -⟩
      · have hsix' : 6 ≤ q.rem - (s.dataLen + 4) := hsix
        obtain ⟨rfl, hzero, hr⟩ :=
          (readsNext_both (q := (q.withShare s).withVersion) rfl rfl (by
            show q.rem - (s.dataLen + 4) - 6 < 65536
            omega)).1 hq'
        have hzero' : q.rem - (s.dataLen + 4) - 6 = 0 := hzero
        refine ⟨s, false, ?_, by omega, hoff, hr⟩
        rw [if_neg (by decide), List.append_nil]
      · cases hno
  · rintro ⟨s, first, rfl, hsize, hoff, rfl⟩
    cases first with
    | true =>
        refine Or.inl ⟨hver, by omega, s.encode, if_pos rfl, ?_⟩
        have hmax : q.rem - 6 < 65536 := by omega
        have hfit : s.dataLen + 4 ≤ q.rem - 6 := by omega
        refine (readsNext_ext (q := q.withVersion) (Or.inr hks) hmax).2
          (Or.inr ⟨hks, s, [], hfit, (List.append_nil _).symm, hoff, ?_⟩)
        have hzero : q.rem - 6 - (s.dataLen + 4) = 0 := by omega
        exact (readsNext_both (q := q.withVersion.withShare s) rfl rfl (by
          show q.rem - 6 - (s.dataLen + 4) < 65536
          omega)).2 ⟨rfl, hzero, rfl⟩
    | false =>
        refine Or.inr ⟨hks, s, versionExt, by omega, if_neg (by decide), hoff, ?_⟩
        have hmax : q.rem - (s.dataLen + 4) < 65536 := by omega
        have hfit : 6 ≤ q.rem - (s.dataLen + 4) := by omega
        refine (readsNext_ext (q := q.withShare s) (Or.inl hver) hmax).2
          (Or.inl ⟨hver, hfit, [], (List.append_nil _).symm, ?_⟩)
        have hzero : q.rem - (s.dataLen + 4) - 6 = 0 := by omega
        exact (readsNext_both (q := (q.withShare s).withVersion) rfl rfl (by
          show q.rem - (s.dataLen + 4) - 6 < 65536
          omega)).2 ⟨rfl, hzero, rfl⟩

/-- The fixed part behind the random, and then the extension block. -/
theorem reads_fix {q : ShReader} (hroom : 6 ≤ q.rem) (hrem : q.rem < 65536) :
    Reads (armed .fix q) bs r' ↔ ∃ rest,
      bs = [0, 0x13, 0x03, 0, hi (q.rem - 6), lo (q.rem - 6)] ++ rest ∧
        ReadsNext { q with rem := q.rem - 6 } rest r' := by
  rw [reads_move (armed_armed .fix (by decide) q (Or.inr ⟨hroom, hrem⟩))]
  constructor
  · rintro ⟨fs, rest, r₁, rfl, hlen, ⟨hf, hnext⟩, hrest⟩
    have hlen' : fs.length = 6 := hlen
    have hfs : fs = [0, 0x13, 0x03, 0, hi (q.rem - fs.length), lo (q.rem - fs.length)] := hf
    have hq : ReadsNext { q with rem := q.rem - fs.length } rest r' :=
      ReadsNext.congr ⟨r₁, hnext, hrest⟩ rfl
    rw [hlen'] at hfs hq
    exact ⟨rest, congrArg (· ++ rest) hfs, hq⟩
  · rintro ⟨rest, rfl, hq⟩
    have hq' : ReadsNext ((armed .fix q).part
        [0, 0x13, 0x03, 0, hi (q.rem - 6), lo (q.rem - 6)]) rest r' := hq.congr rfl
    obtain ⟨r₁, hnext, hrest⟩ := hq'
    exact ⟨_, rest, r₁, rfl, rfl, ⟨rfl, hnext⟩, hrest⟩

theorem reads_rnd {q : ShReader} (hroom : 32 ≤ q.rem) (hrem : q.rem < 65536) :
    Reads (armed .rnd q) bs r' ↔ ∃ random rest, bs = random ++ rest ∧ random.length = 32 ∧
      random ≠ hrrMagic ∧
        Reads (armed .fix { q with rem := q.rem - 32, serverRandom := random }) rest r' := by
  rw [reads_move (armed_armed .rnd (by decide) q (Or.inr ⟨hroom, hrem⟩))]
  constructor
  · rintro ⟨fs, rest, r₁, rfl, hlen, ⟨hne, hr₁⟩, hrest⟩
    have hlen' : fs.length = 32 := hlen
    have hnext : r₁ = armed .fix { q with rem := q.rem - fs.length, serverRandom := fs } := hr₁
    rw [hlen'] at hnext
    exact ⟨fs, rest, rfl, hlen', hne, hnext ▸ hrest⟩
  · rintro ⟨random, rest, rfl, hlen, hne, hrest⟩
    rw [← hlen] at hrest
    exact ⟨random, rest, _, rfl, hlen, ⟨hne, rfl⟩, hrest⟩

theorem reads_ver {q : ShReader} (hroom : 2 ≤ q.rem) (hrem : q.rem < 65536) :
    Reads (armed .ver q) bs r' ↔ ∃ version rest, bs = version ++ rest ∧ version.length = 2 ∧
      Reads (armed .rnd { q with rem := q.rem - 2 }) rest r' := by
  rw [reads_move (armed_armed .ver (by decide) q (Or.inr ⟨hroom, hrem⟩))]
  constructor
  · rintro ⟨fs, rest, r₁, rfl, hlen, hr₁, hrest⟩
    have hlen' : fs.length = 2 := hlen
    have hnext : r₁ = armed .rnd { q with rem := q.rem - fs.length } := hr₁
    rw [hlen'] at hnext
    exact ⟨fs, rest, rfl, hlen', hnext ▸ hrest⟩
  · rintro ⟨version, rest, rfl, hlen, hrest⟩
    rw [← hlen] at hrest
    exact ⟨version, rest, _, rfl, hlen, rfl, hrest⟩

/-- The message header, from a fresh reader. -/
theorem reads_hdr (r : ShReader) :
    Reads r.init bs r' ↔ ∃ n rest, bs = [hsServerHello, 0, hi n, lo n] ++ rest ∧ 40 ≤ n ∧
      n < 1536 ∧ Reads (armed .ver { r.init with rem := n }) rest r' := by
  have hinit : Armed r.init := ⟨rfl, rfl, nofun, Or.inl rfl⟩
  rw [reads_move hinit]
  constructor
  · rintro ⟨fs, rest, r₁, rfl, -, ⟨n, hf, hmin, hmax, rfl⟩, hrest⟩
    exact ⟨n, rest, congrArg (· ++ rest) hf, hmin, hmax, hrest⟩
  · rintro ⟨n, rest, rfl, hmin, hmax, hrest⟩
    exact ⟨_, rest, _, rfl, rfl, ⟨n, rfl, hmin, hmax, rfl⟩, hrest⟩

/-- The reader behind a whole message. -/
def withMessage (r : ShReader) (m : HelloMessage) : ShReader :=
  armed .done (withExtensions { r.init with
    rem := m.extensions.length, serverRandom := m.random } m.versionFirst m.share)

section WithMessage

variable (r : ShReader) (m : HelloMessage)

theorem withMessage_kexGroup : (r.withMessage m).kexGroup = m.share.group := by
  unfold withMessage withExtensions
  split
  · rfl
  · rfl

theorem withMessage_seenKs : (r.withMessage m).seenKs = true := by
  unfold withMessage withExtensions
  split
  · rfl
  · rfl

theorem withMessage_serverRandom : (r.withMessage m).serverRandom = m.random := by
  unfold withMessage withExtensions
  split
  · rfl
  · rfl

theorem withMessage_serverPubkey : (r.withMessage m).serverPubkey = m.share.pub := by
  unfold withMessage withExtensions
  split
  · rfl
  · rfl

theorem withMessage_ciphertext (h : m.share.isHybrid = true) :
    (r.withMessage m).ciphertext = m.share.ct := by
  unfold withMessage withExtensions
  split
  · exact if_pos h
  · exact if_pos h

end WithMessage

/-- A reader that starts afresh comes to `SS_DONE` on the messages of the grammar, and on no other
byte string. -/
theorem reads_iff (r r' : ShReader) (bs : List UInt8) :
    Reads r.init bs r' ↔ ∃ m : HelloMessage, bs = m.encode ∧
      (m.share.isHybrid = true → r.offered = true) ∧ r' = r.withMessage m := by
  rw [reads_hdr]
  constructor
  · rintro ⟨n, rest, rfl, hmin, hmax, hrest⟩
    have hn₁ : n < 65536 := by omega
    obtain ⟨version, rest₁, rfl, hvlen, hrest₁⟩ :=
      (reads_ver (q := { r.init with rem := n }) (show 2 ≤ n by omega) hn₁).1 hrest
    have hn₂ : n - 2 < 65536 := by omega
    obtain ⟨random, rest₂, rfl, hrlen, hne, hrest₂⟩ :=
      (reads_rnd (q := { r.init with rem := n - 2 }) (show 32 ≤ n - 2 by omega) hn₂).1 hrest₁
    have hn₃ : n - 2 - 32 < 65536 := by omega
    obtain ⟨rest₃, rfl, hq⟩ :=
      (reads_fix (q := { r.init with rem := n - 2 - 32, serverRandom := random })
        (show 6 ≤ n - 2 - 32 by omega) hn₃).1 hrest₂
    have hn₄ : n - 2 - 32 - 6 < 65536 := by omega
    obtain ⟨s, first, hbs, hsize, hoff, hr'⟩ := (readsNext_block (q := { r.init with
      rem := n - 2 - 32 - 6, serverRandom := random }) rfl rfl hn₄).1 hq
    let m : HelloMessage := {
      version := version, random := random, share := s, versionFirst := first
      version_length := hvlen, random_length := hrlen, random_ne := hne }
    have hext : m.extensions = rest₃ := hbs.symm
    -- the counter has come down to the length that the message declares
    have hlen : m.extensions.length = n - 2 - 32 - 6 := by
      have hall := m.length_extensions
      have hsize' : n - 2 - 32 - 6 = s.dataLen + 10 := hsize
      have hshare : m.share.dataLen = s.dataLen := rfl
      omega
    have hn : m.size = n := by
      unfold HelloMessage.size
      omega
    refine ⟨m, ?_, hoff, ?_⟩
    · unfold HelloMessage.encode
      rw [hn, hlen, hext]
    · rw [hr']
      unfold withMessage
      rw [hlen]
  · rintro ⟨m, rfl, hoff, rfl⟩
    have hall := m.length_extensions
    have hmax := m.size_lt
    have hsize : m.size = 40 + m.extensions.length := rfl
    have hn₁ : m.size < 65536 := by omega
    have hn₂ : m.size - 2 < 65536 := by omega
    have hn₃ : m.size - 2 - 32 < 65536 := by omega
    have hlen : m.size - 2 - 32 - 6 = m.extensions.length := by omega
    have hn₄ : m.extensions.length < 65536 := by omega
    have hblock : m.extensions.length = m.share.dataLen + 10 := by omega
    refine ⟨m.size, _, rfl, by omega, hmax, ?_⟩
    refine (reads_ver (q := { r.init with rem := m.size }) (show 2 ≤ m.size by omega) hn₁).2
      ⟨m.version, _, rfl, m.version_length, ?_⟩
    refine (reads_rnd (q := { r.init with rem := m.size - 2 }) (show 32 ≤ m.size - 2 by omega)
      hn₂).2 ⟨m.random, _, rfl, m.random_length, m.random_ne, ?_⟩
    refine (reads_fix (q := { r.init with
      rem := m.size - 2 - 32, serverRandom := m.random }) (show 6 ≤ m.size - 2 - 32 by omega)
      hn₃).2 ⟨m.extensions, ?_, ?_⟩
    · show _ = [0, 0x13, 0x03, 0, hi (m.size - 2 - 32 - 6), lo (m.size - 2 - 32 - 6)] ++ _
      rw [hlen]
    · show ReadsNext { r.init with
        rem := m.size - 2 - 32 - 6, serverRandom := m.random } _ _
      rw [hlen]
      exact (readsNext_block (q := { r.init with
        rem := m.extensions.length, serverRandom := m.random }) rfl rfl hn₄).2
          ⟨m.share, m.versionFirst, rfl, hblock, hoff, rfl⟩

end Message

end ShReader

end Tls
end C64Https
