import C64Https.Tls.ClassicWalk
import C64Https.Tls.CertParse

/-!
# ClassicHello — what the walk accepts (`src/tls_handshake.s`)

A ServerHello of the grammar, with any session id and any extensions beside the two that the client
needs.  The walk looks at neither the length of the message nor that of the record, takes the lengths
of the two extensions as they are, and takes the last of several key shares; and its index is one byte.
Where these are in order and what the index reads is what lies there, what it accepts is a message of
the grammar and the key is the one in it (`tlsParseServerHello_sound`).
-/

namespace C64Https
namespace Tls

open Word Loop Bytes

/-! ## Messages -/

structure HelloExt where
  tyHi : UInt8
  tyLo : UInt8
  data : List UInt8
  deriving DecidableEq, Repr

namespace HelloExt

def encode (e : HelloExt) : List UInt8 :=
  [e.tyHi, e.tyLo] ++ (len16 e.data.length ++ e.data)

def IsVersion (e : HelloExt) : Prop :=
  e.tyHi = 0 ∧ e.tyLo = 0x2b

def IsShare (e : HelloExt) : Prop :=
  e.tyHi = 0 ∧ e.tyLo = 0x33

instance (e : HelloExt) : Decidable e.IsVersion :=
  inferInstanceAs (Decidable (_ ∧ _))

instance (e : HelloExt) : Decidable e.IsShare :=
  inferInstanceAs (Decidable (_ ∧ _))

theorem length_encode (e : HelloExt) : e.encode.length = 4 + e.data.length := by
  unfold encode len16
  simp only [List.length_append, List.length_cons, List.length_nil]
  omega

end HelloExt

def encodeExts (es : List HelloExt) : List UInt8 :=
  es.flatMap HelloExt.encode

/-- The one key share, of x25519. -/
def shareOf (key : List UInt8) : HelloExt where
  tyHi := 0
  tyLo := 0x33
  data := [0, 0x1d, 0, 0x20] ++ key

/-- A ServerHello for TLS 1.3 and x25519, with the key `key`. -/
structure ClassicHello (key : List UInt8) where
  version : List UInt8
  random : List UInt8
  sid : List UInt8
  exts : List HelloExt
  version_length : version.length = 2
  random_length : random.length = 32
  sid_length : sid.length < 256
  exts_length : (encodeExts exts).length < 65536
  ext_length : ∀ e ∈ exts, e.data.length < 65536
  versions : ∀ e ∈ exts, e.IsVersion → e.data = [3, 4]
  hasVersion : ∃ e ∈ exts, e.IsVersion
  share : exts.filter (fun e => decide e.IsShare) = [shareOf key]
  key_length : key.length = 32

namespace ClassicHello

variable {key : List UInt8}

def block (m : ClassicHello key) : List UInt8 :=
  encodeExts m.exts

def body (m : ClassicHello key) : List UInt8 :=
  m.version ++ (m.random ++ ([UInt8.ofNat m.sid.length] ++ (m.sid ++
    ([0x13, 0x03, 0] ++ (len16 m.block.length ++ m.block)))))

def encode (m : ClassicHello key) : List UInt8 :=
  hsMessage hsServerHello m.body

theorem length_body (m : ClassicHello key) : m.body.length = 40 + m.sid.length + m.block.length := by
  unfold body len16
  simp only [List.length_append, List.length_cons, List.length_nil, m.version_length,
    m.random_length]
  omega

theorem ext_ty (m : ClassicHello key) {e : HelloExt} (he : e ∈ m.exts) (hs : e.IsShare) :
    e = shareOf key := by
  have hmem : e ∈ m.exts.filter (fun e => decide e.IsShare) :=
    List.mem_filter.2 ⟨he, decide_eq_true hs⟩
  rw [m.share] at hmem
  exact List.mem_singleton.1 hmem

end ClassicHello

/-! ## Acceptance -/

/-- From `y` on, with `rem` bytes remaining, the walk goes over `ys` and then nothing remains. -/
inductive Accepts (buf : Buffer) : Nat → Nat → List Nat → Prop where
  | done (y : Nat) : Accepts buf y 0 []
  | step {y y₁ rem : Nat} {ys : List Nat} : rem ≠ 0 → extBehind buf y = some y₁ →
      Accepts buf y₁ (sub16 rem (extTaken buf y)) ys → Accepts buf y rem (y :: ys)

/-- The extensions of the two kinds that are counted, in one byte each. -/
structure AcceptedBy (buf : Buffer) (ys : List Nat) : Prop where
  head : ¬ HeadRefused buf
  walk : Accepts buf (extStart buf) (extBlock buf) ys
  versions : (ys.countP fun y => decide (IsVersion buf y)) % 256 ≠ 0
  shares : (ys.countP fun y => decide (IsShare buf y)) % 256 ≠ 0

/-- The key of the extension at `y`. -/
def keyAt (buf : Buffer) (y : Nat) : List UInt8 :=
  bytesAt (wrapped buf) (y + 8) 32

/-- The key that is stored: that of the last key share. -/
def lastKey (buf : Buffer) (key : List UInt8) (ys : List Nat) : List UInt8 :=
  ys.foldl (fun key y => if IsShare buf y then keyAt buf y else key) key

variable {buf : Buffer}

theorem ExtStep.key {p p' : ShParse} (h : ExtStep buf p p') :
    p'.serverPubkey = if IsShare buf p.y then keyAt buf p.y else p.serverPubkey :=
  h.pubkey

theorem toNat_count (b : UInt8) (P : Prop) [Decidable P] (n : Nat) :
    ((if P then b + 1 else b).toNat + n) % 256 = (b.toNat + ((if P then 1 else 0) + n)) % 256 := by
  split
  case isTrue =>
    rw [UInt8.toNat_add]
    have hone : (1 : UInt8).toNat = 1 := rfl
    omega
  case isFalse => rw [Nat.zero_add]

/-- The loop and the walk: the two counters and the key. -/
theorem loop_accepts {p q : ShParse} {fuel : Nat}
    (hrun : loop (shExtTurn buf) fuel p = some (q, true)) :
    ∃ ys, Accepts buf p.y p.rem ys ∧
      (p.foundVer.toNat + ys.countP fun y => decide (IsVersion buf y)) % 256 ≠ 0 ∧
      (p.foundKs.toNat + ys.countP fun y => decide (IsShare buf y)) % 256 ≠ 0 ∧
      q.serverPubkey = lastKey buf p.serverPubkey ys := by
  induction fuel generalizing p with
  | zero => cases hrun
  | succ fuel ih =>
      -- the counters are bytes, so they count modulo 256
      by_cases hrem : p.rem = 0
      · rw [loop_leave (shExtTurn_done hrem)] at hrun
        have hpair := Option.some.inj hrun
        rw [Prod.mk.injEq, Bool.and_eq_true, decide_eq_true_iff, decide_eq_true_iff] at hpair
        obtain ⟨rfl, hver, hks⟩ := hpair
        have hpos : ∀ b : UInt8, b ≠ 0 → (b.toNat + 0) % 256 ≠ 0 := by
          intro b hb hz
          have hlt := b.toNat_lt
          exact hb (UInt8.toNat.inj (by rw [Nat.add_zero, Nat.mod_eq_of_lt hlt] at hz; exact hz))
        refine ⟨[], ?_, hpos _ hver, hpos _ hks, rfl⟩
        rw [hrem]
        exact .done _
      cases hbehind : extBehind buf p.y with
      | none =>
          obtain ⟨r, hturn⟩ := shExtTurn_refused hrem hbehind
          rw [loop_leave hturn] at hrun
          cases hrun
      | some y =>
          obtain ⟨p', hturn, hy, hstep⟩ := shExtTurn_again hrem hbehind
          rw [loop_again hturn] at hrun
          obtain ⟨ys, hwalk, hver, hks, hkey⟩ := ih hrun
          refine ⟨p.y :: ys, ?_, ?_, ?_, ?_⟩
          · rw [hy, hstep.rem] at hwalk
            exact .step hrem hbehind hwalk
          · rw [hstep.foundVer, toNat_count] at hver
            rw [List.countP_cons, Nat.add_comm (List.countP _ ys)]
            simpa using hver
          · rw [hstep.foundKs, toNat_count] at hks
            rw [List.countP_cons, Nat.add_comm (List.countP _ ys)]
            simpa using hks
          · rw [hkey, hstep.key]
            rfl

theorem accepts_loop {ys : List Nat} : ∀ {p : ShParse}, Accepts buf p.y p.rem ys →
    (p.foundVer.toNat + ys.countP fun y => decide (IsVersion buf y)) % 256 ≠ 0 →
    (p.foundKs.toNat + ys.countP fun y => decide (IsShare buf y)) % 256 ≠ 0 →
    ∃ fuel q, loop (shExtTurn buf) fuel p = some (q, true) := by
  induction ys with
  | nil =>
      intro p hwalk hver hks
      have hrem : p.rem = 0 := by
        generalize p.rem = rem at hwalk
        cases hwalk
        rfl
      have hne : ∀ b : UInt8, (b.toNat + List.countP (fun _ => true) ([] : List Nat)) % 256 ≠ 0 → b ≠ 0 := by
        rintro b hb rfl
        exact hb rfl
      refine ⟨1, p, ?_⟩
      rw [loop_leave (shExtTurn_done hrem), decide_eq_true (hne _ hver), decide_eq_true (hne _ hks)]
      rfl
  | cons y ys ih =>
      intro p hwalk hver hks
      generalize hrem : p.rem = rem at hwalk
      generalize hy : p.y = y₀ at hwalk
      cases hwalk with
      | step hne hbehind hwalk =>
          subst hrem hy
          obtain ⟨p', hturn, hy', hstep⟩ := shExtTurn_again hne hbehind
          rw [← hstep.rem, ← hy'] at hwalk
          obtain ⟨fuel, q, hrun⟩ := ih hwalk (by
              rw [hstep.foundVer, toNat_count]
              rw [List.countP_cons, Nat.add_comm (List.countP _ ys)] at hver
              simpa using hver) (by
              rw [hstep.foundKs, toNat_count]
              rw [List.countP_cons, Nat.add_comm (List.countP _ ys)] at hks
              simpa using hks)
          exact ⟨fuel + 1, q, (loop_again hturn).trans hrun⟩

/-- What is accepted, and the key that is stored. -/
theorem accepted_of_run {p q : ShParse} {fuel : Nat}
    (hrun : tlsParseServerHello fuel buf p = some (q, true)) :
    ∃ ys, AcceptedBy buf ys ∧ q.serverPubkey = lastKey buf p.serverPubkey ys := by
  rcases tlsParseServerHello_eq fuel buf p with ⟨-, r, heq⟩ | ⟨hhead, heq⟩
  · rw [heq] at hrun
    cases hrun
  · rw [heq] at hrun
    obtain ⟨ys, hwalk, hver, hks, hkey⟩ := loop_accepts hrun
    refine ⟨ys, ⟨hhead, hwalk, ?_, ?_⟩, hkey⟩
    · exact fun h => hver (by rw [show (walkStart buf p).foundVer.toNat = 0 from rfl, Nat.zero_add, h])
    · exact fun h => hks (by rw [show (walkStart buf p).foundKs.toNat = 0 from rfl, Nat.zero_add, h])

theorem run_of_accepted {ys : List Nat} (h : AcceptedBy buf ys) (p : ShParse) :
    ∃ fuel q, tlsParseServerHello fuel buf p = some (q, true) := by
  obtain ⟨fuel, q, hrun⟩ := @accepts_loop buf ys (walkStart buf p) h.walk
    (by rw [show (walkStart buf p).foundVer.toNat = 0 from rfl, Nat.zero_add]; exact h.versions)
    (by rw [show (walkStart buf p).foundKs.toNat = 0 from rfl, Nat.zero_add]; exact h.shares)
  rcases tlsParseServerHello_eq fuel buf p with ⟨hno, -⟩ | ⟨-, heq⟩
  · exact absurd hno h.head
  · exact ⟨fuel, q, heq.trans hrun⟩

/-! ## The walk over a block of extensions -/

/-- The length that the extension at `y` declares. -/
def extLen (buf : Buffer) (y : Nat) : Nat :=
  word (wrapped buf (y + 2)) (wrapped buf (y + 3))

/-- The two extensions that the client knows have the lengths that are consumed for them. -/
structure KnownLengths (buf : Buffer) (y : Nat) : Prop where
  version : IsVersion buf y → extLen buf y = 2
  share : IsShare buf y → extLen buf y = 36

theorem not_version_of_share {y : Nat} (h : IsShare buf y) : ¬ IsVersion buf y := by
  rintro ⟨-, hver⟩
  rw [h.2] at hver
  exact absurd hver (by decide)

/-- Over an extension of the length that it declares the walk goes as far as it takes off. -/
theorem extBehind_eq {y y₁ : Nat} (h : KnownLengths buf y) (hbehind : extBehind buf y = some y₁) :
    extTaken buf y = 4 + extLen buf y ∧ y₁ = (y + (4 + extLen buf y)) % 256 := by
  have hlo := (wrapped buf (y + 3)).toNat_lt
  have hword : extLen buf y =
      (wrapped buf (y + 2)).toNat * 256 + (wrapped buf (y + 3)).toNat := rfl
  unfold extTaken
  unfold extBehind at hbehind
  by_cases hver : IsVersion buf y
  · have hlen := h.version hver
    rw [if_pos hver] at hbehind
    split at hbehind
    case isFalse => cases hbehind
    case isTrue =>
      have hy := Option.some.inj hbehind
      omega
  rw [if_neg hver] at hbehind
  by_cases hks : IsShare buf y
  · have hlen := h.share hks
    rw [if_pos hks] at hbehind
    split at hbehind
    case isFalse => cases hbehind
    case isTrue =>
      have hy := Option.some.inj hbehind
      omega
  rw [if_neg hks] at hbehind
  split at hbehind
  case isTrue => cases hbehind
  case isFalse hhi =>
    have hy := Option.some.inj hbehind
    have hzero : (wrapped buf (y + 2)).toNat = 0 := by
      rw [not_not.1 hhi]
      rfl
    omega

theorem pathTaken_cons (y : Nat) (ys : List Nat) :
    pathTaken buf (y :: ys) = extTaken buf y + pathTaken buf ys :=
  rfl

/-! ## What the index sees -/

/-- Of `n` bytes from `o` on the index sees those that lie in front of `limit` as they are. -/
def SeenSpan (buf : Buffer) (limit o n : Nat) : Prop :=
  ∀ i < n, o + i < limit → wrapped buf (o + i) = buf (o + i)

/-- What is read of the extension at `o` is what lies there: its header, and the data of the two that the
client knows. -/
structure SeenAt (buf : Buffer) (limit o : Nat) : Prop where
  header : SeenSpan buf limit o 4
  version : IsVersion buf o → SeenSpan buf limit (o + 4) 2
  share : IsShare buf o → SeenSpan buf limit (o + 4) 36

/-- Over `ys`, from `o` on. -/
def SeenAlong (buf : Buffer) (limit : Nat) : Nat → List Nat → Prop
  | _, [] => True
  | o, y :: ys => SeenAt buf limit o ∧ SeenAlong buf limit (o + extTaken buf y) ys

/-- The extension at `o`. -/
def extAt (buf : Buffer) (o : Nat) : HelloExt where
  tyHi := buf o
  tyLo := buf (o + 1)
  data := bytesAt buf (o + 4) (extLen buf o)

theorem wrapped_place (buf : Buffer) (o : Nat) : wrapped buf (o % 256) = wrapped buf o :=
  wrapped_mod buf o 0

theorem isVersion_mod (buf : Buffer) (o : Nat) : IsVersion buf (o % 256) ↔ IsVersion buf o := by
  unfold IsVersion
  rw [wrapped_place, wrapped_mod]

theorem isShare_mod (buf : Buffer) (o : Nat) : IsShare buf (o % 256) ↔ IsShare buf o := by
  unfold IsShare
  rw [wrapped_place, wrapped_mod]

theorem extLen_mod (buf : Buffer) (o : Nat) : extLen buf (o % 256) = extLen buf o := by
  unfold extLen
  rw [wrapped_mod, wrapped_mod]

theorem keyAt_mod (buf : Buffer) (o : Nat) : keyAt buf (o % 256) = keyAt buf o := by
  unfold keyAt
  refine bytesAt_congr fun i _ => ?_
  rw [Nat.add_assoc, Nat.add_assoc, wrapped_mod]

theorem SeenSpan.bytesAt {limit o n : Nat} (h : SeenSpan buf limit o n) (hn : o + n ≤ limit) :
    bytesAt (wrapped buf) o n = bytesAt buf o n :=
  bytesAt_congr fun i hi => h i hi (by omega)

section Sight

variable {limit o : Nat}

theorem SeenAt.type (h : SeenAt buf limit o) (hlow : o + 4 ≤ limit) :
    (extAt buf o).tyHi = wrapped buf o ∧ (extAt buf o).tyLo = wrapped buf (o + 1) :=
  ⟨(h.header 0 (by decide) (by omega)).symm, (h.header 1 (by decide) (by omega)).symm⟩

/-- An extension that is seen lies in the buffer as it is. -/
theorem SeenAt.encode (h : SeenAt buf limit o) (hlow : o + 4 ≤ limit) :
    (extAt buf o).encode = bytesAt buf o (4 + extLen buf o) := by
  have hheader : len16 (extLen buf o) = [buf (o + 2), buf (o + 3)] := by
    rw [← h.header 2 (by decide) (by omega), ← h.header 3 (by decide) (by omega)]
    exact len16_word _ _
  unfold HelloExt.encode extAt
  dsimp only
  rw [length_bytesAt, hheader, bytesAt_add]
  simp only [bytesAt_succ, bytesAt_zero, List.cons_append, List.nil_append, Nat.add_assoc,
    Nat.reduceAdd]

theorem SeenAt.isVersion (h : SeenAt buf limit o) (hlow : o + 4 ≤ limit) :
    (extAt buf o).IsVersion ↔ IsVersion buf o := by
  obtain ⟨hhi, hlo⟩ := h.type hlow
  unfold HelloExt.IsVersion IsVersion
  rw [hhi, hlo]

theorem SeenAt.isShare (h : SeenAt buf limit o) (hlow : o + 4 ≤ limit) :
    (extAt buf o).IsShare ↔ IsShare buf o := by
  obtain ⟨hhi, hlo⟩ := h.type hlow
  unfold HelloExt.IsShare IsShare
  rw [hhi, hlo]

theorem SeenAt.data_version (h : SeenAt buf limit o) (hver : IsVersion buf o) (hlen : extLen buf o = 2)
    (hlow : o + 6 ≤ limit) (hbytes : wrapped buf (o + 4) = 3 ∧ wrapped buf (o + 5) = 4) :
    (extAt buf o).data = [3, 4] := by
  unfold extAt
  dsimp only
  rw [hlen, ← (h.version hver).bytesAt (by omega)]
  simp only [bytesAt_succ, bytesAt_zero]
  rw [hbytes.1, hbytes.2]

theorem SeenAt.eq_shareOf (h : SeenAt buf limit o) (hks : IsShare buf o) (hlen : extLen buf o = 36)
    (hlow : o + 40 ≤ limit) (hbytes : wrapped buf (o + 4) = 0 ∧ wrapped buf (o + 5) = 0x1d ∧
      wrapped buf (o + 6) = 0 ∧ wrapped buf (o + 7) = 0x20) :
    extAt buf o = shareOf (keyAt buf o) := by
  obtain ⟨h₀, h₁, h₂, h₃⟩ := hbytes
  obtain ⟨hhi, hlo⟩ := h.type (by omega)
  have hdata : (extAt buf o).data = [0, 0x1d, 0, 0x20] ++ keyAt buf o := by
    unfold extAt
    dsimp only
    rw [hlen, ← (h.share hks).bytesAt (by omega), show 36 = 4 + 32 from rfl, bytesAt_add]
    simp only [bytesAt_succ _ _ 3, bytesAt_succ _ _ 2, bytesAt_succ _ _ 1, bytesAt_succ _ _ 0,
      bytesAt_zero]
    rw [h₀, h₁, h₂, h₃]
    rfl
  have heta : extAt buf o = ⟨(extAt buf o).tyHi, (extAt buf o).tyLo, (extAt buf o).data⟩ := rfl
  rw [heta, hdata, hhi, hlo, hks.1, hks.2]
  rfl

end Sight

/-! ## The walk over a block of extensions -/

/-- The extensions `es` are those that the walk goes over from `o` on. -/
structure Holds (buf : Buffer) (o : Nat) (ys : List Nat) (es : List HelloExt) : Prop where
  bytes : encodeExts es = bytesAt buf o (pathTaken buf ys)
  length : ∀ e ∈ es, e.data.length < 65536
  versions : ∀ e ∈ es, e.IsVersion → e.data = [3, 4]
  hasVersion : (∃ y ∈ ys, IsVersion buf y) → ∃ e ∈ es, e.IsVersion
  shares : es.filter (fun e => decide e.IsShare) =
    (ys.filter fun y => decide (IsShare buf y)).map fun y => shareOf (keyAt buf y)

/-- What the walk did not refuse of the two that the client knows. -/
theorem bytes_of_behind {y y' : Nat} (h : extBehind buf y = some y') :
    (IsVersion buf y → wrapped buf (y + 4) = 3 ∧ wrapped buf (y + 5) = 4) ∧
      (IsShare buf y → wrapped buf (y + 4) = 0 ∧ wrapped buf (y + 5) = 0x1d ∧ wrapped buf (y + 6) = 0 ∧
        wrapped buf (y + 7) = 0x20) := by
  unfold extBehind at h
  constructor
  · intro hver
    rw [if_pos hver] at h
    split at h
    case isTrue hbytes => exact hbytes
    case isFalse => cases h
  · intro hks
    rw [if_neg (not_version_of_share hks), if_pos hks] at h
    split at h
    case isTrue hbytes => exact hbytes
    case isFalse => cases h

/-- The extensions that the walk goes over lie one behind the other. -/
theorem exists_holds {limit : Nat} {ys : List Nat} : ∀ {o rem : Nat}, Accepts buf (o % 256) rem ys →
    (∀ y ∈ ys, KnownLengths buf y) → SeenAlong buf limit o ys → o + pathTaken buf ys ≤ limit →
    ∃ es, Holds buf o ys es := by
  induction ys with
  | nil =>
      intro o rem _ _ _ _
      exact ⟨[], ⟨(bytesAt_zero buf o).symm, nofun, nofun, fun ⟨y, hy, _⟩ => (nomatch hy), rfl⟩⟩
  | cons y ys ih =>
      intro o rem hwalk hknown hseen hlow
      generalize ho : o % 256 = y₀ at hwalk
      cases hwalk with
      | step _ hbehind hwalk =>
          subst ho
          rw [pathTaken_cons] at hlow
          obtain ⟨hat, hseen⟩ := hseen
          have hk := hknown _ List.mem_cons_self
          obtain ⟨hversion, hshare⟩ := bytes_of_behind hbehind
          obtain ⟨htaken, hy₁⟩ := extBehind_eq hk hbehind
          rw [extLen_mod] at htaken
          rw [hy₁, extLen_mod, Nat.mod_add_mod, ← htaken] at hwalk
          obtain ⟨es, hes⟩ := ih hwalk (fun z hz => hknown z (List.mem_cons_of_mem _ hz)) hseen
            (by omega)
          have hlow' : o + 4 ≤ limit := by
            omega
          simp only [isVersion_mod, wrapped_mod] at hversion
          simp only [isShare_mod, wrapped_mod] at hshare
          have hlenv : IsVersion buf o → extLen buf o = 2 := fun h =>
            (extLen_mod buf o).symm.trans (hk.version ((isVersion_mod buf o).2 h))
          have hlens : IsShare buf o → extLen buf o = 36 := fun h =>
            (extLen_mod buf o).symm.trans (hk.share ((isShare_mod buf o).2 h))
          refine ⟨extAt buf o :: es, ?_, ?_, ?_, ?_, ?_⟩
          · -- the bytes
            have hcons : encodeExts (extAt buf o :: es) = (extAt buf o).encode ++ encodeExts es := rfl
            rw [hcons, hes.bytes, hat.encode hlow', pathTaken_cons, htaken,
              bytesAt_add buf o (4 + extLen buf o)]
          · intro e he
            rcases List.mem_cons.1 he with rfl | he
            · show (bytesAt _ _ (extLen buf o)).length < 65536
              rw [length_bytesAt]
              exact word_lt _ _
            · exact hes.length e he
          · -- the contents of supported_versions
            intro e he hver
            rcases List.mem_cons.1 he with rfl | he
            · have hv := (hat.isVersion hlow').1 hver
              have hlen := hlenv hv
              exact hat.data_version hv hlen (by omega) (hversion hv)
            · exact hes.versions e he hver
          · rintro ⟨z, hz, hver⟩
            rcases List.mem_cons.1 hz with rfl | hz
            · exact ⟨_, List.mem_cons_self, (hat.isVersion hlow').2 ((isVersion_mod buf o).1 hver)⟩
            · obtain ⟨e, he, hev⟩ := hes.hasVersion ⟨z, hz, hver⟩
              exact ⟨e, List.mem_cons_of_mem _ he, hev⟩
          · -- the key shares, in their order
            by_cases hks : IsShare buf o
            · have hlen := hlens hks
              have hext := hat.eq_shareOf hks hlen (by omega) (hshare hks)
              rw [List.filter_cons, if_pos (decide_eq_true ((hat.isShare hlow').2 hks)), hes.shares,
                List.filter_cons, if_pos (decide_eq_true ((isShare_mod buf o).2 hks)), List.map_cons,
                keyAt_mod, hext]
            · rw [List.filter_cons, if_neg (by simpa using fun h => hks ((hat.isShare hlow').1 h)),
                hes.shares, List.filter_cons,
                if_neg (by simpa using fun h => hks ((isShare_mod buf o).1 h))]

/-! ## Messages that are in order -/

/-- The length in the header of the message. -/
def hsLength (buf : Buffer) : Nat :=
  (buf 1).toNat * 65536 + word (buf 2) (buf 3)

/-- Where the extension block ends. -/
def blockEnd (buf : Buffer) : Nat :=
  44 + sidLen buf + extBlock buf

/-- What the walk over `ys` does not look at: the extensions fill the block, the two that it knows
have the lengths that are consumed, there is one key share, the header of the message tells its
length, and it lies within the record. -/
structure InOrder (buf : Buffer) (recLen : Nat) (ys : List Nat) : Prop where
  fills : pathTaken buf ys = extBlock buf
  known : ∀ y ∈ ys, KnownLengths buf y
  single : (ys.countP fun y => decide (IsShare buf y)) = 1
  header : hsLength buf + 4 = blockEnd buf
  within : blockEnd buf ≤ recLen

/-- What is accepted is a message of the grammar within the record, and the key that is stored is
the one in it. -/
def Sound (buf : Buffer) (recLen : Nat) (p : ShParse) : Prop :=
  ∀ fuel q, tlsParseServerHello fuel buf p = some (q, true) →
    ∃ (m : ClassicHello q.serverPubkey) (rest : List UInt8),
      bytesAt buf 0 recLen = m.encode ++ rest

/-- What is read of the message is what lies there.  The index is one byte: a byte of the message at 256 or
behind it is seen only if the one at the index modulo 256 is the same. -/
structure InSight (buf : Buffer) (ys : List Nat) : Prop where
  fields : ∀ i < 5, wrapped buf (39 + sidLen buf + i) = buf (39 + sidLen buf + i)
  exts : SeenAlong buf (blockEnd buf) (44 + sidLen buf) ys

theorem seenSpan_of_page {limit : Nat} (h : limit ≤ 256) (o n : Nat) : SeenSpan buf limit o n := by
  intro i _ hlow
  unfold wrapped
  rw [Nat.mod_eq_of_lt (by omega)]

theorem seen_of_page {limit : Nat} (h : limit ≤ 256) (ys : List Nat) : ∀ o, SeenAlong buf limit o ys := by
  induction ys with
  | nil => exact fun _ => True.intro
  | cons y ys ih =>
      exact fun o => ⟨⟨seenSpan_of_page h o 4, fun _ => seenSpan_of_page h _ 2,
        fun _ => seenSpan_of_page h _ 36⟩, ih _⟩

/-- All of a message that ends within 256 bytes is in sight. -/
theorem inSight_of_page (h : blockEnd buf ≤ 256) (ys : List Nat) : InSight buf ys := by
  refine ⟨fun i hi => seenSpan_of_page (le_refl 256) _ 5 i hi ?_, seen_of_page h ys _⟩
  unfold blockEnd at h
  omega

theorem lastKey_of_none {ys : List Nat} : ∀ {key : List UInt8},
    (ys.countP fun y => decide (IsShare buf y)) = 0 → lastKey buf key ys = key := by
  induction ys with
  | nil =>
      intro key _
      rfl
  | cons y ys ih =>
      intro key hcount
      have hnot : ¬ IsShare buf y := by
        intro hks
        rw [List.countP_cons, if_pos (decide_eq_true hks)] at hcount
        cases hcount
      rw [List.countP_cons, if_neg (by simpa using hnot)] at hcount
      show lastKey buf (if IsShare buf y then keyAt buf y else key) ys = key
      rw [if_neg hnot]
      exact ih hcount

/-- With one key share its key is the one that is stored. -/
theorem lastKey_single {ys : List Nat} : ∀ {key : List UInt8},
    (ys.countP fun y => decide (IsShare buf y)) = 1 →
    ∃ y ∈ ys, IsShare buf y ∧ ys.filter (fun y => decide (IsShare buf y)) = [y] ∧
      lastKey buf key ys = keyAt buf y := by
  induction ys with
  | nil => nofun
  | cons y ys ih =>
      intro key hcount
      by_cases hks : IsShare buf y
      · rw [List.countP_cons, if_pos (decide_eq_true hks)] at hcount
        have hnone : (ys.countP fun y => decide (IsShare buf y)) = 0 := Nat.succ.inj hcount
        refine ⟨y, List.mem_cons_self, hks, ?_, ?_⟩
        · rw [List.filter_cons, if_pos (decide_eq_true hks), List.filter_eq_nil_iff.2]
          exact List.countP_eq_zero.1 hnone
        · show lastKey buf (if IsShare buf y then keyAt buf y else key) ys = keyAt buf y
          rw [if_pos hks]
          exact lastKey_of_none hnone
      · rw [List.countP_cons, if_neg (by simpa using hks)] at hcount
        obtain ⟨z, hz, hzks, hfilter, hkey⟩ := @ih key hcount
        refine ⟨z, List.mem_cons_of_mem _ hz, hzks, ?_, ?_⟩
        · rw [List.filter_cons, if_neg (by simpa using hks), hfilter]
        · show lastKey buf (if IsShare buf y then keyAt buf y else key) ys = keyAt buf z
          rw [if_neg hks]
          exact hkey

/-- A field of three bytes. -/
theorem len24_bytes (a b c : UInt8) : len24 (a.toNat * 65536 + word b c) = [a, b, c] := by
  have ha := a.toNat_lt
  have hb := b.toNat_lt
  have hc := c.toNat_lt
  have hword : word b c = b.toNat * 256 + c.toNat := rfl
  have hbyte : ∀ {n : Nat} {x : UInt8}, n % 256 = x.toNat → UInt8.ofNat n = x := by
    intro n x hn
    refine UInt8.toNat.inj ?_
    rw [UInt8.toNat_ofNat', hn]
  unfold len24 hi lo
  rw [hbyte (show (a.toNat * 65536 + word b c) / 65536 % 256 = a.toNat by omega),
    hbyte (show (a.toNat * 65536 + word b c) / 256 % 256 = b.toNat by omega),
    hbyte (show (a.toNat * 65536 + word b c) % 256 = c.toNat by omega)]

/-- The bytes of a message, field by field. -/
theorem bytesAt_hello (buf : Buffer) (s b k : Nat) :
    bytesAt buf 0 (44 + s + b + k) =
      [buf 0, buf 1, buf 2, buf 3] ++ (bytesAt buf 4 2 ++ (bytesAt buf 6 32 ++ ([buf 38] ++
        (bytesAt buf 39 s ++ ([buf (39 + s), buf (40 + s), buf (41 + s)] ++
          ([buf (42 + s), buf (43 + s)] ++ (bytesAt buf (44 + s) b ++
            bytesAt buf (44 + s + b) k))))))) := by
  have hsum : 44 + s + b + k = 4 + (2 + (32 + (1 + (s + (3 + (2 + (b + k))))))) := by
    omega
  have h₁ : 39 + s + 1 = 40 + s := by omega
  have h₂ : 40 + s + 1 = 41 + s := by omega
  have h₃ : 39 + s + 3 = 42 + s := by omega
  have h₄ : 42 + s + 1 = 43 + s := by omega
  have h₅ : 42 + s + 2 = 44 + s := by omega
  have hthree : ∀ o, bytesAt buf o 3 = [buf o, buf (o + 1), buf (o + 1 + 1)] := by
    intro o
    simp only [bytesAt_succ, bytesAt_zero]
  have htwo : ∀ o, bytesAt buf o 2 = [buf o, buf (o + 1)] := by
    intro o
    simp only [bytesAt_succ, bytesAt_zero]
  rw [hsum, bytesAt_add buf 0 4, bytesAt_add buf _ 2, bytesAt_add buf _ 32, bytesAt_add buf _ 1,
    bytesAt_add buf _ s, bytesAt_add buf _ 3, bytesAt_add buf _ 2, bytesAt_add buf _ b]
  simp only [Nat.zero_add, Nat.reduceAdd, h₃, h₅]
  rw [hthree, htwo (42 + s), h₁, h₂, h₄]
  simp only [bytesAt_succ _ _ 3, bytesAt_succ _ _ 2, bytesAt_succ _ _ 1, bytesAt_succ _ _ 0,
    bytesAt_zero, Nat.zero_add, Nat.reduceAdd]

theorem encode_eq {key : List UInt8} (m : ClassicHello key) :
    m.encode = (hsServerHello :: len24 m.body.length) ++ (m.version ++ (m.random ++
      ([UInt8.ofNat m.sid.length] ++ (m.sid ++ ([0x13, 0x03, 0] ++
        (len16 m.block.length ++ m.block)))))) :=
  rfl

/-- The bytes of the fields before the extensions, where they are not refused. -/
theorem head_bytes {ys : List Nat} (hsight : InSight buf ys) (h : ¬ HeadRefused buf) :
    buf 0 = hsServerHello ∧
      [buf (39 + sidLen buf), buf (40 + sidLen buf), buf (41 + sidLen buf)] = [0x13, 0x03, 0] ∧
      [buf (42 + sidLen buf), buf (43 + sidLen buf)] = len16 (extBlock buf) := by
  have hfield : ∀ i < 5, wrapped buf (39 + i + sidLen buf) = buf (39 + i + sidLen buf) := by
    intro i hi
    have hseen := hsight.fields i hi
    rwa [Nat.add_right_comm] at hseen
  unfold HeadRefused at h
  push Not at h
  obtain ⟨h₀, -, h₁, h₂, h₃⟩ := h
  have hlen : len16 (extBlock buf) = _ := len16_word _ _
  rw [hfield 0 (by decide)] at h₁
  rw [hfield 1 (by decide)] at h₂
  rw [hfield 2 (by decide)] at h₃
  rw [hfield 3 (by decide), hfield 4 (by decide)] at hlen
  exact ⟨h₀, by rw [h₁, h₂, h₃], hlen.symm⟩

/-- An accepted walk in order is over a message of the grammar. -/
theorem message_of_inOrder {recLen : Nat} {ys : List Nat} {key : List UInt8} (hsight : InSight buf ys)
    (hacc : AcceptedBy buf ys) (h : InOrder buf recLen ys) :
    ∃ (m : ClassicHello (lastKey buf key ys)) (rest : List UInt8),
      bytesAt buf 0 recLen = m.encode ++ rest := by
  have hend : blockEnd buf = 44 + sidLen buf + extBlock buf := rfl
  have hsid : sidLen buf < 256 := (buf 38).toNat_lt
  have hblt : extBlock buf < 65536 := word_lt _ _
  obtain ⟨h₀, hfix, hlen⟩ := head_bytes hsight hacc.head
  obtain ⟨k, rfl⟩ := Nat.exists_eq_add_of_le h.within
  obtain ⟨es, hes⟩ : ∃ es, Holds buf (44 + sidLen buf) ys es :=
    exists_holds hacc.walk h.known hsight.exts (by rw [h.fills, hend])
  have hblock : encodeExts es = bytesAt buf (44 + sidLen buf) (extBlock buf) := by
    rw [hes.bytes, h.fills]
  obtain ⟨y, hy, hks, hfilter, hkey⟩ := @lastKey_single buf ys key h.single
  have hversion : ∃ z ∈ ys, IsVersion buf z := by
    have hne : (ys.countP fun z => decide (IsVersion buf z)) ≠ 0 := fun hz =>
      hacc.versions (by rw [hz])
    obtain ⟨z, hz, hver⟩ := List.countP_pos_iff.1 (Nat.pos_of_ne_zero hne)
    exact ⟨z, hz, of_decide_eq_true hver⟩
  refine ⟨{
    version := bytesAt buf 4 2
    random := bytesAt buf 6 32
    sid := bytesAt buf 39 (sidLen buf)
    exts := es
    version_length := length_bytesAt _ _ _
    random_length := length_bytesAt _ _ _
    sid_length := by rw [length_bytesAt]; exact hsid
    exts_length := by rw [hblock, length_bytesAt]; exact hblt
    ext_length := hes.length
    versions := hes.versions
    hasVersion := hes.hasVersion hversion
    share := by rw [hes.shares, hfilter, List.map_singleton, hkey]
    key_length := by rw [hkey]; exact length_bytesAt _ _ _ },
    bytesAt buf (blockEnd buf) k, ?_⟩
  -- the fields one after the other
  have hlength : 40 + sidLen buf + extBlock buf = (buf 1).toNat * 65536 + word (buf 2) (buf 3) := by
    have hheader := h.header
    unfold hsLength at hheader
    omega
  have hsidByte : UInt8.ofNat (sidLen buf) = buf 38 := UInt8.ofNat_toNat
  rw [encode_eq, ClassicHello.length_body]
  unfold ClassicHello.block
  dsimp only
  rw [hblock, length_bytesAt, length_bytesAt, hlength, len24_bytes, hsidByte, ← hfix, ← hlen, ← h₀,
    hend, bytesAt_hello]
  simp only [List.append_assoc]

/-! ## The walk over a message -/

/-- Over extensions of the grammar the walk goes from one to the next. -/
theorem walk_exts {limit : Nat} {es : List HelloExt} : ∀ {o rem : Nat} {ys : List Nat},
    Accepts buf (o % 256) rem ys → SeenAlong buf limit o ys →
    bytesAt buf o (encodeExts es).length = encodeExts es → rem = (encodeExts es).length → rem < 65536 →
    o + rem ≤ limit →
    (∀ e ∈ es, (e.IsVersion → e.data.length = 2) ∧ (e.IsShare → e.data.length = 36)) →
    pathTaken buf ys = rem ∧ (∀ y ∈ ys, KnownLengths buf y) ∧
      (ys.countP fun y => decide (IsShare buf y)) = es.countP fun e => decide e.IsShare := by
  induction es with
  | nil =>
      intro o rem ys hwalk _ _ hrem _ _ _
      cases hwalk with
      | done => exact ⟨hrem.symm, nofun, rfl⟩
      | step hne => exact absurd hrem hne
  | cons e es ih =>
      intro o rem ys hwalk hseen hbytes hrem hlt hlow hknown
      have hcons : encodeExts (e :: es) = e.encode ++ encodeExts es := rfl
      have hlen := e.length_encode
      rw [hcons, List.length_append, hlen] at hbytes hrem
      rw [bytesAt_add] at hbytes
      obtain ⟨hext, hrest⟩ := List.append_inj hbytes (by rw [length_bytesAt, hlen])
      have hdatalt : e.data.length < 65536 := by
        omega
      generalize ho : o % 256 = y at hwalk
      cases hwalk with
      | done => omega
      | step hne hbehind hwalk =>
          rename_i y₁ ys
          subst ho
          obtain ⟨hat, hseen⟩ := hseen
          have hlow' : o + 4 ≤ limit := by
            omega
          -- the extension is the one at `o`
          have hheader : buf o = e.tyHi ∧ buf (o + 1) = e.tyLo ∧ buf (o + 2) = hi e.data.length ∧
              buf (o + 3) = lo e.data.length := by
            rw [bytesAt_add] at hext
            unfold HelloExt.encode at hext
            rw [← List.append_assoc] at hext
            obtain ⟨hheader, -⟩ := List.append_inj hext (by simp [len16])
            simpa only [bytesAt_succ _ _ 3, bytesAt_succ _ _ 2, bytesAt_succ _ _ 1, bytesAt_succ _ _ 0,
              bytesAt_zero, len16, List.cons_append, List.nil_append, List.cons.injEq, and_true,
              Nat.add_assoc, Nat.reduceAdd] using hheader
          obtain ⟨h₀, h₁, h₂, h₃⟩ := hheader
          have hlength : extLen buf o = e.data.length := by
            unfold extLen
            rw [hat.header 2 (by decide) (by omega), hat.header 3 (by decide) (by omega), h₂, h₃,
              word_hi_lo hdatalt]
          have hver : IsVersion buf (o % 256) ↔ e.IsVersion := by
            rw [isVersion_mod, ← hat.isVersion hlow']
            unfold HelloExt.IsVersion extAt
            dsimp only
            rw [h₀, h₁]
          have hks : IsShare buf (o % 256) ↔ e.IsShare := by
            rw [isShare_mod, ← hat.isShare hlow']
            unfold HelloExt.IsShare extAt
            dsimp only
            rw [h₀, h₁]
          have hk : KnownLengths buf (o % 256) := by
            obtain ⟨hver', hks'⟩ := hknown e List.mem_cons_self
            have hlength' := (extLen_mod buf o).trans hlength
            exact ⟨fun h => hlength'.trans (hver' (hver.1 h)), fun h => hlength'.trans (hks' (hks.1 h))⟩
          obtain ⟨htaken, hy₁⟩ := extBehind_eq hk hbehind
          rw [extLen_mod, hlength] at htaken hy₁
          rw [hy₁, htaken, Nat.mod_add_mod, sub16_of_le (by omega) (by omega)] at hwalk
          rw [htaken] at hseen
          obtain ⟨hsum, hall, hcount⟩ := ih hwalk hseen hrest (by omega) (by omega) (by omega)
            (fun z hz => hknown z (List.mem_cons_of_mem _ hz))
          refine ⟨?_, ?_, ?_⟩
          · rw [pathTaken_cons, hsum, htaken]
            omega
          · intro z hz
            rcases List.mem_cons.1 hz with rfl | hz
            · exact hk
            · exact hall z hz
          · rw [List.countP_cons, List.countP_cons, hcount, decide_eq_decide.2 hks]

theorem inOrder_of_sound {recLen : Nat} {p : ShParse} (h : Sound buf recLen p) {ys : List Nat}
    (hacc : AcceptedBy buf ys) (hsight : InSight buf ys) : InOrder buf recLen ys := by
  obtain ⟨fuel, q, hrun⟩ := run_of_accepted hacc p
  obtain ⟨m, rest, hrecord⟩ := h fuel q hrun
  have hbody := m.length_body
  have hsidlt := m.sid_length
  have hblt : m.block.length < 65536 := m.exts_length
  have hend : blockEnd buf = 44 + sidLen buf + extBlock buf := rfl
  have hn : recLen = 44 + m.sid.length + m.block.length + rest.length := by
    have hlen := congrArg List.length hrecord
    rw [length_bytesAt, List.length_append] at hlen
    unfold ClassicHello.encode at hlen
    rw [length_hsMessage, hbody] at hlen
    omega
  subst hn
  rw [bytesAt_hello, encode_eq, List.append_assoc, List.append_assoc, List.append_assoc,
    List.append_assoc, List.append_assoc, List.append_assoc, List.append_assoc] at hrecord
  -- the record and the message are compared field by field
  obtain ⟨hheader, hrecord⟩ := List.append_inj hrecord rfl
  obtain ⟨-, hrecord⟩ := List.append_inj hrecord (by rw [length_bytesAt, m.version_length])
  obtain ⟨-, hrecord⟩ := List.append_inj hrecord (by rw [length_bytesAt, m.random_length])
  obtain ⟨hsid, hrecord⟩ := List.append_inj hrecord rfl
  obtain ⟨-, hrecord⟩ := List.append_inj hrecord (length_bytesAt _ _ _)
  obtain ⟨-, hrecord⟩ := List.append_inj hrecord rfl
  obtain ⟨hlen, hrecord⟩ := List.append_inj hrecord rfl
  obtain ⟨hblock, -⟩ := List.append_inj hrecord (length_bytesAt _ _ _)
  have hs : sidLen buf = m.sid.length := by
    unfold sidLen
    rw [(List.cons.inj hsid).1]
    exact UInt8.toNat_ofNat_of_lt hsidlt
  rw [← hs] at hlen hblock
  -- the length of the block is read at wrapped indices
  have hb : extBlock buf = m.block.length := by
    have hhi : wrapped buf (42 + sidLen buf) = buf (42 + sidLen buf) := by
      have hseen := hsight.fields 3 (by decide)
      rwa [Nat.add_right_comm] at hseen
    have hlo : wrapped buf (43 + sidLen buf) = buf (43 + sidLen buf) := by
      have hseen := hsight.fields 4 (by decide)
      rwa [Nat.add_right_comm] at hseen
    simp only [len16, List.cons.injEq, and_true] at hlen
    unfold extBlock
    rw [hhi, hlo, hlen.1, hlen.2, word_hi_lo hblt]
  obtain ⟨hsum, hknown, hcount⟩ := walk_exts hacc.walk hsight.exts hblock hb (hb.symm ▸ hblt)
    (le_of_eq hend.symm) (fun e he =>
    ⟨fun hver => by rw [m.versions e he hver]; rfl,
      fun hks => by
        rw [m.ext_ty he hks]
        show ([0, 0x1d, 0, 0x20] ++ q.serverPubkey).length = 36
        rw [List.length_append, m.key_length]
        rfl⟩)
  refine ⟨hsum, hknown, ?_, ?_, ?_⟩
  · rw [hcount, List.countP_eq_length_filter, m.share]
    rfl
  · unfold blockEnd hsLength
    have hlt : m.body.length < 16777216 := by
      rw [hbody]
      omega
    simp only [len24, List.cons.injEq, and_true] at hheader
    obtain ⟨-, h₁, h₂, h₃⟩ := hheader
    unfold word hi lo at *
    rw [h₁, h₂, h₃, UInt8.toNat_ofNat', UInt8.toNat_ofNat', UInt8.toNat_ofNat', hs, hb]
    omega
  · unfold blockEnd
    rw [hs, hb]
    exact Nat.le_add_right _ _

/-- Where what the walk reads of the message is what lies there, what is accepted is a message of the grammar
and the key is the one in it if and only if every accepted walk is in order. -/
theorem tlsParseServerHello_sound (buf : Buffer) (recLen : Nat) (p : ShParse) :
    ((∀ ys, AcceptedBy buf ys → InOrder buf recLen ys ∧ InSight buf ys) → Sound buf recLen p) ∧
      (Sound buf recLen p → ∀ ys, AcceptedBy buf ys → InSight buf ys → InOrder buf recLen ys) := by
  constructor
  · intro hall fuel q hrun
    obtain ⟨ys, hacc, hkey⟩ := accepted_of_run hrun
    obtain ⟨horder, hsight⟩ := hall ys hacc
    rw [hkey]
    exact message_of_inOrder hsight hacc horder
  · intro hsound ys hacc hsight
    exact inOrder_of_sound hsound hacc hsight

/-- A record with two key shares. -/
def twoShares : Buffer :=
  ofList ([0x02, 0x00, 0x00, 0x7e, 0x03, 0x03] ++ List.replicate 32 0x00 ++
    [0x00, 0x13, 0x03, 0x00, 0x00, 0x56] ++ [0x00, 0x2b, 0x00, 0x02, 0x03, 0x04] ++
    [0x00, 0x33, 0x00, 0x24, 0x00, 0x1d, 0x00, 0x20] ++ List.replicate 32 0x01 ++
    [0x00, 0x33, 0x00, 0x24, 0x00, 0x1d, 0x00, 0x20] ++ List.replicate 32 0x02) (fun _ => 0)

theorem twoShares_accepted : AcceptedBy twoShares [44, 50, 90] := by
  refine ⟨?_, ?_, by decide +kernel, by decide +kernel⟩
  · rintro (h | h | h | h | h)
    · exact h (by decide +kernel)
    · exact absurd h (by decide +kernel)
    · exact h (by decide +kernel)
    · exact h (by decide +kernel)
    · exact h (by decide +kernel)
  · have h44 : extBehind twoShares 44 = some 50 := by decide +kernel
    have h50 : extBehind twoShares 50 = some 90 := by decide +kernel
    have h90 : extBehind twoShares 90 = some 130 := by decide +kernel
    have ht44 : extTaken twoShares 44 = 6 := by decide +kernel
    have ht50 : extTaken twoShares 50 = 40 := by decide +kernel
    have ht90 : extTaken twoShares 90 = 40 := by decide +kernel
    have hstart : extStart twoShares = 44 := by decide +kernel
    have hblock : extBlock twoShares = 86 := by decide +kernel
    rw [hstart, hblock]
    refine .step (by decide) h44 ?_
    rw [ht44, sub16_of_le (by decide) (by decide)]
    refine .step (by decide) h50 ?_
    rw [ht50, sub16_of_le (by decide) (by decide)]
    refine .step (by decide) h90 ?_
    rw [ht90, sub16_of_le (by decide) (by decide)]
    exact .done 130

/-- It is accepted with the second. -/
theorem not_tlsParseServerHello_sound : ¬ ∃ p, Sound twoShares 130 p := by
  rintro ⟨p, h⟩
  have hpage : blockEnd twoShares ≤ 256 := by
    decide +kernel
  have hsingle := (inOrder_of_sound h twoShares_accepted (inSight_of_page hpage _)).single
  exact absurd hsingle (by decide +kernel)

end Tls
end C64Https
