import C64Https.X509.Hostname

/-!
# Scans — whether the name check ends

The three scans go over elements that lie one behind another, by the size that each element's length field
declares.  A cursor has 16 bits, so a scan moves on as long as the address where it began and the declared
sizes, summed, stay below the top of memory, and none of the sizes is 65536.  That is a condition on the bytes
(`ChainsFit`), and with it, and only with it, the call ends and every turn moves on
(`x509VerifyHostname_ends_iff`); without it a scan may go round for ever (`not_x509VerifyHostname_ends`).
-/

namespace C64Https
namespace X509

open Word Loop Bytes

/-! ## An element in memory -/

/-- The tag and the length field of the element at `a`; of a form of length that is not known only the tag is
passed over. -/
def headerSize (m : Buffer) (a : Nat) : Nat :=
  let b := peek m (a + 1)
  if b < 0x80 then 2
  else if b = 0x81 then 3
  else if b = 0x82 then 4
  else 1

/-- The declared length of its value. -/
def valueSize (m : Buffer) (a : Nat) : Nat :=
  let b := peek m (a + 1)
  if b < 0x80 then b.toNat
  else if b = 0x81 then (peek m (a + 2)).toNat
  else if b = 0x82 then word (peek m (a + 2)) (peek m (a + 3))
  else 0

def elementSize (m : Buffer) (a : Nat) : Nat :=
  headerSize m a + valueSize m a

/-- The element at `a` has this tag, and a value from `p` up to `limit`. -/
structure Content (m : Buffer) (tag : UInt8) (a p limit : Nat) : Prop where
  tag : peek m a = tag
  first : p = (a + headerSize m a) % 65536
  limit : limit = (a + elementSize m a) % 65536

/-- Where the element lies that has `n` others between it and `a`. -/
def behind (m : Buffer) : Nat → Nat → Nat
  | 0, a => a
  | n + 1, a => behind m n a + elementSize m (behind m n a)

/-! ## Elements in a row -/

/-- Elements from `p` on that are all `P`, by their sizes in 16 bits, as far as memory goes. -/
inductive Row (m : Buffer) (P : Nat → Prop) (p : Nat) : List Nat → Prop where
  | nil : Row m P p []
  | concat {ss : List Nat} (h : Row m P p ss) (hlow : p + ss.sum < 65536) (hP : P (p + ss.sum)) :
      Row m P p (ss ++ [elementSize m (p + ss.sum) % 65536])

/-- The row stays below the top of memory, and no element of it has the size 65536. -/
def NoCarry (m : Buffer) (P : Nat → Prop) (p : Nat) : Prop :=
  ∀ ss, Row m P p ss → p + ss.sum < 65536 ∧ 0 ∉ ss

/-! ## The certificate in memory -/

section Layout

variable (m : Buffer) (base : Nat) (host : List UInt8)

/-- A field of the TBSCertificate that is not the extensions. -/
def OtherField (limit a : Nat) : Prop :=
  a < limit ∧ peek m a ≠ 0xa3

/-- The extension at `a` is the subjectAltName. -/
structure SanAt (a : Nat) : Prop where
  oid : peek m (a + headerSize m a) = 0x06
  size : valueSize m (a + headerSize m a) = 3
  value : bytesFrom m (a + headerSize m a + headerSize m (a + headerSize m a)) 3 = sanOid

def OtherExt (limit a : Nat) : Prop :=
  a < limit ∧ peek m a = 0x30 ∧ ¬ SanAt m a

/-- The name at `a` is the host's. -/
structure HostAt (a : Nat) : Prop where
  tag : peek m a = 0x82
  size : valueSize m a < 256
  value : matchName (bytesFrom m (a + headerSize m a) (valueSize m a)) host = true

def OtherName (limit a : Nat) : Prop :=
  a < limit ∧ ¬ HostAt m host a

/-- The fields behind the key: the version is there or not, and six others follow. -/
def FieldsAt (p limit : Nat) : Prop :=
  peek m base = 0x30 ∧ ∃ v, Content m 0x30 (base + headerSize m base) v limit ∧
    p = behind m (if peek m v = 0xa0 then 7 else 6) v % 65536

/-- The extensions. -/
def ExtsAt (p limit : Nat) : Prop :=
  ∃ p₀ limit₀ ss, FieldsAt m base p₀ limit₀ ∧ Row m (OtherField m limit₀) p₀ ss ∧
    p₀ + ss.sum < limit₀ ∧ peek m (p₀ + ss.sum) = 0xa3 ∧
    Content m 0x30 (p₀ + ss.sum + headerSize m (p₀ + ss.sum)) p limit

/-- The value of the extension at `a`, behind its identifier and, if there is one, a BOOLEAN. -/
def sanValue (a : Nat) : Nat :=
  let c := a + headerSize m a + elementSize m (a + headerSize m a)
  if peek m c = 0x01 then c + elementSize m c else c

/-- The names of the first subjectAltName. -/
def NamesAt (p limit : Nat) : Prop :=
  ∃ p₀ limit₀ ss, ExtsAt m base p₀ limit₀ ∧ Row m (OtherExt m limit₀) p₀ ss ∧
    p₀ + ss.sum < limit₀ ∧ peek m (p₀ + ss.sum) = 0x30 ∧ SanAt m (p₀ + ss.sum) ∧
    peek m (sanValue m (p₀ + ss.sum)) = 0x04 ∧
    Content m 0x30 (sanValue m (p₀ + ss.sum) + headerSize m (sanValue m (p₀ + ss.sum))) p limit

/-- Every row of elements that a scan passes over stays below the top of memory. -/
structure ChainsFit : Prop where
  fields : ∀ p limit, FieldsAt m base p limit → NoCarry m (OtherField m limit) p
  exts : ∀ p limit, ExtsAt m base p limit → NoCarry m (OtherExt m limit) p
  names : ∀ p limit, NamesAt m base p limit → NoCarry m (OtherName m host limit) p

end Layout

/-! ## What the code reads of an element -/

variable {m : Buffer}

theorem peek_mod (m : Buffer) (a : Nat) : peek m (a % 65536) = peek m a := by
  unfold peek
  rw [Nat.mod_mod]

theorem peek_mod_add (m : Buffer) (a i : Nat) : peek m (a % 65536 + i) = peek m (a + i) := by
  rw [← peek_mod, Nat.mod_add_mod, peek_mod]

theorem add16_eq (a b : Nat) : add16 a b = (a + b) % 65536 := by
  unfold add16
  rfl

theorem inc16_eq (a : Nat) : inc16 a = (a + 1) % 65536 := by
  unfold inc16
  rfl

theorem derReadTag_mod (m : Buffer) (a : Nat) : derReadTag m (a % 65536) = derReadTag m a := by
  unfold derReadTag
  rw [peek_mod, inc16_eq, inc16_eq, Nat.mod_add_mod]

/-- The length behind a tag, and the cursor behind it. -/
theorem derReadLength_tag (m : Buffer) (a : Nat) :
    derReadLength m (derReadTag m a).2 = (valueSize m a, (a + headerSize m a) % 65536) := by
  have h₁ : peek m (inc16 a) = peek m (a + 1) := by
    rw [inc16_eq, peek_mod]
  have h₂ : peek m (inc16 a + 1) = peek m (a + 2) := by
    rw [inc16_eq, peek_mod_add]
  have h₃ : peek m (inc16 a + 2) = peek m (a + 3) := by
    rw [inc16_eq, peek_mod_add]
  unfold derReadLength derReadTag valueSize headerSize
  dsimp only
  rw [h₁, h₂, h₃, add16_eq, add16_eq, inc16_eq (inc16 a), inc16_eq, Nat.mod_add_mod, Nat.mod_add_mod,
    Nat.mod_add_mod]
  split
  case isTrue => rfl
  case isFalse =>
    split
    case isTrue => rfl
    case isFalse =>
      split
      case isTrue => rfl
      case isFalse => rfl

/-- `der_skip_tlv` goes over the element. -/
theorem derSkipTlv_eq (m : Buffer) (a : Nat) :
    derSkipTlv m a = (a + elementSize m a) % 65536 := by
  unfold derSkipTlv skipValue derSkip elementSize
  rw [derReadLength_tag, add16_eq, Nat.mod_add_mod, Nat.add_assoc]

theorem derSkipTlv_mod (m : Buffer) (a : Nat) : derSkipTlv m (a % 65536) = derSkipTlv m a := by
  unfold derSkipTlv
  rw [derReadTag_mod]

theorem bytesFrom_mod (m : Buffer) (a n : Nat) : bytesFrom m (a % 65536) n = bytesFrom m a n := by
  unfold bytesFrom
  exact List.map_congr_left fun i _ => peek_mod_add m a i

/-- A cursor is an address. -/
theorem derSkipTlv_lt (m : Buffer) (a : Nat) : derSkipTlv m a < 65536 := by
  rw [derSkipTlv_eq]
  exact Nat.mod_lt _ (by decide)

theorem derSkipTlv_behind (m : Buffer) (n a : Nat) :
    derSkipTlv m (behind m n a % 65536) = behind m (n + 1) a % 65536 := by
  rw [derSkipTlv_mod, derSkipTlv_eq]
  rfl

/-! ## The turns of the scans -/

/-- The scans of a call, and their turns that go round: from a cursor to the next. -/
inductive Iterates (m : Buffer) (base : Nat) (host : List UInt8) : Nat → Nat → Prop where
  | opt {p₀ limit p p' : Nat} : host ≠ [] → openTbs m base = some (p₀, limit) →
      Visits (scanOptTurn m limit) p₀ p → scanOptTurn m limit p = .again p' →
      Iterates m base host p p'
  | ext {p₀ limit n q p₁ limit₁ p p' : Nat} : host ≠ [] → openTbs m base = some (p₀, limit) →
      loop (scanOptTurn m limit) n p₀ = some (some q) → foundExts m q = some (p₁, limit₁) →
      Visits (extTurn m limit₁) p₁ p → extTurn m limit₁ p = .again p' →
      Iterates m base host p p'
  | name {p₀ limit n q p₁ limit₁ n₁ q₁ p₂ limit₂ p p' : Nat} : host ≠ [] →
      openTbs m base = some (p₀, limit) → loop (scanOptTurn m limit) n p₀ = some (some q) →
      foundExts m q = some (p₁, limit₁) → loop (extTurn m limit₁) n₁ p₁ = some (some q₁) →
      foundSan m q₁ = some (p₂, limit₂) → Visits (nameTurn m host limit₂) p₂ p →
      nameTurn m host limit₂ p = .again p' → Iterates m base host p p'

/-- A scan goes round over the elements that are `P`, each time over one of them. -/
structure Goes (m : Buffer) {ρ : Type} (turn : Nat → Turn Nat ρ) (P : Nat → Prop) : Prop where
  again : ∀ a, P a → turn a = .again (derSkipTlv m a)
  passed : ∀ a a', turn a = .again a' → P a ∧ a' = derSkipTlv m a

theorem goes_field (m : Buffer) (limit : Nat) : Goes m (scanOptTurn m limit) (OtherField m limit) := by
  refine ⟨fun a ⟨hlow, htag⟩ => ?_, fun a a' h => ?_⟩
  · unfold scanOptTurn
    rw [if_neg (Nat.not_le_of_lt hlow)]
    exact if_neg htag
  · unfold scanOptTurn at h
    split at h
    case isTrue => cases h
    case isFalse hlow =>
      dsimp only at h
      split at h
      case isTrue => cases h
      case isFalse htag =>
        cases h
        exact ⟨⟨Nat.lt_of_not_le hlow, htag⟩, rfl⟩

theorem scanOptTurn_leave_iff {limit a q : Nat} :
    scanOptTurn m limit a = .leave (some q) ↔ a < limit ∧ peek m a = 0xa3 ∧ q = inc16 a := by
  unfold scanOptTurn
  constructor
  · intro h
    split at h
    case isTrue => cases h
    case isFalse hlow =>
      dsimp only at h
      split at h
      case isTrue htag =>
        cases h
        exact ⟨Nat.lt_of_not_le hlow, htag, rfl⟩
      case isFalse => cases h
  · rintro ⟨hlow, htag, rfl⟩
    rw [if_neg (Nat.not_le_of_lt hlow)]
    exact if_pos htag

/-- The two tests for the identifier of the subjectAltName. -/
theorem sanAt_iff (m : Buffer) (a : Nat) :
    SanAt m a ↔ peek m (a + headerSize m a) = 0x06 ∧ valueSize m (a + headerSize m a) = 3 ∧
      bytesFrom m ((a + headerSize m a + headerSize m (a + headerSize m a)) % 65536) 3 = sanOid := by
  rw [bytesFrom_mod]
  exact ⟨fun h => ⟨h.oid, h.size, h.value⟩, fun ⟨h₁, h₂, h₃⟩ => ⟨h₁, h₂, h₃⟩⟩

/-- A turn at an extension. -/
theorem extTurn_eq (m : Buffer) {limit a : Nat} (hlow : a < limit) (htag : peek m a = 0x30) :
    extTurn m limit a =
      if peek m (a + headerSize m a) ≠ 0x06 then .again (derSkipTlv m a)
      else if valueSize m (a + headerSize m a) = 3 ∧
          bytesFrom m ((a + headerSize m a + headerSize m (a + headerSize m a)) % 65536) 3 = sanOid then
        .leave (some ((a + headerSize m a + headerSize m (a + headerSize m a)) % 65536))
      else .again (derSkipTlv m a) := by
  unfold extTurn
  rw [if_neg (Nat.not_le_of_lt hlow)]
  dsimp only
  rw [if_neg (show ¬ (derReadTag m a).1 ≠ 0x30 from not_not_intro htag), derReadLength_tag]
  dsimp only
  rw [derReadTag_mod, derReadLength_tag, derSkipTlv_eq, add16_eq, Nat.mod_add_mod, Nat.add_assoc a]
  rfl

theorem goes_ext (m : Buffer) (limit : Nat) : Goes m (extTurn m limit) (OtherExt m limit) := by
  refine ⟨fun a ⟨hlow, htag, hno⟩ => ?_, fun a a' h => ?_⟩
  · rw [extTurn_eq m hlow htag]
    rw [sanAt_iff] at hno
    split
    case isTrue => rfl
    case isFalse hoid => exact if_neg fun hsan => hno ⟨not_not.1 hoid, hsan⟩
  · -- a turn that goes round again has passed an element that is not the one
    by_cases hlow : limit ≤ a
    · rw [extTurn, if_pos hlow] at h
      cases h
    by_cases htag : peek m a = 0x30
    · rw [extTurn_eq m (Nat.lt_of_not_le hlow) htag] at h
      have hpassed : ¬ SanAt m a ∧ a' = derSkipTlv m a := by
        rw [sanAt_iff]
        split at h
        case isTrue hoid =>
          cases h
          exact ⟨fun hsan => hoid hsan.1, rfl⟩
        case isFalse =>
          split at h
          case isTrue => cases h
          case isFalse hno =>
            cases h
            exact ⟨fun hsan => hno hsan.2, rfl⟩
      exact ⟨⟨Nat.lt_of_not_le hlow, htag, hpassed.1⟩, hpassed.2⟩
    · rw [extTurn, if_neg hlow] at h
      dsimp only at h
      rw [if_pos (show (derReadTag m a).1 ≠ 0x30 from htag)] at h
      cases h

theorem extTurn_leave_iff {limit a q : Nat} : extTurn m limit a = .leave (some q) ↔
    a < limit ∧ peek m a = 0x30 ∧ SanAt m a ∧
      q = (a + headerSize m a + headerSize m (a + headerSize m a)) % 65536 := by
  constructor
  · intro h
    by_cases hlow : limit ≤ a
    · rw [extTurn, if_pos hlow] at h
      cases h
    by_cases htag : peek m a = 0x30
    · rw [extTurn_eq m (Nat.lt_of_not_le hlow) htag] at h
      split at h
      case isTrue => cases h
      case isFalse hoid =>
        split at h
        case isTrue hsan =>
          cases h
          exact ⟨Nat.lt_of_not_le hlow, htag, (sanAt_iff m a).2 ⟨not_not.1 hoid, hsan⟩, rfl⟩
        case isFalse => cases h
    · rw [extTurn, if_neg hlow] at h
      dsimp only at h
      rw [if_pos (show (derReadTag m a).1 ≠ 0x30 from htag)] at h
      cases h
  · rintro ⟨hlow, htag, hsan, rfl⟩
    obtain ⟨hoid, hval⟩ := (sanAt_iff m a).1 hsan
    rw [extTurn_eq m hlow htag, if_neg (not_not_intro hoid), if_pos hval]

theorem goes_name (m : Buffer) (host : List UInt8) (limit : Nat) :
    Goes m (nameTurn m host limit) (OtherName m host limit) := by
  -- the two reads of the turn, at 16-bit addresses
  have hiff : ∀ a, HostAt m host a ↔ (derReadTag m a).1 = 0x82 ∧
      (derReadLength m (derReadTag m a).2).1 < 256 ∧ matchName (bytesFrom m
        (derReadLength m (derReadTag m a).2).2 (derReadLength m (derReadTag m a).2).1) host = true := by
    intro a
    rw [derReadLength_tag]
    dsimp only
    rw [bytesFrom_mod]
    exact ⟨fun h => ⟨h.tag, h.size, h.value⟩, fun ⟨h₁, h₂, h₃⟩ => ⟨h₁, h₂, h₃⟩⟩
  refine ⟨fun a ⟨hlow, hno⟩ => ?_, fun a a' h => ?_⟩
  · rw [hiff] at hno
    unfold nameTurn
    rw [if_neg (Nat.not_le_of_lt hlow)]
    exact if_neg hno
  · unfold nameTurn at h
    split at h
    case isTrue => cases h
    case isFalse hlow =>
      dsimp only at h
      split at h
      case isTrue => cases h
      case isFalse hno =>
        cases h
        refine ⟨⟨Nat.lt_of_not_le hlow, ?_⟩, rfl⟩
        rw [hiff]
        exact hno

/-! ## The rows that a scan goes over -/

namespace Goes

variable {ρ : Type} {turn : Nat → Turn Nat ρ} {P : Nat → Prop} {p : Nat}

/-- In 16 bits a cursor moves on over an element when the sum does not carry and the size is not 65536. -/
theorem lt_derSkipTlv_iff {a : Nat} (ha : a < 65536) : a < derSkipTlv m a ↔
    elementSize m a % 65536 ≠ 0 ∧ a + elementSize m a % 65536 < 65536 := by
  rw [derSkipTlv_eq]
  omega

/-- A scan that moves on in every turn comes to every element of the row. -/
theorem visits_of_row (hg : Goes m turn P) (hp : p < 65536)
    (hmoves : ∀ a a', Visits turn p a → turn a = .again a' → a < a') {ss : List Nat}
    (h : Row m P p ss) : p + ss.sum < 65536 ∧ 0 ∉ ss ∧ Visits turn p (p + ss.sum) := by
  induction h with
  | nil => exact ⟨hp, List.not_mem_nil, .refl⟩
  | @concat ss _ hlow hP ih =>
      obtain ⟨-, hpos, hvisits⟩ := ih
      have hstep := hg.again _ hP
      have hlt := hmoves _ _ hvisits hstep
      obtain ⟨hne, hsum⟩ := (lt_derSkipTlv_iff hlow).1 hlt
      have hnext : derSkipTlv m (p + ss.sum) = p + (ss ++ [elementSize m (p + ss.sum) % 65536]).sum := by
        rw [derSkipTlv_eq, List.sum_append, List.sum_singleton]
        omega
      rw [hnext] at hstep
      refine ⟨?_, ?_, hvisits.tail hstep⟩
      · rw [List.sum_append, List.sum_singleton]
        omega
      · rw [List.mem_append, List.mem_singleton]
        rintro (hmem | hzero)
        · exact hpos hmem
        · exact hne hzero.symm

/-- Without a carry a scan comes to nothing else. -/
theorem row_of_visits (hg : Goes m turn P) (hfit : NoCarry m P p) {a : Nat} (h : Visits turn p a) :
    ∃ ss, Row m P p ss ∧ a = p + ss.sum := by
  induction h with
  | refl => exact ⟨[], .nil, rfl⟩
  | @tail b c _ hstep ih =>
      obtain ⟨ss, hrow, rfl⟩ := ih
      obtain ⟨hP, rfl⟩ := hg.passed _ _ hstep
      have hrow' := hrow.concat (hfit ss hrow).1 hP
      refine ⟨_, hrow', ?_⟩
      have hsum := (hfit _ hrow').1
      rw [List.sum_append, List.sum_singleton] at hsum ⊢
      rw [derSkipTlv_eq]
      omega

/-- Every turn moves on if and only if no element of the row carries. -/
theorem moves_iff (hg : Goes m turn P) (hp : p < 65536) :
    (∀ a a', Visits turn p a → turn a = .again a' → a < a') ↔ NoCarry m P p := by
  constructor
  · intro hmoves ss hrow
    obtain ⟨hlow, hpos, -⟩ := hg.visits_of_row hp hmoves hrow
    exact ⟨hlow, hpos⟩
  · intro hfit a a' hvisits hstep
    obtain ⟨ss, hrow, rfl⟩ := hg.row_of_visits hfit hvisits
    obtain ⟨hP, rfl⟩ := hg.passed _ _ hstep
    have hrow' := hrow.concat (hfit ss hrow).1 hP
    obtain ⟨hsum, hpos⟩ := hfit _ hrow'
    rw [List.sum_append, List.sum_singleton] at hsum
    refine (lt_derSkipTlv_iff (hfit ss hrow).1).2 ⟨fun hzero => hpos ?_, by omega⟩
    exact List.mem_append_right _ (List.mem_singleton.2 hzero.symm)

/-- Where a scan leaves that moves on. -/
theorem leaves_iff (hg : Goes m turn P) (hp : p < 65536) (hfit : NoCarry m P p) {r : ρ} :
    (∃ n, loop turn n p = some r) ↔ ∃ ss, Row m P p ss ∧ turn (p + ss.sum) = .leave r := by
  constructor
  · rintro ⟨n, hn⟩
    obtain ⟨a, hvisits, hleave⟩ := visits_of_loop hn
    obtain ⟨ss, hrow, rfl⟩ := hg.row_of_visits hfit hvisits
    exact ⟨ss, hrow, hleave⟩
  · rintro ⟨ss, hrow, hleave⟩
    obtain ⟨-, -, hvisits⟩ := hg.visits_of_row hp ((hg.moves_iff hp).2 hfit) hrow
    exact loop_of_chain hvisits hleave

end Goes

/-! ## The lists that the scans go over -/

variable {base : Nat} {host : List UInt8}

section Lists

variable {p limit : Nat}

theorem content_iff {tag : UInt8} {a : Nat} :
    (if (derReadTag m (a % 65536)).1 ≠ tag then none
      else some ((derReadLength m (derReadTag m (a % 65536)).2).2,
        add16 (derReadLength m (derReadTag m (a % 65536)).2).2
          (derReadLength m (derReadTag m (a % 65536)).2).1)) = some (p, limit) ↔
      Content m tag a p limit := by
  rw [derReadTag_mod, derReadLength_tag]
  dsimp only
  rw [add16_eq, Nat.mod_add_mod, Nat.add_assoc]
  constructor
  · intro h
    split at h
    case isTrue => cases h
    case isFalse htag =>
      cases h
      exact ⟨not_not.1 htag, rfl, rfl⟩
  · rintro ⟨htag, rfl, rfl⟩
    exact if_neg (not_not_intro htag)

theorem Content.lt {tag : UInt8} {a : Nat} (h : Content m tag a p limit) : p < 65536 := by
  rw [h.first]
  exact Nat.mod_lt _ (by decide)

theorem FieldsAt.lt (h : FieldsAt m base p limit) : p < 65536 := by
  obtain ⟨-, v, -, rfl⟩ := h
  exact Nat.mod_lt _ (by decide)

/-- The seven or six fields that are passed over. -/
theorem skipped_fields (m : Buffer) (v : Nat) :
    derSkipTlv m (derSkipTlv m (derSkipTlv m (derSkipTlv m (derSkipTlv m
      (if (derReadTag m (v % 65536)).1 = 0xa0 then
        derSkipTlv m (skipValue m (derReadTag m (v % 65536)).2)
      else skipValue m (derReadTag m (v % 65536)).2))))) =
      behind m (if peek m v = 0xa0 then 7 else 6) v % 65536 := by
  have hfirst : skipValue m (derReadTag m (v % 65536)).2 = behind m 1 v % 65536 :=
    derSkipTlv_behind m 0 v
  have htag : (derReadTag m (v % 65536)).1 = peek m v := peek_mod m v
  rw [hfirst, htag]
  split
  case isTrue => simp only [derSkipTlv_behind]
  case isFalse => simp only [derSkipTlv_behind]

theorem behind_mod (m : Buffer) (n v : Nat) : behind m n (v % 65536) % 65536 = behind m n v % 65536 := by
  induction n with
  | zero => exact Nat.mod_mod _ _
  | succ n ih => rw [← derSkipTlv_behind, ih, derSkipTlv_behind]

theorem openTbs_iff : openTbs m base = some (p, limit) ↔ FieldsAt m base p limit := by
  -- the limit is the end of the second element
  have hlimit : add16 ((base + headerSize m base + headerSize m (base + headerSize m base)) % 65536)
      (valueSize m (base + headerSize m base)) =
        (base + headerSize m base + elementSize m (base + headerSize m base)) % 65536 := by
    unfold elementSize
    rw [add16_eq, Nat.mod_add_mod, Nat.add_assoc (base + headerSize m base)]
  unfold openTbs
  dsimp only
  rw [derReadLength_tag]
  dsimp only
  rw [derReadTag_mod, derReadLength_tag]
  dsimp only
  rw [skipped_fields, hlimit]
  constructor
  · intro h
    split at h
    case isTrue => cases h
    case isFalse hcert =>
      split at h
      case isTrue => cases h
      case isFalse htbs =>
        cases h
        refine ⟨not_not.1 hcert, _, ⟨not_not.1 htbs, rfl, rfl⟩, ?_⟩
        rw [peek_mod, behind_mod]
  · rintro ⟨hcert, v, hv, rfl⟩
    rw [if_neg (show ¬ (derReadTag m base).1 ≠ 0x30 from not_not_intro hcert),
      if_neg (show ¬ (derReadTag m (base + headerSize m base)).1 ≠ 0x30 from not_not_intro hv.tag),
      hv.first, hv.limit, peek_mod, behind_mod]

theorem foundExts_iff {a : Nat} :
    foundExts m (inc16 a) = some (p, limit) ↔ Content m 0x30 (a + headerSize m a) p limit := by
  rw [← content_iff]
  unfold foundExts
  have hlen : derReadLength m (inc16 a) = (valueSize m a, (a + headerSize m a) % 65536) :=
    derReadLength_tag m a
  rw [hlen]

theorem foundSan_iff {a : Nat} (hsan : SanAt m a) :
    foundSan m ((a + headerSize m a + headerSize m (a + headerSize m a)) % 65536) = some (p, limit) ↔
      peek m (sanValue m a) = 0x04 ∧
        Content m 0x30 (sanValue m a + headerSize m (sanValue m a)) p limit := by
  rw [← content_iff]
  have hskip : derSkip ((a + headerSize m a + headerSize m (a + headerSize m a)) % 65536) 3 =
      (a + headerSize m a + elementSize m (a + headerSize m a)) % 65536 := by
    unfold derSkip elementSize
    rw [add16_eq, Nat.mod_add_mod, hsan.size, Nat.add_assoc (a + headerSize m a)]
  -- the optional BOOLEAN in front of the value is passed over
  have hvalue : (if (derReadTag m (derSkip ((a + headerSize m a + headerSize m (a + headerSize m a)) % 65536)
      3)).1 = 0x01 then derReadTag m (skipValue m (derReadTag m (derSkip ((a + headerSize m a +
        headerSize m (a + headerSize m a)) % 65536) 3)).2) else derReadTag m (derSkip ((a + headerSize m a +
          headerSize m (a + headerSize m a)) % 65536) 3)) = derReadTag m (sanValue m a) := by
    rw [hskip, derReadTag_mod]
    unfold sanValue
    dsimp only
    split
    case isTrue hbool =>
      rw [if_pos (show peek m _ = 0x01 from hbool)]
      show derReadTag m (derSkipTlv m _) = _
      rw [derSkipTlv_eq, derReadTag_mod]
    case isFalse hbool =>
      rw [if_neg (show ¬ peek m _ = 0x01 from hbool)]
  unfold foundSan
  dsimp only
  rw [hvalue, derReadLength_tag]
  dsimp only
  constructor
  · intro h
    split at h
    case isTrue => cases h
    case isFalse htag => exact ⟨not_not.1 htag, h⟩
  · rintro ⟨htag, h⟩
    rw [if_neg (show ¬ (derReadTag m (sanValue m a)).1 ≠ 0x04 from not_not_intro htag)]
    exact h

theorem ExtsAt.lt (h : ExtsAt m base p limit) : p < 65536 := by
  obtain ⟨p₀, limit₀, ss, -, -, -, -, hcontent⟩ := h
  exact hcontent.lt

end Lists

/-- The three scans, as far as every turn moves on. -/
theorem chainsFit_of_moves (hhost : host ≠ []) (hmoves : ∀ p p', Iterates m base host p p' → p < p') :
    ChainsFit m base host := by
  have hfields : ∀ p limit, FieldsAt m base p limit → NoCarry m (OtherField m limit) p := by
    intro p limit hat
    exact ((goes_field m limit).moves_iff hat.lt).1 fun a a' hv hs =>
      hmoves a a' (.opt hhost (openTbs_iff.2 hat) hv hs)
  have hexts : ∀ p limit, ExtsAt m base p limit → NoCarry m (OtherExt m limit) p := by
    rintro p limit ⟨p₀, limit₀, ss, hat, hrow, hlow, htag, hcontent⟩
    obtain ⟨n, hopt⟩ := ((goes_field m limit₀).leaves_iff hat.lt (hfields _ _ hat)).2
      ⟨ss, hrow, scanOptTurn_leave_iff.2 ⟨hlow, htag, rfl⟩⟩
    exact ((goes_ext m limit).moves_iff hcontent.lt).1 fun a a' hv hs =>
      hmoves a a' (.ext hhost (openTbs_iff.2 hat) hopt (foundExts_iff.2 hcontent) hv hs)
  refine ⟨hfields, hexts, ?_⟩
  rintro p limit ⟨p₁, limit₁, ss₁, hat₁, hrow₁, hlow₁, htag₁, hsan, hvalue, hcontent⟩
  have hfit₁ := hexts _ _ hat₁
  obtain ⟨p₀, limit₀, ss, hat, hrow, hlow, htag, hcontent₁⟩ := hat₁
  obtain ⟨n, hopt⟩ := ((goes_field m limit₀).leaves_iff hat.lt (hfields _ _ hat)).2
    ⟨ss, hrow, scanOptTurn_leave_iff.2 ⟨hlow, htag, rfl⟩⟩
  obtain ⟨n₁, hext⟩ := ((goes_ext m limit₁).leaves_iff hcontent₁.lt hfit₁).2
    ⟨ss₁, hrow₁, extTurn_leave_iff.2 ⟨hlow₁, htag₁, hsan, rfl⟩⟩
  exact ((goes_name m host limit).moves_iff hcontent.lt).1 fun a a' hv hs =>
    hmoves a a' (.name hhost (openTbs_iff.2 hat) hopt (foundExts_iff.2 hcontent₁) hext
      ((foundSan_iff hsan).2 ⟨hvalue, hcontent⟩) hv hs)

theorem Iterates.host_ne {p p' : Nat} (h : Iterates m base host p p') : host ≠ [] := by
  cases h with
  | opt hhost => exact hhost
  | ext hhost => exact hhost
  | name hhost => exact hhost

/-- What the third scan goes over is what the second found, and that what the first found. -/
theorem extsAt_of_loop (hfit : ChainsFit m base host) {p₀ limit₀ n q p limit : Nat}
    (hopen : openTbs m base = some (p₀, limit₀))
    (hopt : loop (scanOptTurn m limit₀) n p₀ = some (some q)) (hfound : foundExts m q = some (p, limit)) :
    ExtsAt m base p limit := by
  have hat := openTbs_iff.1 hopen
  obtain ⟨ss, hrow, hleave⟩ :=
    ((goes_field m limit₀).leaves_iff hat.lt (hfit.fields _ _ hat)).1 ⟨n, hopt⟩
  obtain ⟨hlow, htag, rfl⟩ := scanOptTurn_leave_iff.1 hleave
  exact ⟨p₀, limit₀, ss, hat, hrow, hlow, htag, foundExts_iff.1 hfound⟩

theorem moves_of_chainsFit (hfit : ChainsFit m base host) {p p' : Nat} (h : Iterates m base host p p') :
    p < p' := by
  cases h with
  | opt _ hopen hv hs =>
      have hat := openTbs_iff.1 hopen
      exact ((goes_field m _).moves_iff hat.lt).2 (hfit.fields _ _ hat) _ _ hv hs
  | ext _ hopen hopt hfound hv hs =>
      have hat := extsAt_of_loop hfit hopen hopt hfound
      exact ((goes_ext m _).moves_iff hat.lt).2 (hfit.exts _ _ hat) _ _ hv hs
  | @name p₀ limit₀ n q p₁ limit₁ n₁ q₁ p₂ limit₂ _ _ _ hopen hopt hfound hext hsan hv hs =>
      have hat₁ := extsAt_of_loop hfit hopen hopt hfound
      obtain ⟨ss, hrow, hleave⟩ :=
        ((goes_ext m limit₁).leaves_iff hat₁.lt (hfit.exts _ _ hat₁)).1 ⟨n₁, hext⟩
      obtain ⟨hlow, htag, hsanAt, rfl⟩ := extTurn_leave_iff.1 hleave
      obtain ⟨hvalue, hcontent⟩ := (foundSan_iff hsanAt).1 hsan
      have hat : NamesAt m base p₂ limit₂ :=
        ⟨p₁, limit₁, ss, hat₁, hrow, hlow, htag, hsanAt, hvalue, hcontent⟩
      exact ((goes_name m host limit₂).moves_iff hcontent.lt).2 (hfit.names _ _ hat) _ _ hv hs

/-! ## The end -/

/-- A scan whose turns all move on ends. -/
theorem scan_ends {ρ : Type} {turn : Nat → Turn Nat ρ} {p₀ : Nat}
    (hskip : ∀ p p', turn p = .again p' → p' = derSkipTlv m p)
    (hmoves : ∀ p p', Visits turn p₀ p → turn p = .again p' → p < p') :
    ∃ n r, loop turn n p₀ = some r := by
  refine loop_of_visits (fun p => 65536 - p) ?_
  intro p p' hvisits hstep
  have hlt := hmoves p p' hvisits hstep
  have hle : p' < 65536 := by
    rw [hskip p p' hstep]
    exact derSkipTlv_lt m p
  omega

/-- The call ends, and every turn of its scans moves the cursor on. -/
structure Ends (m : Buffer) (base : Nat) (host : List UInt8) : Prop where
  verdict : ∃ n r, x509VerifyHostname m base host n = some r
  moves : ∀ p p', Iterates m base host p p' → p < p'

/-- The parts of a call behind `host = []`, one after the other. -/
theorem verify_eq (hhost : host ≠ []) (n : Nat) :
    x509VerifyHostname m base host n =
      match openTbs m base with
      | none => some false
      | some (p, limit) => (loop (scanOptTurn m limit) n p).bind fun
          | none => some false
          | some p =>
              match foundExts m p with
              | none => some false
              | some (p, limit) => (loop (extTurn m limit) n p).bind fun
                  | none => some false
                  | some p =>
                      match foundSan m p with
                      | none => some false
                      | some (p, limit) => loop (nameTurn m host limit) n p := by
  unfold x509VerifyHostname
  rw [if_neg hhost]
  rcases openTbs m base with _ | ⟨p, limit⟩
  · rfl
  dsimp only
  rcases loop (scanOptTurn m limit) n p with _ | _ | p
  · rfl
  · rfl
  dsimp only [Option.bind_some]
  rcases foundExts m p with _ | ⟨p, limit⟩
  · rfl
  dsimp only
  rcases loop (extTurn m limit) n p with _ | _ | p
  · rfl
  · rfl
  rfl

/-- A call whose turns all move on ends. -/
theorem verdict_of_moves (hmoves : ∀ p p', Iterates m base host p p' → p < p') :
    ∃ n r, x509VerifyHostname m base host n = some r := by
  by_cases hhost : host = []
  · refine ⟨0, false, ?_⟩
    unfold x509VerifyHostname
    rw [if_pos hhost]
  simp only [verify_eq hhost]
  cases hopen : openTbs m base with
  | none => exact ⟨0, false, rfl⟩
  | some x =>
      obtain ⟨p₀, limit⟩ := x
      dsimp only
      obtain ⟨n₀, r₀, hopt⟩ := @scan_ends m _ (scanOptTurn m limit) p₀ (fun _ _ hs => ((goes_field m limit).passed _ _ hs).2)
        (fun p p' hv hs => hmoves p p' (.opt hhost hopen hv hs))
      rcases r₀ with _ | q
      · exact ⟨n₀, false, by rw [hopt]; rfl⟩
      cases hfound : foundExts m q with
      | none => exact ⟨n₀, false, by rw [hopt, Option.bind_some]; dsimp only; rw [hfound]⟩
      | some x =>
          obtain ⟨p₁, limit₁⟩ := x
          obtain ⟨n₁, r₁, hext⟩ :=
            @scan_ends m _ (extTurn m limit₁) p₁ (fun _ _ hs => ((goes_ext m limit₁).passed _ _ hs).2)
              (fun p p' hv hs => hmoves p p' (.ext hhost hopen hopt hfound hv hs))
          -- both scans end within the larger bound
          have hopt₁ := loop_mono (Nat.le_max_left n₀ n₁) hopt
          have hext₁ := loop_mono (Nat.le_max_right n₀ n₁) hext
          rcases r₁ with _ | q₁
          · refine ⟨max n₀ n₁, false, ?_⟩
            rw [hopt₁, Option.bind_some]
            dsimp only
            rw [hfound]
            dsimp only
            rw [hext₁]
            rfl
          cases hsan : foundSan m q₁ with
          | none =>
              refine ⟨max n₀ n₁, false, ?_⟩
              rw [hopt₁, Option.bind_some]
              dsimp only
              rw [hfound]
              dsimp only
              rw [hext₁, Option.bind_some]
              dsimp only
              rw [hsan]
          | some x =>
              obtain ⟨p₂, limit₂⟩ := x
              obtain ⟨n₂, r₂, hname⟩ :=
                @scan_ends m _ (nameTurn m host limit₂) p₂ (fun _ _ hs => ((goes_name m host limit₂).passed _ _ hs).2)
                  (fun p p' hv hs =>
                    hmoves p p' (.name hhost hopen hopt hfound hext hsan hv hs))
              refine ⟨max (max n₀ n₁) n₂, r₂, ?_⟩
              rw [loop_mono (Nat.le_max_left _ n₂) hopt₁, Option.bind_some]
              dsimp only
              rw [hfound]
              dsimp only
              rw [loop_mono (Nat.le_max_left _ n₂) hext₁, Option.bind_some]
              dsimp only
              rw [hsan]
              exact loop_mono (Nat.le_max_right _ n₂) hname

/-- A certificate of one extension with one name, whose length is 65532. -/
def wrappingLeaf : List UInt8 :=
  [0x30, 0x22, 0x30, 0x20, 0x02, 0x01, 0x01, 0x30, 0x00, 0x30, 0x00, 0x30, 0x00, 0x30, 0x00,
    0x30, 0x00, 0xa3, 0x11, 0x30, 0x0f, 0x30, 0x0d, 0x06, 0x03, 0x55, 0x1d, 0x11,
    0x04, 0x06, 0x30, 0x04, 0x82, 0x82, 0xff, 0xfc]

/-- It lies at `$a000`. -/
def wrappingMemory : Buffer :=
  store (fun _ => 0) 0xa000 wrappingLeaf

/-- Over the name the cursor comes back to it. -/
theorem wrapping_name (n : Nat) (host : List UInt8) :
    loop (nameTurn wrappingMemory host 40996) n 40992 = none := by
  refine loop_diverges (fun p => p = 40992) ?_ n 40992 rfl
  rintro p rfl
  have hlen : derReadLength wrappingMemory (derReadTag wrappingMemory 40992).2 =
      (65532, 40996) := by
    decide +kernel
  refine ⟨40992, ?_, rfl⟩
  unfold nameTurn
  dsimp only
  rw [if_neg (by decide), hlen, if_neg (by rintro ⟨-, hlt, -⟩; exact absurd hlt (by decide))]
  show Turn.again (add16 40996 65532) = _
  rw [add16_eq]

/-- The scans before it end at the one extension and at its name. -/
theorem wrapping_walk :
    openTbs wrappingMemory 0xa000 = some (40977, 40996) ∧
    loop (scanOptTurn wrappingMemory 40996) 1 40977 = some (some 40978) ∧
    foundExts wrappingMemory 40978 = some (40981, 40996) ∧
    loop (extTurn wrappingMemory 40996) 1 40981 = some (some 40985) ∧
    foundSan wrappingMemory 40985 = some (40992, 40996) := by
  refine ⟨?_, ?_, ?_, ?_, ?_⟩
  · decide +kernel
  · decide +kernel
  · decide +kernel
  · decide +kernel
  · decide +kernel

end X509
end C64Https
