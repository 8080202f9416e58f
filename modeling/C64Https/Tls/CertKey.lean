import C64Https.Lib.Footprint
import C64Https.Tls.Cert

/-!
# CertKey — what the key extractor looks at (`src/tls_cert.s`)

`x509_extract_pubkey` compares its pointer with the end of the certificate when it looks for the
two OIDs and when it looks for the BIT STRING; behind the tag of the BIT STRING it compares nothing.
The search of the leaf *alone* is written below as a function of its bytes: it *overruns* where it
needs a byte that the leaf does not have.  Where it does not, the extractor finds in every memory
what the search of the leaf finds, and the key lies in the leaf; where it does, the bytes behind the
leaf decide.
-/

namespace C64Https
namespace Tls

open Word Bytes Footprint

/-! ## The search of the leaf alone -/

/-- Where the search ends. -/
inductive Found where
  | refused
  | overrun
  /-- the leaf from Qx on -/
  | point (rest : List UInt8)
  deriving DecidableEq, Repr

/-- Behind the length of the BIT STRING: no unused bits, an uncompressed point, the point. -/
def uncompressedIn : List UInt8 → Found
  | [] => .overrun
  | [u] => if u ≠ 0x00 then .refused else .overrun
  | u :: c :: rest =>
      if u ≠ 0x00 then .refused
      else if c ≠ 0x04 then .refused
      else if rest.length < 64 then .overrun
      else .point rest

/-- The bytes of a long length that follow its first byte. -/
def lengthExtra (b : UInt8) : Nat :=
  if b = 0x81 then 1 else if b = 0x82 then 2 else 0

/-- Behind the tag of the BIT STRING. -/
def pointIn : List UInt8 → Found
  | [] => .overrun
  | b :: bs => uncompressedIn (bs.drop (lengthExtra b))

/-- Behind the two OIDs. -/
def bitStringIn : List UInt8 → Found
  | [] => .refused
  | b :: bs => if b = 0x03 then pointIn bs else bitStringIn bs

/-- From the start of the leaf.  `room` is what is left of the address space above the leaf: where a
match that begins in the leaf ends beyond the last address, the pointer wraps below `cert_end`. -/
def keyIn (room : Nat) : List UInt8 → Found
  | [] => .refused
  | b :: bs =>
      if ecP256Oids <+: (b :: bs) then bitStringIn ((b :: bs).drop 19)
      else if (b :: bs) <+: ecP256Oids ∧ room + (b :: bs).length ≤ 19 then .overrun
      else keyIn room bs

/-! ## The extractor up to its tail call -/

/-- A hook that keeps the pointer to Qy. -/
def recordPoint : KeyHook Nat :=
  fun qy _ _ _ _ => (qy, true)

/-- The pointer to Qy and the key, when a key is copied. -/
def extractPoint (ptr len : Nat) (s : LeafKeys Nat) (view : Buffer) : Option (Nat × List UInt8) :=
  match x509ExtractPubkey recordPoint ptr view len s with
  | (s, true) => some (s.hook, s.pubkeyX ++ s.pubkeyY)
  | (_, false) => none

/-- The verdict and the key are the leaf's: no byte behind it decides, and the key lies in it. -/
structure LeafDecides (ptr len : Nat) (s : LeafKeys Nat) (view : Buffer) : Prop where
  blind : Determined len (extractPoint ptr len s) view
  inside : ∀ qy key, extractPoint ptr len s view = some (qy, key) →
    ∃ o, o + 64 ≤ len ∧ qy = add16 ptr (o + 32) ∧ key = bytesAt view o 64

/-! ## Addresses and offsets -/

section Offsets

variable {ptr len : Nat} {view : Buffer}

/-- The BIT STRING and the point behind it, from address `a` on. -/
def bitFrom (ptr certEnd : Nat) (view : Buffer) (a : Nat) : Option Nat :=
  (scanBitString ptr view certEnd a).bind (pointAt ptr view)

/-- The address of Qx. -/
def locate (ptr len : Nat) (view : Buffer) : Option Nat :=
  (scanOid ptr view (add16 ptr len)).bind (bitFrom ptr (add16 ptr len) view)

theorem extractPoint_eq (s : LeafKeys Nat) :
    extractPoint ptr len s view = (locate ptr len view).map fun q =>
      (add16 q 32, peeks ptr view q 32 ++ peeks ptr view (add16 q 32) 32) := by
  unfold extractPoint x509ExtractPubkey locate
  dsimp only
  cases scanOid ptr view (add16 ptr len) with
  | none => rfl
  | some a =>
      simp only [Option.bind_some, bitFrom]
      cases scanBitString ptr view (add16 ptr len) a with
      | none => rfl
      | some b =>
          simp only [Option.bind_some]
          cases pointAt ptr view b with
          | none => rfl
          | some q => rfl

theorem add16_add16 (a b c : Nat) : add16 (add16 a b) c = add16 a (b + c) := by
  unfold add16
  omega

theorem peek_at {o y : Nat} (hptr : ptr < 65536) (h : o + y < 65536) :
    peek ptr view (add16 ptr o) y = view (o + y) := by
  have hoff : sub16 (add16 ptr (o + y)) ptr = o + y := by
    unfold sub16 add16
    omega
  unfold peek
  rw [add16_add16, hoff]

theorem peeks_at {o n : Nat} (hptr : ptr < 65536) (h : o + n ≤ 65536) :
    peeks ptr view (add16 ptr o) n = bytesAt view o n := by
  unfold peeks bytesAt
  refine List.map_congr_left ?_
  intro i hi
  have hlt := List.mem_range.1 hi
  exact peek_at hptr (by omega)

/-- A scan of the addresses of a run of offsets. -/
theorem scan_at (p : Nat → Bool) (n o : Nat) :
    scan p (n + 1) (add16 ptr o) =
      if p (add16 ptr o) then some (add16 ptr o) else scan p n (add16 ptr (o + 1)) := by
  rw [← add16_add16]
  rfl

end Offsets

/-! ## The point -/

section Point

variable {ptr len : Nat} {v v' : Buffer}

/-- The address of a point that was found. -/
def Found.address (ptr len : Nat) : Found → Option Nat
  | .point rest => some (add16 ptr (len - rest.length))
  | _ => none

/-- The leaf from a point on holds the 64 bytes. -/
def Found.InLeaf (len : Nat) : Found → Prop
  | .point rest => 64 ≤ rest.length ∧ rest.length ≤ len
  | _ => True

/-- The offset of the byte behind the length of the BIT STRING at `b`. -/
def unusedAt (v : Buffer) (b : Nat) : Nat :=
  b + 2 + lengthExtra (v (b + 1))

theorem lengthExtra_le (b : UInt8) : lengthExtra b ≤ 2 := by
  unfold lengthExtra
  split_ifs <;> decide

theorem pointAt_at {b : Nat} (hptr : ptr < 65536) (hb : b + 6 < 65536) :
    pointAt ptr v (add16 ptr b) =
      if v (unusedAt v b) ≠ 0x00 then none
      else if v (unusedAt v b + 1) ≠ 0x04 then none
      else some (add16 ptr (unusedAt v b + 2)) := by
  have hextra := lengthExtra_le (v (b + 1))
  have hheader : bitStringHeader ptr v (add16 ptr b) = 2 + lengthExtra (v (b + 1)) := by
    unfold bitStringHeader lengthExtra
    rw [peek_at hptr (by omega)]
    split_ifs <;> rfl
  have hy : b + (2 + lengthExtra (v (b + 1))) = unusedAt v b := (Nat.add_assoc _ _ _).symm
  have hy₁ : b + (2 + lengthExtra (v (b + 1)) + 1) = unusedAt v b + 1 := by
    rw [← Nat.add_assoc, hy]
  have hy₂ : b + (2 + lengthExtra (v (b + 1)) + 2) = unusedAt v b + 2 := by
    rw [← Nat.add_assoc, hy]
  unfold pointAt
  dsimp only
  rw [hheader, peek_at hptr (by omega), peek_at hptr (by omega), add16_add16, hy, hy₁, hy₂]

/-- The leaf's bytes behind a length. -/
theorem drop_leaf (v : Buffer) (off n k : Nat) :
    (bytesAt v off n).drop k = bytesAt v (off + k) (n - k) := by
  rcases Nat.lt_or_ge n k with hlt | hge
  · rw [List.drop_of_length_le (by simpa using Nat.le_of_lt hlt),
      Nat.sub_eq_zero_of_le (Nat.le_of_lt hlt), bytesAt_zero]
  · exact drop_bytesAt v off hge

theorem uncompressedIn_one (u : UInt8) :
    uncompressedIn [u] = if u ≠ 0x00 then .refused else .overrun :=
  rfl

theorem uncompressedIn_two (u c : UInt8) (rest : List UInt8) :
    uncompressedIn (u :: c :: rest) =
      if u ≠ 0x00 then .refused else if c ≠ 0x04 then .refused
      else if rest.length < 64 then .overrun else .point rest :=
  rfl

/-- Behind the length, where the leaf does not overrun, every memory gives what the leaf gives. -/
theorem uncompressedIn_sound {off n : Nat} (hn : off + n = len ∨ n = 0)
    (h : uncompressedIn (bytesAt v off n) ≠ .overrun) :
    (if v off ≠ 0x00 then none else if v (off + 1) ≠ 0x04 then none
      else some (add16 ptr (off + 2))) = (uncompressedIn (bytesAt v off n)).address ptr len ∧
      (uncompressedIn (bytesAt v off n)).InLeaf len := by
  match n with
  | 0 => exact absurd rfl h
  | 1 =>
      rw [bytesAt_succ, bytesAt_zero, uncompressedIn_one] at h ⊢
      by_cases hu : v off ≠ 0x00
      · rw [if_pos hu, if_pos hu]
        exact ⟨rfl, trivial⟩
      · rw [if_neg hu] at h
        exact absurd rfl h
  | n + 2 =>
      rw [bytesAt_succ, bytesAt_succ, uncompressedIn_two] at h ⊢
      by_cases hu : v off ≠ 0x00
      · rw [if_pos hu, if_pos hu]
        exact ⟨rfl, trivial⟩
      · rw [if_neg hu] at h ⊢
        rw [if_neg hu]
        by_cases hc : v (off + 1) ≠ 0x04
        · rw [if_pos hc, if_pos hc]
          exact ⟨rfl, trivial⟩
        · rw [if_neg hc] at h ⊢
          rw [if_neg hc]
          by_cases hlen : (bytesAt v (off + 1 + 1) n).length < 64
          · rw [if_pos hlen] at h
            exact absurd rfl h
          · rw [if_neg hlen]
            rw [length_bytesAt] at hlen
            have hend : off + (n + 2) = len := by
              rcases hn with hn | hn
              · exact hn
              · cases hn
            have hsub : len - n = off + 2 := by omega
            refine ⟨?_, ?_⟩
            · show some (add16 ptr (off + 2)) =
                some (add16 ptr (len - (bytesAt v (off + 1 + 1) n).length))
              rw [length_bytesAt, hsub]
            · show 64 ≤ (bytesAt v (off + 1 + 1) n).length ∧ (bytesAt v (off + 1 + 1) n).length ≤ len
              rw [length_bytesAt]
              exact ⟨Nat.le_of_not_lt hlen, by omega⟩

theorem pointIn_sound {b n : Nat} (hptr : ptr < 65536) (hlen : len + 6 < 65536)
    (hn : b + 1 + n = len) (h : pointIn (bytesAt v (b + 1) n) ≠ .overrun) :
    pointAt ptr v (add16 ptr b) = (pointIn (bytesAt v (b + 1) n)).address ptr len ∧
      (pointIn (bytesAt v (b + 1) n)).InLeaf len := by
  rw [pointAt_at hptr (by omega)]
  cases n with
  | zero => exact absurd rfl h
  | succ n =>
      have hin : pointIn (bytesAt v (b + 1) (n + 1)) =
          uncompressedIn (bytesAt v (unusedAt v b) (n - lengthExtra (v (b + 1)))) := by
        rw [bytesAt_succ]
        exact congrArg uncompressedIn (drop_leaf v _ _ _)
      rw [hin] at h ⊢
      refine uncompressedIn_sound ?_ h
      unfold unusedAt
      omega

/-- Zeros behind the leaf, but for a `04` at `c`. -/
def pointBehind (len c : Nat) (v : Buffer) : Buffer := fun i =>
  if i < len then v i else if i = c then 0x04 else 0x00

theorem agrees_pointBehind (len c : Nat) (v : Buffer) : Agrees len v (pointBehind len c v) :=
  fun _ hi => if_pos hi

/-- Where the leaf overruns behind the length, none of its own bytes is in the way of a point. -/
theorem uncompressedIn_overrun {u m : Nat} (hm : u + m = len ∨ m = 0 ∧ len ≤ u)
    (h : uncompressedIn (bytesAt v u m) = .overrun) :
    (u < len → v u = 0x00) ∧ (u + 1 < len → v (u + 1) = 0x04) ∧ len < u + 66 := by
  match m with
  | 0 => exact ⟨fun hlt => by omega, fun hlt => by omega, by omega⟩
  | 1 =>
      rw [bytesAt_succ, bytesAt_zero, uncompressedIn_one] at h
      by_cases hu : v u ≠ 0x00
      · rw [if_pos hu] at h
        cases h
      · exact ⟨fun _ => not_not.1 hu, fun hlt => by omega, by omega⟩
  | m + 2 =>
      rw [bytesAt_succ, bytesAt_succ, uncompressedIn_two] at h
      by_cases hu : v u ≠ 0x00
      · rw [if_pos hu] at h
        cases h
      · rw [if_neg hu] at h
        by_cases hc : v (u + 1) ≠ 0x04
        · rw [if_pos hc] at h
          cases h
        · rw [if_neg hc, length_bytesAt] at h
          by_cases hlen : m < 64
          · exact ⟨fun _ => not_not.1 hu, fun _ => not_not.1 hc, by omega⟩
          · rw [if_neg hlen] at h
            cases h

/-- Where the search of the leaf overruns behind the tag, there is a memory behind the leaf for
which the extractor copies a key from there. -/
theorem pointIn_overrun {b n : Nat} (hptr : ptr < 65536) (hlen : len + 70 < 65536)
    (hn : b + 1 + n = len) (h : pointIn (bytesAt v (b + 1) n) = .overrun) :
    ∃ v' o, Agrees len v v' ∧ pointAt ptr v' (add16 ptr b) = some (add16 ptr o) ∧
      len < o + 64 ∧ o + 64 ≤ 65536 := by
  have hextra := lengthExtra_le (beyond len v 0 (b + 1))
  generalize hu : unusedAt (beyond len v 0) b = u
  have hub : u = b + 2 + lengthExtra (beyond len v 0 (b + 1)) := hu.symm
  have hagree := agrees_pointBehind len (u + 1) v
  have hcell : ∀ i, len ≤ i → i ≠ u + 1 → pointBehind len (u + 1) v i = 0x00 := by
    intro i hle hne
    unfold pointBehind
    rw [if_neg (Nat.not_lt.2 hle), if_neg hne]
  have hsame : unusedAt (pointBehind len (u + 1) v) b = u := by
    have hnext : pointBehind len (u + 1) v (b + 1) = beyond len v 0 (b + 1) := by
      rcases Nat.lt_or_ge (b + 1) len with hlt | hge
      · rw [hagree _ hlt, beyond_of_lt _ hlt]
      · rw [hcell _ hge (by omega), beyond_of_le _ hge]
    unfold unusedAt
    rw [hnext, hub]
  have hway : (u < len → v u = 0x00) ∧ (u + 1 < len → v (u + 1) = 0x04) ∧ len < u + 66 := by
    cases n with
    | zero => exact ⟨fun hlt => by omega, fun hlt => by omega, by omega⟩
    | succ n =>
        rw [beyond_of_lt _ (by omega)] at hub
        have hin : pointIn (bytesAt v (b + 1) (n + 1)) =
            uncompressedIn (bytesAt v u (n - lengthExtra (v (b + 1)))) := by
          rw [bytesAt_succ, hub]
          exact congrArg uncompressedIn (drop_leaf v _ _ _)
        rw [hin] at h
        exact uncompressedIn_overrun (by omega) h
  refine ⟨pointBehind len (u + 1) v, u + 2, hagree, ?_, by omega, by omega⟩
  have h₀ : pointBehind len (u + 1) v u = 0x00 := by
    rcases Nat.lt_or_ge u len with hlt | hge
    · exact (hagree _ hlt).trans (hway.1 hlt)
    · exact hcell _ hge (Nat.ne_of_lt (Nat.lt_succ_self u))
  have h₁ : pointBehind len (u + 1) v (u + 1) = 0x04 := by
    rcases Nat.lt_or_ge (u + 1) len with hlt | hge
    · exact (hagree _ hlt).trans (hway.2.1 hlt)
    · unfold pointBehind
      rw [if_neg (Nat.not_lt.2 hge), if_pos rfl]
  rw [pointAt_at hptr (by omega), hsame, h₀, h₁]
  rfl

end Point

/-! ## The BIT STRING -/

section BitString

variable {ptr len : Nat} {v : Buffer}

/-- The scan of the leaf from the offset `o` on, `n` bytes before its end. -/
theorem bitFrom_at {o n : Nat} (hend : ptr + len < 65536) (hn : o + n = len) :
    bitFrom ptr (add16 ptr len) v (add16 ptr o) =
      (scan (fun a => peek ptr v a 0 == 0x03) n (add16 ptr o)).bind (pointAt ptr v) := by
  have hcount : add16 ptr len - add16 ptr o = n := by
    rw [add16_of_lt hend, add16_of_lt (by omega)]
    omega
  unfold bitFrom scanBitString
  rw [hcount]

theorem bitFrom_none {o : Nat} (hend : ptr + len < 65536) (ho : len ≤ o)
    (hwrap : ptr + o < 65536) : bitFrom ptr (add16 ptr len) v (add16 ptr o) = none := by
  have hcount : add16 ptr len - add16 ptr o = 0 := by
    rw [add16_of_lt hend, add16_of_lt hwrap]
    omega
  unfold bitFrom scanBitString
  rw [hcount]
  rfl

/-- One address of the scan. -/
theorem bitFrom_succ {o n : Nat} (hptr : ptr < 65536) (hend : ptr + len < 65536)
    (hn : o + (n + 1) = len) :
    bitFrom ptr (add16 ptr len) v (add16 ptr o) =
      if v o = 0x03 then pointAt ptr v (add16 ptr o)
      else bitFrom ptr (add16 ptr len) v (add16 ptr (o + 1)) := by
  rw [bitFrom_at hend hn, bitFrom_at hend (show o + 1 + n = len by omega), scan_at,
    peek_at hptr (by omega), Nat.add_zero]
  by_cases htag : v o = 0x03
  · rw [if_pos htag, if_pos (beq_iff_eq.2 htag)]
    rfl
  · rw [if_neg htag, if_neg (fun h => htag (beq_iff_eq.1 h))]

/-- The tag at the first address of the scan. -/
theorem bitFrom_hit {o certEnd : Nat} (hptr : ptr < 65536) (ho : o < 65536)
    (hlt : add16 ptr o < certEnd) (htag : v o = 0x03) :
    bitFrom ptr certEnd v (add16 ptr o) = pointAt ptr v (add16 ptr o) := by
  obtain ⟨n, hn⟩ := Nat.exists_eq_add_of_lt hlt
  have hcount : certEnd - add16 ptr o = n + 1 := by
    omega
  unfold bitFrom scanBitString
  rw [hcount, scan_at, peek_at hptr ho, Nat.add_zero, if_pos (beq_iff_eq.2 htag)]
  rfl

theorem bitStringIn_sound (hptr : ptr < 65536) (hend : ptr + len < 65536)
    (hlen : len + 6 < 65536) (n : Nat) : ∀ o, o + n = len →
    bitStringIn (bytesAt v o n) ≠ .overrun →
      bitFrom ptr (add16 ptr len) v (add16 ptr o) =
          (bitStringIn (bytesAt v o n)).address ptr len ∧
        (bitStringIn (bytesAt v o n)).InLeaf len := by
  induction n with
  | zero =>
      intro o ho _
      rw [bitFrom_none hend (by omega) (by omega), bytesAt_zero]
      exact ⟨rfl, trivial⟩
  | succ n ih =>
      intro o ho h
      have hstep : bitStringIn (bytesAt v o (n + 1)) =
          if v o = 0x03 then pointIn (bytesAt v (o + 1) n)
          else bitStringIn (bytesAt v (o + 1) n) := by
        rw [bytesAt_succ]
        rfl
      rw [hstep] at h ⊢
      rw [bitFrom_succ hptr hend ho]
      by_cases htag : v o = 0x03
      · rw [if_pos htag] at h ⊢
        rw [if_pos htag]
        exact pointIn_sound hptr hlen (by omega) h
      · rw [if_neg htag] at h ⊢
        rw [if_neg htag]
        exact ih _ (by omega) h

theorem bitStringIn_overrun (hptr : ptr < 65536) (hend : ptr + len < 65536)
    (hlen : len + 70 < 65536) (n : Nat) : ∀ o, o + n = len →
    bitStringIn (bytesAt v o n) = .overrun →
      ∃ v' q, Agrees len v v' ∧
        bitFrom ptr (add16 ptr len) v' (add16 ptr o) = some (add16 ptr q) ∧
          len < q + 64 ∧ q + 64 ≤ 65536 := by
  induction n with
  | zero =>
      intro o _ h
      cases h
  | succ n ih =>
      intro o ho h
      have hstep : bitStringIn (bytesAt v o (n + 1)) =
          if v o = 0x03 then pointIn (bytesAt v (o + 1) n)
          else bitStringIn (bytesAt v (o + 1) n) := by
        rw [bytesAt_succ]
        rfl
      rw [hstep] at h
      by_cases htag : v o = 0x03
      · rw [if_pos htag] at h
        obtain ⟨v', q, hagree, hpoint, hq⟩ := pointIn_overrun hptr hlen (by omega) h
        refine ⟨v', q, hagree, ?_, hq⟩
        rw [bitFrom_succ hptr hend ho, hagree o (by omega), if_pos htag]
        exact hpoint
      · rw [if_neg htag] at h
        obtain ⟨v', q, hagree, hpoint, hq⟩ := ih _ (by omega) h
        refine ⟨v', q, hagree, ?_, hq⟩
        rw [bitFrom_succ hptr hend ho, hagree o (by omega), if_neg htag]
        exact hpoint

end BitString

/-! ## The two OIDs -/

section Oids

variable {ptr len room : Nat} {v v' : Buffer}

@[simp] theorem length_ecP256Oids : ecP256Oids.length = 19 :=
  rfl

/-- The pattern in the leaf: it has the bytes, and they are the pattern's. -/
theorem oids_prefix_iff (v : Buffer) (o n : Nat) :
    ecP256Oids <+: bytesAt v o n ↔ 19 ≤ n ∧ bytesAt v o 19 = ecP256Oids := by
  rw [List.prefix_iff_eq_take, length_ecP256Oids]
  constructor
  · intro h
    have hlen := congrArg List.length h
    rw [length_ecP256Oids, List.length_take, length_bytesAt] at hlen
    have hle : 19 ≤ n := by omega
    rw [take_bytesAt v o hle] at h
    exact ⟨hle, h.symm⟩
  · rintro ⟨hle, h⟩
    rw [take_bytesAt v o hle, h]

/-- The beginning of the pattern at the end of the leaf. -/
theorem prefix_oids_iff (v : Buffer) (o n : Nat) :
    bytesAt v o n <+: ecP256Oids ↔ bytesAt v o n = ecP256Oids.take n := by
  rw [List.prefix_iff_eq_take, length_bytesAt]

/-- What the search finds from the offset `o` on, `n` bytes before the end of the leaf. -/
def oidFrom (ptr len : Nat) (v : Buffer) (o n : Nat) : Option Nat :=
  ((scan (fun a => peeks ptr v a 19 == ecP256Oids) n (add16 ptr o)).map fun a => add16 a 19).bind
    (bitFrom ptr (add16 ptr len) v)

theorem oidFrom_succ {o n : Nat} (hptr : ptr < 65536) (ho : o + 19 ≤ 65536) :
    oidFrom ptr len v o (n + 1) =
      if bytesAt v o 19 = ecP256Oids then bitFrom ptr (add16 ptr len) v (add16 ptr (o + 19))
      else oidFrom ptr len v (o + 1) n := by
  unfold oidFrom
  rw [scan_at, peeks_at hptr ho]
  by_cases hoid : bytesAt v o 19 = ecP256Oids
  · rw [if_pos hoid, if_pos (beq_iff_eq.2 hoid), ← add16_add16]
    rfl
  · rw [if_neg hoid, if_neg (fun h => hoid (beq_iff_eq.1 h))]

theorem locate_eq (hend : ptr + len < 65536) : locate ptr len v = oidFrom ptr len v 0 len := by
  have hcount : add16 ptr len - ptr = len := by
    rw [add16_of_lt hend]
    omega
  have hstart : add16 ptr 0 = ptr := add16_of_lt (by omega)
  unfold locate scanOid oidFrom
  rw [hcount, hstart]
  cases scan (fun a => peeks ptr v a 19 == ecP256Oids) len ptr with
  | none => rfl
  | some a => rfl

/-- Without matches before it, the first match decides. -/
theorem oidFrom_first (hptr : ptr < 65536) {j : Nat} (hoid : bytesAt v j 19 = ecP256Oids)
    (hj : j + 19 ≤ 65536) (n : Nat) : ∀ o, o ≤ j → j < o + n →
    (∀ i, o ≤ i → i < j → bytesAt v i 19 ≠ ecP256Oids) →
      oidFrom ptr len v o n = bitFrom ptr (add16 ptr len) v (add16 ptr (j + 19)) := by
  induction n with
  | zero =>
      intro o ho hlt
      omega
  | succ n ih =>
      intro o ho hlt hbefore
      rw [oidFrom_succ hptr (by omega)]
      rcases Nat.eq_or_lt_of_le ho with rfl | hlt'
      · rw [if_pos hoid]
      · rw [if_neg (hbefore o (Nat.le_refl o) hlt')]
        exact ih _ hlt' (by omega) fun i hi => hbefore i (by omega)

/-- In the last bytes of the leaf there is no room for the pattern. -/
theorem keyIn_short (room : Nat) {bs : List UInt8} (h : bs.length < 19) :
    keyIn room bs = .refused ∨ keyIn room bs = .overrun := by
  induction bs with
  | nil => exact Or.inl rfl
  | cons b bs ih =>
      have hno : ¬ ecP256Oids <+: (b :: bs) := by
        intro hbegins
        have hle := hbegins.length_le
        rw [length_ecP256Oids] at hle
        omega
      unfold keyIn
      rw [if_neg hno]
      split_ifs with hover
      · exact Or.inr rfl
      · rw [List.length_cons] at h
        exact ih (by omega)

theorem keyIn_bytesAt (room : Nat) (v : Buffer) (o n : Nat) :
    keyIn room (bytesAt v o (n + 1)) =
      if 19 ≤ n + 1 ∧ bytesAt v o 19 = ecP256Oids then
        bitStringIn (bytesAt v (o + 19) (n + 1 - 19))
      else if bytesAt v o (n + 1) <+: ecP256Oids ∧ room + (n + 1) ≤ 19 then .overrun
      else keyIn room (bytesAt v (o + 1) n) := by
  rw [bytesAt_succ]
  conv_lhs => unfold keyIn
  rw [← bytesAt_succ, length_bytesAt, drop_leaf]
  simp only [oids_prefix_iff]

/-- Where the search of the leaf does not overrun, the extractor finds what it finds. -/
theorem keyIn_sound (hptr : ptr < 65536) (hend : ptr + len < 65536) (hlen : len + 70 < 65536)
    (n : Nat) : ∀ o, o + n = len →
    keyIn (65536 - (ptr + len)) (bytesAt v o n) ≠ .overrun →
      oidFrom ptr len v o n = (keyIn (65536 - (ptr + len)) (bytesAt v o n)).address ptr len ∧
        (keyIn (65536 - (ptr + len)) (bytesAt v o n)).InLeaf len := by
  induction n with
  | zero =>
      intro o _ _
      exact ⟨rfl, trivial⟩
  | succ n ih =>
      intro o ho h
      rw [keyIn_bytesAt] at h ⊢
      rw [oidFrom_succ hptr (by omega)]
      by_cases hoid : bytesAt v o 19 = ecP256Oids
      · rw [if_pos hoid]
        rcases Nat.lt_or_ge (n + 1) 19 with hlt | hge
        · -- the match ends beyond the leaf, and the pointer beyond `cert_end`
          have hno : ¬ (19 ≤ n + 1 ∧ bytesAt v o 19 = ecP256Oids) := fun hfull => by omega
          have hbegins : bytesAt v o (n + 1) <+: ecP256Oids := by
            rw [prefix_oids_iff, ← hoid, take_bytesAt v o (by omega)]
          rw [if_neg hno] at h ⊢
          by_cases hover : bytesAt v o (n + 1) <+: ecP256Oids ∧
              65536 - (ptr + len) + (n + 1) ≤ 19
          · rw [if_pos hover] at h
            exact absurd rfl h
          · rw [if_neg hover] at h ⊢
            have hwrap : ptr + (o + 19) < 65536 := by
              by_contra hge
              exact hover ⟨hbegins, by omega⟩
            have hrest : keyIn (65536 - (ptr + len)) (bytesAt v (o + 1) n) = .refused := by
              rcases keyIn_short (65536 - (ptr + len))
                (show (bytesAt v (o + 1) n).length < 19 by rw [length_bytesAt]; omega) with hr | hr
              · exact hr
              · exact absurd hr h
            rw [bitFrom_none hend (by omega) hwrap, hrest]
            exact ⟨rfl, trivial⟩
        · rw [if_pos ⟨hge, hoid⟩] at h ⊢
          exact bitStringIn_sound hptr hend (by omega) _ _ (by omega) h
      · have hno : ¬ (19 ≤ n + 1 ∧ bytesAt v o 19 = ecP256Oids) := fun hfull => hoid hfull.2
        rw [if_neg hoid]
        rw [if_neg hno] at h ⊢
        by_cases hover : bytesAt v o (n + 1) <+: ecP256Oids ∧
            65536 - (ptr + len) + (n + 1) ≤ 19
        · rw [if_pos hover] at h
          exact absurd rfl h
        · rw [if_neg hover] at h ⊢
          exact ih _ (by omega) h

/-- Two matches of the pattern do not overlap. -/
theorem oids_apart {i j : Nat} (hij : i < j) (hnear : j < i + 19)
    (hi : bytesAt v i 19 = ecP256Oids) : bytesAt v j 19 ≠ ecP256Oids := by
  intro hj
  obtain ⟨d, rfl⟩ := Nat.exists_eq_add_of_lt hij
  -- what is behind `d` bytes of the pattern would begin as the pattern does
  have htail : ecP256Oids.drop (d + 1) = ecP256Oids.take (18 - d) := by
    have hdrop := drop_bytesAt v i (show d + 1 ≤ 19 by omega)
    have htake := take_bytesAt v (i + d + 1) (show 18 - d ≤ 19 by omega)
    rw [hi] at hdrop
    rw [hj] at htake
    rw [hdrop, htake, Nat.add_assoc, show 19 - (d + 1) = 18 - d by omega]
  have hno : ∀ d < 18, ecP256Oids.drop (d + 1) ≠ ecP256Oids.take (18 - d) := by
    decide
  exact hno d (by omega) htail

/-- Where the search of the leaf overruns: behind the first match, or in the beginning of one at
the end of the leaf. -/
theorem keyIn_overrun (n : Nat) : ∀ o, keyIn room (bytesAt v o n) = .overrun →
    ∃ j < n, (∀ i < j, ¬ (19 ≤ n - i ∧ bytesAt v (o + i) 19 = ecP256Oids)) ∧
      ((19 ≤ n - j ∧ bytesAt v (o + j) 19 = ecP256Oids ∧
          bitStringIn (bytesAt v (o + j + 19) (n - j - 19)) = .overrun) ∨
        (bytesAt v (o + j) (n - j) = ecP256Oids.take (n - j) ∧ room + (n - j) ≤ 19)) := by
  induction n with
  | zero =>
      intro o h
      cases h
  | succ n ih =>
      intro o h
      rw [keyIn_bytesAt] at h
      by_cases hfull : 19 ≤ n + 1 ∧ bytesAt v o 19 = ecP256Oids
      · rw [if_pos hfull] at h
        exact ⟨0, Nat.succ_pos n, fun i hi => absurd hi (Nat.not_lt_zero i),
          Or.inl ⟨hfull.1, hfull.2, h⟩⟩
      · rw [if_neg hfull] at h
        by_cases hover : bytesAt v o (n + 1) <+: ecP256Oids ∧ room + (n + 1) ≤ 19
        · rw [prefix_oids_iff] at hover
          exact ⟨0, Nat.succ_pos n, fun i hi => absurd hi (Nat.not_lt_zero i), Or.inr hover⟩
        · rw [if_neg hover] at h
          obtain ⟨j, hj, hbefore, hat⟩ := ih _ h
          refine ⟨j + 1, Nat.succ_lt_succ hj, ?_, ?_⟩
          · intro i hi
            cases i with
            | zero => exact hfull
            | succ i =>
                have hprev := hbefore i (Nat.lt_of_succ_lt_succ hi)
                rw [Nat.succ_sub_succ, Nat.add_comm i 1, ← Nat.add_assoc]
                exact hprev
          · rw [Nat.succ_sub_succ, Nat.add_comm j 1, ← Nat.add_assoc]
            exact hat

/-- The pattern completed behind the leaf, and a BIT STRING with a point behind it. -/
def oidsBehind (len j : Nat) (v : Buffer) : Buffer := fun i =>
  if i < len then v i
  else if i < j + 19 then ecP256Oids.getD (i - j) 0
  else if i = j + 19 then 0x03
  else if i = j + 22 then 0x04
  else 0x00

theorem agrees_oidsBehind (len j : Nat) (v : Buffer) : Agrees len v (oidsBehind len j v) :=
  fun _ hi => if_pos hi

theorem bytesAt_oidsBehind {j : Nat} (hj : j ≤ len)
    (h : bytesAt v j (len - j) = ecP256Oids.take (len - j)) :
    bytesAt (oidsBehind len j v) j 19 = ecP256Oids := by
  refine bytesAt_eq_iff.2 ⟨rfl, ?_⟩
  intro i hi
  rcases Nat.lt_or_ge (j + i) len with hlt | hge
  · have hcell := (bytesAt_eq_iff.1 h).2 i (by omega)
    rw [agrees_oidsBehind len j v _ hlt, hcell, List.getD_eq_getElem?_getD, List.getElem?_take,
      if_pos (by omega), List.getD_eq_getElem?_getD]
  · unfold oidsBehind
    rw [if_neg (Nat.not_lt.2 hge), if_pos (by omega), Nat.add_sub_cancel_left]

/-- Where the search of the leaf overruns, there is a memory behind the leaf for which the
extractor copies a key from there. -/
theorem locate_overrun (hlow : 256 ≤ ptr) (hend : ptr + len < 65536)
    (h : keyIn (65536 - (ptr + len)) (bytesAt v 0 len) = .overrun) :
    ∃ v' q, Agrees len v v' ∧ locate ptr len v' = some (add16 ptr q) ∧
      len < q + 64 ∧ q + 64 ≤ 65536 := by
  have hptr : ptr < 65536 := by omega
  obtain ⟨j, hj, hbefore, hat⟩ := keyIn_overrun len 0 h
  rw [Nat.zero_add] at hat
  -- an earlier match in a memory behind the leaf is one in the leaf
  have hearlier : ∀ v', Agrees len v v' → bytesAt v' j 19 = ecP256Oids →
      ∀ i, 0 ≤ i → i < j → bytesAt v' i 19 ≠ ecP256Oids := by
    intro v' hagree hoid i _ hi hmatch
    rcases Nat.lt_or_ge j (i + 19) with hnear | hfar
    · exact oids_apart hi hnear hmatch hoid
    · refine hbefore i hi ⟨by omega, ?_⟩
      rw [Nat.zero_add, ← hmatch]
      exact (bytesAt_congr fun k hk => hagree _ (by omega)).symm
  rcases hat with ⟨hroom, hoid, hover⟩ | ⟨hpart, hroom⟩
  · obtain ⟨v', q, hagree, hbit, hq⟩ :=
      bitStringIn_overrun hptr hend (by omega) _ (j + 19) (by omega) hover
    have hoid' : bytesAt v' j 19 = ecP256Oids := by
      rw [← hoid]
      exact bytesAt_congr fun k hk => hagree _ (by omega)
    refine ⟨v', q, hagree, ?_, hq⟩
    rw [locate_eq hend, oidFrom_first hptr hoid' (by omega) len 0 (Nat.zero_le j) (by omega)
      (hearlier v' hagree hoid')]
    exact hbit
  · have hagree := agrees_oidsBehind len j v
    have hoid := bytesAt_oidsBehind (Nat.le_of_lt hj) hpart
    have hcell : ∀ i, len ≤ i → j + 19 ≤ i → oidsBehind len j v i =
        if i = j + 19 then 0x03 else if i = j + 22 then 0x04 else 0x00 := by
      intro i hle hge
      unfold oidsBehind
      rw [if_neg (Nat.not_lt.2 hle), if_neg (Nat.not_lt.2 hge)]
    -- the pointer behind the match has wrapped, and is below `cert_end` again
    have hwrap : add16 ptr (j + 19) < add16 ptr len := by
      rw [add16_of_lt hend]
      unfold add16
      omega
    have htag : oidsBehind len j v (j + 19) = 0x03 := by
      rw [hcell _ (by omega) (Nat.le_refl _), if_pos rfl]
    have hunused : unusedAt (oidsBehind len j v) (j + 19) = j + 21 := by
      unfold unusedAt
      rw [hcell _ (by omega) (by omega), if_neg (by omega), if_neg (by omega)]
      rfl
    have hzero : oidsBehind len j v (j + 21) = 0x00 := by
      rw [hcell _ (by omega) (by omega), if_neg (by omega), if_neg (by omega)]
    have hfour : oidsBehind len j v (j + 21 + 1) = 0x04 := by
      rw [hcell _ (by omega) (by omega), if_neg (by omega), if_pos rfl]
    refine ⟨oidsBehind len j v, j + 23, hagree, ?_, by omega, by omega⟩
    rw [locate_eq hend, oidFrom_first hptr hoid (by omega) len 0 (Nat.zero_le j) (by omega)
      (hearlier _ hagree hoid), bitFrom_hit hptr (by omega) hwrap htag,
      pointAt_at hptr (by omega), hunused, hzero, hfour]
    rfl

end Oids

/-! ## The leaf decides -/

section Leaf

variable {ptr len : Nat} {view : Buffer} {s : LeafKeys Nat}

/-- The leaf whose search does not overrun; where `cert_end` has wrapped, nothing is searched. -/
def LeafKept (ptr len : Nat) (view : Buffer) : Prop :=
  65536 ≤ ptr + len ∨ keyIn (65536 - (ptr + len)) (bytesAt view 0 len) ≠ .overrun

theorem extractPoint_at {q : Nat} (hptr : ptr < 65536) (hq : q + 64 ≤ 65536)
    (h : locate ptr len view = some (add16 ptr q)) :
    extractPoint ptr len s view = some (add16 ptr (q + 32), bytesAt view q 64) := by
  rw [extractPoint_eq, h, Option.map_some, add16_add16, peeks_at hptr (by omega),
    peeks_at hptr (by omega), ← bytesAt_add]

theorem locate_wrapped (hptr : ptr < 65536) (hlen : len < 65536) (h : 65536 ≤ ptr + len) :
    locate ptr len view = none := by
  have hcount : add16 ptr len - ptr = 0 := by
    unfold add16
    omega
  unfold locate scanOid
  rw [hcount]
  rfl

/-- Where the search of the leaf does not overrun, the extractor finds what it finds. -/
theorem leafDecides_of_kept (hlow : 256 ≤ ptr) (hend : ptr + len < 65536)
    (hkept : keyIn (65536 - (ptr + len)) (bytesAt view 0 len) ≠ .overrun) :
    LeafDecides ptr len s view := by
  have hptr : ptr < 65536 := by omega
  have hrun : ∀ v, Agrees len view v → locate ptr len v =
      (keyIn (65536 - (ptr + len)) (bytesAt view 0 len)).address ptr len := by
    intro v hv
    have hleaf : bytesAt view 0 len = bytesAt v 0 len :=
      bytesAt_congr fun i hi => (hv _ (by omega)).symm
    rw [hleaf] at hkept ⊢
    rw [locate_eq hend]
    exact (keyIn_sound hptr hend (by omega) len 0 (Nat.zero_add len) hkept).1
  have hin := (keyIn_sound hptr hend (by omega) len 0 (Nat.zero_add len) hkept).2
  generalize keyIn (65536 - (ptr + len)) (bytesAt view 0 len) = found at hkept hrun hin
  cases found with
  | refused =>
      have hnone : ∀ v, Agrees len view v → extractPoint ptr len s v = none := by
        intro v hv
        rw [extractPoint_eq, hrun v hv]
        rfl
      refine ⟨Determined.of_const hnone, ?_⟩
      intro qy key hsome
      rw [hnone view fun _ _ => rfl] at hsome
      cases hsome
  | overrun => exact absurd rfl hkept
  | point rest =>
      obtain ⟨hroom, hle⟩ := hin
      have hsome : ∀ v, Agrees len view v → extractPoint ptr len s v =
          some (add16 ptr (len - rest.length + 32), bytesAt view (len - rest.length) 64) := by
        intro v hv
        have hbytes : bytesAt v (len - rest.length) 64 = bytesAt view (len - rest.length) 64 :=
          bytesAt_congr fun i hi => hv _ (by omega)
        rw [extractPoint_at hptr (by omega) (hrun v hv), hbytes]
      refine ⟨Determined.of_const hsome, ?_⟩
      intro qy key hkey
      rw [hsome view fun _ _ => rfl] at hkey
      cases hkey
      exact ⟨len - rest.length, by omega, rfl, rfl⟩

theorem leafDecides_of_wrapped (hptr : ptr < 65536) (hlen : len < 65536)
    (hend : 65536 ≤ ptr + len) : LeafDecides ptr len s view := by
  have hnone : ∀ v, extractPoint ptr len s v = none := by
    intro v
    rw [extractPoint_eq, locate_wrapped hptr hlen hend]
    rfl
  refine ⟨Determined.of_const fun v _ => hnone v, ?_⟩
  intro qy key hsome
  rw [hnone] at hsome
  cases hsome

/-- The same verdict and the same key in every memory with this leaf, the key in the leaf: exactly
when the search of the leaf alone does not overrun. -/
theorem leafDecides_iff (hlow : 256 ≤ ptr) (hptr : ptr < 65536) (hlen : len < 65536)
    (s : LeafKeys Nat) (view : Buffer) :
    LeafDecides ptr len s view ↔ LeafKept ptr len view := by
  constructor
  · intro h
    refine or_iff_not_imp_left.2 ?_
    intro hend hover
    obtain ⟨v', q, hagree, hlocate, hq, hq'⟩ := locate_overrun hlow (Nat.lt_of_not_le hend) hover
    have hfound := @extractPoint_at ptr len v' s q hptr hq' hlocate
    rw [h.blind v' hagree] at hfound
    obtain ⟨o, ho, haddr, -⟩ := h.inside _ _ hfound
    have heq : q = o := by
      unfold add16 at haddr
      omega
    omega
  · rintro (hend | hkept)
    · exact leafDecides_of_wrapped hptr hlen hend
    · rcases Nat.lt_or_ge (ptr + len) 65536 with hend | hend
      · exact leafDecides_of_kept hlow hend hkept
      · exact leafDecides_of_wrapped hptr hlen hend

/-- A leaf of the two OIDs, the beginning of a BIT STRING and `n` bytes of its point. -/
def leafOf (n : Nat) : List UInt8 :=
  ecP256Oids ++ [0x03, 0x42, 0x00, 0x04] ++ List.replicate n 0x55

theorem leafDecides_iff_whole :
    LeafDecides 0xA00B 87 ⟨[], [], 0, 32, 32, 0⟩ (ofList (leafOf 64) fun _ => 0) := by
  refine (leafDecides_iff (by decide) (by decide) (by decide) _ _).2 (Or.inr ?_)
  have hleaf : bytesAt (ofList (leafOf 64) fun _ => 0) 0 87 = leafOf 64 := bytesAt_ofList _ _
  rw [hleaf]
  decide

/-- A leaf that ends behind the `04` of the point: the key is taken from behind it. -/
theorem not_leafDecides :
    ¬ ∃ s : LeafKeys Nat, LeafDecides 0xA00B 23 s (ofList (leafOf 0) fun _ => 0) := by
  rintro ⟨s, h⟩
  have hlocate : locate 0xA00B 23 (ofList (leafOf 0) fun _ => 0) = some (add16 0xA00B 23) := by
    decide +kernel
  obtain ⟨o, ho, -⟩ := h.inside _ _ (extractPoint_at (by decide) (by decide) hlocate)
  omega

end Leaf

end Tls
end C64Https
