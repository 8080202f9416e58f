import C64Https.Lib.Bytes
import C64Https.Lib.Der

/-!
# DerSig — the signature field (`src/crypto/ecdsa_verify.s`)

`ecdsa_parse_der_sig` takes the numbers `r` and `s` out of a DER signature and leaves each right
aligned in 32 bytes of the structure that the verifier reads.  It looks at the three tags and at the
two lengths of the INTEGERs and at nothing else: whatever is longer than 32 bytes loses its first
bytes, and the lengths of the SEQUENCE and of the field are not looked at.
-/

namespace C64Https
namespace Crypto

open Word Bytes Der BigEndian

/-! ## `ecdsa_parse_der_sig` -/

/-- `ecdsa_sig_len`, as the caller sets it for P-256. -/
def ecdsaSigLen : Nat := 32

/-- The offsets of `ecdsa_sig_r` and `ecdsa_sig_s` in the structure of 160 bytes. -/
def ecdsaSigR : Nat := 0

def ecdsaSigS : Nat := 32

/-- `@r_skip_pad` and `@s_skip_pad`. -/
def skipPad : Nat → Nat → Nat
  | 0, y => y
  | n + 1, y => skipPad n (inc8 y)

/-- `@r_copy` and `@s_copy`: `n` bytes from `y` on to the field at `f`, from `x` on. -/
def sigCopy (v : Buffer) (f : Nat) : Nat → Nat → Nat → Buffer → Nat × Buffer
  | 0, y, _, g => (y, g)
  | n + 1, y, x, g => sigCopy v f n (inc8 y) (inc8 x) (Function.update g (f + x) (v y))

/-- One INTEGER, from its tag on: the cursor behind it, and the structure with the field at `f`. -/
def sigInteger (v : Buffer) (f y : Nat) (g : Buffer) : Option (Nat × Buffer) :=
  if v y ≠ 0x02 then none
  else
    let len := (v (inc8 y)).toNat
    let y := inc8 (inc8 y)
    let g := store g f (List.replicate ecdsaSigLen 0)
    -- what does not fit is dropped from the front, whatever it is
    if ecdsaSigLen < len then some (sigCopy v f ecdsaSigLen (skipPad (len - ecdsaSigLen) y) 0 g)
    else some (sigCopy v f len y (ecdsaSigLen - len) g)

/-- `ecdsa_parse_der_sig`, of the memory `v` behind `zp_ptr`, on the structure `g`; `true` for carry
clear. -/
def ecdsaParseDerSig (v g : Buffer) : Buffer × Bool :=
  if v 0 ≠ 0x30 then (g, false)
  else
    match sigInteger v ecdsaSigR 2 g with
    | none => (g, false)
    | some (y, g) =>
        match sigInteger v ecdsaSigS y g with
        | none => (g, false)
        | some (_, g) => (g, true)

/-! ## What the loops do -/

theorem skipPad_eq (n : Nat) : ∀ y < 256, skipPad n y = (y + n) % 256 := by
  induction n with
  | zero =>
      intro y hy
      exact (Nat.mod_eq_of_lt hy).symm
  | succ n ih =>
      intro y hy
      have hinc : inc8 y = (y + 1) % 256 := by
        unfold inc8
        rfl
      calc skipPad (n + 1) y = (inc8 y + n) % 256 := ih _ (inc8_lt y)
        _ = (y + (n + 1)) % 256 := by
          rw [hinc, Nat.mod_add_mod, Nat.add_assoc, Nat.add_comm 1 n]

/-- `n` bytes from the cursor `y` on, which wraps. -/
def window (v : Buffer) (y n : Nat) : List UInt8 :=
  (List.range n).map fun i => v ((y + i) % 256)

@[simp] theorem length_window (v : Buffer) (y n : Nat) : (window v y n).length = n := by
  simp [window]

theorem window_succ (v : Buffer) {y : Nat} (hy : y < 256) (n : Nat) :
    window v y (n + 1) = v y :: window v (inc8 y) n := by
  have hinc : inc8 y = (y + 1) % 256 := by
    unfold inc8
    rfl
  unfold window
  rw [List.range_succ_eq_map, List.map_cons, List.map_map, Nat.add_zero, Nat.mod_eq_of_lt hy, hinc]
  congr 1
  refine List.map_congr_left ?_
  intro i _
  show v ((y + (i + 1)) % 256) = v (((y + 1) % 256 + i) % 256)
  rw [Nat.mod_add_mod, Nat.add_assoc, Nat.add_comm 1 i]

/-- Before the wrap these are the bytes themselves. -/
theorem window_eq {v : Buffer} {y n : Nat} (h : y + n ≤ 256) : window v y n = bytesAt v y n := by
  unfold window bytesAt
  refine List.map_congr_left ?_
  intro i hi
  have hlt := List.mem_range.1 hi
  rw [Nat.mod_eq_of_lt (by omega)]

theorem sigCopy_eq (v : Buffer) (f : Nat) (n : Nat) : ∀ (y x : Nat) (g : Buffer), y < 256 →
    x + n < 256 → sigCopy v f n y x g = ((y + n) % 256, store g (f + x) (window v y n)) := by
  induction n with
  | zero =>
      intro y x g hy _
      rw [Nat.add_zero, Nat.mod_eq_of_lt hy]
      show (y, g) = (y, store g (f + x) [])
      rw [store_nil]
  | succ n ih =>
      intro y x g hy hx
      have hinc : inc8 y = (y + 1) % 256 := by
        unfold inc8
        rfl
      have hxinc : inc8 x = x + 1 := inc8_of_lt (by omega)
      have hadjoin := store_store g (f + x) [v y] (window v (inc8 y) n)
      rw [List.length_singleton, List.singleton_append, ← window_succ v hy] at hadjoin
      unfold sigCopy
      rw [ih _ _ _ (inc8_lt y) (by omega), hxinc, update_eq_store, ← Nat.add_assoc, hadjoin, hinc,
        Nat.mod_add_mod, Nat.add_assoc, Nat.add_comm 1 n]

/-- What an INTEGER of `len` bytes at `y` leaves in its field. -/
def fieldOf (v : Buffer) (y len : Nat) : List UInt8 :=
  List.replicate (ecdsaSigLen - len) 0 ++
    window v ((y + (len - ecdsaSigLen)) % 256) (min len ecdsaSigLen)

@[simp] theorem length_fieldOf (v : Buffer) (y len : Nat) : (fieldOf v y len).length = 32 := by
  unfold fieldOf ecdsaSigLen
  rw [List.length_append, List.length_replicate, length_window]
  omega

/-- A field that is cleared, and then written from `x` to its end. -/
theorem store_cleared (g : Buffer) (f : Nat) {x n : Nat} {bs : List UInt8} (hn : bs.length = n)
    (hx : x + n = ecdsaSigLen) :
    store (store g f (List.replicate ecdsaSigLen 0)) (f + x) bs =
      store g f (List.replicate x 0 ++ bs) := by
  have hsplit : List.replicate ecdsaSigLen (0 : UInt8) =
      List.replicate x 0 ++ List.replicate n 0 := by
    rw [← hx, List.replicate_add]
  have hadjoin : ∀ cs : List UInt8,
      store (store g f (List.replicate x 0)) (f + x) cs = store g f (List.replicate x 0 ++ cs) := by
    intro cs
    have h := store_store g f (List.replicate x 0) cs
    rw [List.length_replicate] at h
    exact h
  rw [hsplit, ← hadjoin, store_overwrite _ _ (by rw [List.length_replicate, hn]), hadjoin]

/-- One INTEGER. -/
theorem sigInteger_eq {v : Buffer} {f y : Nat} (g : Buffer) (htag : v y = 0x02) :
    sigInteger v f y g =
      some ((y + 2 + (v (inc8 y)).toNat) % 256,
        store g f (fieldOf v (y + 2) (v (inc8 y)).toNat)) := by
  have hlt := (v (inc8 y)).toNat_lt
  have hinc : inc8 (inc8 y) = (y + 2) % 256 := by
    unfold inc8
    omega
  unfold sigInteger
  rw [if_neg (not_not.2 htag)]
  dsimp only
  generalize (v (inc8 y)).toNat = len at hlt ⊢
  by_cases hlong : ecdsaSigLen < len
  · -- the cursor skips the first bytes
    have hpad : skipPad (len - ecdsaSigLen) (inc8 (inc8 y)) =
        (y + 2 + (len - ecdsaSigLen)) % 256 := by
      rw [skipPad_eq _ _ (inc8_lt _), hinc, Nat.mod_add_mod]
    have hfield : fieldOf v (y + 2) len =
        window v ((y + 2 + (len - ecdsaSigLen)) % 256) ecdsaSigLen := by
      unfold fieldOf
      rw [Nat.sub_eq_zero_of_le (Nat.le_of_lt hlong), Nat.min_eq_right (Nat.le_of_lt hlong)]
      rfl
    have hstore := @store_cleared g f 0 ecdsaSigLen
      (window v ((y + 2 + (len - ecdsaSigLen)) % 256) ecdsaSigLen) (length_window _ _ _)
      (Nat.zero_add _)
    rw [if_pos hlong, hpad, sigCopy_eq _ _ _ _ _ _ (Nat.mod_lt _ (by decide))
      (by unfold ecdsaSigLen; decide), hstore, hfield, Nat.mod_add_mod, Nat.add_assoc,
      Nat.sub_add_cancel (Nat.le_of_lt hlong)]
    rfl
  · have hle : len ≤ ecdsaSigLen := Nat.le_of_not_lt hlong
    have hfield : fieldOf v (y + 2) len =
        List.replicate (ecdsaSigLen - len) 0 ++ window v ((y + 2) % 256) len := by
      unfold fieldOf
      rw [Nat.sub_eq_zero_of_le hle, Nat.min_eq_left hle, Nat.add_zero]
    rw [if_neg hlong, sigCopy_eq _ _ _ _ _ _ (inc8_lt _)
      (by rw [Nat.sub_add_cancel hle]; unfold ecdsaSigLen; decide),
      store_cleared g f (length_window _ _ _) (Nat.sub_add_cancel hle), hinc, hfield,
      Nat.mod_add_mod]

/-! ## What is accepted -/

/-- The length of the first INTEGER, the place of the tag of the second, and its length. -/
def lenR (v : Buffer) : Nat :=
  (v 3).toNat

def tagS (v : Buffer) : Nat :=
  (4 + lenR v) % 256

def lenS (v : Buffer) : Nat :=
  (v (inc8 (tagS v))).toNat

/-- One of the three tags is not there. -/
def Refused (v : Buffer) : Prop :=
  v 0 ≠ 0x30 ∨ v 2 ≠ 0x02 ∨ v (tagS v) ≠ 0x02

/-- With the three tags the field is accepted, and both numbers are written. -/
theorem ecdsaParseDerSig_of_tags {v : Buffer} (h : ¬ Refused v) (g : Buffer) :
    ecdsaParseDerSig v g =
      (store (store g ecdsaSigR (fieldOf v 4 (lenR v))) ecdsaSigS
        (fieldOf v (tagS v + 2) (lenS v)), true) := by
  have h₀ : v 0 = 0x30 := by
    by_contra hne
    exact h (Or.inl hne)
  have h₂ : v 2 = 0x02 := by
    by_contra hne
    exact h (Or.inr (Or.inl hne))
  have hs : v (tagS v) = 0x02 := by
    by_contra hne
    exact h (Or.inr (Or.inr hne))
  have hinc : inc8 2 = 3 := inc8_of_lt (by decide)
  have hr := sigInteger_eq (f := ecdsaSigR) g h₂
  rw [hinc] at hr
  unfold ecdsaParseDerSig
  rw [if_neg (not_not.2 h₀), hr]
  dsimp only
  rw [show (2 + 2 + (v 3).toNat) % 256 = tagS v from rfl, sigInteger_eq _ hs]
  rfl

theorem ecdsaParseDerSig_of_refused {v : Buffer} (h : Refused v) (g : Buffer) :
    (ecdsaParseDerSig v g).2 = false := by
  unfold ecdsaParseDerSig
  by_cases h₀ : v 0 = 0x30
  · rw [if_neg (not_not.2 h₀)]
    by_cases h₂ : v 2 = 0x02
    · have hs : v (tagS v) ≠ 0x02 := by
        rcases h with h | h | h
        · exact absurd h₀ h
        · exact absurd h₂ h
        · exact h
      have hinc : inc8 2 = 3 := inc8_of_lt (by decide)
      have hr := sigInteger_eq (f := ecdsaSigR) g h₂
      rw [hinc] at hr
      rw [hr]
      dsimp only
      rw [show (2 + 2 + (v 3).toNat) % 256 = tagS v from rfl]
      unfold sigInteger
      rw [if_pos hs]
    · unfold sigInteger
      rw [if_pos h₂]
  · rw [if_pos h₀]

/-- The numbers that are stored, and nothing else of the structure. -/
theorem stored_fields {v g g' : Buffer} (h : ecdsaParseDerSig v g = (g', true)) :
    ¬ Refused v ∧ bytesAt g' ecdsaSigR 32 = fieldOf v 4 (lenR v) ∧
      bytesAt g' ecdsaSigS 32 = fieldOf v (tagS v + 2) (lenS v) ∧ ∀ i ≥ 64, g' i = g i := by
  have htags : ¬ Refused v := by
    intro hno
    have hfalse := ecdsaParseDerSig_of_refused hno g
    rw [h] at hfalse
    cases hfalse
  rw [ecdsaParseDerSig_of_tags htags] at h
  cases h
  refine ⟨htags, ?_, ?_, ?_⟩
  · rw [bytesAt_store_of_disjoint _ _ (Or.inl (by unfold ecdsaSigR ecdsaSigS; decide))]
    have hself := bytesAt_store_self g ecdsaSigR (fieldOf v 4 (lenR v))
    rw [length_fieldOf] at hself
    exact hself
  · have hself := bytesAt_store_self (store g ecdsaSigR (fieldOf v 4 (lenR v))) ecdsaSigS
      (fieldOf v (tagS v + 2) (lenS v))
    rw [length_fieldOf] at hself
    exact hself
  · intro i hi
    rw [store_of_outside, store_of_outside]
    · refine Or.inr ?_
      rw [length_fieldOf]
      unfold ecdsaSigR
      omega
    · refine Or.inr ?_
      rw [length_fieldOf]
      unfold ecdsaSigS
      omega

/-! ## Numbers of 32 bytes -/

/-- The contents of an INTEGER whose number has 32 bytes. -/
structure FitsField (content : List UInt8) : Prop where
  isInteger : IsInteger content
  length_le : content.length ≤ 33
  head : content.length = 33 → ∃ bs, content = 0 :: bs

theorem FitsField.value_lt {content : List UInt8} (h : FitsField content) :
    value content < 256 ^ 32 := by
  rcases Nat.lt_or_ge content.length 33 with hlt | hge
  · refine (BigEndian.value_lt content).trans_le ?_
    exact Nat.pow_le_pow_right (by decide) (Nat.le_of_lt_succ hlt)
  · have hlen : content.length = 33 := Nat.le_antisymm h.length_le hge
    obtain ⟨bs, rfl⟩ := h.head hlen
    rw [List.length_cons] at hlen
    have hlt := BigEndian.value_lt bs
    rw [Nat.succ.inj hlen] at hlt
    rw [show (0 : UInt8) :: bs = List.replicate 1 0 ++ bs from rfl, value_zeros]
    exact hlt

theorem fitsField_integer {n : Nat} (h : n < 256 ^ 32) : FitsField (integer n) :=
  ⟨isInteger_integer n, length_integer_le h, fun hlen => head_integer h hlen (by decide)⟩

/-- Such a number is stored as it is. -/
theorem FitsField.value_fieldOf {v : Buffer} {y len : Nat} (h : FitsField (bytesAt v y len))
    (hfit : y + len ≤ 256) : value (fieldOf v y len) = value (bytesAt v y len) := by
  have hle := h.length_le
  have hhead := h.head
  rw [length_bytesAt] at hle hhead
  unfold fieldOf
  rw [value_zeros]
  rcases Nat.lt_or_ge len 33 with hlt | hge
  · have hsub : len - ecdsaSigLen = 0 := by
      unfold ecdsaSigLen
      omega
    have hmin : min len ecdsaSigLen = len := Nat.min_eq_left (Nat.le_of_lt_succ hlt)
    rw [hsub, hmin, Nat.add_zero]
    rcases Nat.eq_zero_or_pos len with rfl | hpos
    · rfl
    · rw [Nat.mod_eq_of_lt (by omega), window_eq hfit]
  · have hlen : len = 33 := Nat.le_antisymm hle hge
    subst hlen
    -- the one byte that is skipped is the zero
    obtain ⟨bs, hbs⟩ := hhead rfl
    rw [bytesAt_succ] at hbs ⊢
    have hzero : v y = 0 := (List.cons.inj hbs).1
    rw [hzero, show (0 : UInt8) :: bytesAt v (y + 1) 32 = List.replicate 1 0 ++ bytesAt v (y + 1) 32
      from rfl, value_zeros]
    show value (window v ((y + 1) % 256) 32) = _
    rw [Nat.mod_eq_of_lt (by omega), window_eq (by omega)]

/-! ## Signatures -/

/-- The encoding of an `ECDSA-Sig-Value`. -/
def sigValue (r s : Nat) : List UInt8 :=
  element 0x30 (element 0x02 (integer r) ++ element 0x02 (integer s))

/-- The first `n` bytes behind the pointer begin with the two INTEGERs `cr` and `cs`. -/
structure SigAt (v : Buffer) (n : Nat) (cr cs : List UInt8) : Prop where
  seq : v 0 = 0x30
  outer : (v 1).toNat = cr.length + cs.length + 4
  tagR : v 2 = 0x02
  lenR : lenR v = cr.length
  r : bytesAt v 4 cr.length = cr
  tagS : v (tagS v) = 0x02
  lenS : lenS v = cs.length
  s : bytesAt v (cr.length + 6) cs.length = cs
  within : cr.length + cs.length + 6 ≤ n

/-- Below 33 bytes and one, every length has one byte. -/
theorem sigValue_eq {r s : Nat} (hr : r < 256 ^ 32) (hs : s < 256 ^ 32) :
    sigValue r s =
      [0x30, UInt8.ofNat ((integer r).length + (integer s).length + 4), 0x02,
        UInt8.ofNat (integer r).length] ++ (integer r ++
          ([0x02, UInt8.ofNat (integer s).length] ++ integer s)) := by
  have hlr := length_integer_le hr
  have hls := length_integer_le hs
  have hlen : (element 0x02 (integer r) ++ element 0x02 (integer s)).length =
      (integer r).length + (integer s).length + 4 := by
    rw [element_short (by omega), element_short (by omega), List.length_append]
    simp only [List.length_cons]
    omega
  unfold sigValue
  rw [element_short (by omega), hlen, element_short (by omega), element_short (by omega)]
  simp

theorem tagS_eq {v : Buffer} {n : Nat} (hlen : lenR v = n) (h : n ≤ 33) :
    tagS v = 4 + n ∧ inc8 (tagS v) = 5 + n := by
  have htag : tagS v = 4 + n := by
    unfold tagS
    rw [hlen, Nat.mod_eq_of_lt (by omega)]
  refine ⟨htag, ?_⟩
  rw [htag, inc8_of_lt (by omega)]
  omega

/-- The block before the second tag, its two bytes, and the block behind it. -/
theorem bytesAt_sig (v : Buffer) (lr ls k : Nat) :
    bytesAt v 0 (lr + ls + 6 + k) =
      [v 0, v 1, v 2, v 3] ++ (bytesAt v 4 lr ++ ([v (4 + lr), v (5 + lr)] ++
        (bytesAt v (lr + 6) ls ++ bytesAt v (lr + ls + 6) k))) := by
  have hsum : lr + ls + 6 + k = 4 + (lr + (2 + (ls + k))) := by
    omega
  have h₁ : 4 + lr + 2 = lr + 6 := by
    omega
  have h₂ : lr + 6 + ls = lr + ls + 6 := by
    omega
  have h₃ : 4 + lr + 1 = 5 + lr := by
    omega
  rw [hsum, bytesAt_add, bytesAt_add, bytesAt_add, bytesAt_add, Nat.zero_add, h₁, h₂]
  simp only [bytesAt_succ, bytesAt_zero, Nat.zero_add, h₃]

theorem sigAt_iff {v : Buffer} {n r s : Nat} (hr : r < 256 ^ 32) (hs : s < 256 ^ 32) :
    (∃ rest, bytesAt v 0 n = sigValue r s ++ rest) ↔ SigAt v n (integer r) (integer s) := by
  have hlr := length_integer_le hr
  have hls := length_integer_le hs
  rw [sigValue_eq hr hs]
  generalize integer r = cr at hlr ⊢
  generalize integer s = cs at hls ⊢
  have hofNat : ∀ k < 256, (UInt8.ofNat k).toNat = k := fun k hk => UInt8.toNat_ofNat_of_lt hk
  constructor
  · rintro ⟨rest, h⟩
    have hn : n = cr.length + cs.length + 6 + rest.length := by
      have hlen := congrArg List.length h
      simp only [length_bytesAt, List.length_append, List.length_cons, List.length_nil] at hlen
      omega
    subst hn
    rw [bytesAt_sig, List.append_assoc, List.append_assoc, List.append_assoc] at h
    -- the pieces have the same lengths
    obtain ⟨hhead, h⟩ := List.append_inj h rfl
    obtain ⟨hcr, h⟩ := List.append_inj h (length_bytesAt _ _ _)
    obtain ⟨htag, h⟩ := List.append_inj h rfl
    obtain ⟨hcs, -⟩ := List.append_inj h (length_bytesAt _ _ _)
    simp only [List.cons.injEq, and_true] at hhead htag
    obtain ⟨h₀, h₁, h₂, h₃⟩ := hhead
    obtain ⟨h₄, h₅⟩ := htag
    have hlenR : Crypto.lenR v = cr.length := by
      unfold Crypto.lenR
      rw [h₃, hofNat _ (by omega)]
    obtain ⟨htagS, hincS⟩ := tagS_eq hlenR hlr
    refine ⟨h₀, ?_, h₂, hlenR, hcr, ?_, ?_, hcs, Nat.le_add_right _ _⟩
    · rw [h₁, hofNat _ (by omega)]
    · rw [htagS, h₄]
    · unfold Crypto.lenS
      rw [hincS, h₅, hofNat _ (by omega)]
  · intro h
    obtain ⟨k, rfl⟩ := Nat.exists_eq_add_of_le h.within
    obtain ⟨htagS, hincS⟩ := tagS_eq h.lenR hlr
    have hlenR : v 3 = UInt8.ofNat cr.length := by
      rw [← h.lenR]
      exact (UInt8.ofNat_toNat).symm
    have hlenS : v (5 + cr.length) = UInt8.ofNat cs.length := by
      rw [← h.lenS, ← hincS]
      exact (UInt8.ofNat_toNat).symm
    have houter : v 1 = UInt8.ofNat (cr.length + cs.length + 4) := by
      rw [← h.outer]
      exact (UInt8.ofNat_toNat).symm
    refine ⟨bytesAt v (cr.length + cs.length + 6) k, ?_⟩
    have htag := h.tagS
    rw [htagS] at htag
    rw [bytesAt_sig, h.seq, houter, h.tagR, hlenR, h.r, htag, hlenS, h.s]
    simp only [List.append_assoc]

/-- Where the INTEGERs fit, they are what is stored. -/
theorem SigAt.stored {v g g' : Buffer} {n : Nat} {cr cs : List UInt8} (h : SigAt v n cr cs)
    (hr : FitsField cr) (hs : FitsField cs) (hrun : ecdsaParseDerSig v g = (g', true)) :
    value (bytesAt g' ecdsaSigR 32) = value cr ∧ value (bytesAt g' ecdsaSigS 32) = value cs := by
  obtain ⟨-, hstoredR, hstoredS, -⟩ := stored_fields hrun
  have hlr := hr.length_le
  have hls := hs.length_le
  obtain ⟨htagS, -⟩ := tagS_eq h.lenR hlr
  have hplace : 4 + cr.length + 2 = cr.length + 6 := by
    omega
  have hcr : FitsField (bytesAt v 4 cr.length) := by
    rw [h.r]
    exact hr
  have hcs : FitsField (bytesAt v (cr.length + 6) cs.length) := by
    rw [h.s]
    exact hs
  constructor
  · rw [hstoredR, h.lenR, hcr.value_fieldOf (by omega), h.r]
  · rw [hstoredS, h.lenS, htagS, hplace, hcs.value_fieldOf (by omega), h.s]

theorem SigAt.not_refused {v : Buffer} {n : Nat} {cr cs : List UInt8} (h : SigAt v n cr cs) :
    ¬ Refused v := by
  rintro (hno | hno | hno)
  · exact hno h.seq
  · exact hno h.tagR
  · exact hno h.tagS

/-! ## The minimal encoding -/

/-- The encoding of two numbers of 32 bytes is accepted, and they are stored right aligned behind
zeros, whatever was there before; the rest of the structure stays. -/
theorem ecdsaParseDerSig_sigValue {r s : Nat} (hr : r < 256 ^ 32) (hs : s < 256 ^ 32) {v : Buffer}
    (hsig : bytesAt v 0 (sigValue r s).length = sigValue r s) (g : Buffer) :
    ∃ g', ecdsaParseDerSig v g = (g', true) ∧ bytesAt g' ecdsaSigR 32 = padded 32 r ∧
      bytesAt g' ecdsaSigS 32 = padded 32 s ∧ ∀ i ≥ 64, g' i = g i := by
  have hat : SigAt v (sigValue r s).length (integer r) (integer s) :=
    (sigAt_iff hr hs).1 ⟨[], by rw [hsig, List.append_nil]⟩
  have hrun := ecdsaParseDerSig_of_tags hat.not_refused g
  refine ⟨_, hrun, ?_, ?_, (stored_fields hrun).2.2.2⟩
  · refine eq_padded (length_bytesAt _ _ _) ?_
    rw [(hat.stored (fitsField_integer hr) (fitsField_integer hs) hrun).1, value_integer]
  · refine eq_padded (length_bytesAt _ _ _) ?_
    rw [(hat.stored (fitsField_integer hr) (fitsField_integer hs) hrun).2, value_integer]

/-- A number of one byte, and one of 33 bytes with its zero, over fields that are full. -/
theorem ecdsaParseDerSig_sigValue_extremes :
    ∃ g', ecdsaParseDerSig (ofList (sigValue 1 (256 ^ 32 - 1)) (fun _ => 0)) (fun _ => 0xff) =
        (g', true) ∧
      bytesAt g' ecdsaSigR 32 = padded 32 1 ∧ bytesAt g' ecdsaSigS 32 = padded 32 (256 ^ 32 - 1) ∧
      ∀ i ≥ 64, g' i = 0xff :=
  ecdsaParseDerSig_sigValue (by decide) (by decide) (bytesAt_ofList _ _) (fun _ => 0xff)

/-! ## What is refused -/

/-- An accepted field begins with a signature, whose numbers are those that are stored. -/
def Faithful (v : Buffer) (n : UInt8) (g : Buffer) : Prop :=
  ∀ g', ecdsaParseDerSig v g = (g', true) →
    ∃ r s rest, bytesAt v 0 n.toNat = sigValue r s ++ rest ∧
      value (bytesAt g' ecdsaSigR 32) = r ∧ value (bytesAt g' ecdsaSigS 32) = s

/-- What the parser does not look at is as it should be. -/
structure Strict (v : Buffer) (n : UInt8) : Prop where
  outer : (v 1).toNat = lenR v + lenS v + 4
  within : lenR v + lenS v + 6 ≤ n.toNat
  r : FitsField (bytesAt v 4 (lenR v))
  s : FitsField (bytesAt v (lenR v + 6) (lenS v))

theorem Strict.sigAt {v : Buffer} {n : UInt8} (h : Strict v n) (hno : ¬ Refused v) :
    SigAt v n.toNat (bytesAt v 4 (lenR v)) (bytesAt v (lenR v + 6) (lenS v)) := by
  unfold Refused at hno
  push Not at hno
  obtain ⟨h₀, h₂, hs⟩ := hno
  refine ⟨h₀, ?_, h₂, ?_, ?_, hs, ?_, ?_, ?_⟩
  · rw [length_bytesAt, length_bytesAt, h.outer]
  · rw [length_bytesAt]
  · rw [length_bytesAt]
  · rw [length_bytesAt]
  · rw [length_bytesAt, length_bytesAt]
  · rw [length_bytesAt, length_bytesAt]
    exact h.within

/-- Numbers that are stored have 32 bytes. -/
theorem value_field_lt (g : Buffer) (f : Nat) : value (bytesAt g f 32) < 256 ^ 32 := by
  have hlt := BigEndian.value_lt (bytesAt g f 32)
  rw [length_bytesAt] at hlt
  exact hlt

theorem strict_of_faithful {v g : Buffer} {n : UInt8} (h : Faithful v n g) (hno : ¬ Refused v) :
    Strict v n := by
  obtain ⟨r, s, rest, hsig, rfl, rfl⟩ := h _ (ecdsaParseDerSig_of_tags hno g)
  generalize hg : store (store g ecdsaSigR (fieldOf v 4 (lenR v))) ecdsaSigS
    (fieldOf v (tagS v + 2) (lenS v)) = g' at hsig
  have hr := value_field_lt g' ecdsaSigR
  have hs := value_field_lt g' ecdsaSigS
  have hat := (sigAt_iff hr hs).1 ⟨rest, hsig⟩
  refine ⟨?_, ?_, ?_, ?_⟩
  · rw [hat.outer, hat.lenR, hat.lenS]
  · rw [hat.lenR, hat.lenS]
    exact hat.within
  · rw [hat.lenR, hat.r]
    exact fitsField_integer hr
  · rw [hat.lenR, hat.lenS, hat.s]
    exact fitsField_integer hs

/-- What is accepted is on the wire if and only if a tag is missing or what is not looked at is as it
should be. -/
theorem faithful_iff (v : Buffer) (n : UInt8) (g : Buffer) :
    Faithful v n g ↔ Refused v ∨ Strict v n := by
  constructor
  · intro h
    by_cases hno : Refused v
    · exact Or.inl hno
    · exact Or.inr (strict_of_faithful h hno)
  · rintro hor g' hrun
    have hno := (stored_fields hrun).1
    have hstrict : Strict v n := hor.resolve_left hno
    have hat := hstrict.sigAt hno
    have heqR := hstrict.r.isInteger.eq_integer
    have heqS := hstrict.s.isInteger.eq_integer
    obtain ⟨hvr, hvs⟩ := hat.stored hstrict.r hstrict.s hrun
    rw [heqR, heqS] at hat
    obtain ⟨rest, hsig⟩ := (sigAt_iff hstrict.r.value_lt hstrict.s.value_lt).2 hat
    exact ⟨_, _, rest, hsig, hvr, hvs⟩

/-- An `r` of 2²⁵⁶ + 5, of which 5 is stored. -/
def overlongSig : Buffer :=
  ofList ([0x30, 0x26, 0x02, 0x21, 0x01] ++ List.replicate 31 0x00 ++ [0x05, 0x02, 0x01, 0x07])
    (fun _ => 0)

theorem not_faithful : ¬ Faithful overlongSig 40 (fun _ => 0) := by
  intro h
  have hno : ¬ Refused overlongSig := by
    rintro (hne | hne | hne)
    · exact hne (by decide)
    · exact hne (by decide)
    · exact hne (by decide)
  obtain ⟨bs, hbs⟩ := (strict_of_faithful h hno).r.head (by decide)
  have hone : overlongSig 4 = 0x01 := by decide
  rw [show lenR overlongSig = 32 + 1 by decide, bytesAt_succ, hone] at hbs
  cases hbs

end Crypto
end C64Https
