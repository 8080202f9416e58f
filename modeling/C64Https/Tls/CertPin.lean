import C64Https.Lib.BigEndian
import C64Https.Tls.Cert

/-!
# CertPin — the pin and trust hook (`src/cert_pin.s`)

`cert_pin_check` runs at the end of the key extractor.  It hashes the 91 bytes that end with the last
byte of Qy, compares the hash with what the build or the trust policy expects, and leaves its verdict
in `cert_pin_status`, which `cert_pin_require` reads before the client's Finished goes out.

The hash is SHA-256 of the window (`pinHash_eq`), the hook lets a key pass exactly when the policy
admits its hash (`certPinCheck_iff`), and its verdict is the one that the interlock reads
(`certPinRequire_check`).
-/

namespace C64Https
namespace Tls

open Word Bytes BigEndian

/-! ## The hash of the window -/

def pinSpkiLen : Nat := 91

def pinYOffset : Nat := 59

/-- The chaining state and `sha256_block`. -/
structure ShaWork where
  h : List UInt8
  block : Buffer

/-- `sha256_process_block`. -/
def sha256ProcessBlock (sha : Sha256) (w : ShaWork) : ShaWork :=
  { w with h := sha.processBlock w.h (bytesAt w.block 0 64) }

/-- `@fill`: X walks the block and Y the window, of which `n` bytes are left. -/
def pinFill (sha : Sha256) (window : Buffer) : Nat → Nat → Nat → ShaWork → Nat × ShaWork
  | 0, x, _, w => (x, w)
  | n + 1, x, y, w =>
      let w := { w with block := Function.update w.block x (window y) }
      if x + 1 = 64 then pinFill sha window n 0 64 (sha256ProcessBlock sha w)
      else pinFill sha window n (x + 1) (y + 1) w

/-- `@pad`: `a` and then zeros, for the `n` bytes up to the end of the block. -/
def pinPad : Nat → Nat → UInt8 → Buffer → Buffer
  | 0, _, _, b => b
  | n + 1, x, a, b => pinPad n (x + 1) 0 (Function.update b x a)

/-- `cert_pin_check` up to `sha256_final`; `block` is what was in `sha256_block`. -/
def pinHash (sha : Sha256) (window block : Buffer) : List UInt8 :=
  let r := pinFill sha window pinSpkiLen 0 0 { h := sha.init, block := block }
  let b := pinPad (64 - r.1) r.1 0x80 r.2.block
  let b := Function.update b 62 (hi (pinSpkiLen * 8))
  let b := Function.update b 63 (lo (pinSpkiLen * 8))
  sha.final (sha256ProcessBlock sha { r.2 with block := b }).h

/-! ### SHA-256 of a string -/

/-- The string, `80`, zeros up to eight bytes short of a block, and the number of bits. -/
def shaPadded (m : List UInt8) : List UInt8 :=
  m ++ [0x80] ++ List.replicate ((119 - m.length % 64) % 64) 0 ++
    (List.replicate (8 - (shortest (8 * m.length)).length) 0 ++ shortest (8 * m.length))

/-- The blocks of the padded string, one after the other. -/
def Sha256.digest (sha : Sha256) (m : List UInt8) : List UInt8 :=
  let p := shaPadded m
  sha.final ((List.range (p.length / 64)).foldl
    (fun h i => sha.processBlock h ((p.drop (64 * i)).take 64)) sha.init)

section Hash

variable {sha : Sha256} {window : Buffer}

theorem update_store_bytesAt (b : Buffer) (x y n : Nat) :
    store (Function.update b x (window y)) (x + 1) (bytesAt window (y + 1) n) =
      store b x (bytesAt window y (n + 1)) := by
  have hjoin := store_store b x [window y] (bytesAt window (y + 1) n)
  rw [update_eq_store, bytesAt_succ]
  exact hjoin

/-- Bytes that do not fill the block. -/
theorem pinFill_within (n : Nat) : ∀ (x y : Nat) (w : ShaWork), x + n < 64 →
    pinFill sha window n x y w =
      (x + n, { w with block := store w.block x (bytesAt window y n) }) := by
  induction n with
  | zero =>
      intro x y w _
      rw [bytesAt_zero, store_nil]
      rfl
  | succ n ih =>
      intro x y w hx
      unfold pinFill
      dsimp only
      rw [if_neg (by omega), ih (x + 1) (y + 1) _ (by omega)]
      dsimp only
      rw [update_store_bytesAt, Nat.add_right_comm, Nat.add_assoc]

/-- Bytes up to the end of the block, and the rest of the window behind them. -/
theorem pinFill_block (m n : Nat) : ∀ (x y : Nat) (w : ShaWork), x + (n + 1) = 64 →
    pinFill sha window (n + 1 + m) x y w = pinFill sha window m 0 64
      (sha256ProcessBlock sha { w with block := store w.block x (bytesAt window y (n + 1)) }) := by
  induction n with
  | zero =>
      intro x y w hx
      rw [Nat.zero_add, Nat.add_comm 1 m]
      unfold pinFill
      dsimp only
      rw [if_pos hx, bytesAt_succ, bytesAt_zero, ← update_eq_store]
      cases m with
      | zero => rfl
      | succ m => rfl
  | succ n ih =>
      intro x y w hx
      rw [show n + 1 + 1 + m = (n + 1 + m) + 1 by omega]
      rw [pinFill]
      rw [if_neg (by omega), ih (x + 1) (y + 1) _ (by omega)]
      dsimp only
      rw [update_store_bytesAt]

theorem pinPad_zeros (n : Nat) : ∀ (x : Nat) (b : Buffer),
    pinPad n x 0 b = store b x (List.replicate n 0) := by
  induction n with
  | zero =>
      intro x b
      exact (store_nil b x).symm
  | succ n ih =>
      intro x b
      have hjoin := store_store b x [0] (List.replicate n 0)
      unfold pinPad
      rw [ih, update_eq_store]
      exact hjoin

theorem pinPad_succ (n x : Nat) (a : UInt8) (b : Buffer) :
    pinPad (n + 1) x a b = store b x (a :: List.replicate n 0) := by
  have hjoin := store_store b x [a] (List.replicate n 0)
  unfold pinPad
  rw [pinPad_zeros, update_eq_store]
  exact hjoin

/-- The second block: the end of the window, and the padding. -/
theorem pinHash_last (b : Buffer) (w₂ : List UInt8) (hw : w₂.length = 27) :
    bytesAt (Function.update (Function.update (pinPad 37 27 0x80 (store b 0 w₂)) 62
        (hi (pinSpkiLen * 8))) 63 (lo (pinSpkiLen * 8))) 0 64 =
      w₂ ++ ([0x80] ++ List.replicate 34 0 ++ [0x02, 0xd8]) := by
  have hjoin := store_store b 0 w₂ (0x80 :: List.replicate 36 0)
  rw [hw, Nat.zero_add] at hjoin
  have hlen : (w₂ ++ (0x80 :: List.replicate 36 0)).length = 64 := by
    simp [hw]
  have hbase : bytesAt (store b 0 (w₂ ++ (0x80 :: List.replicate 36 0))) 0 62 =
      w₂ ++ ([0x80] ++ List.replicate 34 0) := by
    have hself := bytesAt_store_self b 0 (w₂ ++ (0x80 :: List.replicate 36 0))
    rw [hlen] at hself
    rw [← take_bytesAt _ 0 (show 62 ≤ 64 by decide), hself, List.take_append, hw]
    congr 1
    exact List.take_of_length_le (by omega)
  rw [pinPad_succ, hjoin, update_eq_store, update_eq_store]
  have hlast := store_store (store b 0 (w₂ ++ (0x80 :: List.replicate 36 0))) 62
    [hi (pinSpkiLen * 8)] [lo (pinSpkiLen * 8)]
  have happend := bytesAt_store_append (store b 0 (w₂ ++ (0x80 :: List.replicate 36 0))) 0 62
    [hi (pinSpkiLen * 8), lo (pinSpkiLen * 8)]
  calc bytesAt _ 0 64 = bytesAt (store (store b 0 (w₂ ++ (0x80 :: List.replicate 36 0))) (0 + 62)
        [hi (pinSpkiLen * 8), lo (pinSpkiLen * 8)]) 0 (62 + 2) := congrArg (bytesAt · 0 64) hlast
    _ = _ := happend
    _ = w₂ ++ ([0x80] ++ List.replicate 34 0 ++ [0x02, 0xd8]) := by
      rw [hbase, List.append_assoc]
      rfl

/-- The hook's hash is SHA-256 of the 91 bytes, whatever was in the block. -/
theorem pinHash_eq (sha : Sha256) (window block : Buffer) :
    pinHash sha window block = sha.digest (bytesAt window 0 pinSpkiLen) := by
  have hfill := @pinFill_block sha window 27 63 0 0 { h := sha.init, block := block } rfl
  rw [pinFill_within 27 0 64 _ (by decide)] at hfill
  have hw : bytesAt window 0 pinSpkiLen = bytesAt window 0 64 ++ bytesAt window 64 27 :=
    bytesAt_add window 0 64 27
  have hone : (bytesAt window 0 64).length = 64 := length_bytesAt _ _ _
  have htwo : (bytesAt window 64 27).length = 27 := length_bytesAt _ _ _
  have hpadded : shaPadded (bytesAt window 0 pinSpkiLen) = bytesAt window 0 64 ++
      (bytesAt window 64 27 ++ ([0x80] ++ List.replicate 34 0 ++ [0x02, 0xd8])) := by
    have hlen : (bytesAt window 0 pinSpkiLen).length = 91 := length_bytesAt _ _ _
    have hzeros : List.replicate ((119 - 91 % 64) % 64) (0 : UInt8) ++
        (List.replicate (8 - (shortest (8 * 91)).length) 0 ++ shortest (8 * 91)) =
          List.replicate 34 0 ++ [0x02, 0xd8] := by
      decide +kernel
    unfold shaPadded
    rw [hlen, List.append_assoc, hzeros, hw]
    simp only [List.append_assoc]
  unfold Sha256.digest
  dsimp only
  rw [hpadded]
  generalize hlast : bytesAt window 64 27 ++ ([0x80] ++ List.replicate 34 0 ++ [0x02, 0xd8]) = last
  have hlen : last.length = 64 := by
    rw [← hlast]
    simp [htwo]
  have hblocks : (bytesAt window 0 64 ++ last).length / 64 = 2 := by
    rw [List.length_append, hone, hlen]
  rw [hblocks]
  have hfirst : ((bytesAt window 0 64 ++ last).drop (64 * 0)).take 64 = bytesAt window 0 64 :=
    List.take_left' hone
  have hsecond : ((bytesAt window 0 64 ++ last).drop (64 * 1)).take 64 = last := by
    rw [List.drop_left' hone, List.take_of_length_le (by omega)]
  have hfold : (List.range 2).foldl (fun h i => sha.processBlock h
      (((bytesAt window 0 64 ++ last).drop (64 * i)).take 64)) sha.init =
        sha.processBlock (sha.processBlock sha.init (bytesAt window 0 64)) last := by
    show sha.processBlock (sha.processBlock sha.init (((bytesAt window 0 64 ++ last).drop
      (64 * 0)).take 64)) (((bytesAt window 0 64 ++ last).drop (64 * 1)).take 64) = _
    rw [hfirst, hsecond]
  rw [hfold]
  unfold pinHash
  have hrun : pinFill sha window pinSpkiLen 0 0 { h := sha.init, block := block } = _ := hfill
  rw [hrun]
  unfold sha256ProcessBlock
  dsimp only
  have hself := bytesAt_store_self block 0 (bytesAt window 0 64)
  rw [hone] at hself
  rw [hself, ← hlast, ← pinHash_last _ _ htwo]

end Hash

/-! ## The verdict -/

/-- What of `cert_pin.s` a build links: the pin alone, or the trust hook, with or without the pin.
`warn` is `HTTPS_PIN_WARN`, `bundle` is `TRUST_BUNDLE`. -/
inductive PinLink where
  | pin (expected : List UInt8) (warn : Bool)
  | trust (pin : Option (List UInt8 × Bool)) (bundle : Bool)

/-- The status byte and the policy's state, `tp_mode` to `tb_spki`, with the record of the host. -/
structure PinState where
  certPinStatus : UInt8
  tpMode : UInt8
  tpBwarn : UInt8
  tpOvrArmed : UInt8
  tpGot : List UInt8
  tpOverride : List UInt8
  tsRecSpki : List UInt8
  tbFound : UInt8
  tbSpki : List UInt8
  deriving DecidableEq, Repr

/-! The values of `trust_policy.inc` and of the file itself. -/

def pinStMatch : UInt8 := 0x01

def pinStBad : UInt8 := 0x80

def tpMStore : UInt8 := 1

def tpMFirst : UInt8 := 2

def tpMUnpinned : UInt8 := 4

def tpMPin : UInt8 := 5

def tpStMatch : UInt8 := 0x01

def tpStAccept : UInt8 := 0x03

def tpStPinwarn : UInt8 := 0x05

def tpStChanged : UInt8 := 0x80

def tpStRefused : UInt8 := 0x81

/-- Without `TRUST_STORE`: the comparison, `@bad` and what a warning build does there. -/
def pinCompare (expected : List UInt8) (warn : Bool) (curveId : Nat) (hash : List UInt8)
    (s : PinState) : PinState × Bool :=
  if curveId = 0 ∧ hash = expected then ({ s with certPinStatus := pinStMatch }, true)
  else ({ s with certPinStatus := pinStBad }, warn)

/-- `@set`: the verdict, and the advice of the bundle. -/
def pinSet (bundle : Bool) (status : UInt8) (s : PinState) : PinState × Bool :=
  let s := { s with certPinStatus := status }
  if bundle = true ∧ s.tbFound ≠ 0 ∧ s.tbSpki ≠ s.tpGot then ({ s with tpBwarn := 1 }, true)
  else (s, true)

/-- `@refuse`, `@changed`. -/
def pinRefuse (status : UInt8) (s : PinState) : PinState × Bool :=
  ({ s with certPinStatus := status }, false)

/-- With `TRUST_STORE`: the policy hook. -/
def trustHook (pin : Option (List UInt8 × Bool)) (bundle : Bool) (curveId : Nat)
    (hash : List UInt8) (s : PinState) : PinState × Bool :=
  let s := { s with tpGot := hash }
  if curveId ≠ 0 then pinRefuse tpStRefused s
  else if s.tpMode = tpMFirst then pinSet bundle tpMFirst s
  else if s.tpMode = tpMUnpinned then pinSet bundle tpMUnpinned s
  else if s.tpMode = tpMStore then
    if s.tsRecSpki = s.tpGot then pinSet bundle tpStMatch s
    else if s.tpOvrArmed = 0 then pinRefuse tpStChanged s
    else if s.tpOverride = s.tpGot then pinSet bundle tpStAccept s
    else pinRefuse tpStChanged s
  else
    match pin with
    | none => pinRefuse tpStRefused s
    | some (expected, warn) =>
        if s.tpMode ≠ tpMPin then pinRefuse tpStRefused s
        else if expected = s.tpGot then pinSet bundle tpStMatch s
        else if warn then pinSet bundle tpStPinwarn s
        else pinRefuse tpStRefused s

/-- `cert_pin_check` behind the hash: what goes on to `@pass`. -/
def certPinCheck (B : PinLink) (curveId : Nat) (hash : List UInt8) (s : PinState) :
    PinState × Bool :=
  match B with
  | .pin expected warn => pinCompare expected warn curveId hash s
  | .trust pin bundle => trustHook pin bundle curveId hash s

/-- `cert_pin_require`. -/
def certPinRequire (B : PinLink) (s : PinState) : Bool :=
  match B with
  | .pin _ false => decide (s.certPinStatus = pinStMatch)
  | .pin _ true => decide (s.certPinStatus ≠ 0)
  | .trust _ _ => decide (s.certPinStatus ≠ 0 ∧ s.certPinStatus < 0x80)

/-- `cert_pin_hs_keys`: nothing is pinned yet. -/
def certPinHsKeys (s : PinState) : PinState :=
  { s with certPinStatus := 0 }

/-- The policy: which hashes a connection goes on with. -/
def Admits (B : PinLink) (s : PinState) (hash : List UInt8) : Prop :=
  match B with
  | .pin expected warn => hash = expected ∨ warn = true
  | .trust pin _ => s.tpMode = tpMFirst ∨ s.tpMode = tpMUnpinned ∨
      (s.tpMode = tpMStore ∧ (hash = s.tsRecSpki ∨ (s.tpOvrArmed ≠ 0 ∧ hash = s.tpOverride))) ∨
        (s.tpMode = tpMPin ∧ ∃ expected warn, pin = some (expected, warn) ∧
          (hash = expected ∨ warn = true))

section Verdict

variable {B : PinLink} {hash : List UInt8} {s : PinState}

theorem pinSet_snd (bundle : Bool) (status : UInt8) (s : PinState) :
    (pinSet bundle status s).2 = true := by
  unfold pinSet
  dsimp only
  split
  · rfl
  · rfl

theorem pinSet_status (bundle : Bool) (status : UInt8) (s : PinState) :
    (pinSet bundle status s).1.certPinStatus = status := by
  unfold pinSet
  dsimp only
  split
  · rfl
  · rfl

theorem trustHook_iff (pin : Option (List UInt8 × Bool)) (bundle : Bool) :
    (trustHook pin bundle 0 hash s).2 = true ↔ Admits (.trust pin bundle) s hash := by
  have hmodes : tpMStore ≠ tpMFirst ∧ tpMStore ≠ tpMUnpinned ∧ tpMStore ≠ tpMPin ∧
      tpMPin ≠ tpMFirst ∧ tpMPin ≠ tpMUnpinned := by
    decide
  unfold trustHook Admits
  dsimp only
  rw [if_neg (not_not.2 rfl)]
  by_cases hfirst : s.tpMode = tpMFirst
  · rw [if_pos hfirst]
    exact ⟨fun _ => Or.inl hfirst, fun _ => pinSet_snd _ _ _⟩
  rw [if_neg hfirst]
  by_cases hunpinned : s.tpMode = tpMUnpinned
  · rw [if_pos hunpinned]
    exact ⟨fun _ => Or.inr (Or.inl hunpinned), fun _ => pinSet_snd _ _ _⟩
  rw [if_neg hunpinned]
  -- with a record, the leaf has the recorded key or the one that the operator accepted
  by_cases hstore : s.tpMode = tpMStore
  · rw [if_pos hstore]
    have hpin : s.tpMode ≠ tpMPin := by
      rw [hstore]
      exact hmodes.2.2.1
    by_cases hrec : s.tsRecSpki = hash
    · rw [if_pos hrec]
      exact ⟨fun _ => Or.inr (Or.inr (Or.inl ⟨hstore, Or.inl hrec.symm⟩)),
        fun _ => pinSet_snd _ _ _⟩
    rw [if_neg hrec]
    by_cases harmed : s.tpOvrArmed = 0
    · rw [if_pos harmed]
      refine ⟨fun h => (by cases h), ?_⟩
      rintro (h | h | ⟨-, h | ⟨h, -⟩⟩ | ⟨h, -⟩)
      · exact absurd h hfirst
      · exact absurd h hunpinned
      · exact absurd h.symm hrec
      · exact absurd harmed h
      · exact absurd h hpin
    rw [if_neg harmed]
    by_cases hover : s.tpOverride = hash
    · rw [if_pos hover]
      exact ⟨fun _ => Or.inr (Or.inr (Or.inl ⟨hstore, Or.inr ⟨harmed, hover.symm⟩⟩)),
        fun _ => pinSet_snd _ _ _⟩
    · rw [if_neg hover]
      refine ⟨fun h => (by cases h), ?_⟩
      rintro (h | h | ⟨-, h | ⟨-, h⟩⟩ | ⟨h, -⟩)
      · exact absurd h hfirst
      · exact absurd h hunpinned
      · exact absurd h.symm hrec
      · exact absurd h.symm hover
      · exact absurd h hpin
  rw [if_neg hstore]
  cases pin with
  | none =>
      refine ⟨fun h => (by cases h), ?_⟩
      rintro (h | h | ⟨h, -⟩ | ⟨-, expected, warn, hnone, -⟩)
      · exact absurd h hfirst
      · exact absurd h hunpinned
      · exact absurd h hstore
      · cases hnone
  | some pin =>
      rcases pin with ⟨expected, warn⟩
      dsimp only
      by_cases hpin : s.tpMode = tpMPin
      · rw [if_neg (not_not.2 hpin)]
        by_cases hexp : expected = hash
        · rw [if_pos hexp]
          exact ⟨fun _ => Or.inr (Or.inr (Or.inr ⟨hpin, expected, warn, rfl, Or.inl hexp.symm⟩)),
            fun _ => pinSet_snd _ _ _⟩
        rw [if_neg hexp]
        -- another key than the pinned one passes only where the pin only warns
        cases warn with
        | true =>
            exact ⟨fun _ => Or.inr (Or.inr (Or.inr ⟨hpin, expected, true, rfl, Or.inr rfl⟩)),
              fun _ => pinSet_snd _ _ _⟩
        | false =>
            refine ⟨fun h => (by cases h), ?_⟩
            rintro (h | h | ⟨h, -⟩ | ⟨-, e, w, h, hok⟩)
            · exact absurd h hfirst
            · exact absurd h hunpinned
            · exact absurd h hstore
            · cases h
              rcases hok with hok | hok
              · exact absurd hok.symm hexp
              · cases hok
      · rw [if_pos hpin]
        refine ⟨fun h => (by cases h), ?_⟩
        rintro (h | h | ⟨h, -⟩ | ⟨h, -⟩)
        · exact absurd h hfirst
        · exact absurd h hunpinned
        · exact absurd h hstore
        · exact absurd h hpin

/-- On a P-256 key the hook goes on exactly with the hashes that the policy admits. -/
theorem certPinCheck_iff :
    (certPinCheck B 0 hash s).2 = true ↔ Admits B s hash := by
  cases B with
  | pin expected warn =>
      unfold certPinCheck pinCompare Admits
      dsimp only
      by_cases hexp : hash = expected
      · rw [if_pos ⟨rfl, hexp⟩]
        exact ⟨fun _ => Or.inl hexp, fun _ => rfl⟩
      · rw [if_neg (fun h => hexp h.2)]
        exact ⟨Or.inr, fun h => h.resolve_left hexp⟩
  | trust pin bundle => exact trustHook_iff pin bundle

/-- The verdict of the check is what the interlock reads. -/
theorem certPinRequire_check (B : PinLink) (curveId : Nat) (hash : List UInt8) (s : PinState) :
    certPinRequire B (certPinCheck B curveId hash s).1 = (certPinCheck B curveId hash s).2 := by
  cases B with
  | pin expected warn =>
      unfold certPinCheck pinCompare
      dsimp only
      split
      · cases warn <;> rfl
      · cases warn <;> rfl
  | trust pin bundle =>
      have hset : ∀ status s, status ≠ 0 → status < 0x80 →
          certPinRequire (.trust pin bundle) (pinSet bundle status s).1 =
            (pinSet bundle status s).2 := by
        intro status s hne hlt
        unfold certPinRequire
        dsimp only
        rw [pinSet_status, pinSet_snd]
        exact decide_eq_true ⟨hne, hlt⟩
      have hrefuse : ∀ status s, status = tpStChanged ∨ status = tpStRefused →
          certPinRequire (.trust pin bundle) (pinRefuse status s).1 = (pinRefuse status s).2 := by
        rintro status s (rfl | rfl)
        · rfl
        · rfl
      unfold certPinCheck trustHook
      dsimp only
      split
      · exact hrefuse _ _ (Or.inr rfl)
      split
      · exact hset _ _ (by decide) (by decide)
      split
      · exact hset _ _ (by decide) (by decide)
      split
      · split
        · exact hset _ _ (by decide) (by decide)
        split
        · exact hrefuse _ _ (Or.inl rfl)
        split
        · exact hset _ _ (by decide) (by decide)
        · exact hrefuse _ _ (Or.inl rfl)
      cases pin with
      | none => exact hrefuse _ _ (Or.inr rfl)
      | some pin =>
          dsimp only
          split
          · exact hrefuse _ _ (Or.inr rfl)
          split
          · exact hset _ _ (by decide) (by decide)
          split
          · exact hset _ _ (by decide) (by decide)
          · exact hrefuse _ _ (Or.inr rfl)

end Verdict

end Tls
end C64Https
