import C64Https.Lib.Hkdf

/-!
# HmacDrbg — the HMAC-DRBG of SP 800-90A over a hash

The state is the key and the value.  A call of `generate` for one block of the hash returns the next
value and updates the state without further input, so that a source that only asks for whole blocks
reads the stream `byteAt`, one block for each call.
-/

namespace C64Https
namespace HmacDrbg

open Hkdf

structure State where
  key : List UInt8
  v : List UInt8

variable (H : List UInt8 → List UInt8) (hashLen : Nat)

/-! ## SP 800-90A, section 10.1.2 -/

/-- `HMAC_DRBG_Update`. -/
def update (data : List UInt8) (s : State) : State :=
  let key := hmac H s.key (s.v ++ [0x00] ++ data)
  let v := hmac H key s.v
  if data = [] then ⟨key, v⟩
  else
    let key := hmac H key (v ++ [0x01] ++ data)
    ⟨key, hmac H key v⟩

def instantiate (seed : List UInt8) : State :=
  update H seed ⟨List.replicate hashLen 0x00, List.replicate hashLen 0x01⟩

def reseed (entropy : List UInt8) (s : State) : State :=
  update H entropy s

/-- The loop of `HMAC_DRBG_Generate`: the last value, and what is collected. -/
def collect (key : List UInt8) : Nat → List UInt8 → List UInt8 × List UInt8
  | 0, v => (v, [])
  | n + 1, v =>
      let v := hmac H key v
      let r := collect key n v
      (r.1, v ++ r.2)

/-- `HMAC_DRBG_Generate`, without additional input. -/
def generate (len : Nat) (s : State) : List UInt8 × State :=
  let r := collect H s.key ((len + hashLen - 1) / hashLen) s.v
  (r.2.take len, update H [] ⟨s.key, r.1⟩)

/-! ## Block by block -/

/-- The state after `n` calls for a block. -/
def after (s : State) : Nat → State
  | 0 => s
  | n + 1 => (generate H hashLen hashLen (after s n)).2

/-- What the call behind them returns. -/
def block (s : State) (n : Nat) : List UInt8 :=
  (generate H hashLen hashLen (after H hashLen s n)).1

/-- The bytes of the blocks, one behind the other. -/
def byteAt (s : State) (i : Nat) : UInt8 :=
  (block H hashLen s (i / hashLen)).getD (i % hashLen) 0

section Facts

variable {H} {hashLen}

@[simp] theorem after_zero (s : State) : after H hashLen s 0 = s :=
  rfl

theorem after_succ (s : State) (n : Nat) :
    after H hashLen s (n + 1) = (generate H hashLen hashLen (after H hashLen s n)).2 :=
  rfl

theorem block_eq (s : State) (n : Nat) :
    block H hashLen s n = (generate H hashLen hashLen (after H hashLen s n)).1 :=
  rfl

/-- One block is one value. -/
theorem generate_block (hpos : 0 < hashLen) (hlen : ∀ m, (H m).length = hashLen) (s : State) :
    generate H hashLen hashLen s =
      (hmac H s.key s.v, update H [] ⟨s.key, hmac H s.key s.v⟩) := by
  have hcount : (hashLen + hashLen - 1) / hashLen = 1 := by
    refine Nat.div_eq_of_lt_le ?_ ?_
    · omega
    · omega
  unfold generate
  rw [hcount]
  simp only [collect, List.append_nil]
  rw [List.take_of_length_le]
  exact Nat.le_of_eq (hlen _)

end Facts

end HmacDrbg
end C64Https
