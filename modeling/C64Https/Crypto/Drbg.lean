import C64Https.Lib.HmacDrbg
import C64Https.Tls.KeySchedule

/-!
# Drbg — the random bytes (`src/crypto/hmac_drbg.s`)

The DRBG has its own key, value, seed and output, and borrows everything else from `hmac_sha256`, as
HKDF and the Finished MAC do.  `drbg_hmac` copies `drbg_k` over `hmac_key` before each HMAC.

The stream that a run hands out is described on its own (`Stream`): each byte with the number of the
seeding it comes from and its place behind that seeding.  A run of the routines hands out these bytes,
each place once and in order, whatever else is computed in the shared memory between the calls
(`drawn_bytes_are_drbg`).
-/

namespace C64Https
namespace Crypto

open Bytes Fips180 Tls

/-! ## The routines -/

structure DrbgRam where
  /-- `drbg_k` -/
  k : Vector UInt8 32
  /-- `hmac_val` -/
  val : Vector UInt8 32
  seed : Buffer
  seedLen : UInt8
  output : Vector UInt8 32
  /-- `drbg_buf_idx` -/
  bufIdx : UInt8
  /-- what HKDF and the Finished MAC use as well -/
  shared : KeyRam

/-- `drbg_hmac`, of a message in `hmac_data_buf`. -/
def drbgHmac (m : DrbgRam) (data : Buffer) (len : UInt8) : HmacRam :=
  hmacSha256 { m.shared.hkdf.hmac with
    key := store m.shared.hkdf.hmac.key 0 m.k.toList
    dataBuf := data
    dataLen := len }

/-- Steps 1 and 4 of `hmac_drbg_update`, with their separator. -/
def updateK (separator : UInt8) (m : DrbgRam) : DrbgRam :=
  let data := store m.shared.hkdf.hmac.dataBuf 0 m.val.toList
  let data := store (Function.update data 32 separator) 33 (bytesAt m.seed 0 m.seedLen.toNat)
  let hmac := drbgHmac m data (m.seedLen + 33)
  { m with k := front 32 hmac.result, shared.hkdf.hmac := hmac }

/-- Steps 2 and 5. -/
def updateV (m : DrbgRam) : DrbgRam :=
  let hmac := drbgHmac m (store m.shared.hkdf.hmac.dataBuf 0 m.val.toList) 32
  { m with val := front 32 hmac.result, shared.hkdf.hmac := hmac }

def hmacDrbgUpdate (m : DrbgRam) : DrbgRam :=
  let m := updateV (updateK 0x00 m)
  if m.seedLen = 0 then m else updateV (updateK 0x01 m)

def hmacDrbgInstantiate (m : DrbgRam) : DrbgRam :=
  hmacDrbgUpdate { m with k := Vector.replicate 32 0x00, val := Vector.replicate 32 0x01 }

def hmacDrbgGenerate (m : DrbgRam) : DrbgRam :=
  let m := updateV m
  hmacDrbgUpdate { m with output := m.val, seedLen := 0 }

/-- What `sid_osc3` and `cia1_ta_lo` give for each of the 32 bytes. -/
abbrev Samples : Type :=
  Vector (UInt8 × UInt8) 32

/-- The seed they make. -/
def Samples.seed (x : Samples) : List UInt8 :=
  x.toList.map fun s => s.1 ^^^ s.2

/-- `drbg_collect_seed`; there are no extra SIDs. -/
def drbgCollectSeed (x : Samples) (m : DrbgRam) : DrbgRam :=
  { m with seed := store m.seed 0 x.seed, seedLen := 32 }

def drbgMarkEmpty (m : DrbgRam) : DrbgRam :=
  { m with bufIdx := 32 }

def drbgInitEntropy (x : Samples) (m : DrbgRam) : DrbgRam :=
  drbgMarkEmpty (hmacDrbgInstantiate (drbgCollectSeed x m))

def drbgReseed (x : Samples) (m : DrbgRam) : DrbgRam :=
  drbgMarkEmpty (hmacDrbgUpdate (drbgCollectSeed x m))

def drbgRandomByte (m : DrbgRam) : DrbgRam × UInt8 :=
  let m := if m.bufIdx < 32 then m else { hmacDrbgGenerate m with bufIdx := 0 }
  ({ m with bufIdx := m.bufIdx + 1 }, m.output.toList.getD m.bufIdx.toNat 0)

/-- The loop of `drbg_fill_bytes`, the count checked behind each byte. -/
def fillLoop : Nat → UInt8 → DrbgRam → DrbgRam × List UInt8
  | 0, _, m => (m, [])
  | n + 1, count, m =>
      let r := drbgRandomByte m
      if count - 1 = 0 then (r.1, [r.2])
      else
        let t := fillLoop n (count - 1) r.1
        (t.1, r.2 :: t.2)

/-- `drbg_fill_bytes`: the bytes that it stores. -/
def drbgFillBytes (count : UInt8) (m : DrbgRam) : DrbgRam × List UInt8 :=
  fillLoop 256 count m

/-! ## A run -/

/-- What happens next.  `mac` is anything that reads and writes the shared memory: HMAC, HKDF, the
Finished MAC, and the code that sets them up. -/
inductive DrbgOp where
  | init (x : Samples)
  | reseed (x : Samples)
  | draw (count : UInt8)
  | mac (f : KeyRam → KeyRam)

def drbgStep (m : DrbgRam) : DrbgOp → DrbgRam × List UInt8
  | .init x => (drbgInitEntropy x m, [])
  | .reseed x => (drbgReseed x m, [])
  | .draw count => drbgFillBytes count m
  | .mac f => ({ m with shared := f m.shared }, [])

/-- The bytes that a run hands out. -/
def drawn : List DrbgOp → DrbgRam → List UInt8
  | [], _ => []
  | op :: ops, m => (drbgStep m op).2 ++ drawn ops (drbgStep m op).1

/-! ## The stream -/

/-- A byte of the DRBG: the seeding it comes from, and its place behind that. -/
structure Served where
  epoch : Nat
  place : Nat
  byte : UInt8

/-- The state of a DRBG from which `count` bytes were taken since its last seeding. -/
structure Stream where
  epoch : Nat
  start : HmacDrbg.State
  count : Nat

/-- How many bytes a draw stores. -/
def drawLen (count : UInt8) : Nat :=
  if count = 0 then 256 else count.toNat

namespace Stream

/-- The state that the next seeding finds: a call was made for every block that was begun. -/
def current (s : Stream) : HmacDrbg.State :=
  HmacDrbg.after sha256 32 s.start ((s.count + 31) / 32)

def next (s : Stream) : DrbgOp → Stream
  | .init x => { epoch := s.epoch + 1, start := HmacDrbg.instantiate sha256 32 x.seed, count := 0 }
  | .reseed x =>
      { epoch := s.epoch + 1, start := HmacDrbg.reseed sha256 x.seed s.current, count := 0 }
  | .draw count => { s with count := s.count + drawLen count }
  | .mac _ => s

/-- The bytes at the next `n` places. -/
def take (s : Stream) (n : Nat) : List Served :=
  (List.range n).map fun i =>
    { epoch := s.epoch, place := s.count + i
      byte := HmacDrbg.byteAt sha256 32 s.start (s.count + i) }

def serve (s : Stream) : DrbgOp → List Served
  | .draw count => s.take (drawLen count)
  | _ => []

/-- The bytes of a run. -/
def served : List DrbgOp → Stream → List Served
  | [], _ => []
  | op :: ops, s => s.serve op ++ served ops (s.next op)

end Stream

/-! ## The routines on the state of the DRBG -/

section Routines

/-- Key and value, as the standard has them. -/
def DrbgRam.state (m : DrbgRam) : HmacDrbg.State :=
  ⟨m.k.toList, m.val.toList⟩

theorem toList_length (v : Vector UInt8 32) : v.toList.length = 32 := by
  rw [Vector.length_toList]

/-- One HMAC: the key is the private one, whatever `hmac_key` held. -/
theorem drbgHmac_result (m : DrbgRam) (data : Buffer) {len : UInt8} (hlen : len.toNat ≤ 119) :
    (front 32 (drbgHmac m data len).result).toList =
      Hkdf.hmac sha256 m.k.toList (bytesAt data 0 len.toNat) := by
  unfold drbgHmac
  rw [toList_front, bytes_hmacSha256 _ hlen]
  dsimp only
  rw [bytesAt_store_of_length _ _ (toList_length m.k)]

theorem updateV_eq (m : DrbgRam) :
    ∃ r v, updateV m = { m with val := v, shared := r } ∧
      v.toList = Hkdf.hmac sha256 m.k.toList m.val.toList := by
  refine ⟨_, _, rfl, ?_⟩
  rw [drbgHmac_result _ _ (by decide)]
  have hlen : (32 : UInt8).toNat = m.val.toList.length := (toList_length m.val).symm
  rw [hlen, bytesAt_store_self]

theorem updateK_eq (separator : UInt8) (m : DrbgRam) (hseed : m.seedLen.toNat ≤ 64) :
    ∃ r k, updateK separator m = { m with k := k, shared := r } ∧
      k.toList = Hkdf.hmac sha256 m.k.toList
        (m.val.toList ++ [separator] ++ bytesAt m.seed 0 m.seedLen.toNat) := by
  have hcount : (m.seedLen + 33).toNat = m.seedLen.toNat + 33 := by
    have h33 : (33 : UInt8).toNat = 33 := rfl
    rw [UInt8.toNat_add, h33]
    exact Nat.mod_eq_of_lt (by omega)
  have hval := toList_length m.val
  -- value, separator and seed, one behind the other
  have hjoin := store_store m.shared.hkdf.hmac.dataBuf 0 m.val.toList [separator]
  rw [hval, Nat.zero_add] at hjoin
  have hseedAt := store_store m.shared.hkdf.hmac.dataBuf 0 (m.val.toList ++ [separator])
    (bytesAt m.seed 0 m.seedLen.toNat)
  rw [List.length_append, hval, List.length_singleton, Nat.zero_add] at hseedAt
  refine ⟨_, _, rfl, ?_⟩
  rw [drbgHmac_result _ _ (by omega), hcount, update_eq_store, hjoin, hseedAt]
  rw [bytesAt_store_of_length]
  rw [List.length_append, List.length_append, hval, length_bytesAt, List.length_singleton]
  omega

/-- `hmac_drbg_update` is the Update of the standard. -/
theorem hmacDrbgUpdate_eq (m : DrbgRam) (hseed : m.seedLen.toNat ≤ 64) :
    ∃ r k v, hmacDrbgUpdate m = { m with k := k, val := v, shared := r } ∧
      (⟨k.toList, v.toList⟩ : HmacDrbg.State) =
        HmacDrbg.update sha256 (bytesAt m.seed 0 m.seedLen.toNat) m.state := by
  obtain ⟨r₁, k₁, heq₁, hk₁⟩ := updateK_eq 0x00 m hseed
  obtain ⟨r₂, v₁, heq₂, hv₁⟩ := updateV_eq { m with k := k₁, shared := r₁ }
  unfold hmacDrbgUpdate HmacDrbg.update
  dsimp only
  rw [heq₁, heq₂]
  dsimp only at hv₁ ⊢
  by_cases hempty : m.seedLen = 0
  · have hnone : bytesAt m.seed 0 m.seedLen.toNat = [] := by
      rw [hempty]
      exact bytesAt_zero _ _
    rw [if_pos hempty, if_pos hnone]
    refine ⟨r₂, k₁, v₁, rfl, ?_⟩
    rw [hv₁, hk₁]
    rfl
  · have hsome : bytesAt m.seed 0 m.seedLen.toNat ≠ [] := by
      intro hnone
      have hlen := congrArg List.length hnone
      rw [length_bytesAt, List.length_nil] at hlen
      exact hempty (UInt8.toNat.inj hlen)
    obtain ⟨r₃, k₂, heq₃, hk₂⟩ := updateK_eq 0x01 { m with k := k₁, val := v₁, shared := r₂ } hseed
    obtain ⟨r₄, v₂, heq₄, hv₂⟩ := updateV_eq { m with k := k₂, val := v₁, shared := r₃ }
    rw [if_neg hempty, if_neg hsome, heq₃]
    dsimp only at hk₂ hv₂ ⊢
    rw [heq₄]
    refine ⟨r₄, k₂, v₂, rfl, ?_⟩
    rw [hv₂, hk₂, hv₁, hk₁]
    rfl

attribute [irreducible] hmacDrbgUpdate updateV

/-- A block is generated; the state is updated without input. -/
theorem hmacDrbgGenerate_eq (m : DrbgRam) :
    (hmacDrbgGenerate m).output.toList = (HmacDrbg.generate sha256 32 32 m.state).1 ∧
      (hmacDrbgGenerate m).state = (HmacDrbg.generate sha256 32 32 m.state).2 := by
  obtain ⟨r₁, v₁, heq₁, hv₁⟩ := updateV_eq m
  obtain ⟨r₂, k₂, v₂, heq₂, hstate⟩ := hmacDrbgUpdate_eq
    { m with val := v₁, shared := r₁, output := v₁, seedLen := 0 } (Nat.zero_le 64)
  have hrun : hmacDrbgGenerate m =
      { m with k := k₂, val := v₂, shared := r₂, output := v₁, seedLen := 0 } := by
    unfold hmacDrbgGenerate
    rw [heq₁]
    exact heq₂
  rw [hrun, HmacDrbg.generate_block (by decide) length_sha256]
  refine ⟨hv₁, hstate.trans ?_⟩
  have hzero : (0 : UInt8).toNat = 0 := rfl
  dsimp only
  rw [hzero, bytesAt_zero]
  unfold DrbgRam.state
  rw [hv₁]

theorem length_seed (x : Samples) : x.seed.length = 32 := by
  unfold Samples.seed
  rw [List.length_map, Vector.length_toList]

/-- It has the length that the seed may have. -/
theorem seedLen_fits (x : Samples) (m : DrbgRam) : (drbgCollectSeed x m).seedLen.toNat ≤ 64 := by
  show (32 : UInt8).toNat ≤ 64
  decide

/-- The seed is in `drbg_seed`. -/
theorem drbgCollectSeed_seed (x : Samples) (m : DrbgRam) :
    bytesAt (drbgCollectSeed x m).seed 0 (drbgCollectSeed x m).seedLen.toNat = x.seed :=
  bytesAt_store_of_length _ _ (length_seed x)

theorem drbgInitEntropy_state (x : Samples) (m : DrbgRam) :
    (drbgInitEntropy x m).state = HmacDrbg.instantiate sha256 32 x.seed := by
  obtain ⟨r, k, v, heq, hstate⟩ := hmacDrbgUpdate_eq { drbgCollectSeed x m with
    k := Vector.replicate 32 0x00, val := Vector.replicate 32 0x01 } (seedLen_fits x m)
  unfold drbgInitEntropy hmacDrbgInstantiate
  rw [heq]
  refine hstate.trans ?_
  rw [drbgCollectSeed_seed]
  rfl

theorem drbgReseed_state (x : Samples) (m : DrbgRam) :
    (drbgReseed x m).state = HmacDrbg.reseed sha256 x.seed m.state := by
  obtain ⟨r, k, v, heq, hstate⟩ := hmacDrbgUpdate_eq (drbgCollectSeed x m) (seedLen_fits x m)
  unfold drbgReseed
  rw [heq]
  refine hstate.trans ?_
  rw [drbgCollectSeed_seed]
  rfl

attribute [irreducible] hmacDrbgGenerate

end Routines

/-! ## The routines on the stream -/

section Runs

variable {s : Stream} {m : DrbgRam}

/-- Behind a seeding. -/
theorem current_of_start (h : s.count = 0) : s.current = s.start := by
  unfold Stream.current
  rw [h]
  exact HmacDrbg.after_zero _

/-- The memory stands at this place of the stream. -/
structure Serves (s : Stream) (m : DrbgRam) : Prop where
  state_eq : m.state = s.current
  idx : m.bufIdx.toNat = if s.count % 32 = 0 then 32 else s.count % 32
  output : s.count % 32 ≠ 0 → m.output.toList = HmacDrbg.block sha256 32 s.start (s.count / 32)

/-- The buffer holds the block that the next byte is in. -/
theorem serves_refill (h : Serves s m) :
    ∃ m', (if m.bufIdx < 32 then m else { hmacDrbgGenerate m with bufIdx := 0 }) = m' ∧
      m'.bufIdx.toNat = s.count % 32 ∧
      m'.output.toList = HmacDrbg.block sha256 32 s.start (s.count / 32) ∧
      m'.state = HmacDrbg.after sha256 32 s.start (s.count / 32 + 1) := by
  have h32 : (32 : UInt8).toNat = 32 := rfl
  by_cases hfresh : s.count % 32 = 0
  · -- the block before is used up
    have hidx : ¬ m.bufIdx < 32 := by
      rw [UInt8.lt_iff_toNat_lt, h.idx, if_pos hfresh, h32]
      exact Nat.lt_irrefl 32
    have hcurrent : m.state = HmacDrbg.after sha256 32 s.start (s.count / 32) := by
      rw [h.state_eq]
      unfold Stream.current
      congr 1
      omega
    obtain ⟨hout, hnext⟩ := hmacDrbgGenerate_eq m
    refine ⟨_, if_neg hidx, hfresh.symm, ?_, ?_⟩
    · rw [HmacDrbg.block_eq, ← hcurrent]
      exact hout
    · rw [HmacDrbg.after_succ, ← hcurrent]
      exact hnext
  · have hidx : m.bufIdx < 32 := by
      rw [UInt8.lt_iff_toNat_lt, h.idx, if_neg hfresh, h32]
      exact Nat.mod_lt _ (by decide)
    refine ⟨_, if_pos hidx, h.idx.trans (if_neg hfresh), h.output hfresh, ?_⟩
    rw [h.state_eq]
    unfold Stream.current
    congr 1
    omega

/-- One byte: the next of the stream. -/
theorem drbgRandomByte_serves (h : Serves s m) :
    (drbgRandomByte m).2 = HmacDrbg.byteAt sha256 32 s.start s.count ∧
      Serves { s with count := s.count + 1 } (drbgRandomByte m).1 := by
  obtain ⟨m', hm', hidx, hout, hstate⟩ := serves_refill h
  have hlt := Nat.mod_lt s.count (show 0 < 32 by decide)
  have hsucc : (m'.bufIdx + 1).toNat = s.count % 32 + 1 := by
    have hone : (1 : UInt8).toNat = 1 := rfl
    rw [UInt8.toNat_add, hone, hidx]
    exact Nat.mod_eq_of_lt (by omega)
  unfold drbgRandomByte
  rw [hm']
  refine ⟨?_, ?_, ?_, ?_⟩
  · dsimp only
    rw [hout, hidx]
    rfl
  · refine hstate.trans ?_
    unfold Stream.current
    congr 1
    dsimp only
    omega
  · dsimp only
    rw [hsucc]
    split
    · omega
    · omega
  · intro hpart
    dsimp only at hpart ⊢
    rw [hout]
    congr 1
    omega

theorem drawLen_of_last {count : UInt8} (h : count - 1 = 0) : drawLen count = 1 := by
  have hone : count = 1 := by
    rw [← UInt8.sub_add_cancel count 1, h]
    rfl
  rw [hone]
  rfl

theorem drawLen_of_more {count : UInt8} (h : count - 1 ≠ 0) :
    drawLen count = drawLen (count - 1) + 1 := by
  revert h
  refine forall_byte (p := fun c => c - 1 ≠ 0 → drawLen c = drawLen (c - 1) + 1) ?_ count
  decide +kernel

/-- The places, the first one apart. -/
theorem Stream.take_succ (s : Stream) (n : Nat) :
    s.take (n + 1) = ⟨s.epoch, s.count, HmacDrbg.byteAt sha256 32 s.start s.count⟩ ::
      ({ s with count := s.count + 1 } : Stream).take n := by
  unfold Stream.take
  rw [List.range_succ_eq_map, List.map_cons, List.map_map]
  refine congrArg₂ List.cons rfl (List.map_congr_left fun i _ => ?_)
  show Served.mk _ (s.count + (i + 1)) _ = Served.mk _ (s.count + 1 + i) _
  rw [show s.count + (i + 1) = s.count + 1 + i by omega]

/-- The loop, from one byte to the next. -/
theorem fillLoop_serves (n : Nat) : ∀ {count : UInt8} {s : Stream} {m : DrbgRam},
    drawLen count ≤ n → Serves s m →
      (fillLoop n count m).2 = (s.take (drawLen count)).map Served.byte ∧
        Serves { s with count := s.count + drawLen count } (fillLoop n count m).1 := by
  induction n with
  | zero =>
      intro count s m hn h
      have hpos : 0 < drawLen count := by
        unfold drawLen
        split
        · decide
        · rename_i hne
          exact Nat.pos_of_ne_zero fun hz => hne (UInt8.toNat.inj hz)
      omega
  | succ n ih =>
      intro count s m hn h
      obtain ⟨hbyte, hnext⟩ := drbgRandomByte_serves h
      unfold fillLoop
      dsimp only
      split
      · rename_i hlast
        rw [drawLen_of_last hlast, Stream.take_succ, hbyte]
        exact ⟨rfl, hnext⟩
      · rename_i hmore
        have hfuel : drawLen (count - 1) ≤ n := by
          rw [drawLen_of_more hmore] at hn
          omega
        obtain ⟨hrest, hserves⟩ := ih hfuel hnext
        rw [drawLen_of_more hmore, Stream.take_succ, hbyte, hrest]
        refine ⟨rfl, ?_⟩
        have hsum : s.count + (drawLen (count - 1) + 1) = s.count + 1 + drawLen (count - 1) := by
          omega
        rw [hsum]
        exact hserves

theorem drawLen_le (count : UInt8) : drawLen count ≤ 256 := by
  have hlt := count.toNat_lt
  unfold drawLen
  split
  · exact Nat.le_refl _
  · omega

/-- Whatever happens next, the memory follows the stream. -/
theorem drbgStep_serves (h : Serves s m) (op : DrbgOp) :
    (drbgStep m op).2 = (s.serve op).map Served.byte ∧ Serves (s.next op) (drbgStep m op).1 := by
  cases op with
  | init x =>
      refine ⟨rfl, ?_, rfl, fun hne => absurd rfl hne⟩
      rw [current_of_start rfl]
      exact drbgInitEntropy_state x m
  | reseed x =>
      refine ⟨rfl, ?_, rfl, fun hne => absurd rfl hne⟩
      rw [current_of_start rfl]
      show (drbgReseed x m).state = HmacDrbg.reseed sha256 x.seed s.current
      rw [drbgReseed_state, h.state_eq]
  | draw count => exact fillLoop_serves 256 (drawLen_le count) h
  | mac f => exact ⟨rfl, h.state_eq, h.idx, h.output⟩

theorem drawn_serves (ops : List DrbgOp) : ∀ {s : Stream} {m : DrbgRam}, Serves s m →
    drawn ops m = (Stream.served ops s).map Served.byte := by
  induction ops with
  | nil =>
      intro s m _
      rfl
  | cons op ops ih =>
      intro s m h
      obtain ⟨hout, hnext⟩ := drbgStep_serves h op
      unfold drawn Stream.served
      rw [List.map_append, hout, ih hnext]

end Runs

/-! ## No place twice -/

section Order

/-- Of an older seeding, or earlier behind the same one. -/
def Served.Before (a b : Served) : Prop :=
  a.epoch < b.epoch ∨ a.epoch = b.epoch ∧ a.place < b.place

theorem Stream.mem_take {s : Stream} {n : Nat} {b : Served} (h : b ∈ s.take n) :
    b.epoch = s.epoch ∧ s.count ≤ b.place ∧ b.place < s.count + n := by
  unfold Stream.take at h
  obtain ⟨i, hi, rfl⟩ := List.mem_map.1 h
  have hlt := List.mem_range.1 hi
  exact ⟨rfl, by dsimp only; omega, by dsimp only; omega⟩

/-- What a step serves lies between the two places. -/
theorem Stream.mem_serve {s : Stream} {op : DrbgOp} {b : Served} (h : b ∈ s.serve op) :
    b.epoch = s.epoch ∧ s.count ≤ b.place ∧ (s.next op).epoch = s.epoch ∧
      b.place < (s.next op).count := by
  cases op with
  | init x => cases h
  | reseed x => cases h
  | draw count =>
      obtain ⟨hepoch, hlow, hhigh⟩ := Stream.mem_take h
      exact ⟨hepoch, hlow, rfl, hhigh⟩
  | mac f => cases h

/-- The places ahead of a stream. -/
def Served.Ahead (s : Stream) (b : Served) : Prop :=
  s.epoch < b.epoch ∨ s.epoch = b.epoch ∧ s.count ≤ b.place

theorem ahead_of_next {s : Stream} {op : DrbgOp} {b : Served} (h : b.Ahead (s.next op)) :
    b.Ahead s := by
  unfold Served.Ahead at *
  cases op with
  | init x =>
      left
      rcases h with h | h
      · exact Nat.lt_trans (Nat.lt_succ_self _) h
      · exact Nat.lt_of_lt_of_eq (Nat.lt_succ_self _) h.1
  | reseed x =>
      left
      rcases h with h | h
      · exact Nat.lt_trans (Nat.lt_succ_self _) h
      · exact Nat.lt_of_lt_of_eq (Nat.lt_succ_self _) h.1
  | draw count =>
      refine h.imp_right fun h => ⟨h.1, ?_⟩
      exact Nat.le_trans (Nat.le_add_right _ _) h.2
  | mac f => exact h

theorem served_ahead (ops : List DrbgOp) : ∀ {s : Stream} {b : Served},
    b ∈ Stream.served ops s → b.Ahead s := by
  induction ops with
  | nil =>
      intro s b h
      cases h
  | cons op ops ih =>
      intro s b h
      rcases List.mem_append.1 h with h | h
      · obtain ⟨hepoch, hlow, -⟩ := Stream.mem_serve h
        exact Or.inr ⟨hepoch.symm, hlow⟩
      · exact ahead_of_next (ih h)

/-- A run serves the places in their order, none of them twice. -/
theorem served_ordered (ops : List DrbgOp) : ∀ s : Stream,
    (Stream.served ops s).Pairwise Served.Before := by
  induction ops with
  | nil =>
      intro s
      exact List.Pairwise.nil
  | cons op ops ih =>
      intro s
      refine List.pairwise_append.2 ⟨?_, ih _, ?_⟩
      · cases op with
        | draw count =>
            refine List.pairwise_map.2 (List.pairwise_lt_range.imp fun h => ?_)
            exact Or.inr ⟨rfl, Nat.add_lt_add_left h _⟩
        | init x => exact List.Pairwise.nil
        | reseed x => exact List.Pairwise.nil
        | mac f => exact List.Pairwise.nil
      · intro a ha b hb
        obtain ⟨hepoch, -, hsame, hplace⟩ := Stream.mem_serve ha
        rcases served_ahead ops hb with h | h
        · exact Or.inl (by omega)
        · exact Or.inr ⟨by omega, by omega⟩

def DrbgOp.isMac : DrbgOp → Bool
  | .mac _ => true
  | _ => false

/-- Computations in the shared memory serve nothing and move nothing. -/
theorem served_filter (ops : List DrbgOp) : ∀ s : Stream,
    Stream.served (ops.filter fun op => !op.isMac) s = Stream.served ops s := by
  induction ops with
  | nil =>
      intro s
      rfl
  | cons op ops ih =>
      intro s
      cases op with
      | mac f => exact ih s
      | init x => exact congrArg _ (ih _)
      | reseed x => exact congrArg _ (ih _)
      | draw count => exact congrArg _ (ih _)

/-- The stream behind the first seeding. -/
def Stream.first (x : Samples) : Stream where
  epoch := 0
  start := HmacDrbg.instantiate sha256 32 x.seed
  count := 0

/-- From the first seeding on, whatever the memory held, the bytes that a run draws are those of the
stream, in its order and each place once; and a run with other computations between the draws, or with
none, over any memory, draws the same bytes. -/
theorem drawn_bytes_are_drbg (x : Samples) (ops : List DrbgOp) (m m' : DrbgRam) :
    drawn (.init x :: ops) m = (Stream.served ops (.first x)).map Served.byte ∧
      (Stream.served ops (.first x)).Pairwise Served.Before ∧
      drawn (.init x :: ops.filter fun op => !op.isMac) m' = drawn (.init x :: ops) m := by
  have hfirst : ∀ m, Serves (.first x) (drbgInitEntropy x m) := by
    intro m
    refine ⟨?_, rfl, fun hne => absurd rfl hne⟩
    rw [current_of_start rfl]
    exact drbgInitEntropy_state x m
  have hdrawn : ∀ ops m, drawn (.init x :: ops) m =
      (Stream.served ops (.first x)).map Served.byte := fun ops m => drawn_serves ops (hfirst m)
  refine ⟨hdrawn ops m, served_ordered ops _, ?_⟩
  rw [hdrawn, hdrawn, served_filter]

end Order

end Crypto
end C64Https
