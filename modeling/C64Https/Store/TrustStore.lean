import C64Https.Lib.Bytes
import C64Https.Lib.Fips180
import C64Https.Lib.Keyed
import C64Https.Lib.Word

/-!
# TrustStore — the store of host keys on disk (`src/net/uci/trust_store.s`)

The store is a file of up to 32 records in one of two slots.  A load reads and checks both slots and takes
the newer one; a save builds the next generation in memory and writes it to the slot that was not loaded.
Both work in the receive ring, which also holds the host name while its key is computed, and a file that is
shorter than its header leaves there what was there before.

The routines are given what the firmware answers to each read (`SlotRead`) and to the write; what a store
holds is read off the buffer (`recordsFrom`), where finding a record and filling one in are the lookup and
the update of a list of records (`tsFind_found`, `recordsFrom_fill`).
-/

namespace C64Https
namespace Store

open Bytes Word

/-! ## The format (`src/trust_store.inc`) -/

/-- `tls_transcript_init`, `tls_transcript_update` and `tls_transcript_hash`, over the bytes fed. -/
structure Digest where
  sha256 : List UInt8 → List UInt8
  length_sha256 : ∀ m, (sha256 m).length = 32

def Digest.fips : Digest where
  sha256 := Fips180.sha256
  length_sha256 := Fips180.length_sha256

def tsMagic : List UInt8 :=
  [0x43, 0x36, 0x54, 0x53]

def tsVersion : UInt8 :=
  1

def tsMaxRecs : Nat :=
  32

def tsFileMax : Nat :=
  8 + tsMaxRecs * 64 + 8

/-- `ts_hdr0`. -/
def tsHdr0 : List UInt8 :=
  tsMagic ++ [tsVersion, 0, 0, 0]

inductive Slot where
  | a
  | b
  deriving DecidableEq, Repr

/-- `eor #$01`. -/
def Slot.other : Slot → Slot
  | a => b
  | b => a

/-- `TS_ST_*`. -/
inductive TsState where
  | none
  | valid
  | empty
  | fail
  deriving DecidableEq, Repr

/-- `TS_SLOT_*` and `TS_R_*`. -/
inductive Code where
  | ok
  | absent
  | nopath
  | dos
  | io
  | format
  | version
  | checksum
  | tie
  | busy
  | notready
  | changed
  | full
  | write
  | verify
  deriving DecidableEq, Repr

/-! ## State -/

structure TrustStore where
  /-- `TS_BUF`, the receive ring -/
  buf : Buffer
  state : TsState
  slot : Slot
  gen : UInt16
  reason : Code
  slotSt : Slot → Code
  sgen : Slot → UInt16
  /-- `dos_cnt` -/
  cnt : Nat
  key : List UInt8
  /-- `ts_rec` -/
  record : List UInt8
  found : Bool
  staged : TsState

/-- Memory that was cleared, and any ring. -/
def TrustStore.cleared (ring : Buffer) : TrustStore where
  buf := ring
  state := .none
  slot := .a
  gen := 0
  reason := .ok
  slotSt := fun _ => .ok
  sgen := fun _ => 0
  cnt := 0
  key := List.replicate 16 0
  record := List.replicate 64 0
  found := false
  staged := .none

/-- What the firmware answers when a slot is opened and read. -/
inductive SlotRead where
  | absent
  | nopath
  | dos
  /-- the read or the close failed, after some bytes -/
  | io (part : List UInt8)
  | file (bytes : List UInt8)
  deriving DecidableEq, Repr

/-- The answers to the reads of `ts_scan`: slot A, slot B, and slot A again. -/
structure Reads where
  first : SlotRead
  second : SlotRead
  again : SlotRead

/-! ## Reading a slot -/

/-- What `dos_read` stored. -/
def loadBuf (got : List UInt8) (t : TrustStore) : TrustStore :=
  { t with buf := store t.buf 0 got, cnt := got.length }

/-- `ts_read_file`, of at most `cap` bytes. -/
def tsReadFile (cap : Nat) (r : SlotRead) (t : TrustStore) : TrustStore × Code :=
  match r with
  | .absent => (t, .absent)
  | .nopath => (t, .nopath)
  | .dos => (t, .dos)
  | .io part => (loadBuf (part.take cap) t, .io)
  | .file bytes => (loadBuf (bytes.take cap) t, .ok)

/-- `ts_body_len`: `zp_count`, from shifts of the number of records. -/
def tsBodyLen (n : UInt8) : Nat :=
  word (n >>> 2) (n <<< 6 ||| 8)

/-- And `ts_size`. -/
def tsSize (n : UInt8) : Nat :=
  word (n >>> 2) (n <<< 6 ||| 16)

def genAt (buf : Buffer) : UInt16 :=
  UInt16.ofNat (word (buf 6) (buf 5))

/-- The first eight bytes of the digest of header and records. -/
def tsChecksum (D : Digest) (buf : Buffer) : List UInt8 :=
  (D.sha256 (bytesAt buf 0 (tsBodyLen (buf 7)))).take 8

/-- The checks of `ts_read_slot`, in their order. -/
def tsCheck (D : Digest) (buf : Buffer) (cnt : Nat) : Code :=
  if bytesAt buf 0 4 ≠ tsMagic then .format
  else if buf 4 ≠ tsVersion then .version
  else if cnt ≠ tsSize (buf 7) then .format
  else if tsChecksum D buf ≠ bytesAt buf (tsBodyLen (buf 7)) 8 then .checksum
  else .ok

/-- A slot that was read is checked; one that is good leaves its generation. -/
def tsChecked (D : Digest) (x : Slot) (t : TrustStore) : TrustStore × Code :=
  let c := tsCheck D t.buf t.cnt
  (if c = .ok then { t with sgen := Function.update t.sgen x (genAt t.buf) } else t, c)

def tsReadSlot (D : Digest) (x : Slot) (r : SlotRead) (t : TrustStore) : TrustStore × Code :=
  let s := tsReadFile (tsFileMax + 1) r t
  if s.2 ≠ .ok then s else tsChecked D x s.1

/-! ## `ts_scan` -/

def tsFail (c : Code) (t : TrustStore) : TrustStore :=
  { t with reason := c, state := .fail }

/-- `@valid`. -/
def tsValid (x : Slot) (t : TrustStore) : TrustStore :=
  { t with slot := x, gen := t.sgen x, state := .valid }

/-- `ts_tolerable`. -/
def tsTolerable (c : Code) : Bool :=
  c = .absent || c = .format || c = .checksum

/-- `@take_a`, on what reading A again came to. -/
def tsTakeA (s : TrustStore × Code) : TrustStore :=
  if s.2 ≠ .ok then tsFail .changed s.1 else tsValid .a s.1

/-- `@both`: the difference of the generations as a serial number. -/
def tsBoth (D : Digest) (again : SlotRead) (t : TrustStore) : TrustStore :=
  let d := t.sgen .b - t.sgen .a
  if d &&& 0x7fff = 0 then tsFail .tie t
  else if d &&& 0x8000 ≠ 0 then tsTakeA (tsReadSlot D .a again t)
  else tsValid .b t

/-- What is made of the results of the two slots. -/
def tsChoose (D : Digest) (again : SlotRead) (t : TrustStore) : TrustStore :=
  if t.slotSt .a = .ok then
    if t.slotSt .b = .ok then tsBoth D again t
    else if tsTolerable (t.slotSt .b) then tsTakeA (tsReadSlot D .a again t)
    else tsFail (t.slotSt .b) t
  else if t.slotSt .b = .ok then
    if tsTolerable (t.slotSt .a) then tsValid .b t else tsFail (t.slotSt .a) t
  else if t.slotSt .a ≠ .absent then tsFail (t.slotSt .a) t
  else if t.slotSt .b ≠ .absent then tsFail (t.slotSt .b) t
  else { t with gen := 0, slot := .b, state := .empty }

/-- The result of a slot goes to `ts_slot_st`. -/
def tsNote (x : Slot) (s : TrustStore × Code) : TrustStore :=
  { s.1 with slotSt := Function.update s.1.slotSt x s.2 }

def tsScan (D : Digest) (r : Reads) (t : TrustStore) : TrustStore :=
  let t := tsNote .a (tsReadSlot D .a r.first t)
  tsChoose D r.again (tsNote .b (tsReadSlot D .b r.second t))

/-! ## Load, stage and save -/

/-- `A` to `Z`, and nothing else. -/
def lower (b : UInt8) : UInt8 :=
  if 0x41 ≤ b ∧ b < 0x5b then b ||| 0x20 else b

/-- The copy stops after 256 characters. -/
def hostName (host : List UInt8) : List UInt8 :=
  (host.take 256).map lower

def hostKey (D : Digest) (host : List UInt8) : List UInt8 :=
  (D.sha256 (hostName host)).take 16

/-- `ts_find` over `n` records from `p` on: where it ends, and whether the key is there. -/
def tsFind (key : List UInt8) (buf : Buffer) : Nat → Nat → Nat × Bool
  | 0, p => (p, false)
  | n + 1, p => if bytesAt buf p 16 = key then (p, true) else tsFind key buf n (p + 64)

def tsFindIn (t : TrustStore) : Nat × Bool :=
  tsFind t.key t.buf (t.buf 7).toNat 8

/-- A record that is found goes to `ts_rec`. -/
def tsRecIn (t : TrustStore) : TrustStore :=
  if t.state = .valid ∧ (tsFindIn t).2 = true then
    { t with record := bytesAt t.buf (tsFindIn t).1 64, found := true }
  else t

/-- The host's name in lower case in the ring, and its key. -/
def tsHost (D : Digest) (host : List UInt8) (t : TrustStore) : TrustStore :=
  { t with buf := store t.buf 0 (hostName host), key := hostKey D host }

/-- `trust_store_load`; `busy` is a socket that is connected. -/
def trustStoreLoad (D : Digest) (busy : Bool) (host : List UInt8) (r : Reads) (t : TrustStore) :
    TrustStore :=
  let t := { t with found := false, staged := .none }
  if busy then tsFail .busy t else tsRecIn (tsScan D r (tsHost D host t))

/-- `trust_store_lookup`. -/
def trustStoreLookup (t : TrustStore) : Option (List UInt8) :=
  if t.found = true then some t.record else none

/-- `trust_store_stage`. -/
def trustStoreStage (record : List UInt8) (t : TrustStore) : TrustStore :=
  { t with record := t.key ++ record.drop 16, staged := t.state, state := .none, found := false }

/-- `ts_consume`. -/
def tsConsume (t : TrustStore) : TrustStore :=
  { t with state := .none, found := false, staged := .none }

def tsRefuse (c : Code) (t : TrustStore) : TrustStore :=
  tsConsume { t with reason := c }

/-- How far a save comes before it writes: it is refused, or the record goes to its place `p`. -/
inductive Prepared where
  | refused (c : Code) (t : TrustStore)
  | put (p : Nat) (t : TrustStore)

/-- `@have`. -/
def tsPlace (t : TrustStore) : Prepared :=
  if (tsFindIn t).2 = true then .put (tsFindIn t).1 t
  else if tsMaxRecs ≤ (t.buf 7).toNat then .refused .full t
  else .put (tsFindIn t).1 { t with buf := Function.update t.buf 7 (t.buf 7 + 1) }

/-- The store is read again and must be the one that was loaded; `t` is it. -/
def tsSame (t u : TrustStore) : Prepared :=
  if u.state ≠ t.staged ∨ u.slot ≠ t.slot ∨ u.gen ≠ t.gen then .refused .changed u
  else tsPlace (if u.state = .empty then { u with buf := store u.buf 0 tsHdr0 } else u)

def tsPrepare (D : Digest) (busy : Bool) (r : Reads) (t : TrustStore) : Prepared :=
  if busy then .refused .busy t
  else if t.staged ≠ .valid ∧ t.staged ≠ .empty then .refused .notready t
  else tsSame t (tsScan D r t)

/-- The first half of `ts_put`: the record, the next generation, the checksum. -/
def tsFill (D : Digest) (p : Nat) (t : TrustStore) : Buffer :=
  let buf := store t.buf p t.record
  let gen := genAt buf + 1
  let buf := store buf 5 [lo gen.toNat, hi gen.toNat]
  store buf (tsBodyLen (buf 7)) (tsChecksum D buf)

/-- What a save leaves: its state, the file that it wrote if it came to that, and whether it is saved. -/
structure Saved where
  store : TrustStore
  file : Option (Slot × List UInt8)
  ok : Bool

/-- The firmware over a write: whether open, write and close reported success, and what the slot then
reads as. -/
abbrev Write : Type :=
  Slot → List UInt8 → Bool × SlotRead

/-- The slot that was written is read back, and must be the generation that was written. -/
def tsVerify (gen : UInt16) (file : Slot × List UInt8) (s : TrustStore × Code) : Saved :=
  if s.2 ≠ .ok ∨ genAt s.1.buf ≠ gen then ⟨tsRefuse .verify s.1, some file, false⟩
  else ⟨tsConsume s.1, some file, true⟩

/-- The second half of `ts_put`. -/
def tsWrite (D : Digest) (w : Write) (t : TrustStore) : Saved :=
  let file := (t.slot.other, bytesAt t.buf 0 (tsSize (t.buf 7)))
  if (w file.1 file.2).1 = false then ⟨tsRefuse .write t, some file, false⟩
  else tsVerify (genAt t.buf) file (tsReadSlot D file.1 (w file.1 file.2).2 t)

def tsPut (D : Digest) (w : Write) : Prepared → Saved
  | .refused c t => ⟨tsRefuse c t, none, false⟩
  | .put p t => tsWrite D w { t with buf := tsFill D p t }

/-- `trust_store_save`. -/
def trustStoreSave (D : Digest) (busy : Bool) (r : Reads) (w : Write) (t : TrustStore) : Saved :=
  tsPut D w (tsPrepare D busy r t)

/-! ## The lengths -/

section Lengths

theorem tsBodyLen_eq (n : UInt8) : tsBodyLen n = 8 + 64 * n.toNat := by
  refine forall_byte (p := fun n => tsBodyLen n = 8 + 64 * n.toNat) ?_ n
  decide +kernel

theorem tsSize_eq (n : UInt8) : tsSize n = 16 + 64 * n.toNat := by
  refine forall_byte (p := fun n => tsSize n = 16 + 64 * n.toNat) ?_ n
  decide +kernel

end Lengths

attribute [irreducible] tsBodyLen tsSize

/-! ## The records of a buffer -/

section Records

variable {key record : List UInt8}

/-- `n` records from `p` on. -/
def recordsFrom (buf : Buffer) : Nat → Nat → List (List UInt8)
  | 0, _ => []
  | n + 1, p => bytesAt buf p 64 :: recordsFrom buf n (p + 64)

/-- `TS_REC_KEY`. -/
def recordKey (r : List UInt8) : List UInt8 :=
  r.take 16

@[simp] theorem length_recordsFrom (buf : Buffer) (n : Nat) : ∀ p,
    (recordsFrom buf n p).length = n := by
  induction n with
  | zero =>
      intro p
      rfl
  | succ n ih =>
      intro p
      rw [recordsFrom, List.length_cons, ih]

theorem length_of_mem_recordsFrom {buf : Buffer} {r : List UInt8} (n : Nat) : ∀ p,
    r ∈ recordsFrom buf n p → r.length = 64 := by
  induction n with
  | zero =>
      intro p h
      exact absurd h List.not_mem_nil
  | succ n ih =>
      intro p h
      rw [recordsFrom, List.mem_cons] at h
      rcases h with rfl | h
      · exact length_bytesAt _ _ _
      · exact ih _ h

theorem recordsFrom_congr {buf buf' : Buffer} (n : Nat) : ∀ p,
    (∀ i, p ≤ i → i < p + 64 * n → buf i = buf' i) → recordsFrom buf n p = recordsFrom buf' n p := by
  induction n with
  | zero =>
      intro p _
      rfl
  | succ n ih =>
      intro p h
      rw [recordsFrom, recordsFrom, ih (p + 64) fun i h₁ h₂ => h i (by omega) (by omega)]
      congr 1
      exact bytesAt_congr fun i hi => h (p + i) (by omega) (by omega)

/-- The bytes of the records, one after the other. -/
theorem flatten_recordsFrom (buf : Buffer) (n : Nat) : ∀ p,
    (recordsFrom buf n p).flatten = bytesAt buf p (64 * n) := by
  induction n with
  | zero =>
      intro p
      rfl
  | succ n ih =>
      intro p
      have hlen : 64 * (n + 1) = 64 + 64 * n := by omega
      rw [recordsFrom, List.flatten_cons, ih, hlen, bytesAt_add]

theorem recordKey_bytesAt (buf : Buffer) (p : Nat) : recordKey (bytesAt buf p 64) = bytesAt buf p 16 :=
  take_bytesAt buf p (by decide)

/-- Where `ts_find` ends. -/
theorem tsFind_place (key : List UInt8) (buf : Buffer) (n : Nat) : ∀ p, ∃ j ≤ n, (tsFind key buf n p).1 = p + 64 * j ∧
    ((tsFind key buf n p).2 = true → j < n) := by
  induction n with
  | zero =>
      intro p
      exact ⟨0, Nat.le_refl 0, rfl, fun h => absurd h Bool.false_ne_true⟩
  | succ n ih =>
      intro p
      unfold tsFind
      split
      · exact ⟨0, Nat.zero_le _, rfl, fun _ => Nat.succ_pos n⟩
      · obtain ⟨j, hj, hplace, hlt⟩ := ih (p + 64)
        refine ⟨j + 1, Nat.succ_le_succ hj, ?_, fun h => Nat.succ_lt_succ (hlt h)⟩
        rw [hplace]
        omega

/-- `ts_find` is the lookup. -/
theorem tsFind_found (key : List UInt8) (buf : Buffer) (n : Nat) : ∀ p,
    Keyed.find recordKey key (recordsFrom buf n p) =
      if (tsFind key buf n p).2 = true then some (bytesAt buf (tsFind key buf n p).1 64) else none := by
  induction n with
  | zero =>
      intro p
      rfl
  | succ n ih =>
      intro p
      have hrec := recordKey_bytesAt buf p
      rw [recordsFrom]
      unfold tsFind
      by_cases hkey : bytesAt buf p 16 = key
      · rw [if_pos hkey, Keyed.find_cons_of_eq (hrec.trans hkey)]
        rfl
      · rw [if_neg hkey, Keyed.find_cons_of_ne fun h => hkey (hrec.symm.trans h)]
        exact ih (p + 64)

/-- A record in its place, or behind the last one, is the update. -/
theorem recordsFrom_fill (buf : Buffer) (hlen : record.length = 64) (n : Nat) : ∀ p,
    recordsFrom (store buf (tsFind key buf n p).1 record)
        (if (tsFind key buf n p).2 = true then n else n + 1) p =
      Keyed.put recordKey key record (recordsFrom buf n p) := by
  induction n with
  | zero =>
      intro p
      have hself := bytesAt_store_of_length buf p hlen
      show [bytesAt (store buf p record) p 64] = [record]
      rw [hself]
  | succ n ih =>
      intro p
      rw [recordsFrom, Keyed.put, recordKey_bytesAt]
      unfold tsFind
      by_cases hkey : bytesAt buf p 16 = key
      · rw [if_pos hkey, if_pos hkey]
        dsimp only
        rw [if_pos rfl, recordsFrom, bytesAt_store_of_length buf p hlen]
        congr 1
        refine recordsFrom_congr n (p + 64) fun i h₁ _ => ?_
        exact store_of_outside buf (Or.inr (by omega))
      · rw [if_neg hkey, if_neg hkey]
        obtain ⟨j, -, hplace, -⟩ := tsFind_place key buf n (p + 64)
        have hstep : (if (tsFind key buf n (p + 64)).2 = true then n + 1 else n + 1 + 1) =
            (if (tsFind key buf n (p + 64)).2 = true then n else n + 1) + 1 := by
          split
          · rfl
          · rfl
        rw [hstep, recordsFrom, ih (p + 64)]
        congr 1
        refine bytesAt_congr fun i hi => store_of_outside buf (Or.inl ?_)
        rw [hplace]
        omega

end Records

end Store
end C64Https
