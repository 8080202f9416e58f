import C64Https.Crypto.Sha256
import C64Https.Lib.Word
import C64Https.Tls.Transcript

/-!
# TranscriptRam — the streaming hash in memory (`src/tls_transcript.s`)

`Transcript` keeps the running hash as strings.  Here are the routines as they work on their buffers:
the shadow of the chaining state, the block in progress with its length, the 16-bit total in two
bytes, and the registers of SHA-256 that every other user of the hash writes as well.

The buffers hold what the strings say (`Holds`), each routine keeps that, and with the block function
of `sha256.s` the strings hold SHA-256 of what was fed (`Fed`).
-/

namespace C64Https
namespace Tls

open Bytes Word32 Fips180 Crypto

/-! ## SHA-256 as the transcript uses it -/

/-- The compression function on the bytes of a hash value. -/
def Sha256.fips : Sha256 where
  init := initial.bytes
  processBlock h block := (compressBlock (chainAt fun i => h.getD i 0) block).bytes
  final h := h

theorem Sha256.fips_processBlock (H : Chain) (block : List UInt8) :
    Sha256.fips.processBlock H.bytes block = (compressBlock H block).bytes := by
  have hread : chainAt (fun i => H.bytes.getD i 0) = H := chainAt_of_bytes (bytesAt_getD H.bytes)
  show (compressBlock (chainAt fun i => H.bytes.getD i 0) block).bytes = _
  rw [hread]

/-- `sha256_process_block` on the bytes that its registers hold. -/
theorem bytes_sha256ProcessBlock (s : Sha) : bytesAt (Crypto.sha256ProcessBlock s).h0 0 32 =
    Sha256.fips.processBlock (bytesAt s.h0 0 32) (bytesAt s.block 0 64) := by
  rw [← bytes_chainAt, ← bytes_chainAt, Sha256.fips_processBlock, chainAt_sha256ProcessBlock,
    compress_blockWords _ rfl]

/-! ## What a running hash holds -/

section Spec

variable {m : List UInt8} {t : Transcript}

/-- The running hash after the bytes `m`. -/
structure Fed (m : List UInt8) (t : Transcript) : Prop where
  h0 : t.h0 = (foldBlocks compressBlock initial m).bytes
  block : t.block = remainder m
  total : t.total = m.length % 65536

theorem fed_init : Fed [] (tlsTranscriptInit Sha256.fips) where
  h0 := rfl
  block := rfl
  total := rfl

/-- One more byte: the block in progress grows, or is processed. -/
theorem fed_byte (hh0 : t.h0 = (foldBlocks compressBlock initial m).bytes)
    (hblock : t.block = remainder m) (b : UInt8) :
    (transcriptByte Sha256.fips t b).h0 =
        (foldBlocks compressBlock initial (m ++ [b])).bytes ∧
      (transcriptByte Sha256.fips t b).block = remainder (m ++ [b]) := by
  have hlen : (remainder m ++ [b]).length = m.length % 64 + 1 := by
    rw [List.length_append, length_remainder, List.length_singleton]
  unfold transcriptByte
  dsimp only
  rw [foldBlocks_extend, remainder_append, hblock, hh0]
  by_cases hfull : (remainder m ++ [b]).length = 64
  · have hrest : remainder (remainder m ++ [b]) = [] := by
      refine List.eq_nil_of_length_eq_zero ?_
      rw [length_remainder, hfull]
    rw [if_pos hfull, foldBlocks_single _ hfull, hrest]
    exact ⟨Sha256.fips_processBlock _ _, rfl⟩
  · have hshort : (remainder m ++ [b]).length < 64 := by
      omega
    rw [if_neg hfull, foldBlocks_short _ hshort, remainder_of_lt hshort]
    exact ⟨rfl, rfl⟩

theorem fed_bytes (bs : List UInt8) : ∀ {m : List UInt8} {t : Transcript},
    t.h0 = (foldBlocks compressBlock initial m).bytes → t.block = remainder m →
    (bs.foldl (transcriptByte Sha256.fips) t).h0 =
        (foldBlocks compressBlock initial (m ++ bs)).bytes ∧
      (bs.foldl (transcriptByte Sha256.fips) t).block = remainder (m ++ bs) := by
  induction bs with
  | nil =>
      intro m t hh0 hblock
      rw [List.append_nil]
      exact ⟨hh0, hblock⟩
  | cons b bs ih =>
      intro m t hh0 hblock
      have hbyte := fed_byte hh0 hblock b
      have hrest := ih hbyte.1 hbyte.2
      rw [List.append_assoc, List.singleton_append] at hrest
      exact hrest

theorem Fed.update (h : Fed m t) (bs : List UInt8) :
    Fed (m ++ bs) (tlsTranscriptUpdate Sha256.fips t bs) := by
  have hbytes := fed_bytes bs h.h0 h.block
  refine ⟨hbytes.1, hbytes.2, ?_⟩
  rw [tlsTranscriptUpdate_total, h.total, List.length_append, Nat.mod_add_mod]

/-- A snapshot is the digest of what was fed. -/
theorem Fed.hash (h : Fed m t) (hlen : m.length < 65536) :
    tlsTranscriptHash Sha256.fips t = sha256 m := by
  have htotal : t.total = m.length := by
    rw [h.total, Nat.mod_eq_of_lt hlen]
  have hrem : (remainder m).length = m.length % 64 := length_remainder m
  have hlt : (remainder m).length < 64 := by
    rw [hrem]
    exact Nat.mod_lt _ (by decide)
  unfold tlsTranscriptHash sha256
  dsimp only
  rw [foldBlocks_extend, h.h0, h.block, htotal]
  by_cases hfits : (remainder m).length < 56
  · rw [if_pos hfits, append_padding_of_fits hlen hrem hfits,
      foldBlocks_single _ (length_paddedBlock m.length hfits)]
    exact Sha256.fips_processBlock _ _
  · have hlast : (List.replicate 61 0 ++ bitCount m.length).length = 64 := rfl
    rw [if_neg hfits, append_padding_of_not_fits hlen hrem hfits,
      foldBlocks_block _ _ (length_filledBlock hlt), foldBlocks_single _ hlast,
      Sha256.fips_processBlock]
    exact Sha256.fips_processBlock _ _

end Spec

/-! ## The routines on their buffers -/

structure TranscriptRam where
  sha : Sha
  /-- `tls_transcript` -/
  transcript : Buffer
  /-- `tls_transcript_h0` … `tls_transcript_h7` -/
  h0 : Buffer
  /-- `tls_transcript_block` -/
  block : Buffer
  /-- `tls_transcript_block_len` -/
  blockLen : Nat
  /-- `tls_transcript_total_lo` -/
  totalLo : UInt8
  /-- `tls_transcript_total_hi` -/
  totalHi : UInt8
  /-- `tls_transcript_save` -/
  save : Buffer

namespace TranscriptRam

def tlsTranscriptInit (r : TranscriptRam) : TranscriptRam :=
  let sha := sha256Init r.sha
  { r with
    sha := sha
    h0 := store r.h0 0 (bytesAt sha.h0 0 32)
    blockLen := 0
    totalLo := 0
    totalHi := 0 }

/-- `@block_full`. -/
def blockFull (r : TranscriptRam) : TranscriptRam :=
  let sha := Crypto.sha256ProcessBlock
    { r.sha with
      h0 := store r.sha.h0 0 (bytesAt r.h0 0 32)
      block := store r.sha.block 0 (bytesAt r.block 0 64) }
  { r with sha := sha, h0 := store r.h0 0 (bytesAt sha.h0 0 32), blockLen := 0 }

/-- `@copy_byte`, with the bytes that are left and X; a full block starts the next at 0. -/
def copyBytes : List UInt8 → Nat → TranscriptRam → TranscriptRam
  | [], x, r => { r with blockLen := x }
  | b :: bs, x, r =>
      let r := { r with block := Function.update r.block x b }
      if x + 1 = 64 then copyBytes bs 0 (blockFull r) else copyBytes bs (x + 1) r

def tlsTranscriptUpdate (r : TranscriptRam) (bs : List UInt8) : TranscriptRam :=
  let lo := adc r.totalLo (Word.lo bs.length) 0
  let hi := adc r.totalHi (Word.hi bs.length) lo.2
  let r := { r with totalLo := lo.1, totalHi := hi.1 }
  if bs = [] then r else copyBytes bs r.blockLen r

/-- `asl` of the low byte of the count and `rol` of the two above it. -/
def doubled (c : UInt8 × UInt8 × UInt8) : UInt8 × UInt8 × UInt8 :=
  let lo := rol c.2.2 0
  let mid := rol c.2.1 lo.2
  let hi := rol c.1 mid.2
  (hi.1, mid.1, lo.1)

/-- `@pad_fits`: the bit count goes to bytes 61 to 63 of the block. -/
def storeBitCount (lo hi : UInt8) (block : Buffer) : Buffer :=
  let c := doubled (doubled (doubled (0, hi, lo)))
  store block 61 [c.1, c.2.1, c.2.2]

def tlsTranscriptHash (r : TranscriptRam) : TranscriptRam :=
  let r := { r with save := store r.save 0 (bytesAt r.h0 0 32) }
  let sha := { r.sha with h0 := store r.sha.h0 0 (bytesAt r.h0 0 32) }
  let sha := { sha with block := store sha.block 0 (List.replicate 64 0) }
  let sha := { sha with block := store sha.block 0 (bytesAt r.block 0 r.blockLen) }
  let sha := { sha with block := Function.update sha.block r.blockLen 0x80 }
  let sha :=
    if r.blockLen < 56 then sha
    else
      let sha := Crypto.sha256ProcessBlock sha
      { sha with block := store sha.block 0 (List.replicate 64 0) }
  let sha := { sha with block := storeBitCount r.totalLo r.totalHi sha.block }
  let sha := sha256Final (Crypto.sha256ProcessBlock sha)
  { r with
    sha := sha
    transcript := store r.transcript 0 (bytesAt sha.hash 0 32)
    h0 := store r.h0 0 (bytesAt r.save 0 32) }

/-! ### The buffers hold the strings -/

structure Holds (t : Transcript) (r : TranscriptRam) : Prop where
  h0 : bytesAt r.h0 0 32 = t.h0
  block : bytesAt r.block 0 r.blockLen = t.block
  total : r.totalLo.toNat + 256 * r.totalHi.toNat = t.total

variable {t : Transcript} {r : TranscriptRam}

theorem Holds.length_block (h : Holds t r) : t.block.length = r.blockLen := by
  rw [← h.block, length_bytesAt]

theorem holds_init (r : TranscriptRam) :
    Holds (Tls.tlsTranscriptInit Sha256.fips) (tlsTranscriptInit r) where
  h0 := by
    refine (bytesAt_store_of_length _ _ (length_bytesAt _ _ _)).trans ?_
    show bytesAt (store r.sha.h0 0 sha256HInit) 0 32 = initial.bytes
    rw [← sha256HInit_bytes]
    exact bytesAt_store_self _ _ _
  block := rfl
  total := rfl

/-- The shadow after a full block. -/
theorem blockFull_h0 (r : TranscriptRam) : bytesAt (blockFull r).h0 0 32 =
    Sha256.fips.processBlock (bytesAt r.h0 0 32) (bytesAt r.block 0 64) := by
  unfold blockFull
  dsimp only
  rw [bytesAt_store_of_length _ _ (length_bytesAt _ _ _), bytes_sha256ProcessBlock]
  dsimp only
  rw [bytesAt_store_of_length _ _ (length_bytesAt _ _ _),
    bytesAt_store_of_length _ _ (length_bytesAt _ _ _)]

/-- The copy does with the buffers what the bytes do to the strings. -/
theorem copyBytes_holds (bs : List UInt8) : ∀ {x : Nat} {t : Transcript} {r : TranscriptRam},
    x < 64 → Holds t { r with blockLen := x } →
      Holds (bs.foldl (transcriptByte Sha256.fips) t) (copyBytes bs x r) := by
  induction bs with
  | nil =>
      intro x t r _ h
      exact h
  | cons b bs ih =>
      intro x t r hx h
      have hlen : t.block.length = x := h.length_block
      have hblock : bytesAt (Function.update r.block x b) 0 (x + 1) = t.block ++ [b] := by
        have happend := bytesAt_store_append r.block 0 x [b]
        rw [Nat.zero_add, List.length_singleton, ← update_eq_store] at happend
        rw [happend]
        exact congrArg (· ++ [b]) h.block
      have hgrown : (t.block ++ [b]).length = x + 1 := by
        rw [List.length_append, hlen, List.length_singleton]
      unfold copyBytes
      dsimp only
      rw [List.foldl_cons]
      unfold transcriptByte
      dsimp only
      rw [hgrown]
      by_cases hfull : x + 1 = 64
      · rw [if_pos hfull, if_pos hfull]
        refine ih (by decide) ⟨?_, rfl, h.total⟩
        show bytesAt (blockFull _).h0 0 32 = _
        rw [blockFull_h0, ← hblock, hfull]
        exact congrArg (Sha256.fips.processBlock · _) h.h0
      · rw [if_neg hfull, if_neg hfull]
        exact ih (by omega) ⟨h.h0, hblock, h.total⟩

theorem tlsTranscriptUpdate_holds (h : Holds t r) (hlen : r.blockLen < 64) {bs : List UInt8}
    (hbs : bs.length < 65536) :
    Holds (Tls.tlsTranscriptUpdate Sha256.fips t bs) (tlsTranscriptUpdate r bs) := by
  have htotal : (adc r.totalLo (Word.lo bs.length) 0).1.toNat + 256 *
      (adc r.totalHi (Word.hi bs.length) (adc r.totalLo (Word.lo bs.length) 0).2).1.toNat =
        (t.total + bs.length) % 65536 := by
    rw [← h.total]
    have hlo := r.totalLo.toNat_lt
    have hhi := r.totalHi.toNat_lt
    simp only [adc, Word.lo, Word.hi, UInt8.toNat_ofNat']
    omega
  unfold tlsTranscriptUpdate
  dsimp only
  by_cases hnil : bs = []
  · subst hnil
    rw [if_pos rfl]
    exact ⟨h.h0, h.block, htotal⟩
  · rw [if_neg hnil]
    have hcopy := copyBytes_holds bs (x := r.blockLen)
      (t := { t with total := (t.total + bs.length) % 65536 })
      (r := { r with
        totalLo := (adc r.totalLo (Word.lo bs.length) 0).1
        totalHi := (adc r.totalHi (Word.hi bs.length) (adc r.totalLo (Word.lo bs.length) 0).2).1 })
      hlen ⟨h.h0, h.block, htotal⟩
    rw [foldl_transcriptByte_withTotal] at hcopy
    exact hcopy

/-! ### A snapshot -/

/-- Three doublings of a 16-bit total. -/
theorem doubled_total (lo hi : UInt8) : doubled (doubled (doubled (0, hi, lo))) =
    (UInt8.ofNat ((lo.toNat + 256 * hi.toNat) * 8 / 65536),
      UInt8.ofNat ((lo.toNat + 256 * hi.toNat) * 8 / 256),
        UInt8.ofNat ((lo.toNat + 256 * hi.toNat) * 8)) := by
  have hlo := lo.toNat_lt
  have hhi := hi.toNat_lt
  have hzero : (0 : UInt8).toNat = 0 := rfl
  refine Prod.ext ?_ (Prod.ext ?_ ?_)
  · refine UInt8.toNat.inj ?_
    simp only [doubled, rol, UInt8.toNat_ofNat', hzero]
    omega
  · refine UInt8.toNat.inj ?_
    simp only [doubled, rol, UInt8.toNat_ofNat', hzero]
    omega
  · refine UInt8.toNat.inj ?_
    simp only [doubled, rol, UInt8.toNat_ofNat']
    omega

theorem bytesAt_storeBitCount (lo hi : UInt8) (block : Buffer) {body : List UInt8}
    (h : bytesAt block 0 61 = body) : bytesAt (storeBitCount lo hi block) 0 64 =
      body ++ [UInt8.ofNat ((lo.toNat + 256 * hi.toNat) * 8 / 65536),
        UInt8.ofNat ((lo.toNat + 256 * hi.toNat) * 8 / 256),
        UInt8.ofNat ((lo.toNat + 256 * hi.toNat) * 8)] := by
  unfold storeBitCount
  dsimp only
  rw [doubled_total, ← h]
  exact bytesAt_store_append block 0 61 _

/-- `tls_transcript_hash` leaves in `tls_transcript` the digest of the strings that are held. -/
theorem tlsTranscriptHash_transcript (h : Holds t r) (hlen : r.blockLen < 64) :
    bytesAt (tlsTranscriptHash r).transcript 0 32 = Tls.tlsTranscriptHash Sha256.fips t := by
  have hblock := h.length_block
  have hpart : bytesAt r.block 0 r.blockLen = t.block := h.block
  unfold tlsTranscriptHash Tls.tlsTranscriptHash
  dsimp only
  rw [bytesAt_store_of_length _ _ (length_bytesAt _ _ _)]
  unfold sha256Final
  dsimp only
  rw [bytesAt_store_of_length _ _ (length_bytesAt _ _ _), bytes_sha256ProcessBlock, hpart,
    ← hblock, h.total.symm]
  by_cases hfits : t.block.length < 56
  · have hfront := padded_block r.sha.block t.block (k := 61) (by omega) (by decide)
    rw [if_pos hfits, if_pos hfits]
    dsimp only
    rw [bytesAt_storeBitCount _ _ _ hfront, bytesAt_store_of_length _ _ (length_bytesAt _ _ _), h.h0]
    rfl
  · have hwhole := padded_block r.sha.block t.block (k := 64) (by omega) (le_refl 64)
    rw [if_neg hfits, if_neg hfits]
    dsimp only
    have hzeros : ∀ m : Buffer, bytesAt (store m 0 (List.replicate 64 0)) 0 61 =
        List.replicate 61 0 := by
      intro m
      have hall := @bytesAt_store_zeros m [] 61 64 (by decide) (by decide)
      rw [store_nil] at hall
      exact hall
    rw [bytesAt_storeBitCount _ _ _ (hzeros _), bytes_sha256ProcessBlock]
    dsimp only
    rw [hwhole, bytesAt_store_of_length _ _ (length_bytesAt _ _ _), h.h0]
    rfl

/-- The running state is the same: the shadow, the block in progress and the total. -/
structure SameRunning (r r' : TranscriptRam) : Prop where
  h0 : r'.h0 = r.h0
  block : r'.block = r.block
  blockLen : r'.blockLen = r.blockLen
  totalLo : r'.totalLo = r.totalLo
  totalHi : r'.totalHi = r.totalHi

theorem SameRunning.holds {r' : TranscriptRam} (h : SameRunning r r') (hr : Holds t r) :
    Holds t r' where
  h0 := by
    rw [h.h0]
    exact hr.h0
  block := by
    rw [h.block, h.blockLen]
    exact hr.block
  total := by
    rw [h.totalLo, h.totalHi]
    exact hr.total

/-- What a snapshot puts back is what was there. -/
theorem tlsTranscriptHash_running (r : TranscriptRam) : SameRunning r (tlsTranscriptHash r) := by
  refine ⟨?_, rfl, rfl, rfl, rfl⟩
  show store r.h0 0 (bytesAt (store r.save 0 (bytesAt r.h0 0 32)) 0 32) = r.h0
  rw [bytesAt_store_of_length _ _ (length_bytesAt _ _ _)]
  exact store_bytesAt r.h0 0 32

/-! ### Runs -/

/-- A call of the transcript, or another use of the registers of SHA-256. -/
inductive TranscriptOp where
  | update (bs : List UInt8)
  | hash
  | other (sha : Sha)

def transcriptStep (r : TranscriptRam) : TranscriptOp → TranscriptRam
  | .update bs => tlsTranscriptUpdate r bs
  | .hash => tlsTranscriptHash r
  | .other sha => { r with sha := sha }

/-- The chunks of the updates, one after the other. -/
def fed (ops : List TranscriptOp) : List UInt8 :=
  ops.flatMap fun op =>
    match op with
    | .update bs => bs
    | .hash => []
    | .other _ => []

/-- The buffers hold the running hash of `m`. -/
def Running (m : List UInt8) (r : TranscriptRam) : Prop :=
  ∃ t, Fed m t ∧ Holds t r

theorem Running.blockLen_lt {m : List UInt8} (h : Running m r) : r.blockLen < 64 := by
  obtain ⟨t, hfed, hholds⟩ := h
  rw [← hholds.length_block, hfed.block, length_remainder]
  exact Nat.mod_lt _ (by decide)

theorem running_init (r : TranscriptRam) : Running [] (tlsTranscriptInit r) :=
  ⟨_, fed_init, holds_init r⟩

theorem Running.step {m : List UInt8} (h : Running m r) {op : TranscriptOp}
    (hlen : (fed [op]).length < 65536) : Running (m ++ fed [op]) (transcriptStep r op) := by
  have hlt := h.blockLen_lt
  obtain ⟨t, hfed, hholds⟩ := h
  cases op with
  | update bs =>
      have hbs : fed [.update bs] = bs := List.append_nil bs
      rw [hbs] at hlen ⊢
      exact ⟨_, hfed.update bs, tlsTranscriptUpdate_holds hholds hlt hlen⟩
  | hash =>
      have hkept : Holds t (tlsTranscriptHash r) := (tlsTranscriptHash_running r).holds hholds
      have hnil : m ++ fed [.hash] = m := List.append_nil m
      rw [hnil]
      exact ⟨t, hfed, hkept⟩
  | other sha =>
      have hnil : m ++ fed [.other sha] = m := List.append_nil m
      rw [hnil]
      exact ⟨t, hfed, ⟨hholds.h0, hholds.block, hholds.total⟩⟩

theorem Running.run (ops : List TranscriptOp) : ∀ {m : List UInt8} {r : TranscriptRam},
    Running m r → (fed ops).length < 65536 → Running (m ++ fed ops) (ops.foldl transcriptStep r) := by
  induction ops with
  | nil =>
      intro m r h _
      have hnil : m ++ fed [] = m := List.append_nil m
      rw [hnil]
      exact h
  | cons op ops ih =>
      intro m r h hlen
      have hcons : fed (op :: ops) = fed [op] ++ fed ops := by
        unfold fed
        rw [List.flatMap_cons, List.flatMap_cons, List.flatMap_nil, List.append_nil]
      rw [hcons, List.length_append] at hlen
      rw [hcons, ← List.append_assoc]
      exact ih (h.step (by omega)) (by omega)

theorem Running.snapshot {m : List UInt8} (h : Running m r) (hlen : m.length < 65536) :
    bytesAt (tlsTranscriptHash r).transcript 0 32 = sha256 m := by
  have hlt := h.blockLen_lt
  obtain ⟨t, hfed, hholds⟩ := h
  rw [tlsTranscriptHash_transcript hholds hlt, hfed.hash hlen]

/-- Every snapshot is the digest of all chunks so far, and leaves what is running as it was. -/
theorem tlsTranscript_snapshot (r r' : TranscriptRam) (ops : List TranscriptOp)
    (hr : r' = ops.foldl transcriptStep (tlsTranscriptInit r)) (h : (fed ops).length ≤ 65535) :
    bytesAt (tlsTranscriptHash r').transcript 0 32 = sha256 (fed ops) ∧
      SameRunning r' (tlsTranscriptHash r') := by
  have hrun := (running_init r).run ops (Nat.lt_succ_of_le h)
  rw [List.nil_append, ← hr] at hrun
  exact ⟨hrun.snapshot (Nat.lt_succ_of_le h), tlsTranscriptHash_running r'⟩

/-- Buffers to start from. -/
def blank : TranscriptRam where
  sha :=
    { h0 := fun _ => 0, vars := fun _ => 0, w := fun _ => 0, block := fun _ => 0
      hash := fun _ => 0, temp1 := default, temp2 := default, temp3 := default, t1 := default
      t2 := default }
  transcript := fun _ => 0
  h0 := fun _ => 0
  block := fun _ => 0
  blockLen := 0
  totalLo := 0
  totalHi := 0
  save := fun _ => 0

theorem tlsTranscript_snapshot_sample :
    bytesAt (tlsTranscriptHash
        ([.update [0x61], .hash, .update [0x62, 0x63]].foldl transcriptStep (tlsTranscriptInit blank))).transcript
          0 32 = sha256 [0x61, 0x62, 0x63] :=
  (tlsTranscript_snapshot blank _ [.update [0x61], .hash, .update [0x62, 0x63]] rfl (by decide)).1

end TranscriptRam

end Tls
end C64Https
