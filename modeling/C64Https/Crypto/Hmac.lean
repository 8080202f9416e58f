import C64Https.Crypto.Sha256
import C64Https.Lib.Hkdf

/-!
# Hmac — HMAC-SHA256 (`src/crypto/hmac_drbg.s`)

`hmac_sha256` takes a key of 32 bytes and a message of at most 97 in a buffer of its own.  It builds
the padded blocks of the inner and the outer hash by hand, with a path for each number of blocks, and
leaves the MAC in `hmac_result` (`hmacSha256_result`).
-/

namespace C64Https
namespace Crypto

open Bytes Word32 Fips180

/-! ## The routine -/

structure HmacRam where
  sha : Sha
  /-- `hmac_key` -/
  key : Buffer
  /-- `hmac_opad_block` -/
  opadBlock : Buffer
  /-- `hmac_data_buf` -/
  dataBuf : Buffer
  /-- `hmac_data_len` -/
  dataLen : UInt8
  /-- `hmac_result` -/
  result : Buffer

/-- The key under a byte, and that byte in the other half of the block. -/
def hmacPad (key : Buffer) (c : UInt8) : List UInt8 :=
  (bytesAt key 0 32).map (· ^^^ c) ++ List.replicate 32 c

/-- `@clear_inner`, and the loops like it. -/
def clearBlock (s : Sha) : Sha :=
  { s with block := store s.block 0 (List.replicate 64 0) }

/-- `asl sha256_block+63`, `rol sha256_block+62`. -/
def twice (c : UInt8 × UInt8) : UInt8 × UInt8 :=
  let lo := rol c.2 0
  let hi := rol c.1 lo.2
  (hi.1, lo.1)

/-- The number of bits of the padded key and the message. -/
def hmacBitCount (len : UInt8) (block : Buffer) : Buffer :=
  let c := twice (twice (twice (0, len)))
  let mid := adc c.1 0x02 0
  let top := adc 0 (block 61) mid.2
  store block 61 [top.1, mid.1, c.2]

/-- From `@copy_inner` to `@inner_done`. -/
def hmacInner (data : Buffer) (len : UInt8) (s : Sha) : Sha :=
  let n := len.toNat
  if n < 64 then
    let s := { s with block := Function.update (store s.block 0 (bytesAt data 0 n)) n 0x80 }
    if n < 56 then
      sha256ProcessBlock { s with block := hmacBitCount len s.block }
    else
      let s := clearBlock (sha256ProcessBlock s)
      sha256ProcessBlock { s with block := hmacBitCount len s.block }
  else
    let s := clearBlock (sha256ProcessBlock { s with block := store s.block 0 (bytesAt data 0 64) })
    let s := { s with
      block := Function.update (store s.block 0 (bytesAt data 64 (n - 64))) (n - 64) 0x80 }
    sha256ProcessBlock { s with block := hmacBitCount len s.block }

/-- The hash of the inner hash value in `hmac_result`, from `@clear_outer` on. -/
def hmacOuter (inner : Buffer) (s : Sha) : Sha :=
  let s := clearBlock s
  let s := { s with block := store s.block 0 (bytesAt inner 0 32) }
  let s := { s with block := Function.update s.block 32 0x80 }
  let s := { s with block := Function.update s.block 62 0x03 }
  sha256ProcessBlock { s with block := Function.update s.block 63 0x00 }

def hmacSha256 (m : HmacRam) : HmacRam :=
  let sha := { m.sha with block := store m.sha.block 0 (hmacPad m.key 0x36) }
  let m := { m with opadBlock := store m.opadBlock 0 (hmacPad m.key 0x5c) }
  let sha := clearBlock (sha256ProcessBlock (sha256Init sha))
  let sha := sha256Final (hmacInner m.dataBuf m.dataLen sha)
  let m := { m with result := store m.result 0 (bytesAt sha.hash 0 32) }
  let sha := { sha with block := store sha.block 0 (bytesAt m.opadBlock 0 64) }
  let sha := sha256ProcessBlock (sha256Init sha)
  let sha := sha256Final (hmacOuter m.result sha)
  { m with sha := sha, result := store m.result 0 (bytesAt sha.hash 0 32) }

/-! ## Blocks -/

section Blocks

/-- A block in the registers, compressed. -/
theorem chainAt_process {s : Sha} {block : List UInt8} (h : bytesAt s.block 0 64 = block) :
    chainAt (sha256ProcessBlock s).h0 = compressBlock (chainAt s.h0) block := by
  rw [chainAt_sha256ProcessBlock, compress_blockWords _ h]

theorem bytes_sha256Final (s : Sha) :
    bytesAt (sha256Final s).hash 0 32 = (chainAt s.h0).bytes := by
  rw [bytes_chainAt]
  exact bytesAt_store_of_length _ _ (length_bytesAt _ _ _)

/-- A block is whole, or its length is that of the buffer. -/
theorem bytesAt_store_block (m : Buffer) {bs : List UInt8} (h : bs.length = 64) :
    bytesAt (store m 0 bs) 0 64 = bs :=
  bytesAt_store_of_length m 0 h

theorem length_hmacPad (key : Buffer) (c : UInt8) : (hmacPad key c).length = 64 := by
  unfold hmacPad
  rw [List.length_append, List.length_map, length_bytesAt, List.length_replicate]

/-- Three doublings of the length, and the bits of the block in front. -/
theorem twice_count (len : UInt8) : (twice (twice (twice (0, len)))).1.toNat * 256 +
    (twice (twice (twice (0, len)))).2.toNat = len.toNat * 8 := by
  have hlen := len.toNat_lt
  have hzero : (0 : UInt8).toNat = 0 := rfl
  simp only [twice, rol, UInt8.toNat_ofNat', hzero]
  omega

theorem bytesAt_hmacBitCount (len : UInt8) {block : Buffer} {body : List UInt8}
    (hbody : bytesAt block 0 61 = body) (hclear : block 61 = 0) :
    bytesAt (hmacBitCount len block) 0 64 =
      body ++ bitCount (64 + len.toNat) := by
  have hcount := twice_count len
  have hlen := len.toNat_lt
  have hlo := (twice (twice (twice (0, len)))).2.toNat_lt
  have hzero : (0 : UInt8).toNat = 0 := rfl
  have htwo : (0x02 : UInt8).toNat = 2 := rfl
  have hbytes : (adc 0 (block 61) (adc (twice (twice (twice (0, len)))).1 0x02 0).2).1 =
        UInt8.ofNat ((64 + len.toNat) * 8 / 65536) ∧
      (adc (twice (twice (twice (0, len)))).1 0x02 0).1 = UInt8.ofNat ((64 + len.toNat) * 8 / 256) ∧
        (twice (twice (twice (0, len)))).2 = UInt8.ofNat ((64 + len.toNat) * 8) := by
    refine ⟨UInt8.toNat.inj ?_, UInt8.toNat.inj ?_, UInt8.toNat.inj ?_⟩
    · simp only [adc, hclear, UInt8.toNat_ofNat', hzero, htwo]
      omega
    · simp only [adc, UInt8.toNat_ofNat', htwo]
      omega
    · simp only [UInt8.toNat_ofNat']
      omega
  unfold hmacBitCount bitCount
  dsimp only
  rw [hbytes.1, hbytes.2.1, hbytes.2.2, ← hbody]
  exact bytesAt_store_append block 0 61 _

/-- The padded end of a message, in a block that was cleared. -/
theorem hmacBitCount_padded (b : Buffer) (text : List UInt8) (len : UInt8)
    (hfits : text.length < 56) :
    bytesAt (hmacBitCount len
      (Function.update (store (store b 0 (List.replicate 64 0)) 0 text) text.length 0x80)) 0 64 =
        text ++ [0x80] ++ List.replicate (61 - (text ++ [(0x80 : UInt8)]).length) 0 ++
          bitCount (64 + len.toNat) := by
  have hwhole := padded_block b text (k := 64) (by omega) (le_refl 64)
  have hclear : Function.update (store (store b 0 (List.replicate 64 0)) 0 text) text.length 0x80
      61 = 0 := by
    rw [Function.update_of_ne (by omega), store_of_outside _ (Or.inr (by omega))]
    rfl
  exact bytesAt_hmacBitCount len (padded_block b text (by omega) (by decide)) hclear

/-- A block of zeros, with the count at its end. -/
theorem hmacBitCount_zeros (b : Buffer) (len : UInt8) :
    bytesAt (hmacBitCount len (store b 0 (List.replicate 64 0))) 0 64 =
      List.replicate 61 0 ++ bitCount (64 + len.toNat) := by
  have hzeros := @bytesAt_store_zeros b [] 61 64 (by decide) (by decide)
  rw [store_nil] at hzeros
  exact bytesAt_hmacBitCount len hzeros rfl

end Blocks

/-! ## The two hashes -/

section Hashes

variable {data : Buffer} {len : UInt8} {s : Sha} {b : Buffer}

/-- The inner hash goes over the message and the padding of the whole. -/
theorem chainAt_hmacInner (hs : s.block = store b 0 (List.replicate 64 0))
    (hlen : len.toNat ≤ 119) : chainAt (hmacInner data len s).h0 =
      foldBlocks compressBlock (chainAt s.h0)
        (bytesAt data 0 len.toNat ++ padding (64 + len.toNat)) := by
  have hcount : 64 + len.toNat < 65536 := by
    omega
  unfold hmacInner
  dsimp only
  split
  · rename_i hlt
    have htext : (bytesAt data 0 len.toNat).length = (64 + len.toNat) % 64 := by
      rw [length_bytesAt]
      omega
    split
    · -- one block
      rename_i hfits
      have hfits' : (bytesAt data 0 len.toNat).length < 56 := by
        rwa [length_bytesAt]
      have hblock := hmacBitCount_padded b (bytesAt data 0 len.toNat) len hfits'
      rw [length_bytesAt] at hblock
      rw [append_padding_of_fits hcount htext hfits', foldBlocks_single _
        (length_paddedBlock _ hfits'), hs]
      exact chainAt_process hblock
    · -- the count in a second block
      rename_i hfits
      have hfits' : ¬ (bytesAt data 0 len.toNat).length < 56 := by
        rwa [length_bytesAt]
      have hlt' : (bytesAt data 0 len.toNat).length < 64 := by
        rwa [length_bytesAt]
      have hfirst := padded_block b (bytesAt data 0 len.toNat) (k := 64) hlt' (le_refl 64)
      rw [length_bytesAt] at hfirst
      have hlast : (List.replicate 61 0 ++ bitCount (64 + len.toNat)).length = 64 := rfl
      rw [append_padding_of_not_fits hcount htext hfits', foldBlocks_block _ _
        (length_filledBlock hlt'), foldBlocks_single _ hlast, hs]
      have hnext := chainAt_process
        (s := { s with
          block :=
            Function.update (store (store b 0 (List.replicate 64 0)) 0 (bytesAt data 0 len.toNat))
              len.toNat 0x80 })
        hfirst
      rw [← hnext]
      exact chainAt_process (hmacBitCount_zeros _ len)
  · -- a whole block of the message first
    rename_i hge
    have hsplit : bytesAt data 0 len.toNat =
        bytesAt data 0 64 ++ bytesAt data 64 (len.toNat - 64) := by
      have hadd := bytesAt_add data 0 64 (len.toNat - 64)
      rw [Nat.add_sub_cancel' (Nat.le_of_not_lt hge), Nat.zero_add] at hadd
      exact hadd
    have htext : (bytesAt data 64 (len.toNat - 64)).length = (64 + len.toNat) % 64 := by
      rw [length_bytesAt]
      omega
    have hfits : (bytesAt data 64 (len.toNat - 64)).length < 56 := by
      rw [length_bytesAt]
      omega
    have hsecond := hmacBitCount_padded
      (sha256ProcessBlock { s with block := store s.block 0 (bytesAt data 0 64) }).block
      (bytesAt data 64 (len.toNat - 64)) len hfits
    rw [length_bytesAt] at hsecond
    rw [hsplit, List.append_assoc, foldBlocks_block _ _ (length_bytesAt _ _ _),
      append_padding_of_fits hcount htext hfits, foldBlocks_single _ (length_paddedBlock _ hfits)]
    have hnext := chainAt_process (s := { s with block := store s.block 0 (bytesAt data 0 64) })
      (bytesAt_store_block _ (length_bytesAt _ _ _))
    rw [← hnext]
    exact chainAt_process hsecond

/-- The block of the outer hash: the inner hash value, and the count written out. -/
theorem outer_block (b : Buffer) {text : List UInt8} (h : text.length = 32) :
    bytesAt (Function.update (Function.update (Function.update
      (store (store b 0 (List.replicate 64 0)) 0 text) 32 0x80) 62 0x03) 63 0x00) 0 64 =
        text ++ [0x80] ++ List.replicate (61 - (text ++ [(0x80 : UInt8)]).length) 0 ++
          bitCount 96 := by
  have hfront := padded_block b text (k := 62) (by omega) (by decide)
  rw [h] at hfront
  have hcount := store_store (Function.update (store (store b 0 (List.replicate 64 0)) 0 text) 32
    0x80) 62 [0x03] [0x00]
  have hlength : (text ++ [(0x80 : UInt8)]).length = 33 := by
    rw [List.length_append, h, List.length_singleton]
  rw [update_eq_store _ 62, update_eq_store _ 63]
  refine (congrArg (bytesAt · 0 64) hcount).trans ?_
  refine (bytesAt_store_append _ 0 62 [0x03, 0x00]).trans ?_
  rw [hfront, hlength, List.append_assoc, List.append_assoc (text ++ [0x80])]
  rfl

/-- The outer hash goes over the inner one. -/
theorem chainAt_hmacOuter (inner : Buffer) (s : Sha) : chainAt (hmacOuter inner s).h0 =
    foldBlocks compressBlock (chainAt s.h0) (bytesAt inner 0 32 ++ padding (64 + 32)) := by
  have hlen : (bytesAt inner 0 32).length = 32 := length_bytesAt _ _ _
  have hfits : (bytesAt inner 0 32).length < 56 := by
    omega
  rw [append_padding_of_fits (by decide) hlen hfits, foldBlocks_single _ (length_paddedBlock _ hfits)]
  exact chainAt_process (outer_block s.block hlen)

/-- `hmac_sha256` computes the MAC of the message under the key. -/
theorem bytes_hmacSha256 (m : HmacRam) (hlen : m.dataLen.toNat ≤ 119) :
    bytesAt (hmacSha256 m).result 0 32 =
      Hkdf.hmac sha256 (bytesAt m.key 0 32) (bytesAt m.dataBuf 0 m.dataLen.toNat) := by
  have hkey : (bytesAt m.key 0 32).length ≤ 64 := by
    rw [length_bytesAt]
    decide
  have hpad : ∀ c, (Hkdf.blockKey sha256 (bytesAt m.key 0 32)).map (· ^^^ c) = hmacPad m.key c := by
    intro c
    rw [Hkdf.map_blockKey hkey, length_bytesAt]
    rfl
  unfold Hkdf.hmac
  have hinit : ∀ s : Sha, chainAt (clearBlock (sha256ProcessBlock
      (sha256Init { s with block := store s.block 0 (hmacPad m.key 0x36) }))).h0 =
        compressBlock initial (hmacPad m.key 0x36) := by
    intro s
    refine (chainAt_process (bytesAt_store_block _ (length_hmacPad m.key 0x36))).trans ?_
    rw [chainAt_sha256Init]
  have houter : ∀ s : Sha, chainAt (sha256ProcessBlock (sha256Init { s with
      block := store s.block 0 (bytesAt (store m.opadBlock 0 (hmacPad m.key 0x5c)) 0 64) })).h0 =
        compressBlock initial (hmacPad m.key 0x5c) := by
    intro s
    rw [bytesAt_store_block m.opadBlock (length_hmacPad m.key 0x5c)]
    refine (chainAt_process (bytesAt_store_block _ (length_hmacPad m.key 0x5c))).trans ?_
    rw [chainAt_sha256Init]
  have hinner : bytesAt (sha256Final (hmacInner m.dataBuf m.dataLen (clearBlock (sha256ProcessBlock
      (sha256Init { m.sha with block := store m.sha.block 0 (hmacPad m.key 0x36) }))))).hash 0 32 =
        sha256 (hmacPad m.key 0x36 ++ bytesAt m.dataBuf 0 m.dataLen.toNat) := by
    rw [bytes_sha256Final, chainAt_hmacInner rfl hlen, hinit,
      sha256_block_append (length_hmacPad m.key 0x36), length_bytesAt]
  rw [hpad, hpad, sha256_block_append (length_hmacPad m.key 0x5c), length_sha256, ← hinner]
  unfold hmacSha256
  dsimp only
  rw [bytesAt_store_of_length _ _ (length_bytesAt _ _ _), bytes_sha256Final, chainAt_hmacOuter,
    bytesAt_store_of_length _ _ (length_bytesAt _ _ _), houter]

end Hashes

end Crypto
end C64Https
