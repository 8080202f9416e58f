import C64Https.Lib.Bytes

/-!
# Transcript — the streaming transcript hash (`src/tls_transcript.s`)

The running hash keeps the chaining state of every full 64-byte block, the bytes of the block in
progress and a 16-bit count of all bytes.  `tls_transcript_hash` pads a *copy* of the block in
progress, so a snapshot leaves the running state alone.

The block function of SHA-256 is a parameter (`Sha256`): the routines here only move bytes.
-/

namespace C64Https
namespace Tls

open Bytes

/-- `sha256_init`, `sha256_process_block` and `sha256_final`, over the chaining state. -/
structure Sha256 where
  init : List UInt8
  processBlock : List UInt8 → List UInt8 → List UInt8
  final : List UInt8 → List UInt8

/-- `tls_transcript_h0`, the used part of `tls_transcript_block`, `tls_transcript_total`. -/
structure Transcript where
  h0 : List UInt8
  block : List UInt8
  total : Nat
  deriving DecidableEq, Repr

variable (sha : Sha256)

def tlsTranscriptInit : Transcript :=
  { h0 := sha.init, block := [], total := 0 }

/-- One turn of `@copy_byte`: append the byte, and process the block when it is full. -/
def transcriptByte (t : Transcript) (b : UInt8) : Transcript :=
  let block := t.block ++ [b]
  if block.length = 64 then
    { t with h0 := sha.processBlock t.h0 block, block := [] }
  else
    { t with block := block }

def tlsTranscriptUpdate (t : Transcript) (bs : List UInt8) : Transcript :=
  { bs.foldl (transcriptByte sha) t with total := (t.total + bs.length) % 65536 }

/-- The last block: zeros, with the bit count `total * 8` in its last three bytes. -/
def lengthBlock (body : List UInt8) (total : Nat) : List UInt8 :=
  body ++ List.replicate (61 - body.length) 0 ++
    [UInt8.ofNat (total * 8 / 65536), UInt8.ofNat (total * 8 / 256), UInt8.ofNat (total * 8)]

/-- `tls_transcript_hash`: the digest of the bytes fed so far. -/
def tlsTranscriptHash (t : Transcript) : List UInt8 :=
  let padded := t.block ++ [0x80]
  if t.block.length < 56 then
    sha.final (sha.processBlock t.h0 (lengthBlock padded t.total))
  else
    let h := sha.processBlock t.h0 (padded ++ List.replicate (64 - padded.length) 0)
    sha.final (sha.processBlock h (lengthBlock [] t.total))

/-- The total is not read while bytes are absorbed. -/
theorem foldl_transcriptByte_withTotal (bs : List UInt8) (n : Nat) :
    ∀ t : Transcript, bs.foldl (transcriptByte sha) { t with total := n } =
      { bs.foldl (transcriptByte sha) t with total := n } := by
  induction bs with
  | nil =>
      intro t
      rfl
  | cons b bs ih =>
      intro t
      have hb : transcriptByte sha { t with total := n } b =
          { transcriptByte sha t b with total := n } := by
        unfold transcriptByte
        dsimp only
        split <;> rfl
      rw [List.foldl_cons, List.foldl_cons, hb, ih]

/-- The split of the input into calls does not matter. -/
theorem tlsTranscriptUpdate_append (t : Transcript) (bs cs : List UInt8) :
    tlsTranscriptUpdate sha t (bs ++ cs) =
      tlsTranscriptUpdate sha (tlsTranscriptUpdate sha t bs) cs := by
  unfold tlsTranscriptUpdate
  rw [foldl_transcriptByte_withTotal sha cs _ (bs.foldl (transcriptByte sha) t)]
  simp [List.foldl_append, Nat.add_assoc]

@[simp] theorem tlsTranscriptUpdate_total (t : Transcript) (bs : List UInt8) :
    (tlsTranscriptUpdate sha t bs).total = (t.total + bs.length) % 65536 := rfl

end Tls
end C64Https
