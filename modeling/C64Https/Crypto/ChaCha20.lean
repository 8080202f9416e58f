import C64Https.Lib.Loop
import C64Https.Lib.Rfc8439
import C64Https.Lib.Word

/-!
# ChaCha20 — the stream cipher (`src/crypto/chacha20.s`, `src/crypto/word32.s`)

The state and the work buffer are 64 bytes each, words with the lowest byte first, and the helpers of
`word32.s` work on the word behind a pointer.  A rotation by twelve is one by a byte and one by a
nibble, a rotation by seven one by a byte and one bit back.

The text lies anywhere in memory, apart from the buffers of the cipher; its pointer and its length
have 16 bits.
-/

namespace C64Https
namespace Crypto
namespace ChaCha20

open Bytes Word32 Word Loop

/-! ## `word32.s`: the word at `w32_dst` -/

def add32ToDst (m : Buffer) (dst : Nat) (src : Buffer) (addr : Nat) : Buffer :=
  storeLE m dst ((loadLE m dst).add (loadLE src addr))

def xor32InPlace (m : Buffer) (dst src : Nat) : Buffer :=
  storeLE m dst ((loadLE m dst).xor (loadLE m src))

def rotr32_16 (m : Buffer) (dst : Nat) : Buffer :=
  storeLE m dst (loadLE m dst).rotr16

def rotl32_8 (m : Buffer) (dst : Nat) : Buffer :=
  storeLE m dst (loadLE m dst).rotl8

def rotl32_4 (m : Buffer) (dst : Nat) : Buffer :=
  storeLE m dst (loadLE m dst).rotl4

def rotl32_12 (m : Buffer) (dst : Nat) : Buffer :=
  rotl32_4 (rotl32_8 m dst) dst

def rotr32_1 (m : Buffer) (dst : Nat) : Buffer :=
  storeLE m dst (loadLE m dst).rotr1

def rotl32_7 (m : Buffer) (dst : Nat) : Buffer :=
  rotr32_1 (rotl32_8 m dst) dst

/-! ## The block function -/

structure ChaCha where
  key : Buffer
  nonce : Buffer
  counter : Buffer
  state : Buffer
  work : Buffer
  keystream : Buffer
  /-- `cc20_data_ptr` -/
  dataPtr : Nat
  /-- `cc20_remain` and `cc20_remain_hi` -/
  remain : UInt8
  remainHi : UInt8
  /-- `cc20_buf_pos` -/
  bufPos : UInt8
  /-- the memory that the text is in -/
  mem : Buffer

def cc20Constants : List UInt8 :=
  [ 0x65, 0x78, 0x70, 0x61, 0x6e, 0x64, 0x20, 0x33, 0x32, 0x2d, 0x62, 0x79, 0x74, 0x65, 0x20, 0x6b ]

/-- An entry of `cc20_qr_table`. -/
structure QrEntry where
  a : Fin 16
  b : Fin 16
  c : Fin 16
  d : Fin 16
  deriving DecidableEq, Repr

def cc20QrTable : List QrEntry :=
  [ ⟨0, 4, 8, 12⟩, ⟨1, 5, 9, 13⟩, ⟨2, 6, 10, 14⟩, ⟨3, 7, 11, 15⟩,
    ⟨0, 5, 10, 15⟩, ⟨1, 6, 11, 12⟩, ⟨2, 7, 8, 13⟩, ⟨3, 4, 9, 14⟩ ]

def chacha20Init (c : ChaCha) : ChaCha :=
  let state := store c.state 0 cc20Constants
  let state := store state 16 (bytesAt c.key 0 32)
  let state := store state 48 (bytesAt c.counter 0 4)
  { c with state := store state 52 (bytesAt c.nonce 0 12) }

/-- One step of a quarter round: `x += y`, then `z ^= x`. -/
def addXor (w : Buffer) (x y z : Fin 16) : Buffer :=
  xor32InPlace (add32ToDst w (4 * x) w (4 * y)) (4 * z) (4 * x)

def chacha20QuarterRound (w : Buffer) (e : QrEntry) : Buffer :=
  let w := rotr32_16 (addXor w e.a e.b e.d) (4 * e.d)
  let w := rotl32_12 (addXor w e.c e.d e.b) (4 * e.b)
  let w := rotl32_8 (addXor w e.a e.b e.d) (4 * e.d)
  rotl32_7 (addXor w e.c e.d e.b) (4 * e.b)

/-- `@qr_loop`. -/
def doubleRound (w : Buffer) : Buffer :=
  cc20QrTable.foldl chacha20QuarterRound w

/-- `@add_state`. -/
def addState (state w : Buffer) : Buffer :=
  (List.range 16).foldl (fun w x => add32ToDst w (4 * x) state (4 * x)) w

/-- `inc cc20_state+48`, and the three behind it while the byte before has wrapped. -/
def incCounter (state : Buffer) : Buffer :=
  let s0 := Function.update state 48 (state 48 + 1)
  if s0 48 ≠ 0 then s0
  else
    let s1 := Function.update s0 49 (s0 49 + 1)
    if s1 49 ≠ 0 then s1
    else
      let s2 := Function.update s1 50 (s1 50 + 1)
      if s2 50 ≠ 0 then s2 else Function.update s2 51 (s2 51 + 1)

def chacha20Block (c : ChaCha) : ChaCha :=
  let work := addState c.state (doubleRound^[10] (store c.work 0 (bytesAt c.state 0 64)))
  { c with
    work := work
    keystream := store c.keystream 0 (bytesAt work 0 64)
    state := incCounter c.state }

/-! ## The stream -/

/-- `@xor_loop`, with `x` bytes to go from Y on. -/
def xorLoop (ptr : Nat) (keystream : Buffer) : Nat → Nat → Buffer → Buffer
  | 0, _, mem => mem
  | x + 1, y, mem =>
      xorLoop ptr keystream x (y + 1)
        (Function.update mem (add16 ptr y) (mem (add16 ptr y) ^^^ keystream y))

/-- How much of a block is used: `@full` or `@partial`. -/
def blockBytes (c : ChaCha) : UInt8 :=
  if c.remainHi ≠ 0 then 64 else if c.remain < 64 then c.remain else 64

/-- `@next_block`, up to the test. -/
def nextBlock (c : ChaCha) : ChaCha :=
  let c := chacha20Block c
  let pos := blockBytes c
  { c with
    bufPos := pos
    mem := xorLoop c.dataPtr c.keystream pos.toNat 0 c.mem
    dataPtr := add16 c.dataPtr pos.toNat
    remain := c.remain - pos
    remainHi := if c.remain < pos then c.remainHi - 1 else c.remainHi }

def blockTurn (c : ChaCha) : Turn ChaCha ChaCha :=
  let c := nextBlock c
  if c.remain ||| c.remainHi ≠ 0 then .again c else .leave c

/-- `chacha20_encrypt`; a length has at most 1024 blocks. -/
def chacha20Encrypt (c : ChaCha) : Option ChaCha :=
  if c.remain ||| c.remainHi = 0 then some c else loop blockTurn 1024 c

/-! ## The words of a buffer -/

section Words

/-- The sixteen words. -/
def words (m : Buffer) : Rfc8439.State :=
  Vector.ofFn fun i => (loadLE m (4 * i)).word

@[simp] theorem getElem_words (m : Buffer) (i : Fin 16) : (words m)[i] = (loadLE m (4 * i)).word := by
  simp [words]

/-- A word that is stored is one element. -/
theorem words_storeLE (m : Buffer) (i : Fin 16) (q : Quad) :
    words (storeLE m (4 * i) q) = (words m).set i q.word := by
  refine Vector.ext fun j hj => ?_
  rw [Vector.getElem_set]
  unfold words
  rw [Vector.getElem_ofFn, Vector.getElem_ofFn]
  dsimp only
  split
  · rename_i heq
    rw [heq, loadLE_storeLE]
  · rename_i hne
    rw [loadLE_storeLE_of_disjoint _ _ (by omega)]

theorem words_add32 (m src : Buffer) (i : Fin 16) (off : Nat) :
    words (add32ToDst m (4 * i) src off) =
      (words m).set i ((words m)[i] + (loadLE src off).word) := by
  unfold add32ToDst
  rw [words_storeLE, Quad.word_add, getElem_words]

theorem words_xor32 (m : Buffer) (i j : Fin 16) :
    words (xor32InPlace m (4 * i) (4 * j)) = (words m).set i ((words m)[i] ^^^ (words m)[j]) := by
  unfold xor32InPlace
  rw [words_storeLE, Quad.word_xor, getElem_words, getElem_words]

theorem words_rotr32_16 (m : Buffer) (i : Fin 16) :
    words (rotr32_16 m (4 * i)) = (words m).set i ((words m)[i].rotateLeft 16) := by
  unfold rotr32_16
  rw [words_storeLE, Quad.word_rotr16, Quad.rotateLeft_eq_rotateRight _ (by decide), getElem_words]

theorem words_rotl32_8 (m : Buffer) (i : Fin 16) :
    words (rotl32_8 m (4 * i)) = (words m).set i ((words m)[i].rotateLeft 8) := by
  unfold rotl32_8
  rw [words_storeLE, Quad.word_rotl8, Quad.rotateLeft_eq_rotateRight _ (by decide), getElem_words]

/-- Two stores at one place are one. -/
theorem storeLE_storeLE (m : Buffer) (off : Nat) (p q : Quad) :
    storeLE (storeLE m off p) off q = storeLE m off q :=
  store_overwrite m off rfl

theorem words_rotl32_12 (m : Buffer) (i : Fin 16) :
    words (rotl32_12 m (4 * i)) = (words m).set i ((words m)[i].rotateLeft 12) := by
  unfold rotl32_12 rotl32_4 rotl32_8
  rw [loadLE_storeLE, storeLE_storeLE, words_storeLE, Quad.word_rotl4, Quad.word_rotl8,
    Quad.rotateRight_rotateRight, Quad.rotateLeft_eq_rotateRight _ (by decide), getElem_words]

theorem words_rotl32_7 (m : Buffer) (i : Fin 16) :
    words (rotl32_7 m (4 * i)) = (words m).set i ((words m)[i].rotateLeft 7) := by
  unfold rotl32_7 rotr32_1 rotl32_8
  rw [loadLE_storeLE, storeLE_storeLE, words_storeLE, Quad.word_rotr1, Quad.word_rotl8,
    Quad.rotateRight_rotateRight, Quad.rotateLeft_eq_rotateRight _ (by decide), getElem_words]

/-- The four places are apart. -/
def QrEntry.Apart (e : QrEntry) : Prop :=
  e.a ≠ e.b ∧ e.a ≠ e.c ∧ e.a ≠ e.d ∧ e.b ≠ e.c ∧ e.b ≠ e.d ∧ e.c ≠ e.d

theorem words_addXor (m : Buffer) {x y z : Fin 16} (hxz : x ≠ z) :
    words (addXor m x y z) = ((words m).set x ((words m)[x] + (words m)[y])).set z
      ((words m)[z] ^^^ ((words m)[x] + (words m)[y])) := by
  have hx : x.val ≠ z.val := fun h => hxz (Fin.ext h)
  unfold addXor
  rw [words_xor32, words_add32, ← getElem_words]
  simp [hx]

/-- A state with four words of a quarter round in their places. -/
def put (s : Rfc8439.State) (e : QrEntry) (a b c d : BitVec 32) : Rfc8439.State :=
  (((s.set e.a a).set e.b b).set e.c c).set e.d d

section Put

variable {s : Rfc8439.State} {e : QrEntry} {a b c d : BitVec 32}

theorem QrEntry.Apart.vals (h : e.Apart) : e.a.val ≠ e.b.val ∧ e.a.val ≠ e.c.val ∧
    e.a.val ≠ e.d.val ∧ e.b.val ≠ e.c.val ∧ e.b.val ≠ e.d.val ∧ e.c.val ≠ e.d.val := by
  obtain ⟨hab, hac, had, hbc, hbd, hcd⟩ := h
  exact ⟨fun h => hab (Fin.ext h), fun h => hac (Fin.ext h), fun h => had (Fin.ext h),
    fun h => hbc (Fin.ext h), fun h => hbd (Fin.ext h), fun h => hcd (Fin.ext h)⟩

theorem getElem_put (h : e.Apart) : (put s e a b c d)[e.a] = a ∧ (put s e a b c d)[e.b] = b ∧
    (put s e a b c d)[e.c] = c ∧ (put s e a b c d)[e.d] = d := by
  obtain ⟨hab, hac, had, hbc, hbd, hcd⟩ := h.vals
  simp [put, Ne.symm hab, Ne.symm hac, Ne.symm had, Ne.symm hbc, Ne.symm hbd, Ne.symm hcd]

theorem put_set (h : e.Apart) (x : BitVec 32) :
    (put s e a b c d).set e.a x = put s e x b c d ∧ (put s e a b c d).set e.b x = put s e a x c d ∧
      (put s e a b c d).set e.c x = put s e a b x d ∧
      (put s e a b c d).set e.d x = put s e a b c x := by
  obtain ⟨hab, hac, had, hbc, hbd, hcd⟩ := h.vals
  refine ⟨?_, ?_, ?_, ?_⟩
  all_goals
    refine Vector.ext fun i hi => ?_
    simp only [put, Vector.getElem_set]
    grind

variable {m : Buffer}

/-- `a += b; d ^= a; d <<<= n`, the rotation being one of the helpers. -/
theorem half_d {rot : Buffer → Nat → Buffer} {n : Nat}
    (hrot : ∀ m (i : Fin 16), words (rot m (4 * i)) =
      (words m).set i ((words m)[i].rotateLeft n))
    (h : e.Apart) (hm : words m = put s e a b c d) :
    words (rot (addXor m e.a e.b e.d) (4 * e.d)) =
      put s e (a + b) b c ((d ^^^ (a + b)).rotateLeft n) := by
  have hget := getElem_put (s := s) (a := a) (b := b) (c := c) (d := d) h
  have hxor : words (addXor m e.a e.b e.d) = put s e (a + b) b c (d ^^^ (a + b)) := by
    rw [words_addXor _ h.2.2.1, hm, hget.1, hget.2.1, hget.2.2.2, (put_set h _).1,
      (put_set h _).2.2.2]
  rw [hrot, hxor, (getElem_put h).2.2.2, (put_set h _).2.2.2]

/-- `c += d; b ^= c; b <<<= n`. -/
theorem half_b {rot : Buffer → Nat → Buffer} {n : Nat}
    (hrot : ∀ m (i : Fin 16), words (rot m (4 * i)) =
      (words m).set i ((words m)[i].rotateLeft n))
    (h : e.Apart) (hm : words m = put s e a b c d) :
    words (rot (addXor m e.c e.d e.b) (4 * e.b)) =
      put s e a ((b ^^^ (c + d)).rotateLeft n) (c + d) d := by
  have hget := getElem_put (s := s) (a := a) (b := b) (c := c) (d := d) h
  have hxor : words (addXor m e.c e.d e.b) = put s e a (b ^^^ (c + d)) (c + d) d := by
    rw [words_addXor _ (Ne.symm h.2.2.2.1), hm, hget.2.2.1, hget.2.2.2, hget.2.1,
      (put_set h _).2.2.1, (put_set h _).2.1]
  rw [hrot, hxor, (getElem_put h).2.1, (put_set h _).2.1]

end Put

/-- The helpers on four words are the quarter round. -/
theorem words_quarterRound (m : Buffer) {e : QrEntry} (h : e.Apart) :
    words (chacha20QuarterRound m e) = Rfc8439.quarterRound e.a e.b e.c e.d (words m) := by
  have hput : words m = put (words m) e (words m)[e.a] (words m)[e.b] (words m)[e.c]
      (words m)[e.d] := by
    simp [put]
  have h₁ := half_d words_rotr32_16 h hput
  have h₂ := half_b words_rotl32_12 h h₁
  have h₃ := half_d words_rotl32_8 h h₂
  have h₄ := half_b words_rotl32_7 h h₃
  unfold chacha20QuarterRound
  dsimp only
  rw [h₄]
  rfl

/-- The entries of the table are. -/
theorem apart_of_mem {e : QrEntry} (h : e ∈ cc20QrTable) : e.Apart := by
  revert e
  unfold QrEntry.Apart
  decide

theorem words_doubleRound (m : Buffer) : words (doubleRound m) = Rfc8439.innerBlock (words m) := by
  have hall : ∀ es : List QrEntry, (∀ e ∈ es, e ∈ cc20QrTable) → ∀ m,
      words (es.foldl chacha20QuarterRound m) =
        es.foldl (fun s e => Rfc8439.quarterRound e.a e.b e.c e.d s) (words m) := by
    intro es
    induction es with
    | nil =>
        intro _ m
        rfl
    | cons e es ih =>
        intro hes m
        rw [List.foldl_cons, List.foldl_cons, ih (fun e he => hes e (List.mem_cons_of_mem _ he)),
          words_quarterRound m (apart_of_mem (hes e List.mem_cons_self))]
  exact hall cc20QrTable (fun _ h => h) m

theorem words_rounds (n : Nat) : ∀ m,
    words (doubleRound^[n] m) = Rfc8439.innerBlock^[n] (words m) := by
  induction n with
  | zero =>
      intro m
      rfl
  | succ n ih =>
      intro m
      rw [Function.iterate_succ_apply, Function.iterate_succ_apply, ih, words_doubleRound]

/-- `@add_state`, up to a word. -/
theorem words_addState (state w : Buffer) :
    words (addState state w) = Vector.zipWith (· + ·) (words w) (words state) := by
  have hfold : ∀ n ≤ 16, ∀ i : Fin 16,
      (words ((List.range n).foldl (fun w x => add32ToDst w (4 * x) state (4 * x)) w))[i] =
        if i.val < n then (words w)[i] + (words state)[i] else (words w)[i] := by
    intro n
    induction n with
    | zero =>
        intro _ i
        rfl
    | succ n ih =>
        intro hn i
        have hlast := words_add32 ((List.range n).foldl
          (fun w x => add32ToDst w (4 * x) state (4 * x)) w) state ⟨n, hn⟩ (4 * n)
        rw [List.range_succ, List.foldl_append, List.foldl_cons, List.foldl_nil]
        dsimp only at hlast
        have hget := congrArg (fun s : Rfc8439.State => s[i]) hlast
        rw [hget]
        by_cases hi : i.val = n
        · obtain rfl : i = ⟨n, hn⟩ := Fin.ext hi
          have hself := ih (Nat.le_of_succ_le hn) ⟨n, hn⟩
          rw [if_neg (Nat.lt_irrefl n)] at hself
          rw [if_pos (Nat.lt_succ_self n), ← hself, getElem_words state]
          simp
        · have hother := ih (Nat.le_of_succ_le hn) i
          have hlt : i.val < n + 1 ↔ i.val < n := by omega
          simp only [hlt]
          rw [← hother]
          exact Vector.getElem_set_ne _ _ (Ne.symm hi)
  refine Vector.ext fun i hi => ?_
  have hword := hfold 16 (Nat.le_refl _) ⟨i, hi⟩
  rw [if_pos hi] at hword
  rw [Vector.getElem_zipWith]
  exact hword

/-- The words of a buffer, written out, are its bytes. -/
theorem serialize_words (m : Buffer) : Rfc8439.serialize (words m) = bytesAt m 0 64 := by
  have hrange : ∀ n, (List.range n).flatMap (fun i => bytesAt m (4 * i) 4) =
      bytesAt m 0 (4 * n) := by
    intro n
    induction n with
    | zero => exact (bytesAt_zero m 0).symm
    | succ n ih =>
        rw [List.range_succ, List.flatMap_append, ih, List.flatMap_singleton, Nat.mul_succ,
          bytesAt_add, Nat.zero_add]
  have hwords : (words m).toList = (List.range 16).map fun i => (loadLE m (4 * i)).word := by
    refine List.ext_getElem (by simp) ?_
    intro i h₁ h₂
    simp [words]
  have hsixteen := hrange 16
  unfold Rfc8439.serialize
  rw [hwords, List.flatMap_map, ← hsixteen]
  refine List.flatMap_congr fun i _ => ?_
  rw [Quad.ofWord_word, bytesLE_loadLE]

/-- A word inside a block of known bytes. -/
theorem word_of_bytesAt {m : Buffer} {off n : Nat} {bs : List UInt8} (h : bytesAt m off n = bs)
    {j : Nat} (hj : 4 * j + 4 ≤ n) : (loadLE m (off + 4 * j)).word = Rfc8439.wordLE bs j := by
  have hlen : bs.length = n := by
    rw [← h, length_bytesAt]
  have hself : bytesAt m off n = bytesAt (fun i => bs.getD i 0) 0 n := by
    rw [h, ← hlen, bytesAt_getD]
  have hfour := bytesAt_sub hself hj
  rw [Nat.zero_add] at hfour
  unfold Rfc8439.wordLE
  rw [loadLE_congr hfour]

theorem wordLE_constants : ∀ i < 4,
    Rfc8439.wordLE cc20Constants i = Rfc8439.constants.getD i 0 := by
  decide +kernel

/-- The state that `chacha20_init` sets up, by its four parts. -/
theorem words_chacha20Init (c : ChaCha) : words (chacha20Init c).state =
    Rfc8439.initial (bytesAt c.key 0 32) (loadLE c.counter 0).word (bytesAt c.nonce 0 12) := by
  have hconst : bytesAt (chacha20Init c).state 0 16 = cc20Constants := by
    unfold chacha20Init
    dsimp only
    rw [bytesAt_store_of_disjoint _ _ (Or.inl (by decide)),
      bytesAt_store_of_disjoint _ _ (Or.inl (by decide)),
      bytesAt_store_of_disjoint _ _ (Or.inl (by decide))]
    exact bytesAt_store_of_length _ _ rfl
  have hkey : bytesAt (chacha20Init c).state 16 32 = bytesAt c.key 0 32 := by
    unfold chacha20Init
    dsimp only
    rw [bytesAt_store_of_disjoint _ _ (Or.inl (by decide)),
      bytesAt_store_of_disjoint _ _ (Or.inl (by decide))]
    exact bytesAt_store_of_length _ _ (length_bytesAt _ _ _)
  have hcounter : bytesAt (chacha20Init c).state 48 4 = bytesAt c.counter 0 4 := by
    unfold chacha20Init
    dsimp only
    rw [bytesAt_store_of_disjoint _ _ (Or.inl (by decide))]
    exact bytesAt_store_of_length _ _ (length_bytesAt _ _ _)
  have hnonce : bytesAt (chacha20Init c).state 52 12 = bytesAt c.nonce 0 12 :=
    bytesAt_store_of_length _ _ (length_bytesAt _ _ _)
  refine Vector.ext fun i hi => ?_
  unfold words Rfc8439.initial
  rw [Vector.getElem_ofFn, Vector.getElem_ofFn]
  dsimp only
  split
  · rename_i hfour
    rw [← wordLE_constants i hfour, ← word_of_bytesAt hconst (by omega), Nat.zero_add]
  split
  · rename_i hlow hhigh
    rw [← word_of_bytesAt hkey (by omega)]
    congr 2
    omega
  split
  · rename_i heq
    rw [heq, loadLE_congr hcounter]
  · rw [← word_of_bytesAt hnonce (by omega)]
    congr 2
    omega

theorem incCounter_of_outside (state : Buffer) {i : Nat} (h : i < 48 ∨ 52 ≤ i) :
    incCounter state i = state i := by
  have h48 : i ≠ 48 := by omega
  have h49 : i ≠ 49 := by omega
  have h50 : i ≠ 50 := by omega
  have h51 : i ≠ 51 := by omega
  unfold incCounter
  dsimp only
  split
  · rw [Function.update_of_ne h48]
  split
  · rw [Function.update_of_ne h49, Function.update_of_ne h48]
  split
  · rw [Function.update_of_ne h50, Function.update_of_ne h49, Function.update_of_ne h48]
  · rw [Function.update_of_ne h51, Function.update_of_ne h50, Function.update_of_ne h49,
      Function.update_of_ne h48]

/-- A byte that does not wrap has one more. -/
theorem toNat_inc {b : UInt8} (h : b + 1 ≠ 0) :
    (b + 1).toNat = b.toNat + 1 ∧ b.toNat < 255 := by
  revert h
  refine forall_byte (p := fun b => b + 1 ≠ 0 → (b + 1).toNat = b.toNat + 1 ∧ b.toNat < 255) ?_ b
  decide +kernel

theorem toNat_of_wrap {b : UInt8} (h : ¬ b + 1 ≠ 0) : b.toNat = 255 ∧ (b + 1).toNat = 0 := by
  revert h
  refine forall_byte (p := fun b => ¬ b + 1 ≠ 0 → b.toNat = 255 ∧ (b + 1).toNat = 0) ?_ b
  decide +kernel

/-- The carry runs as far as the bytes wrap. -/
theorem word_incCounter (state : Buffer) :
    (loadLE (incCounter state) 48).word = (loadLE state 48).word + 1 := by
  have h₀ := (state 48).toNat_lt
  have h₁ := (state 49).toNat_lt
  have h₂ := (state 50).toNat_lt
  have h₃ := (state 51).toNat_lt
  have hone : (1 : BitVec 32).toNat = 1 := rfl
  have hlast : (state 51 + 1).toNat = ((state 51).toNat + 1) % 256 := UInt8.toNat_add _ _
  refine BitVec.eq_of_toNat_eq ?_
  have hload : loadLE state 48 = ⟨state 48, state 49, state 50, state 51⟩ := rfl
  rw [BitVec.toNat_add, hload, Quad.toNat_word ⟨_, _, _, _⟩, hone]
  -- the carry goes on to the next byte only where this one wraps
  by_cases hd0 : state 48 + 1 ≠ 0
  · have hq : loadLE (incCounter state) 48 = ⟨state 48 + 1, state 49, state 50, state 51⟩ := by
      unfold incCounter
      dsimp only
      rw [if_pos (by rwa [Function.update_self])]
      rfl
    have hinc := toNat_inc hd0
    rw [hq, Quad.toNat_word]
    dsimp only
    omega
  have hwrap0 := toNat_of_wrap hd0
  by_cases hd1 : state 49 + 1 ≠ 0
  · have hq : loadLE (incCounter state) 48 = ⟨state 48 + 1, state 49 + 1, state 50, state 51⟩ := by
      unfold incCounter
      dsimp only
      rw [if_neg (by rwa [Function.update_self]), if_pos (by rw [Function.update_self]; exact hd1)]
      rfl
    have hinc := toNat_inc hd1
    rw [hq, Quad.toNat_word]
    dsimp only
    omega
  have hwrap1 := toNat_of_wrap hd1
  by_cases hd2 : state 50 + 1 ≠ 0
  · have hq : loadLE (incCounter state) 48 =
        ⟨state 48 + 1, state 49 + 1, state 50 + 1, state 51⟩ := by
      unfold incCounter
      dsimp only
      rw [if_neg (by rwa [Function.update_self]), if_neg (by rw [Function.update_self]; exact hd1),
        if_pos (by rw [Function.update_self]; exact hd2)]
      rfl
    have hinc := toNat_inc hd2
    rw [hq, Quad.toNat_word]
    dsimp only
    omega
  have hwrap2 := toNat_of_wrap hd2
  have hq : loadLE (incCounter state) 48 =
      ⟨state 48 + 1, state 49 + 1, state 50 + 1, state 51 + 1⟩ := by
    unfold incCounter
    dsimp only
    rw [if_neg (by rwa [Function.update_self]), if_neg (by rw [Function.update_self]; exact hd1),
      if_neg (by rw [Function.update_self]; exact hd2)]
    rfl
  rw [hq, Quad.toNat_word]
  dsimp only
  omega

/-- The counter is the twelfth word, and counts. -/
theorem words_incCounter (state : Buffer) :
    words (incCounter state) = (words state).set 12 ((words state)[12] + 1) := by
  refine Vector.ext fun i hi => ?_
  have h12 : (words state)[12] = (loadLE state 48).word := getElem_words state 12
  rw [Vector.getElem_set, h12]
  unfold words
  rw [Vector.getElem_ofFn, Vector.getElem_ofFn]
  dsimp only
  split
  · rename_i heq
    rw [← heq]
    exact word_incCounter state
  · rename_i hne
    refine congrArg Quad.word (loadLE_congr ?_)
    refine bytesAt_congr fun j hj => ?_
    exact incCounter_of_outside state (by omega)

end Words

/-! ## A block -/

section Block

variable {c : ChaCha} {key nonce : List UInt8} {counter : BitVec 32}

/-- Counting keeps the rest of the state. -/
theorem initial_set (key nonce : List UInt8) (counter : BitVec 32) :
    (Rfc8439.initial key counter nonce).set 12 ((Rfc8439.initial key counter nonce)[12] + 1) =
      Rfc8439.initial key (counter + 1) nonce := by
  refine Vector.ext fun i hi => ?_
  rw [Vector.getElem_set]
  unfold Rfc8439.initial
  rw [Vector.getElem_ofFn, Vector.getElem_ofFn, Vector.getElem_ofFn]
  dsimp only
  split
  · rename_i h12
    subst h12
    rfl
  · rename_i h12
    have hne : i ≠ 12 := Ne.symm h12
    simp only [hne, if_false]

theorem chacha20Block_keystream (h : words c.state = Rfc8439.initial key counter nonce) :
    bytesAt (chacha20Block c).keystream 0 64 = Rfc8439.chacha20Block key counter nonce := by
  have hstart : words (store c.work 0 (bytesAt c.state 0 64)) = words c.state := by
    refine Vector.ext fun i hi => ?_
    unfold words
    rw [Vector.getElem_ofFn, Vector.getElem_ofFn]
    dsimp only
    refine congrArg Quad.word (loadLE_congr ?_)
    have hsub := bytesAt_sub (bytesAt_store_of_length c.work 0 (length_bytesAt c.state 0 64))
      (j := 4 * i) (k := 4) (by omega)
    rwa [Nat.zero_add] at hsub
  unfold chacha20Block
  dsimp only
  rw [bytesAt_store_of_length _ _ (length_bytesAt _ _ _), ← serialize_words, words_addState,
    words_rounds, hstart, h]
  unfold Rfc8439.chacha20Block Rfc8439.blockWords
  rfl

theorem chacha20Block_state (h : words c.state = Rfc8439.initial key counter nonce) :
    words (chacha20Block c).state = Rfc8439.initial key (counter + 1) nonce := by
  show words (incCounter c.state) = _
  rw [words_incCounter, h, initial_set]

end Block

attribute [irreducible] chacha20Init

/-! ## The text -/

section Text

/-- The `n` bytes behind a pointer. -/
def textAt (mem : Buffer) (ptr n : Nat) : List UInt8 :=
  (List.range n).map fun i => mem (add16 ptr i)

@[simp] theorem length_textAt (mem : Buffer) (ptr n : Nat) : (textAt mem ptr n).length = n := by
  simp [textAt]

theorem add16_add16 (p i j : Nat) : add16 (add16 p i) j = add16 p (i + j) := by
  unfold add16
  omega

/-- Places less than 64 KB apart are different addresses. -/
theorem add16_injective (p : Nat) {i j : Nat} (hi : i < 65536) (hj : j < 65536)
    (h : add16 p i = add16 p j) : i = j := by
  unfold add16 at h
  omega

/-- The loop changes its `x` bytes, each by its own byte of keystream, and nothing else. -/
theorem xorLoop_spec (ptr : Nat) (ks : Buffer) (x : Nat) : ∀ (y : Nat) (mem : Buffer),
    y + x ≤ 65536 →
      (∀ i, y ≤ i → i < y + x → xorLoop ptr ks x y mem (add16 ptr i) =
        mem (add16 ptr i) ^^^ ks i) ∧
      ∀ a, (∀ i, y ≤ i → i < y + x → a ≠ add16 ptr i) → xorLoop ptr ks x y mem a = mem a := by
  induction x with
  | zero =>
      intro y mem _
      exact ⟨fun i h₁ h₂ => by omega, fun a _ => rfl⟩
  | succ x ih =>
      intro y mem hy
      obtain ⟨hin, hout⟩ := ih (y + 1)
        (Function.update mem (add16 ptr y) (mem (add16 ptr y) ^^^ ks y)) (by omega)
      unfold xorLoop
      constructor
      · intro i h₁ h₂
        by_cases hfirst : i = y
        · subst hfirst
          rw [hout, Function.update_self]
          intro j hj₁ hj₂ heq
          have := add16_injective ptr (by omega) (by omega) heq
          omega
        · rw [hin i (by omega) (by omega), Function.update_of_ne]
          intro heq
          exact hfirst (add16_injective ptr (by omega) (by omega) heq)
      · intro a ha
        rw [hout a fun i h₁ h₂ => ha i (by omega) (by omega),
          Function.update_of_ne (ha y (Nat.le_refl _) (by omega))]

/-- What the last turn or the next one has to do. -/
def left (c : ChaCha) : Nat :=
  word c.remainHi c.remain

theorem left_eq_zero_iff (c : ChaCha) : c.remain ||| c.remainHi = 0 ↔ left c = 0 := by
  have hor : c.remain ||| c.remainHi = 0 ↔ c.remain = 0 ∧ c.remainHi = 0 := UInt8.or_eq_zero_iff
  have hzero : (0 : UInt8).toNat = 0 := rfl
  rw [hor]
  unfold left word
  constructor
  · rintro ⟨hlo, hhi⟩
    rw [hlo, hhi]
    rfl
  · intro h
    refine ⟨UInt8.toNat.inj ?_, UInt8.toNat.inj ?_⟩
    · omega
    · omega

theorem toNat_blockBytes (c : ChaCha) : (blockBytes c).toNat = min (left c) 64 := by
  have hzero : (0 : UInt8).toNat = 0 := rfl
  have h64 : (64 : UInt8).toNat = 64 := rfl
  unfold blockBytes left word
  split
  · rename_i hhi
    have hpos : c.remainHi.toNat ≠ 0 := fun h => hhi (UInt8.toNat.inj h)
    omega
  · rename_i hhi
    have hz : c.remainHi.toNat = 0 := by
      rw [not_not.1 hhi, hzero]
    split
    · rename_i hlt
      have hlt' := UInt8.lt_iff_toNat_lt.1 hlt
      omega
    · rename_i hge
      have hge' : ¬ c.remain.toNat < (64 : UInt8).toNat := fun h => hge (UInt8.lt_iff_toNat_lt.2 h)
      omega

/-- The subtraction does not borrow past the high byte. -/
theorem left_nextBlock (c : ChaCha) : left (nextBlock c) = left c - min (left c) 64 := by
  have hpos := toNat_blockBytes c
  have hlo := c.remain.toNat_lt
  have hone : (1 : UInt8).toNat = 1 := rfl
  have hsub := UInt8.toNat_sub c.remain (blockBytes c)
  have hdec := UInt8.toNat_sub c.remainHi 1
  have hhi := c.remainHi.toNat_lt
  show word (if c.remain < blockBytes c then c.remainHi - 1 else c.remainHi)
    (c.remain - blockBytes c) = _
  unfold left word at *
  split
  · rename_i hlt
    have hlt' := UInt8.lt_iff_toNat_lt.1 hlt
    rw [hsub, hdec, hone]
    omega
  · rename_i hge
    have hge' : ¬ c.remain.toNat < (blockBytes c).toNat := fun h =>
      hge (UInt8.lt_iff_toNat_lt.2 h)
    rw [hsub]
    omega

variable {c : ChaCha} {key nonce : List UInt8} {counter : BitVec 32}

/-- One block: its bytes are xored, and nothing else changes. -/
theorem mem_nextBlock (h : words c.state = Rfc8439.initial key counter nonce) :
    (∀ i < min (left c) 64, (nextBlock c).mem (add16 c.dataPtr i) =
      c.mem (add16 c.dataPtr i) ^^^ (Rfc8439.chacha20Block key counter nonce).getD i 0) ∧
    ∀ a, (∀ i < min (left c) 64, a ≠ add16 c.dataPtr i) → (nextBlock c).mem a = c.mem a := by
  have hpos := toNat_blockBytes c
  obtain ⟨hin, hout⟩ := xorLoop_spec c.dataPtr (chacha20Block c).keystream
    (blockBytes (chacha20Block c)).toNat 0 c.mem
    (by have := (blockBytes (chacha20Block c)).toNat_lt; omega)
  have hcount : (blockBytes (chacha20Block c)).toNat = min (left c) 64 := hpos
  rw [hcount, Nat.zero_add] at hin hout
  constructor
  · intro i hi
    have hbyte := hin i (Nat.zero_le i) hi
    rw [← chacha20Block_keystream h, getD_bytesAt _ _ (by omega), Nat.zero_add]
    show xorLoop _ _ (blockBytes (chacha20Block c)).toNat _ _ _ = _
    rw [hcount]
    exact hbyte
  · intro a ha
    show xorLoop _ _ (blockBytes (chacha20Block c)).toNat _ _ _ = _
    rw [hcount]
    exact hout a fun i _ hi => ha i hi

/-- What a run of the loop makes of the text. -/
structure Streamed (key : List UInt8) (counter : BitVec 32) (nonce : List UInt8) (c c' : ChaCha) :
    Prop where
  text : ∀ i < left c, c'.mem (add16 c.dataPtr i) = c.mem (add16 c.dataPtr i) ^^^
    (Rfc8439.chacha20Block key (counter + BitVec.ofNat 32 (i / 64)) nonce).getD (i % 64) 0
  frame : ∀ a, (∀ i < left c, a ≠ add16 c.dataPtr i) → c'.mem a = c.mem a

/-- The loop, by the number of blocks. -/
theorem loop_streamed (n : Nat) : ∀ {c : ChaCha} {counter : BitVec 32},
    words c.state = Rfc8439.initial key counter nonce → 0 < left c → left c ≤ 64 * n →
      ∃ c', loop blockTurn n c = some c' ∧ Streamed key counter nonce c c' := by
  induction n with
  | zero =>
      intro c counter _ hpos hle
      omega
  | succ n ih =>
      intro c counter h hpos hle
      have hlt : left c < 65536 := word_lt _ _
      obtain ⟨hin, hout⟩ := mem_nextBlock h
      have hleft := left_nextBlock c
      have hzero : counter + BitVec.ofNat 32 0 = counter := BitVec.add_zero counter
      have hfirst : ∀ i < min (left c) 64, (nextBlock c).mem (add16 c.dataPtr i) =
          c.mem (add16 c.dataPtr i) ^^^
            (Rfc8439.chacha20Block key (counter + BitVec.ofNat 32 (i / 64)) nonce).getD
              (i % 64) 0 := by
        intro i hi
        rw [Nat.div_eq_of_lt (by omega), Nat.mod_eq_of_lt (by omega), hzero]
        exact hin i hi
      by_cases hmore : left (nextBlock c) = 0
      · -- the block was the last one
        have hturn : blockTurn c = .leave (nextBlock c) := by
          unfold blockTurn
          dsimp only
          rw [if_neg (not_not.2 ((left_eq_zero_iff _).2 hmore))]
        have hall : min (left c) 64 = left c := by omega
        rw [hall] at hfirst hout
        exact ⟨nextBlock c, loop_leave hturn, hfirst, hout⟩
      · have hturn : blockTurn c = .again (nextBlock c) := by
          unfold blockTurn
          dsimp only
          rw [if_pos (fun h0 => hmore ((left_eq_zero_iff _).1 h0))]
        have hptr : (nextBlock c).dataPtr = add16 c.dataPtr 64 := by
          have hcount := toNat_blockBytes (chacha20Block c)
          show add16 c.dataPtr (blockBytes (chacha20Block c)).toNat = _
          rw [hcount]
          congr 1
          show min (left c) 64 = 64
          omega
        obtain ⟨c', hloop, hrest⟩ := ih (chacha20Block_state h) (c := nextBlock c) (by omega)
          (by omega)
        refine ⟨c', (loop_again hturn).trans hloop, ?_, ?_⟩
        · intro i hi
          by_cases hblock : i < 64
          · -- a byte of this block is not touched again
            rw [hrest.frame, hfirst i (by omega)]
            intro j hj heq
            rw [hptr, add16_add16] at heq
            have := add16_injective c.dataPtr (by omega) (by omega) heq
            omega
          · have hlater := hrest.text (i - 64) (by omega)
            have hplace : add16 (nextBlock c).dataPtr (i - 64) = add16 c.dataPtr i := by
              rw [hptr, add16_add16]
              congr 1
              omega
            have hdiv : i / 64 = (i - 64) / 64 + 1 := by omega
            have hmod : i % 64 = (i - 64) % 64 := by omega
            have hone : BitVec.ofNat 32 1 = 1 := rfl
            have hbefore : (nextBlock c).mem (add16 c.dataPtr i) = c.mem (add16 c.dataPtr i) := by
              refine hout _ fun j hj heq => ?_
              have := add16_injective c.dataPtr (by omega) (by omega) heq
              omega
            rw [hplace, hbefore] at hlater
            rw [hlater, hdiv, hmod, BitVec.ofNat_add, hone,
              BitVec.add_comm (BitVec.ofNat 32 ((i - 64) / 64)), BitVec.add_assoc]
        · intro a ha
          have hthis : (nextBlock c).mem a = c.mem a := hout a fun i hi => ha i (by omega)
          rw [hrest.frame, hthis]
          intro i hi heq
          rw [hptr, add16_add16] at heq
          exact ha (64 + i) (by omega) heq

/-- For every key, nonce, counter and length, wherever the text lies: the routine leaves, the text is
that of the RFC, and nothing else in memory has changed. -/
theorem chacha20Encrypt_rfc8439 (c : ChaCha) :
    ∃ c', chacha20Encrypt (chacha20Init c) = some c' ∧
      textAt c'.mem c.dataPtr (word c.remainHi c.remain) =
        Rfc8439.chacha20Encrypt (bytesAt c.key 0 32) (loadLE c.counter 0).word
          (bytesAt c.nonce 0 12) (textAt c.mem c.dataPtr (word c.remainHi c.remain)) ∧
      ∀ a, (∀ i < word c.remainHi c.remain, a ≠ add16 c.dataPtr i) → c'.mem a = c.mem a := by
  have hsetup : ∃ s, chacha20Init c = { c with state := s } := by
    unfold chacha20Init
    exact ⟨_, rfl⟩
  obtain ⟨s, hs⟩ := hsetup
  have hwords := words_chacha20Init c
  rw [hs] at hwords ⊢
  have hstream : ∃ c', chacha20Encrypt { c with state := s } = some c' ∧
      Streamed (bytesAt c.key 0 32) (loadLE c.counter 0).word (bytesAt c.nonce 0 12)
        { c with state := s } c' := by
    by_cases hnone : left c = 0
    · have hempty : chacha20Encrypt { c with state := s } = some { c with state := s } :=
        if_pos ((left_eq_zero_iff c).2 hnone)
      refine ⟨_, hempty, fun i hi => ?_, fun a _ => rfl⟩
      have hi' : i < left c := hi
      omega
    · have hlt : left c < 65536 := word_lt _ _
      obtain ⟨c', hloop, hstreamed⟩ := loop_streamed 1024 (c := { c with state := s }) hwords
        (Nat.pos_of_ne_zero hnone) (Nat.le_of_lt hlt)
      refine ⟨c', ?_, hstreamed⟩
      unfold chacha20Encrypt
      rw [if_neg (fun h0 => hnone ((left_eq_zero_iff c).1 h0))]
      exact hloop
  obtain ⟨c', hrun, hstreamed⟩ := hstream
  refine ⟨c', hrun, ?_, hstreamed.frame⟩
  refine List.ext_getElem ?_ ?_
  · unfold Rfc8439.chacha20Encrypt
    rw [List.length_zipWith, length_textAt, length_textAt, Rfc8439.length_blocks]
    omega
  · intro i h₁ h₂
    have hi : i < word c.remainHi c.remain := by
      rwa [length_textAt] at h₁
    have hbyte := hstreamed.text i hi
    have hblocks := Rfc8439.getD_blocks (bytesAt c.key 0 32) (bytesAt c.nonce 0 12)
      ((word c.remainHi c.remain + 63) / 64) (loadLE c.counter 0).word i (by omega)
    rw [← hblocks] at hbyte
    simp only [Rfc8439.chacha20Encrypt, textAt, List.getElem_zipWith, List.getElem_map,
      List.getElem_range, List.length_map, List.length_range]
    rw [hbyte, List.getD_eq_getElem _ _ (by rw [Rfc8439.length_blocks]; omega)]

end Text

end ChaCha20
end Crypto
end C64Https
