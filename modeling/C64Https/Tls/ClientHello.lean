import C64Https.Tls.CertList
import C64Https.Tls.ClientHelloGrammar
import C64Https.Tls.Connect

/-!
# ClientHello — the message and its two ways out (`src/tls_handshake.s`, `src/tls13.s`)

`tls_build_client_hello` stages the message in `tls_rec_buf` under an 8-bit cursor, out of a table of
templates, and fills in the lengths at the end.  With a bulk key share (`tls_ch_ks_len` not zero) the
lengths already count the bulk, which goes out between the two halves of what is staged.

Either way one record is sent, and a server reads from it what the client put in
(`clientHello_sent`).
-/

namespace C64Https
namespace Tls

open Word Bytes BigEndian Presentation Fallible

/-! ## The builder -/

/-- What the builder reads: the buffers, `tls_hostname_len`, and the bulk at `tls_ch_ks_ptr`. -/
structure ChInputs where
  clientRandom : Buffer
  ecdhePubkey : Buffer
  hostname : Buffer
  hostnameLen : UInt8
  ks : Buffer
  ksLen : Nat

/-- The cursor Y, `tls_rec_buf` and `tls_ch_split`. -/
structure ChBuf where
  y : Nat
  buf : Buffer
  split : Nat

/-- `ch_tmpl`, each template behind its length; three of them are `CH_SECTIONED`. -/
def chTmpl (sectioned : Bool) : List UInt8 :=
  [6, 0x01, 0x00, 0x00, 0x00, 0x03, 0x03] ++
  [16, 0x00, 0x00, 0x02, 0x13, 0x03, 0x01, 0x00, 0x00, 0x00,
    0x00, 0x2b, 0x00, 0x03, 0x02, 0x03, 0x04] ++
  [8, 0x00, 0x0a, 0x00, 0x04, 0x00, 0x02, 0x00, 0x1d] ++
  (if sectioned then [10, 0x00, 0x0a, 0x00, 0x06, 0x00, 0x04, 0x11, 0xec, 0x00, 0x1d] else []) ++
  [8, 0x00, 0x0d, 0x00, 0x04, 0x00, 0x02, 0x04, 0x03] ++
  [10, 0x00, 0x33, 0x00, 0x26, 0x00, 0x24, 0x00, 0x1d, 0x00, 0x20] ++
  (if sectioned then
    [2, 0x00, 0x33] ++ [2, 0x11, 0xec] ++ [4, 0x00, 0x1d, 0x00, 0x20]
  else []) ++
  [3, 0x00, 0x00, 0x00] ++
  [2, 0x00, 0x00] ++
  [5, 0x00, 0x01, 0x00, 0x01, 0x01]

/-! The places of the templates in the table. -/

def chtHead : Nat := 0

def chtMid : Nat := 7

def chtGroups : Nat := 24

def chtGroupsH : Nat := 33

def chtSigalgs (sectioned : Bool) : Nat :=
  if sectioned then 44 else 33

def chtKs (sectioned : Bool) : Nat :=
  if sectioned then 53 else 42

def chtKsH : Nat := 64

def chtGrp11ec : Nat := 67

def chtEnt1d : Nat := 70

def chtSni0 (sectioned : Bool) : Nat :=
  if sectioned then 75 else 53

def chtSni1 (sectioned : Bool) : Nat :=
  if sectioned then 79 else 57

def chtMfl (sectioned : Bool) : Nat :=
  if sectioned then 82 else 60

/-- `ch_put_a`. -/
def chPutA (a : UInt8) (s : ChBuf) : ChBuf :=
  { s with buf := Function.update s.buf s.y a, y := inc8 s.y }

/-- `n` bytes of `m` from X on: the copies of the random, of the key and of the name. -/
def chCopy (m : Buffer) : Nat → Nat → ChBuf → ChBuf
  | 0, _, s => s
  | n + 1, x, s => chCopy m n (inc8 x) (chPutA (m x) s)

/-- `ch_put`. -/
def chPut (sectioned : Bool) (x : Nat) (s : ChBuf) : ChBuf :=
  let m := ofList (chTmpl sectioned) fun _ => 0
  chCopy m (m x).toNat (inc8 x) s

/-- `ch_put_sum`. -/
def chPutSum (I : ChInputs) (a : Nat) (s : ChBuf) : ChBuf :=
  let n := add16 a I.ksLen
  chPutA (lo n) (chPutA (hi n) s)

/-- `ch_put_pub`. -/
def chPutPub (I : ChInputs) (s : ChBuf) : ChBuf :=
  chCopy I.ecdhePubkey 32 0 s

/-- A bulk section is armed. -/
def ChInputs.hybrid (I : ChInputs) (sectioned : Bool) : Bool :=
  sectioned && decide (I.ksLen ≠ 0)

/-- `key_share`; the bulk goes where `tls_ch_split` is set. -/
def chKeyShare (sectioned : Bool) (I : ChInputs) (s : ChBuf) : ChBuf :=
  if I.hybrid sectioned then
    let s := chPut sectioned chtKsH s
    let s := chPutSum I 74 s
    let s := chPutSum I 72 s
    let s := chPut sectioned chtGrp11ec s
    let s := chPutSum I 32 s
    let s := { s with split := s.y }
    let s := chPutPub I s
    let s := chPut sectioned chtEnt1d s
    chPutPub I s
  else
    let s := chPut sectioned (chtKs sectioned) s
    chPutPub I s

/-- `server_name`, when there is a name. -/
def chSni (sectioned : Bool) (I : ChInputs) (s : ChBuf) : ChBuf :=
  if I.hostnameLen = 0 then s
  else
    let s := chPut sectioned (chtSni0 sectioned) s
    let s := chPutA (I.hostnameLen + 5) s
    let s := chPutA 0 s
    let s := chPutA (I.hostnameLen + 3) s
    let s := chPut sectioned (chtSni1 sectioned) s
    let s := chPutA I.hostnameLen s
    chCopy I.hostname I.hostnameLen.toNat 0 s

/-- `sbc` on the cursor. -/
def sub8 (a b : Nat) : Nat :=
  (a + 256 - b) % 256

/-- The lengths: of the extensions at 45 and 46, of the message from 1 to 3. -/
def chLengths (sectioned : Bool) (I : ChInputs) (s : ChBuf) : ChBuf :=
  if sectioned then
    let ext := add16 (sub8 s.y 47) I.ksLen
    let len := sub8 s.y 4 + I.ksLen
    let buf := Function.update s.buf 46 (lo ext)
    let buf := Function.update buf 45 (hi ext)
    let buf := Function.update buf 3 (lo len)
    let buf := Function.update buf 2 (hi len)
    { s with buf := Function.update buf 1 (UInt8.ofNat (len / 65536)) }
  else
    let buf := Function.update s.buf 46 (UInt8.ofNat (sub8 s.y 47))
    { s with buf := Function.update buf 3 (UInt8.ofNat (sub8 s.y 4)) }

/-- `tls_build_client_hello`; `tls_rec_len` is the cursor at the end. -/
def tlsBuildClientHello (sectioned : Bool) (I : ChInputs) (buf : Buffer) : ChBuf :=
  let s : ChBuf := { y := 0, buf := buf, split := 0 }
  let s := chPut sectioned chtHead s
  let s := chCopy I.clientRandom 32 0 s
  let s := chPut sectioned chtMid s
  let s := chPut sectioned (if I.hybrid sectioned then chtGroupsH else chtGroups) s
  let s := chPut sectioned (chtSigalgs sectioned) s
  let s := chKeyShare sectioned I s
  let s := chSni sectioned I s
  let s := chPut sectioned (chtMfl sectioned) s
  chLengths sectioned I s

/-- What the two senders are left: the sections, or all of the message in one. -/
def builtHello (sectioned : Bool) (I : ChInputs) (buf : Buffer) : Hello :=
  let s := tlsBuildClientHello sectioned I buf
  if I.hybrid sectioned then
    { head := bytesAt s.buf 0 s.split
      bulk := bytesAt I.ks 0 I.ksLen
      tail := bytesAt s.buf s.split (sub16 s.y s.split) }
  else
    { head := bytesAt s.buf 0 s.y
      bulk := []
      tail := [] }

/-! ## What is offered -/

namespace ChInputs

def random (I : ChInputs) : List UInt8 :=
  bytesAt I.clientRandom 0 32

def pub (I : ChInputs) : List UInt8 :=
  bytesAt I.ecdhePubkey 0 32

def host (I : ChInputs) : List UInt8 :=
  bytesAt I.hostname 0 I.hostnameLen.toNat

def bulk (I : ChInputs) : List UInt8 :=
  bytesAt I.ks 0 I.ksLen

/-- The groups and the shares. -/
def shares (I : ChInputs) (sectioned : Bool) : List (Nat × List UInt8) :=
  if I.hybrid sectioned then [(0x11ec, I.bulk ++ I.pub), (0x1d, I.pub)] else [(0x1d, I.pub)]

/-- The name, when there is one. -/
def names (I : ChInputs) : List ClientExt :=
  if I.hostnameLen = 0 then [] else [.serverName [I.host]]

/-- The ClientHello with these inputs. -/
def hello (I : ChInputs) (sectioned : Bool) : ClientHello where
  random := I.random
  sessionId := []
  suites := [0x1303]
  compression := [0]
  extensions :=
    [.supportedVersions [0x0304], .supportedGroups ((I.shares sectioned).map Prod.fst),
      .signatureAlgorithms [0x0403], .keyShare (I.shares sectioned)] ++ I.names ++
      [.maxFragmentLength 1]

end ChInputs

/-! ## What is staged -/

section Staged

variable {sectioned : Bool} {I : ChInputs} {s : ChBuf} {bs cs : List UInt8}

/-- The bytes below the cursor, which has not wrapped. -/
structure Staged (s : ChBuf) (bs : List UInt8) : Prop where
  cursor : s.y = bs.length
  bytes : bytesAt s.buf 0 bs.length = bs

theorem Staged.putA (h : Staged s bs) (a : UInt8) (hlt : bs.length + 1 < 256) :
    Staged (chPutA a s) (bs ++ [a]) := by
  have hlen : (bs ++ [a]).length = bs.length + 1 := by simp
  refine ⟨?_, ?_⟩
  · rw [hlen]
    show inc8 s.y = _
    rw [h.cursor, inc8_of_lt hlt]
  · rw [hlen, bytesAt_add]
    have hcell : bytesAt (Function.update s.buf s.y a) (0 + bs.length) 1 = [a] := by
      rw [Nat.zero_add, bytesAt_succ, bytesAt_zero, h.cursor, Function.update_self]
    have hbefore : bytesAt (Function.update s.buf s.y a) 0 bs.length = bs := by
      rw [update_eq_store, bytesAt_store_of_disjoint _ _ (Or.inl (by rw [h.cursor]; omega)),
        h.bytes]
    show bytesAt (Function.update s.buf s.y a) 0 bs.length ++
      bytesAt (Function.update s.buf s.y a) (0 + bs.length) 1 = _
    rw [hcell, hbefore]

theorem Staged.copy (m : Buffer) (n : Nat) : ∀ {s : ChBuf} {bs : List UInt8} (x : Nat),
    Staged s bs → bs.length + n < 256 → x + n < 256 →
      Staged (chCopy m n x s) (bs ++ bytesAt m x n) := by
  induction n with
  | zero =>
      intro s bs x h _ _
      rw [bytesAt_zero, List.append_nil]
      exact h
  | succ n ih =>
      intro s bs x h hlt hx
      have hinc : inc8 x = x + 1 := inc8_of_lt (by omega)
      have hstep := ih (inc8 x) (h.putA (m x) (by omega)) (by simp; omega) (by omega)
      rw [hinc, List.append_assoc, List.singleton_append, ← bytesAt_succ] at hstep
      unfold chCopy
      rw [hinc]
      exact hstep

@[simp] theorem chCopy_split (m : Buffer) (n : Nat) : ∀ (x : Nat) (s : ChBuf),
    (chCopy m n x s).split = s.split := by
  induction n with
  | zero =>
      intro x s
      rfl
  | succ n ih =>
      intro x s
      exact ih (inc8 x) (chPutA (m x) s)

/-- The table has the template `cs` at `x`, behind its length. -/
def TemplateAt (sectioned : Bool) (x : Nat) (cs : List UInt8) : Prop :=
  x + 1 + cs.length ≤ (chTmpl sectioned).length ∧
    ((chTmpl sectioned).getD x 0).toNat = cs.length ∧
      ((chTmpl sectioned).drop (x + 1)).take cs.length = cs

instance (sectioned : Bool) (x : Nat) (cs : List UInt8) : Decidable (TemplateAt sectioned x cs) :=
  inferInstanceAs (Decidable (_ ∧ _ ∧ _))

theorem Staged.put {x : Nat} (h : Staged s bs) (htmpl : TemplateAt sectioned x cs)
    (hlt : bs.length + cs.length < 256) : Staged (chPut sectioned x s) (bs ++ cs) := by
  obtain ⟨hroom, hlen, hcs⟩ := htmpl
  have htable : (chTmpl sectioned).length ≤ 93 := by
    cases sectioned <;> decide
  have hcell : ofList (chTmpl sectioned) (fun _ => 0) x = (chTmpl sectioned).getD x 0 :=
    if_pos ⟨Nat.zero_le x, by omega⟩
  have hbytes : bytesAt (ofList (chTmpl sectioned) fun _ => 0) (x + 1) cs.length = cs := by
    rw [bytesAt_ofList_sub _ _ hroom, hcs]
  have hinc : inc8 x = x + 1 := inc8_of_lt (by omega)
  have hcopy := Staged.copy (ofList (chTmpl sectioned) fun _ => 0) cs.length (x + 1) h hlt
    (by omega)
  rw [hbytes] at hcopy
  unfold chPut
  dsimp only
  rw [hcell, hlen, hinc]
  exact hcopy

@[simp] theorem chPut_split (sectioned : Bool) (x : Nat) (s : ChBuf) :
    (chPut sectioned x s).split = s.split :=
  chCopy_split _ _ _ s

theorem Staged.putSum (h : Staged s bs) (I : ChInputs) (a : Nat) (hlt : bs.length + 2 < 256) :
    Staged (chPutSum I a s) (bs ++ len16 (add16 a I.ksLen)) := by
  have hput := (h.putA (hi (add16 a I.ksLen)) (by omega)).putA (lo (add16 a I.ksLen))
    (by simp; omega)
  rw [List.append_assoc] at hput
  exact hput

theorem Staged.putPub (h : Staged s bs) (I : ChInputs) (hlt : bs.length + 32 < 256) :
    Staged (chPutPub I s) (bs ++ I.pub) :=
  h.copy _ 32 0 hlt (by decide)

@[simp] theorem length_pub (I : ChInputs) : I.pub.length = 32 :=
  length_bytesAt _ _ _

@[simp] theorem length_random (I : ChInputs) : I.random.length = 32 :=
  length_bytesAt _ _ _

@[simp] theorem length_host (I : ChInputs) : I.host.length = I.hostnameLen.toNat :=
  length_bytesAt _ _ _

@[simp] theorem length_bulk (I : ChInputs) : I.bulk.length = I.ksLen :=
  length_bytesAt _ _ _

/-- The staged bytes of `key_share`, before and behind the bulk. -/
def shareHead (sectioned : Bool) (I : ChInputs) : List UInt8 :=
  if I.hybrid sectioned then
    [0x00, 0x33] ++ len16 (add16 74 I.ksLen) ++ len16 (add16 72 I.ksLen) ++ [0x11, 0xec] ++
      len16 (add16 32 I.ksLen)
  else [0x00, 0x33, 0x00, 0x26, 0x00, 0x24, 0x00, 0x1d, 0x00, 0x20]

def shareTail (sectioned : Bool) (I : ChInputs) : List UInt8 :=
  if I.hybrid sectioned then I.pub ++ ([0x00, 0x1d, 0x00, 0x20] ++ I.pub) else I.pub

theorem hybrid_sectioned (h : I.hybrid sectioned = true) : sectioned = true ∧ I.ksLen ≠ 0 := by
  unfold ChInputs.hybrid at h
  simpa using h

theorem Staged.withSplit (h : Staged s bs) : Staged { s with split := s.y } bs :=
  ⟨h.cursor, h.bytes⟩

@[simp] theorem chPutPub_split (I : ChInputs) (s : ChBuf) : (chPutPub I s).split = s.split :=
  chCopy_split _ _ _ s

@[simp] theorem length_len16 (n : Nat) : (len16 n).length = 2 :=
  rfl

/-- The group of the shares: the two halves of the extension, with the split between them. -/
theorem Staged.hybridShare (h : Staged s bs) (I : ChInputs) (hlt : bs.length + 80 < 256)
    (hhyb : I.hybrid true = true) :
    Staged (chKeyShare true I s) (bs ++ (shareHead true I ++ shareTail true I)) ∧
      (chKeyShare true I s).split = bs.length + (shareHead true I).length := by
  have h₁ : Staged (chPut true chtKsH s) (bs ++ [0x00, 0x33]) :=
    h.put (by decide) (by simp; omega)
  have h₂ := h₁.putSum I 74 (by simp; omega)
  have h₃ := h₂.putSum I 72 (by simp; omega)
  have h₄ : Staged (chPut true chtGrp11ec (chPutSum I 72 (chPutSum I 74 (chPut true chtKsH s))))
      (bs ++ [0x00, 0x33] ++ len16 (add16 74 I.ksLen) ++ len16 (add16 72 I.ksLen) ++
        [0x11, 0xec]) :=
    h₃.put (by decide) (by simp; omega)
  have h₅ := h₄.putSum I 32 (by simp; omega)
  have h₇ := h₅.withSplit.putPub I (by simp; omega)
  have h₈ := h₇.put (show TemplateAt true chtEnt1d [0x00, 0x1d, 0x00, 0x20] by decide)
    (by simp; omega)
  have h₉ := h₈.putPub I (by simp; omega)
  have hcursor := h₅.cursor
  unfold chKeyShare shareHead shareTail
  simp only [hhyb, if_true]
  refine ⟨?_, ?_⟩
  · simp only [List.append_assoc] at h₉ ⊢
    exact h₉
  · rw [chPutPub_split, chPut_split, chPutPub_split]
    show ChBuf.y _ = _
    rw [hcursor]
    simp

theorem Staged.classicShare (h : Staged s bs) (hlt : bs.length + 42 < 256)
    (hno : I.hybrid sectioned = false) :
    Staged (chKeyShare sectioned I s) (bs ++ (shareHead sectioned I ++ shareTail sectioned I)) := by
  have htmpl : TemplateAt sectioned (chtKs sectioned)
      [0x00, 0x33, 0x00, 0x26, 0x00, 0x24, 0x00, 0x1d, 0x00, 0x20] := by
    cases sectioned <;> decide
  have h₁ := (h.put htmpl (by simp; omega)).putPub I (by simp; omega)
  unfold chKeyShare shareHead shareTail
  simp only [hno, Bool.false_eq_true, if_false]
  rw [List.append_assoc] at h₁
  exact h₁

/-- Either way. -/
theorem Staged.keyShare (h : Staged s bs) (hlt : bs.length + 80 < 256) :
    Staged (chKeyShare sectioned I s) (bs ++ (shareHead sectioned I ++ shareTail sectioned I)) ∧
      (I.hybrid sectioned = true →
        (chKeyShare sectioned I s).split = bs.length + (shareHead sectioned I).length) := by
  cases hhyb : I.hybrid sectioned with
  | true =>
      obtain ⟨rfl, -⟩ := hybrid_sectioned hhyb
      have hshare := h.hybridShare I hlt hhyb
      exact ⟨hshare.1, fun _ => hshare.2⟩
  | false =>
      refine ⟨h.classicShare (by omega) hhyb, ?_⟩
      intro hyes
      cases hyes

/-- The staged bytes of `server_name`. -/
def sniBytes (I : ChInputs) : List UInt8 :=
  if I.hostnameLen = 0 then []
  else
    [0x00, 0x00, 0x00, I.hostnameLen + 5, 0, I.hostnameLen + 3, 0x00, 0x00, I.hostnameLen] ++ I.host

theorem Staged.sni (h : Staged s bs) (sectioned : Bool) (I : ChInputs)
    (hlt : bs.length + I.hostnameLen.toNat + 9 < 256) :
    Staged (chSni sectioned I s) (bs ++ sniBytes I) := by
  have hsni₀ : TemplateAt sectioned (chtSni0 sectioned) [0x00, 0x00, 0x00] := by
    cases sectioned <;> decide
  have hsni₁ : TemplateAt sectioned (chtSni1 sectioned) [0x00, 0x00] := by
    cases sectioned <;> decide
  unfold chSni sniBytes
  by_cases hhost : I.hostnameLen = 0
  · rw [if_pos hhost, if_pos hhost, List.append_nil]
    exact h
  · rw [if_neg hhost, if_neg hhost]
    have h₁ := h.put hsni₀ (by simp; omega)
    have h₂ := h₁.putA (I.hostnameLen + 5) (by simp; omega)
    have h₃ := h₂.putA 0 (by simp; omega)
    have h₄ := h₃.putA (I.hostnameLen + 3) (by simp; omega)
    have h₅ := h₄.put hsni₁ (by simp; omega)
    have h₆ := h₅.putA I.hostnameLen (by simp; omega)
    have h₇ := Staged.copy I.hostname I.hostnameLen.toNat 0 h₆ (by simp; omega) (by omega)
    simp only [List.append_assoc] at h₇
    exact h₇

/-- One byte that is written again. -/
theorem Staged.patch {as : List UInt8} {b : UInt8} {n : Nat} (h : Staged s (as ++ b :: cs))
    (hn : as.length = n) (b' : UInt8) :
    Staged { s with buf := Function.update s.buf n b' } (as ++ b' :: cs) := by
  have hbytes := h.bytes
  have hlen : (as ++ b :: cs).length = as.length + (1 + cs.length) := by
    rw [List.length_append, List.length_cons, Nat.add_comm 1]
  rw [hlen, bytesAt_add, Nat.zero_add] at hbytes
  obtain ⟨has, hcs⟩ := List.append_inj hbytes (length_bytesAt _ _ _)
  rw [Nat.add_comm 1, bytesAt_succ, List.cons.injEq] at hcs
  subst hn
  refine ⟨h.cursor.trans (by simp), ?_⟩
  have hlen' : (as ++ b' :: cs).length = as.length + (cs.length + 1) := by
    rw [List.length_append, List.length_cons]
  rw [hlen', bytesAt_add, Nat.zero_add, bytesAt_succ]
  show bytesAt (Function.update s.buf as.length b') 0 as.length ++
    Function.update s.buf as.length b' as.length ::
      bytesAt (Function.update s.buf as.length b') (as.length + 1) cs.length = _
  rw [Function.update_self, update_eq_store,
    bytesAt_store_of_disjoint _ _ (Or.inl (by omega)),
    bytesAt_store_of_disjoint _ _ (Or.inr (by simp)), has, hcs.2]

/-- The message up to the first extension, which is the first template's. -/
def opening (len ext : Nat) (random : List UInt8) : List UInt8 :=
  [0x01] ++ (len24 len ++ ([0x03, 0x03] ++ (random ++ ([0x00, 0x00, 0x02, 0x13, 0x03, 0x01, 0x00] ++
    (len16 ext ++ [0x00, 0x2b, 0x00, 0x03, 0x02, 0x03, 0x04])))))

theorem length_opening (len ext : Nat) {random : List UInt8} (h : random.length = 32) :
    (opening len ext random).length = 54 := by
  unfold opening
  simp only [List.length_append, length_len24, length_len16, h, List.length_cons, List.length_nil]

theorem hi_of_lt {n : Nat} (h : n < 256) : hi n = 0 := by
  unfold hi
  rw [Nat.div_eq_of_lt h]
  rfl

/-- The bulk that the lengths count. -/
def bulkLen (sectioned : Bool) (I : ChInputs) : Nat :=
  if sectioned then I.ksLen else 0

theorem Staged.lengths {rest : List UInt8} (sectioned : Bool) (I : ChInputs)
    (h : Staged s (opening 0 0 I.random ++ rest)) (hlt : 54 + rest.length < 256) :
    Staged (chLengths sectioned I s)
      (opening (50 + rest.length + bulkLen sectioned I)
        (add16 (7 + rest.length) (bulkLen sectioned I)) I.random ++ rest) := by
  have hy : s.y = 54 + rest.length := by
    rw [h.cursor, List.length_append, length_opening 0 0 (length_random I)]
  have h₄ : sub8 s.y 4 = 50 + rest.length := by
    rw [hy]
    unfold sub8
    omega
  have h₄₇ : sub8 s.y 47 = 7 + rest.length := by
    rw [hy]
    unfold sub8
    omega
  -- the length of the extensions
  have hzero : opening 0 0 I.random ++ rest =
      ([0x01, 0, 0, 0, 0x03, 0x03] ++ I.random ++ [0x00, 0x00, 0x02, 0x13, 0x03, 0x01, 0x00, 0]) ++
        0 :: ([0x00, 0x2b, 0x00, 0x03, 0x02, 0x03, 0x04] ++ rest) := by
    simp [opening, len24, len16, hi, lo]
  have hext : ∀ b b' : UInt8,
      ([0x01, 0, 0, 0, 0x03, 0x03] ++ I.random ++ [0x00, 0x00, 0x02, 0x13, 0x03, 0x01, 0x00, b]) ++
          b' :: ([0x00, 0x2b, 0x00, 0x03, 0x02, 0x03, 0x04] ++ rest) =
        ([0x01, 0, 0, 0, 0x03, 0x03] ++ I.random ++ [0x00, 0x00, 0x02, 0x13, 0x03, 0x01, 0x00]) ++
          b :: (b' :: ([0x00, 0x2b, 0x00, 0x03, 0x02, 0x03, 0x04] ++ rest)) := by
    intro b b'
    simp
  rw [hzero] at h
  have h₁ := fun b => h.patch (show _ = 46 by simp) b
  -- the length of the message
  have hhead : ∀ b b' : UInt8,
      ([0x01, 0, 0, 0, 0x03, 0x03] ++ I.random ++ [0x00, 0x00, 0x02, 0x13, 0x03, 0x01, 0x00]) ++
          b :: (b' :: ([0x00, 0x2b, 0x00, 0x03, 0x02, 0x03, 0x04] ++ rest)) =
        [0x01, 0, 0] ++ 0 :: ([0x03, 0x03] ++ (I.random ++ ([0x00, 0x00, 0x02, 0x13, 0x03, 0x01,
          0x00, b, b', 0x00, 0x2b, 0x00, 0x03, 0x02, 0x03, 0x04] ++ rest))) := by
    intro b b'
    simp
  unfold chLengths bulkLen
  cases sectioned with
  | true =>
      simp only [if_true]
      rw [h₄, h₄₇]
      generalize hext' : add16 (7 + rest.length) I.ksLen = ext
      generalize hlen' : 50 + rest.length + I.ksLen = len
      have h₂ := h₁ (lo ext)
      rw [hext] at h₂
      have h₃ := h₂.patch (show _ = 45 by simp) (hi ext)
      rw [hhead] at h₃
      have h₅ := h₃.patch (show _ = 3 by simp) (lo len)
      have h₆ : Staged _ ([0x01, 0] ++ 0 :: (lo len :: ([0x03, 0x03] ++ (I.random ++ ([0x00, 0x00,
        0x02, 0x13, 0x03, 0x01, 0x00, hi ext, lo ext, 0x00, 0x2b, 0x00, 0x03, 0x02, 0x03,
        0x04] ++ rest))))) := h₅
      have h₇ := h₆.patch (show _ = 2 by simp) (hi len)
      have h₈ : Staged _ ([0x01] ++ 0 :: (hi len :: (lo len :: ([0x03, 0x03] ++ (I.random ++ ([0x00,
        0x00, 0x02, 0x13, 0x03, 0x01, 0x00, hi ext, lo ext, 0x00, 0x2b, 0x00, 0x03, 0x02, 0x03,
        0x04] ++ rest)))))) := h₇
      have h₉ := h₈.patch (show _ = 1 by simp) (UInt8.ofNat (len / 65536))
      have hlist : opening len ext I.random ++ rest = [0x01] ++ UInt8.ofNat (len / 65536) ::
          (hi len :: (lo len :: ([0x03, 0x03] ++ (I.random ++ ([0x00, 0x00, 0x02, 0x13, 0x03, 0x01,
            0x00, hi ext, lo ext, 0x00, 0x2b, 0x00, 0x03, 0x02, 0x03, 0x04] ++ rest))))) := by
        simp [opening, len24, len16]
      rw [hlist]
      exact h₉
  | false =>
      simp only [Bool.false_eq_true, if_false]
      rw [h₄, h₄₇]
      have h₂ := h₁ (UInt8.ofNat (7 + rest.length))
      rw [hext, hhead] at h₂
      have h₃ := h₂.patch (show _ = 3 by simp) (UInt8.ofNat (50 + rest.length))
      have hsmall : add16 (7 + rest.length) 0 = 7 + rest.length := add16_of_lt (by omega)
      have htop : (50 + rest.length) / 65536 = 0 := Nat.div_eq_of_lt (by omega)
      have hlist : opening (50 + rest.length + 0) (add16 (7 + rest.length) 0) I.random ++ rest =
          [0x01, 0, 0] ++ UInt8.ofNat (50 + rest.length) :: ([0x03, 0x03] ++ (I.random ++ ([0x00,
            0x00, 0x02, 0x13, 0x03, 0x01, 0x00, 0, UInt8.ofNat (7 + rest.length), 0x00, 0x2b, 0x00,
            0x03, 0x02, 0x03, 0x04] ++ rest))) := by
        rw [hsmall, Nat.add_zero]
        unfold opening len24 len16
        rw [htop, hi_of_lt (by omega), hi_of_lt (by omega)]
        simp [lo]
      rw [hlist]
      exact h₃

/-- The staged bytes of `supported_groups`. -/
def groupsBytes (sectioned : Bool) (I : ChInputs) : List UInt8 :=
  if I.hybrid sectioned then [0x00, 0x0a, 0x00, 0x06, 0x00, 0x04, 0x11, 0xec, 0x00, 0x1d]
  else [0x00, 0x0a, 0x00, 0x04, 0x00, 0x02, 0x00, 0x1d]

/-- The staged bytes behind the opening: up to the bulk, and from there on. -/
def beforeBulk (sectioned : Bool) (I : ChInputs) : List UInt8 :=
  groupsBytes sectioned I ++
    ([0x00, 0x0d, 0x00, 0x04, 0x00, 0x02, 0x04, 0x03] ++ shareHead sectioned I)

def behindBulk (sectioned : Bool) (I : ChInputs) : List UInt8 :=
  shareTail sectioned I ++ (sniBytes I ++ [0x00, 0x01, 0x00, 0x01, 0x01])

/-- How much is staged behind the opening. -/
def stagedRest (sectioned : Bool) (I : ChInputs) : Nat :=
  (beforeBulk sectioned I).length + (behindBulk sectioned I).length

theorem length_sniBytes_le (I : ChInputs) : (sniBytes I).length ≤ I.hostnameLen.toNat + 9 := by
  unfold sniBytes
  split
  · exact Nat.zero_le _
  · simp only [List.length_append, List.length_cons, List.length_nil, length_host]
    omega

theorem length_beforeBulk (sectioned : Bool) (I : ChInputs) :
    (beforeBulk sectioned I).length = if I.hybrid sectioned then 28 else 26 := by
  unfold beforeBulk groupsBytes shareHead
  cases I.hybrid sectioned <;> simp

theorem length_behindBulk (sectioned : Bool) (I : ChInputs) :
    (behindBulk sectioned I).length =
      (if I.hybrid sectioned then 68 else 32) + ((sniBytes I).length + 5) := by
  unfold behindBulk shareTail
  cases I.hybrid sectioned with
  | true =>
      simp only [if_true, List.length_append, List.length_cons, List.length_nil, length_pub]
  | false =>
      simp only [Bool.false_eq_true, if_false, List.length_append, List.length_cons,
        List.length_nil, length_pub]

theorem stagedRest_le (sectioned : Bool) {I : ChInputs} (hhost : I.hostnameLen.toNat ≤ 63) :
    stagedRest sectioned I ≤ 173 := by
  have hsni := length_sniBytes_le I
  unfold stagedRest
  rw [length_beforeBulk, length_behindBulk]
  split_ifs <;> omega

@[simp] theorem chSni_split (sectioned : Bool) (I : ChInputs) (s : ChBuf) :
    (chSni sectioned I s).split = s.split := by
  unfold chSni
  split
  · rfl
  · dsimp only
    rw [chCopy_split]
    show (chPut sectioned (chtSni1 sectioned) _).split = _
    rw [chPut_split]
    show (chPut sectioned (chtSni0 sectioned) s).split = _
    rw [chPut_split]

@[simp] theorem chLengths_split (sectioned : Bool) (I : ChInputs) (s : ChBuf) :
    (chLengths sectioned I s).split = s.split := by
  unfold chLengths
  split <;> rfl

/-- What the builder stages, and where it splits it. -/
theorem tlsBuildClientHello_staged (sectioned : Bool) {I : ChInputs} (buf : Buffer)
    (hhost : I.hostnameLen.toNat ≤ 63) :
    Staged (tlsBuildClientHello sectioned I buf)
        (opening (50 + stagedRest sectioned I + bulkLen sectioned I)
          (add16 (7 + stagedRest sectioned I) (bulkLen sectioned I)) I.random ++
          (beforeBulk sectioned I ++ behindBulk sectioned I)) ∧
      (I.hybrid sectioned = true →
        (tlsBuildClientHello sectioned I buf).split = 54 + (beforeBulk sectioned I).length) := by
  have hhead : TemplateAt sectioned chtHead [0x01, 0x00, 0x00, 0x00, 0x03, 0x03] := by
    cases sectioned <;> decide
  have hmid : TemplateAt sectioned chtMid [0x00, 0x00, 0x02, 0x13, 0x03, 0x01, 0x00, 0x00, 0x00,
      0x00, 0x2b, 0x00, 0x03, 0x02, 0x03, 0x04] := by
    cases sectioned <;> decide
  have hsig : TemplateAt sectioned (chtSigalgs sectioned)
      [0x00, 0x0d, 0x00, 0x04, 0x00, 0x02, 0x04, 0x03] := by
    cases sectioned <;> decide
  have hmfl : TemplateAt sectioned (chtMfl sectioned) [0x00, 0x01, 0x00, 0x01, 0x01] := by
    cases sectioned <;> decide
  have hgroups : TemplateAt sectioned (if I.hybrid sectioned then chtGroupsH else chtGroups)
      (groupsBytes sectioned I) := by
    unfold groupsBytes
    cases hhyb : I.hybrid sectioned with
    | true =>
        obtain ⟨rfl, -⟩ := hybrid_sectioned hhyb
        decide
    | false => cases sectioned <;> decide
  -- the fields in their order, one after the other
  have hstart : Staged { y := 0, buf := buf, split := 0 } [] := ⟨rfl, bytesAt_zero _ _⟩
  have hsni := length_sniBytes_le I
  have htail : (shareTail sectioned I).length ≤ 68 := by
    unfold shareTail
    split_ifs <;> simp
  have hgroupsLen : (groupsBytes sectioned I).length ≤ 10 := by
    unfold groupsBytes
    split_ifs <;> decide
  have hheadLen : (shareHead sectioned I).length ≤ 10 := by
    unfold shareHead
    split_ifs <;> simp
  have h₁ := hstart.put hhead (by simp)
  have h₂ := Staged.copy I.clientRandom 32 0 h₁ (by simp) (by decide)
  have h₃ := (h₂.put hmid (by simp)).put hgroups (by simp; omega)
  have h₄ := h₃.put hsig (by simp; omega)
  have h₅ := @Staged.keyShare sectioned I _ _ h₄ (by simp; omega)
  have h₆ := h₅.1.sni sectioned I (by simp; omega)
  have h₇ := h₆.put hmfl (by simp; omega)
  have hlist : ([] ++ [0x01, 0x00, 0x00, 0x00, 0x03, 0x03] ++ bytesAt I.clientRandom 0 32 ++
      [0x00, 0x00, 0x02, 0x13, 0x03, 0x01, 0x00, 0x00, 0x00, 0x00, 0x2b, 0x00, 0x03, 0x02, 0x03,
        0x04] ++ groupsBytes sectioned I ++ [0x00, 0x0d, 0x00, 0x04, 0x00, 0x02, 0x04, 0x03] ++
      (shareHead sectioned I ++ shareTail sectioned I) ++ sniBytes I ++
      [0x00, 0x01, 0x00, 0x01, 0x01]) =
      opening 0 0 I.random ++ (beforeBulk sectioned I ++ behindBulk sectioned I) := by
    unfold opening beforeBulk behindBulk
    simp [len24, len16, hi, lo, ChInputs.random]
  rw [hlist] at h₇
  have hrest : (beforeBulk sectioned I ++ behindBulk sectioned I).length =
      stagedRest sectioned I := List.length_append
  have hle := stagedRest_le sectioned hhost
  -- the lengths are written last, over zeros
  have h₈ := h₇.lengths sectioned I (by rw [hrest]; omega)
  rw [hrest] at h₈
  refine ⟨h₈, ?_⟩
  intro hhyb
  unfold tlsBuildClientHello
  dsimp only
  rw [chLengths_split, chPut_split, chSni_split, h₅.2 hhyb]
  unfold beforeBulk
  simp only [List.length_append, List.length_cons, List.length_nil, length_bytesAt]
  omega

end Staged

/-! ## The staged bytes are the message -/

section Message

variable {sectioned : Bool} {I : ChInputs}

theorem padded_one {n : Nat} (h : n < 256) : padded 1 n = [UInt8.ofNat n] := by
  refine (@eq_padded 1 n [UInt8.ofNat n] rfl ?_).symm
  rw [value_singleton]
  exact UInt8.toNat_ofNat_of_lt h

theorem padded_two {n : Nat} (h : n < 65536) : padded 2 n = len16 n := by
  refine (@eq_padded 2 n (len16 n) rfl ?_).symm
  unfold len16
  rw [value_cons, value_singleton]
  exact word_hi_lo h

theorem padded_three {n : Nat} (h : n < 16777216) : padded 3 n = len24 n := by
  refine (@eq_padded 3 n (len24 n) rfl ?_).symm
  have htop : (UInt8.ofNat (n / 65536)).toNat = n / 65536 :=
    UInt8.toNat_ofNat_of_lt (show n / 65536 < 256 by omega)
  have hlow : value [hi n, lo n] = n % 65536 := by
    rw [value_cons, value_singleton]
    unfold hi lo
    simp only [UInt8.toNat_ofNat', List.length_singleton]
    omega
  unfold len24
  rw [value_cons, hlow, htop]
  simp only [List.length_cons, List.length_nil]
  omega

/-- The bulk that goes out. -/
def sentBulk (sectioned : Bool) (I : ChInputs) : List UInt8 :=
  if I.hybrid sectioned then I.bulk else []

theorem length_sentBulk (sectioned : Bool) (I : ChInputs) :
    (sentBulk sectioned I).length = bulkLen sectioned I := by
  unfold sentBulk bulkLen ChInputs.hybrid
  cases sectioned with
  | true =>
      by_cases h : I.ksLen = 0
      · simp [h]
      · simp [h]
  | false => simp

/-- How long the message is. -/
def helloLen (sectioned : Bool) (I : ChInputs) : Nat :=
  54 + stagedRest sectioned I + bulkLen sectioned I

theorem encode_versions :
    (ClientExt.supportedVersions [0x0304]).encode = [0x00, 0x2b, 0x00, 0x03, 0x02, 0x03, 0x04] := by
  simp [ClientExt.encode, ClientExt.ty, ClientExt.data, codes, vector, padded_one, padded_two,
    len16, hi, lo]

theorem encode_groups (sectioned : Bool) (I : ChInputs) :
    (ClientExt.supportedGroups ((I.shares sectioned).map Prod.fst)).encode =
      groupsBytes sectioned I := by
  unfold ChInputs.shares groupsBytes
  cases I.hybrid sectioned <;>
    simp [ClientExt.encode, ClientExt.ty, ClientExt.data, codes, vector, padded_two, len16, hi, lo]

theorem encode_sigalgs :
    (ClientExt.signatureAlgorithms [0x0403]).encode =
      [0x00, 0x0d, 0x00, 0x04, 0x00, 0x02, 0x04, 0x03] := by
  simp [ClientExt.encode, ClientExt.ty, ClientExt.data, codes, vector, padded_two, len16, hi, lo]

theorem encode_mfl :
    (ClientExt.maxFragmentLength 1).encode = [0x00, 0x01, 0x00, 0x01, 0x01] := by
  simp [ClientExt.encode, ClientExt.ty, ClientExt.data, vector, padded_two, len16, hi, lo]

theorem hybrid_fits (hhyb : I.hybrid sectioned = true) (hlen : helloLen sectioned I < 65536) :
    I.ksLen + 74 < 65536 := by
  obtain ⟨rfl, -⟩ := hybrid_sectioned hhyb
  have hrest : 63 ≤ stagedRest true I := by
    unfold stagedRest
    rw [length_beforeBulk, length_behindBulk, hhyb, if_pos rfl, if_pos rfl]
    omega
  unfold helloLen bulkLen at hlen
  rw [if_pos rfl] at hlen
  omega

theorem encode_shares (hlen : helloLen sectioned I < 65536) :
    (ClientExt.keyShare (I.shares sectioned)).encode =
      shareHead sectioned I ++ (sentBulk sectioned I ++ shareTail sectioned I) := by
  unfold ChInputs.shares shareHead shareTail sentBulk
  split
  · rename_i hhyb
    have hfits := hybrid_fits hhyb hlen
    have hentries : ([(0x11ec, I.bulk ++ I.pub), (0x1d, I.pub)].flatMap shareEntry) =
        [0x11, 0xec] ++ (len16 (32 + I.ksLen) ++ (I.bulk ++ (I.pub ++
          ([0x00, 0x1d, 0x00, 0x20] ++ I.pub)))) := by
      have hlen : (I.bulk ++ I.pub).length = 32 + I.ksLen := by
        rw [List.length_append, length_bulk, length_pub, Nat.add_comm]
      simp [shareEntry, vector, padded_two, hlen, show 32 + I.ksLen < 65536 by omega, len16, hi, lo]
    have hcount : ([(0x11ec, I.bulk ++ I.pub), (0x1d, I.pub)].flatMap shareEntry).length =
        72 + I.ksLen := by
      rw [hentries]
      simp only [List.length_append, length_len16, length_bulk, length_pub, List.length_cons,
        List.length_nil]
      omega
    have hdata : (vector 2 ([(0x11ec, I.bulk ++ I.pub), (0x1d, I.pub)].flatMap shareEntry)).length =
        74 + I.ksLen := by
      unfold vector
      rw [List.length_append, hcount, length_padded (show 72 + I.ksLen < 256 ^ 2 by omega)]
      omega
    have hsum : ∀ n, n ≤ 74 → add16 n I.ksLen = n + I.ksLen :=
      fun n hn => add16_of_lt (by omega)
    show padded 2 0x33 ++ vector 2 (vector 2 _) = _
    unfold vector at hdata ⊢
    rw [hdata, hcount, hentries, padded_two (by decide), padded_two (by omega),
      padded_two (by omega), hsum 74 (by omega), hsum 72 (by omega), hsum 32 (by omega)]
    simp [len16, hi, lo]
  · simp [ClientExt.encode, ClientExt.ty, ClientExt.data, shareEntry, vector, padded_two, len16,
      hi, lo]

/-- The list of the one name. -/
theorem flatMap_host (hhost : I.hostnameLen.toNat ≤ 63) :
    [I.host].flatMap hostName = [0x00, 0x00, I.hostnameLen] ++ I.host := by
  simp [hostName, vector, padded_one, padded_two, len16, lo,
    hi_of_lt (show I.hostnameLen.toNat < 256 by omega),
    show I.hostnameLen.toNat < 65536 by omega]

theorem encode_names (hhost : I.hostnameLen.toNat ≤ 63) :
    I.names.flatMap ClientExt.encode = sniBytes I := by
  unfold ChInputs.names sniBytes
  split
  · rfl
  · have h₅ : I.hostnameLen + 5 = lo (I.hostnameLen.toNat + 5) := by
      unfold lo
      rw [UInt8.ofNat_add, UInt8.ofNat_toNat]
      rfl
    have h₃ : I.hostnameLen + 3 = lo (I.hostnameLen.toNat + 3) := by
      unfold lo
      rw [UInt8.ofNat_add, UInt8.ofNat_toNat]
      rfl
    have hname := flatMap_host (I := I) hhost
    have hcount : ([I.host].flatMap hostName).length = I.hostnameLen.toNat + 3 := by
      rw [hname, List.length_append, length_host]
      exact Nat.add_comm _ _
    have hdata : (vector 2 ([I.host].flatMap hostName)).length = I.hostnameLen.toNat + 5 := by
      unfold vector
      rw [List.length_append, hcount,
        length_padded (show I.hostnameLen.toNat + 3 < 256 ^ 2 by omega)]
      exact Nat.add_comm _ _
    show padded 2 0x00 ++ vector 2 (vector 2 _) ++ [] = _
    unfold vector at hdata ⊢
    rw [hdata, hcount, hname, padded_two (by decide), padded_two (by omega),
      padded_two (by omega), h₅, h₃]
    simp [len16, lo, hi_of_lt (show I.hostnameLen.toNat + 5 < 256 by omega),
      hi_of_lt (show I.hostnameLen.toNat + 3 < 256 by omega), hi_of_lt (show 0 < 256 by decide)]

/-- The extensions, with the bulk between the two halves. -/
theorem encode_extensions (hhost : I.hostnameLen.toNat ≤ 63)
    (hlen : helloLen sectioned I < 65536) :
    (I.hello sectioned).extensions.flatMap ClientExt.encode =
      [0x00, 0x2b, 0x00, 0x03, 0x02, 0x03, 0x04] ++ (beforeBulk sectioned I ++
        (sentBulk sectioned I ++ behindBulk sectioned I)) := by
  unfold ChInputs.hello beforeBulk behindBulk
  simp only [List.flatMap_append, List.flatMap_cons, List.flatMap_nil, encode_versions,
    encode_groups, encode_sigalgs, encode_shares hlen, encode_names hhost, encode_mfl,
    List.append_assoc, List.append_nil]

theorem length_extensions (hhost : I.hostnameLen.toNat ≤ 63)
    (hlen : helloLen sectioned I < 65536) :
    ((I.hello sectioned).extensions.flatMap ClientExt.encode).length =
      7 + stagedRest sectioned I + bulkLen sectioned I := by
  rw [encode_extensions hhost hlen]
  simp only [List.length_append, length_sentBulk, List.length_cons, List.length_nil]
  unfold stagedRest
  omega

/-- The message is what is staged, with the bulk where the split is. -/
theorem hello_message (hhost : I.hostnameLen.toNat ≤ 63) (hlen : helloLen sectioned I < 65536) :
    (I.hello sectioned).message =
      opening (50 + stagedRest sectioned I + bulkLen sectioned I)
        (add16 (7 + stagedRest sectioned I) (bulkLen sectioned I)) I.random ++
        (beforeBulk sectioned I ++ (sentBulk sectioned I ++ behindBulk sectioned I)) := by
  have hexts := length_extensions hhost hlen
  unfold helloLen at hlen
  have hbody : (I.hello sectioned).body = [0x03, 0x03] ++ (I.random ++ ([0x00, 0x00, 0x02, 0x13,
      0x03, 0x01, 0x00] ++ (len16 (7 + stagedRest sectioned I + bulkLen sectioned I) ++
        (I.hello sectioned).extensions.flatMap ClientExt.encode))) := by
    have hversion : padded 2 0x0303 = [0x03, 0x03] := padded_two (by decide)
    have hsession : vector 1 (I.hello sectioned).sessionId = [0x00] := by
      simp [ChInputs.hello, vector, padded_one]
    have hsuites : vector 2 (codes (I.hello sectioned).suites) = [0x00, 0x02, 0x13, 0x03] := by
      simp [ChInputs.hello, codes, vector, padded_two, len16, hi, lo]
    have hcompression : vector 1 (I.hello sectioned).compression = [0x01, 0x00] := by
      simp [ChInputs.hello, vector, padded_one]
    have hblock : vector 2 ((I.hello sectioned).extensions.flatMap ClientExt.encode) =
        len16 (7 + stagedRest sectioned I + bulkLen sectioned I) ++
          (I.hello sectioned).extensions.flatMap ClientExt.encode := by
      unfold vector
      rw [hexts, padded_two (by omega)]
    unfold ClientHello.body
    rw [hversion, hsession, hsuites, hcompression, hblock]
    simp [ChInputs.hello]
  have hsize : (I.hello sectioned).body.length =
      50 + stagedRest sectioned I + bulkLen sectioned I := by
    rw [hbody]
    simp only [List.length_append, hexts, length_len16, length_random, List.length_cons,
      List.length_nil]
    omega
  have htype : padded 1 1 = [0x01] := padded_one (by decide)
  have hsum : add16 (7 + stagedRest sectioned I) (bulkLen sectioned I) =
      7 + stagedRest sectioned I + bulkLen sectioned I := add16_of_lt (by omega)
  unfold ClientHello.message vector
  rw [hsize, htype, padded_three (by omega), hbody, encode_extensions hhost hlen, hsum]
  unfold opening
  simp only [List.append_assoc]

theorem length_data_le {e : ClientExt} {es : List ClientExt} (he : e ∈ es) :
    e.data.length ≤ (es.flatMap ClientExt.encode).length := by
  obtain ⟨as, bs, rfl⟩ := List.append_of_mem he
  simp only [List.flatMap_append, List.flatMap_cons, List.length_append, ClientExt.encode, vector]
  omega

/-- The shares keep their bounds. -/
theorem shares_valid (hlen : helloLen sectioned I < 65536) :
    ∀ s ∈ I.shares sectioned, s.1 < 65536 ∧ 1 ≤ s.2.length ∧ s.2.length < 65536 := by
  intro s hs
  unfold ChInputs.shares at hs
  split at hs
  · rename_i hhyb
    have hfits := hybrid_fits hhyb hlen
    rcases List.mem_cons.1 hs with rfl | hs
    · refine ⟨by simp, ?_, ?_⟩
      · simp
      · simp
        omega
    · rw [List.mem_singleton.1 hs]
      exact ⟨by simp, by simp, by simp⟩
  · rw [List.mem_singleton.1 hs]
    exact ⟨by simp, by simp, by simp⟩

theorem extension_valid (hhost : I.hostnameLen.toNat ≤ 63) (hlen : helloLen sectioned I < 65536) :
    ∀ e ∈ (I.hello sectioned).extensions, e.Valid := by
  intro e he
  have hdata := length_data_le he
  rw [length_extensions hhost hlen] at hdata
  have hmem : e = .supportedVersions [0x0304] ∨
      e = .supportedGroups ((I.shares sectioned).map Prod.fst) ∨
      e = .signatureAlgorithms [0x0403] ∨ e = .keyShare (I.shares sectioned) ∨ e ∈ I.names ∨
      e = .maxFragmentLength 1 := by
    simpa [ChInputs.hello, or_assoc] using he
  rcases hmem with rfl | rfl | rfl | rfl | hname | rfl
  · simp [ClientExt.Valid, codes, padded_two]
  · unfold ClientExt.Valid ChInputs.shares
    cases I.hybrid sectioned <;> simp [codes, padded_two]
  · simp [ClientExt.Valid, codes, padded_two]
  · refine ⟨shares_valid hlen, ?_⟩
    have hentries : ((I.shares sectioned).flatMap shareEntry).length ≤
        (ClientExt.keyShare (I.shares sectioned)).data.length := by
      unfold ClientExt.data vector
      rw [List.length_append]
      exact Nat.le_add_left _ _
    unfold helloLen at hlen
    omega
  · unfold ChInputs.names at hname
    split at hname
    · cases hname
    · rename_i hne
      have hpos : 1 ≤ I.hostnameLen.toNat :=
        Nat.pos_of_ne_zero fun h => hne (UInt8.toNat.inj h)
      rw [List.mem_singleton.1 hname]
      have hcount : ([I.host].flatMap hostName).length = I.hostnameLen.toNat + 3 := by
        rw [flatMap_host hhost, List.length_append, length_host]
        exact Nat.add_comm _ _
      refine ⟨?_, by omega, by omega⟩
      intro n hn
      rw [List.mem_singleton.1 hn, length_host]
      omega
  · trivial

/-- The message keeps the bounds of the grammar. -/
theorem hello_valid (hhost : I.hostnameLen.toNat ≤ 63) (hlen : helloLen sectioned I < 65536) :
    (I.hello sectioned).Valid where
  random := length_random I
  sessionId := Nat.zero_le _
  suite := by
    intro n hn
    rw [List.mem_singleton.1 hn]
    decide
  suites_pos := by simp [ChInputs.hello, codes, padded_two]
  suites_lt := by simp [ChInputs.hello, codes, padded_two]
  compression_pos := by simp [ChInputs.hello]
  compression_lt := by simp [ChInputs.hello]
  ext := by
    intro e he
    have hdata := length_data_le he
    rw [length_extensions hhost hlen] at hdata
    unfold helloLen at hlen
    exact ⟨extension_valid hhost hlen e he, by omega⟩
  distinct := by
    unfold ChInputs.hello ChInputs.names
    split <;> simp [ClientExt.ty]
  exts_pos := by
    have hrest : 26 ≤ (beforeBulk sectioned I).length := by
      rw [length_beforeBulk]
      split_ifs <;> decide
    rw [length_extensions hhost hlen]
    unfold stagedRest
    omega
  exts_lt := by
    rw [length_extensions hhost hlen]
    unfold helloLen at hlen
    omega

end Message

/-! ## Both ways out -/

section Sent

variable {κ : Type} {E : ConnEnv κ} {c c' : Conn κ} {sectioned : Bool} {I : ChInputs}

/-- The sections put together are the message. -/
theorem builtHello_sections (buf : Buffer) (hhost : I.hostnameLen.toNat ≤ 63)
    (hlen : helloLen sectioned I < 65536) :
    (builtHello sectioned I buf).head ++ (builtHello sectioned I buf).bulk ++
        (builtHello sectioned I buf).tail = (I.hello sectioned).message := by
  obtain ⟨hstaged, hsplit⟩ := tlsBuildClientHello_staged sectioned buf hhost
  have hopen := length_opening (50 + stagedRest sectioned I + bulkLen sectioned I)
    (add16 (7 + stagedRest sectioned I) (bulkLen sectioned I)) (length_random I)
  have hcursor := hstaged.cursor
  have hbytes := hstaged.bytes
  rw [← hcursor] at hbytes
  rw [hello_message hhost hlen]
  generalize hs : tlsBuildClientHello sectioned I buf = s at hbytes hcursor hsplit
  generalize opening (50 + stagedRest sectioned I + bulkLen sectioned I)
    (add16 (7 + stagedRest sectioned I) (bulkLen sectioned I)) I.random = start at *
  have hrest := stagedRest_le sectioned hhost
  rw [List.length_append, List.length_append, hopen] at hcursor
  unfold stagedRest at hrest
  unfold builtHello sentBulk
  rw [hs]
  cases hhyb : I.hybrid sectioned with
  | true =>
      have hat := hsplit hhyb
      have htail : sub16 s.y s.split = (behindBulk sectioned I).length := by
        rw [hcursor, hat, sub16_of_le (by omega) (by omega)]
        omega
      have hcut : s.y = s.split + (behindBulk sectioned I).length := by
        omega
      rw [hcut, bytesAt_add, Nat.zero_add, ← List.append_assoc] at hbytes
      obtain ⟨hhead, hend⟩ := List.append_inj' hbytes (length_bytesAt _ _ _)
      simp only [if_true]
      rw [hhead, htail, hend]
      simp only [ChInputs.bulk, List.append_assoc]
  | false =>
      simp only [Bool.false_eq_true, if_false]
      rw [hbytes]
      simp only [List.append_nil, List.nil_append]

/-- A plaintext record on the wire: the header, then what is in the buffer. -/
theorem tlsRecordSendPlaintext_sent (ty : UInt8)
    (h : tlsRecordSendPlaintext E.toRecordEnv c ty = (c', true)) :
    c'.sent.flatten = c.sent.flatten ++ ([ty, 3, 3, hi c.hs.recLen, lo c.hs.recLen] ++ c.record) ∧
      c'.hs = c.hs := by
  have hhdr : bytesAt (recordHeader ty c.hs.recLen c.recHdr) 0 5 =
      [ty, 3, 3, hi c.hs.recLen, lo c.hs.recLen] := bytesAt_ofList _ _
  unfold tlsRecordSendPlaintext tlsSendRecord netTcpSend at h
  dsimp only at h
  rw [hhdr] at h
  split at h
  · obtain ⟨rfl, -⟩ := Prod.mk.inj h
    refine ⟨?_, rfl⟩
    simp [Conn.record]
  · rename_i hno
    exact absurd (congrArg Prod.snd h) hno

theorem tlsChSection_sent {bs : List UInt8} (h : tlsChSection E bs c = some (c', true)) :
    c'.sent.flatten = c.sent.flatten ++ bs ∧
      c'.hs.transcript = tlsTranscriptUpdate E.df.sha c.hs.transcript bs := by
  unfold tlsChSection netTcpSend at h
  dsimp only at h
  split at h
  · obtain ⟨rfl, -⟩ := Prod.mk.inj (Option.some.inj h)
    refine ⟨?_, rfl⟩
    show (c.sent ++ [bs]).flatten = _
    simp
  · rename_i hno
    exact absurd (congrArg Prod.snd (Option.some.inj h)) hno

theorem length_message (hhost : I.hostnameLen.toNat ≤ 63) (hlen : helloLen sectioned I < 65536) :
    (I.hello sectioned).message.length = helloLen sectioned I := by
  rw [hello_message hhost hlen]
  simp only [List.length_append, length_opening _ _ (length_random I), length_sentBulk]
  unfold helloLen stagedRest
  omega

/-- The five bytes of the header, and the message behind it. -/
theorem record_eq (hhost : I.hostnameLen.toNat ≤ 63) (hlen : helloLen sectioned I < 65536) :
    (I.hello sectioned).record =
      [ctHandshake, 3, 3, hi (helloLen sectioned I), lo (helloLen sectioned I)] ++
        (I.hello sectioned).message := by
  have htype : padded 1 22 = [ctHandshake] := padded_one (by decide)
  have hversion : padded 2 0x0303 = [0x03, 0x03] := padded_two (by decide)
  unfold ClientHello.record vector
  rw [length_message hhost hlen, htype, hversion, padded_two hlen]
  rfl

/-- A message in one piece, folded when it is out. -/
theorem tlsChSendClassic_sent (h : tlsChSendClassic E c = some (c', true)) :
    c'.sent.flatten =
        c.sent.flatten ++ ([ctHandshake, 3, 3, hi c.hs.recLen, lo c.hs.recLen] ++ c.record) ∧
      c'.hs.transcript = tlsTranscriptUpdate E.df.sha c.hs.transcript c.record := by
  unfold tlsChSendClassic at h
  dsimp only at h
  split at h
  · rename_i hok
    obtain ⟨hsent, hkept⟩ := tlsRecordSendPlaintext_sent ctHandshake (Prod.ext rfl hok)
    have hrecord : (tlsRecordSendPlaintext E.toRecordEnv c ctHandshake).1.record = c.record := by
      unfold Conn.record
      rw [hkept]
    rw [hrecord] at h
    obtain ⟨rfl, -⟩ := Prod.mk.inj (Option.some.inj h)
    refine ⟨hsent, ?_⟩
    unfold Conn.fold
    dsimp only
    rw [hkept]
  · rename_i hno
    exact absurd (congrArg Prod.snd (Option.some.inj h)) hno

/-- A message in sections: the header, head, bulk and tail, each folded as it is sent. -/
theorem tlsChSendSections_sent {h : Hello}
    (hrun : tlsChSendSections E h c = some (c', true)) :
    c'.sent.flatten = c.sent.flatten ++ ([ctHandshake, 3, 3,
        hi (h.head.length + h.bulk.length + h.tail.length),
        lo (h.head.length + h.bulk.length + h.tail.length)] ++ (h.head ++ h.bulk ++ h.tail)) ∧
      c'.hs.transcript =
        tlsTranscriptUpdate E.df.sha c.hs.transcript (h.head ++ h.bulk ++ h.tail) := by
  unfold tlsChSendSections at hrun
  dsimp only at hrun
  obtain ⟨c₃, hrun, htail⟩ := Routine.next_success hrun
  obtain ⟨c₂, hrun, hbulk⟩ := Routine.next_success hrun
  obtain ⟨c₁, hheader, hhead⟩ := Routine.next_success hrun
  obtain ⟨hsent₁, hfold₁⟩ := tlsChSection_sent hhead
  obtain ⟨hsent₂, hfold₂⟩ := tlsChSection_sent hbulk
  obtain ⟨hsent₃, hfold₃⟩ := tlsChSection_sent htail
  have hhdr : bytesAt (recordHeader ctHandshake (h.head.length + h.bulk.length + h.tail.length)
      c.recHdr) 0 5 = [ctHandshake, 3, 3, hi (h.head.length + h.bulk.length + h.tail.length),
        lo (h.head.length + h.bulk.length + h.tail.length)] := bytesAt_ofList _ _
  have hc₁ : c₁ = _ := (congrArg Prod.fst (Option.some.inj hheader)).symm
  have hsent : c₁.sent = c.sent ++ [[ctHandshake, 3, 3,
      hi (h.head.length + h.bulk.length + h.tail.length),
      lo (h.head.length + h.bulk.length + h.tail.length)]] := by
    rw [hc₁, ← hhdr]
    rfl
  have hfold : c₁.hs = c.hs := by
    rw [hc₁]
    rfl
  refine ⟨?_, ?_⟩
  · rw [hsent₃, hsent₂, hsent₁, hsent]
    simp
  · rw [hfold₃, hfold₂, hfold₁, hfold, ← tlsTranscriptUpdate_append,
      ← tlsTranscriptUpdate_append, List.append_assoc]

/-- A ClientHello that was sent, in one piece or in sections: what went out is one record, from which
a server reads the inputs, and the transcript took in the message and nothing else. -/
theorem clientHello_sent (E : ConnEnv κ) (sectioned : Bool) (I : ChInputs) (buf : Buffer)
    (limit : Nat) (hlimit : limit < 65536) (hhost : I.hostnameLen.toNat ≤ 63)
    (hfits : (tlsBuildClientHello sectioned I buf).y + bulkLen sectioned I ≤ limit) (c c' : Conn κ)
    (hrun : tlsSendClientHello E (builtHello sectioned I buf) c = some (c', true)) :
    ∃ wire, c'.sent.flatten = c.sent.flatten ++ wire ∧
      readRecord limit wire = some (I.hello sectioned) ∧
      c'.hs.transcript =
        tlsTranscriptUpdate E.df.sha (tlsTranscriptInit E.df.sha) (wire.drop 5) := by
  have hcursor := (tlsBuildClientHello_staged sectioned buf hhost).1.cursor
  rw [List.length_append, length_opening _ _ (length_random I), List.length_append] at hcursor
  have hle : helloLen sectioned I ≤ limit := by
    unfold helloLen stagedRest
    omega
  have hlen : helloLen sectioned I < 65536 := Nat.lt_of_le_of_lt hle hlimit
  have hsections := builtHello_sections buf hhost hlen
  have hsize := length_message hhost hlen
  have hrecord := record_eq hhost hlen
  have hdrop : (I.hello sectioned).record.drop 5 = (I.hello sectioned).message := by
    rw [hrecord]
    rfl
  generalize builtHello sectioned I buf = h at hsections hrun
  have hcount : h.head.length + h.bulk.length + h.tail.length = helloLen sectioned I := by
    rw [← hsize, ← hsections, List.length_append, List.length_append]
  suffices hout : c'.sent.flatten = c.sent.flatten ++ (I.hello sectioned).record ∧
      c'.hs.transcript = tlsTranscriptUpdate E.df.sha (tlsTranscriptInit E.df.sha)
        (I.hello sectioned).message by
    refine ⟨(I.hello sectioned).record, hout.1, readRecord_record (hello_valid hhost hlen)
      (by rw [hsize]; exact hle) hlimit, ?_⟩
    rw [hdrop]
    exact hout.2
  unfold tlsSendClientHello at hrun
  dsimp only at hrun
  split at hrun
  · -- in one piece
    rename_i hbulk
    have hone : h.head ++ h.tail = (I.hello sectioned).message := by
      rw [← hsections, hbulk, List.append_nil]
    have hrecord' : (({ c with hs := { c.hs with transcript := tlsTranscriptInit E.df.sha } } :
        Conn κ).withRecord (store c.hs.recBuf 0 (h.head ++ h.tail))
          (h.head ++ h.tail).length).record = h.head ++ h.tail := bytesAt_store_self _ _ _
    obtain ⟨hsent, hfold⟩ := tlsChSendClassic_sent hrun
    rw [hrecord', hone] at hsent hfold
    refine ⟨?_, hfold⟩
    rw [hsent, hrecord, ← hsize]
    rfl
  · -- in sections
    obtain ⟨hsent, hfold⟩ := tlsChSendSections_sent hrun
    rw [hcount, hsections, ← hrecord] at hsent
    rw [hsections] at hfold
    exact ⟨hsent, hfold⟩

/-- A name of two bytes and a bulk of three. -/
def ChInputs.sample : ChInputs where
  clientRandom := fun _ => 7
  ecdhePubkey := fun i => UInt8.ofNat i
  hostname := fun _ => 0x61
  hostnameLen := 2
  ks := fun _ => 9
  ksLen := 3

theorem clientHello_sent_sample :
    ∃ c' wire, tlsSendClientHello ConnEnv.accepting (builtHello true .sample fun _ => 0)
        (.blank []) = some (c', true) ∧
      c'.sent.flatten = (Conn.blank []).sent.flatten ++ wire ∧
      readRecord 16384 wire = some (ChInputs.sample.hello true) ∧
      c'.hs.transcript = tlsTranscriptUpdate ConnEnv.accepting.df.sha
        (tlsTranscriptInit ConnEnv.accepting.df.sha) (wire.drop 5) := by
  have hfits : (tlsBuildClientHello true .sample fun _ => 0).y + bulkLen true .sample ≤ 16384 := by
    decide +kernel
  have hrun : ∃ c', tlsSendClientHello ConnEnv.accepting (builtHello true .sample fun _ => 0)
      (.blank []) = some (c', true) := ⟨_, rfl⟩
  obtain ⟨c', hrun⟩ := hrun
  obtain ⟨wire, h⟩ := clientHello_sent ConnEnv.accepting true .sample (fun _ => 0) 16384
    (by decide) (by decide) hfits (.blank []) c' hrun
  exact ⟨c', wire, hrun, h⟩

end Sent

end Tls
end C64Https
