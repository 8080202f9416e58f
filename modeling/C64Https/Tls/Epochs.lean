import C64Https.Tls.ConnectOrder

/-!
# Epochs — keys, counters and nonces over runs of the client

A run is a sequence of connections, sends, receives and closes.  Each connection that gets so far
derives two sets of keys, one for the handshake and one for the application; the records between two
key changes are an epoch.  Each counter is the number of records of its epoch (`Numbered`), so no
nonce comes twice (`epochs_disciplined`), as long as `tls_recv` is not called in the `ERROR` that a failed
`tls_connect` leaves behind.
-/

namespace C64Https
namespace Tls

open Word Loop Bytes Fallible

variable {κ : Type}

/-! ## Sequence numbers as numbers -/

/-- The value of a byte string, least significant byte first. -/
def leVal : List UInt8 → Nat
  | [] => 0
  | b :: bs => b.toNat + 256 * leVal bs

/-- The value of a sequence number. -/
def seqVal (seq : List UInt8) : Nat :=
  leVal seq.reverse

theorem leVal_lt (bs : List UInt8) : leVal bs < 256 ^ bs.length := by
  induction bs with
  | nil => exact Nat.one_pos
  | cons b bs ih =>
      have hb := toNat_lt b
      show b.toNat + 256 * leVal bs < 256 ^ (bs.length + 1)
      rw [Nat.pow_succ]
      omega

@[simp] theorem length_seqCarry (bs : List UInt8) : (seqCarry bs).length = bs.length := by
  induction bs with
  | nil => rfl
  | cons b bs ih =>
      unfold seqCarry
      split
      · rw [List.length_cons, List.length_cons, ih]
      · rfl

theorem leVal_seqCarry (bs : List UInt8) :
    leVal (seqCarry bs) = (leVal bs + 1) % 256 ^ bs.length := by
  induction bs with
  | nil => rfl
  | cons b bs ih =>
      have hb := toNat_lt b
      have hlt := leVal_lt bs
      have hcons : leVal (b :: bs) = b.toNat + 256 * leVal bs := rfl
      have hadd : (b + 1).toNat = (b.toNat + 1) % 256 := UInt8.toNat_add b 1
      have hpow : 256 ^ (b :: bs).length = 256 * 256 ^ bs.length := by
        rw [List.length_cons, Nat.pow_succ, Nat.mul_comm]
      unfold seqCarry
      by_cases hcarry : b + 1 = 0
      · have hzero : (b + 1).toNat = 0 := by
          rw [hcarry]
          rfl
        have hall : leVal (b :: bs) + 1 = 256 * (leVal bs + 1) := by
          omega
        rw [if_pos hcarry, hall, hpow, Nat.mul_mod_mul_left, ← ih]
        show 0 + 256 * leVal (seqCarry bs) = _
        rw [Nat.zero_add]
      · have hne : (b + 1).toNat ≠ 0 := by
          intro hz
          exact hcarry (UInt8.toNat_inj.1 hz)
        have hsmall : leVal (b :: bs) + 1 < 256 ^ (b :: bs).length := by
          rw [hpow, hcons]
          omega
        rw [if_neg hcarry, Nat.mod_eq_of_lt hsmall]
        show (b + 1).toNat + 256 * leVal bs = _
        omega

/-- The counter after `n` records. -/
def seqAt (n : Nat) : List UInt8 :=
  tlsSeqIncrement^[n] zeroSeq

theorem seqAt_succ (n : Nat) : seqAt (n + 1) = tlsSeqIncrement (seqAt n) :=
  Function.iterate_succ_apply' _ _ _

theorem length_seqAt (n : Nat) : (seqAt n).length = 8 := by
  induction n with
  | zero => rfl
  | succ n ih =>
      rw [seqAt_succ]
      unfold tlsSeqIncrement
      rw [List.length_reverse, length_seqCarry, List.length_reverse, ih]

theorem seqVal_seqAt {n : Nat} (h : n < 2 ^ 64) : seqVal (seqAt n) = n := by
  induction n with
  | zero => rfl
  | succ n ih =>
      have hlen : (seqAt n).reverse.length = 8 := by
        rw [List.length_reverse, length_seqAt]
      have hprev : leVal (seqAt n).reverse = n := ih (by omega)
      rw [seqAt_succ]
      unfold seqVal tlsSeqIncrement
      rw [List.reverse_reverse, leVal_seqCarry, hlen, hprev]
      exact Nat.mod_eq_of_lt (by omega)

/-! ## The log -/

/-- The keys of one direction. -/
def TrafficKeys.ofDir (K : TrafficKeys) : Dir → DirKeys
  | .write => K.write
  | .read => K.read

/-- The records sealed, or opened, under `k` so far. -/
def processed (dir : Dir) (k : DirKeys) (us : List AeadUse) : Nat :=
  us.countP fun u => decide (u.dir = dir ∧ u.keys = k ∧ u.ok = true)

/-- The nonce of a record. -/
def nonceOf (k : DirKeys) (seq : List UInt8) : List UInt8 :=
  k.iv.take 4 ++ List.zipWith (· ^^^ ·) (k.iv.drop 4) seq

/-- Every record was processed with the number of the records of its key before it. -/
inductive Numbered : List AeadUse → Prop where
  | nil : Numbered []
  | snoc {us : List AeadUse} {u : AeadUse} (h : Numbered us)
      (hseq : u.seq = seqAt (processed u.dir u.keys us)) (hnonce : u.nonce = nonceOf u.keys u.seq)
      (hok : u.dir = .write → u.ok = true) : Numbered (us ++ [u])

theorem processed_append (dir : Dir) (k : DirKeys) (us vs : List AeadUse) :
    processed dir k (us ++ vs) = processed dir k us + processed dir k vs :=
  List.countP_append

theorem processed_snoc_of {dir : Dir} {k : DirKeys} {us : List AeadUse} {u : AeadUse}
    (h : u.dir = dir ∧ u.keys = k ∧ u.ok = true) :
    processed dir k (us ++ [u]) = processed dir k us + 1 := by
  rw [processed_append]
  unfold processed
  rw [List.countP_singleton, if_pos (decide_eq_true h)]

theorem processed_snoc_of_not {dir : Dir} {k : DirKeys} {us : List AeadUse} {u : AeadUse}
    (h : ¬ (u.dir = dir ∧ u.keys = k ∧ u.ok = true)) :
    processed dir k (us ++ [u]) = processed dir k us := by
  rw [processed_append]
  unfold processed
  rw [List.countP_singleton, if_neg (by rw [decide_eq_true_iff]; exact h), Nat.add_zero]

theorem Numbered.split {us : List AeadUse} (h : Numbered us) :
    ∀ {pre post : List AeadUse} {u : AeadUse}, us = pre ++ u :: post →
      u.seq = seqAt (processed u.dir u.keys pre) ∧ u.nonce = nonceOf u.keys u.seq ∧
        (u.dir = .write → u.ok = true) := by
  induction h with
  | nil =>
      intro pre post u hus
      cases pre with
      | nil => cases hus
      | cons v pre => cases hus
  | @snoc us v h hseq hnonce hok ih =>
      intro pre post u hus
      rcases List.eq_nil_or_concat post with rfl | ⟨post', w, rfl⟩
      · obtain ⟨rfl, hv⟩ := List.append_inj' hus rfl
        cases hv
        exact ⟨hseq, hnonce, hok⟩
      · have hus' : us ++ [v] = (pre ++ u :: post') ++ [w] := by
          rw [hus, List.concat_eq_append, List.append_assoc]
          rfl
        exact ih (List.append_inj' hus' rfl).1

theorem zipWith_xor_inj {iv s t : List UInt8} (hs : s.length = iv.length)
    (ht : t.length = iv.length)
    (h : List.zipWith (· ^^^ ·) iv s = List.zipWith (· ^^^ ·) iv t) : s = t := by
  induction iv generalizing s t with
  | nil =>
      rw [List.eq_nil_of_length_eq_zero hs, List.eq_nil_of_length_eq_zero ht]
  | cons b iv ih =>
      cases s with
      | nil => cases hs
      | cons x s =>
          cases t with
          | nil => cases ht
          | cons y t =>
              rw [List.zipWith_cons_cons, List.zipWith_cons_cons, List.cons.injEq] at h
              have htail := ih (by simpa using hs) (by simpa using ht) h.2
              have hhead : x = y := by
                have hxor := congrArg (b ^^^ ·) h.1
                simpa [← UInt8.xor_assoc] using hxor
              rw [hhead, htail]

/-- Under one IV the nonce tells the counter. -/
theorem nonceOf_inj {k : DirKeys} (hiv : k.iv.length = 12) {s t : List UInt8} (hs : s.length = 8)
    (ht : t.length = 8) (h : nonceOf k s = nonceOf k t) : s = t := by
  unfold nonceOf at h
  have hdrop : (k.iv.drop 4).length = 8 := by
    rw [List.length_drop, hiv]
  exact zipWith_xor_inj (hs.trans hdrop.symm) (ht.trans hdrop.symm) (List.append_cancel_left h)

/-! ## What one record does -/

/-- The log has grown from `base` by records under keys of `es`. -/
structure Logged (base : List AeadUse) (es : List TrafficKeys) (c : Conn κ) : Prop where
  numbered : Numbered c.uses
  grown : ∃ new, c.uses = base ++ new ∧ ∀ u ∈ new, ∃ K ∈ es, u.keys = K.ofDir u.dir

/-- And the counters are those of the epoch of `K`. -/
structure Counting (base : List AeadUse) (es : List TrafficKeys) (K : TrafficKeys)
    (c : Conn κ) : Prop extends Logged base es c where
  mem : K ∈ es
  write : c.writeSeq = seqAt (processed .write K.write c.uses)
  read : c.readSeq = seqAt (processed .read K.read c.uses)

section Counting

variable {base : List AeadUse} {es : List TrafficKeys} {K : TrafficKeys} {c c' : Conn κ}
variable {R : RecordEnv}

theorem Logged.of_uses (h : Logged base es c) (hu : c'.uses = c.uses) : Logged base es c' := by
  refine ⟨?_, ?_⟩
  · rw [hu]
    exact h.numbered
  · rw [hu]
    exact h.grown

theorem Logged.mono {es' : List TrafficKeys} (h : Logged base es c) (hes : ∀ K ∈ es, K ∈ es') :
    Logged base es' c := by
  obtain ⟨new, hnew, hkeys⟩ := h.grown
  refine ⟨h.numbered, new, hnew, ?_⟩
  intro u hu
  rcases hkeys u hu with ⟨K, hK, hk⟩
  exact ⟨K, hes K hK, hk⟩

theorem Counting.of_counts (h : Counting base es K c) (hu : c'.uses = c.uses)
    (hw : c'.writeSeq = c.writeSeq) (hr : c'.readSeq = c.readSeq) : Counting base es K c' := by
  refine ⟨h.toLogged.of_uses hu, h.mem, ?_, ?_⟩
  · rw [hw, hu]
    exact h.write
  · rw [hr, hu]
    exact h.read

theorem seqOf_counting (h : Counting base es K c) (dir : Dir) :
    c.seqOf dir = seqAt (processed dir (K.ofDir dir) c.uses) := by
  cases dir with
  | write => exact h.write
  | read => exact h.read

/-- One more call of the AEAD, under the keys of the epoch. -/
theorem Counting.use (h : Counting base es K c) {dir : Dir}
    (hsel : tlsSelectKeys c dir = K.ofDir dir) {ok : Bool} (hok : dir = .write → ok = true)
    (huses : c'.uses = c.uses ++ [c.use dir ok]) : Logged base es c' := by
  obtain ⟨new, hnew, hkeys⟩ := h.grown
  have hseq := seqOf_counting h dir
  refine ⟨?_, new ++ [c.use dir ok], ?_, ?_⟩
  · rw [huses]
    refine .snoc h.numbered ?_ ?_ hok
    · show c.seqOf dir = seqAt (processed dir (tlsSelectKeys c dir) c.uses)
      rw [hsel]
      exact hseq
    · rfl
  · rw [huses, hnew, List.append_assoc]
  · intro u hu
    rcases List.mem_append.1 hu with hu | hu
    · exact hkeys u hu
    · rw [List.mem_singleton.1 hu]
      exact ⟨K, h.mem, hsel⟩

/-- A call of the receive path. -/
theorem Counting.recv {ok : Bool} (h : Counting base es K c)
    (hsel : tlsSelectKeys c .read = K.read) (heff : RecvEffect R c c' ok) :
    Counting base es K c' := by
  cases heff with
  | idle hr => exact h.of_counts hr.uses_eq (rest_writeSeq hr.rest_eq) hr.readSeq_eq
  | refused hf _ => exact h.of_counts hf.uses_eq (rest_writeSeq hf.rest_eq) hf.readSeq_eq
  | plain hr _ => exact h.of_counts hr.uses_eq (rest_writeSeq hr.rest_eq) hr.readSeq_eq
  | opened hrest _ _ huses hseq =>
      have hone : (c.use .read true).dir = .read ∧ (c.use .read true).keys = K.read ∧
          (c.use .read true).ok = true := ⟨rfl, hsel, rfl⟩
      refine ⟨h.use hsel (fun hc => (by cases hc)) huses, h.mem, ?_, ?_⟩
      · rw [rest_writeSeq hrest, huses, processed_snoc_of_not (fun hc => by cases hc.1)]
        exact h.write
      · rw [hseq, huses, processed_snoc_of hone, seqAt_succ, h.read]
  | rejected hrest _ _ huses hseq =>
      refine ⟨h.use hsel (fun hc => (by cases hc)) huses, h.mem, ?_, ?_⟩
      · rw [rest_writeSeq hrest, huses, processed_snoc_of_not (fun hc => by cases hc.1)]
        exact h.write
      · rw [hseq, huses, processed_snoc_of_not (fun hc => by cases hc.2.2)]
        exact h.read

/-- A record sealed. -/
theorem Counting.encrypt (h : Counting base es K c) (hsel : tlsSelectKeys c .write = K.write) :
    Counting base es K (tlsRecordEncrypt R c) := by
  have huses : (tlsRecordEncrypt R c).uses = c.uses ++ [c.use .write true] := rfl
  have hw : (tlsRecordEncrypt R c).writeSeq = tlsSeqIncrement c.writeSeq := rfl
  have hr : (tlsRecordEncrypt R c).readSeq = c.readSeq := rfl
  have hone : (c.use .write true).dir = .write ∧ (c.use .write true).keys = K.write ∧
      (c.use .write true).ok = true := ⟨rfl, hsel, rfl⟩
  refine ⟨h.use hsel (fun _ => rfl) huses, h.mem, ?_, ?_⟩
  · rw [hw, huses, processed_snoc_of hone, seqAt_succ, h.write]
  · rw [hr, huses, processed_snoc_of_not (fun hc => by cases hc.1)]
    exact h.read

theorem tlsSendRecord_counts (R : RecordEnv) (c : Conn κ) :
    (tlsSendRecord R c).1.uses = c.uses ∧ (tlsSendRecord R c).1.writeSeq = c.writeSeq ∧
      (tlsSendRecord R c).1.readSeq = c.readSeq ∧ (tlsSendRecord R c).1.hsKeys = c.hsKeys ∧
        (tlsSendRecord R c).1.appKeys = c.appKeys := by
  unfold tlsSendRecord
  dsimp only
  split
  · exact ⟨rfl, rfl, rfl, rfl, rfl⟩
  · exact ⟨rfl, rfl, rfl, rfl, rfl⟩

theorem Counting.send (h : Counting base es K c) (hsel : tlsSelectKeys c .write = K.write) :
    Counting base es K (tlsRecordSendEncrypted R c).1 := by
  obtain ⟨hu, hw, hr, -⟩ := tlsSendRecord_counts R (tlsRecordEncrypt R c)
  exact (h.encrypt (R := R) hsel).of_counts hu hw hr

/-- A key that the log does not know starts at zero. -/
theorem processed_fresh {dir : Dir} {k : DirKeys} {us : List AeadUse}
    (h : ∀ u ∈ us, u.dir = dir → u.keys ≠ k) : processed dir k us = 0 := by
  unfold processed
  rw [List.countP_eq_zero]
  intro u hu hc
  obtain ⟨hdir, hk, -⟩ := of_decide_eq_true hc
  exact h u hu hdir hk

/-- The first state of an epoch. -/
theorem Counting.start (h : Logged base es c) (hfresh : ∀ u ∈ c.uses, u.keys ≠ K.ofDir u.dir)
    (hw : c.writeSeq = zeroSeq) (hr : c.readSeq = zeroSeq) : Counting base (es ++ [K]) K c := by
  refine ⟨h.mono fun K hK => List.mem_append_left _ hK, by simp, ?_, ?_⟩
  · rw [processed_fresh]
    · exact hw
    · intro u hu hdir hk
      refine hfresh u hu ?_
      rw [hdir]
      exact hk
  · rw [processed_fresh]
    · exact hr
    · intro u hu hdir hk
      refine hfresh u hu ?_
      rw [hdir]
      exact hk

end Counting

/-! ## Before the handshake keys -/

/-- Log and counters are these. -/
def CountsAre (us : List AeadUse) (w r : List UInt8) (c : Conn κ) : Prop :=
  c.uses = us ∧ c.writeSeq = w ∧ c.readSeq = r

section Before

variable {us : List AeadUse} {w r : List UInt8}

theorem CountsAre.send (R : RecordEnv) {c : Conn κ} (h : CountsAre us w r c) :
    CountsAre us w r (tlsSendRecord R c).1 := by
  obtain ⟨hu, hw, hr, -⟩ := tlsSendRecord_counts R c
  exact ⟨hu.trans h.1, hw.trans h.2.1, hr.trans h.2.2⟩

theorem tlsChSection_counts (E : ConnEnv κ) (bs : List UInt8) :
    Triple (CountsAre us w r) (tlsChSection E bs) (CountsAre us w r) (CountsAre us w r) := by
  refine Triple.of_ends fun c h => ?_
  unfold tlsChSection netTcpSend
  dsimp only
  split
  · exact ends_success _ h
  · rename_i hno
    rw [Bool.eq_false_of_not_eq_true hno]
    exact ends_fail _ h

theorem tlsSendClientHello_counts (E : ConnEnv κ) (h : Hello) :
    Triple (CountsAre us w r) (tlsSendClientHello E h) (CountsAre us w r) (CountsAre us w r) := by
  have hsections : Triple (CountsAre us w r) (tlsChSendSections E h) (CountsAre us w r)
      (CountsAre us w r) := by
    refine Triple.next (Triple.next (Triple.next (Q := CountsAre us w r) ?_
      (tlsChSection_counts E _)) (tlsChSection_counts E _)) (tlsChSection_counts E _)
    intro c hc c' ok hrun
    cases hrun
    split
    · exact hc
    · exact hc
  have hclassic : Triple (CountsAre us w r) (tlsChSendClassic E) (CountsAre us w r)
      (CountsAre us w r) := by
    refine Triple.of_ends fun c hc => ?_
    have hsent : CountsAre us w r (tlsRecordSendPlaintext E.toRecordEnv c ctHandshake).1 :=
      CountsAre.send E.toRecordEnv (c := { c with
        recHdr := recordHeader ctHandshake c.hs.recLen c.recHdr }) hc
    unfold tlsChSendClassic
    dsimp only
    split
    · exact ends_success _ hsent
    · rename_i hno
      rw [← Prod.mk.eta (p := tlsRecordSendPlaintext E.toRecordEnv c ctHandshake),
        Bool.eq_false_of_not_eq_true hno]
      exact ends_fail _ hsent
  intro c hc
  unfold tlsSendClientHello
  dsimp only
  split
  · exact hclassic _ hc
  · exact hsections _ hc

/-- `tls_rx_reset` zeroes both counters; nothing is sealed or opened up to the ClientHello. -/
theorem connectHello_counts (E : ConnEnv κ) :
    Triple (fun c => c.uses = us) (connectHello E) (CountsAre us zeroSeq zeroSeq)
      (CountsAre us zeroSeq zeroSeq) := by
  intro c hc c' ok hrun
  unfold connectHello at hrun
  dsimp only at hrun
  split at hrun
  · cases hrun
    exact ⟨hc, rfl, rfl⟩
  · refine tlsSendClientHello_counts E _ _ ?_ c' ok hrun
    exact ⟨hc, rfl, rfl⟩

/-- What a record does while the ServerHello is awaited: no AEAD, and `ERROR` in the hybrid build
only. -/
theorem RecvEffect.hello {R : RecordEnv} {c c' : Conn κ} {ok : Bool} (h : RecvEffect R c c' ok)
    (hst : c.hs.tlsState = .serverHello) (hc : CountsAre us w r c) :
    CountsAre us w r c' ∧
      (c'.hs.tlsState = .serverHello ∨ R.pqHybrid = true ∧ ok = false ∧ c'.hs.tlsState = .error) := by
  have hbefore : ¬ TlsState.encryptedExt.code ≤ c.hs.tlsState.code := by
    rw [hst]
    decide
  cases h with
  | idle hr =>
      exact ⟨⟨hr.uses_eq.trans hc.1, (rest_writeSeq hr.rest_eq).trans hc.2.1,
        hr.readSeq_eq.trans hc.2.2⟩, Or.inl (hr.state_eq.trans hst)⟩
  | refused hf hfatal =>
      refine ⟨⟨hf.uses_eq.trans hc.1, (rest_writeSeq hf.rest_eq).trans hc.2.1,
        hf.readSeq_eq.trans hc.2.2⟩, ?_⟩
      rcases hf.state with hs | hs
      · exact Or.inl (hs.trans hst)
      refine Or.inr ⟨?_, rfl, hs⟩
      have hle := hfatal (by rw [hs, hst]; decide)
      unfold fatalFrom at hle
      rw [hst] at hle
      by_contra hno
      rw [if_neg hno] at hle
      exact absurd hle (by decide)
  | plain hr _ =>
      exact ⟨⟨hr.uses_eq.trans hc.1, (rest_writeSeq hr.rest_eq).trans hc.2.1,
        hr.readSeq_eq.trans hc.2.2⟩, Or.inl (hr.state_eq.trans hst)⟩
  | opened _ _ henc _ _ => exact absurd henc hbefore
  | rejected _ _ henc _ _ => exact absurd henc hbefore

theorem shRecord_counts (E : ConnEnv κ) {c : Conn κ} (timeout : Nat) (h : CountsAre us w r c)
    (hst : c.hs.tlsState = .serverHello) :
    (shRecord E c timeout).Post
      (fun x => CountsAre us w r x.1 ∧ x.1.hs.tlsState = .serverHello)
      (Ends (CountsAre us w r) (CountsAre us w r)) := by
  unfold shRecord
  split
  · split
    · exact ends_fail _ h
    · dsimp only
      split
      · exact ends_success _ h
      · exact ⟨h, hst⟩
  split
  · exact ends_fail _ h
  split
  · exact ends_none _ _
  · exact ends_fail _ h
  · exact ends_success _ h

theorem shTurn_counts (E : ConnEnv κ) (x : Conn κ × Nat)
    (h : CountsAre us w r x.1 ∧ x.1.hs.tlsState = .serverHello) :
    (shTurn E x).Post
      (fun x => CountsAre us w r x.1 ∧ x.1.hs.tlsState = .serverHello)
      (Ends (CountsAre us w r) (CountsAre us w r)) := by
  rcases x with ⟨c, timeout⟩
  obtain ⟨hc, hst⟩ := h
  unfold shTurn
  dsimp only
  cases hrun : tlsRecordRecvAndDecrypt E.toRecordEnv (netPoll c) with
  | none => exact ends_none _ _
  | some r =>
      rcases r with ⟨c', ok⟩
      obtain ⟨hc', hst'⟩ :=
        RecvEffect.hello (c := netPoll c) (recv_effect E.toRecordEnv hrun) hst hc
      cases ok with
      | true =>
          have hstay : c'.hs.tlsState = .serverHello := by
            rcases hst' with hs | ⟨-, hno, -⟩
            · exact hs
            · cases hno
          exact shRecord_counts E timeout hc' hstay
      | false =>
          dsimp only
          split
          · exact ends_fail _ hc'
          · rename_i hlive
            have hstay : c'.hs.tlsState = .serverHello := by
              rcases hst' with hs | ⟨hpq, -, herr⟩
              · exact hs
              · exact absurd ⟨hpq, herr⟩ hlive
            split
            · exact ends_fail _ hc'
            · exact ⟨hc', hstay⟩

theorem shDrainPolls_counts (n : Nat) :
    ∀ c : Conn κ, CountsAre us w r c → CountsAre us w r (shDrainPolls n c) := by
  induction n with
  | zero =>
      intro c h
      exact h
  | succ n ih =>
      intro c h
      exact ih (netPoll c) h

theorem sharedSecret_counts (E : ConnEnv κ) :
    Triple (CountsAre us w r) (sharedSecret E) (CountsAre us w r) (CountsAre us w r) := by
  intro c h c' ok hrun
  unfold sharedSecret at hrun
  dsimp only at hrun
  generalize (if E.pqHybrid = true then E.pqShDecaps c.hs.keys c.pq
    else (c.hs.keys, true)) = x at hrun
  have hboth : CountsAre us w r c' := by
    split at hrun
    · have hstate := congrArg (fun r => r.map Prod.fst) hrun
      cases hstate
      exact h
    · have hstate := congrArg (fun r => r.map Prod.fst) hrun
      cases hstate
      exact h
  split
  · exact hboth
  · exact hboth

/-- Up to the handshake keys nothing is sealed or opened. -/
theorem connectServerHello_counts (E : ConnEnv κ) :
    Triple (CountsAre us w r) (connectServerHello E) (CountsAre us w r) (CountsAre us w r) := by
  have hwait : Triple (fun c => CountsAre us w r c ∧ c.hs.tlsState = .serverHello) (shWait E)
      (CountsAre us w r) (CountsAre us w r) := by
    refine Triple.of_ends fun c h => ?_
    unfold shWait
    dsimp only
    exact loop_ends _ (fun x hx => shTurn_counts E x hx) h
  have hrecv : Triple (fun c => CountsAre us w r c ∧ c.hs.tlsState = .serverHello)
      (tlsRecvServerHello E) (CountsAre us w r) (CountsAre us w r) :=
    Triple.next (Triple.next hwait (Triple.pure (shDrainPolls_counts _))) (sharedSecret_counts E)
  exact Triple.next (Triple.next (Triple.pure fun c h => ⟨h, rfl⟩) hrecv) (Triple.pure fun c h => h)

end Before

/-! ## The handshake epoch -/

section Handshake

variable {base : List AeadUse} {es : List TrafficKeys} {K : TrafficKeys}

/-- The state has the handshake keys in force. -/
def HandshakeState (st : TlsState) : Prop :=
  TlsState.encryptedExt.code ≤ st.code ∧ st.code < TlsState.connected.code

theorem selectKeys_handshake {c : Conn κ} (hst : HandshakeState c.hs.tlsState)
    (hK : c.hsKeys = K) (dir : Dir) : tlsSelectKeys c dir = K.ofDir dir := by
  have hlow : ¬ TlsState.connected.code ≤ c.hs.tlsState.code := Nat.not_le.2 hst.2
  unfold tlsSelectKeys
  rw [if_neg hlow, hK]
  cases dir with
  | write => rfl
  | read => rfl

theorem RecvEffect.hsKeys_eq {R : RecordEnv} {c c' : Conn κ} {ok : Bool}
    (h : RecvEffect R c c' ok) : c'.rest = c.rest := by
  cases h with
  | idle hr => exact hr.rest_eq
  | refused hf _ => exact hf.rest_eq
  | plain hr _ => exact hr.rest_eq
  | opened hrest _ _ _ _ => exact hrest
  | rejected hrest _ _ _ _ => exact hrest

/-- Counting under the handshake keys. -/
def HsCounting (base : List AeadUse) (es : List TrafficKeys) (K : TrafficKeys) (c : Conn κ) : Prop :=
  Counting base es K c ∧ c.hsKeys = K

theorem encWait_counts {E : ConnEnv κ} {c : Conn κ} {timeout : Nat} {Q : Conn κ → Prop}
    {got : Conn κ → Turn (Conn κ × Nat × EncAt) (Option (Conn κ × Bool))}
    (hst : HandshakeState c.hs.tlsState) (h : HsCounting base es K c)
    (hgot : ∀ c', HsCounting base es K c' →
      (got c').Post (fun x => HsCounting base es K x.1) (Ends Q (Logged base es))) :
    (encWait E c timeout got).Post (fun x => HsCounting base es K x.1)
      (Ends Q (Logged base es)) := by
  unfold encWait
  cases hrun : tlsRecordRecvAndDecrypt E.toRecordEnv (netPoll c) with
  | none => exact ends_none _ _
  | some r =>
      rcases r with ⟨c', ok⟩
      have heff := recv_effect E.toRecordEnv hrun
      have hsel : tlsSelectKeys (netPoll c) .read = K.read :=
        selectKeys_handshake (c := netPoll c) hst h.2 .read
      have hpoll : Counting base es K (netPoll c) := h.1.of_counts rfl rfl rfl
      have hc' : HsCounting base es K c' :=
        ⟨hpoll.recv hsel heff, (rest_hsKeys heff.hsKeys_eq).trans h.2⟩
      cases ok with
      | true =>
          dsimp only
          split
          · exact ends_fail _ hc'.1.toLogged
          · exact hgot c' hc'
      | false =>
          dsimp only
          split
          · exact ends_fail _ hc'.1.toLogged
          · split
            · exact ends_fail _ hc'.1.toLogged
            · exact hc'

theorem Standing.state {log : List Step} {st : TlsState} {s : Hs κ} (h : Standing log st s) :
    s.tlsState = st := by
  cases h with
  | header _ hs _ => exact hs
  | carry _ hs _ _ => exact hs
  | stream _ hat => exact hat.state_eq

theorem encTurn_counts (E : ConnEnv κ) (x : Conn κ × Nat × EncAt)
    (hst : HandshakeState x.1.hs.tlsState) (h : HsCounting base es K x.1) :
    (encTurn E x).Post (fun x => HsCounting base es K x.1)
      (Ends (HsCounting base es K) (Logged base es)) := by
  rcases x with ⟨c, timeout, place⟩
  cases place with
  | pump =>
      unfold encTurn
      dsimp only
      cases tlsDeframePump E.df c.hs with
      | none => exact ends_none _ _
      | some r =>
          rcases r with ⟨hs, ret⟩
          have hc : HsCounting base es K { c with hs := hs } := ⟨h.1.of_counts rfl rfl rfl, h.2⟩
          cases ret with
          | msg => exact ends_success _ hc
          | more => exact hc
          | err e => exact ends_fail _ hc.1.toLogged
  | wait => exact encWait_counts hst h fun c' hc' => ⟨hc'.1.of_counts rfl rfl rfl, hc'.2⟩

theorem encWholeTurn_counts (E : ConnEnv κ) (x : Conn κ × Nat × EncAt)
    (hst : HandshakeState x.1.hs.tlsState) (h : HsCounting base es K x.1) :
    (encWholeTurn E x).Post (fun x => HsCounting base es K x.1)
      (Ends (HsCounting base es K) (Logged base es)) := by
  refine encWait_counts hst h fun c' hc' => ?_
  have hc : HsCounting base es K { c' with hs := (encWhole E.df c'.hs).1 } :=
    ⟨hc'.1.of_counts rfl rfl rfl, hc'.2⟩
  show Ends _ _ _
  cases hok : (encWhole E.df c'.hs).2 with
  | true => exact ends_success _ hc
  | false => exact ends_fail _ hc.1.toLogged

/-- One message of the flight. -/
theorem expect_counts (E : ConnEnv κ) {st : TlsState} (hst : HandshakeState st) :
    Triple (fun c => HsCounting base es K c ∧ ∃ log, Between E log c) (expect E st)
      (fun c => (HsCounting base es K c ∧ ∃ log, Between E log c) ∧ c.hs.tlsState = st)
      (Logged base es) := by
  refine Triple.next (Q := fun c => HsCounting base es K c ∧ ∃ log, Ready E log st c)
    (Triple.pure ?_) (Triple.of_ends ?_)
  · rintro c ⟨hc, log, hb⟩
    exact ⟨⟨hc.1.of_counts rfl rfl rfl, hc.2⟩, log, ⟨hb.reader, rfl, hb.log, hb.mode_eq⟩⟩
  · rintro c ⟨hc, log, hready⟩
    have hgoal : Ends (fun c => HsCounting base es K c ∧ Received E log st c) (Logged base es)
        (tlsRecvEncrypted E c) := by
      unfold tlsRecvEncrypted
      split
      · rename_i hE
        refine loop_ends (fun x => AtTurn log st x ∧ HsCounting base es K x.1) ?_
          ⟨⟨lenChecked_of_header hready.reader, fun _ => hready.reader,
            .header (hready.mode_eq hE) hready.state_eq hready.log⟩, hc⟩
        rintro x ⟨hat, hx⟩
        have hx' : HandshakeState x.1.hs.tlsState := by
          rw [hat.2.2.state]
          exact hst
        exact ((encTurn_spec E x hat).and (encTurn_counts E x hx' hx)).mono (fun _ h => h)
          fun _ h => h.2.and_lands h.1
      · rename_i hE
        refine loop_ends (fun x => (LenChecked x.1 ∧ x.1.hs.tlsState = st ∧
          steps x.1.hs.trace = log) ∧ HsCounting base es K x.1) ?_
          ⟨⟨lenChecked_of_header hready.reader, hready.state_eq, hready.log⟩, hc⟩
        rintro x ⟨hat, hx⟩
        have hx' : HandshakeState x.1.hs.tlsState := by
          rw [hat.2.1]
          exact hst
        exact ((encWholeTurn_spec E (by simpa using hE) x hat).and
          (encWholeTurn_counts E x hx' hx)).mono (fun _ h => h) fun _ h => h.2.and_lands h.1
    intro c' ok hrun
    have hends := hgoal c' ok hrun
    cases ok with
    | false => exact hends
    | true =>
        obtain ⟨hc', entry, -, hready'⟩ := hends
        exact ⟨⟨hc', _, hready'.reader, hready'.log, hready'.mode_eq⟩, hready'.state_eq⟩

/-- The flight, under the handshake keys throughout. -/
theorem connectFlight_counts (E : ConnEnv κ) (s : Hs κ) :
    Triple (fun c => HsCounting base es K c ∧ Quiet s c) (connectFlight E)
      (fun c => HsCounting base es K c ∧ c.hs.tlsState = .finished) (Logged base es) := by
  have hstart : Triple (fun c => HsCounting base es K c ∧ Quiet s c)
      (Routine.pure (flightStart E)) (fun c => HsCounting base es K c ∧ ∃ log, Between E log c)
      (Logged base es) := by
    refine Triple.pure ?_
    rintro c ⟨hc, hq⟩
    refine ⟨?_, _, flightStart_between E hq⟩
    unfold flightStart
    split
    · exact ⟨hc.1.of_counts rfl rfl rfl, hc.2⟩
    · exact hc
  have hexpect : ∀ st, HandshakeState st →
      Triple (fun c => HsCounting base es K c ∧ ∃ log, Between E log c) (expect E st)
        (fun c => HsCounting base es K c ∧ ∃ log, Between E log c) (Logged base es) :=
    fun st hst => (expect_counts E hst).mono (fun _ h => h) (fun _ h => h.1) (fun _ h => h)
  have hlast : Triple (fun c => HsCounting base es K c ∧ ∃ log, Between E log c)
      (expect E .finished) (fun c => HsCounting base es K c ∧ c.hs.tlsState = .finished)
      (Logged base es) :=
    (expect_counts E ⟨by decide, by decide⟩).mono (fun _ h => h) (fun _ h => ⟨h.1.1, h.2⟩)
      (fun _ h => h)
  exact (((hstart.next (hexpect .encryptedExt ⟨by decide, by decide⟩)).next
    (hexpect .certificate ⟨by decide, by decide⟩)).next
      (hexpect .certVerify ⟨by decide, by decide⟩)).next hlast

/-- The client's Finished is the last record of the epoch; both counters start again behind it. -/
theorem connectFinish_counts (E : ConnEnv κ) :
    Triple (fun c => HsCounting base es K c ∧ c.hs.tlsState = .finished) (connectFinish E)
      (fun c => Logged base es c ∧ c.writeSeq = zeroSeq ∧ c.readSeq = zeroSeq ∧
        c.hs.tlsState = .connected) (Logged base es) := by
  have hsend : Triple (fun c => HsCounting base es K c ∧ c.hs.tlsState = .finished)
      (certPinSendFinished E) (Logged base es) (Logged base es) := by
    rintro c ⟨hc, hst⟩ c' ok hrun
    have hall : Logged base es c' := by
      unfold certPinSendFinished at hrun
      split at hrun
      · unfold tlsSendFinished at hrun
        dsimp only at hrun
        have hstate := congrArg (fun r => r.map Prod.fst) hrun
        simp only [Option.map_some, Option.some.injEq] at hstate
        rw [← hstate]
        refine (Counting.send (R := E.toRecordEnv) (K := K) ?_ ?_).toLogged
        · exact hc.1.of_counts rfl rfl rfl
        · refine selectKeys_handshake (K := K) ?_ hc.2 .write
          show HandshakeState c.hs.tlsState
          rw [hst]
          exact ⟨by decide, by decide⟩
      · have hstate := congrArg (fun r => r.map Prod.fst) hrun
        simp only [Option.map_some, Option.some.injEq] at hstate
        rw [← hstate]
        exact hc.1.toLogged
    split
    · exact hall
    · exact hall
  refine Triple.next (Triple.next (Triple.pure ?_) hsend) (Triple.pure ?_)
  · rintro c ⟨hc, hst⟩
    exact ⟨⟨hc.1.of_counts rfl rfl rfl, hc.2⟩, hst⟩
  · intro c hc
    exact ⟨hc.of_uses rfl, rfl, rfl, rfl⟩

end Handshake

end Tls
end C64Https
