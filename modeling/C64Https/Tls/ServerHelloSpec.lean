import C64Https.Tls.Consumed
import C64Https.Tls.ServerHello

/-!
# ServerHelloSpec — where the hybrid reader takes the ServerHello to end

`pq_sh_feed` counts the bytes of the message down (`shs_rem`) and has every field fit what is left
of it, so the count does not underflow (`Counts`), and the reader is done at the last byte that the
message header announces, not earlier and not later (`feed_counts`).
-/

namespace C64Https
namespace Tls

open Word Loop Bytes

namespace ShReader

/-- The bytes that the fields behind the one being read still need. -/
def owed (st : ShsState) (d : Nat) : Nat :=
  match st with
  | .ver => 38
  | .rnd => 6
  | .ksh => d - 4
  | .ct => 32
  | _ => 0

/-- Inside the message, `bs` read: the counts agree with what the header announced. -/
structure Inside (r : ShReader) (bs : List UInt8) : Prop where
  four : 4 ≤ bs.length
  size : bs.length + r.rem = hsSize bs
  rem_lt : r.rem < 65536

/-- What the reader has read, by its state. -/
inductive Counts (r : ShReader) (bs : List UInt8) : Prop where
  | hdr (hst : r.state = .hdr) (hfield : r.field = bs) (hcnt : r.cnt + bs.length = 4)
      (hpos : r.cnt ≠ 0)
  | inside (hst : r.state ≠ .hdr) (hne : r.state ≠ .done) (h : Inside r bs) (hpos : r.cnt ≠ 0)
      (hroom : r.cnt + owed r.state r.d ≤ r.rem)
  | done (hst : r.state = .done) (hsize : bs.length = hsSize bs)

/-- A turn that has read `bs`. -/
def HasRead (bs : List UInt8) (t : Turn ShReader ShReader) : Prop :=
  t.Post (fun r => Counts r bs) (fun _ => True)

section Handlers

variable {r : ShReader} {bs : List UInt8}

theorem fail_hasRead (r : ShReader) (e : ShErr) (bs : List UInt8) : HasRead bs (r.fail e) :=
  trivial

/-- The next field fits the rest of the message. -/
theorem arm_hasRead (h : Inside r bs) {st : ShsState} (hst : st ≠ .hdr) (hne : st ≠ .done)
    (hpos : st.len ≠ 0) (hroom : st.len + owed st r.d ≤ r.rem) :
    HasRead bs (r.arm st) :=
  .inside hst hne ⟨h.four, h.size, h.rem_lt⟩ hpos hroom

theorem extNext_hasRead (h : Inside r bs) : HasRead bs r.extNext := by
  unfold extNext
  split
  · rename_i hz
    split
    · have hsize := h.size
      rw [hz] at hsize
      exact .done rfl hsize
    · exact fail_hasRead _ _ _
  split
  · exact fail_hasRead _ _ _
  · rename_i hlen
    refine arm_hasRead h (by decide) (by decide) (by decide) ?_
    show 4 + 0 ≤ r.rem
    omega

/-- The header of the message: room for the fixed part. -/
theorem hHdr_hasRead (hfield : r.field = bs) (hlen : bs.length = 4) : HasRead bs r.hHdr := by
  have hf : ∀ i, r.f i = bs.getD i 0 := by
    intro i
    unfold f
    rw [hfield]
  unfold hHdr
  split
  · exact fail_hasRead _ _ _
  split
  · exact fail_hasRead _ _ _
  rename_i hhigh
  split
  · exact fail_hasRead _ _ _
  dsimp only
  split
  · exact fail_hasRead _ _ _
  · rename_i hroom
    have hzero : bs.getD 1 0 = 0 := by
      rw [← hf]
      exact not_not.1 hhigh
    refine arm_hasRead (r := { r with rem := word (r.f 2) (r.f 3) })
      ⟨by omega, ?_, word_lt _ _⟩ (by decide) (by decide) (by decide) ?_
    · show bs.length + word (r.f 2) (r.f 3) = hsSize bs
      unfold hsSize
      rw [hzero, hf, hf, hlen]
      simp
    · show 2 + 38 ≤ word (r.f 2) (r.f 3)
      omega

theorem hRnd_hasRead (h : Inside r bs) (hroom : 6 ≤ r.rem) : HasRead bs r.hRnd := by
  unfold hRnd
  dsimp only
  split
  · exact fail_hasRead _ _ _
  · exact arm_hasRead (r := { r with serverRandom := r.field }) ⟨h.four, h.size, h.rem_lt⟩
      (by decide) (by decide) (by decide) hroom

theorem hFix_hasRead (h : Inside r bs) : HasRead bs r.hFix := by
  unfold hFix
  split
  · exact fail_hasRead _ _ _
  split
  · exact fail_hasRead _ _ _
  split
  · exact fail_hasRead _ _ _
  split
  · exact fail_hasRead _ _ _
  split
  · exact fail_hasRead _ _ _
  · exact extNext_hasRead h

theorem hSv_hasRead (h : Inside r bs) : HasRead bs r.hSv := by
  unfold hSv
  split
  · exact fail_hasRead _ _ _
  split
  · exact fail_hasRead _ _ _
  · exact extNext_hasRead (r := { r with seenVer := true }) ⟨h.four, h.size, h.rem_lt⟩

/-- The extension header: the extension fits the message. -/
theorem hExh_hasRead (h : Inside r bs) : HasRead bs r.hExh := by
  have hin : Inside { r with d := word (r.f 2) (r.f 3) } bs := ⟨h.four, h.size, h.rem_lt⟩
  unfold hExh
  dsimp only
  split
  · exact fail_hasRead _ _ _
  rename_i hfit
  have hle : word (r.f 2) (r.f 3) ≤ r.rem := Nat.le_of_not_lt hfit
  split
  · exact fail_hasRead _ _ _
  split
  · split
    · exact fail_hasRead _ _ _
    split
    · exact fail_hasRead _ _ _
    · rename_i hd
      have htwo : word (r.f 2) (r.f 3) = 2 := not_not.1 hd
      refine arm_hasRead hin (by decide) (by decide) (by decide) ?_
      show 2 + 0 ≤ r.rem
      omega
  split
  · split
    · exact fail_hasRead _ _ _
    split
    · exact fail_hasRead _ _ _
    · rename_i hd
      refine arm_hasRead hin (by decide) (by decide) (by decide) ?_
      show 4 + (word (r.f 2) (r.f 3) - 4) ≤ r.rem
      omega
  · exact fail_hasRead _ _ _

/-- The head of the key share: its length is that of the group, and the extension has room for
it. -/
theorem hKsh_hasRead (h : Inside r bs) (hroom : r.d - 4 ≤ r.rem) :
    HasRead bs r.hKsh := by
  have hin : ∀ g, Inside { r with kexGroup := g } bs := fun g => ⟨h.four, h.size, h.rem_lt⟩
  unfold hKsh
  split
  · exact fail_hasRead _ _ _
  rename_i hdlen
  have hsum : add16 (word (r.f 2) (r.f 3)) 4 = r.d := not_not.1 hdlen
  split
  · split
    · exact fail_hasRead _ _ _
    split
    · exact fail_hasRead _ _ _
    · rename_i hlen
      have hw : word (r.f 2) (r.f 3) = 32 := not_not.1 hlen
      rw [hw, add16_of_lt (by omega)] at hsum
      refine arm_hasRead (hin _) (by decide) (by decide) (by decide) ?_
      show 32 + 0 ≤ r.rem
      omega
  split
  · exact fail_hasRead _ _ _
  split
  · exact fail_hasRead _ _ _
  split
  · exact fail_hasRead _ _ _
  split
  · exact fail_hasRead _ _ _
  · rename_i hlen
    have hw : word (r.f 2) (r.f 3) = 1120 := not_not.1 hlen
    rw [hw, add16_of_lt (by omega)] at hsum
    refine arm_hasRead (hin _) (by decide) (by decide) (by decide) ?_
    show 1088 + 32 ≤ r.rem
    omega

/-- A field of the body is complete. -/
theorem handler_hasRead (hst : r.state ≠ .hdr) (hne : r.state ≠ .done) (h : Inside r bs)
    (hroom : owed r.state r.d ≤ r.rem) : HasRead bs r.handler := by
  unfold handler
  cases hs : r.state with
  | hdr => exact absurd hs hst
  | done => exact absurd hs hne
  | ver =>
      rw [hs] at hroom
      exact arm_hasRead h (by decide) (by decide) (by decide) hroom
  | rnd =>
      rw [hs] at hroom
      exact hRnd_hasRead h hroom
  | fix => exact hFix_hasRead h
  | exh => exact hExh_hasRead h
  | sv => exact hSv_hasRead h
  | ksh =>
      rw [hs] at hroom
      exact hKsh_hasRead h hroom
  | ct =>
      rw [hs] at hroom
      exact arm_hasRead (r := { r with ciphertext := r.field }) ⟨h.four, h.size, h.rem_lt⟩
        (by decide) (by decide) (by decide) hroom
  | pub =>
      exact extNext_hasRead ⟨h.four, h.size, h.rem_lt⟩

/-- Inside a field, or at its end. -/
theorem field_hasRead (hst : r.state ≠ .hdr) (hne : r.state ≠ .done) (h : Inside r bs)
    (hroom : r.cnt + owed r.state r.d ≤ r.rem) :
    HasRead bs (if r.cnt = 0 then r.handler else .again r) := by
  split
  · exact handler_hasRead hst hne h (by omega)
  · exact .inside hst hne h ‹_› hroom

end Handlers

/-- One byte. -/
theorem byte_hasRead {r : ShReader} {bs : List UInt8} (h : Counts r bs) (b : UInt8) :
    HasRead (bs ++ [b]) (r.byte b) := by
  have hlen : (bs ++ [b]).length = bs.length + 1 := by
    simp
  unfold byte
  cases h with
  | done hst hsize =>
      rw [if_pos hst]
      exact fail_hasRead _ _ _
  | hdr hst hfield hcnt hpos =>
      have hsub : sub16 r.cnt 1 = r.cnt - 1 := sub16_of_le (by omega) (by omega)
      rw [if_neg (by rw [hst]; decide)]
      dsimp only
      split
      · -- the fourth byte
        rename_i hz
        rw [hsub] at hz
        unfold handler
        dsimp only
        rw [hst]
        exact hHdr_hasRead (by rw [← hfield]) (by omega)
      · rename_i hz
        rw [hsub] at hz
        refine .hdr hst (by rw [← hfield]) ?_ ?_
        · show sub16 r.cnt 1 + _ = 4
          omega
        · show sub16 r.cnt 1 ≠ 0
          omega
  | inside hst hne h hpos hroom =>
      have hlt := h.rem_lt
      have hsub : sub16 r.cnt 1 = r.cnt - 1 := sub16_of_le (by omega) (by omega)
      have hrem : sub16 r.rem 1 = r.rem - 1 := sub16_of_le (by omega) (by omega)
      have hsize := h.size
      have hfour := h.four
      have hin : Inside { r with
          field := r.field ++ [b], rem := sub16 r.rem 1, cnt := sub16 r.cnt 1 } (bs ++ [b]) := by
        refine ⟨by rw [hlen]; omega, ?_, sub16_lt _ _⟩
        rw [hsSize_append _ h.four, hlen]
        show bs.length + 1 + sub16 r.rem 1 = hsSize bs
        omega
      rw [if_neg hne]
      dsimp only
      rw [if_neg hst]
      refine field_hasRead (r := { r with
        field := r.field ++ [b], rem := sub16 r.rem 1, cnt := sub16 r.cnt 1 }) hst hne hin ?_
      show sub16 r.cnt 1 + owed r.state r.d ≤ sub16 r.rem 1
      omega

/-- A string of bytes. -/
theorem feed_counts (bs : List UInt8) :
    ∀ {r : ShReader} {as : List UInt8}, Counts r as → HasRead (as ++ bs) (feed byte r bs) := by
  induction bs with
  | nil =>
      intro r as h
      rw [List.append_nil]
      exact h
  | cons b bs ih =>
      intro r as h
      have hb := byte_hasRead h b
      rw [feed_cons]
      cases ht : r.byte b with
      | again r' =>
          rw [ht] at hb
          have hrest : HasRead ((as ++ [b]) ++ bs) (feed byte r' bs) := ih hb
          rwa [List.append_assoc] at hrest
      | leave r' => trivial

theorem init_counts (r : ShReader) : Counts r.init [] :=
  .hdr rfl rfl rfl nofun

/-- A done reader has read a message, to its last byte. -/
theorem Counts.size_eq {r : ShReader} {bs : List UInt8} (h : Counts r bs) (hdone : r.state = .done) :
    bs.length = hsSize bs := by
  cases h with
  | hdr hst _ _ _ =>
      rw [hst] at hdone
      cases hdone
  | inside _ hne _ _ _ => exact absurd hdone hne
  | done _ hsize => exact hsize

/-- A record that is taken is read to its end. -/
theorem pqShFeed_counts {r : ShReader} {as : List UInt8} (h : Counts r as) (recType : UInt8)
    (bs : List UInt8) :
    (r.pqShFeed recType bs).Post
      (fun x => Counts x.1 (as ++ bs) ∧ (x.2 = true → (as ++ bs).length = hsSize (as ++ bs)))
      (fun _ => True) := by
  have hfeed := feed_counts bs h
  unfold pqShFeed
  split
  · trivial
  · cases hrun : feed byte r bs with
    | leave r' => trivial
    | again r' =>
        rw [hrun] at hfeed
        refine ⟨hfeed, fun hdone => ?_⟩
        exact Counts.size_eq hfeed (by simpa using hdone)

end ShReader

end Tls
end C64Https
