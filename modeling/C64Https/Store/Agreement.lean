import Mathlib.Data.Nat.Bitwise
import C64Https.Store.Mirror

/-!
# Agreement — the scan and the save against the mirror

`ts_scan` reads the two slots through one buffer, reads slot A a second time when it is the one to take, and
compares generations with two subtractions; `select` has both files at hand.  They agree as long as no slot
is stale (`tsScan_agrees_iff`), and then a save writes the file that the mirror's `save` returns, to the same
slot (`trustStoreSave_mirror`).
-/

namespace C64Https
namespace Store

open Bytes Word Mirror

/-! ## What a scan leaves alone -/

/-- What a host's session with the store keeps in memory. -/
structure Session where
  key : List UInt8
  record : List UInt8
  found : Bool
  staged : TsState

def TrustStore.session (t : TrustStore) : Session :=
  ⟨t.key, t.record, t.found, t.staged⟩

section Sessions

variable {D : Digest} {x : Slot} {r : SlotRead} {t : TrustStore}

theorem session_tsReadSlot : (tsReadSlot D x r t).1.session = t.session := by
  cases r with
  | absent => rfl
  | nopath => rfl
  | dos => rfl
  | io part => rfl
  | file bytes =>
      rw [tsReadSlot_file]
      unfold tsChecked
      dsimp only
      split
      · rfl
      · rfl

theorem session_tsTakeA (s : TrustStore × Code) : (tsTakeA s).session = s.1.session := by
  unfold tsTakeA
  split
  · rfl
  · rfl

theorem session_tsBoth : (tsBoth D r t).session = t.session := by
  unfold tsBoth
  dsimp only
  split
  · rfl
  split
  · exact (session_tsTakeA _).trans session_tsReadSlot
  · rfl

theorem session_tsChoose : (tsChoose D r t).session = t.session := by
  have htake : (tsTakeA (tsReadSlot D .a r t)).session = t.session :=
    (session_tsTakeA _).trans session_tsReadSlot
  unfold tsChoose
  split
  · split
    · exact session_tsBoth
    split
    · exact htake
    · rfl
  split
  · split
    · rfl
    · rfl
  split
  · rfl
  split
  · rfl
  · rfl

theorem session_tsScan (r : Reads) : (tsScan D r t).session = t.session := by
  unfold tsScan
  dsimp only
  rw [session_tsChoose]
  show (tsReadSlot D .b r.second _).1.session = _
  rw [session_tsReadSlot]
  exact session_tsReadSlot

end Sessions

/-! ## The order of the generations -/

section Serial

variable {a b : UInt16}

theorem and_low_eq_zero_iff (d : UInt16) : d &&& 0x7fff = 0 ↔ d = 0 ∨ d = 0x8000 := by
  have hlt := d.toNat_lt
  have hand : (d &&& 0x7fff).toNat = d.toNat % 2 ^ 15 := by
    rw [UInt16.toNat_and]
    exact Nat.and_two_pow_sub_one_eq_mod d.toNat 15
  have hzero : (0 : UInt16).toNat = 0 := rfl
  have hhalf : (0x8000 : UInt16).toNat = 32768 := rfl
  rw [← UInt16.toNat_inj, ← UInt16.toNat_inj, ← UInt16.toNat_inj, hand, hzero, hhalf]
  omega

theorem and_high_ne_zero_iff (d : UInt16) : d &&& 0x8000 ≠ 0 ↔ ¬ d < 0x8000 := by
  have hlt := d.toNat_lt
  have hand : (d &&& 0x8000).toNat = (d.toNat.testBit 15).toNat * 2 ^ 15 := by
    rw [UInt16.toNat_and]
    exact Nat.and_two_pow d.toNat 15
  have hhalf : (0x8000 : UInt16).toNat = 32768 := rfl
  have hbit : d.toNat.testBit 15 = decide (d.toNat / 2 ^ 15 % 2 = 1) := Nat.testBit_eq_decide_div_mod_eq
  rw [UInt16.lt_iff_toNat_lt, hhalf, ne_eq, ← UInt16.toNat_inj, hand, hbit]
  by_cases hle : 32768 ≤ d.toNat
  · have hone : d.toNat / 2 ^ 15 % 2 = 1 := by omega
    rw [decide_eq_true hone]
    exact ⟨fun _ => Nat.not_lt.2 hle, fun _ h => nomatch h⟩
  · have hone : ¬ d.toNat / 2 ^ 15 % 2 = 1 := by omega
    rw [decide_eq_false hone]
    exact ⟨fun h => absurd rfl h, fun h => absurd (Nat.lt_of_not_le hle) h⟩

/-- `@both` compares serial numbers as the mirror does. -/
theorem tsBoth_eq {D : Digest} {r : SlotRead} {t : TrustStore} : tsBoth D r t =
    (serialNewer (t.sgen .a) (t.sgen .b)).elim (tsFail .tie t)
      fun newer => if newer then tsValid .b t else tsTakeA (tsReadSlot D .a r t) := by
  unfold tsBoth serialNewer
  dsimp only
  generalize t.sgen .b - t.sgen .a = d
  by_cases hlow : d &&& 0x7fff = 0
  · rw [if_pos hlow, if_pos ((and_low_eq_zero_iff d).1 hlow)]
    rfl
  · rw [if_neg hlow, if_neg fun h => hlow ((and_low_eq_zero_iff d).2 h)]
    by_cases hhigh : d &&& 0x8000 ≠ 0
    · have hlt := (and_high_ne_zero_iff d).1 hhigh
      rw [if_pos hhigh, Option.elim_some, decide_eq_false hlt]
      rfl
    · have hlt : d < 0x8000 := not_not.1 fun h => hhigh ((and_high_ne_zero_iff d).2 h)
      rw [if_neg hhigh, Option.elim_some, decide_eq_true hlt]
      rfl

end Serial

/-! ## `ts_scan` and `select` -/

section Scan

variable {D : Digest} {t : TrustStore}

/-- The answers of a disk that stays as it is. -/
def readsOf (slots : Slot → SlotRead) : Reads :=
  ⟨slots .a, slots .b, slots .a⟩

/-- What a scan reports is the mirror's selection, and the ring holds what was selected. -/
structure Agrees (D : Digest) (t : TrustStore) (s : Selection) : Prop where
  state : t.state = s.state
  slotSt : t.slotSt = s.slotSt
  reason : s.state = .fail → t.reason = s.reason
  chosen : s.state ≠ .fail → t.slot = s.slot ∧ t.gen = s.gen
  holds : s.state = .valid → ∃ c, Holds D t.buf c ∧ c.gen = s.gen ∧ c.recs = s.records

theorem tsTolerable_eq (c : Code) : tsTolerable c = tolerable c := by
  cases c <;> rfl

theorem agrees_fail {c : Code} {st : Slot → Code} (h : t.slotSt = st) :
    Agrees D (tsFail c t) (failed c st) where
  state := rfl
  slotSt := h
  reason _ := rfl
  chosen h := absurd rfl h
  holds h := nomatch h

theorem agrees_valid {slots : Slot → SlotRead} {x : Slot} {c : Contents} {st : Slot → Code}
    (h : t.slotSt = st) (hslot : slots x = .file (c.image D)) (hbuf : Holds D t.buf c)
    (hgen : t.sgen x = c.gen) : Agrees D (tsValid x t) (picked D slots x st) := by
  have hcontents : contents D (slots x) = (c.gen, c.recs) := by
    rw [hslot, contents_image]
  unfold picked
  rw [hcontents]
  exact ⟨rfl, h, fun h => (nomatch h), fun _ => ⟨rfl, hgen⟩, fun _ => ⟨c, hbuf, rfl, rfl⟩⟩

/-- Slot A, read a second time. -/
theorem agrees_takeA {slots : Slot → SlotRead} {c : Contents} {st : Slot → Code} (h : t.slotSt = st)
    (hslot : slots .a = .file (c.image D)) :
    Agrees D (tsTakeA (tsReadSlot D .a (slots .a) t)) (picked D slots .a st) := by
  have hread : tsTakeA (tsReadSlot D .a (slots .a) t) = tsValid .a
      { loadBuf (c.image D) t with sgen := Function.update t.sgen .a c.gen } := by
    rw [hslot, tsReadSlot_image]
    rfl
  rw [hread]
  exact agrees_valid h hslot (holds_store t.buf c) (Function.update_self Slot.a c.gen t.sgen)

/-- The state when both slots were looked at. -/
structure Looked (D : Digest) (slots : Slot → SlotRead) (t : TrustStore) : Prop where
  slotSt : t.slotSt = fun x => slotResult D (slots x)
  sgen : ∀ x (c : Contents), slots x = .file (c.image D) → t.sgen x = c.gen
  buf : ∀ c : Contents, slots .b = .file (c.image D) → Holds D t.buf c

/-- What is made of two slots that were looked at. -/
theorem tsChoose_agrees {slots : Slot → SlotRead} (h : Looked D slots t) :
    Agrees D (tsChoose D (slots .a) t) (select D slots) := by
  have hst : ∀ x, t.slotSt x = slotResult D (slots x) := fun x => congrFun h.slotSt x
  have hother : ∀ x, slotResult D (slots x) = .ok → ∃ c : Contents, slots x = .file (c.image D) :=
    fun x hx => slotResult_ok_iff.1 hx
  unfold tsChoose select
  dsimp only
  simp only [hst, tsTolerable_eq]
  by_cases ha : slotResult D (slots .a) = .ok
  · obtain ⟨ca, hca⟩ := hother .a ha
    rw [if_pos ha]
    by_cases hb : slotResult D (slots .b) = .ok
    · obtain ⟨cb, hcb⟩ := hother .b hb
      have hga : (contents D (slots .a)).1 = t.sgen .a := by
        rw [h.sgen .a ca hca, hca, contents_image]
      have hgb : (contents D (slots .b)).1 = t.sgen .b := by
        rw [h.sgen .b cb hcb, hcb, contents_image]
      rw [if_pos hb, if_pos ⟨ha, hb⟩, tsBoth_eq, hga, hgb]
      -- of two valid slots the newer one by serial number, if there is one
      cases serialNewer (t.sgen .a) (t.sgen .b) with
      | none => exact agrees_fail h.slotSt
      | some newer =>
          cases newer with
          | true => exact agrees_valid h.slotSt hcb (h.buf cb hcb) (h.sgen .b cb hcb)
          | false => exact agrees_takeA h.slotSt hca
    · -- B is not valid: A is taken if B is tolerable
      have hnot : ¬ (slotResult D (slots .a) = .ok ∧ slotResult D (slots .b) = .ok) :=
        fun hab => hb hab.2
      rw [if_neg hb, if_neg hnot, if_pos (Or.inl ha), if_pos ha]
      show Agrees D (if tolerable (slotResult D (slots .b)) = true then _ else _)
        (if tolerable (slotResult D (slots .b)) = true then _ else _)
      split
      · exact agrees_takeA h.slotSt hca
      · exact agrees_fail h.slotSt
  · have hnot : ¬ (slotResult D (slots .a) = .ok ∧ slotResult D (slots .b) = .ok) :=
      fun hab => ha hab.1
    rw [if_neg ha, if_neg hnot]
    by_cases hb : slotResult D (slots .b) = .ok
    · obtain ⟨cb, hcb⟩ := hother .b hb
      rw [if_pos hb, if_pos (Or.inr hb), if_neg ha]
      show Agrees D (if tolerable (slotResult D (slots .a)) = true then _ else _)
        (if tolerable (slotResult D (slots .a)) = true then _ else _)
      split
      · exact agrees_valid h.slotSt hcb (h.buf cb hcb) (h.sgen .b cb hcb)
      · exact agrees_fail h.slotSt
    · have hneither : ¬ (slotResult D (slots .a) = .ok ∨ slotResult D (slots .b) = .ok) :=
        fun hab => hab.elim ha hb
      rw [if_neg hb, if_neg hneither]
      by_cases ha' : slotResult D (slots .a) = .absent
      · rw [if_neg (not_not_intro ha')]
        by_cases hb' : slotResult D (slots .b) = .absent
        · rw [if_neg (not_not_intro hb'), if_pos ⟨ha', hb'⟩]
          exact ⟨rfl, h.slotSt, fun h => (nomatch h), fun _ => ⟨rfl, rfl⟩, fun h => nomatch h⟩
        · have hnone : ¬ (slotResult D (slots .a) = .absent ∧ slotResult D (slots .b) = .absent) :=
            fun hab => hb' hab.2
          rw [if_pos hb', if_neg hnone, if_neg (not_not_intro ha')]
          exact agrees_fail h.slotSt
      · have hnone : ¬ (slotResult D (slots .a) = .absent ∧ slotResult D (slots .b) = .absent) :=
          fun hab => ha' hab.1
        rw [if_pos ha', if_neg hnone, if_pos ha']
        exact agrees_fail h.slotSt

/-- Both slots looked at, as `ts_scan` does first. -/
def tsLook (D : Digest) (slots : Slot → SlotRead) (t : TrustStore) : TrustStore :=
  tsNote .b (tsReadSlot D .b (slots .b) (tsNote .a (tsReadSlot D .a (slots .a) t)))

theorem tsScan_eq (slots : Slot → SlotRead) :
    tsScan D (readsOf slots) t = tsChoose D (slots .a) (tsLook D slots t) :=
  rfl

theorem slotSt_tsNote (x : Slot) (s : TrustStore × Code) :
    (tsNote x s).slotSt = Function.update s.1.slotSt x s.2 :=
  rfl

theorem sgen_tsNote (x : Slot) (s : TrustStore × Code) : (tsNote x s).sgen = s.1.sgen :=
  rfl

theorem sgen_tsReadSlot_image (x : Slot) (c : Contents) :
    (tsReadSlot D x (.file (c.image D)) t).1.sgen = Function.update t.sgen x c.gen := by
  rw [tsReadSlot_image]

theorem slotSt_tsLook_a (slots : Slot → SlotRead) :
    (tsLook D slots t).slotSt .a = (tsReadSlot D .a (slots .a) t).2 := by
  unfold tsLook
  rw [slotSt_tsNote, Function.update_of_ne (by decide), slotSt_tsReadSlot, slotSt_tsNote,
    Function.update_self]

theorem slotSt_tsLook_b (slots : Slot → SlotRead) : (tsLook D slots t).slotSt .b =
    (tsReadSlot D .b (slots .b) (tsNote .a (tsReadSlot D .a (slots .a) t))).2 := by
  unfold tsLook
  rw [slotSt_tsNote, Function.update_self]

theorem slotSt_tsTakeA (s : TrustStore × Code) : (tsTakeA s).slotSt = s.1.slotSt := by
  unfold tsTakeA
  split
  · rfl
  · rfl

theorem slotSt_tsChoose (r : SlotRead) : (tsChoose D r t).slotSt = t.slotSt := by
  have htake : (tsTakeA (tsReadSlot D .a r t)).slotSt = t.slotSt :=
    (slotSt_tsTakeA _).trans slotSt_tsReadSlot
  unfold tsChoose
  split
  · split
    · rw [tsBoth_eq]
      cases serialNewer (t.sgen .a) (t.sgen .b) with
      | none => rfl
      | some newer =>
          cases newer with
          | true => rfl
          | false => exact htake
    split
    · exact htake
    · rfl
  split
  · split
    · rfl
    · rfl
  split
  · rfl
  split
  · rfl
  · rfl

theorem slotSt_select (slots : Slot → SlotRead) :
    (select D slots).slotSt = fun x => slotResult D (slots x) := by
  unfold select
  dsimp only
  split
  · cases serialNewer (contents D (slots .a)).1 (contents D (slots .b)).1 with
    | none => rfl
    | some newer => rfl
  split
  · generalize (if slotResult D (slots .a) = .ok then Slot.a else .b) = pick
    split
    · rfl
    · rfl
  split
  · rfl
  · rfl

theorem looked_of_clear {slots : Slot → SlotRead} (h : Clear t.buf slots) :
    Looked D slots (tsLook D slots t) := by
  obtain ⟨ha, hb⟩ := h
  rw [← buf_tsReadSlot (D := D) (x := .a)] at hb
  refine ⟨?_, ?_, ?_⟩
  · funext x
    cases x with
    | a => rw [slotSt_tsLook_a, tsReadSlot_result_iff.2 ha]
    | b =>
        rw [slotSt_tsLook_b]
        exact tsReadSlot_result_iff.2 hb
  · intro x c hx
    cases x with
    | a =>
        have hread : (tsReadSlot D .a (slots .a) t).1.sgen .a = c.gen := by
          rw [hx, sgen_tsReadSlot_image, Function.update_self]
        -- a second slot that is good leaves its generation in its own place
        by_cases hok : (tsReadSlot D .b (slots .b) (tsNote .a (tsReadSlot D .a (slots .a) t))).2 = .ok
        · obtain ⟨cb, hcb⟩ := tsReadSlot_ok_iff.1 hok
          unfold tsLook
          rw [sgen_tsNote, hcb, sgen_tsReadSlot_image, Function.update_of_ne (by decide), sgen_tsNote,
            hread]
        · unfold tsLook
          rw [sgen_tsNote, sgen_tsReadSlot hok, sgen_tsNote, hread]
    | b =>
        unfold tsLook
        rw [sgen_tsNote, hx, sgen_tsReadSlot_image, Function.update_self]
  · intro c hc
    unfold tsLook
    rw [hc, tsReadSlot_image]
    exact holds_store _ c

theorem tsScan_agrees {slots : Slot → SlotRead} (h : Clear t.buf slots) :
    Agrees D (tsScan D (readsOf slots) t) (select D slots) :=
  tsChoose_agrees (looked_of_clear h)

/-- A scan reports what the mirror selects exactly when neither slot is read stale. -/
theorem tsScan_agrees_iff (D : Digest) (slots : Slot → SlotRead) (t : TrustStore) :
    Agrees D (tsScan D (readsOf slots) t) (select D slots) ↔ Clear t.buf slots := by
  refine ⟨?_, tsScan_agrees⟩
  · intro h
    have hst := h.slotSt
    rw [tsScan_eq, slotSt_tsChoose, slotSt_select] at hst
    have ha := congrFun hst .a
    have hb := congrFun hst .b
    rw [slotSt_tsLook_a] at ha
    rw [slotSt_tsLook_b] at hb
    have hstale : ¬ StaleRead (tsReadSlot D .a (slots .a) t).1.buf (slots .b) :=
      (tsReadSlot_result_iff (t := tsNote .a (tsReadSlot D .a (slots .a) t))).1 hb
    rw [buf_tsReadSlot] at hstale
    exact ⟨tsReadSlot_result_iff.1 ha, hstale⟩

theorem select_empty {slots : Slot → SlotRead} (h : (select D slots).state = .empty) :
    (select D slots).slot = .b ∧ (select D slots).gen = 0 ∧ (select D slots).records = [] := by
  revert h
  unfold select
  dsimp only
  split
  · cases serialNewer (contents D (slots .a)).1 (contents D (slots .b)).1 with
    | none => exact fun h => nomatch h
    | some newer => exact fun h => nomatch h
  split
  · generalize (if slotResult D (slots .a) = .ok then Slot.a else .b) = pick
    split
    · exact fun h => nomatch h
    · exact fun h => nomatch h
  split
  · exact fun _ => ⟨rfl, rfl, rfl⟩
  · exact fun h => nomatch h

theorem select_state (slots : Slot → SlotRead) : (select D slots).state ≠ .none := by
  unfold select
  dsimp only
  split
  · cases serialNewer (contents D (slots .a)).1 (contents D (slots .b)).1 with
    | none => exact fun h => nomatch h
    | some newer => exact fun h => nomatch h
  split
  · generalize (if slotResult D (slots .a) = .ok then Slot.a else .b) = pick
    split
    · exact fun h => nomatch h
    · exact fun h => nomatch h
  split
  · exact fun h => nomatch h
  · exact fun h => nomatch h

end Scan

/-! ## `trust_store_save` and `save` -/

section Save

variable {D : Digest} {t u : TrustStore} {c : Contents}

/-- No generation and no records, as the header of a fresh store says. -/
def Contents.fresh : Contents :=
  ⟨0, [], Nat.zero_le _, fun _ h => absurd h List.not_mem_nil⟩

theorem body_fresh (buf : Buffer) : Body (store buf 0 tsHdr0) Contents.fresh := by
  have h := bytesAt_store_self buf 0 tsHdr0
  exact body_of_bytes h

/-- A load that did not fail permits a save. -/
theorem ready_of_select {slots : Slot → SlotRead} (h : (select D slots).state ≠ .fail) :
    ¬ ((select D slots).state ≠ .valid ∧ (select D slots).state ≠ .empty) := by
  rintro ⟨hvalid, hempty⟩
  have hnone := select_state (D := D) slots
  cases hstate : (select D slots).state with
  | none => exact hnone hstate
  | valid => exact hvalid hstate
  | empty => exact hempty hstate
  | fail => exact h hstate

/-- A save that finds the store it was staged for looks the record up in the selected contents. -/
theorem tsPrepare_of_agrees {r : Reads} {slots : Slot → SlotRead}
    (hag : Agrees D (tsScan D r t) (select D slots)) (hok : (select D slots).state ≠ .fail)
    (hstaged : t.staged = (select D slots).state) (hslot : t.slot = (select D slots).slot)
    (hgen : t.gen = (select D slots).gen) :
    ∃ u c, tsPrepare D false r t = tsPlace u ∧ Body u.buf c ∧ c.gen = (select D slots).gen ∧
      c.recs = (select D slots).records ∧ u.session = t.session ∧ u.slot = (select D slots).slot := by
  obtain ⟨hslot', hgen'⟩ := hag.chosen hok
  have hready : ¬ (t.staged ≠ .valid ∧ t.staged ≠ .empty) := by
    rw [hstaged]
    exact ready_of_select hok
  have hsame : ¬ ((tsScan D r t).state ≠ t.staged ∨ (tsScan D r t).slot ≠ t.slot ∨
      (tsScan D r t).gen ≠ t.gen) := by
    rw [hag.state, hslot', hgen', hstaged, hslot, hgen]
    rintro (h | h | h)
    · exact h rfl
    · exact h rfl
    · exact h rfl
  unfold tsPrepare tsSame
  rw [if_neg Bool.false_ne_true, if_neg hready, if_neg hsame]
  have hsession := session_tsScan (D := D) (t := t) r
  by_cases hempty : (tsScan D r t).state = .empty
  · rw [if_pos hempty]
    obtain ⟨-, hgen₀, hrecs₀⟩ := select_empty (hag.state.symm.trans hempty)
    exact ⟨_, Contents.fresh, rfl, body_fresh _, hgen₀.symm, hrecs₀.symm, hsession, hslot'⟩
  · rw [if_neg hempty]
    have hvalid : (select D slots).state = .valid := by
      have hnone := select_state (D := D) slots
      cases hstate : (select D slots).state with
      | none => exact absurd hstate hnone
      | valid => rfl
      | empty => exact absurd (hag.state.trans hstate) hempty
      | fail => exact absurd hstate hok
    obtain ⟨c, hc, hcgen, hcrecs⟩ := hag.holds hvalid
    exact ⟨_, c, rfl, hc.toBody, hcgen, hcrecs, hsession, hslot'⟩

/-- And it finds room for it or not. -/
theorem tsPrepare_staged {r : Reads} {slots : Slot → SlotRead}
    (hag : Agrees D (tsScan D r t) (select D slots)) (hok : (select D slots).state ≠ .fail)
    (hstaged : t.staged = (select D slots).state) (hslot : t.slot = (select D slots).slot)
    (hgen : t.gen = (select D slots).gen) (hlen : t.record.length = 64)
    (hkey : recordKey t.record = t.key) :
    ∃ c : Contents, c.gen = (select D slots).gen ∧ c.recs = (select D slots).records ∧
      (∀ hroom : c.Room t.record, ∃ p u, tsPrepare D false r t = .put p u ∧
        u.slot = (select D slots).slot ∧ Holds D (tsFill D p u) (c.next t.record hlen hroom)) ∧
      (¬ c.Room t.record → ∃ u, tsPrepare D false r t = .refused .full u) := by
  obtain ⟨u, c, hprep, hbody, hcgen, hcrecs, hsession, huslot⟩ :=
    tsPrepare_of_agrees hag hok hstaged hslot hgen
  have hurec : u.record = t.record := congrArg Session.record hsession
  have hukey : recordKey u.record = u.key := by
    have hk : u.key = t.key := congrArg Session.key hsession
    rw [hurec, hk, hkey]
  refine ⟨c, hcgen, hcrecs, fun hroom => ?_, fun hroom => ?_⟩
  · obtain ⟨p, buf, hplace, hfill⟩ := tsPlace_room (D := D) hbody (hurec ▸ hlen) hukey (hurec ▸ hroom)
    refine ⟨p, { u with buf := buf }, hprep.trans hplace, huslot, ?_⟩
    have hnext : c.next u.record (hurec ▸ hlen) (hurec ▸ hroom) = c.next t.record hlen hroom := by
      congr 1
    rwa [hnext] at hfill
  · exact ⟨u, hprep.trans (tsPlace_full hbody hukey (by rwa [hurec]))⟩

theorem tsWrite_file {w : Write} (h : Holds D t.buf c) :
    (tsWrite D w t).file = some (t.slot.other, c.image D) := by
  have hfile : bytesAt t.buf 0 (tsSize (t.buf 7)) = c.image D := by
    rw [h.size, h.bytes]
  unfold tsWrite tsVerify
  dsimp only
  rw [hfile]
  split
  · rfl
  split
  · rfl
  · rfl

theorem findIdx?_none {rec : List UInt8} {recs : List (List UInt8)}
    (h : recs.findIdx? (fun r => r.take 16 = rec.take 16) = none) :
    recordKey rec ∉ recs.map recordKey ∧
      recs ++ [rec] = Keyed.put recordKey (recordKey rec) rec recs := by
  induction recs with
  | nil => exact ⟨List.not_mem_nil, rfl⟩
  | cons r rs ih =>
      rw [List.findIdx?_cons] at h
      by_cases hr : r.take 16 = rec.take 16
      · rw [decide_eq_true hr, if_pos rfl] at h
        cases h
      · rw [decide_eq_false hr, if_neg Bool.false_ne_true, Option.map_eq_none_iff] at h
        obtain ⟨hmem, hput⟩ := ih h
        constructor
        · rw [List.map_cons, List.mem_cons]
          rintro (heq | hin)
          · exact hr heq.symm
          · exact hmem hin
        · rw [Keyed.put, if_neg (show ¬ recordKey r = recordKey rec from hr), List.cons_append, hput]

theorem findIdx?_some {rec : List UInt8} {recs : List (List UInt8)} : ∀ {i},
    recs.findIdx? (fun r => r.take 16 = rec.take 16) = some i →
      recordKey rec ∈ recs.map recordKey ∧
        recs.set i rec = Keyed.put recordKey (recordKey rec) rec recs := by
  induction recs with
  | nil =>
      intro i h
      cases h
  | cons r rs ih =>
      intro i h
      rw [List.findIdx?_cons] at h
      by_cases hr : r.take 16 = rec.take 16
      · rw [decide_eq_true hr, if_pos rfl] at h
        cases h
        refine ⟨List.mem_cons.2 (Or.inl (Eq.symm hr)), ?_⟩
        rw [Keyed.put, if_pos (show recordKey r = recordKey rec from hr), List.set_cons_zero]
      · rw [decide_eq_false hr, if_neg Bool.false_ne_true, Option.map_eq_some_iff] at h
        obtain ⟨j, hj, rfl⟩ := h
        obtain ⟨hmem, hput⟩ := ih hj
        refine ⟨List.mem_cons_of_mem _ hmem, ?_⟩
        rw [Keyed.put, if_neg (show ¬ recordKey r = recordKey rec from hr), List.set_cons_succ, hput]

/-- The loop of the mirror is the update, where there is room for it. -/
theorem replace_eq (rec : List UInt8) (c : Contents) : replace rec c.recs =
    if c.Room rec then .ok (Keyed.put recordKey (recordKey rec) rec c.recs) else .error .full := by
  unfold replace
  cases hidx : c.recs.findIdx? (fun r => r.take 16 = rec.take 16) with
  | none =>
      obtain ⟨hmem, hput⟩ := findIdx?_none hidx
      show (if tsMaxRecs ≤ c.recs.length then _ else _) = _
      by_cases hfull : tsMaxRecs ≤ c.recs.length
      · have hroom : ¬ c.Room rec := fun h => h.elim hmem (Nat.not_lt.2 hfull)
        rw [if_pos hfull, if_neg hroom]
      · have hroom : c.Room rec := Or.inr (Nat.lt_of_not_le hfull)
        rw [if_neg hfull, if_pos hroom, hput]
  | some i =>
      obtain ⟨hmem, hput⟩ := findIdx?_some hidx
      have hroom : c.Room rec := Or.inl hmem
      show Except.ok (c.recs.set i rec) = _
      rw [if_pos hroom, hput]

theorem image_next {record : List UInt8} (hlen : record.length = 64) (hroom : c.Room record) :
    (c.next record hlen hroom).image D =
      encode D (c.gen + 1) (Keyed.put recordKey (recordKey record) record c.recs) :=
  (encode_contents (c.next record hlen hroom)).symm

theorem lower_eq (b : UInt8) : lower b = if 0x41 ≤ b ∧ b ≤ 0x5a then b ||| 0x20 else b := by
  unfold lower
  refine if_congr (and_congr_right' ?_) rfl rfl
  rw [UInt8.lt_iff_toNat_lt, UInt8.le_iff_toNat_le]
  exact Nat.lt_succ_iff

theorem hostKey_eq {host : List UInt8} (h : host.length ≤ 256) :
    Store.hostKey D host = Mirror.hostKey D host := by
  unfold Store.hostKey Mirror.hostKey hostName
  rw [List.take_of_length_le h, List.map_congr_left fun b _ => lower_eq b]

theorem length_hostKey (D : Digest) (host : List UInt8) : (Store.hostKey D host).length = 16 := by
  unfold Store.hostKey
  rw [List.length_take, D.length_sha256]
  rfl

/-! ### From a load on -/

theorem trustStoreLoad_eq (host : List UInt8) (r : Reads) : trustStoreLoad D false host r t =
    tsRecIn (tsScan D r (tsHost D host { t with found := false, staged := .none })) :=
  rfl

/-- A load for a host on a disk that is read clear. -/
structure LoadedFor (D : Digest) (host : List UInt8) (s : Selection) (t : TrustStore) : Prop where
  key : t.key = Store.hostKey D host
  state : t.state = s.state
  chosen : s.state ≠ .fail → t.slot = s.slot ∧ t.gen = s.gen
  reason : s.state = .fail → t.reason = s.reason
  staged : t.staged = .none
  lookup : trustStoreLookup t =
    if s.state = .valid then Keyed.find recordKey (Store.hostKey D host) s.records else none

theorem loadedFor_of_agrees {host : List UInt8} {s : Selection} {r : Reads}
    (h : Agrees D (tsScan D r (tsHost D host { t with found := false, staged := .none })) s) :
    LoadedFor D host s (trustStoreLoad D false host r t) := by
  rw [trustStoreLoad_eq]
  have hsession := session_tsScan (D := D) (t := tsHost D host { t with found := false, staged := .none }) r
  generalize tsScan D r (tsHost D host { t with found := false, staged := .none }) = u at h hsession
  have hkey : u.key = Store.hostKey D host := congrArg Session.key hsession
  have hfound : u.found = false := congrArg Session.found hsession
  have hstaged : u.staged = .none := congrArg Session.staged hsession
  by_cases hrec : u.state = .valid ∧ (tsFindIn u).2 = true
  · have hin : tsRecIn u = { u with record := bytesAt u.buf (tsFindIn u).1 64, found := true } := by
      unfold tsRecIn
      rw [if_pos hrec]
    have hvalid : s.state = .valid := h.state.symm.trans hrec.1
    obtain ⟨c, hc, -, hrecs⟩ := h.holds hvalid
    have hfind := find_of_body hc.toBody
    rw [if_pos hrec.2, hkey, hrecs] at hfind
    rw [hin]
    refine ⟨hkey, h.state, h.chosen, h.reason, hstaged, ?_⟩
    rw [if_pos hvalid, hfind]
    rfl
  · have hin : tsRecIn u = u := by
      unfold tsRecIn
      rw [if_neg hrec]
    rw [hin]
    refine ⟨hkey, h.state, h.chosen, h.reason, hstaged, ?_⟩
    unfold trustStoreLookup
    rw [hfound, if_neg Bool.false_ne_true]
    split
    case isTrue hvalid =>
      obtain ⟨c, hc, -, hrecs⟩ := h.holds hvalid
      have hfind := find_of_body hc.toBody
      rw [if_neg fun hf => hrec ⟨h.state.trans hvalid, hf⟩, hkey, hrecs] at hfind
      exact hfind.symm
    case isFalse => rfl

theorem recordKey_staged (host record : List UInt8) :
    recordKey (Store.hostKey D host ++ record.drop 16) = Store.hostKey D host := by
  unfold recordKey
  exact List.take_left' (length_hostKey D host)

theorem length_staged (host : List UInt8) {record : List UInt8} (h : record.length = 64) :
    (Store.hostKey D host ++ record.drop 16).length = 64 := by
  rw [List.length_append, length_hostKey, List.length_drop, h]

/-- On a disk that a load and a save read clear, the save writes the file that the mirror's does, to the
same slot, or is refused for the same reason before anything is written. -/
theorem trustStoreSave_mirror (D : Digest) (slots : Slot → SlotRead) (w : Write)
    (host record : List UInt8) (hhost : host.length ≤ 256) (hrecord : record.length = 64)
    (t : TrustStore) (ring : Buffer) (hload : Clear (store t.buf 0 (hostName host)) slots)
    (hsave : Clear ring slots) :
    let loaded := trustStoreLoad D false host (readsOf slots) t
    let saved := trustStoreSave D false (readsOf slots) w { trustStoreStage record loaded with buf := ring }
    saved.file = (Mirror.save D slots host record).toOption ∧
      ∀ c, Mirror.save D slots host record = .error c → saved.store.reason = c := by
  intro loaded saved
  have hl : LoadedFor D host (select D slots) loaded := loadedFor_of_agrees (tsScan_agrees hload)
  have hkey := hostKey_eq (D := D) hhost
  have hag : Agrees D (tsScan D (readsOf slots) { trustStoreStage record loaded with buf := ring })
      (select D slots) := tsScan_agrees hsave
  -- a store that cannot be read is not written
  by_cases hfail : (select D slots).state = .fail
  · have hmirror : Mirror.save D slots host record = .error .notready := by
      unfold Mirror.save
      dsimp only
      rw [hfail, if_pos ⟨by decide, by decide⟩]
    have hstaged : loaded.state = .fail := hl.state.trans hfail
    have hprep : tsPrepare D false (readsOf slots) { trustStoreStage record loaded with buf := ring } =
        .refused .notready { trustStoreStage record loaded with buf := ring } := by
      unfold tsPrepare
      rw [if_neg Bool.false_ne_true, if_pos]
      show loaded.state ≠ .valid ∧ loaded.state ≠ .empty
      rw [hstaged]
      exact ⟨by decide, by decide⟩
    have hsaved : saved = tsPut D w (.refused .notready { trustStoreStage record loaded with buf := ring }) :=
      congrArg (tsPut D w) hprep
    rw [hmirror, hsaved]
    refine ⟨rfl, fun c hc => ?_⟩
    cases hc
    rfl
  · obtain ⟨hslot, hgen⟩ := hl.chosen hfail
    have hrec : (trustStoreStage record loaded).record = Store.hostKey D host ++ record.drop 16 :=
      congrArg (· ++ record.drop 16) hl.key
    obtain ⟨c, hcgen, hcrecs, hput, hfull⟩ := tsPrepare_staged hag hfail hl.state hslot hgen
      (by rw [← length_staged host hrecord (D := D), ← hrec])
      (by
        show recordKey (trustStoreStage record loaded).record = loaded.key
        rw [hrec, recordKey_staged, hl.key])
    have hrec' : ({ trustStoreStage record loaded with buf := ring } : TrustStore).record =
      Store.hostKey D host ++ record.drop 16 := hrec
    have hmirror : Mirror.save D slots host record =
        (replace (Store.hostKey D host ++ record.drop 16) c.recs).map fun recs =>
          ((select D slots).slot.other, encode D (c.gen + 1) recs) := by
      unfold Mirror.save
      dsimp only
      rw [if_neg (ready_of_select hfail), hkey, hcgen, hcrecs]
    rw [replace_eq] at hmirror
    -- the record has its place, or there are 32 of others
    by_cases hroom : c.Room (Store.hostKey D host ++ record.drop 16)
    · rw [if_pos hroom] at hmirror
      have hroom' := hrec'.symm ▸ hroom
      obtain ⟨p, u, hprep, huslot, hfill⟩ := hput hroom'
      have hsaved : saved = tsWrite D w { u with buf := tsFill D p u } :=
        congrArg (tsPut D w) hprep
      have hfile := tsWrite_file (w := w) (t := { u with buf := tsFill D p u }) hfill
      have hslot' : ({ u with buf := tsFill D p u } : TrustStore).slot = (select D slots).slot := huslot
      rw [hsaved, hmirror, hfile, hslot', image_next, hrec']
      exact ⟨rfl, fun e he => nomatch he⟩
    · rw [if_neg hroom] at hmirror
      obtain ⟨u, hprep⟩ := hfull (hrec'.symm ▸ hroom)
      have hsaved : saved = tsPut D w (.refused .full u) := congrArg (tsPut D w) hprep
      rw [hsaved, hmirror]
      refine ⟨rfl, fun e he => ?_⟩
      cases he
      rfl

/-- The first save of all. -/
theorem trustStoreSave_mirror_first :
    (trustStoreSave .fips false (readsOf fun _ => .absent) (fun _ bytes => (true, .file bytes))
      { trustStoreStage (List.replicate 64 7) (trustStoreLoad .fips false [0x61]
        (readsOf fun _ => .absent) (.cleared fun _ => 0)) with buf := fun _ => 1 }).file =
      (Mirror.save .fips (fun _ => .absent) [0x61] (List.replicate 64 7)).toOption :=
  (trustStoreSave_mirror .fips (fun _ => .absent) (fun _ bytes => (true, .file bytes)) [0x61]
    (List.replicate 64 7) (by decide) (by decide) (.cleared fun _ => 0) (fun _ => 1)
    ⟨not_false, not_false⟩ ⟨not_false, not_false⟩).1

end Save

end Store
end C64Https
