import C64Https.Store.StoreRuns

/-!
# TornSave — a save that is cut off

Power can go while a slot is written, so that it holds only the first `n` bytes of the new file.  The other
slot still holds the loaded generation, and the next load takes that one, or the new one when the file was
complete — except after a cut within the first five bytes of slot A, where the ring decides: it is read with
the host's name in the place of what the file does not cover, and what looks like the magic with another
version behind it is a store that may not be used (`tornSave_load`).
-/

namespace C64Https
namespace Store

open Bytes Word Mirror

section Torn

variable {D : Digest} {c : Contents} {n : Nat}

/-- The ring completes the magic behind the first `n` bytes of a file, and has no version one behind it. -/
def Completes (ring : Buffer) (n : Nat) : Prop :=
  n ≤ 4 ∧ (∀ i < 4, n ≤ i → ring i = tsMagic.getD i 0) ∧ ring 4 ≠ tsVersion

theorem getD_image (c : Contents) {i : Nat} (hi : i < 8) :
    (c.image D).getD i 0 = (Contents.header c.gen c.recs.length).getD i 0 := by
  have hbody : i < c.body.length := by
    rw [c.length_body]
    omega
  have hbyte := List.getD_append c.body ((D.sha256 c.body).take 8) 0 i hbody
  exact hbyte.trans (List.getD_append (Contents.header c.gen c.recs.length) c.recs.flatten 0 i hi)

theorem getD_take_image (c : Contents) {i : Nat} (hi : i < 8) (hin : i < n) :
    ((c.image D).take n).getD i 0 = (Contents.header c.gen c.recs.length).getD i 0 := by
  rw [← getD_image (D := D) c hi]
  unfold List.getD
  rw [List.getElem?_take_of_lt hin]

theorem length_take_image (h : n < c.size) : ((c.image D).take n).length = n := by
  rw [List.length_take, c.length_image]
  omega

/-- A part of a file, read over the ring. -/
theorem store_take_image (ring : Buffer) (h : n < c.size) {i : Nat} (hi : i < 8) :
    store ring 0 ((c.image D).take n) i =
      if i < n then (Contents.header c.gen c.recs.length).getD i 0 else ring i := by
  have hlen := length_take_image (D := D) h
  split
  case isTrue hin =>
    rw [store_getD ring (by rw [hlen]; exact hin), getD_take_image c hi hin]
  case isFalse hin =>
    apply store_of_outside
    right
    rw [hlen]
    omega

/-- To the mirror a part of a file is no store. -/
theorem slotResult_torn (h : n < c.size) : slotResult D (.file ((c.image D).take n)) = .format := by
  have hlen := length_take_image (D := D) h
  have hmax := c.size_le
  show resultCode (decode D ((c.image D).take n)) = .format
  unfold decode
  rw [List.take_of_length_le (by rw [hlen]; omega)]
  rcases Nat.lt_or_ge n 16 with hn | hn
  · rw [decodeData_short (by rw [hlen]; exact hn)]
    rfl
  · have hcount : (((c.image D).take n).getD 7 0).toNat = c.recs.length := by
      rw [getD_take_image c (by decide) (by omega)]
      show (UInt8.ofNat c.recs.length).toNat = _
      rw [UInt8.toNat_ofNat', Nat.mod_eq_of_lt c.length_recs_lt]
    have hmagic : ((c.image D).take n).take 4 = tsMagic := by
      have htake : ((c.image D).take n).take 4 = (c.image D).take 4 := by
        rw [List.take_take, Nat.min_eq_left (by omega)]
      rw [htake]
      unfold Contents.image Contents.body Contents.header
      rfl
    have hver : ((c.image D).take n).getD 4 0 = tsVersion := by
      rw [getD_take_image c (by decide) (by omega)]
      rfl
    have hsize : ((c.image D).take n).length ≠ 8 + (((c.image D).take n).getD 7 0).toNat * 64 + 8 := by
      rw [hlen, hcount]
      unfold Contents.size at h
      omega
    unfold decodeData
    rw [if_neg (by rw [hlen]; omega), if_neg (not_not_intro hmagic), if_neg (not_not_intro hver),
      if_pos hsize]
    rfl

/-- When a part of a file is read stale. -/
theorem stale_torn_iff (ring : Buffer) (h : n < c.size) :
    StaleRead ring (.file ((c.image D).take n)) ↔ Completes ring n := by
  have hlen := length_take_image (D := D) h
  have hmax := c.size_le
  have hcut : ((c.image D).take n).take (tsFileMax + 1) = (c.image D).take n :=
    List.take_of_length_le (by rw [hlen]; omega)
  show Stale ring (((c.image D).take n).take (tsFileMax + 1)) ↔ _
  rw [hcut]
  unfold Stale Completes
  rw [hlen, bytesAt_eq_iff, store_take_image ring h (show 4 < 8 by decide)]
  constructor
  · rintro ⟨-, ⟨-, hmagic⟩, hver⟩
    have hn : n ≤ 4 := by
      refine Nat.le_of_not_lt fun hlt => ?_
      rw [if_pos hlt] at hver
      exact hver rfl
    rw [if_neg (by omega)] at hver
    refine ⟨hn, fun i hi hle => ?_, hver⟩
    have hbyte := hmagic i hi
    rwa [Nat.zero_add, store_take_image ring h (by omega), if_neg (by omega)] at hbyte
  · rintro ⟨hn, hmagic, hver⟩
    rw [if_neg (by omega)]
    refine ⟨by omega, ⟨rfl, fun i hi => ?_⟩, hver⟩
    rw [Nat.zero_add, store_take_image ring h (by omega)]
    split
    · exact List.getD_append tsMagic _ 0 i hi
    · exact hmagic i hi (by omega)

/-! ## The next load -/

/-- The disk after a cut: the loaded slot `x`, and a part of the new file in the other one. -/
structure Cut (D : Digest) (slots : Slot → SlotRead) (x : Slot) (c c' : Contents) (n : Nat) : Prop where
  whole : slots x = .file (c.image D)
  part : slots x.other = .file ((c'.image D).take n)
  short : n < c'.size

variable {slots : Slot → SlotRead} {x : Slot} {c' : Contents} {t : TrustStore} {host : List UInt8}

theorem Cut.select (h : Cut D slots x c c' n) :
    select D slots = ⟨.valid, .ok, x, c.gen, c.recs, fun x => slotResult D (slots x)⟩ := by
  have hformat : slotResult D (slots x.other) = .format := by
    rw [h.part]
    exact slotResult_torn h.short
  apply select_beside h.whole
  · rw [hformat]
    decide
  · rw [hformat]
    decide

/-- Only slot A can be read over something else than a store. -/
theorem Cut.clear_iff (h : Cut D slots x c c' n) (ring : Buffer) :
    Clear ring slots ↔ ¬ (x = .b ∧ Completes ring n) := by
  unfold Clear
  cases x with
  | a =>
      -- the part in slot B is read over the whole file of slot A, whose version is the right one
      have hwhole : slots .a = .file (c.image D) := h.whole
      have hpart : slots .b = .file ((c'.image D).take n) := h.part
      have hver : readInto ring (slots .a) 4 = tsVersion := by
        have hmax := c.size_le
        rw [hwhole]
        show store ring 0 ((c.image D).take (tsFileMax + 1)) 4 = _
        rw [List.take_of_length_le (by rw [c.length_image]; omega)]
        exact (holds_store (D := D) ring c).version
      refine ⟨fun _ hb => (nomatch hb.1), fun _ => ⟨?_, ?_⟩⟩
      · rw [hwhole]
        exact not_stale_image ring c
      · rw [hpart, stale_torn_iff _ h.short]
        exact fun hcomp => hcomp.2.2 hver
  | b =>
      have hwhole : slots .b = .file (c.image D) := h.whole
      have hpart : slots .a = .file ((c'.image D).take n) := h.part
      rw [hpart, hwhole, stale_torn_iff ring h.short]
      constructor
      · exact fun hclear hb => hclear.1 hb.2
      · exact fun hb => ⟨fun hcomp => hb ⟨rfl, hcomp⟩, not_stale_image _ c⟩

theorem load_of_clear (h : Clear (store t.buf 0 (hostName host)) slots) :
    LoadedFor D host (Mirror.select D slots) (trustStoreLoad D false host (readsOf slots) t) :=
  loadedFor_of_agrees (tsScan_agrees h)

/-- A stale slot A beside a good slot B is an unknown version. -/
theorem load_of_stale (hb : slots .b = .file (c.image D))
    (ha : StaleRead (store t.buf 0 (hostName host)) (slots .a)) :
    (trustStoreLoad D false host (readsOf slots) t).state = .fail ∧
      (trustStoreLoad D false host (readsOf slots) t).reason = .version := by
  rw [trustStoreLoad_eq, tsScan_eq]
  generalize hu : tsHost D host { t with found := false, staged := .none } = u
  have hring : StaleRead u.buf (slots .a) := by
    rw [← hu]
    exact ha
  have hversion : (tsReadSlot D .a (slots .a) u).2 = .version := by
    cases hfile : slots .a with
    | absent => rw [hfile] at hring; exact hring.elim
    | nopath => rw [hfile] at hring; exact hring.elim
    | dos => rw [hfile] at hring; exact hring.elim
    | io part => rw [hfile] at hring; exact hring.elim
    | file bytes =>
        rw [hfile] at hring
        have hs : Stale u.buf (bytes.take (tsFileMax + 1)) := hring
        rw [tsReadSlot_file_result, tsCheck_short u.buf hs.1, if_pos hs]
  have hsta : (tsLook D slots u).slotSt .a = .version := (slotSt_tsLook_a slots).trans hversion
  have hstb : (tsLook D slots u).slotSt .b = .ok := by
    rw [slotSt_tsLook_b, hb, tsReadSlot_image]
  have hfail : tsChoose D (slots .a) (tsLook D slots u) = tsFail .version (tsLook D slots u) := by
    unfold tsChoose
    rw [hsta, hstb]
    rfl
  have hin : tsRecIn (tsFail .version (tsLook D slots u)) = tsFail .version (tsLook D slots u) := by
    unfold tsRecIn
    exact if_neg fun hv => nomatch hv.1
  rw [hfail, hin]
  exact ⟨rfl, rfl⟩

/-- The slots of a disk after a cut. -/
theorem cut_of_stored {disk : Slot → Option (List UInt8)} (hx : disk x = some (c.image D))
    (h : n < c'.size) :
    Cut D (slotsOf (Function.update disk x.other (some ((c'.image D).take n)))) x c c' n where
  whole := slotsOf_some ((Function.update_of_ne (Ne.symm (other_ne x)) _ _).trans hx)
  part := slotsOf_some (Function.update_self _ _ _)
  short := h

end Torn

/-! ## Over whole runs -/

section Runs

variable {D : Digest} {x : Slot} {n : Nat}

/-- What the next load makes of the disk: with the map before the save, or with the one after it. -/
structure Recovers (after : TrustStore) (slot : Slot) (map : Finmap fun _ : List UInt8 => List UInt8)
    (key : List UInt8) : Prop where
  slot : after.slot = slot
  lookup : trustStoreLookup after = map.lookup key

/-- After a cut the loaded generation is taken, unless slot A was being written and the ring makes another
version of what is there. -/
theorem load_after_cut {disk : Slot → Option (List UInt8)}
    {map : Finmap fun _ : List UInt8 => List UInt8} {c' : Contents} (h : Stored D disk map (some x))
    (hcut : n < c'.size) (host : List UInt8) (t : TrustStore) :
    let after := trustStoreLoad D false host
      (readsOf (slotsOf (Function.update disk x.other (some ((c'.image D).take n))))) t
    (x = .b ∧ Completes (store t.buf 0 (hostName host)) n →
        after.state = .fail ∧ after.reason = .version) ∧
      (¬ (x = .b ∧ Completes (store t.buf 0 (hostName host)) n) →
        after.state = .valid ∧ Recovers after x map (hostKey D host)) := by
  intro after
  have hx : ∃ c : Contents, disk x = some (c.image D) ∧ Keyed.toFinmap recordKey c.recs = map := by
    cases h with
    | saved _ c hx _ _ => exact ⟨c, hx, rfl⟩
  obtain ⟨c, hx, hcmap⟩ := hx
  have hc : Cut D _ x c c' n := cut_of_stored hx hcut
  constructor
  · rintro ⟨rfl, hcomp⟩
    have hpart : slotsOf (Function.update disk Slot.b.other (some ((c'.image D).take n))) .a =
        .file ((c'.image D).take n) := hc.part
    have hstale : StaleRead (store t.buf 0 (hostName host))
        (slotsOf (Function.update disk Slot.b.other (some ((c'.image D).take n))) .a) := by
      rw [hpart, stale_torn_iff _ hcut]
      exact hcomp
    exact load_of_stale hc.whole hstale
  · intro hring
    have hl : LoadedFor D host _ after := load_of_clear ((hc.clear_iff _).2 hring)
    rw [hc.select] at hl
    refine ⟨hl.state, (hl.chosen fun h => nomatch h).1, ?_⟩
    rw [hl.lookup, if_pos rfl, ← Keyed.lookup_toFinmap, hcmap]

/-- After a save that came through the new generation is taken. -/
theorem load_after_whole {disk : Slot → Option (List UInt8)}
    {map : Finmap fun _ : List UInt8 => List UInt8} {y : Slot} {file : List UInt8}
    (h : Stored D (World.put disk (some (y, file))) map (some y)) (host : List UInt8) (t : TrustStore) :
    let after := trustStoreLoad D false host (readsOf (slotsOf (Function.update disk y (some file)))) t
    after.state = .valid ∧ Recovers after y map (hostKey D host) := by
  intro after
  have hl : IsLoaded D _ map (hostKey D host) after := load_of_stored h host t
  have hsel := h.selects
  exact ⟨hl.state.trans hsel.state, hl.slot.trans hsel.slot, hl.lookup⟩

/-- In every run, for every save that writes a file, every place at which the writing is cut off and every
host that is loaded next, with any ring: the load is valid unless slot A was cut within its first five bytes
and the ring completes the magic with another version, which is then reported.  A load that is valid answers
from the map before the save, or from the one after it when the file was complete. -/
theorem tornSave_load (D : Digest) (t₀ : TrustStore) (h₀ : Idle t₀) (ops : List Op) (x y : Slot)
    (file : List UInt8) (hlast : (Spec.start.run D ops).last = some x)
    (hfile : ((World.run D ⟨t₀, fun _ => none⟩ ops).save D false).file = some (y, file))
    (n : Nat) (hn : n ≤ file.length) (host : List UInt8) (t : TrustStore) :
    let disk := (World.run D ⟨t₀, fun _ => none⟩ ops).disk
    let s := Spec.start.run D ops
    let after := trustStoreLoad D false host (readsOf (slotsOf (Function.update disk y (some (file.take n))))) t
    (after.state = .valid ↔ ¬ (y = .a ∧ Completes (store t.buf 0 (hostName host)) n)) ∧
      (after.state = .valid → Recovers after (if n < file.length then x else y)
        (if n < file.length then s.map else (s.save s.phase).1.map) (hostKey D host)) ∧
      (after.state ≠ .valid → after.state = .fail ∧ after.reason = .version) := by
  intro disk s after
  have h : Sim D (World.run D ⟨t₀, fun _ => none⟩ ops) s := (sim_run (sim_start h₀) ops).2
  rcases save_cases h false with ⟨⟨c, u, hsave⟩, -⟩ | ⟨record, ⟨u, c', hsave, hstored⟩, hspec⟩
  · rw [hsave] at hfile
    cases hfile
  · rw [hsave] at hfile
    cases hfile
    have hlen := c'.length_image D
    have htarget : target s.last = x.other := by
      rw [hlast]
      rfl
    have hside : target s.last = .a ↔ x = .b := by
      rw [htarget]
      cases x <;> decide
    -- cut: the other slot holds the generation before
    rcases Nat.lt_or_ge n c'.size with hcut | hwhole
    · have hst := h.stored
      rw [hlast] at hst
      have hafter := load_after_cut hst hcut host t
      rw [← htarget, ← hside] at hafter
      rw [if_pos (show n < (c'.image D).length by rw [hlen]; exact hcut),
        if_pos (show n < (c'.image D).length by rw [hlen]; exact hcut)]
      by_cases hring : target s.last = .a ∧ Completes (store t.buf 0 (hostName host)) n
      · have hfail := hafter.1 hring
        have hnot : after.state ≠ .valid := fun hv => by
          rw [hfail.1] at hv
          cases hv
        exact ⟨⟨fun hv => absurd hv hnot, fun hr => absurd hring hr⟩, fun hv => absurd hv hnot,
          fun _ => hfail⟩
      · have hok := hafter.2 hring
        exact ⟨⟨fun _ => hring, fun _ => hok.1⟩, fun _ => hok.2, fun hv => absurd hok.1 hv⟩
    · have hmap : (s.save s.phase).1.map = s.map.insert (recordKey record) record := by
        have hif : s.save (if false = true then .idle else s.phase) = s.save s.phase :=
          congrArg s.save (if_neg Bool.false_ne_true)
        rw [← hif, hspec]
        rfl
      have hafter := load_after_whole hstored host t
      have htake : (c'.image D).take n = c'.image D :=
        List.take_of_length_le (by rw [hlen]; exact hwhole)
      rw [← htake] at hafter
      have hring : ¬ (target s.last = .a ∧ Completes (store t.buf 0 (hostName host)) n) := by
        rintro ⟨-, hcomp⟩
        have h4 := hcomp.1
        unfold Contents.size at hwhole
        omega
      rw [if_neg (show ¬ n < (c'.image D).length by rw [hlen]; omega),
        if_neg (show ¬ n < (c'.image D).length by rw [hlen]; omega), hmap]
      exact ⟨⟨fun _ => hring, fun _ => hafter.1⟩, fun _ => hafter.2, fun hv => absurd hafter.1 hv⟩

theorem save_fits {s : Spec} {record : List UInt8} (h : s.Fits record) :
    s.save (.staged record) = (s.insert record, true) :=
  if_pos h

/-- A first save, and a second one for the same host whose file is lost altogether. -/
def twoSaves : List Op :=
  [.load false [0x61], .stage ⟨List.replicate 64 7, rfl⟩, .save false, .load false [0x61],
    .stage ⟨List.replicate 64 8, rfl⟩]

theorem spec_twoSaves (D : Digest) : Spec.start.run D twoSaves =
    ⟨Finmap.insert (hostKey D [0x61]) (hostKey D [0x61] ++ (List.replicate 64 7).drop 16) ∅, some .a,
      .staged (hostKey D [0x61] ++ (List.replicate 64 8).drop 16)⟩ := by
  have hfits : Spec.Fits ⟨∅, none, .staged (hostKey D [0x61] ++ (List.replicate 64 7).drop 16)⟩
      (hostKey D [0x61] ++ (List.replicate 64 7).drop 16) := by
    right
    show (∅ : Finmap fun _ : List UInt8 => List UInt8).keys.card < tsMaxRecs
    rw [Finmap.keys_empty]
    decide
  have hkey := recordKey_staged (D := D) [0x61] (List.replicate 64 7)
  have hrun : Spec.start.run D twoSaves = Spec.next D (Spec.next D
      (Spec.save ⟨∅, none, .staged (hostKey D [0x61] ++ (List.replicate 64 7).drop 16)⟩
        (.staged (hostKey D [0x61] ++ (List.replicate 64 7).drop 16))).1
      (.load false [0x61])) (.stage ⟨List.replicate 64 8, rfl⟩) := rfl
  rw [hrun, save_fits hfits]
  unfold Spec.insert
  rw [hkey]
  rfl

theorem tornSave_load_second : ∃ file,
    ((World.run .fips ⟨.cleared fun _ => 0, fun _ => none⟩ twoSaves).save .fips false).file =
      some (.b, file) ∧
    (trustStoreLoad .fips false [0x61] (readsOf (slotsOf (Function.update
      (World.run .fips ⟨.cleared fun _ => 0, fun _ => none⟩ twoSaves).disk .b (some (file.take 0)))))
      (.cleared fun _ => 0)).state = .valid := by
  have hidle : Idle (.cleared fun _ => 0) := ⟨rfl, not_usable_none, not_usable_none⟩
  have hspec := spec_twoSaves .fips
  have hlast : (Spec.start.run .fips twoSaves).last = some .a := by
    rw [hspec]
  have hsim := (sim_run (sim_start (D := .fips) hidle) twoSaves).2
  have hfits : (Spec.start.run .fips twoSaves).Fits
      (hostKey .fips [0x61] ++ (List.replicate 64 8).drop 16) := by
    left
    rw [hspec, recordKey_staged]
    exact Finmap.mem_insert.2 (Or.inl rfl)
  rcases save_cases hsim false with ⟨-, hno⟩ | ⟨record, ⟨t, c, hsave, -⟩, -⟩
  · have hphase : (Spec.start.run .fips twoSaves).phase =
        .staged (hostKey .fips [0x61] ++ (List.replicate 64 8).drop 16) := by
      rw [hspec]
    rw [if_neg Bool.false_ne_true, hphase, save_fits hfits] at hno
    exact absurd (congrArg Prod.snd hno).symm Bool.false_ne_true
  · have hfile : ((World.run .fips ⟨.cleared fun _ => 0, fun _ => none⟩ twoSaves).save .fips false).file =
        some (.b, c.image .fips) := by
      rw [hsave, hlast]
      rfl
    have hload := tornSave_load .fips _ hidle twoSaves .a .b (c.image .fips) hlast hfile 0
      (Nat.zero_le _) [0x61] (.cleared fun _ => 0)
    exact ⟨c.image .fips, hfile, hload.1.2 fun h => nomatch h.1⟩

end Runs

end Store
end C64Https
