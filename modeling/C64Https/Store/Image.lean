import C64Https.Store.TrustStore

/-!
# Image — what a slot holds

`Contents` is a generation and its records, as many and as long as the format allows; `Contents.image` is
its file.  The checks of a slot accept exactly the images (`tsCheck_eq_ok_iff`): the buffer then holds the
generation and the records it was checked for.  Saving a record fills the buffer with the image of the next
contents (`holds_tsFill`), whatever else the ring holds.
-/

namespace C64Https
namespace Store

open Bytes Word

/-! ## Images -/

/-- A generation of the store. -/
structure Contents where
  gen : UInt16
  recs : List (List UInt8)
  length_recs : recs.length ≤ tsMaxRecs
  length_of_mem : ∀ r ∈ recs, r.length = 64

namespace Contents

variable (c : Contents)

def header (gen : UInt16) (n : Nat) : List UInt8 :=
  tsMagic ++ [tsVersion, lo gen.toNat, hi gen.toNat, UInt8.ofNat n]

/-- Header and records. -/
def body : List UInt8 :=
  header c.gen c.recs.length ++ c.recs.flatten

def image (D : Digest) : List UInt8 :=
  c.body ++ (D.sha256 c.body).take 8

def size : Nat :=
  16 + 64 * c.recs.length

theorem length_recs_lt : c.recs.length < 256 :=
  Nat.lt_of_le_of_lt c.length_recs (by decide)

theorem size_le : c.size ≤ tsFileMax := by
  have h := c.length_recs
  unfold size tsFileMax
  unfold tsMaxRecs at h ⊢
  omega

theorem length_flatten {recs : List (List UInt8)} (h : ∀ r ∈ recs, r.length = 64) :
    recs.flatten.length = 64 * recs.length := by
  induction recs with
  | nil => rfl
  | cons r rs ih =>
      have hr := h r List.mem_cons_self
      have hrs := ih fun x hx => h x (List.mem_cons_of_mem r hx)
      rw [List.flatten_cons, List.length_append, List.length_cons, hr, hrs]
      omega

theorem length_body : c.body.length = 8 + 64 * c.recs.length := by
  unfold body
  rw [List.length_append, length_flatten c.length_of_mem]
  rfl

theorem length_checksum (D : Digest) (m : List UInt8) : ((D.sha256 m).take 8).length = 8 := by
  rw [List.length_take, D.length_sha256]
  rfl

theorem length_image (D : Digest) : (c.image D).length = c.size := by
  unfold image size
  rw [List.length_append, c.length_body, length_checksum]
  omega

end Contents

/-! ## A buffer that holds one -/

/-- The buffer starts with header and records. -/
structure Body (buf : Buffer) (c : Contents) : Prop where
  magic : bytesAt buf 0 4 = tsMagic
  version : buf 4 = tsVersion
  gen : genAt buf = c.gen
  count : (buf 7).toNat = c.recs.length
  records : recordsFrom buf c.recs.length 8 = c.recs

/-- And the checksum is behind them. -/
structure Holds (D : Digest) (buf : Buffer) (c : Contents) : Prop extends Body buf c where
  checksum : tsChecksum D buf = bytesAt buf (tsBodyLen (buf 7)) 8

section Buffers

variable {D : Digest} {buf : Buffer} {c : Contents}

theorem lo_genAt (buf : Buffer) : lo (genAt buf).toNat = buf 5 := by
  have h₅ := toNat_lt (buf 5)
  apply UInt8.toNat_inj.1
  unfold lo genAt word
  rw [UInt8.toNat_ofNat', UInt16.toNat_ofNat']
  omega

theorem hi_genAt (buf : Buffer) : hi (genAt buf).toNat = buf 6 := by
  have h₅ := toNat_lt (buf 5)
  have h₆ := toNat_lt (buf 6)
  apply UInt8.toNat_inj.1
  unfold hi genAt word
  rw [UInt8.toNat_ofNat', UInt16.toNat_ofNat']
  omega

theorem genAt_of_bytes {g : UInt16} (h₅ : buf 5 = lo g.toNat) (h₆ : buf 6 = hi g.toNat) :
    genAt buf = g := by
  unfold genAt
  rw [h₅, h₆, word_hi_lo g.toNat_lt, UInt16.ofNat_toNat]

theorem header_bytes (buf : Buffer) :
    bytesAt buf 0 8 = bytesAt buf 0 4 ++ [buf 4, buf 5, buf 6, buf 7] :=
  bytesAt_add buf 0 4 4

namespace Body

/-- The bytes of the body, read off the buffer. -/
theorem bytes (h : Body buf c) : bytesAt buf 0 (8 + 64 * c.recs.length) = c.body := by
  have hcount : buf 7 = UInt8.ofNat c.recs.length := by
    rw [← h.count, UInt8.ofNat_toNat]
  have hflat := flatten_recordsFrom buf c.recs.length 8
  rw [bytesAt_add, header_bytes, Nat.zero_add, ← hflat, h.records, h.magic, h.version, ← lo_genAt buf,
    ← hi_genAt buf, h.gen, hcount]
  rfl

theorem bodyLen (h : Body buf c) : tsBodyLen (buf 7) = 8 + 64 * c.recs.length := by
  rw [tsBodyLen_eq, h.count]

theorem size (h : Body buf c) : tsSize (buf 7) = c.size := by
  rw [tsSize_eq, h.count]
  rfl

theorem tsChecksum (h : Body buf c) : tsChecksum D buf = (D.sha256 c.body).take 8 := by
  unfold Store.tsChecksum
  rw [h.bodyLen, h.bytes]

theorem congr {buf' : Buffer} (h : Body buf c)
    (heq : ∀ i < 8 + 64 * c.recs.length, buf' i = buf i) : Body buf' c where
  magic := (bytesAt_congr fun i hi => by rw [heq _ (by omega)]).trans h.magic
  version := (heq 4 (by omega)).trans h.version
  gen := by
    have h₅ := heq 5 (by omega)
    have h₆ := heq 6 (by omega)
    rw [← h.gen]
    unfold genAt
    rw [h₅, h₆]
  count := by rw [heq 7 (by omega), h.count]
  records := (recordsFrom_congr _ 8 fun i _ hi => heq i (by omega)).trans h.records

/-- The checksum behind a body makes it an image. -/
theorem holds_checksum (h : Body buf c) :
    Holds D (store buf (tsBodyLen (buf 7)) (Store.tsChecksum D buf)) c := by
  have hlen := Contents.length_checksum D c.body
  have hlow : ∀ i < 8 + 64 * c.recs.length,
      store buf (tsBodyLen (buf 7)) (Store.tsChecksum D buf) i = buf i := by
    intro i hi
    apply store_of_outside
    rw [h.bodyLen]
    exact Or.inl hi
  have hbody := h.congr hlow
  refine ⟨hbody, ?_⟩
  rw [hbody.tsChecksum, hbody.bodyLen, ← h.bodyLen, h.tsChecksum]
  exact (bytesAt_store_of_length buf _ hlen).symm

end Body

namespace Holds

/-- The whole file, read off the buffer. -/
theorem bytes (h : Holds D buf c) : bytesAt buf 0 c.size = c.image D := by
  have hsize : c.size = 8 + 64 * c.recs.length + 8 := by
    unfold Contents.size
    omega
  have hsum := h.checksum
  rw [h.tsChecksum, h.bodyLen] at hsum
  rw [hsize, bytesAt_add, h.toBody.bytes, Nat.zero_add, ← hsum]
  rfl

theorem tsCheck (h : Holds D buf c) : tsCheck D buf c.size = .ok := by
  unfold Store.tsCheck
  rw [if_neg (not_not_intro h.magic), if_neg (not_not_intro h.version),
    if_neg (not_not_intro h.size.symm), if_neg (not_not_intro h.checksum)]

end Holds

end Buffers

/-! ## What the checks accept -/

section Check

variable {D : Digest} {buf : Buffer} {c : Contents}

/-- The bytes of an image, from the start of a buffer on. -/
theorem body_of_bytes (h : bytesAt buf 0 (8 + 64 * c.recs.length) = c.body) : Body buf c := by
  have hlt := c.length_recs_lt
  have hflat := Contents.length_flatten c.length_of_mem
  have hbyte : ∀ i < 8 + 64 * c.recs.length, buf i = c.body.getD i 0 := by
    intro i hi
    have hget := (bytesAt_eq_iff.1 h).2 i hi
    rwa [Nat.zero_add] at hget
  have hhead : ∀ i < 8, buf i = (Contents.header c.gen c.recs.length).getD i 0 := by
    intro i hi
    rw [hbyte i (by omega)]
    exact List.getD_append _ _ _ _ hi
  refine ⟨?_, hhead 4 (by decide), genAt_of_bytes (hhead 5 (by decide)) (hhead 6 (by decide)), ?_, ?_⟩
  · rw [bytesAt_eq_iff]
    refine ⟨rfl, fun i hi => ?_⟩
    rw [Nat.zero_add, hhead i (by omega)]
    exact List.getD_append _ _ _ _ hi
  · rw [hhead 7 (by decide)]
    show (UInt8.ofNat c.recs.length).toNat = c.recs.length
    rw [UInt8.toNat_ofNat', Nat.mod_eq_of_lt hlt]
  · have hrecs : bytesAt buf 8 (64 * c.recs.length) = c.recs.flatten := by
      have hdrop := congrArg (List.drop 8) h
      rw [drop_bytesAt buf 0 (by omega)] at hdrop
      have hbody : c.body.drop 8 = c.recs.flatten := List.drop_left' rfl
      rw [hbody, Nat.zero_add, Nat.add_sub_cancel_left] at hdrop
      exact hdrop
    rw [← flatten_recordsFrom] at hrecs
    apply List.eq_iff_flatten_eq.2
    refine ⟨hrecs, ?_⟩
    rw [List.map_eq_replicate_iff.2 fun r hr => length_of_mem_recordsFrom _ 8 hr,
      List.map_eq_replicate_iff.2 c.length_of_mem, length_recordsFrom]

theorem holds_of_bytes (h : bytesAt buf 0 c.size = c.image D) : Holds D buf c := by
  have hbody : bytesAt buf 0 (8 + 64 * c.recs.length) = c.body := by
    have htake := congrArg (List.take (8 + 64 * c.recs.length)) h
    unfold Contents.size Contents.image at htake
    rw [take_bytesAt buf 0 (by omega), List.take_left' c.length_body] at htake
    exact htake
  have hb := body_of_bytes hbody
  refine ⟨hb, ?_⟩
  have hdrop := congrArg (List.drop (8 + 64 * c.recs.length)) h
  unfold Contents.size Contents.image at hdrop
  rw [drop_bytesAt buf 0 (by omega), List.drop_left' c.length_body, Nat.zero_add] at hdrop
  rw [hb.tsChecksum, hb.bodyLen, ← hdrop]
  congr 1
  omega

/-- A file in the buffer that is an image. -/
theorem holds_store (buf : Buffer) (c : Contents) : Holds D (store buf 0 (c.image D)) c := by
  apply holds_of_bytes
  rw [← c.length_image D, bytesAt_store_self]

/-- What the checks accept is an image. -/
theorem holds_of_tsCheck {cnt : Nat} (h : tsCheck D buf cnt = .ok) (hcnt : cnt ≤ tsFileMax + 1) :
    ∃ c : Contents, Holds D buf c ∧ cnt = c.size := by
  unfold tsCheck at h
  split at h
  case isTrue => cases h
  case isFalse hmagic =>
    split at h
    case isTrue => cases h
    case isFalse hversion =>
      split at h
      case isTrue => cases h
      case isFalse hsize =>
        split at h
        case isTrue => cases h
        case isFalse hsum =>
          have hcount := not_not.1 hsize
          rw [tsSize_eq] at hcount
          have hle : (buf 7).toNat ≤ tsMaxRecs := by
            unfold tsFileMax at hcnt
            unfold tsMaxRecs at hcnt ⊢
            omega
          refine ⟨⟨genAt buf, recordsFrom buf (buf 7).toNat 8, ?_, ?_⟩, ⟨⟨?_, ?_, ?_, ?_, ?_⟩, ?_⟩, ?_⟩
          · rwa [length_recordsFrom]
          · exact fun r hr => length_of_mem_recordsFrom _ 8 hr
          · exact not_not.1 hmagic
          · exact not_not.1 hversion
          · rfl
          · exact (length_recordsFrom _ _ _).symm
          · exact congrArg (fun n => recordsFrom buf n 8) (length_recordsFrom buf _ 8)
          · exact not_not.1 hsum
          · unfold Contents.size
            rw [length_recordsFrom, hcount]

theorem tsCheck_eq_ok_iff {cnt : Nat} (hcnt : cnt ≤ tsFileMax + 1) :
    tsCheck D buf cnt = .ok ↔ ∃ c : Contents, bytesAt buf 0 cnt = c.image D := by
  constructor
  · intro h
    obtain ⟨c, hc, rfl⟩ := holds_of_tsCheck h hcnt
    exact ⟨c, hc.bytes⟩
  · rintro ⟨c, hc⟩
    have hlen := congrArg List.length hc
    rw [length_bytesAt, c.length_image] at hlen
    rw [hlen] at hc ⊢
    exact (holds_of_bytes hc).tsCheck

end Check

/-! ## Saving a record -/

namespace Contents

variable (c : Contents) {record : List UInt8}

/-- The record's host has a place, or there is a free one. -/
def Room (record : List UInt8) : Prop :=
  recordKey record ∈ c.recs.map recordKey ∨ c.recs.length < tsMaxRecs

instance (record : List UInt8) : Decidable (c.Room record) :=
  inferInstanceAs (Decidable (_ ∨ _))

def next (record : List UInt8) (hlen : record.length = 64) (hroom : c.Room record) : Contents where
  gen := c.gen + 1
  recs := Keyed.put recordKey (recordKey record) record c.recs
  length_recs := by
    rw [Keyed.length_put rfl]
    split
    case isTrue => exact c.length_recs
    case isFalse hmem => exact hroom.resolve_left hmem
  length_of_mem := by
    intro r hr
    rcases Keyed.mem_of_mem_put hr with rfl | hr
    · exact hlen
    · exact c.length_of_mem r hr

end Contents

section Save

variable {D : Digest} {t : TrustStore} {c : Contents}

theorem tsFindIn_eq (h : Body t.buf c) : tsFindIn t = tsFind t.key t.buf c.recs.length 8 := by
  unfold tsFindIn
  rw [h.count]

/-- `ts_find` in a buffer that holds the contents. -/
theorem find_of_body (h : Body t.buf c) : Keyed.find recordKey t.key c.recs =
    if (tsFindIn t).2 = true then some (bytesAt t.buf (tsFindIn t).1 64) else none := by
  have hfound := tsFind_found t.key t.buf c.recs.length 8
  rwa [h.records, ← tsFindIn_eq h] at hfound

theorem found_iff (h : Body t.buf c) :
    (tsFindIn t).2 = true ↔ t.key ∈ c.recs.map recordKey := by
  rw [← Keyed.isSome_find, find_of_body h]
  split
  case isTrue hfound => exact ⟨fun _ => rfl, fun _ => hfound⟩
  case isFalse hfound => exact ⟨fun h => absurd h hfound, fun h => absurd h Bool.false_ne_true⟩

/-- The record is in its place and the count is raised; the header is otherwise as it was. -/
theorem body_of_placed {b : Buffer} (h : Body t.buf c) (hlen : t.record.length = 64)
    (hkey : recordKey t.record = t.key) (hroom : c.Room t.record)
    (hlow : ∀ i < 7, b i = t.buf i)
    (hcount : (b 7).toNat = if (tsFindIn t).2 = true then c.recs.length else c.recs.length + 1)
    (hhigh : ∀ i, 8 ≤ i → b i = store t.buf (tsFindIn t).1 t.record i) :
    Body (store b 5 [lo (genAt b + 1).toNat, hi (genAt b + 1).toNat]) (c.next t.record hlen hroom) := by
  have hgen : genAt b = c.gen := by
    have h₅ := hlow 5 (by omega)
    have h₆ := hlow 6 (by omega)
    rw [← h.gen]
    unfold genAt
    rw [h₅, h₆]
  have hput : (c.next t.record hlen hroom).recs.length =
      if (tsFindIn t).2 = true then c.recs.length else c.recs.length + 1 := by
    show (Keyed.put recordKey (recordKey t.record) t.record c.recs).length = _
    rw [Keyed.length_put rfl, hkey]
    by_cases hfound : (tsFindIn t).2 = true
    · rw [if_pos hfound, if_pos ((found_iff h).1 hfound)]
    · rw [if_neg hfound, if_neg fun hmem => hfound ((found_iff h).2 hmem)]
  have hout : ∀ i, i < 5 ∨ 7 ≤ i →
      store b 5 [lo (genAt b + 1).toNat, hi (genAt b + 1).toNat] i = b i :=
    fun i hi => store_of_outside b hi
  refine ⟨?_, ?_, ?_, ?_, ?_⟩
  · refine (bytesAt_congr fun i hi => ?_).trans h.magic
    rw [hout _ (Or.inl (by omega)), hlow _ (by omega)]
  · rw [hout 4 (Or.inl (by omega)), hlow 4 (by omega), h.version]
  · show _ = c.gen + 1
    rw [← hgen]
    exact genAt_of_bytes rfl rfl
  · rw [hout 7 (Or.inr (Nat.le_refl 7)), hcount, hput]
  · show _ = Keyed.put recordKey (recordKey t.record) t.record c.recs
    rw [hput, hkey, ← h.records, tsFindIn_eq h, ← recordsFrom_fill t.buf hlen, h.records,
      ← tsFindIn_eq h]
    refine recordsFrom_congr _ 8 fun i hi _ => ?_
    rw [hout i (Or.inr (by omega)), hhigh i hi]

/-- A record that has room goes to its place, and the buffer becomes the next contents. -/
theorem tsPlace_room (h : Body t.buf c) (hlen : t.record.length = 64)
    (hkey : recordKey t.record = t.key) (hroom : c.Room t.record) :
    ∃ p buf, tsPlace t = .put p { t with buf := buf } ∧
      Holds D (tsFill D p { t with buf := buf }) (c.next t.record hlen hroom) := by
  obtain ⟨j, -, hplace, -⟩ := tsFind_place t.key t.buf c.recs.length 8
  rw [← tsFindIn_eq h] at hplace
  have hstore : ∀ (b : Buffer) (i : Nat), i < 8 → store b (tsFindIn t).1 t.record i = b i :=
    fun b i hi => store_of_outside b (Or.inl (by omega))
  by_cases hfound : (tsFindIn t).2 = true
  · refine ⟨(tsFindIn t).1, t.buf, ?_, ?_⟩
    · unfold tsPlace
      rw [if_pos hfound]
    · have hbody := body_of_placed (b := store t.buf (tsFindIn t).1 t.record) h hlen hkey hroom
        (fun i hi => hstore t.buf i (by omega))
        (by rw [hstore t.buf 7 (by omega), if_pos hfound, h.count]) (fun _ _ => rfl)
      exact hbody.holds_checksum
  · have hlt : c.recs.length < tsMaxRecs := by
      refine hroom.resolve_left fun hmem => hfound ((found_iff h).2 ?_)
      rwa [hkey] at hmem
    have hmax : tsMaxRecs < 256 := by decide
    refine ⟨(tsFindIn t).1, Function.update t.buf 7 (t.buf 7 + 1), ?_, ?_⟩
    · unfold tsPlace
      rw [if_neg hfound, if_neg]
      rw [h.count]
      omega
    · have hcount : (t.buf 7 + 1).toNat = c.recs.length + 1 := by
        have hone : (1 : UInt8).toNat = 1 := rfl
        rw [UInt8.toNat_add, h.count, hone]
        exact Nat.mod_eq_of_lt (by omega)
      have hbody := body_of_placed
        (b := store (Function.update t.buf 7 (t.buf 7 + 1)) (tsFindIn t).1 t.record) h hlen hkey hroom
        (fun i hi => by rw [hstore _ i (by omega), Function.update_of_ne (by omega)])
        (by rw [hstore _ 7 (by omega), Function.update_self, if_neg hfound, hcount])
        (fun i hi => by
          unfold store
          rw [Function.update_of_ne (by omega)])
      exact hbody.holds_checksum

theorem tsPlace_full (h : Body t.buf c) (hkey : recordKey t.record = t.key)
    (hroom : ¬ c.Room t.record) : tsPlace t = .refused .full t := by
  have hfound : ¬ (tsFindIn t).2 = true := by
    intro hfound
    apply hroom
    left
    rw [hkey]
    exact (found_iff h).1 hfound
  have hfull : tsMaxRecs ≤ (t.buf 7).toNat := by
    rw [h.count]
    exact Nat.not_lt.1 fun hlt => hroom (Or.inr hlt)
  unfold tsPlace
  rw [if_neg hfound, if_pos hfull]

end Save

end Store
end C64Https
