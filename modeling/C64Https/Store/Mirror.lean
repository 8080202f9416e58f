import C64Https.Store.Image

/-!
# Mirror — the host's mirror of the store (`src/tools/trust_store.py`)

The mirror decodes a slot from its bytes alone, where the program checks it in the ring.  `decode` accepts
exactly the images (`decode_eq_ok_iff`).  A file of fewer than sixteen bytes is `FORMAT` to the mirror; the
program looks at the magic and the version first, and takes what the file does not cover from the ring of
4 KB.  `Stale` is the case where this makes a difference, and `tsScan_agrees_iff` says that it is the only one: the
two agree on everything that a load reports exactly when neither slot is read so.
-/

namespace C64Https
namespace Store
namespace Mirror

open Bytes Word

/-! ## `decode` and `slot_result` -/

/-- `bytes` of a slice of records. -/
def sliceRecords (n : Nat) (data : List UInt8) : List (List UInt8) :=
  (List.range n).map fun i => (data.drop (8 + i * 64)).take 64

/-- `decode`, behind the cut to one byte more than fits. -/
def decodeData (D : Digest) (data : List UInt8) : Except Code (UInt16 × List (List UInt8)) :=
  if data.length < 8 + 8 then .error .format
  else if data.take 4 ≠ tsMagic then .error .format
  else if data.getD 4 0 ≠ tsVersion then .error .version
  else if data.length ≠ 8 + (data.getD 7 0).toNat * 64 + 8 then .error .format
  else if (D.sha256 (data.take (data.length - 8))).take 8 ≠ data.drop (data.length - 8) then
    .error .checksum
  else
    .ok (UInt16.ofNat (word (data.getD 6 0) (data.getD 5 0)), sliceRecords (data.getD 7 0).toNat data)

def decode (D : Digest) (file : List UInt8) : Except Code (UInt16 × List (List UInt8)) :=
  decodeData D (file.take (tsFileMax + 1))

/-- `StoreError.code`, and `SLOT_OK`. -/
def resultCode : Except Code (UInt16 × List (List UInt8)) → Code
  | .ok _ => .ok
  | .error c => c

def slotResult (D : Digest) : SlotRead → Code
  | .absent => .absent
  | .nopath => .nopath
  | .dos => .dos
  | .io _ => .io
  | .file bytes => resultCode (decode D bytes)

/-! ## `select` and `save` -/

/-- `serial_newer`. -/
def serialNewer (a b : UInt16) : Option Bool :=
  if b - a = 0 ∨ b - a = 0x8000 then none else some (b - a < 0x8000)

structure Selection where
  state : TsState
  reason : Code
  slot : Slot
  gen : UInt16
  records : List (List UInt8)
  slotSt : Slot → Code

def tolerable (c : Code) : Bool :=
  c ∈ [Code.absent, Code.format, Code.checksum]

def failed (reason : Code) (st : Slot → Code) : Selection :=
  ⟨.fail, reason, .b, 0, [], st⟩

/-- The generation and the records of a slot that decodes. -/
def contents (D : Digest) : SlotRead → UInt16 × List (List UInt8)
  | .file bytes => (decode D bytes).toOption.getD (0, [])
  | _ => (0, [])

def picked (D : Digest) (slots : Slot → SlotRead) (x : Slot) (st : Slot → Code) : Selection :=
  ⟨.valid, .ok, x, (contents D (slots x)).1, (contents D (slots x)).2, st⟩

def select (D : Digest) (slots : Slot → SlotRead) : Selection :=
  let st := fun x => slotResult D (slots x)
  if st .a = .ok ∧ st .b = .ok then
    (serialNewer (contents D (slots .a)).1 (contents D (slots .b)).1).elim (failed .tie st)
      fun newer => picked D slots (if newer then .b else .a) st
  else if st .a = .ok ∨ st .b = .ok then
    let pick := if st .a = .ok then Slot.a else .b
    if tolerable (st pick.other) then picked D slots pick st else failed (st pick.other) st
  else if st .a = .absent ∧ st .b = .absent then ⟨.empty, .ok, .b, 0, [], st⟩
  else failed (if st .a ≠ .absent then st .a else st .b) st

/-- `host_key`. -/
def hostKey (D : Digest) (host : List UInt8) : List UInt8 :=
  (D.sha256 (host.map fun b => if 0x41 ≤ b ∧ b ≤ 0x5a then b ||| 0x20 else b)).take 16

/-- `encode`, of at most 255 records. -/
def encode (D : Digest) (gen : UInt16) (records : List (List UInt8)) : List UInt8 :=
  let body := tsMagic ++ [tsVersion] ++ [lo gen.toNat, hi gen.toNat] ++ [UInt8.ofNat records.length] ++
    records.flatten
  body ++ (D.sha256 body).take 8

/-- The loop of `save`: the record replaces its host's, or is appended. -/
def replace (rec : List UInt8) (recs : List (List UInt8)) : Except Code (List (List UInt8)) :=
  (recs.findIdx? fun r => r.take 16 = rec.take 16).elim
    (if tsMaxRecs ≤ recs.length then .error .full else .ok (recs ++ [rec]))
    fun i => .ok (recs.set i rec)

def save (D : Digest) (slots : Slot → SlotRead) (host record : List UInt8) :
    Except Code (Slot × List UInt8) :=
  let sel := select D slots
  if sel.state ≠ .valid ∧ sel.state ≠ .empty then .error .notready
  else (replace (hostKey D host ++ record.drop 16) sel.records).map fun recs =>
    (sel.slot.other, encode D (sel.gen + 1) recs)

/-! ## What `decode` accepts -/

section Decode

variable {D : Digest}

theorem encode_contents (c : Contents) : encode D c.gen c.recs = c.image D := by
  unfold encode Contents.image Contents.body Contents.header
  simp only [List.append_assoc, List.cons_append, List.nil_append]

theorem sliceRecords_eq (data : List UInt8) (rest : Buffer) : ∀ n p, p + 64 * n ≤ data.length →
    (List.range n).map (fun i => (data.drop (p + i * 64)).take 64) =
      recordsFrom (store rest 0 data) n p := by
  intro n
  induction n with
  | zero =>
      intro p _
      rfl
  | succ n ih =>
      intro p hp
      have hfirst : bytesAt (ofList data rest) p 64 = (data.drop p).take 64 :=
        bytesAt_ofList_sub data rest (by omega)
      have hrest := ih (p + 64) (by omega)
      rw [List.range_succ_eq_map, List.map_cons, List.map_map, recordsFrom, ← hrest]
      refine congrArg₂ List.cons ?_ (List.map_congr_left fun i _ => ?_)
      · rw [Nat.zero_mul, Nat.add_zero]
        exact hfirst.symm
      · have hoff : p + (i + 1) * 64 = p + 64 + i * 64 := by omega
        show (data.drop (p + (i + 1) * 64)).take 64 = _
        rw [hoff]

/-- The ring reads the file's bytes where the file has any. -/
theorem store_getD {data : List UInt8} (rest : Buffer) {i : Nat} (hi : i < data.length) :
    store rest 0 data i = data.getD i 0 := by
  unfold store
  rw [if_pos ⟨Nat.zero_le i, by omega⟩, Nat.sub_zero]

theorem bytesAt_store_take {data : List UInt8} (rest : Buffer) {n : Nat} (hn : n ≤ data.length) :
    bytesAt (store rest 0 data) 0 n = data.take n := by
  have h : bytesAt (ofList data rest) 0 n = (data.drop 0).take n :=
    bytesAt_ofList_sub data rest (by omega)
  exact h

theorem bytesAt_store_drop {data : List UInt8} (rest : Buffer) {n : Nat} (hn : 8 ≤ data.length)
    (heq : n = data.length - 8) : bytesAt (store rest 0 data) n 8 = data.drop n := by
  have h : bytesAt (ofList data rest) n 8 = (data.drop n).take 8 :=
    bytesAt_ofList_sub data rest (by omega)
  have hlen : (data.drop n).length = 8 := by
    rw [List.length_drop]
    omega
  rw [List.take_of_length_le (Nat.le_of_eq hlen)] at h
  exact h

/-- With sixteen bytes of the file in the ring the checks are those of the mirror. -/
theorem tsCheck_decodeData {data : List UInt8} (rest : Buffer) (hlen : 16 ≤ data.length) :
    tsCheck D (store rest 0 data) data.length = resultCode (decodeData D data) := by
  have hmagic := bytesAt_store_take rest (n := 4) (show 4 ≤ data.length by omega)
  have hver := store_getD rest (show 4 < data.length by omega)
  have hcount := store_getD rest (show 7 < data.length by omega)
  have hsize : tsSize (store rest 0 data 7) = 8 + (data.getD 7 0).toNat * 64 + 8 := by
    rw [tsSize_eq, hcount]
    omega
  unfold tsCheck decodeData
  rw [if_neg (show ¬ data.length < 8 + 8 by omega), hmagic, hver, hsize]
  by_cases h₁ : data.take 4 ≠ tsMagic
  · rw [if_pos h₁, if_pos h₁]
    rfl
  by_cases h₂ : data.getD 4 0 ≠ tsVersion
  · rw [if_neg h₁, if_neg h₁, if_pos h₂, if_pos h₂]
    rfl
  by_cases h₃ : data.length ≠ 8 + (data.getD 7 0).toNat * 64 + 8
  · rw [if_neg h₁, if_neg h₁, if_neg h₂, if_neg h₂, if_pos h₃, if_pos h₃]
    rfl
  have hbody : tsBodyLen (store rest 0 data 7) = data.length - 8 := by
    rw [tsBodyLen_eq, hcount]
    omega
  have htake := bytesAt_store_take rest (n := data.length - 8) (Nat.sub_le _ _)
  have hdrop := bytesAt_store_drop rest (n := data.length - 8) (by omega) rfl
  unfold tsChecksum
  rw [if_neg h₁, if_neg h₁, if_neg h₂, if_neg h₂, if_neg h₃, if_neg h₃, hbody, htake, hdrop]
  by_cases h₄ : (D.sha256 (data.take (data.length - 8))).take 8 ≠ data.drop (data.length - 8)
  · rw [if_pos h₄, if_pos h₄]
    rfl
  · rw [if_neg h₄, if_neg h₄]
    rfl

theorem decodeData_short {data : List UInt8} (hlen : data.length < 16) :
    decodeData D data = .error .format := by
  unfold decodeData
  rw [if_pos hlen]

theorem decodeData_image (c : Contents) : decodeData D (c.image D) = .ok (c.gen, c.recs) := by
  have hholds := holds_store (D := D) (fun _ => 0) c
  have hlen := c.length_image D
  have h16 : 16 ≤ (c.image D).length := by
    rw [hlen]
    exact Nat.le_add_right _ _
  have hcode := tsCheck_decodeData (D := D) (fun _ => 0) h16
  rw [hlen, hholds.tsCheck] at hcode
  have h₅ := store_getD (fun _ => 0) (show 5 < (c.image D).length by omega)
  have h₆ := store_getD (fun _ => 0) (show 6 < (c.image D).length by omega)
  have h₇ := store_getD (fun _ => 0) (show 7 < (c.image D).length by omega)
  have hcount := hholds.count
  rw [h₇] at hcount
  have hgen := hholds.gen
  unfold genAt at hgen
  rw [h₅, h₆] at hgen
  have hrecs : sliceRecords c.recs.length (c.image D) = c.recs := by
    refine (sliceRecords_eq _ (fun _ => 0) _ 8 ?_).trans hholds.records
    rw [hlen]
    unfold Contents.size
    omega
  unfold decodeData at hcode ⊢
  split at hcode
  case isTrue => cases hcode
  case isFalse h₀ =>
    split at hcode
    case isTrue => cases hcode
    case isFalse h₁ =>
      split at hcode
      case isTrue => cases hcode
      case isFalse h₂ =>
        split at hcode
        case isTrue => cases hcode
        case isFalse h₃ =>
          split at hcode
          case isTrue => cases hcode
          case isFalse h₄ =>
            rw [if_neg h₀, if_neg h₁, if_neg h₂, if_neg h₃, if_neg h₄, hgen, hcount, hrecs]

theorem decodeData_ne_error_ok (data : List UInt8) : decodeData D data ≠ .error .ok := by
  unfold decodeData
  split
  · exact fun h => nomatch h
  split
  · exact fun h => nomatch h
  split
  · exact fun h => nomatch h
  split
  · exact fun h => nomatch h
  split
  · exact fun h => nomatch h
  · exact fun h => nomatch h

/-- What decodes is an image, with its generation and its records. -/
theorem decode_eq_ok_iff {file : List UInt8} {gen : UInt16} {recs : List (List UInt8)} :
    decode D file = .ok (gen, recs) ↔
      ∃ c : Contents, file = c.image D ∧ c.gen = gen ∧ c.recs = recs := by
  constructor
  · intro h
    unfold decode at h
    have hle : (file.take (tsFileMax + 1)).length ≤ tsFileMax + 1 := List.length_take_le _ _
    have h16 : 16 ≤ (file.take (tsFileMax + 1)).length := by
      refine Nat.le_of_not_lt fun hlt => ?_
      rw [decodeData_short hlt] at h
      cases h
    have hcode := tsCheck_decodeData (D := D) (fun _ => 0) h16
    rw [h] at hcode
    obtain ⟨c, hc, hsize⟩ := holds_of_tsCheck hcode hle
    have hdata : file.take (tsFileMax + 1) = c.image D := by
      rw [← hc.bytes, ← hsize, bytesAt_store_self]
    have hfile : file.take (tsFileMax + 1) = file := by
      apply List.take_of_length_le
      have hmax := c.size_le
      rw [List.length_take] at hsize
      omega
    rw [hdata, decodeData_image] at h
    cases h
    exact ⟨c, hfile.symm.trans hdata, rfl, rfl⟩
  · rintro ⟨c, rfl, rfl, rfl⟩
    unfold decode
    have hmax := c.size_le
    rw [List.take_of_length_le (by rw [c.length_image]; omega), decodeData_image]

theorem decode_image (c : Contents) : decode D (c.image D) = .ok (c.gen, c.recs) :=
  decode_eq_ok_iff.2 ⟨c, rfl, rfl, rfl⟩

theorem contents_image (c : Contents) : contents D (.file (c.image D)) = (c.gen, c.recs) := by
  show (decode D (c.image D)).toOption.getD (0, []) = _
  rw [decode_image]
  rfl

theorem slotResult_image (c : Contents) : slotResult D (.file (c.image D)) = .ok := by
  show resultCode (decode D (c.image D)) = .ok
  rw [decode_image]
  rfl

/-- A slot is good when it holds an image. -/
theorem slotResult_ok_iff {r : SlotRead} :
    slotResult D r = .ok ↔ ∃ c : Contents, r = .file (c.image D) := by
  constructor
  · intro h
    cases r with
    | absent => cases h
    | nopath => cases h
    | dos => cases h
    | io part => cases h
    | file bytes =>
        cases hdec : decode D bytes with
        | ok v =>
            obtain ⟨c, hc, -⟩ := decode_eq_ok_iff.1 (show decode D bytes = .ok (v.1, v.2) from hdec)
            exact ⟨c, congrArg SlotRead.file hc⟩
        | error e =>
            have he : resultCode (decode D bytes) = .ok := h
            rw [hdec] at he
            have hok : e = .ok := he
            rw [hok] at hdec
            exact absurd hdec (decodeData_ne_error_ok _)
  · rintro ⟨c, rfl⟩
    exact slotResult_image c

end Decode

/-! ## Reading a slot -/

section Read

variable {D : Digest} {x : Slot} {r : SlotRead} {t : TrustStore} {c : Contents}

/-- Fewer than sixteen bytes that show the magic and a version other than 1, with what stands in the ring
behind them; from five bytes on the version is the file's own. -/
def Stale (buf : Buffer) (data : List UInt8) : Prop :=
  data.length < 16 ∧ bytesAt (store buf 0 data) 0 4 = tsMagic ∧ store buf 0 data 4 ≠ tsVersion

instance (buf : Buffer) (data : List UInt8) : Decidable (Stale buf data) :=
  inferInstanceAs (Decidable (_ ∧ _ ∧ _))

def StaleRead (buf : Buffer) : SlotRead → Prop
  | .file bytes => Stale buf (bytes.take (tsFileMax + 1))
  | _ => False

/-- The ring after a slot was read. -/
def readInto (buf : Buffer) : SlotRead → Buffer
  | .file bytes => store buf 0 (bytes.take (tsFileMax + 1))
  | .io part => store buf 0 (part.take (tsFileMax + 1))
  | _ => buf

/-- Neither slot is read stale. -/
def Clear (buf : Buffer) (slots : Slot → SlotRead) : Prop :=
  ¬ StaleRead buf (slots .a) ∧ ¬ StaleRead (readInto buf (slots .a)) (slots .b)

/-- A short file that is stale is an unknown version, and else it is `FORMAT`. -/
theorem tsCheck_short (rest : Buffer) {data : List UInt8} (hlen : data.length < 16) :
    tsCheck D (store rest 0 data) data.length = if Stale rest data then .version else .format := by
  have hsize : data.length ≠ tsSize (store rest 0 data 7) := by
    rw [tsSize_eq]
    omega
  unfold tsCheck
  by_cases hmagic : bytesAt (store rest 0 data) 0 4 = tsMagic
  · rw [if_neg (not_not_intro hmagic)]
    by_cases hver : store rest 0 data 4 = tsVersion
    · rw [if_neg (not_not_intro hver), if_pos hsize, if_neg fun h => h.2.2 hver]
    · rw [if_pos hver, if_pos ⟨hlen, hmagic, hver⟩]
  · rw [if_pos hmagic, if_neg fun h => hmagic h.2.1]

theorem tsReadSlot_file (bytes : List UInt8) : tsReadSlot D x (.file bytes) t =
    tsChecked D x (loadBuf (bytes.take (tsFileMax + 1)) t) :=
  rfl

theorem tsReadSlot_file_result (bytes : List UInt8) : (tsReadSlot D x (.file bytes) t).2 =
    tsCheck D (store t.buf 0 (bytes.take (tsFileMax + 1))) (bytes.take (tsFileMax + 1)).length :=
  rfl

theorem tsReadSlot_image : tsReadSlot D x (.file (c.image D)) t =
    ({ loadBuf (c.image D) t with sgen := Function.update t.sgen x c.gen }, .ok) := by
  have hmax := c.size_le
  have hholds := holds_store (D := D) t.buf c
  have hcheck : tsCheck D (store t.buf 0 (c.image D)) (c.image D).length = .ok := by
    rw [c.length_image]
    exact hholds.tsCheck
  rw [tsReadSlot_file, List.take_of_length_le (by rw [c.length_image]; omega)]
  unfold tsChecked loadBuf
  dsimp only
  rw [hcheck, if_pos rfl, hholds.gen]

/-- The result of a slot is the mirror's, except for a stale one. -/
theorem tsReadSlot_result_iff :
    (tsReadSlot D x r t).2 = slotResult D r ↔ ¬ StaleRead t.buf r := by
  cases r with
  | absent => exact ⟨fun _ => not_false, fun _ => rfl⟩
  | nopath => exact ⟨fun _ => not_false, fun _ => rfl⟩
  | dos => exact ⟨fun _ => not_false, fun _ => rfl⟩
  | io part => exact ⟨fun _ => not_false, fun _ => rfl⟩
  | file bytes =>
      rw [tsReadSlot_file_result]
      show _ = resultCode (decodeData D (bytes.take (tsFileMax + 1))) ↔
        ¬ Stale t.buf (bytes.take (tsFileMax + 1))
      generalize bytes.take (tsFileMax + 1) = data
      rcases Nat.lt_or_ge data.length 16 with hlen | hlen
      · rw [tsCheck_short t.buf hlen, decodeData_short hlen]
        by_cases hstale : Stale t.buf data
        · rw [if_pos hstale]
          exact ⟨fun h => (nomatch h), fun h => absurd hstale h⟩
        · rw [if_neg hstale]
          exact ⟨fun _ => hstale, fun _ => rfl⟩
      · refine ⟨fun _ (h : Stale t.buf data) => absurd h.1 (Nat.not_lt.2 hlen), fun _ => ?_⟩
        exact tsCheck_decodeData t.buf hlen

/-- A slot is good for the program when it is good for the mirror, whatever the ring holds. -/
theorem tsReadSlot_ok_iff : (tsReadSlot D x r t).2 = .ok ↔ ∃ c : Contents, r = .file (c.image D) := by
  constructor
  · intro h
    have hstale : ¬ StaleRead t.buf r := by
      intro hstale
      cases r with
      | absent => exact hstale
      | nopath => exact hstale
      | dos => exact hstale
      | io part => exact hstale
      | file bytes =>
          have hs : Stale t.buf (bytes.take (tsFileMax + 1)) := hstale
          rw [tsReadSlot_file_result, tsCheck_short t.buf hs.1, if_pos hs] at h
          cases h
    rw [tsReadSlot_result_iff.2 hstale] at h
    exact slotResult_ok_iff.1 h
  · rintro ⟨c, rfl⟩
    rw [tsReadSlot_image]

/-- An image is never read stale. -/
theorem not_stale_image (ring : Buffer) (c : Contents) : ¬ StaleRead ring (.file (c.image D)) := by
  intro hstale
  have hmax := c.size_le
  have hshort : ((c.image D).take (tsFileMax + 1)).length < 16 := hstale.1
  rw [List.length_take, c.length_image] at hshort
  unfold Contents.size at hshort hmax
  omega

/-- What is no image leaves the generations. -/
theorem sgen_tsReadSlot (h : (tsReadSlot D x r t).2 ≠ .ok) : (tsReadSlot D x r t).1.sgen = t.sgen := by
  cases r with
  | absent => rfl
  | nopath => rfl
  | dos => rfl
  | io part => rfl
  | file bytes =>
      rw [tsReadSlot_file] at h ⊢
      unfold tsChecked at h ⊢
      dsimp only at h ⊢
      rw [if_neg h]
      rfl

theorem buf_tsReadSlot : (tsReadSlot D x r t).1.buf = readInto t.buf r := by
  cases r with
  | absent => rfl
  | nopath => rfl
  | dos => rfl
  | io part => rfl
  | file bytes =>
      rw [tsReadSlot_file]
      unfold tsChecked
      dsimp only
      split
      · rfl
      · rfl

theorem slotSt_tsReadSlot : (tsReadSlot D x r t).1.slotSt = t.slotSt := by
  cases r with
  | absent => rfl
  | nopath => rfl
  | dos => rfl
  | io part => rfl
  | file bytes =>
      rw [tsReadSlot_file]
      unfold tsChecked
      dsimp only
      split
      · rfl
      · rfl

end Read

end Mirror
end Store
end C64Https
