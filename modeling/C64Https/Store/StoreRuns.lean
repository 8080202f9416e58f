import C64Https.Store.Agreement

/-!
# StoreRuns — the store as a finite map, over whole runs

A run loads, stages, looks up and saves in any order, for any hosts, while the ring is used for something
else in between; the disk does what it is told.  Beside it runs a finite map from host keys to records, with
what the session has come to and the slot that was saved last (`Spec`).  The two answer alike for ever
(`storeRun_refines`): the slots alternate, and the newer one is known by its generation, which may wrap.
-/

namespace C64Https
namespace Store

open Bytes Word Mirror

/-! ## The world and its steps -/

abbrev Record : Type :=
  { r : List UInt8 // r.length = 64 }

structure World where
  mem : TrustStore
  disk : Slot → Option (List UInt8)

/-- A disk without failures, as it answers an open and a read. -/
def slotsOf (disk : Slot → Option (List UInt8)) : Slot → SlotRead :=
  fun x => (disk x).elim .absent .file

/-- And a write. -/
def written : Write :=
  fun _ bytes => (true, .file bytes)

inductive Op where
  | load (busy : Bool) (host : List UInt8)
  | lookup
  | stage (record : Record)
  | save (busy : Bool)
  /-- the ring is used for something else -/
  | ring (buf : Buffer)

inductive Out where
  | loaded (state : TsState) (slot : Option Slot)
  | record (r : Option (List UInt8))
  | saved (ok : Bool)
  | silent
  deriving DecidableEq

namespace World

variable (D : Digest)

def load (w : World) (busy : Bool) (host : List UInt8) : TrustStore :=
  trustStoreLoad D busy host (readsOf (slotsOf w.disk)) w.mem

def save (w : World) (busy : Bool) : Saved :=
  trustStoreSave D busy (readsOf (slotsOf w.disk)) written w.mem

/-- The disk with the file that a save wrote, if it wrote one. -/
def put (disk : Slot → Option (List UInt8)) (file : Option (Slot × List UInt8)) :
    Slot → Option (List UInt8) :=
  file.elim disk fun f => Function.update disk f.1 (some f.2)

def next (w : World) : Op → World
  | .load busy host => { w with mem := w.load D busy host }
  | .lookup => w
  | .stage record => { w with mem := trustStoreStage record.1 w.mem }
  | .save busy => ⟨(w.save D busy).store, put w.disk (w.save D busy).file⟩
  | .ring buf => { w with mem := { w.mem with buf := buf } }

def out (w : World) : Op → Out
  | .load busy host =>
      .loaded (w.load D busy host).state
        (if (w.load D busy host).state = .valid then some (w.load D busy host).slot else none)
  | .lookup => .record (trustStoreLookup w.mem)
  | .save busy => .saved (w.save D busy).ok
  | _ => .silent

def run (w : World) (ops : List Op) : World :=
  ops.foldl (next D) w

/-- What a run answers, step by step. -/
def outs (w : World) : List Op → List Out
  | [] => []
  | op :: ops => w.out D op :: (w.next D op).outs ops

end World

/-! ## The finite map -/

inductive Phase where
  | idle
  | loaded (key : List UInt8)
  | staged (record : List UInt8)
  deriving DecidableEq

/-- The records by host key, the slot saved last, and the session. -/
structure Spec where
  map : Finmap fun _ : List UInt8 => List UInt8
  last : Option Slot
  phase : Phase

/-- The slot that the next save writes. -/
def target (last : Option Slot) : Slot :=
  last.elim .a Slot.other

namespace Spec

variable (D : Digest)

def start : Spec :=
  ⟨∅, none, .idle⟩

/-- The host has a record, or there is room for one more. -/
def Fits (s : Spec) (record : List UInt8) : Prop :=
  recordKey record ∈ s.map ∨ s.map.keys.card < tsMaxRecs

instance (s : Spec) (record : List UInt8) : Decidable (s.Fits record) :=
  inferInstanceAs (Decidable (_ ∨ _))

def insert (s : Spec) (record : List UInt8) : Spec :=
  ⟨s.map.insert (recordKey record) record, some (target s.last), .idle⟩

def save (s : Spec) : Phase → Spec × Bool
  | .staged record => if s.Fits record then (s.insert record, true) else ({ s with phase := .idle }, false)
  | _ => ({ s with phase := .idle }, false)

def stage (record : List UInt8) : Phase → Phase
  | .loaded key => .staged (key ++ record.drop 16)
  | _ => .idle

def lookup (s : Spec) : Phase → Option (List UInt8)
  | .loaded key => s.map.lookup key
  | _ => none

def next (s : Spec) : Op → Spec
  | .load busy host => { s with phase := if busy then .idle else .loaded (Store.hostKey D host) }
  | .stage record => { s with phase := stage record.1 s.phase }
  | .save busy => (s.save (if busy then .idle else s.phase)).1
  | _ => s

def out (s : Spec) : Op → Out
  | .load busy _ =>
      if busy then .loaded .fail none
      else .loaded (if s.last = none then .empty else .valid) s.last
  | .lookup => .record (s.lookup s.phase)
  | .save busy => .saved (s.save (if busy then .idle else s.phase)).2
  | _ => .silent

def run (s : Spec) (ops : List Op) : Spec :=
  ops.foldl (next D) s

def outs (s : Spec) : List Op → List Out
  | [] => []
  | op :: ops => s.out op :: (s.next D op).outs ops

end Spec

/-! ## Disks that the operations build -/

section Disk

variable {D : Digest} {slots : Slot → SlotRead} {x : Slot} {c c' : Contents}

/-- A slot that is absent or an image is never read stale. -/
theorem clear_of_whole (buf : Buffer)
    (h : ∀ x, slots x = .absent ∨ ∃ c : Contents, slots x = .file (c.image D)) : Clear buf slots := by
  have hread : ∀ (buf : Buffer) (x : Slot), ¬ StaleRead buf (slots x) := by
    intro buf x
    rcases h x with habs | ⟨c, hc⟩
    · rw [habs]
      exact not_false
    · rw [hc]
      exact not_stale_image buf c
  exact ⟨hread _ _, hread _ _⟩

theorem other_other (x : Slot) : x.other.other = x := by
  cases x <;> rfl

theorem other_ne (x : Slot) : x.other ≠ x := by
  cases x <;> decide

theorem picked_image (st : Slot → Code) (h : slots x = .file (c.image D)) :
    picked D slots x st = ⟨.valid, .ok, x, c.gen, c.recs, st⟩ := by
  unfold picked
  rw [h, contents_image]

/-- A good slot beside one that a torn or a first save explains. -/
theorem select_beside (h : slots x = .file (c.image D)) (hbad : slotResult D (slots x.other) ≠ .ok)
    (htol : tolerable (slotResult D (slots x.other)) = true) :
    select D slots = ⟨.valid, .ok, x, c.gen, c.recs, fun x => slotResult D (slots x)⟩ := by
  have hok : slotResult D (slots x) = .ok := slotResult_ok_iff.2 ⟨c, h⟩
  cases x with
  | a =>
      have hnot : ¬ (slotResult D (slots .a) = .ok ∧ slotResult D (slots .b) = .ok) :=
        fun hab => hbad hab.2
      unfold select
      dsimp only
      rw [if_neg hnot, if_pos (Or.inl hok), if_pos hok, if_pos htol, picked_image _ h]
  | b =>
      have hnot : ¬ (slotResult D (slots .a) = .ok ∧ slotResult D (slots .b) = .ok) :=
        fun hab => hbad hab.1
      have hna : ¬ slotResult D (slots .a) = .ok := hbad
      unfold select
      dsimp only
      rw [if_neg hnot, if_pos (Or.inr hok), if_neg hna, if_pos htol, picked_image _ h]

/-- Of two good slots the next generation is taken, also across the wrap. -/
theorem select_newer (h : slots x = .file (c.image D)) (h' : slots x.other = .file (c'.image D))
    (hgen : c.gen = c'.gen + 1) :
    select D slots = ⟨.valid, .ok, x, c.gen, c.recs, fun x => slotResult D (slots x)⟩ := by
  have hok : slotResult D (slots x) = .ok := slotResult_ok_iff.2 ⟨c, h⟩
  have hok' : slotResult D (slots x.other) = .ok := slotResult_ok_iff.2 ⟨c', h'⟩
  have hcontents := contents_image (D := D) c
  have hcontents' := contents_image (D := D) c'
  rw [← h] at hcontents
  rw [← h'] at hcontents'
  cases x with
  | a =>
      have hserial : serialNewer c.gen c'.gen = some false := by
        have hback : c'.gen - c.gen = 0xffff := by
          rw [hgen]
          grind
        unfold serialNewer
        rw [hback]
        rfl
      have hcb : contents D (slots .b) = (c'.gen, c'.recs) := hcontents'
      unfold select
      dsimp only
      rw [if_pos ⟨hok, hok'⟩, hcontents, hcb, hserial]
      exact picked_image _ h
  | b =>
      have hserial : serialNewer c'.gen c.gen = some true := by
        have hstep : c.gen - c'.gen = 1 := by
          rw [hgen]
          grind
        unfold serialNewer
        rw [hstep]
        rfl
      have hca : contents D (slots .a) = (c'.gen, c'.recs) := hcontents'
      unfold select
      dsimp only
      rw [if_pos ⟨hok', hok⟩, hcontents, hca, hserial]
      exact picked_image _ h

theorem select_absent (h : ∀ x, slots x = .absent) :
    select D slots = ⟨.empty, .ok, .b, 0, [], fun x => slotResult D (slots x)⟩ := by
  have hslots : slots = fun _ => .absent := funext h
  subst hslots
  rfl

/-- The disk holds the map, and `last` is the slot that was saved last. -/
inductive Stored (D : Digest) : (Slot → Option (List UInt8)) →
    (Finmap fun _ : List UInt8 => List UInt8) → Option Slot → Prop where
  | fresh : Stored D (fun _ => none) ∅ none
  | saved {disk : Slot → Option (List UInt8)} (x : Slot) (c : Contents)
      (hx : disk x = some (c.image D)) (hkeys : (c.recs.map recordKey).Nodup)
      (hother : disk x.other = none ∨
        ∃ c' : Contents, disk x.other = some (c'.image D) ∧ c.gen = c'.gen + 1) :
      Stored D disk (Keyed.toFinmap recordKey c.recs) (some x)

/-- What the mirror selects from such a disk. -/
structure Selects (D : Digest) (disk : Slot → Option (List UInt8))
    (map : Finmap fun _ : List UInt8 => List UInt8) (last : Option Slot) : Prop where
  state : (select D (slotsOf disk)).state = if last = none then .empty else .valid
  slot : (select D (slotsOf disk)).slot = last.getD .b
  map : Keyed.toFinmap recordKey (select D (slotsOf disk)).records = map
  keys : ((select D (slotsOf disk)).records.map recordKey).Nodup
  clear : ∀ buf, Clear buf (slotsOf disk)

section Stored

variable {disk : Slot → Option (List UInt8)} {map : Finmap fun _ : List UInt8 => List UInt8}
  {last : Option Slot}

theorem slotsOf_some {file : List UInt8} (h : disk x = some file) : slotsOf disk x = .file file := by
  unfold slotsOf
  rw [h]
  rfl

theorem slotsOf_none (h : disk x = none) : slotsOf disk x = .absent := by
  unfold slotsOf
  rw [h]
  rfl

theorem select_saved (hx : disk x = some (c.image D)) (hother : disk x.other = none ∨
      ∃ c' : Contents, disk x.other = some (c'.image D) ∧ c.gen = c'.gen + 1) :
    select D (slotsOf disk) =
      ⟨.valid, .ok, x, c.gen, c.recs, fun x => slotResult D (slotsOf disk x)⟩ := by
  rcases hother with hnone | ⟨c', hc', hgen⟩
  · have habs : slotResult D (slotsOf disk x.other) = .absent := by
      rw [slotsOf_none hnone]
      rfl
    apply select_beside (slotsOf_some hx)
    · rw [habs]
      decide
    · rw [habs]
      decide
  · exact select_newer (slotsOf_some hx) (slotsOf_some hc') hgen

theorem Stored.selects (h : Stored D disk map last) : Selects D disk map last := by
  cases h with
  | fresh =>
      have hsel : select D (slotsOf fun _ => none) = _ := select_absent fun _ => rfl
      refine ⟨?_, ?_, ?_, ?_, fun buf => clear_of_whole (D := D) buf fun _ => Or.inl rfl⟩
      · rw [hsel]
        rfl
      · rw [hsel]
        rfl
      · rw [hsel]
        exact Keyed.toFinmap_nil
      · rw [hsel]
        exact List.nodup_nil
  | saved x c hx hkeys hother =>
      have hsel := select_saved hx hother
      refine ⟨?_, ?_, ?_, ?_, fun buf => clear_of_whole (D := D) buf fun y => ?_⟩
      · rw [hsel]
        rfl
      · rw [hsel]
        rfl
      · rw [hsel]
      · rw [hsel]
        exact hkeys
      · by_cases hy : y = x
        · rw [hy]
          exact Or.inr ⟨c, slotsOf_some hx⟩
        · have hy' : y = x.other := by
            cases x <;> cases y <;> first | rfl | exact absurd rfl hy
          rw [hy']
          rcases hother with hnone | ⟨c', hc', -⟩
          · exact Or.inl (slotsOf_none hnone)
          · exact Or.inr ⟨c', slotsOf_some hc'⟩

theorem Stored.target_eq (h : Stored D disk map last) :
    (select D (slotsOf disk)).slot.other = target last := by
  rw [h.selects.slot]
  cases last <;> rfl

/-- A save of the next contents to that slot. -/
theorem Stored.put (h : Stored D disk map last) {record : List UInt8} (hlen : record.length = 64)
    (hroom : c.Room record) (hgen : c.gen = (select D (slotsOf disk)).gen)
    (hrecs : c.recs = (select D (slotsOf disk)).records) :
    Stored D (World.put disk (some (target last, (c.next record hlen hroom).image D)))
      (map.insert (recordKey record) record) (some (target last)) := by
  have hsel := h.selects
  have hmap : Keyed.toFinmap recordKey (c.next record hlen hroom).recs =
      map.insert (recordKey record) record := by
    rw [← hsel.map, ← hrecs]
    exact Keyed.toFinmap_put rfl c.recs
  have hkeys : ((c.next record hlen hroom).recs.map recordKey).Nodup := by
    refine Keyed.nodup_put rfl ?_
    rw [hrecs]
    exact hsel.keys
  rw [← hmap]
  refine Stored.saved _ _ (Function.update_self _ _ _) hkeys ?_
  -- the slot that was loaded stays as it is, a generation behind
  cases h with
  | fresh =>
      left
      rfl
  | saved x c₀ hx hkeys₀ hother =>
      have hstays : World.put disk (some (x.other, (c.next record hlen hroom).image D)) x.other.other =
          some (c₀.image D) := by
        rw [other_other]
        exact (Function.update_of_ne (Ne.symm (other_ne x)) _ _).trans hx
      refine Or.inr ⟨c₀, hstays, ?_⟩
      show c.gen + 1 = c₀.gen + 1
      rw [hgen, select_saved hx hother]

/-- Room in the contents is room in the map. -/
theorem room_iff_fits {s : Spec} (h : Stored D disk s.map s.last) {record : List UInt8}
    (hrecs : c.recs = (select D (slotsOf disk)).records) : c.Room record ↔ s.Fits record := by
  have hsel := h.selects
  unfold Contents.Room Spec.Fits
  rw [← hsel.map, Keyed.mem_toFinmap, Keyed.card_keys_toFinmap hsel.keys, hrecs]

end Stored

end Disk

/-! ## The session -/

def Usable (s : TsState) : Prop :=
  s = .valid ∨ s = .empty

/-- Neither loaded nor staged. -/
structure Idle (t : TrustStore) : Prop where
  found : t.found = false
  state : ¬ Usable t.state
  staged : ¬ Usable t.staged

/-- The slot and the generation of the store on the disk. -/
structure Knows (D : Digest) (disk : Slot → Option (List UInt8)) (t : TrustStore) : Prop where
  slot : t.slot = (select D (slotsOf disk)).slot
  gen : t.gen = (select D (slotsOf disk)).gen

structure IsLoaded (D : Digest) (disk : Slot → Option (List UInt8))
    (map : Finmap fun _ : List UInt8 => List UInt8) (k : List UInt8) (t : TrustStore) : Prop
    extends Knows D disk t where
  key : t.key = k
  length_key : k.length = 16
  state : t.state = (select D (slotsOf disk)).state
  staged : ¬ Usable t.staged
  lookup : trustStoreLookup t = map.lookup k

structure IsStaged (D : Digest) (disk : Slot → Option (List UInt8)) (r : List UInt8)
    (t : TrustStore) : Prop extends Knows D disk t where
  key : recordKey t.record = t.key
  record : t.record = r
  length_record : t.record.length = 64
  staged : t.staged = (select D (slotsOf disk)).state
  state : ¬ Usable t.state
  found : t.found = false

/-- What the memory of the session stands for. -/
def InPhase (D : Digest) (disk : Slot → Option (List UInt8))
    (map : Finmap fun _ : List UInt8 => List UInt8) (t : TrustStore) : Phase → Prop
  | .idle => Idle t
  | .loaded key => IsLoaded D disk map key t
  | .staged record => IsStaged D disk record t

structure Sim (D : Digest) (w : World) (s : Spec) : Prop where
  stored : Stored D w.disk s.map s.last
  phase : InPhase D w.disk s.map w.mem s.phase

section Steps

variable {D : Digest} {w : World} {s : Spec} {t : TrustStore} {c : Contents}

theorem not_usable_none : ¬ Usable .none := by
  rintro (h | h) <;> cases h

theorem not_usable_fail : ¬ Usable .fail := by
  rintro (h | h) <;> cases h

theorem idle_tsConsume (t : TrustStore) : Idle (tsConsume t) :=
  ⟨rfl, not_usable_none, not_usable_none⟩

theorem lookup_of_not_found (h : t.found = false) : trustStoreLookup t = none := by
  unfold trustStoreLookup
  rw [h]
  rfl

/-- Nothing is saved that was not staged after a load. -/
theorem save_unstaged (h : ¬ Usable t.staged) (r : Reads) (f : Write) :
    trustStoreSave D false r f t = ⟨tsRefuse .notready t, none, false⟩ := by
  have hprep : tsPrepare D false r t = .refused .notready t := by
    unfold tsPrepare
    rw [if_neg Bool.false_ne_true, if_pos]
    exact not_or.1 h
  exact congrArg (tsPut D f) hprep

theorem save_busy (r : Reads) (f : Write) :
    trustStoreSave D true r f t = ⟨tsRefuse .busy t, none, false⟩ :=
  rfl

/-- An image that is written reads back as it is. -/
theorem tsWrite_written (h : Holds D t.buf c) :
    ∃ u, tsWrite D written t = ⟨tsConsume u, some (t.slot.other, c.image D), true⟩ := by
  have hfile : bytesAt t.buf 0 (tsSize (t.buf 7)) = c.image D := by
    rw [h.size, h.bytes]
  have hback := tsReadSlot_image (D := D) (x := t.slot.other) (t := t) (c := c)
  refine ⟨(tsReadSlot D t.slot.other (.file (c.image D)) t).1, ?_⟩
  unfold tsWrite
  dsimp only
  rw [hfile, if_neg (show ¬ (written t.slot.other (c.image D)).1 = false from Bool.noConfusion)]
  show tsVerify _ _ (tsReadSlot D t.slot.other (.file (c.image D)) t) = _
  unfold tsVerify
  rw [if_neg]
  rw [hback]
  have hgen : genAt (store t.buf 0 (c.image D)) = genAt t.buf := by
    rw [(holds_store (D := D) t.buf c).gen, h.gen]
  rintro (hne | hne)
  · exact hne rfl
  · exact hne hgen

/-! ### One step -/

theorem sim_load_busy (h : Sim D w s) (host : List UInt8) :
    w.out D (.load true host) = s.out (.load true host) ∧
      Sim D (w.next D (.load true host)) (s.next D (.load true host)) :=
  ⟨rfl, h.stored, rfl, not_usable_fail, not_usable_none⟩

/-- A load for a host finds what the map has for its key. -/
theorem load_of_stored {disk : Slot → Option (List UInt8)}
    {map : Finmap fun _ : List UInt8 => List UInt8} {last : Option Slot} (h : Stored D disk map last)
    (host : List UInt8) (t : TrustStore) : IsLoaded D disk map (Store.hostKey D host)
      (trustStoreLoad D false host (readsOf (slotsOf disk)) t) := by
  have hsel := h.selects
  have hl : LoadedFor D host (select D (slotsOf disk))
      (trustStoreLoad D false host (readsOf (slotsOf disk)) t) :=
    loadedFor_of_agrees (tsScan_agrees (hsel.clear _))
  have hok : (select D (slotsOf disk)).state ≠ .fail := by
    rw [hsel.state]
    split
    · decide
    · decide
  obtain ⟨hslot, hgen⟩ := hl.chosen hok
  refine ⟨⟨hslot, hgen⟩, hl.key, length_hostKey D host, hl.state, ?_, ?_⟩
  · rw [hl.staged]
    exact not_usable_none
  · rw [hl.lookup, ← Keyed.lookup_toFinmap, hsel.map]
    split
    case isTrue => rfl
    case isFalse hvalid =>
      have hempty : (select D (slotsOf disk)).state = .empty := by
        rw [hsel.state] at hvalid ⊢
        split
        case isTrue => rfl
        case isFalse hlast => exact absurd (if_neg hlast) hvalid
      rw [← hsel.map, (select_empty hempty).2.2, Keyed.toFinmap_nil, Finmap.lookup_empty]

theorem sim_load (h : Sim D w s) (host : List UInt8) :
    w.out D (.load false host) = s.out (.load false host) ∧
      Sim D (w.next D (.load false host)) (s.next D (.load false host)) := by
  have hsel := h.stored.selects
  have hl : IsLoaded D w.disk s.map (Store.hostKey D host) (w.load D false host) :=
    load_of_stored h.stored host w.mem
  refine ⟨?_, h.stored, hl⟩
  unfold World.out Spec.out
  dsimp only
  rw [hl.state, hl.slot, hsel.state, hsel.slot, if_neg Bool.false_ne_true]
  cases s.last with
  | none => rfl
  | some x => rfl

theorem sim_lookup (h : Sim D w s) : w.out D .lookup = s.out .lookup := by
  have hphase := h.phase
  unfold World.out Spec.out
  dsimp only
  congr 1
  cases hp : s.phase with
  | idle =>
      rw [hp] at hphase
      exact lookup_of_not_found hphase.found
  | loaded key =>
      rw [hp] at hphase
      exact hphase.lookup
  | staged record =>
      rw [hp] at hphase
      exact lookup_of_not_found hphase.found

theorem sim_stage (h : Sim D w s) (record : Record) :
    Sim D (w.next D (.stage record)) (s.next D (.stage record)) := by
  have hphase := h.phase
  refine ⟨h.stored, ?_⟩
  show InPhase D w.disk s.map (trustStoreStage record.1 w.mem) (Spec.stage record.1 s.phase)
  cases hp : s.phase with
  | idle =>
      rw [hp] at hphase
      exact ⟨rfl, not_usable_none, hphase.state⟩
  | loaded key =>
      rw [hp] at hphase
      have hkey := hphase.key
      have hlen : (w.mem.key ++ record.1.drop 16).length = 64 := by
        rw [List.length_append, hkey, hphase.length_key, List.length_drop, record.2]
      have hrec : recordKey (w.mem.key ++ record.1.drop 16) = w.mem.key :=
        List.take_left' (hkey ▸ hphase.length_key)
      refine ⟨⟨hphase.slot, hphase.gen⟩, hrec, ?_, hlen, hphase.state, not_usable_none, rfl⟩
      show w.mem.key ++ record.1.drop 16 = _
      rw [hkey]
  | staged record' =>
      rw [hp] at hphase
      exact ⟨rfl, not_usable_none, hphase.state⟩

theorem sim_ring (h : Sim D w s) (buf : Buffer) :
    Sim D (w.next D (.ring buf)) (s.next D (.ring buf)) := by
  have hphase := h.phase
  refine ⟨h.stored, ?_⟩
  show InPhase D w.disk s.map { w.mem with buf := buf } s.phase
  cases hp : s.phase with
  | idle =>
      rw [hp] at hphase
      exact ⟨hphase.found, hphase.state, hphase.staged⟩
  | loaded key =>
      rw [hp] at hphase
      exact ⟨⟨hphase.slot, hphase.gen⟩, hphase.key, hphase.length_key, hphase.state, hphase.staged,
        hphase.lookup⟩
  | staged record =>
      rw [hp] at hphase
      exact ⟨⟨hphase.slot, hphase.gen⟩, hphase.key, hphase.record, hphase.length_record, hphase.staged,
        hphase.state, hphase.found⟩

/-- A save that is refused, on both sides. -/
structure Refused (D : Digest) (w : World) (s : Spec) (busy : Bool) : Prop where
  save : ∃ c t, w.save D busy = ⟨tsRefuse c t, none, false⟩
  spec : s.save (if busy then .idle else s.phase) = ({ s with phase := .idle }, false)

/-- A record that is saved, on both sides. -/
structure Saves (D : Digest) (w : World) (s : Spec) (busy : Bool) (record : List UInt8) : Prop where
  save : ∃ (t : TrustStore) (c : Contents),
    w.save D busy = ⟨tsConsume t, some (target s.last, c.image D), true⟩ ∧
      Stored D (World.put w.disk (some (target s.last, c.image D)))
        (s.map.insert (recordKey record) record) (some (target s.last))
  spec : s.save (if busy then .idle else s.phase) = (s.insert record, true)

theorem save_cases (h : Sim D w s) (busy : Bool) :
    Refused D w s busy ∨ ∃ record, Saves D w s busy record := by
  have hphase := h.phase
  cases busy with
  | true => exact Or.inl ⟨⟨_, _, save_busy _ _⟩, rfl⟩
  | false =>
      have hspec : s.save (if false = true then .idle else s.phase) = s.save s.phase :=
        congrArg s.save (if_neg Bool.false_ne_true)
      cases hp : s.phase with
      | idle =>
          rw [hp] at hphase hspec
          exact Or.inl ⟨⟨_, _, save_unstaged hphase.staged _ _⟩, by rw [hp]; exact hspec⟩
      | loaded key =>
          rw [hp] at hphase hspec
          exact Or.inl ⟨⟨_, _, save_unstaged hphase.staged _ _⟩, by rw [hp]; exact hspec⟩
      | staged record =>
          rw [hp] at hphase hspec
          have hrec := hphase.record
          subst hrec
          have hsel := h.stored.selects
          have hok : (select D (slotsOf w.disk)).state ≠ .fail := by
            rw [hsel.state]
            split
            · decide
            · decide
          have hif : s.save (.staged w.mem.record) = if s.Fits w.mem.record then
              (s.insert w.mem.record, true) else ({ s with phase := .idle }, false) := rfl
          obtain ⟨c, hgen, hrecs, hput, hfull⟩ :=
            tsPrepare_staged (tsScan_agrees (D := D) (hsel.clear w.mem.buf)) hok hphase.staged
              hphase.slot hphase.gen hphase.length_record hphase.key
          -- the map has room for the record exactly where the ring has
          by_cases hfits : s.Fits w.mem.record
          · right
            have hroom : c.Room w.mem.record := (room_iff_fits h.stored hrecs).2 hfits
            obtain ⟨p, u, hprep, hslot, hfill⟩ := hput hroom
            obtain ⟨v, hv⟩ := tsWrite_written (t := { u with buf := tsFill D p u }) hfill
            have hstored := h.stored.put hphase.length_record hroom hgen hrecs
            have hslot' : ({ u with buf := tsFill D p u } : TrustStore).slot.other = target s.last := by
              rw [← h.stored.target_eq, ← hslot]
            rw [hslot'] at hv
            refine ⟨w.mem.record, ⟨v, _, (congrArg (tsPut D written) hprep).trans hv, hstored⟩, ?_⟩
            rw [hp, hspec, hif, if_pos hfits]
          · left
            have hroom : ¬ c.Room w.mem.record := fun hr => hfits ((room_iff_fits h.stored hrecs).1 hr)
            obtain ⟨u, hprep⟩ := hfull hroom
            refine ⟨⟨_, _, congrArg (tsPut D written) hprep⟩, ?_⟩
            rw [hp, hspec, hif, if_neg hfits]

theorem sim_save (h : Sim D w s) (busy : Bool) : w.out D (.save busy) = s.out (.save busy) ∧
    Sim D (w.next D (.save busy)) (s.next D (.save busy)) := by
  unfold World.out Spec.out World.next Spec.next
  dsimp only
  rcases save_cases h busy with ⟨⟨c, t, hsave⟩, hspec⟩ | ⟨record, ⟨t, c, hsave, hstored⟩, hspec⟩
  · rw [hsave, hspec]
    exact ⟨rfl, h.stored, idle_tsConsume _⟩
  · rw [hsave, hspec]
    exact ⟨rfl, hstored, idle_tsConsume _⟩

/-- A save that is refused leaves the disk as it is. -/
theorem disk_of_refused (h : Sim D w s) (busy : Bool) (hno : w.out D (.save busy) = .saved false) :
    (w.next D (.save busy)).disk = w.disk := by
  unfold World.out at hno
  unfold World.next
  dsimp only at hno ⊢
  rcases save_cases h busy with ⟨⟨c, t, hsave⟩, -⟩ | ⟨record, ⟨t, c, hsave, -⟩, -⟩
  · rw [hsave]
    rfl
  · rw [hsave] at hno
    cases hno

/-- One step of the program is one step of the map. -/
theorem sim_step (h : Sim D w s) (op : Op) :
    w.out D op = s.out op ∧ Sim D (w.next D op) (s.next D op) := by
  cases op with
  | load busy host =>
      cases busy with
      | true => exact sim_load_busy h host
      | false => exact sim_load h host
  | lookup => exact ⟨sim_lookup h, h⟩
  | stage record => exact ⟨rfl, sim_stage h record⟩
  | save busy => exact sim_save h busy
  | ring buf => exact ⟨rfl, sim_ring h buf⟩

end Steps

/-! ## Whole runs -/

section Runs

variable {D : Digest} {w : World} {s : Spec}

theorem sim_run (h : Sim D w s) (ops : List Op) :
    w.outs D ops = s.outs D ops ∧ Sim D (w.run D ops) (s.run D ops) := by
  induction ops generalizing w s with
  | nil => exact ⟨rfl, h⟩
  | cons op ops ih =>
      obtain ⟨hout, hsim⟩ := sim_step h op
      obtain ⟨houts, hrun⟩ := ih hsim
      refine ⟨?_, hrun⟩
      show w.out D op :: _ = s.out op :: _
      rw [hout, houts]

/-- The map never has more records than the file has places. -/
theorem card_le_of_stored {disk : Slot → Option (List UInt8)}
    {map : Finmap fun _ : List UInt8 => List UInt8} {last : Option Slot} (h : Stored D disk map last) :
    map.keys.card ≤ tsMaxRecs := by
  cases h with
  | fresh => exact Nat.zero_le _
  | saved x c hx hkeys hother =>
      rw [Keyed.card_keys_toFinmap hkeys]
      exact c.length_recs

theorem sim_start {t : TrustStore} (h : Idle t) : Sim D ⟨t, fun _ => none⟩ Spec.start :=
  ⟨Stored.fresh, h⟩

/-- From an empty disk on, in every run of loads, lookups, stages and saves for any hosts, the store answers
as a finite map does, with the slot that was saved last; it never has more than 32 records, and a save that is
refused leaves both slots as they are. -/
theorem storeRun_refines (D : Digest) (t : TrustStore) (h : Idle t) (ops : List Op) :
    World.outs D ⟨t, fun _ => none⟩ ops = Spec.start.outs D ops ∧
      (Spec.start.run D ops).map.keys.card ≤ tsMaxRecs ∧
      ∀ busy, (World.run D ⟨t, fun _ => none⟩ ops).out D (.save busy) = .saved false →
        ((World.run D ⟨t, fun _ => none⟩ ops).next D (.save busy)).disk =
          (World.run D ⟨t, fun _ => none⟩ ops).disk := by
  obtain ⟨houts, hsim⟩ := sim_run (sim_start (D := D) h) ops
  exact ⟨houts, card_le_of_stored hsim.stored, disk_of_refused hsim⟩

/-- After a load of a host that has no record yet, a save of one. -/
theorem storeRun_refines_first :
    let ops : List Op := [.load false [0x61], .lookup, .stage ⟨List.replicate 64 7, rfl⟩, .save false,
      .load false [0x41], .lookup]
    World.outs .fips ⟨.cleared fun _ => 0, fun _ => none⟩ ops = Spec.start.outs .fips ops :=
  (storeRun_refines .fips (.cleared fun _ => 0) ⟨rfl, not_usable_none, not_usable_none⟩ _).1

end Runs

end Store
end C64Https
