import C64Https.Tls.Connect
import C64Https.Tls.ServerHelloGrammar

/-!
# ServerHelloFeed — the hybrid reader with its stores, record by record

`shs_byte` stores each byte through an operand that `shs_arm` has patched: the address of the
field's destination.  `ShMachine` is the reader of `ServerHello.lean` with this operand, the four
destinations and the running transcript.  The result is `pqShFeed_exact`: over records of any sizes
the machine accepts the messages of the grammar, stores their three parts and nothing else, and
folds their bytes once.
-/

namespace C64Https
namespace Tls

open Word Loop Bytes ShReader

/-! ## The machine -/

/-- `shs_f`, `tls_server_random`, `cert_buf` and `tls_server_pubkey`. -/
inductive ShDest where
  | scratch
  | serverRandom
  | certBuf
  | serverPubkey
  deriving DecidableEq, Repr

/-- What the reader may fill of a destination. -/
def ShDest.size : ShDest → Nat
  | .scratch => 6
  | .serverRandom => 32
  | .certBuf => 1088
  | .serverPubkey => 32

/-- `tab_dl`, `tab_dh`; a field whose high byte is 0 is not stored. -/
def ShsState.dest : ShsState → Option ShDest
  | .hdr => some .scratch
  | .ver => none
  | .rnd => some .serverRandom
  | .fix => some .scratch
  | .exh => some .scratch
  | .sv => some .scratch
  | .ksh => some .scratch
  | .ct => some .certBuf
  | .pub => some .serverPubkey
  | .done => none

structure ShMachine where
  reader : ShReader
  /-- the operand of `shs_st`, as destination and offset -/
  operand : Option (ShDest × Nat)
  mem : ShDest → Buffer
  transcript : Transcript

namespace ShMachine

/-- The operand that `shs_arm` patches. -/
def patch (m : ShMachine) : ShMachine :=
  { m with operand := m.reader.state.dest.map fun d => (d, 0) }

/-- `shs_st`: the store, and the operand moved on. -/
def put (m : ShMachine) (b : UInt8) : ShMachine :=
  match m.operand with
  | none => m
  | some (d, i) =>
      { m with
        operand := some (d, i + 1)
        mem := Function.update m.mem d (Function.update (m.mem d) i b) }

/-- `pq_sh_init`. -/
def init (m : ShMachine) : ShMachine :=
  { m with reader := m.reader.init }.patch

/-- `shs_byte`: every handler that goes on has armed the next field. -/
def byte (m : ShMachine) (b : UInt8) : Turn ShMachine ShMachine :=
  if m.reader.state = .done then .leave { m with reader := { m.reader with shErr := .trail } }
  else
    match m.reader.byte b with
    | .leave r => .leave { m.put b with reader := r }
    | .again r =>
        if sub16 m.reader.cnt 1 = 0 then .again { m.put b with reader := r }.patch
        else .again { m.put b with reader := r }

/-- `pq_sh_feed`, with the transcript. -/
def feedRecord (sha : Sha256) (m : ShMachine) (recType : UInt8) (bs : List UInt8) :
    Turn (ShMachine × Bool) ShMachine :=
  if recType ≠ ctHandshake ∨ bs = [] then
    .leave { m with reader := { m.reader with shErr := .recType } }
  else
    (feed byte m bs).bind fun m =>
      .again ({ m with transcript := tlsTranscriptUpdate sha m.transcript bs },
        decide (m.reader.state = .done))

/-- Records, one after another; none follows the one that completes the message. -/
def feedRecords (sha : Sha256) (m : ShMachine) (recs : List (UInt8 × List UInt8)) :
    Turn ShMachine ShMachine :=
  feed (fun m rec => (m.feedRecord sha rec.1 rec.2).bind fun x => .again x.1) m recs

end ShMachine

/-! ## The stores -/

namespace ShReader

/-- What stands at a destination, by the phase that the reader is in. -/
def written (r : ShReader) : ShDest → List UInt8
  | .scratch => []
  | .serverRandom =>
      match r.state with
      | .hdr => []
      | .ver => []
      | .rnd => r.field
      | _ => r.serverRandom
  | .certBuf => if r.state = .ct then r.field else if r.kexGroup = 0xec then r.ciphertext else []
  | .serverPubkey => if r.state = .pub then r.field else if r.seenKs then r.serverPubkey else []

/-- Where the share is read, there has been none before. -/
structure Phase (r : ShReader) : Prop where
  fresh : r.state = .ksh ∨ r.state = .ct ∨ r.state = .pub → r.seenKs = false
  hybrid : r.state = .ct → r.kexGroup = 0xec
  none : r.seenKs = false → r.state ≠ .ct → r.state ≠ .pub → r.kexGroup ≠ 0xec

/-- Behind a complete extension. -/
theorem next_written {q r : ShReader} (h : Next q r)
    (hnone : q.seenKs = false → q.kexGroup ≠ 0xec) :
    Phase r ∧ r.written .serverRandom = q.serverRandom ∧
      r.written .certBuf = (if q.kexGroup = 0xec then q.ciphertext else []) ∧
        r.written .serverPubkey = (if q.seenKs then q.serverPubkey else []) := by
  cases h with
  | done _ _ _ => exact ⟨⟨nofun, nofun, fun hks _ _ => hnone hks⟩, rfl, rfl, rfl⟩
  | more _ => exact ⟨⟨nofun, nofun, fun hks _ _ => hnone hks⟩, rfl, rfl, rfl⟩

/-- A move forgets nothing of what has been stored. -/
theorem move_written {r r' : ShReader} (h : Move r r') (hp : Phase r) :
    Phase r' ∧ r'.written .serverRandom = r.written .serverRandom ∧
      r'.written .certBuf = r.written .certBuf ∧
        r'.written .serverPubkey = r.written .serverPubkey := by
  obtain ⟨shErr, st, cnt, rem, d, field, seenVer, seenKs, offered, kexGroup, random, ct, pub⟩ := r
  obtain ⟨hfresh, hhybrid, hnone⟩ := hp
  cases st with
  | hdr =>
      obtain ⟨n, -, -, -, rfl⟩ := h
      exact ⟨⟨nofun, nofun, fun hks _ _ => hnone hks nofun nofun⟩, rfl, rfl, rfl⟩
  | ver =>
      cases h
      exact ⟨⟨nofun, nofun, fun hks _ _ => hnone hks nofun nofun⟩, rfl, rfl, rfl⟩
  | rnd =>
      obtain ⟨-, rfl⟩ := h
      exact ⟨⟨nofun, nofun, fun hks _ _ => hnone hks nofun nofun⟩, rfl, rfl, rfl⟩
  | fix =>
      obtain ⟨-, hnext⟩ := h
      obtain ⟨hphase, hrandom, hct, hpub⟩ := next_written hnext fun hks => hnone hks nofun nofun
      exact ⟨hphase, hrandom, hct, hpub⟩
  | sv =>
      obtain ⟨-, hnext⟩ := h
      obtain ⟨hphase, hrandom, hct, hpub⟩ := next_written hnext fun hks => hnone hks nofun nofun
      exact ⟨hphase, hrandom, hct, hpub⟩
  | exh =>
      rcases h with ⟨-, -, -, rfl⟩ | ⟨n, -, -, -, hnew, rfl⟩
      · exact ⟨⟨nofun, nofun, fun hks _ _ => hnone hks nofun nofun⟩, rfl, rfl, rfl⟩
      · exact ⟨⟨fun _ => hnew, nofun, fun hks _ _ => hnone hks nofun nofun⟩, rfl, rfl, rfl⟩
  | ksh =>
      have hks : seenKs = false := hfresh (Or.inl rfl)
      have hgroup : kexGroup ≠ 0xec := hnone hks nofun nofun
      subst hks
      -- nothing is at `cert_buf` yet, and the empty field is what stands at the next destination
      have hempty : written ⟨shErr, .ksh, cnt, rem, d, field, seenVer, false, offered, kexGroup,
          random, ct, pub⟩ .certBuf = [] := if_neg hgroup
      rw [hempty]
      rcases h with ⟨-, -, rfl⟩ | ⟨-, -, -, rfl⟩
      · exact ⟨⟨fun _ => rfl, nofun, fun _ _ hpub => absurd rfl hpub⟩, rfl, rfl, rfl⟩
      · exact ⟨⟨fun _ => rfl, fun _ => rfl, fun _ hct _ => absurd rfl hct⟩, rfl, rfl, rfl⟩
  | ct =>
      have hks : seenKs = false := hfresh (Or.inr (Or.inl rfl))
      have hgroup : kexGroup = 0xec := hhybrid rfl
      subst hks hgroup
      cases h
      exact ⟨⟨fun _ => rfl, nofun, fun _ _ hpub => absurd rfl hpub⟩, rfl, rfl, rfl⟩
  | pub =>
      have hnext : Next _ r' := h
      obtain ⟨hphase, hrandom, hct, hpub⟩ := next_written hnext nofun
      exact ⟨hphase, hrandom, hct, hpub⟩
  | done => exact h.elim

/-- A field that goes to a destination is what stands there. -/
theorem written_field {r : ShReader} {d : ShDest} (hdest : r.state.dest = some d)
    (hd : d ≠ .scratch) : r.written d = r.field := by
  obtain ⟨shErr, st, cnt, rem, n, field, seenVer, seenKs, offered, kexGroup, random, ct, pub⟩ := r
  cases st with
  | rnd =>
      cases hdest
      rfl
  | ct =>
      cases hdest
      rfl
  | pub =>
      cases hdest
      rfl
  | ver => cases hdest
  | done => cases hdest
  | hdr =>
      cases hdest
      exact absurd rfl hd
  | fix =>
      cases hdest
      exact absurd rfl hd
  | exh =>
      cases hdest
      exact absurd rfl hd
  | sv =>
      cases hdest
      exact absurd rfl hd
  | ksh =>
      cases hdest
      exact absurd rfl hd

/-- The counts are not stored, and a field is stored at its own destination only. -/
theorem written_frame {r : ShReader} {d : ShDest} (hdest : r.state.dest ≠ some d)
    (field : List UInt8) (cnt rem : Nat) :
    ({ r with field := field, cnt := cnt, rem := rem } : ShReader).written d = r.written d := by
  obtain ⟨shErr, st, cnt', rem', n, field', seenVer, seenKs, offered, kexGroup, random, ct, pub⟩ := r
  cases d with
  | scratch => rfl
  | serverRandom =>
      cases st with
      | rnd => exact absurd rfl hdest
      | _ => rfl
  | certBuf =>
      cases st with
      | ct => exact absurd rfl hdest
      | _ => rfl
  | serverPubkey =>
      cases st with
      | pub => exact absurd rfl hdest
      | _ => rfl

theorem len_le_size {st : ShsState} {d : ShDest} (h : st.dest = some d) : st.len ≤ d.size := by
  cases st with
  | ver => cases h
  | done => cases h
  | _ =>
      cases h
      decide

end ShReader

/-- A write at the end of a block. -/
theorem update_store (buf : Buffer) (bs : List UInt8) (b : UInt8) :
    Function.update (store buf 0 bs) bs.length b = store buf 0 (bs ++ [b]) := by
  rw [← store_store buf 0 bs [b], Nat.zero_add]
  funext i
  by_cases hi : i = bs.length
  · subst hi
    rw [Function.update_self]
    simp [store]
  · have hout : ¬ (bs.length ≤ i ∧ i < bs.length + [b].length) := by
      simp only [List.length_singleton]
      omega
    rw [Function.update_of_ne hi]
    exact (if_neg hout).symm

/-- The memory holds what the reader has written, and is otherwise as it was. -/
structure Stored (m₀ : ShDest → Buffer) (m : ShMachine) : Prop where
  operand_eq : m.operand = m.reader.state.dest.map fun d => (d, m.reader.field.length)
  mem_eq : ∀ d, d ≠ .scratch → m.mem d = store (m₀ d) 0 (m.reader.written d)
  scratch : ∀ i, ShDest.scratch.size ≤ i → m.mem .scratch i = m₀ .scratch i
  fits : ∀ d, (m.reader.written d).length ≤ d.size
  phase : m.reader.Phase

/-- No byte has changed but at the four destinations. -/
def Confined (m₀ mem : ShDest → Buffer) : Prop :=
  ∀ d i, d.size ≤ i → mem d i = m₀ d i

section Stores

variable {m₀ : ShDest → Buffer} {m : ShMachine}

theorem Stored.confined (h : Stored m₀ m) : Confined m₀ m.mem := by
  intro d i hi
  by_cases hd : d = .scratch
  · subst hd
    exact h.scratch i hi
  · rw [h.mem_eq d hd]
    have hfits := h.fits d
    unfold store
    rw [if_neg (by omega)]

/-- The counts of a reader are not compared here: they stay variables. -/
theorem Stored.counts {r : ShReader} {operand : Option (ShDest × Nat)} {mem : ShDest → Buffer}
    {tr : Transcript} {cnt rem : Nat} (hop : operand = r.state.dest.map fun d => (d, r.field.length))
    (hmem : ∀ d, d ≠ .scratch → mem d = store (m₀ d) 0 (r.written d))
    (hscratch : ∀ i, ShDest.scratch.size ≤ i → mem .scratch i = m₀ .scratch i)
    (hfits : ∀ d, (r.written d).length ≤ d.size) (hphase : r.Phase) :
    Stored m₀ ⟨{ r with cnt := cnt, rem := rem }, operand, mem, tr⟩ := by
  obtain ⟨shErr, st, cnt', rem', n, field, seenVer, seenKs, offered, kexGroup, random, ct, pub⟩ := r
  refine ⟨hop, ?_, hscratch, ?_, ⟨hphase.fresh, hphase.hybrid, hphase.none⟩⟩
  · intro d hd
    cases d with
    | scratch => exact absurd rfl hd
    | serverRandom => exact hmem .serverRandom hd
    | certBuf => exact hmem .certBuf hd
    | serverPubkey => exact hmem .serverPubkey hd
  · intro d
    cases d with
    | scratch => exact hfits .scratch
    | serverRandom => exact hfits .serverRandom
    | certBuf => exact hfits .certBuf
    | serverPubkey => exact hfits .serverPubkey

/-- One more byte of the field. -/
theorem Stored.put (h : Stored m₀ m) (hlen : m.reader.field.length < m.reader.state.len)
    (b : UInt8) : Stored m₀ { m.put b with reader := m.reader.took b } := by
  have hphase : Phase { m.reader with field := m.reader.field ++ [b] } :=
    ⟨h.phase.fresh, h.phase.hybrid, h.phase.none⟩
  have hone : (m.reader.field ++ [b]).length = m.reader.field.length + 1 := by
    simp
  have hframe : ∀ d, m.reader.state.dest ≠ some d →
      ({ m.reader with field := m.reader.field ++ [b] } : ShReader).written d =
        m.reader.written d :=
    fun d hd => written_frame hd _ _ _
  cases hdest : m.reader.state.dest with
  | none =>
      -- a field without a destination: the byte is only counted
      have hop : m.operand = none := by
        rw [h.operand_eq, hdest]
        rfl
      have hput : m.put b = m := by
        unfold ShMachine.put
        rw [hop]
      rw [hput]
      refine Stored.counts (r := { m.reader with field := m.reader.field ++ [b] }) ?_ ?_ h.scratch
        ?_ hphase
      · show m.operand = m.reader.state.dest.map _
        rw [hop, hdest]
        rfl
      · intro d hd
        rw [hframe d (by rw [hdest]; simp)]
        exact h.mem_eq d hd
      · intro d
        rw [hframe d (by rw [hdest]; simp)]
        exact h.fits d
  | some d₀ =>
      have hop : m.operand = some (d₀, m.reader.field.length) := by
        rw [h.operand_eq, hdest]
        rfl
      have hput : m.put b = { m with
          operand := some (d₀, m.reader.field.length + 1)
          mem := Function.update m.mem d₀
            (Function.update (m.mem d₀) m.reader.field.length b) } := by
        unfold ShMachine.put
        rw [hop]
      have hsize := len_le_size hdest
      have hfield : ∀ d, d ≠ .scratch → d = d₀ →
          ({ m.reader with field := m.reader.field ++ [b] } : ShReader).written d =
            m.reader.field ++ [b] := by
        intro d hd heq
        subst heq
        exact written_field (r := { m.reader with field := m.reader.field ++ [b] }) hdest hd
      rw [hput]
      refine Stored.counts (r := { m.reader with field := m.reader.field ++ [b] }) ?_ ?_ ?_ ?_ hphase
      · show some (d₀, m.reader.field.length + 1) =
          m.reader.state.dest.map fun d => (d, (m.reader.field ++ [b]).length)
        rw [hdest, Option.map_some, hone]
      · intro d hd
        show Function.update m.mem d₀ _ d = _
        by_cases heq : d = d₀
        · -- the field being read grows by the byte, and the others keep theirs
          rw [hfield d hd heq]
          subst heq
          rw [Function.update_self, h.mem_eq d hd, written_field hdest hd]
          exact update_store _ _ _
        · rw [Function.update_of_ne heq, hframe d (by rw [hdest]; simpa using Ne.symm heq)]
          exact h.mem_eq d hd
      · intro i hi
        show Function.update m.mem d₀ _ .scratch i = _
        by_cases heq : d₀ = .scratch
        · subst heq
          rw [Function.update_self, Function.update_of_ne (by omega)]
          exact h.scratch i hi
        · rw [Function.update_of_ne (Ne.symm heq)]
          exact h.scratch i hi
      · intro d
        by_cases heq : d = d₀
        · by_cases hd : d = .scratch
          · subst hd
            exact Nat.zero_le _
          · rw [hfield d hd heq, hone]
            subst heq
            omega
        · rw [hframe d (by rw [hdest]; simpa using Ne.symm heq)]
          exact h.fits d

/-- The move behind a field stores nothing, and patches the operand. -/
theorem Stored.move {r : ShReader} (h : Stored m₀ m) (hmove : Move m.reader r)
    (hfield : r.field = []) : Stored m₀ { m with reader := r }.patch := by
  obtain ⟨hphase, hrandom, hct, hpub⟩ := move_written hmove h.phase
  have hsame : ∀ d, r.written d = m.reader.written d := by
    intro d
    cases d with
    | scratch => rfl
    | serverRandom => exact hrandom
    | certBuf => exact hct
    | serverPubkey => exact hpub
  refine ⟨?_, ?_, h.scratch, ?_, hphase⟩
  · show r.state.dest.map _ = r.state.dest.map fun d => (d, r.field.length)
    rw [hfield]
    rfl
  · intro d hd
    show m.mem d = store (m₀ d) 0 (r.written d)
    rw [hsame]
    exact h.mem_eq d hd
  · intro d
    show (r.written d).length ≤ d.size
    rw [hsame]
    exact h.fits d

end Stores

/-! ## A byte, and a string of bytes -/

namespace ShReader

/-- `took`, with the counts behind the byte left open. -/
theorem took_eq {r : ShReader} {b : UInt8} {cnt rem : Nat} (hcnt : sub16 r.cnt 1 = cnt)
    (hrem : (if r.state = .hdr then r.rem else sub16 r.rem 1) = rem) :
    r.took b = { r with field := r.field ++ [b], cnt := cnt, rem := rem } := by
  unfold took
  rw [hcnt, hrem]

theorem next_armed {q r : ShReader} (h : Next q r) : r.field = [] ∧ r.cnt = r.state.len := by
  cases h with
  | done _ _ _ => exact ⟨rfl, rfl⟩
  | more _ => exact ⟨rfl, rfl⟩

/-- Every move arms a field. -/
theorem move_armed {r r' : ShReader} (h : Move r r') : r'.field = [] ∧ r'.cnt = r'.state.len := by
  obtain ⟨shErr, st, cnt, rem, d, field, seenVer, seenKs, offered, kexGroup, random, ct, pub⟩ := r
  cases st with
  | hdr =>
      obtain ⟨n, -, -, -, rfl⟩ := h
      exact ⟨rfl, rfl⟩
  | ver =>
      cases h
      exact ⟨rfl, rfl⟩
  | rnd =>
      obtain ⟨-, rfl⟩ := h
      exact ⟨rfl, rfl⟩
  | fix => exact next_armed h.2
  | sv => exact next_armed h.2
  | exh =>
      rcases h with ⟨-, -, -, rfl⟩ | ⟨n, -, -, -, -, rfl⟩
      · exact ⟨rfl, rfl⟩
      · exact ⟨rfl, rfl⟩
  | ksh =>
      rcases h with ⟨-, -, rfl⟩ | ⟨-, -, -, rfl⟩
      · exact ⟨rfl, rfl⟩
      · exact ⟨rfl, rfl⟩
  | ct =>
      cases h
      exact ⟨rfl, rfl⟩
  | pub => exact next_armed h
  | done => exact h.elim

/-- While the message lasts, neither of the two counts stands at 0 when a byte comes. -/
theorem Counts.pos {r : ShReader} {bs : List UInt8} (h : Counts r bs) (hlive : r.state ≠ .done) :
    1 ≤ r.cnt ∧ (r.state = .hdr ∨ 1 ≤ r.rem) := by
  cases h with
  | hdr hst _ _ hpos => exact ⟨Nat.one_le_iff_ne_zero.2 hpos, Or.inl hst⟩
  | inside _ _ _ hpos hroom => exact ⟨Nat.one_le_iff_ne_zero.2 hpos, Or.inr (by omega)⟩
  | done hst _ => exact absurd hst hlive

end ShReader

/-- `bs` has been read since the start, and `m₀` was the memory then. -/
structure Running (m₀ : ShDest → Buffer) (bs : List UInt8) (m : ShMachine) : Prop where
  counts : Counts m.reader bs
  mid : m.reader.state ≠ .done → m.reader.field.length + m.reader.cnt = m.reader.state.len
  stored : Stored m₀ m

namespace ShMachine

/-- What the reader of the machine does. -/
def readerTurn : Turn ShMachine ShMachine → Turn ShReader ShReader
  | .again m => .again m.reader
  | .leave m => .leave m.reader

theorem byte_reader (m : ShMachine) (b : UInt8) : readerTurn (m.byte b) = m.reader.byte b := by
  unfold byte
  split
  · rename_i hdone
    unfold ShReader.byte
    rw [if_pos hdone]
    rfl
  · cases m.reader.byte b with
    | leave r => rfl
    | again r =>
        dsimp only
        split
        · rfl
        · rfl

theorem feed_reader (bs : List UInt8) :
    ∀ m : ShMachine, readerTurn (feed byte m bs) = feed ShReader.byte m.reader bs := by
  induction bs with
  | nil =>
      intro m
      rfl
  | cons b bs ih =>
      intro m
      rw [feed_cons, feed_cons, ← byte_reader m b]
      cases m.byte b with
      | leave m' => rfl
      | again m' => exact ih m'

/-- One byte keeps the stores in step with the reader; a refused one leaves them confined. -/
theorem byte_running {m₀ : ShDest → Buffer} {bs : List UInt8} {m : ShMachine}
    (h : Running m₀ bs m) (b : UInt8) :
    (m.byte b).Post (Running m₀ (bs ++ [b])) (fun m' => Confined m₀ m'.mem) := by
  have hread := byte_hasRead h.counts b
  unfold byte
  split
  · exact h.stored.confined
  rename_i hlive
  have hmid := h.mid hlive
  obtain ⟨hpos, hrem⟩ := h.counts.pos hlive
  have hcnt : sub16 m.reader.cnt 1 = m.reader.cnt - 1 := by
    have := len_lt m.reader.state
    exact sub16_of_le hpos (by omega)
  have hput := h.stored.put (by omega) b
  have hsmall : m.reader.state = .hdr ∨
      (if m.reader.state = .hdr then m.reader.rem else sub16 m.reader.rem 1) < 65536 := by
    by_cases hst : m.reader.state = .hdr
    · exact Or.inl hst
    · rw [if_neg hst]
      exact Or.inr (sub16_lt _ _)
  rw [byte_live hlive] at hread ⊢
  rw [hcnt]
  generalize hrest : (if m.reader.state = .hdr then m.reader.rem else sub16 m.reader.rem 1) = rem
    at hsmall
  rw [took_eq hcnt hrest] at hread hput ⊢
  have hone : (m.reader.field ++ [b]).length = m.reader.field.length + 1 := by
    simp
  by_cases hlast : m.reader.cnt - 1 = 0
  · rw [if_pos hlast] at hread ⊢
    cases hturn : ShReader.handler { m.reader with
        field := m.reader.field ++ [b], cnt := m.reader.cnt - 1, rem := rem } with
    | leave r => exact hput.confined
    | again r =>
        rw [hturn] at hread
        have hfull : (m.reader.field ++ [b]).length = m.reader.state.len := by
          omega
        have hmove := (handler_iff (r := { m.reader with
          field := m.reader.field ++ [b], cnt := m.reader.cnt - 1, rem := rem })
            hlive hfull hsmall).1 hturn
        obtain ⟨hfield, harmed⟩ := move_armed hmove
        dsimp only
        rw [if_pos hlast]
        refine ⟨hread, ?_, hput.move hmove hfield⟩
        intro _
        show r.field.length + r.cnt = r.state.len
        rw [hfield, harmed, List.length_nil, Nat.zero_add]
  · rw [if_neg hlast] at hread ⊢
    dsimp only
    rw [if_neg hlast]
    refine ⟨hread, ?_, hput⟩
    intro _
    show (m.reader.field ++ [b]).length + (m.reader.cnt - 1) = m.reader.state.len
    omega

theorem feed_running {m₀ : ShDest → Buffer} (as : List UInt8) :
    ∀ {bs : List UInt8} {m : ShMachine}, Running m₀ bs m →
      (feed byte m as).Post (Running m₀ (bs ++ as)) (fun m' => Confined m₀ m'.mem) := by
  induction as with
  | nil =>
      intro bs m h
      rw [List.append_nil]
      exact h
  | cons a as ih =>
      intro bs m h
      have hstep := byte_running h a
      rw [feed_cons]
      cases hturn : m.byte a with
      | leave m' =>
          rw [hturn] at hstep
          exact hstep
      | again m' =>
          rw [hturn] at hstep
          have hrest := ih hstep
          rwa [List.append_assoc, List.singleton_append] at hrest

theorem init_running (m : ShMachine) : Running m.mem [] m.init := by
  refine ⟨init_counts m.reader, fun _ => rfl, rfl, ?_, fun _ _ => rfl, ?_, ?_⟩
  · intro d hd
    cases d with
    | scratch => exact absurd rfl hd
    | serverRandom => exact (store_nil _ _).symm
    | certBuf => exact (store_nil _ _).symm
    | serverPubkey => exact (store_nil _ _).symm
  · intro d
    cases d <;> exact Nat.zero_le _
  · exact ⟨nofun, nofun, fun _ _ _ => nofun⟩

end ShMachine

/-! ## Records -/

/-- The bytes of the records. -/
def bytesOf (recs : List (UInt8 × List UInt8)) : List UInt8 :=
  (recs.map Prod.snd).flatten

/-- Handshake records with something in them. -/
def PlainRecords (recs : List (UInt8 × List UInt8)) : Prop :=
  ∀ rec ∈ recs, rec.1 = ctHandshake ∧ rec.2 ≠ []

namespace ShMachine

variable (sha : Sha256)

/-- With another transcript. -/
def retag (t : Transcript) : Turn ShMachine ShMachine → Turn ShMachine ShMachine
  | .again m => .again { m with transcript := t }
  | .leave m => .leave { m with transcript := t }

@[simp] theorem retag_retag (t t' : Transcript) (x : Turn ShMachine ShMachine) :
    retag t (retag t' x) = retag t x := by
  cases x with
  | again m => rfl
  | leave m => rfl

/-- The reader does not look at the transcript. -/
theorem byte_retag (t : Transcript) (m : ShMachine) (b : UInt8) :
    byte { m with transcript := t } b = retag t (m.byte b) := by
  have hput : ({ m with transcript := t } : ShMachine).put b = { m.put b with transcript := t } := by
    obtain ⟨r, operand, mem, transcript⟩ := m
    cases operand with
    | none => rfl
    | some x => rfl
  unfold byte
  rw [hput]
  dsimp only
  split
  · rfl
  · cases m.reader.byte b with
    | leave r => rfl
    | again r =>
        dsimp only
        split
        · rfl
        · rfl

theorem feed_retag (t : Transcript) (bs : List UInt8) :
    ∀ m : ShMachine, feed byte { m with transcript := t } bs = retag t (feed byte m bs) := by
  induction bs with
  | nil =>
      intro m
      rfl
  | cons b bs ih =>
      intro m
      rw [feed_cons, feed_cons, byte_retag]
      cases m.byte b with
      | leave m' => rfl
      | again m' => exact ih m'

theorem feed_transcript (bs : List UInt8) (m : ShMachine) :
    (feed byte m bs).Post (fun m' => m'.transcript = m.transcript) (fun _ => True) := by
  have hsame := feed_retag m.transcript bs m
  have heta : ({ m with transcript := m.transcript } : ShMachine) = m := rfl
  rw [heta] at hsame
  cases hrun : feed byte m bs with
  | leave m' => trivial
  | again m' =>
      rw [hrun] at hsame
      have hm := Turn.again.inj hsame
      rw [hm]
      rfl

theorem feedRecord_plain {m : ShMachine} {ty : UInt8} {bs : List UInt8} (hty : ty = ctHandshake)
    (hbs : bs ≠ []) : m.feedRecord sha ty bs = (feed byte m bs).bind fun m' =>
      .again ({ m' with transcript := tlsTranscriptUpdate sha m'.transcript bs },
        decide (m'.reader.state = .done)) := by
  unfold feedRecord
  rw [if_neg]
  rintro (hno | hno)
  · exact hno hty
  · exact hbs hno

/-- A record of another type, or an empty one, is refused as it comes. -/
theorem feedRecords_refused {m : ShMachine} {rec : UInt8 × List UInt8}
    (h : ¬ (rec.1 = ctHandshake ∧ rec.2 ≠ [])) (recs : List (UInt8 × List UInt8)) :
    m.feedRecords sha (rec :: recs) =
      .leave { m with reader := { m.reader with shErr := .recType } } := by
  have hbad : rec.1 ≠ ctHandshake ∨ rec.2 = [] := by
    by_contra hno
    obtain ⟨hty, hbs⟩ := not_or.1 hno
    exact h ⟨not_not.1 hty, hbs⟩
  unfold feedRecords
  rw [feed_cons]
  unfold feedRecord
  rw [if_pos hbad]
  rfl

/-- One record: its bytes, and the transcript behind them. -/
theorem feedRecords_cons {m : ShMachine} {rec : UInt8 × List UInt8}
    (hrec : rec.1 = ctHandshake ∧ rec.2 ≠ []) (recs : List (UInt8 × List UInt8)) :
    m.feedRecords sha (rec :: recs) = (feed byte m rec.2).bind fun m' =>
      feedRecords sha { m' with transcript := tlsTranscriptUpdate sha m.transcript rec.2 } recs := by
  have htr := feed_transcript rec.2 m
  unfold feedRecords
  rw [feed_cons, feedRecord_plain sha hrec.1 hrec.2]
  cases hrun : feed byte m rec.2 with
  | leave m' => rfl
  | again m' =>
      rw [hrun] at htr
      have htr' : m'.transcript = m.transcript := htr
      simp only [Turn.again_bind, htr']

/-- But for the transcript, the records are one string of bytes. -/
theorem feedRecords_retag (t : Transcript) {recs : List (UInt8 × List UInt8)}
    (h : PlainRecords recs) : ∀ m : ShMachine,
      retag t (m.feedRecords sha recs) = retag t (feed byte m (bytesOf recs)) := by
  induction recs with
  | nil =>
      intro m
      rfl
  | cons rec recs ih =>
      intro m
      have hbytes : bytesOf (rec :: recs) = rec.2 ++ bytesOf recs := rfl
      rw [feedRecords_cons sha (h rec (List.mem_cons_self ..)), hbytes, feed_append]
      cases feed byte m rec.2 with
      | leave m' => rfl
      | again m' =>
          rw [Turn.again_bind, Turn.again_bind,
            ih (fun r hr => h r (List.mem_cons_of_mem _ hr)), feed_retag, retag_retag]

/-- Every record is folded once, in order. -/
theorem feedRecords_transcript {recs : List (UInt8 × List UInt8)} (h : PlainRecords recs) :
    ∀ {m m' : ShMachine}, m.feedRecords sha recs = .again m' → recs ≠ [] →
      m'.transcript = tlsTranscriptUpdate sha m.transcript (bytesOf recs) := by
  induction recs with
  | nil =>
      intro m m' _ hne
      exact absurd rfl hne
  | cons rec recs ih =>
      intro m m' hrun _
      rw [feedRecords_cons sha (h rec (List.mem_cons_self ..))] at hrun
      cases hfirst : feed byte m rec.2 with
      | leave m₁ =>
          rw [hfirst] at hrun
          cases hrun
      | again m₁ =>
          rw [hfirst, Turn.again_bind] at hrun
          rcases List.eq_nil_or_concat recs with rfl | ⟨init, last, hrecs⟩
          · cases hrun
            show tlsTranscriptUpdate sha m.transcript rec.2 = _
            unfold bytesOf
            simp
          · have hne : recs ≠ [] := by
              rw [hrecs]
              simp
            have hrest := ih (fun r hr => h r (List.mem_cons_of_mem _ hr)) hrun hne
            rw [hrest]
            exact (tlsTranscriptUpdate_append sha m.transcript rec.2 (bytesOf recs)).symm

/-- The records of a run that goes on are plain. -/
theorem feedRecords_taken {recs : List (UInt8 × List UInt8)} :
    ∀ {m m' : ShMachine}, m.feedRecords sha recs = .again m' → PlainRecords recs := by
  induction recs with
  | nil =>
      intro m m' _ rec hrec
      cases hrec
  | cons rec recs ih =>
      intro m m' hrun r hr
      by_cases hplain : rec.1 = ctHandshake ∧ rec.2 ≠ []
      · rcases List.mem_cons.1 hr with rfl | hr
        · exact hplain
        · rw [feedRecords_cons sha hplain] at hrun
          cases hfirst : feed byte m rec.2 with
          | leave m₁ =>
              rw [hfirst] at hrun
              cases hrun
          | again m₁ =>
              rw [hfirst] at hrun
              exact ih hrun r hr
      · rw [feedRecords_refused sha hplain] at hrun
        cases hrun

end ShMachine

/-- What the driver of the handshake does with a record is what the machine does. -/
theorem shRecord_hybrid {κ : Type} (E : ConnEnv κ) (hE : E.pqHybrid = true) {c : Conn κ}
    {m : ShMachine} (hr : m.reader = c.pq) (ht : m.transcript = c.hs.transcript) (timeout : Nat) :
    shRecord E c timeout =
      match m.feedRecord E.df.sha c.recType c.record with
      | .leave m' => .leave (some ({ c with pq := m'.reader }, false))
      | .again (m', complete) =>
          let c' := { c with pq := m'.reader, hs := { c.hs with transcript := m'.transcript } }
          if complete then .leave (some (c', true)) else .again (c', timeout) := by
  have hread := ShMachine.feed_reader c.record m
  have htr := ShMachine.feed_transcript c.record m
  unfold shRecord ShReader.pqShFeed ShMachine.feedRecord
  rw [if_pos hE, ← hr, ← hread]
  by_cases hbad : c.recType ≠ ctHandshake ∨ c.record = []
  · rw [if_pos hbad, if_pos hbad]
  · rw [if_neg hbad, if_neg hbad]
    cases hrun : feed ShMachine.byte m c.record with
    | leave m' => rfl
    | again m' =>
        rw [hrun] at htr
        have htr' : m'.transcript = c.hs.transcript := Eq.trans htr ht
        simp only [ShMachine.readerTurn, Turn.again_bind, htr']
        rfl

/-! ## The exact behaviour -/

/-- What a run comes to, but for the transcript: reader, memory, and whether it was refused. -/
def verdict : Turn ShMachine ShMachine → ShReader × (ShDest → Buffer) × Bool
  | .again m => (m.reader, m.mem, true)
  | .leave m => (m.reader, m.mem, false)

/-- The parts of a message, at their destinations and nowhere else. -/
structure Placed (m₀ : ShDest → Buffer) (msg : HelloMessage) (m : ShMachine) : Prop where
  group : m.reader.kexGroup = msg.share.group
  serverRandom : m.mem .serverRandom = store (m₀ .serverRandom) 0 msg.random
  certBuf : m.mem .certBuf = store (m₀ .certBuf) 0 msg.share.ct
  serverPubkey : m.mem .serverPubkey = store (m₀ .serverPubkey) 0 msg.share.pub

/-- What `pq_sh_feed` makes of a list of records, from `pq_sh_init` on. -/
structure FeedExact (sha : Sha256) (m : ShMachine) (recs : List (UInt8 × List UInt8)) : Prop where
  /-- just the messages of the grammar complete the machine -/
  accepts : (∃ m', m.init.feedRecords sha recs = .again m' ∧ m'.reader.state = .done) ↔
    PlainRecords recs ∧ ∃ msg : HelloMessage, bytesOf recs = msg.encode ∧
      (msg.share.isHybrid = true → m.reader.offered = true)
  placed : ∀ m', m.init.feedRecords sha recs = .again m' → m'.reader.state = .done →
    ∃ msg : HelloMessage, bytesOf recs = msg.encode ∧ Placed m.mem msg m'
  /-- any other split of the bytes has the same verdict -/
  splits : PlainRecords recs → ∀ recs', PlainRecords recs' → bytesOf recs' = bytesOf recs →
    verdict (m.init.feedRecords sha recs') = verdict (m.init.feedRecords sha recs)
  confined : Confined m.mem (verdict (m.init.feedRecords sha recs)).2.1
  /-- no count stands at 0 when a byte of the message is taken from it -/
  counted : PlainRecords recs → ∀ as b bs r, bytesOf recs = as ++ b :: bs →
    feed ShReader.byte m.reader.init as = .again r → r.state ≠ .done →
      1 ≤ r.cnt ∧ (r.state = .hdr ∨ 1 ≤ r.rem)
  folded : ∀ m', m.init.feedRecords sha recs = .again m' → recs ≠ [] →
    m'.transcript = tlsTranscriptUpdate sha m.transcript (bytesOf recs)

/-- Whatever the records are, only the destinations change. -/
theorem feedRecords_confined (sha : Sha256) {m₀ : ShDest → Buffer}
    (recs : List (UInt8 × List UInt8)) : ∀ {bs : List UInt8} {m : ShMachine}, Running m₀ bs m →
      (m.feedRecords sha recs).Post (fun m' => Confined m₀ m'.mem)
        (fun m' => Confined m₀ m'.mem) := by
  induction recs with
  | nil =>
      intro bs m h
      exact h.stored.confined
  | cons rec recs ih =>
      intro bs m h
      by_cases hplain : rec.1 = ctHandshake ∧ rec.2 ≠ []
      · have hfeed := ShMachine.feed_running rec.2 h
        rw [ShMachine.feedRecords_cons sha hplain]
        cases hrun : feed ShMachine.byte m rec.2 with
        | leave m' =>
            rw [hrun] at hfeed
            exact hfeed
        | again m' =>
            rw [hrun] at hfeed
            exact ih (m := { m' with transcript := _ })
              ⟨hfeed.counts, hfeed.mid, hfeed.stored.operand_eq, hfeed.stored.mem_eq,
                hfeed.stored.scratch, hfeed.stored.fits, hfeed.stored.phase⟩
      · rw [ShMachine.feedRecords_refused sha hplain]
        exact h.stored.confined

section Exact

variable {sha : Sha256} {m : ShMachine} {recs : List (UInt8 × List UInt8)}

theorem verdict_retag (t : Transcript) (x : Turn ShMachine ShMachine) :
    verdict (ShMachine.retag t x) = verdict x := by
  cases x with
  | again m => rfl
  | leave m => rfl

/-- The records' verdict is that of their bytes. -/
theorem verdict_feedRecords (h : PlainRecords recs) (m : ShMachine) :
    verdict (m.feedRecords sha recs) = verdict (feed ShMachine.byte m (bytesOf recs)) := by
  have hsame := congrArg verdict (ShMachine.feedRecords_retag sha m.transcript h m)
  rwa [verdict_retag, verdict_retag] at hsame

/-- Taken records: the machine has read their bytes. -/
theorem feedRecords_again (h : PlainRecords recs) {m' : ShMachine}
    (hrun : m.feedRecords sha recs = .again m') :
    ∃ m₁, feed ShMachine.byte m (bytesOf recs) = .again m₁ ∧ m₁.reader = m'.reader ∧
      m₁.mem = m'.mem := by
  have hsame : verdict (m.feedRecords sha recs) = verdict (feed ShMachine.byte m (bytesOf recs)) :=
    verdict_feedRecords h m
  rw [hrun] at hsame
  cases hbytes : feed ShMachine.byte m (bytesOf recs) with
  | leave m₁ =>
      rw [hbytes] at hsame
      cases (Prod.mk.inj (Prod.mk.inj hsame).2).2
  | again m₁ =>
      rw [hbytes] at hsame
      obtain ⟨hreader, hrest⟩ := Prod.mk.inj hsame
      exact ⟨m₁, rfl, hreader.symm, (Prod.mk.inj hrest).1.symm⟩

/-- The reader's run on the bytes. -/
theorem feed_init_reader {bs : List UInt8} {m₁ : ShMachine}
    (h : feed ShMachine.byte m.init bs = .again m₁) :
    feed ShReader.byte m.reader.init bs = .again m₁.reader := by
  have hread := ShMachine.feed_reader bs m.init
  rw [h] at hread
  exact hread.symm

/-- At the end every destination holds what the reader read for it. -/
theorem written_done {r : ShReader} (h : r.state = .done) :
    r.written .serverRandom = r.serverRandom ∧
      r.written .certBuf = (if r.kexGroup = 0xec then r.ciphertext else []) ∧
        r.written .serverPubkey = (if r.seenKs then r.serverPubkey else []) := by
  obtain ⟨shErr, st, cnt, rem, d, field, seenVer, seenKs, offered, kexGroup, random, ct, pub⟩ := r
  cases h
  exact ⟨rfl, rfl, rfl⟩

/-- A machine that is done holds the parts of its message. -/
theorem placed_of_done {bs : List UInt8} {m₁ : ShMachine} {msg : HelloMessage}
    (hrun : feed ShMachine.byte m.init bs = .again m₁)
    (hreader : m₁.reader = m.reader.withMessage msg) : Placed m.mem msg m₁ := by
  have hstored : Stored m.mem m₁ := by
    have hall := ShMachine.feed_running bs (ShMachine.init_running m)
    rw [hrun] at hall
    exact hall.stored
  have hdone : m₁.reader.state = .done := by
    rw [hreader]
    rfl
  obtain ⟨hrandom, hct, hpub⟩ := written_done hdone
  refine ⟨?_, ?_, ?_, ?_⟩
  · rw [hreader, withMessage_kexGroup]
  · rw [hstored.mem_eq .serverRandom nofun, hrandom, hreader, withMessage_serverRandom]
  · rw [hstored.mem_eq .certBuf nofun, hct, hreader, withMessage_kexGroup]
    cases hs : msg.share with
    | x25519 pub hp => rfl
    | hybrid ct pub hc hp => rw [if_pos (show (KeyShare.hybrid ct pub hc hp).group = 0xec from rfl),
        withMessage_ciphertext _ _ (by rw [hs]; rfl), hs]
  · rw [hstored.mem_eq .serverPubkey nofun, hpub, hreader, withMessage_seenKs,
      withMessage_serverPubkey, if_pos rfl]

end Exact

/-- `pq_sh_feed` over any records: the grammar, at every split, with its stores and its folds. -/
theorem pqShFeed_exact (sha : Sha256) (m : ShMachine) (recs : List (UInt8 × List UInt8)) :
    FeedExact sha m recs := by
  refine ⟨⟨?_, ?_⟩, ?_, ?_, ?_, ?_, ?_⟩
  · -- a run over the memory reads as the reader does, so it ends in a message
    rintro ⟨m', hrun, hdone⟩
    have hplain := ShMachine.feedRecords_taken sha hrun
    obtain ⟨m₁, hbytes, hreader, -⟩ := feedRecords_again hplain hrun
    have hreads : ShReader.Reads m.reader.init (bytesOf recs) m₁.reader :=
      ⟨feed_init_reader hbytes, by rw [hreader]; exact hdone⟩
    obtain ⟨msg, hmsg, hoff, -⟩ := (reads_iff m.reader m₁.reader (bytesOf recs)).1 hreads
    exact ⟨hplain, msg, hmsg, hoff⟩
  · rintro ⟨hplain, msg, hmsg, hoff⟩
    obtain ⟨hreads, hdone⟩ :=
      (reads_iff m.reader (m.reader.withMessage msg) (bytesOf recs)).2 ⟨msg, hmsg, hoff, rfl⟩
    have hread := ShMachine.feed_reader (bytesOf recs) m.init
    have hsame : verdict (m.init.feedRecords sha recs) =
        verdict (feed ShMachine.byte m.init (bytesOf recs)) :=
      verdict_feedRecords hplain m.init
    -- and the reader of the message does not fail, so neither does the run
    cases hbytes : feed ShMachine.byte m.init (bytesOf recs) with
    | leave m₁ =>
        rw [hbytes] at hread
        exact absurd (hread.trans hreads) nofun
    | again m₁ =>
        rw [hbytes] at hread hsame
        have hreader : m₁.reader = m.reader.withMessage msg := Turn.again.inj (hread.trans hreads)
        cases hrun : m.init.feedRecords sha recs with
        | leave m' =>
            rw [hrun] at hsame
            cases (Prod.mk.inj (Prod.mk.inj hsame).2).2
        | again m' =>
            rw [hrun] at hsame
            have hfinal : m'.reader = m₁.reader := (Prod.mk.inj hsame).1
            exact ⟨m', rfl, by rw [hfinal, hreader]; exact hdone⟩
  · intro m' hrun hdone
    have hplain := ShMachine.feedRecords_taken sha hrun
    obtain ⟨m₁, hbytes, hreader, hmem⟩ := feedRecords_again hplain hrun
    have hreads : ShReader.Reads m.reader.init (bytesOf recs) m₁.reader :=
      ⟨feed_init_reader hbytes, by rw [hreader]; exact hdone⟩
    obtain ⟨msg, hmsg, -, hfinal⟩ := (reads_iff m.reader m₁.reader (bytesOf recs)).1 hreads
    have hplaced := placed_of_done hbytes hfinal
    refine ⟨msg, hmsg, ?_, ?_, ?_, ?_⟩
    · rw [← hreader]
      exact hplaced.group
    · rw [← hmem]
      exact hplaced.serverRandom
    · rw [← hmem]
      exact hplaced.certBuf
    · rw [← hmem]
      exact hplaced.serverPubkey
  · intro hplain recs' hplain' hbytes
    rw [verdict_feedRecords hplain, verdict_feedRecords hplain', hbytes]
  · have hall := feedRecords_confined sha recs (ShMachine.init_running m)
    cases hrun : m.init.feedRecords sha recs with
    | leave m' =>
        rw [hrun] at hall
        exact hall
    | again m' =>
        rw [hrun] at hall
        exact hall
  · intro _ as b bs r _ hrun hlive
    have hcounts := feed_counts as (init_counts m.reader)
    rw [hrun] at hcounts
    exact Counts.pos hcounts hlive
  · intro m' hrun hne
    have hplain := ShMachine.feedRecords_taken sha hrun
    have hfold : m'.transcript = tlsTranscriptUpdate sha m.init.transcript (bytesOf recs) :=
      ShMachine.feedRecords_transcript sha hplain hrun hne
    exact hfold

end Tls
end C64Https
