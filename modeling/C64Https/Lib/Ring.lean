import Mathlib.Tactic

/-!
# Ring — a queue in a ring of fixed size

A ring of `n` cells with a cursor for the producer and one for the consumer holds at most `n - 1`
elements: equal cursors are the empty ring.  `contents` is the queue it stands for.

* `contents_push`, `pop_eq` — one element in at the back, one out at the front;
* `fill_fst` — elements stored up to the one that finds the ring full.
-/

namespace C64Https
namespace Queue

universe u

/-- The cursors are within the ring. -/
structure Ring (β : Type u) (n : Nat) where
  cells : Nat → β
  head : Nat
  tail : Nat
  head_lt : head < n
  tail_lt : tail < n

variable {β : Type u} {n : Nat}

theorem Ring.pos (r : Ring β n) : 0 < n :=
  Nat.zero_lt_of_lt r.head_lt

/-! ## Occupancy -/

def Ring.length (r : Ring β n) : Nat :=
  (r.tail + n - r.head) % n

/-- The elements that there is room for. -/
def Ring.room (r : Ring β n) : Nat :=
  n - 1 - r.length

def Ring.isFull (r : Ring β n) : Bool :=
  decide ((r.tail + 1) % n = r.head)

def Ring.isEmpty (r : Ring β n) : Bool :=
  decide (r.head = r.tail)

theorem Ring.length_lt (r : Ring β n) : r.length < n :=
  Nat.mod_lt _ r.pos

/-- The cursors in terms of the occupancy. -/
theorem Ring.length_cases (r : Ring β n) :
    (r.head + r.length < n ∧ r.tail = r.head + r.length) ∨
      (n ≤ r.head + r.length ∧ r.tail + n = r.head + r.length) := by
  have hhead := r.head_lt
  have htail := r.tail_lt
  unfold Ring.length
  rcases Nat.lt_or_ge r.tail r.head with hlt | hge
  · rw [Nat.mod_eq_of_lt (by omega)]
    omega
  · have hsplit : r.tail + n - r.head = (r.tail - r.head) + n := by
      omega
    rw [hsplit, Nat.add_mod_right, Nat.mod_eq_of_lt (by omega)]
    omega

/-- The producer's cursor is `length` cells behind the consumer's. -/
theorem Ring.tail_eq (r : Ring β n) : r.tail = (r.head + r.length) % n := by
  have htail := r.tail_lt
  rcases r.length_cases with ⟨hlt, heq⟩ | ⟨hge, heq⟩
  · rw [Nat.mod_eq_of_lt hlt]
    exact heq
  · rw [← heq, Nat.add_mod_right, Nat.mod_eq_of_lt htail]

/-- The occupancy, from cursors that are `k` cells apart. -/
theorem Ring.length_of_apart (r : Ring β n) {k : Nat} (hk : k < n)
    (happart : r.tail = (r.head + k) % n) : r.length = k := by
  have hhead := r.head_lt
  have hlen := r.length_lt
  have htail := r.tail_eq
  rw [happart] at htail
  have hsame : k % n = r.length % n :=
    Nat.ModEq.add_left_cancel' r.head (htail : r.head + k ≡ r.head + r.length [MOD n])
  rw [Nat.mod_eq_of_lt hk, Nat.mod_eq_of_lt hlen] at hsame
  exact hsame.symm

theorem Ring.isEmpty_iff (r : Ring β n) : r.isEmpty = true ↔ r.length = 0 := by
  unfold Ring.isEmpty
  rw [decide_eq_true_iff]
  have hhead := r.head_lt
  rcases r.length_cases with ⟨hlt, heq⟩ | ⟨hge, heq⟩
  · omega
  · have htail := r.tail_lt
    have hlen := r.length_lt
    omega

theorem Ring.isFull_iff (r : Ring β n) : r.isFull = true ↔ r.room = 0 := by
  have hhead := r.head_lt
  have htail := r.tail_lt
  have hlen := r.length_lt
  unfold Ring.isFull Ring.room
  rw [decide_eq_true_iff]
  have hnext : (r.tail + 1) % n = if r.tail + 1 = n then 0 else r.tail + 1 := by
    split
    case isTrue hwrap => rw [hwrap, Nat.mod_self]
    case isFalse hno => exact Nat.mod_eq_of_lt (by omega)
  rw [hnext]
  rcases r.length_cases with ⟨hlt, heq⟩ | ⟨hge, heq⟩
  · split
    case isTrue => omega
    case isFalse => omega
  · split
    case isTrue => omega
    case isFalse => omega

/-- The room, as a producer gets it from the cursors. -/
theorem Ring.room_eq (r : Ring β n) : r.room = (r.head + n - r.tail + (n - 1)) % n := by
  have hhead := r.head_lt
  have htail := r.tail_lt
  have hlen := r.length_lt
  unfold Ring.room
  have hreduce : ∀ k j : Nat, k < n → j = k + n → j % n = k := by
    intro k j hk hj
    rw [hj, Nat.add_mod_right, Nat.mod_eq_of_lt hk]
  rcases r.length_cases with ⟨hlt, heq⟩ | ⟨hge, heq⟩
  · rcases Nat.eq_zero_or_pos r.length with hzero | hpos
    · symm
      exact hreduce _ _ (by omega) (by omega)
    · rw [Nat.mod_eq_sub_mod (by omega), Nat.mod_eq_of_lt (by omega)]
      omega
  · symm
    rw [Nat.mod_eq_sub_mod (by omega)]
    exact hreduce _ _ (by omega) (by omega)

/-! ## The queue -/

def Ring.contents (r : Ring β n) : List β :=
  (List.range r.length).map fun i => r.cells ((r.head + i) % n)

@[simp] theorem Ring.length_contents (r : Ring β n) : r.contents.length = r.length := by
  simp [Ring.contents]

theorem Ring.contents_eq_nil_iff (r : Ring β n) : r.contents = [] ↔ r.isEmpty = true := by
  rw [r.isEmpty_iff, ← List.length_eq_zero_iff, r.length_contents]

/-- One element in at the back. -/
def Ring.push (r : Ring β n) (b : β) : Ring β n where
  cells := Function.update r.cells r.tail b
  head := r.head
  tail := (r.tail + 1) % n
  head_lt := r.head_lt
  tail_lt := Nat.mod_lt _ r.pos

/-- One element out at the front. -/
def Ring.pop (r : Ring β n) : Option (β × Ring β n) :=
  if r.isEmpty then none
  else some (r.cells r.head,
    { r with
      head := (r.head + 1) % n
      head_lt := Nat.mod_lt _ r.pos })

/-- Cells less than a turn apart are different cells. -/
theorem cell_ne {head i j : Nat} (hij : i < j) (hj : j < n) : (head + i) % n ≠ (head + j) % n := by
  intro hsame
  have hmod : i % n = j % n :=
    Nat.ModEq.add_left_cancel' head (hsame : head + i ≡ head + j [MOD n])
  rw [Nat.mod_eq_of_lt (by omega), Nat.mod_eq_of_lt hj] at hmod
  omega

theorem Ring.length_push (r : Ring β n) (b : β) (hroom : 0 < r.room) :
    (r.push b).length = r.length + 1 := by
  have hlt : r.length + 1 < n := by
    unfold Ring.room at hroom
    omega
  refine (r.push b).length_of_apart hlt ?_
  show (r.tail + 1) % n = (r.head + (r.length + 1)) % n
  rw [r.tail_eq, Nat.mod_add_mod, Nat.add_assoc]

theorem Ring.contents_push (r : Ring β n) (b : β) (hroom : 0 < r.room) :
    (r.push b).contents = r.contents ++ [b] := by
  have hlen := r.length_push b hroom
  have hlt := (r.push b).length_lt
  rw [hlen] at hlt
  unfold Ring.contents
  rw [hlen, List.range_succ, List.map_append]
  congr 1
  · refine List.map_congr_left ?_
    intro i hi
    rw [List.mem_range] at hi
    -- the new cell is not one of the old ones
    show Function.update r.cells r.tail b ((r.head + i) % n) = r.cells ((r.head + i) % n)
    rw [Function.update_of_ne]
    rw [r.tail_eq]
    exact cell_ne hi (by omega)
  · show [Function.update r.cells r.tail b ((r.head + r.length) % n)] = [b]
    rw [← r.tail_eq, Function.update_self]

theorem Ring.room_push (r : Ring β n) (b : β) (hroom : 0 < r.room) :
    (r.push b).room = r.room - 1 := by
  unfold Ring.room at hroom ⊢
  rw [r.length_push b hroom]
  omega

/-- A pop is one of the queue. -/
theorem Ring.pop_eq (r : Ring β n) :
    (r.contents = [] ∧ r.pop = none) ∨
      ∃ b bs r', r.contents = b :: bs ∧ r.pop = some (b, r') ∧ r'.contents = bs := by
  cases hempty : r.isEmpty with
  | true =>
      refine Or.inl ⟨r.contents_eq_nil_iff.2 hempty, ?_⟩
      unfold Ring.pop
      rw [if_pos hempty]
  | false =>
      have hpos : 0 < r.length := by
        rw [Nat.pos_iff_ne_zero]
        intro hzero
        rw [r.isEmpty_iff.2 hzero] at hempty
        cases hempty
      have hlen := r.length_lt
      let r' : Ring β n :=
        { r with
          head := (r.head + 1) % n
          head_lt := Nat.mod_lt _ r.pos }
      have hlen' : r'.length = r.length - 1 := by
        refine r'.length_of_apart (by omega) ?_
        show r.tail = ((r.head + 1) % n + (r.length - 1)) % n
        rw [Nat.mod_add_mod, r.tail_eq]
        congr 1
        omega
      refine Or.inr ⟨r.cells r.head, r'.contents, r', ?_, ?_, rfl⟩
      · have hsucc : r.length = r'.length + 1 := by
          omega
        unfold Ring.contents
        rw [hsucc, List.range_succ_eq_map, List.map_cons, List.map_map]
        congr 1
        · rw [Nat.add_zero, Nat.mod_eq_of_lt r.head_lt]
        · refine List.map_congr_left ?_
          intro i _
          show r.cells ((r.head + (i + 1)) % n) = r.cells (((r.head + 1) % n + i) % n)
          rw [Nat.mod_add_mod, Nat.add_assoc, Nat.add_comm 1 i]
      · unfold Ring.pop
        rw [if_neg (by rw [hempty]; decide)]

/-! ## Many at once -/

/-- Elements stored up to the one that finds the ring full, and what is left of them. -/
def Ring.fill : Ring β n → List β → Ring β n × List β
  | r, [] => (r, [])
  | r, b :: bs => if r.isFull then (r, b :: bs) else (r.push b).fill bs

theorem Ring.fill_spec (bs : List β) :
    ∀ r : Ring β n,
      (r.fill bs).1.contents = r.contents ++ bs.take r.room ∧ (r.fill bs).2 = bs.drop r.room := by
  induction bs with
  | nil =>
      intro r
      unfold Ring.fill
      rw [List.take_nil, List.drop_nil, List.append_nil]
      exact ⟨rfl, rfl⟩
  | cons b bs ih =>
      intro r
      unfold Ring.fill
      split
      case isTrue hfull =>
        rw [r.isFull_iff.1 hfull, List.take_zero, List.drop_zero, List.append_nil]
        exact ⟨rfl, rfl⟩
      case isFalse hno =>
        have hroom : 0 < r.room := by
          rw [Nat.pos_iff_ne_zero]
          exact fun hzero => hno (r.isFull_iff.2 hzero)
        obtain ⟨hcontents, hrest⟩ := ih (r.push b)
        rw [hcontents, hrest, r.contents_push b hroom, r.room_push b hroom]
        obtain ⟨k, hk⟩ := Nat.exists_eq_succ_of_ne_zero (Nat.pos_iff_ne_zero.1 hroom)
        rw [hk]
        simp

theorem Ring.fill_fst (r : Ring β n) (bs : List β) :
    (r.fill bs).1.contents = r.contents ++ bs.take r.room :=
  (Ring.fill_spec bs r).1

/-- The empty ring. -/
def Ring.reset (r : Ring β n) : Ring β n :=
  { r with
    head := 0
    tail := 0
    head_lt := r.pos
    tail_lt := r.pos }

@[simp] theorem Ring.contents_reset (r : Ring β n) : r.reset.contents = [] := by
  rw [Ring.contents_eq_nil_iff]
  exact decide_eq_true rfl

end Queue
end C64Https
