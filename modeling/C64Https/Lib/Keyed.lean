import Mathlib.Data.Finmap

/-!
# Keyed — a list of entries with keys, as a finite map

The entries of a table stand in a list, and an entry's key is part of it.  Finding a key takes the first
entry that has it; putting an entry takes the place of the one with its key, or the place behind the last.
With distinct keys the list is a finite map, where the two are the lookup and the insertion
(`lookup_toFinmap`, `toFinmap_put`), and its length is the map's size (`card_keys_toFinmap`).
-/

namespace C64Https
namespace Keyed

variable {ρ κ : Type} [DecidableEq κ] (key : ρ → κ)

def find (k : κ) (l : List ρ) : Option ρ :=
  l.find? fun r => key r = k

def put (k : κ) (r : ρ) : List ρ → List ρ
  | [] => [r]
  | x :: xs => if key x = k then r :: xs else x :: put k r xs

/-! ## Finding -/

section Find

variable {key} {k : κ}

@[simp] theorem find_nil : find key k [] = none :=
  rfl

theorem find_cons_of_eq {x : ρ} (h : key x = k) (xs : List ρ) : find key k (x :: xs) = some x :=
  List.find?_cons_of_pos (decide_eq_true h)

theorem find_cons_of_ne {x : ρ} (h : key x ≠ k) (xs : List ρ) :
    find key k (x :: xs) = find key k xs :=
  List.find?_cons_of_neg (by simpa using h)

/-- A key is found exactly when an entry has it. -/
theorem isSome_find (l : List ρ) : (find key k l).isSome = true ↔ k ∈ l.map key := by
  unfold find
  rw [List.find?_isSome, List.mem_map]
  constructor
  · rintro ⟨x, hx, hkey⟩
    exact ⟨x, hx, by simpa using hkey⟩
  · rintro ⟨x, hx, hkey⟩
    exact ⟨x, hx, by simpa using hkey⟩

end Find

/-! ## Putting -/

section Put

variable {key} {k : κ} {r : ρ}

theorem find_put_self (hr : key r = k) (l : List ρ) : find key k (put key k r l) = some r := by
  induction l with
  | nil => exact find_cons_of_eq hr []
  | cons x xs ih =>
      unfold put
      split
      case isTrue => exact find_cons_of_eq hr xs
      case isFalse hne => rw [find_cons_of_ne hne, ih]

/-- The entries of the other keys are as they were. -/
theorem find_put_of_ne (hr : key r = k) {k' : κ} (hk : k' ≠ k) (l : List ρ) :
    find key k' (put key k r l) = find key k' l := by
  have hr' : key r ≠ k' := fun h => hk (h.symm.trans hr)
  induction l with
  | nil => exact find_cons_of_ne hr' []
  | cons x xs ih =>
      unfold put
      split
      case isTrue hx =>
        have hx' : key x ≠ k' := fun h => hk (h.symm.trans hx)
        rw [find_cons_of_ne hr', find_cons_of_ne hx']
      case isFalse =>
        by_cases hx : key x = k'
        · rw [find_cons_of_eq hx, find_cons_of_eq hx]
        · rw [find_cons_of_ne hx, find_cons_of_ne hx, ih]

/-- The keys keep their order, and a new one comes last. -/
theorem map_put (hr : key r = k) (l : List ρ) :
    (put key k r l).map key = if k ∈ l.map key then l.map key else l.map key ++ [k] := by
  induction l with
  | nil =>
      have hnil : k ∉ ([] : List ρ).map key := List.not_mem_nil
      rw [if_neg hnil, put, List.map_singleton, hr]
      rfl
  | cons x xs ih =>
      unfold put
      split
      case isTrue hx =>
        have hmem : k ∈ (x :: xs).map key := by
          rw [List.map_cons, hx]
          exact List.mem_cons_self
        rw [if_pos hmem, List.map_cons, List.map_cons, hr, hx]
      case isFalse hx =>
        have hiff : k ∈ (x :: xs).map key ↔ k ∈ xs.map key := by
          rw [List.map_cons, List.mem_cons]
          exact ⟨fun h => h.resolve_left (Ne.symm hx), Or.inr⟩
        rw [List.map_cons, ih]
        by_cases hmem : k ∈ xs.map key
        · rw [if_pos hmem, if_pos (hiff.2 hmem), List.map_cons]
        · rw [if_neg hmem, if_neg (fun h => hmem (hiff.1 h)), List.map_cons, List.cons_append]

theorem nodup_put (hr : key r = k) {l : List ρ} (h : (l.map key).Nodup) :
    ((put key k r l).map key).Nodup := by
  rw [map_put hr]
  split
  case isTrue => exact h
  case isFalse hmem =>
    rw [List.nodup_append]
    refine ⟨h, List.nodup_singleton k, ?_⟩
    intro a ha b hb hab
    rw [List.mem_singleton] at hb
    exact hmem (hb ▸ hab ▸ ha)

theorem length_put (hr : key r = k) (l : List ρ) :
    (put key k r l).length = if k ∈ l.map key then l.length else l.length + 1 := by
  have hkeys := congrArg List.length (map_put hr l)
  rw [List.length_map] at hkeys
  rw [hkeys]
  split
  · exact List.length_map _
  · rw [List.length_append, List.length_map, List.length_singleton]

theorem mem_of_mem_put {x : ρ} {l : List ρ} (h : x ∈ put key k r l) : x = r ∨ x ∈ l := by
  induction l with
  | nil => exact Or.inl (List.mem_singleton.1 h)
  | cons y ys ih =>
      unfold put at h
      split at h
      case isTrue =>
        rcases List.mem_cons.1 h with hx | hx
        · exact Or.inl hx
        · exact Or.inr (List.mem_cons_of_mem y hx)
      case isFalse =>
        rcases List.mem_cons.1 h with hx | hx
        · exact Or.inr (hx ▸ List.mem_cons_self)
        · exact (ih hx).imp_right (List.mem_cons_of_mem y)

end Put

/-! ## The finite map -/

section Map

variable {key} {k : κ} {r : ρ}

def toFinmap (key : ρ → κ) (l : List ρ) : Finmap fun _ : κ => ρ :=
  List.toFinmap (l.map fun r => ⟨key r, r⟩)

@[simp] theorem lookup_toFinmap (l : List ρ) : (toFinmap key l).lookup k = find key k l := by
  unfold toFinmap
  rw [Finmap.dlookup_list_toFinmap]
  induction l with
  | nil => rfl
  | cons x xs ih =>
      rw [List.map_cons]
      by_cases hx : key x = k
      · subst hx
        rw [List.dlookup_cons_eq, find_cons_of_eq rfl]
      · rw [List.dlookup_cons_ne _ _ (Ne.symm hx), find_cons_of_ne hx]
        exact ih

/-- Putting an entry is the insertion into the map. -/
theorem toFinmap_put (hr : key r = k) (l : List ρ) :
    toFinmap key (put key k r l) = (toFinmap key l).insert k r := by
  refine Finmap.ext_lookup fun k' => ?_
  rw [lookup_toFinmap]
  by_cases hk : k' = k
  · rw [hk, find_put_self hr, Finmap.lookup_insert]
  · rw [find_put_of_ne hr hk, Finmap.lookup_insert_of_ne _ hk, lookup_toFinmap]

theorem mem_toFinmap (l : List ρ) : k ∈ toFinmap key l ↔ k ∈ l.map key := by
  rw [← Finmap.lookup_isSome, lookup_toFinmap, isSome_find]

theorem keys_toFinmap (l : List ρ) : (toFinmap key l).keys = (l.map key).toFinset := by
  ext k
  rw [Finmap.mem_keys, mem_toFinmap, List.mem_toFinset]

/-- With distinct keys the size of the map is the number of entries. -/
theorem card_keys_toFinmap {l : List ρ} (h : (l.map key).Nodup) :
    (toFinmap key l).keys.card = l.length := by
  rw [keys_toFinmap, List.toFinset_card_of_nodup h, List.length_map]

@[simp] theorem toFinmap_nil : toFinmap key [] = ∅ :=
  Finmap.toFinmap_nil

end Map

end Keyed
end C64Https
