import Mathlib.Data.List.AList

/-!
# Hash maps

A hash map is an association list without duplicate keys; its entries stand in the order in which the
map is iterated over.
-/

namespace Aimp

/-- A hash map, with its entries in the order in which it is iterated over. -/
abbrev HashMap (κ ν : Type) := AList fun _ : κ => ν

namespace HashMap

variable {κ ν : Type}

/-- The number of entries. -/
def len (m : HashMap κ ν) : ℕ := m.entries.length

/-- Keep the entries that satisfy `p`. -/
def retain (p : κ → ν → Bool) (m : HashMap κ ν) : HashMap κ ν :=
  ⟨m.entries.filter fun e => p e.1 e.2, m.nodupKeys.sublist List.filter_sublist⟩

/-- Replace every value. -/
def mapValues (f : κ → ν → ν) (m : HashMap κ ν) : HashMap κ ν :=
  ⟨m.entries.map fun e => ⟨e.1, f e.1 e.2⟩, by
    have h := m.nodupKeys
    rw [List.NodupKeys, List.keys] at h ⊢
    rwa [List.map_map]⟩

/-- `entry(k).or_default().push(x)`. -/
def push {α : Type} [DecidableEq κ] (m : HashMap κ (List α)) (k : κ) (x : α) :
    HashMap κ (List α) :=
  m.insert k ((m.lookup k).getD [] ++ [x])

/-- The order of iteration is left to the implementation: an order for every map. -/
structure IterOrder (κ ν : Type) where
  of : HashMap κ ν → HashMap κ ν
  perm : ∀ m, (of m).entries.Perm m.entries

/-- The order of the entries themselves. -/
def IterOrder.id (κ ν : Type) : IterOrder κ ν := ⟨fun m => m, fun _ => .refl _⟩

theorem lookup_retain [DecidableEq κ] {p : κ → ν → Bool} {m : HashMap κ ν} {k : κ} {v : ν} :
    (m.retain p).lookup k = some v ↔ m.lookup k = some v ∧ p k v = true := by
  show v ∈ (m.retain p).lookup k ↔ v ∈ m.lookup k ∧ _
  rw [AList.mem_lookup_iff, AList.mem_lookup_iff]
  exact List.mem_filter

/-! ## The number of entries -/

theorem length_keys (m : HashMap κ ν) : m.keys.length = m.len := List.length_map _

theorem len_insert [DecidableEq κ] (m : HashMap κ ν) (k : κ) (v : ν) :
    len (m.insert k v) = if k ∈ m then m.len else m.len + 1 := by
  rw [← length_keys, AList.keys_insert, List.length_cons, List.length_erase, length_keys]
  by_cases h : k ∈ m
  · have hpos : 0 < m.len := by
      rw [← length_keys]
      exact List.length_pos_of_mem (AList.mem_keys.mp h)
    rw [if_pos h, if_pos (AList.mem_keys.mp h)]
    omega
  · rw [if_neg h, if_neg fun hmem => h (AList.mem_keys.mpr hmem)]

theorem len_erase [DecidableEq κ] {m : HashMap κ ν} {k : κ} (h : k ∈ m) :
    len (m.erase k) = m.len - 1 := by
  rw [← length_keys, AList.keys_erase, List.length_erase_of_mem (AList.mem_keys.mp h), length_keys]

theorem len_retain_le (p : κ → ν → Bool) (m : HashMap κ ν) : (m.retain p).len ≤ m.len :=
  List.length_filter_le ..

theorem retain_eq_self {p : κ → ν → Bool} {m : HashMap κ ν}
    (h : ∀ e ∈ m.entries, p e.1 e.2 = true) : m.retain p = m :=
  AList.ext (List.filter_eq_self.mpr h)

theorem lookup_push {α : Type} [DecidableEq κ] (m : HashMap κ (List α)) (k k' : κ) (x : α) :
    ((m.push k x).lookup k').getD [] = (m.lookup k').getD [] ++ if k' = k then [x] else [] := by
  unfold push
  by_cases h : k' = k
  · subst h
    rw [AList.lookup_insert, if_pos rfl]
    rfl
  · rw [AList.lookup_insert_ne h, if_neg h, List.append_nil]

theorem lookup_mapValues [DecidableEq κ] (f : κ → ν → ν) (m : HashMap κ ν) (k : κ) :
    (m.mapValues f).lookup k = (m.lookup k).map (f k) := by
  ext x
  show x ∈ (m.mapValues f).lookup k ↔ (m.lookup k).map (f k) = some x
  rw [AList.mem_lookup_iff, Option.map_eq_some_iff]
  constructor
  · intro h
    obtain ⟨e, he, heq⟩ := List.mem_map.mp h
    cases heq
    exact ⟨e.2, AList.mem_lookup_iff.mpr he, rfl⟩
  · rintro ⟨y, hy, rfl⟩
    exact List.mem_map.mpr ⟨⟨k, y⟩, AList.mem_lookup_iff.mp hy, rfl⟩

/-- The entry of a key after a list of updates is made by the updates to that key. -/
theorem lookup_foldl_insert {α : Type} [DecidableEq κ] (key : α → κ) (f : α → Option ν → ν)
    (l : List α) (m : HashMap κ ν) (k : κ) :
    (l.foldl (fun m x => m.insert (key x) (f x (m.lookup (key x)))) m).lookup k =
      (l.filter fun x => key x = k).foldl (fun v x => some (f x v)) (m.lookup k) := by
  induction l generalizing m with
  | nil => rfl
  | cons x l ih =>
    rw [List.foldl_cons, ih, List.filter_cons]
    by_cases h : key x = k
    · subst h
      rw [if_pos (decide_eq_true rfl), List.foldl_cons, AList.lookup_insert]
    · rw [if_neg (by simpa using h), AList.lookup_insert_ne (Ne.symm h)]

theorem lookup_foldl_push {α β : Type} [DecidableEq κ] (key : α → κ) (f : α → β) (l : List α)
    (k : κ) :
    (l.foldl (fun m x => m.push (key x) (f x)) (∅ : HashMap κ (List β))).lookup k =
      if (l.filter fun x => key x = k).isEmpty then none
      else some ((l.filter fun x => key x = k).map f) := by
  have h := lookup_foldl_insert key (fun x v => v.getD [] ++ [f x]) l ∅ k
  unfold push
  rw [h]
  -- every update to the key appends to what is there
  generalize l.filter (fun x => decide (key x = k)) = xs
  cases xs with
  | nil => rfl
  | cons x xs =>
    have happend : ∀ (ys : List α) (init : List β),
        ys.foldl (fun v x => some (v.getD [] ++ [f x])) (some init) = some (init ++ ys.map f) := by
      intro ys
      induction ys with
      | nil => intro init; simp
      | cons y ys ih =>
        intro init
        rw [List.foldl_cons, Option.getD_some, ih, List.append_assoc]
        rfl
    exact happend xs [f x]

/-- Updating a map by the entries of another one. -/
theorem lookup_foldl_entries {α : Type} [DecidableEq κ] (f : κ → α → Option ν → ν)
    (m : HashMap κ α) (start : HashMap κ ν) (k : κ) :
    (m.entries.foldl (fun t e => t.insert e.1 (f e.1 e.2 (t.lookup e.1))) start).lookup k =
      (m.lookup k).elim (start.lookup k) fun x => some (f k x (start.lookup k)) := by
  rw [lookup_foldl_insert (fun e : Sigma fun _ : κ => α => e.1) (fun e v => f e.1 e.2 v)]
  cases hk : m.lookup k with
  | none =>
    have hnil : (m.entries.filter fun e => e.1 = k) = [] := by
      rw [List.filter_eq_nil_iff]
      intro e he hek
      obtain ⟨k', x⟩ := e
      obtain rfl : k' = k := by simpa using hek
      rw [AList.mem_lookup_iff.mpr he] at hk
      cases hk
    rw [hnil]
    rfl
  | some x =>
    have hone : (m.entries.filter fun e => e.1 = k) = [⟨k, x⟩] := by
      have hmem := AList.mem_lookup_iff.mp (show x ∈ m.lookup k from hk)
      have hnodup := m.nodupKeys
      clear hk
      generalize m.entries = l at hmem hnodup
      induction l with
      | nil => cases hmem
      | cons e l ih =>
        obtain ⟨hnot, hnodup⟩ := List.nodupKeys_cons.mp hnodup
        rw [List.filter_cons]
        rcases List.mem_cons.mp hmem with rfl | hmem
        · rw [if_pos (decide_eq_true rfl)]
          congr 1
          rw [List.filter_eq_nil_iff]
          intro e he hek
          have hkey : e.1 = k := by simpa using hek
          have hmem := List.mem_keys_of_mem he
          rw [hkey] at hmem
          exact hnot hmem
        · have hne : e.1 ≠ k := by
            intro h
            exact hnot (h ▸ List.mem_keys_of_mem hmem)
          rw [if_neg (by simpa using hne)]
          exact ih hmem hnodup
    rw [hone]
    rfl

end HashMap

end Aimp
