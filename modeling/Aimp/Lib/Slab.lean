import Mathlib.Data.Finset.Card
import Mathlib.Data.List.Basic

/-!
# Slabs

A slab is a growable array of slots, each occupied or vacant. Inserting a value takes a vacant slot
(a new one at the end when there is none) and returns its index, which stays valid until the slot is
removed. Which vacant slot is taken is an implementation detail: here it is the first one. What all slabs
have in common is `Slab.Ops.Lawful`.
-/

/-- A growable array of slots; `none` is a vacant slot. -/
structure Slab (α : Type*) where
  slots : List (Option α)

namespace Slab

variable {α : Type*}

/-- The empty slab. -/
def empty : Slab α := ⟨[]⟩

/-- The value in slot `i`, if it is occupied. -/
def get (s : Slab α) (i : ℕ) : Option α := s.slots[i]?.join

/-- The index the next inserted value goes to: the first vacant slot, or one past the end. -/
def vacantKey (s : Slab α) : ℕ := s.slots.findIdx (·.isNone)

/-- Occupy the next vacant slot with `v`, and return its index. -/
def insert (s : Slab α) (v : α) : Slab α × ℕ :=
  let i := s.vacantKey
  (⟨if i < s.slots.length then s.slots.set i (some v) else s.slots ++ [some v]⟩, i)

/-- Vacate slot `i`. -/
def remove (s : Slab α) (i : ℕ) : Slab α := ⟨s.slots.set i none⟩

@[simp] theorem get_empty (i : ℕ) : (empty : Slab α).get i = none := by simp [get, empty]

/-- The slot the next value goes to is vacant. -/
@[simp] theorem get_vacantKey (s : Slab α) : s.get s.vacantKey = none := by
  unfold get vacantKey
  by_cases h : s.slots.findIdx (·.isNone) < s.slots.length
  · have hv := List.findIdx_getElem (w := h)
    rw [List.getElem?_eq_getElem h]
    simpa using hv
  · rw [List.getElem?_eq_none (by omega)]
    rfl

@[simp] theorem insert_snd (s : Slab α) (v : α) : (s.insert v).2 = s.vacantKey := rfl

/-- Insertion changes one slot only. -/
theorem get_insert (s : Slab α) (v : α) (i : ℕ) :
    (s.insert v).1.get i = if i = s.vacantKey then some v else s.get i := by
  have hle : s.vacantKey ≤ s.slots.length := List.findIdx_le_length
  unfold insert get
  dsimp only
  by_cases h : s.vacantKey < s.slots.length
  · rw [if_pos h, List.getElem?_set]
    by_cases hi : i = s.vacantKey
    · subst hi; simp [h]
    · rw [if_neg (Ne.symm hi), if_neg hi]
  · have heq : s.vacantKey = s.slots.length := by omega
    rw [if_neg h, List.getElem?_append]
    by_cases hi : i = s.vacantKey
    · subst hi; simp [heq]
    · rw [if_neg hi]
      by_cases hlt : i < s.slots.length
      · rw [if_pos hlt]
      · have : i - s.slots.length ≠ 0 := by omega
        rw [if_neg hlt, List.getElem?_eq_none (l := s.slots) (by omega),
          List.getElem?_eq_none (by simp; omega)]

/-- Removal changes one slot only. -/
theorem get_remove (s : Slab α) (i j : ℕ) :
    (s.remove i).get j = if j = i then none else s.get j := by
  unfold remove get
  dsimp only
  rw [List.getElem?_set]
  by_cases h : j = i
  · subst h
    by_cases hj : j < s.slots.length <;> simp [hj]
  · rw [if_neg (Ne.symm h), if_neg h]

/-- The indices of the occupied slots. -/
def occupied (s : Slab α) : List ℕ := (List.range s.slots.length).filter fun i => (s.get i).isSome

theorem mem_occupied {s : Slab α} {i : ℕ} : i ∈ s.occupied ↔ (s.get i).isSome := by
  unfold occupied
  rw [List.mem_filter, List.mem_range, and_iff_right_iff_imp]
  intro h
  by_contra hle
  unfold get at h
  rw [List.getElem?_eq_none (not_lt.mp hle)] at h
  cases h

theorem nodup_occupied (s : Slab α) : s.occupied.Nodup := List.nodup_range.filter _

/-! ## Any slab -/

variable {σ : Type*}

/-- The operations of a slab. An index expression panics on a slot that `get` finds vacant, and `remove`
panics with `none`. -/
structure Ops (σ α : Type*) where
  empty : σ
  get : σ → ℕ → Option α
  insert : σ → α → σ × ℕ
  remove : σ → ℕ → Option σ
  clear : σ → σ
  len : σ → ℕ

/-- What every slab promises. -/
structure Ops.Lawful (S : Ops σ α) : Prop where
  get_empty : ∀ i, S.get S.empty i = none
  get_vacant : ∀ s v, S.get s (S.insert s v).2 = none
  get_insert : ∀ s v i, S.get (S.insert s v).1 i = if i = (S.insert s v).2 then some v else S.get s i
  remove_isSome : ∀ s i, (S.remove s i).isSome = (S.get s i).isSome
  get_remove : ∀ s s' i j, S.remove s i = some s' → S.get s' j = if j = i then none else S.get s j
  get_clear : ∀ s i, S.get (S.clear s) i = none
  len_eq : ∀ s (occupied : Finset ℕ), (∀ i, i ∈ occupied ↔ (S.get s i).isSome) →
    S.len s = occupied.card

/-- The slab that takes the first vacant slot. -/
def ops (α : Type*) : Ops (Slab α) α where
  empty := empty
  get := get
  insert := insert
  remove s i := if (s.get i).isSome then some (s.remove i) else none
  clear _ := empty
  len s := s.occupied.length

theorem lawful_ops (α : Type*) : (ops α).Lawful where
  get_empty := get_empty
  get_vacant s v := s.get_vacantKey
  get_insert s v i := s.get_insert v i
  remove_isSome s i := by
    show (if (s.get i).isSome then some (s.remove i) else none).isSome = (s.get i).isSome
    cases (s.get i).isSome <;> rfl
  get_remove s s' i j h := by
    obtain ⟨-, h⟩ := Option.ite_none_right_eq_some.mp h
    obtain rfl := Option.some.inj h
    exact s.get_remove i j
  get_clear s i := get_empty i
  len_eq s occupied h := by
    show s.occupied.length = occupied.card
    have heq : occupied = s.occupied.toFinset := by
      ext i
      rw [h, List.mem_toFinset, mem_occupied]
      rfl
    rw [heq, List.toFinset_card_of_nodup s.nodup_occupied]

end Slab
