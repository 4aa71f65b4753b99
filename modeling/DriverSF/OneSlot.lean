import Mathlib.Data.List.Perm.Basic
import Mathlib.Data.List.Nodup
import Mathlib.Data.List.Range

/-- A mailbox that holds at most one message. Messages are numbered in the order in
which they are posted; each pair of `replaced` is a message and the one that displaced it. -/
structure OneSlot (μ : Type*) where
  posted : List μ
  slot : Option Nat
  taken : List Nat
  replaced : List (Nat × Nat)

namespace OneSlot

variable {μ : Type*} {b b' : OneSlot μ}

def post (b : OneSlot μ) (m : μ) : OneSlot μ where
  posted := b.posted ++ [m]
  slot := some b.posted.length
  taken := b.taken
  replaced := (b.slot.map fun i => (i, b.posted.length)).toList ++ b.replaced

def take (b : OneSlot μ) (i : Nat) : OneSlot μ :=
  { b with slot := none, taken := i :: b.taken }

inductive Move : OneSlot μ → OneSlot μ → Prop
  | post (b : OneSlot μ) (m : μ) : Move b (b.post m)
  | take {b : OneSlot μ} {i : Nat} : b.slot = some i → Move b (b.take i)

def places (b : OneSlot μ) : List Nat :=
  b.slot.toList ++ b.taken ++ b.replaced.map Prod.fst

/-- Every posted message is in exactly one place, and only later messages displace. -/
structure Law (b : OneSlot μ) : Prop where
  accounted : b.places.Perm (List.range b.posted.length)
  later : ∀ p ∈ b.replaced, p.1 < p.2

theorem law_empty : (⟨[], none, [], []⟩ : OneSlot μ).Law :=
  ⟨by simp [places], by simp⟩

theorem Law.mem_places (h : b.Law) {i : Nat} : i ∈ b.places ↔ i < b.posted.length := by
  rw [h.accounted.mem_iff, List.mem_range]

theorem Law.slot_lt (h : b.Law) {i : Nat} (hi : b.slot = some i) : i < b.posted.length :=
  h.mem_places.mp (by simp [places, hi])

theorem Law.taken_lt (h : b.Law) {i : Nat} (hi : i ∈ b.taken) : i < b.posted.length :=
  h.mem_places.mp (by simp [places, hi])

theorem Law.taken_nodup (h : b.Law) : b.taken.Nodup := by
  have distinct : b.places.Nodup := h.accounted.nodup_iff.mpr List.nodup_range
  exact (List.nodup_append.mp (List.nodup_append.mp distinct).1).2.1

theorem Law.located (h : b.Law) {i : Nat} (hi : i < b.posted.length) :
    b.slot = some i ∨ i ∈ b.taken ∨ ∃ j, (i, j) ∈ b.replaced ∧ i < j := by
  have place := h.mem_places.mpr hi
  simp only [places, List.mem_append, Option.mem_toList, List.mem_map, Prod.exists] at place
  rcases place with (slot | taken) | ⟨k, j, mem, eq⟩
  · exact Or.inl slot
  · exact Or.inr (Or.inl taken)
  · cases eq
    exact Or.inr (Or.inr ⟨j, mem, h.later _ mem⟩)

theorem Law.post (h : b.Law) (m : μ) : (b.post m).Law := by
  refine ⟨?_, ?_⟩
  · have moved : (b.post m).places.Perm (b.posted.length :: b.places) := by
      cases hs : b.slot with
      | none => simp [places, OneSlot.post, hs]
      | some i =>
        simp only [places, OneSlot.post, hs, Option.toList_some, Option.map_some, List.map_cons,
          List.cons_append, List.nil_append]
        exact List.Perm.cons _ List.perm_middle
    have grown : (b.post m).posted.length = b.posted.length + 1 := by simp [OneSlot.post]
    rw [grown, List.range_succ]
    exact moved.trans ((h.accounted.cons _).trans (List.perm_append_singleton _ _).symm)
  · intro p hp
    rcases List.mem_append.mp hp with new | old
    · obtain ⟨i, hi, rfl⟩ := Option.map_eq_some_iff.mp (Option.mem_toList.mp new)
      exact h.slot_lt hi
    · exact h.later p old

theorem Law.take (h : b.Law) {i : Nat} (hi : b.slot = some i) : (b.take i).Law := by
  refine ⟨?_, h.later⟩
  have same : (b.take i).places = b.places := by simp [places, OneSlot.take, hi]
  rw [same]
  exact h.accounted

end OneSlot
