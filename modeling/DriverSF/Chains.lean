import Mathlib.Data.List.Nodup
import Mathlib.Data.List.Perm.Subperm
import Mathlib.Logic.Function.Basic

namespace Chains

variable {next : Nat → Option Nat} {rest : Nat → List Nat} {i j k m n : Nat}

/-- `rest i` is what the links lead to from `i` on, `i` included. -/
def Follows (next : Nat → Option Nat) (rest : Nat → List Nat) : Prop :=
  ∀ i, rest i = i :: (next i).elim [] rest

namespace Follows

theorem of_none (h : Follows next rest) (last : next i = none) : rest i = [i] := by
  rw [h i, last]
  rfl

theorem of_some (h : Follows next rest) (link : next i = some j) : rest i = i :: rest j := by
  rw [h i, link]
  rfl

theorem mem_self (h : Follows next rest) (i : Nat) : i ∈ rest i := by
  rw [h i]
  exact List.mem_cons_self

theorem suffix (h : Follows next rest) (member : j ∈ rest i) : rest j <:+ rest i := by
  induction found : rest i generalizing i with
  | nil =>
    rw [found] at member
    cases member
  | cons x xs ih =>
    have shape := h i
    rw [found] at shape member
    obtain ⟨rfl, tail⟩ := List.cons.inj shape
    rcases List.mem_cons.mp member with rfl | later
    · exact ⟨[], found⟩
    · cases link : next x with
      | none =>
        rw [tail, link] at later
        cases later
      | some y =>
        rw [link, Option.elim_some] at tail
        rw [tail] at later
        exact (ih later tail.symm).trans (List.suffix_cons x xs)

/-- The links do not lead back. -/
theorem antisymm (h : Follows next rest) (first : j ∈ rest i) (second : i ∈ rest j) : i = j := by
  have same := (h.suffix first).eq_of_length_le (h.suffix second).length_le
  rw [h i, h j] at same
  exact (List.cons.inj same).1.symm

theorem not_mem_of_link (h : Follows next rest) (link : next i = some j) : i ∉ rest j := by
  intro back
  have forth : j ∈ rest i := by
    rw [h.of_some link]
    exact List.mem_cons_of_mem i (h.mem_self j)
  have loop := h.antisymm forth back
  subst loop
  have longer := congrArg List.length (h.of_some link)
  rw [List.length_cons] at longer
  omega

theorem nodup (h : Follows next rest) (i : Nat) : (rest i).Nodup := by
  induction found : rest i generalizing i with
  | nil => exact List.nodup_nil
  | cons x xs ih =>
    have shape := h i
    rw [found] at shape
    obtain ⟨rfl, tail⟩ := List.cons.inj shape
    cases link : next x with
    | none =>
      rw [link] at tail
      rw [tail]
      exact List.nodup_singleton x
    | some y =>
      rw [link] at tail
      refine List.nodup_cons.mpr ⟨?_, ih y tail.symm⟩
      rw [tail]
      exact h.not_mem_of_link link

/-- There is no more to meet than there are places. -/
theorem length_le (h : Follows next rest) {size : Nat} (inside : ∀ j ∈ rest i, j < size) :
    (rest i).length ≤ size := by
  have range : rest i ⊆ List.range size := fun j member => List.mem_range.mpr (inside j member)
  have bound := ((h.nodup i).subperm range).length_le
  rwa [List.length_range] at bound

/-- Behind the start everything is linked to from a place before. -/
theorem linked_of_mem (h : Follows next rest) (member : j ∈ rest i) (other : j ≠ i) :
    ∃ p ∈ rest i, next p = some j := by
  induction found : rest i generalizing i with
  | nil =>
    rw [found] at member
    cases member
  | cons x xs ih =>
    have shape := h i
    rw [found] at shape member
    obtain ⟨rfl, tail⟩ := List.cons.inj shape
    have later := (List.mem_cons.mp member).resolve_left other
    cases link : next x with
    | none =>
      rw [tail, link] at later
      cases later
    | some y =>
      rw [link, Option.elim_some] at tail
      rw [tail] at later
      by_cases here : j = y
      · exact ⟨x, List.mem_cons_self, here ▸ link⟩
      · obtain ⟨p, before, linked⟩ := ih later here tail.symm
        exact ⟨p, List.mem_cons_of_mem x before, linked⟩

/-- A search along the links finds a place before all others with the property. -/
theorem mem_of_find (h : Follows next rest) {p : Nat → Bool} (found : (rest i).find? p = some j)
    (member : k ∈ rest i) (good : p k = true) : k ∈ rest j := by
  induction shown : rest i generalizing i with
  | nil =>
    rw [shown] at member
    cases member
  | cons x xs ih =>
    have shape := h i
    rw [shown] at shape
    obtain ⟨rfl, tail⟩ := List.cons.inj shape
    rw [shown] at found
    by_cases first : p x = true
    · rw [List.find?_cons_of_pos first] at found
      cases found
      exact member
    · rw [List.find?_cons_of_neg first] at found
      rw [shown] at member
      rcases List.mem_cons.mp member with rfl | later
      · exact absurd good first
      · cases link : next x with
        | none =>
          rw [tail, link] at later
          cases later
        | some y =>
          rw [link, Option.elim_some] at tail
          rw [tail] at found later
          exact ih found later tail.symm

end Follows

/-- The places with `n` behind `m`. -/
def behind (m n : Nat) (places : List Nat) : List Nat :=
  places.flatMap fun x => if x = m then [m, n] else [x]

theorem behind_cons (x : Nat) (xs : List Nat) :
    behind m n (x :: xs) = (if x = m then [m, n] else [x]) ++ behind m n xs :=
  List.flatMap_cons

theorem behind_of_not_mem {places : List Nat} (out : m ∉ places) : behind m n places = places := by
  induction places with
  | nil => rfl
  | cons x xs ih =>
    obtain ⟨here, later⟩ := not_or.mp fun eq => out (List.mem_cons.mpr eq)
    rw [behind_cons, ih later, if_neg (Ne.symm here)]
    rfl

theorem mem_behind {places : List Nat} :
    j ∈ behind m n places ↔ j ∈ places ∨ (j = n ∧ m ∈ places) := by
  induction places with
  | nil => simp [behind]
  | cons x xs ih =>
    rw [behind_cons, List.mem_append, ih]
    by_cases here : x = m
    · subst here
      rw [if_pos rfl]
      simp only [List.mem_cons, List.not_mem_nil, or_false, true_or, and_true]
      tauto
    · rw [if_neg here]
      simp only [List.mem_cons, List.not_mem_nil, or_false, Ne.symm here, false_or]
      tauto

/-- The places with `n` for `m`. -/
def instead (m n : Nat) (places : List Nat) : List Nat :=
  places.map fun x => if x = m then n else x

theorem instead_of_not_mem {places : List Nat} (out : m ∉ places) :
    instead m n places = places := by
  induction places with
  | nil => rfl
  | cons x xs ih =>
    obtain ⟨here, later⟩ := not_or.mp fun eq => out (List.mem_cons.mpr eq)
    have same := ih later
    unfold instead at same ⊢
    rw [List.map_cons, same, if_neg (Ne.symm here)]

theorem mem_instead {places : List Nat} :
    j ∈ instead m n places ↔ (j ∈ places ∧ j ≠ m) ∨ (j = n ∧ m ∈ places) := by
  unfold instead
  rw [List.mem_map]
  constructor
  · rintro ⟨x, member, rfl⟩
    by_cases here : x = m
    · rw [if_pos here]
      exact Or.inr ⟨rfl, here ▸ member⟩
    · rw [if_neg here]
      exact Or.inl ⟨member, here⟩
  · rintro (⟨member, other⟩ | ⟨rfl, member⟩)
    · exact ⟨j, member, if_neg other⟩
    · exact ⟨m, member, if_pos rfl⟩

namespace Follows

/-- Something new is linked in behind `m`. -/
theorem insert (h : Follows next rest) (fresh : ∀ i, next i ≠ some n) (other : n ≠ m) :
    Follows (Function.update (Function.update next n (next m)) m (some n))
      (Function.update (fun i => behind m n (rest i)) n (n :: (next m).elim [] rest)) := by
  have away : ∀ i, (next i).elim []
      (Function.update (fun i => behind m n (rest i)) n (n :: (next m).elim [] rest)) =
        (next i).elim [] fun j => behind m n (rest j) := by
    intro i
    cases link : next i with
    | none => rfl
    | some j =>
      have old : j ≠ n := fun eq => fresh i (eq ▸ link)
      rw [Option.elim_some, Function.update_of_ne old]
      rfl
  have tail : ((next m).elim [] fun j => behind m n (rest j)) = (next m).elim [] rest := by
    cases link : next m with
    | none => rfl
    | some j => exact behind_of_not_mem (h.not_mem_of_link link)
  have spread : ∀ i, behind m n (rest i) =
      (if i = m then [m, n] else [i]) ++ (next i).elim [] fun j => behind m n (rest j) := by
    intro i
    rw [h i, behind_cons]
    cases next i with
    | none => rfl
    | some j => rfl
  intro i
  by_cases new : i = n
  · subst new
    rw [Function.update_self, Function.update_of_ne other, Function.update_self, away, tail]
  · rw [Function.update_of_ne new, spread]
    by_cases here : i = m
    · subst here
      rw [Function.update_self, Option.elim_some, Function.update_self, if_pos rfl, tail]
      rfl
    · rw [Function.update_of_ne here, Function.update_of_ne new, away, if_neg here]
      rfl

/-- What is at `m` goes to `n`, and `m` is taken out of its links. -/
theorem move (h : Follows next rest) (fresh : ∀ i, next i ≠ some n) (other : n ≠ m) {p : Nat}
    (before : next p = some m) (only : ∀ i, next i = some m → i = p) :
    Follows (Function.update (Function.update (Function.update next p (some n)) n (next m)) m none)
      (Function.update (Function.update (fun i => instead m n (rest i)) n
        (n :: (next m).elim [] rest)) m [m]) := by
  have away : ∀ i, i ≠ p → (next i).elim []
      (Function.update (Function.update (fun i => instead m n (rest i)) n
        (n :: (next m).elim [] rest)) m [m]) =
          (next i).elim [] fun j => instead m n (rest j) := by
    intro i apart
    cases link : next i with
    | none => rfl
    | some j =>
      have old : j ≠ n := fun eq => fresh i (eq ▸ link)
      have left : j ≠ m := fun eq => apart (only i (eq ▸ link))
      rw [Option.elim_some, Function.update_of_ne left, Function.update_of_ne old]
      rfl
  have tail : ((next m).elim [] fun j => instead m n (rest j)) = (next m).elim [] rest := by
    cases link : next m with
    | none => rfl
    | some j => exact instead_of_not_mem (h.not_mem_of_link link)
  have spread : ∀ i, instead m n (rest i) =
      (if i = m then n else i) :: (next i).elim [] fun j => instead m n (rest j) := by
    intro i
    rw [h i]
    cases next i with
    | none => rfl
    | some j => rfl
  have apart : m ≠ p := by
    rintro rfl
    exact h.not_mem_of_link before (h.mem_self m)
  intro i
  by_cases here : i = m
  · subst here
    rw [Function.update_self, Function.update_self]
    rfl
  · rw [Function.update_of_ne here, Function.update_of_ne here]
    by_cases new : i = n
    · subst new
      rw [Function.update_self, Function.update_self, away m apart, tail]
    · rw [Function.update_of_ne new, Function.update_of_ne new, spread, if_neg here]
      by_cases prior : i = p
      · subst prior
        rw [Function.update_self, Option.elim_some, Function.update_of_ne other,
          Function.update_self, before, Option.elim_some, spread, if_pos rfl, tail]
      · rw [Function.update_of_ne prior, away i prior]

end Follows

end Chains
