import Mathlib.Data.Finset.Card
import DriverSF.TableTraversal

namespace DriverSF

open Chains ScatterTable Simulation TableKey

/-- The search by halves ends next to a place where the property changes. -/
theorem halve_spec {present : Nat → Except TableError Bool} {p : Nat → Bool} (fuel : Nat) {i j : Nat}
    (less : i < j) (bound : j ≤ 2 ^ 31) (distance : j - i ≤ 2 ^ fuel)
    (reads : ∀ m, i < m → m < j → present m = .ok (p m)) :
    ∃ n, halve present (fuel + 1) i j = .ok n ∧ i ≤ n ∧ n < j ∧ (n = i ∨ p n = true) ∧
      (n + 1 = j ∨ p (n + 1) = false) := by
  induction fuel generalizing i j with
  | zero =>
    have next : i + 1 = j := by omega
    refine ⟨i, ?_, Nat.le_refl i, less, Or.inl rfl, Or.inl next⟩
    rw [halve, if_neg (by omega)]
  | succ fuel ih =>
    by_cases far : 1 < j - i
    · obtain ⟨m, middle⟩ : ∃ m, m = (i + j) % 2 ^ 32 / 2 := ⟨_, rfl⟩
      have half : 2 ^ (fuel + 1) = 2 * 2 ^ fuel := Nat.pow_succ'
      have low : i < m := by omega
      have high : m < j := by omega
      rw [halve, if_pos far]
      simp only [← middle, reads m low high, bind, Except.bind]
      cases good : p m with
      | true =>
        obtain ⟨n, run, above, below, left, right⟩ := ih high bound (by omega)
          fun x above below => reads x (by omega) below
        refine ⟨n, run, by omega, below, Or.inr ?_, right⟩
        rcases left with same | good'
        · rw [same]
          exact good
        · exact good'
      | false =>
        obtain ⟨n, run, above, below, left, right⟩ := ih low (by omega) (by omega)
          fun x above below => reads x above (by omega)
        refine ⟨n, run, above, by omega, left, Or.inr ?_⟩
        rcases right with same | bad
        · rw [same]
          exact good
        · exact bad
    · refine ⟨i, ?_, Nat.le_refl i, less, Or.inl rfl, Or.inl (by omega)⟩
      rw [halve, if_neg far]

variable {K V : Type} [DecidableEq K] [TableKey K] {t : Table K V} {rest : Nat → List Nat}

/-- The value at an index. -/
def Table.entry (t : Table K V) (i : Nat) : Option V := t.valueOf (ofInt (i : Int))

/-- An index with a value, or 0, whose successor has none. -/
structure Border (t : Table K V) (n : Nat) : Prop where
  bound : n < maxInt
  present : n = 0 ∨ t.entry n ≠ none
  absent : t.entry (n + 1) = none

theorem Border.of_halve {n i j : Nat} (left : n = i ∨ (t.entry n).isSome = true)
    (right : n + 1 = j ∨ (t.entry (n + 1)).isSome = false) (start : i = 0 ∨ t.entry i ≠ none)
    (stop : t.entry j = none) (bound : n < maxInt) : Border t n where
  bound := bound
  present := by
    rcases left with same | good
    · rw [same]
      exact start
    · exact Or.inr (Option.isSome_iff_ne_none.mp good)
  absent := by
    rcases right with same | bad
    · rw [same]
      exact stop
    · simpa using bad

theorem Table.Sound.present (h : t.Sound rest) {i : Nat} (positive : 0 < i) (bound : i ≤ maxInt) :
    DriverSF.present t i = .ok (t.entry i).isSome := by
  simp only [maxInt] at bound
  have cast : ((i - 1 : Nat) + 1 : Int) = (i : Int) := by omega
  have same : luaHGetnum t (i : Int) = luaHGet t (ofInt (i : Int) : K) := by
    rw [← cast]
    exact luaHGetnum_eq (by omega)
  unfold DriverSF.present Table.entry
  rw [same]
  by_cases found : ∃ slot, Located t (ofInt (i : Int)) slot
  · obtain ⟨slot, here⟩ := found
    rw [h.luaHGet_located here, h.valueOf_located here]
    rfl
  · have absent := not_exists.mp found
    rw [h.luaHGet_absent absent, h.valueOf_absent absent]
    rfl

theorem Table.Sound.entry_array (h : t.Sound rest) {i : Nat} (inside : i < t.array.length) :
    t.entry (i + 1) = t.array[i]?.join := by
  obtain ⟨first, second⟩ := h.in_int inside
  have here : Located t (ofInt ((i + 1 : Nat) : Int) : K) (.array i) :=
    ⟨arrayindex_ofInt _ first second, inside⟩
  exact h.valueOf_located here

/-- Not all of more indices than slots have a value. -/
theorem Table.Sound.few_entries (h : t.Sound rest) :
    ¬∀ i, 0 < i → i ≤ t.array.length + t.node.length + 1 → t.entry i ≠ none := by
  intro all
  have small := h.small
  have nodes := h.nodes
  simp only [maxasize, maxbits] at small nodes
  have located : ∀ i, ∃ slot, i < t.array.length + t.node.length + 1 →
      Located t (ofInt ((i + 1 : Nat) : Int)) slot := by
    intro i
    by_cases less : i < t.array.length + t.node.length + 1
    · by_contra absent
      refine all (i + 1) (Nat.succ_pos i) less (h.valueOf_absent fun slot here => ?_)
      exact absent ⟨slot, fun _ => here⟩
    · exact ⟨.array 0, fun less' => absurd less' less⟩
  choose slotOf here using located
  have inside : ∀ i ∈ Finset.range (t.array.length + t.node.length + 1),
      (slotOf i).order t.array.length ∈ Finset.range (t.array.length + t.node.length) := by
    intro i member
    have there := here i (Finset.mem_range.mp member)
    refine Finset.mem_range.mpr ?_
    cases slot : slotOf i with
    | array j =>
      rw [slot] at there
      exact Nat.lt_of_lt_of_le there.2 (Nat.le_add_right _ _)
    | node j =>
      rw [slot] at there
      exact Nat.add_lt_add_left (lt_of_tagAt (by rw [show tagAt t.node j = _ from there]; simp)) _
  obtain ⟨i, first, j, second, other, same⟩ := Finset.exists_ne_map_eq_of_card_lt_of_maps_to
    (by rw [Finset.card_range, Finset.card_range]; exact Nat.lt_succ_self _) inside
  have less := Finset.mem_range.mp first
  have less' := Finset.mem_range.mp second
  have keys := order_inj (here i less) (here j less') same
  have indices := congrArg arrayindex keys
  rw [arrayindex_ofInt _ (by omega) (by omega), arrayindex_ofInt _ (by omega) (by omega)] at indices
  have equal := Option.some.inj indices
  omega

theorem Table.Sound.linearSearch (h : t.Sound rest) (fuel : Nat) {i : Nat} (positive : 0 < i)
    (budget : fuel + i = t.array.length + t.node.length + 2)
    (before : ∀ m, 0 < m → m < i → t.entry m ≠ none) :
    ∃ n, DriverSF.linearSearch t fuel i = .ok n ∧ Border t n := by
  have small := h.small
  have nodes := h.nodes
  simp only [maxasize, maxbits] at small nodes
  induction fuel generalizing i with
  | zero => exact absurd (fun m low high => before m low (by omega)) h.few_entries
  | succ fuel ih =>
    have read := h.present positive (by simp only [maxInt]; omega)
    rw [DriverSF.linearSearch, read]
    cases value : t.entry i with
    | some v =>
      refine ih (Nat.succ_pos i) (by omega) fun m low high => ?_
      by_cases same : m = i
      · rw [same, value]
        exact Option.some_ne_none v
      · exact before m low (by omega)
    | none =>
      refine ⟨i - 1, rfl, ?_, ?_, ?_⟩
      · simp only [maxInt]
        omega
      · by_cases first : i = 1
        · exact Or.inl (by omega)
        · exact Or.inr (before (i - 1) (by omega) (by omega))
      · rw [Nat.sub_add_cancel positive]
        exact value

/-- Doubling reaches an index without a value, or gives up. -/
theorem Table.Sound.unboundLoop (h : t.Sound rest) (fuel : Nat) {i j : Nat} (less : i < j)
    (bound : j ≤ maxInt) (grown : 2 ^ 32 ≤ j * 2 ^ fuel) (present : i = 0 ∨ t.entry i ≠ none) :
    ∃ n, DriverSF.unboundLoop t fuel i j = .ok n ∧ Border t n := by
  simp only [maxInt] at bound
  induction fuel generalizing i j with
  | zero => omega
  | succ fuel ih =>
    have read := h.present (Nat.zero_lt_of_lt less) bound
    rw [DriverSF.unboundLoop, read]
    cases value : t.entry j with
    | some v =>
      have double : j * 2 % 2 ^ 32 = j * 2 := Nat.mod_eq_of_lt (by omega)
      show ∃ n, (if maxInt < j * 2 % 2 ^ 32 then _ else _) = Except.ok n ∧ _
      rw [double]
      by_cases beyond : maxInt < j * 2
      · rw [if_pos beyond]
        exact h.linearSearch _ Nat.zero_lt_one rfl fun m low high => by omega
      · rw [if_neg beyond]
        refine ih (by omega) (by simpa only [maxInt, Nat.not_lt] using beyond) ?_
          (Or.inr (by rw [value]; exact Option.some_ne_none v))
        have shift : j * 2 * 2 ^ fuel = j * 2 ^ (fuel + 1) := by
          rw [Nat.pow_succ', Nat.mul_assoc]
        rwa [shift]
    | none =>
      have reads : ∀ m, i < m → m < j → DriverSF.present t m = .ok (t.entry m).isSome :=
        fun m above below => h.present (by omega) (by simp only [maxInt]; omega)
      obtain ⟨n, run, low, high, left, right⟩ := halve_spec 31 less (by omega) (by omega) reads
      refine ⟨n, run, Border.of_halve left right present value ?_⟩
      simp only [maxInt]
      omega

/-- `luaH_getn` always finds a border, and in a table without gaps its length. -/
theorem luaHGetn_border (reached : ReachedTable t) :
    ∃ n, luaHGetn t = .ok n ∧ Border t n ∧
      ∀ length, (∀ i, 0 < i → i ≤ length → t.entry i ≠ none) →
        (∀ i, length < i → i ≤ maxInt → t.entry i = none) → n = length := by
  obtain ⟨rest, h⟩ := reached.sound
  have small := h.small
  have nodes := h.nodes
  simp only [maxasize, maxbits] at small nodes
  obtain ⟨n, run, border⟩ : ∃ n, luaHGetn t = .ok n ∧ Border t n := by
    unfold luaHGetn
    by_cases inner : 0 < t.array.length ∧ t.array[t.array.length - 1]?.join.isNone
    · simp only [if_pos inner]
      obtain ⟨positive, empty⟩ := inner
      have entries : ∀ m, 0 < m → m ≤ t.array.length → t.array[m - 1]?.join = t.entry m := by
        intro m low high
        rw [← h.entry_array (by omega), Nat.sub_add_cancel low]
      have reads : ∀ m, 0 < m → m < t.array.length →
          (.ok t.array[m - 1]?.join.isSome : Except TableError Bool) =
            .ok (t.entry m).isSome := by
        intro m low high
        rw [entries m low (Nat.le_of_lt high)]
      obtain ⟨n, run, _, high, left, right⟩ := halve_spec 31 positive (by omega) (by omega) reads
      refine ⟨n, run, Border.of_halve left right (Or.inl rfl) ?_ ?_⟩
      · rw [← entries _ positive (Nat.le_refl _)]
        exact Option.isNone_iff_eq_none.mp empty
      · simp only [maxInt]
        omega
    · have last : t.array.length = 0 ∨ t.entry t.array.length ≠ none := by
        by_cases zero : t.array.length = 0
        · exact Or.inl zero
        · have positive := Nat.pos_of_ne_zero zero
          refine Or.inr fun empty => inner ⟨positive, ?_⟩
          rw [← h.entry_array (Nat.sub_lt positive Nat.zero_lt_one), Nat.sub_add_cancel positive,
            empty]
          rfl
      simp only [if_neg inner]
      by_cases no_nodes : t.node.length = 0
      · simp only [if_pos no_nodes]
        refine ⟨_, rfl, ?_, last, h.valueOf_absent fun slot here => ?_⟩
        · simp only [maxInt]
          omega
        · cases slot with
          | array i =>
            obtain ⟨index, inside⟩ := here
            rw [arrayindex_ofInt _ (by omega) (by omega)] at index
            have same := Option.some.inj index
            omega
          | node i =>
            have inside := lt_of_tagAt (by rw [show tagAt t.node i = _ from here]; simp)
            omega
      · simp only [if_neg no_nodes]
        refine h.unboundLoop 32 (Nat.lt_succ_self _) ?_ (by omega) last
        simp only [maxInt]
        omega
  refine ⟨n, run, border, fun length full gap => ?_⟩
  have above : ¬n + 1 ≤ length := fun low => full (n + 1) (Nat.succ_pos n) low border.absent
  rcases border.present with zero | used
  · omega
  · by_contra other
    exact used (gap n (by omega) (Nat.le_of_lt border.bound))

/-- A list with one element in the array part and one in the hash part, beside a string key. -/
def mixedActions : List (TableAction ScriptKey Nat) :=
  [.set (.key (.integer 1)) (some 5), .set (.key (.integer 2)) (some 6),
    .set (.key (.string (bytes "menu"))) (some 7)]

def mixedList : Table ScriptKey Nat := after (tableStep 2) newMenu mixedActions

/-- A list that has been preallocated with more places than it has elements. -/
def paddedActions : List (TableAction ScriptKey Nat) :=
  [.preallocate 4, .set (.key (.integer 1)) (some 5), .set (.key (.integer 2)) (some 6)]

def paddedList : Table ScriptKey Nat := after (tableStep 2) newMenu paddedActions

/-- The doubling search finds the end of the one list, the binary search that of the other. -/
theorem luaHGetn_border_lists :
    (luaHGetn mixedList = .ok 2 ∧ ∃ n, luaHGetn mixedList = .ok n ∧ Border mixedList n ∧
      ∀ length, (∀ i, 0 < i → i ≤ length → mixedList.entry i ≠ none) →
        (∀ i, length < i → i ≤ maxInt → mixedList.entry i = none) → n = length) ∧
    (luaHGetn paddedList = .ok 2 ∧ ∃ n, luaHGetn paddedList = .ok n ∧ Border paddedList n ∧
      ∀ length, (∀ i, 0 < i → i ≤ length → paddedList.entry i ≠ none) →
        (∀ i, length < i → i ≤ maxInt → paddedList.entry i = none) → n = length) := by
  have start : luaHNew 1 2 = .ok newMenu := rfl
  have mixed : ReachedTable mixedList :=
    (reachedTable_of_run 0 start Nat.one_le_two_pow (by simp [mixedActions]) (by decide)).1
  have padded : ReachedTable paddedList := by
    refine (reachedTable_of_run 0 start Nat.one_le_two_pow ?_ (by decide)).1
    intro last member
    obtain rfl : last = 4 := by simpa [paddedActions] using member
    simp only [maxasize, maxbits]
    omega
  exact ⟨⟨rfl, luaHGetn_border mixed⟩, rfl, luaHGetn_border padded⟩

end DriverSF
