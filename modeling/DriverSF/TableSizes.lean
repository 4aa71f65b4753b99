import Mathlib.Algebra.Group.Nat.Defs
import DriverSF.TableLookup

namespace DriverSF

open TableKey

variable {K V : Type}

theorem ceillog2_le_iff {p e : Nat} : ceillog2 p ≤ e ↔ p ≤ 2 ^ e := by
  have one : 1 ≤ 2 ^ e := Nat.one_le_two_pow
  unfold ceillog2
  split
  · omega
  · rename_i large
    have bound := Nat.log2_lt (n := p - 1) (k := e) (by omega)
    omega

/-- The counts of the indices, by slices. -/
def Tally (nums indices : List Nat) : Prop :=
  nums = (List.range (maxbits + 1)).map fun j => indices.countP fun i => ceillog2 i = j

section Counting

variable {nums indices : List Nat}

theorem Tally.empty : Tally (List.replicate (maxbits + 1) 0) [] := by
  unfold Tally
  decide

theorem Tally.perm (h : Tally nums indices) {indices' : List Nat} (same : indices.Perm indices') :
    Tally nums indices' := by
  rw [h]
  exact List.map_congr_left fun j _ => same.countP_eq _

theorem Tally.getElem? (h : Tally nums indices) {j : Nat} (inside : j ≤ maxbits) :
    nums[j]? = some (indices.countP fun i => ceillog2 i = j) := by
  rw [h, List.getElem?_map, List.getElem?_range (by omega)]
  rfl

theorem Tally.modify (h : Tally nums indices) (slice : List Nat) (lg : Nat)
    (all : ∀ i ∈ slice, ceillog2 i = lg) :
    Tally (nums.modify lg (· + slice.length)) (slice ++ indices) := by
  refine List.ext_getElem? fun j => ?_
  rw [h, List.getElem?_map]
  by_cases inside : j < maxbits + 1
  · by_cases here : j = lg
    · subst here
      have whole : (slice.countP fun i => ceillog2 i = j) = slice.length :=
        List.countP_eq_length.mpr fun i member => decide_eq_true (all i member)
      rw [List.getElem?_modify_eq, List.getElem?_map, List.getElem?_range inside]
      simp only [Option.map_some, Option.map_eq_map, List.countP_append, whole, Nat.add_comm]
    · have none_there : (slice.countP fun i => ceillog2 i = j) = 0 := by
        refine List.countP_eq_zero.mpr fun i member => ?_
        rw [all i member]
        simpa using Ne.symm here
      rw [List.getElem?_modify_ne _ _ (Ne.symm here), List.getElem?_map,
        List.getElem?_range inside]
      simp only [Option.map_some, List.countP_append, none_there, Nat.zero_add]
  · have beyond : (List.range (maxbits + 1))[j]? = none := by
      rw [List.getElem?_eq_none_iff, List.length_range]
      omega
    rw [beyond, List.getElem?_eq_none]
    · rfl
    · rw [List.length_modify, List.length_map, List.length_range]
      omega

/-- The array index of a key that can be in an array part. -/
def asIndex [TableKey K] (k : K) : Option Nat :=
  match arrayindex k with
  | some i => if 0 < i ∧ i ≤ maxasize then some i.toNat else none
  | none => none

theorem countint_eq [TableKey K] (h : Tally nums indices) (k : K) :
    ∃ nums', countint k nums = ((asIndex k).toList.length, nums') ∧
      Tally nums' ((asIndex k).toList ++ indices) := by
  unfold countint asIndex
  cases arrayindex k with
  | none => exact ⟨nums, rfl, h⟩
  | some i =>
    by_cases good : 0 < i ∧ i ≤ maxasize
    · simp only [if_pos good]
      have one := h.modify [i.toNat] (ceillog2 i.toNat) fun p member => by
        rw [List.mem_singleton.mp member]
      exact ⟨_, rfl, one⟩
    · simp only [if_neg good]
      exact ⟨nums, rfl, h⟩

/-- The indices from behind `a` to `b` that have a value in the array part. -/
def liveIn (array : List (Option V)) (a b : Nat) : List Nat :=
  ((List.range' a (b - a)).filter fun i => array[i]?.join.isSome).map (· + 1)

theorem liveIn_append (array : List (Option V)) {a b c : Nat} (ab : a ≤ b) (bc : b ≤ c) :
    liveIn array a c = liveIn array a b ++ liveIn array b c := by
  have split : List.range' a (c - a) = List.range' a (b - a) ++ List.range' b (c - b) := by
    have := List.range'_append_1 (s := a) (m := b - a) (n := c - b)
    rw [show a + (b - a) = b by omega, show b - a + (c - b) = c - a by omega] at this
    exact this.symm
  rw [liveIn, split, List.filter_append, List.map_append]
  rfl

theorem mem_liveIn {array : List (Option V)} {a b p : Nat} :
    p ∈ liveIn array a b ↔ a < p ∧ p ≤ b ∧ array[p - 1]?.join.isSome := by
  unfold liveIn
  rw [List.mem_map]
  constructor
  · rintro ⟨i, member, rfl⟩
    obtain ⟨range, value⟩ := List.mem_filter.mp member
    have bounds := List.mem_range'_1.mp range
    exact ⟨by omega, by omega, value⟩
  · rintro ⟨low, high, value⟩
    refine ⟨p - 1, List.mem_filter.mpr ⟨List.mem_range'_1.mpr ⟨by omega, by omega⟩, value⟩, ?_⟩
    omega

theorem length_liveIn (array : List (Option V)) {a b : Nat} (bound : b ≤ array.length) :
    (liveIn array a b).length = ((array.drop a).take (b - a)).countP Option.isSome := by
  unfold liveIn
  rw [List.length_map, ← List.countP_eq_length_filter]
  induction count : b - a generalizing a with
  | zero => simp
  | succ n ih =>
    have inside : a < array.length := by omega
    have rest := ih (a := a + 1) (by omega)
    rw [List.range'_succ, List.countP_cons, rest, List.drop_eq_getElem_cons inside, List.take_succ_cons,
      List.countP_cons, List.getElem?_eq_getElem inside]
    rfl

/-- The first counting pass, from a slice on. -/
theorem numusearrayLoop_spec {array : List (Option V)} (small : array.length ≤ maxasize)
    (slices lg i ause : Nat) (left : slices + lg = maxbits + 1) (inside : i ≤ array.length)
    (low : ∀ e, e + 1 = lg → i = min (2 ^ e) array.length) (start : lg = 0 → i = 0)
    (h : Tally nums indices) :
    ∃ nums', numusearrayLoop array slices lg (2 ^ lg) i nums ause =
        (ause + (liveIn array i array.length).length, nums') ∧
      Tally nums' (liveIn array i array.length ++ indices) := by
  have done : ∀ {i : Nat}, array.length ≤ i → liveIn array i array.length = [] := by
    intro i high
    unfold liveIn
    rw [Nat.sub_eq_zero_of_le high]
    rfl
  induction slices generalizing lg i nums indices ause with
  | zero =>
    have last : i = min (2 ^ maxbits) array.length := low maxbits (by omega)
    have whole : array.length ≤ i := by
      rw [last]
      exact Nat.le_min.mpr ⟨small, Nat.le_refl _⟩
    rw [numusearrayLoop, done whole]
    exact ⟨nums, rfl, h⟩
  | succ slices ih =>
    rw [numusearrayLoop]
    by_cases stop : array.length < 2 ^ lg ∧ min (2 ^ lg) array.length ≤ i
    · have whole : array.length ≤ i := by
        have := stop.1
        have := stop.2
        omega
      simp only [if_pos stop, done whole]
      exact ⟨nums, rfl, h⟩
    · simp only [if_neg stop]
      have up : i ≤ min (2 ^ lg) array.length := by
        cases lg with
        | zero =>
          rw [start rfl]
          exact Nat.zero_le _
        | succ e =>
          have power : 2 ^ (e + 1) = 2 * 2 ^ e := Nat.pow_succ'
          rw [low e rfl]
          omega
      have slice : ∀ p ∈ liveIn array i (min (2 ^ lg) array.length), ceillog2 p = lg := by
        intro p member
        obtain ⟨above, below, value⟩ := mem_liveIn.mp member
        have at_most : ceillog2 p ≤ lg := ceillog2_le_iff.mpr (by omega)
        by_contra other
        obtain ⟨e, rfl⟩ : ∃ e, lg = e + 1 := ⟨lg - 1, by omega⟩
        have under : p ≤ 2 ^ e := ceillog2_le_iff.mp (by omega)
        have here := low e rfl
        omega
      have count := length_liveIn array (a := i) (Nat.min_le_right (2 ^ lg) array.length)
      have next := h.modify _ lg slice
      rw [count] at next
      obtain ⟨nums', run, tally⟩ := ih (lg + 1) (max i (min (2 ^ lg) array.length))
        (ause + ((array.drop i).take (min (2 ^ lg) array.length - i)).countP Option.isSome)
        (by omega) (by omega) (fun e eq => by
          obtain rfl : e = lg := by omega
          omega) (fun eq => by omega) next
      have power : 2 * 2 ^ lg = 2 ^ (lg + 1) := Nat.pow_succ'.symm
      refine ⟨nums', ?_, ?_⟩
      · rw [power, run, Nat.max_eq_right up, ← count,
          liveIn_append array up (Nat.min_le_right (2 ^ lg) array.length), List.length_append]
        simp only [Prod.mk.injEq, and_true]
        omega
      · have order : (liveIn array (min (2 ^ lg) array.length) array.length ++
            (liveIn array i (min (2 ^ lg) array.length) ++ indices)).Perm
              (liveIn array i array.length ++ indices) := by
          rw [liveIn_append array up (Nat.min_le_right (2 ^ lg) array.length), ← List.append_assoc]
          exact (List.perm_append_comm).append_right indices
        rw [Nat.max_eq_right up] at tally
        exact tally.perm order

/-- The keys in the hash part that have a value. -/
def liveKeys (node : List (Node K V)) : List K :=
  node.filterMap fun n => n.val.bind fun _ => n.key

/-- The second counting pass. -/
theorem numusehash_spec [TableKey K] (node : List (Node K V)) (h : Tally nums indices)
    (valued : ∀ n ∈ node, n.val ≠ none → n.key ≠ none) :
    ∃ nums', numusehash node nums =
        ((liveKeys node).length, ((liveKeys node).filterMap asIndex).length, nums') ∧
      Tally nums' ((liveKeys node).filterMap asIndex ++ indices) := by
  induction node with
  | nil => exact ⟨nums, rfl, h⟩
  | cons n node ih =>
    obtain ⟨nums', run, tally⟩ := ih fun x member => valued x (List.mem_cons_of_mem n member)
    unfold numusehash at run ⊢
    rw [List.foldr_cons, run]
    cases value : n.val with
    | none =>
      have same : liveKeys (n :: node) = liveKeys node := by
        simp [liveKeys, value]
      rw [same]
      exact ⟨nums', rfl, tally⟩
    | some v =>
      have has_key := valued n List.mem_cons_self (by rw [value]; exact Option.some_ne_none v)
      obtain ⟨k, key⟩ := Option.ne_none_iff_exists'.mp has_key
      have more : liveKeys (n :: node) = k :: liveKeys node := by
        simp [liveKeys, value, key]
      obtain ⟨nums'', count, tally'⟩ := countint_eq tally k
      have indexed : (k :: liveKeys node).filterMap asIndex =
          (asIndex k).toList ++ (liveKeys node).filterMap asIndex := by
        cases found : asIndex k with
        | none => rw [List.filterMap_cons_none found]; rfl
        | some i => rw [List.filterMap_cons_some found]; rfl
      rw [more, indexed, List.length_append, key]
      refine ⟨nums'', ?_, ?_⟩
      · simp only [count, List.length_cons, Nat.add_comm]
      · rw [List.append_assoc]
        exact tally'

/-- All indices up to a power of two. -/
def upTo (indices : List Nat) (e : Nat) : Nat := indices.countP fun i => i ≤ 2 ^ e

theorem upTo_succ (indices : List Nat) (e : Nat) :
    upTo indices (e + 1) = upTo indices e + indices.countP fun i => ceillog2 i = e + 1 := by
  unfold upTo
  induction indices with
  | nil => rfl
  | cons i indices ih =>
    have low := ceillog2_le_iff (p := i) (e := e)
    have high := ceillog2_le_iff (p := i) (e := e + 1)
    rw [List.countP_cons, List.countP_cons, List.countP_cons, ih]
    simp only [decide_eq_true_eq, ← low, ← high]
    split <;> split <;> split <;> omega

theorem upTo_zero (indices : List Nat) :
    upTo indices 0 = indices.countP fun i => ceillog2 i = 0 := by
  unfold upTo
  refine List.countP_congr fun i _ => ?_
  have low := ceillog2_le_iff (p := i) (e := 0)
  simp only [decide_eq_true_eq, ← low]
  omega

theorem upTo_le_length (indices : List Nat) (e : Nat) : upTo indices e ≤ indices.length :=
  List.countP_le_length

/-- There are no more indices than slots. -/
theorem upTo_le (nodup : indices.Nodup) (positive : ∀ i ∈ indices, 0 < i) (e : Nat) :
    upTo indices e ≤ 2 ^ e := by
  have slots : indices.filter (fun i => i ≤ 2 ^ e) ⊆ List.range' 1 (2 ^ e) := by
    intro i member
    obtain ⟨inside, low⟩ := List.mem_filter.mp member
    have above := positive i inside
    have below := of_decide_eq_true low
    exact List.mem_range'_1.mpr ⟨above, by omega⟩
  have bound := ((nodup.filter _).subperm slots).length_le
  rwa [List.length_range', ← List.countP_eq_length_filter] at bound

theorem half_power {d e : Nat} (less : d < e) : 2 ^ d ≤ 2 ^ e / 2 := by
  obtain ⟨c, rfl⟩ : ∃ c, e = c + 1 := ⟨e - 1, by omega⟩
  have grown : 2 ^ d ≤ 2 ^ c := Nat.pow_le_pow_right (by omega) (by omega)
  have double : 2 ^ (c + 1) = 2 * 2 ^ c := Nat.pow_succ'
  omega

/-- The largest power of two below `2 ^ e` with more than half of its slots in use, and the number
of these. -/
def BestSize (indices : List Nat) (e na n : Nat) : Prop :=
  (n = 0 ∧ na = 0 ∧ ∀ d, d < e → upTo indices d ≤ 2 ^ d / 2) ∨
    ∃ d, d < e ∧ n = 2 ^ d ∧ na = upTo indices d ∧ 2 ^ d / 2 < upTo indices d ∧
      ∀ d', d < d' → d' < e → upTo indices d' ≤ 2 ^ d' / 2

theorem BestSize.extend {e e' na n : Nat} (h : BestSize indices e na n)
    (poor : ∀ d, e ≤ d → upTo indices d ≤ 2 ^ d / 2) (more : e ≤ e') :
    BestSize indices e' na n := by
  rcases h with ⟨size, count, low⟩ | ⟨d, less, size, count, good, low⟩
  · refine Or.inl ⟨size, count, fun d _ => ?_⟩
    by_cases before : d < e
    · exact low d before
    · exact poor d (Nat.le_of_not_lt before)
  · refine Or.inr ⟨d, by omega, size, count, good, fun d' above _ => ?_⟩
    by_cases before : d' < e
    · exact low d' above before
    · exact poor d' (Nat.le_of_not_lt before)

/-- The loop goes on from the best size so far. -/
theorem computesizesLoop_spec (h : Tally nums indices) (nodup : indices.Nodup)
    (positive : ∀ i ∈ indices, 0 < i) (within : ∀ i ∈ indices, i ≤ maxasize) (left e a na n : Nat)
    (slice : e + left = maxbits) (before : ∀ d, d + 1 = e → a = upTo indices d)
    (start : e = 0 → a = 0) (best : BestSize indices e na n) :
    ∃ na' n', computesizesLoop indices.length (nums.drop e) (2 ^ e) a na n = .ok (na', n') ∧
      BestSize indices (maxbits + 1) na' n' := by
  induction left using Nat.strongRecOn generalizing e a na n with
  | ind left ih =>
    have poor : ¬2 ^ e / 2 < indices.length → ∀ d, e ≤ d → upTo indices d ≤ 2 ^ d / 2 := by
      intro few d above
      have all := upTo_le_length indices d
      have grown : 2 ^ e ≤ 2 ^ d := Nat.pow_le_pow_right (by omega) above
      omega
    have found : a + indices.countP (fun i => ceillog2 i = e) = upTo indices e := by
      cases e with
      | zero =>
        rw [start rfl, upTo_zero, Nat.zero_add]
      | succ d => rw [before d rfl, upTo_succ]
    -- no key in the slice: what was found before is too little for it
    have none_new : indices.countP (fun i => ceillog2 i = e) = 0 → upTo indices e ≤ 2 ^ e / 2 := by
      intro none_there
      cases e with
      | zero => omega
      | succ d =>
        have full := upTo_le nodup positive d
        have half := half_power (Nat.lt_succ_self d)
        have same := before d rfl
        omega
    have head : nums.drop e = indices.countP (fun i => ceillog2 i = e) :: nums.drop (e + 1) := by
      obtain ⟨inside, eq⟩ := List.getElem?_eq_some_iff.mp (h.getElem? (j := e) (by omega))
      rw [List.drop_eq_getElem_cons inside, eq]
    rw [head, computesizesLoop]
    by_cases go : 2 ^ e / 2 < indices.length
    · rw [if_pos go]
      simp only [found]
      have best' : BestSize indices (e + 1)
          (if 0 < indices.countP (fun i => ceillog2 i = e) ∧ 2 ^ e / 2 < upTo indices e then
            (upTo indices e, 2 ^ e) else (na, n)).1
          (if 0 < indices.countP (fun i => ceillog2 i = e) ∧ 2 ^ e / 2 < upTo indices e then
            (upTo indices e, 2 ^ e) else (na, n)).2 := by
        split
        · rename_i good
          exact Or.inr ⟨e, Nat.lt_succ_self e, rfl, rfl, good.2, fun d' above below => by omega⟩
        · rename_i bad
          have low : upTo indices e ≤ 2 ^ e / 2 := by
            by_cases some_new : 0 < indices.countP fun i => ceillog2 i = e
            · exact Nat.le_of_not_lt fun good => bad ⟨some_new, good⟩
            · exact none_new (Nat.eq_zero_of_not_pos some_new)
          rcases best with ⟨size, count, old⟩ | ⟨d, less, size, count, good, old⟩
          · refine Or.inl ⟨size, count, fun d below => ?_⟩
            by_cases here : d = e
            · rw [here]
              exact low
            · exact old d (by omega)
          · refine Or.inr ⟨d, by omega, size, count, good, fun d' above below => ?_⟩
            by_cases here : d' = e
            · rw [here]
              exact low
            · exact old d' above (by omega)
      by_cases stop : upTo indices e = indices.length
      · rw [if_pos stop]
        refine ⟨_, _, rfl, best'.extend (fun d above => ?_) (by omega)⟩
        have all := upTo_le_length indices d
        have full := upTo_le nodup positive e
        have half := half_power (Nat.lt_of_succ_le above)
        omega
      · rw [if_neg stop]
        have more : e ≠ maxbits := by
          rintro rfl
          refine stop (List.countP_eq_length.mpr fun i member => decide_eq_true ?_)
          exact within i member
        have power : 2 * 2 ^ e = 2 ^ (e + 1) := Nat.pow_succ'.symm
        rw [power]
        exact ih (left - 1) (by omega) (e + 1) _ _ _ (by omega)
          (fun d eq => by rw [show d = e by omega]) (fun eq => by omega) best'
    · rw [if_neg go]
      exact ⟨na, n, rfl, best.extend (poor go) (by omega)⟩

theorem computesizes_spec (h : Tally nums indices) (nodup : indices.Nodup)
    (positive : ∀ i ∈ indices, 0 < i) (within : ∀ i ∈ indices, i ≤ maxasize) :
    ∃ na n, computesizes nums indices.length = .ok (na, n) ∧
      BestSize indices (maxbits + 1) na n := by
  have run := computesizesLoop_spec h nodup positive within maxbits 0 0 0 0 (Nat.zero_add _)
    (fun d eq => absurd eq (Nat.succ_ne_zero d)) (fun _ => rfl)
    (Or.inl ⟨rfl, rfl, fun d less => absurd less (Nat.not_lt_zero d)⟩)
  exact run

end Counting

end DriverSF
