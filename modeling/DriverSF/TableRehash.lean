import DriverSF.TableResize

namespace DriverSF

open Chains ScatterTable TableKey

variable {K V : Type} [TableKey K] {t : Table K V} {rest : Nat → List Nat} {k : K}

/-- The array indices that have a value, and the others among the keys in the hash part. -/
def indices (t : Table K V) : List Nat :=
  (liveKeys t.node).filterMap asIndex ++ liveIn t.array 0 t.array.length

theorem asIndex_eq_some {i : Nat} :
    asIndex k = some i ↔ arrayindex k = some (i : Int) ∧ 0 < i ∧ i ≤ maxasize := by
  unfold asIndex
  cases arrayindex k with
  | none => simp
  | some j =>
    by_cases good : 0 < j ∧ j ≤ maxasize
    · simp only [if_pos good, Option.some.injEq]
      omega
    · simp only [if_neg good, Option.some.injEq]
      constructor
      · intro eq
        cases eq
      · rintro ⟨rfl, low, high⟩
        exact absurd ⟨by omega, by omega⟩ good

theorem asIndex_inj {k' : K} {i : Nat} (h : asIndex k = some i) (h' : asIndex k' = some i) :
    k = k' := by
  have first := ofInt_arrayindex k _ (asIndex_eq_some.mp h).1
  have second := ofInt_arrayindex k' _ (asIndex_eq_some.mp h').1
  exact first.symm.trans second

theorem Table.Sound.mem_liveKeys (h : t.Sound rest) :
    k ∈ liveKeys t.node ↔ ∃ i, tagAt t.node i = some (k, false) ∧ valAt t.node i ≠ none := by
  unfold liveKeys
  rw [List.mem_filterMap]
  constructor
  · rintro ⟨n, inside, found⟩
    obtain ⟨v, value, key⟩ := Option.bind_eq_some_iff.mp found
    obtain ⟨i, at_i⟩ := List.getElem?_of_mem inside
    have used : valAt t.node i ≠ none := by
      rw [valAt, at_i, Option.bind_some, value]
      exact Option.some_ne_none v
    obtain ⟨k', tag⟩ := h.valued i used
    obtain ⟨n', at_i', key', _⟩ := tagAt_eq_some.mp tag
    obtain rfl := Option.some.inj (at_i.symm.trans at_i')
    obtain rfl := Option.some.inj (key.symm.trans key')
    exact ⟨i, tag, used⟩
  · rintro ⟨i, tag, used⟩
    obtain ⟨n, at_i, key, _⟩ := tagAt_eq_some.mp tag
    rw [valAt, at_i] at used
    obtain ⟨v, value⟩ := Option.ne_none_iff_exists'.mp used
    exact ⟨n, List.mem_of_getElem? at_i, by rw [show n.val = some v from value]; exact key⟩

theorem Table.Sound.liveKeys_nodup (h : t.Sound rest) : (liveKeys t.node).Nodup := by
  unfold liveKeys List.Nodup
  rw [List.pairwise_filterMap, List.pairwise_iff_getElem]
  intro i j hi hj less k found k' found' same
  subst same
  have alive : ∀ {p : Nat} (inside : p < t.node.length),
      (t.node[p].val.bind fun _ => t.node[p].key) = some k → tagAt t.node p = some (k, false) := by
    intro p inside shown
    obtain ⟨v, value, key⟩ := Option.bind_eq_some_iff.mp shown
    have at_p : t.node[p]? = some t.node[p] := List.getElem?_eq_getElem inside
    obtain ⟨k', tag⟩ := h.valued p (by
      rw [valAt, at_p, Option.bind_some, value]
      exact Option.some_ne_none v)
    obtain ⟨n', at_p', key', _⟩ := tagAt_eq_some.mp tag
    obtain rfl := Option.some.inj (at_p.symm.trans at_p')
    obtain rfl := Option.some.inj (key.symm.trans key')
    exact tag
  exact Nat.ne_of_lt less (h.hashed.unique i j k (alive hi found) (alive hj found'))

theorem liveIn_nodup (array : List (Option V)) (a b : Nat) : (liveIn array a b).Nodup := by
  unfold liveIn
  have range : (List.range' a (b - a)).Nodup := List.nodup_range'
  exact (range.filter _).map fun i j same => Nat.succ.inj same

/-- No index is counted twice. -/
theorem Table.Sound.indices_nodup (h : t.Sound rest) : (indices t).Nodup := by
  refine List.nodup_append.mpr ⟨?_, liveIn_nodup _ _ _, ?_⟩
  · refine h.liveKeys_nodup.filterMap fun k k' i first second => ?_
    exact asIndex_inj (Option.mem_def.mp first) (Option.mem_def.mp second)
  · intro i first j second
    rintro rfl
    obtain ⟨k, member, index⟩ := List.mem_filterMap.mp first
    obtain ⟨p, tag, _⟩ := h.mem_liveKeys.mp member
    obtain ⟨low, high, _⟩ := mem_liveIn.mp second
    have cast : (i : Int) = ((i - 1 : Nat) : Int) + 1 := by omega
    exact h.outside p k tag ⟨i - 1, cast ▸ (asIndex_eq_some.mp index).1, by omega⟩

theorem Table.Sound.indices_range (h : t.Sound rest) :
    ∀ i ∈ indices t, 0 < i ∧ i ≤ maxasize := by
  intro i member
  rcases List.mem_append.mp member with member | member
  · obtain ⟨k, _, index⟩ := List.mem_filterMap.mp member
    exact (asIndex_eq_some.mp index).2
  · obtain ⟨low, high, _⟩ := mem_liveIn.mp member
    exact ⟨low, Nat.le_trans high h.small⟩

variable [DecidableEq K]

/-- An index that is counted is that of a key with a value. -/
theorem Table.Sound.value_of_index (h : t.Sound rest) {i : Nat} (member : i ∈ indices t) :
    t.valueOf (ofInt (i : Int)) ≠ none := by
  rcases List.mem_append.mp member with member | member
  · obtain ⟨k, live, index⟩ := List.mem_filterMap.mp member
    obtain ⟨p, tag, used⟩ := h.mem_liveKeys.mp live
    have here : Located t k (.node p) := tag
    rw [ofInt_arrayindex k _ (asIndex_eq_some.mp index).1, h.valueOf_located here]
    exact used
  · obtain ⟨low, high, used⟩ := mem_liveIn.mp member
    have inside : i - 1 < t.array.length := by omega
    obtain ⟨first, second⟩ := h.in_int inside
    have cast : ((i - 1 : Nat) + 1 : Int) = (i : Int) := by omega
    have here : Located t (ofInt (i : Int) : K) (.array (i - 1)) := by
      refine ⟨?_, inside⟩
      rw [cast] at first second ⊢
      exact arrayindex_ofInt _ first second
    rw [h.valueOf_located here]
    exact Option.isSome_iff_ne_none.mp used

/-- The keys that have a value are fewer than this. -/
def Fewer (m : K → Option V) (size : Nat) : Prop :=
  ∃ keys : List K, keys.length < size ∧ ∀ k, m k ≠ none → k ∈ keys

/-- What the passes count is what has a value. -/
theorem Table.Sound.live_lt (h : t.Sound rest) {size : Nat} (few : Fewer t.valueOf size) :
    (liveKeys t.node).length + (liveIn t.array 0 t.array.length).length < size := by
  obtain ⟨keys, less, all⟩ := few
  have distinct : (liveKeys t.node ++
      (liveIn t.array 0 t.array.length).map fun i : Nat => (ofInt (i : Int) : K)).Nodup := by
    refine List.nodup_append.mpr ⟨h.liveKeys_nodup, ?_, ?_⟩
    · refine List.Nodup.map_on (fun i first j second same => ?_) (liveIn_nodup _ _ _)
      obtain ⟨low, high, _⟩ := mem_liveIn.mp first
      obtain ⟨low', high', _⟩ := mem_liveIn.mp second
      have size := h.small
      simp only [maxasize, maxbits] at size
      have index := arrayindex_ofInt (K := K) (i : Int) (by omega) (by omega)
      have index' := arrayindex_ofInt (K := K) (j : Int) (by omega) (by omega)
      rw [same, index'] at index
      simp only [Option.some.injEq] at index
      omega
    · intro k first k' second
      rintro rfl
      obtain ⟨i, member, rfl⟩ := List.mem_map.mp second
      obtain ⟨p, tag, _⟩ := h.mem_liveKeys.mp first
      obtain ⟨low, high, _⟩ := mem_liveIn.mp member
      have size := h.small
      simp only [maxasize, maxbits] at size
      have index := arrayindex_ofInt (K := K) (i : Int) (by omega) (by omega)
      have cast : (i : Int) = ((i - 1 : Nat) : Int) + 1 := by omega
      exact h.outside p _ tag ⟨i - 1, index.trans (congrArg some cast), by omega⟩
  have within : (liveKeys t.node ++
      (liveIn t.array 0 t.array.length).map fun i : Nat => (ofInt (i : Int) : K)) ⊆ keys := by
    intro k member
    refine all k ?_
    rcases List.mem_append.mp member with member | member
    · obtain ⟨p, tag, used⟩ := h.mem_liveKeys.mp member
      have here : Located t k (.node p) := tag
      rw [h.valueOf_located here]
      exact used
    · obtain ⟨i, inside, rfl⟩ := List.mem_map.mp member
      exact h.value_of_index (List.mem_append_right _ inside)
  have bound := (distinct.subperm within).length_le
  rw [List.length_append, List.length_map] at bound
  omega

/-- The array indices after the new key is counted too. -/
def newIndices (t : Table K V) (k : K) : List Nat := (asIndex k).toList ++ indices t

omit [DecidableEq K] in
theorem Table.Sound.newIndices_nodup (h : t.Sound rest) (absent : ∀ slot, ¬Located t k slot) :
    (newIndices t k).Nodup := by
  unfold newIndices
  cases index : asIndex k with
  | none => exact h.indices_nodup
  | some i =>
    show (i :: indices t).Nodup
    refine List.nodup_cons.mpr ⟨fun member => ?_, h.indices_nodup⟩
    rcases List.mem_append.mp member with member | member
    · obtain ⟨k', live, index'⟩ := List.mem_filterMap.mp member
      obtain ⟨p, tag, _⟩ := h.mem_liveKeys.mp live
      rw [asIndex_inj index' index] at tag
      exact absent (.node p) tag
    · obtain ⟨low, high, _⟩ := mem_liveIn.mp member
      have cast : (i : Int) = ((i - 1 : Nat) : Int) + 1 := by omega
      exact absent (.array (i - 1)) ⟨cast ▸ (asIndex_eq_some.mp index).1, by omega⟩

omit [DecidableEq K] in
theorem Table.Sound.newIndices_range (h : t.Sound rest) :
    ∀ i ∈ newIndices t k, 0 < i ∧ i ≤ maxasize := by
  intro i member
  rcases List.mem_append.mp member with member | member
  · exact (asIndex_eq_some.mp (Option.mem_toList.mp member)).2
  · exact h.indices_range i member

omit [DecidableEq K] in
theorem BestSize.count {found : List Nat} {e na n : Nat} (best : BestSize found e na n)
    (positive : ∀ i ∈ found, 0 < i) : na = found.countP fun i => i ≤ n := by
  rcases best with ⟨rfl, rfl, _⟩ | ⟨d, _, rfl, rfl, _, _⟩
  · refine (List.countP_eq_zero.mpr fun i member => ?_).symm
    have above := positive i member
    simp only [decide_eq_true_eq]
    omega
  · rfl

theorem BestSize.le_max {found : List Nat} {na n : Nat} (best : BestSize found (maxbits + 1) na n) :
    n ≤ maxasize := by
  rcases best with ⟨rfl, _, _⟩ | ⟨d, less, rfl, _, _, _⟩
  · exact Nat.zero_le _
  · exact Nat.pow_le_pow_right (by omega) (by omega)

omit [DecidableEq K] in
/-- Every live key of the hash part either has an index for the array part or stays. -/
theorem count_liveKeys (keys : List K) (n : Nat) :
    ((keys.filterMap asIndex).countP fun i => i ≤ n) + keys.countP (hashBound n) =
      keys.length := by
  induction keys with
  | nil => rfl
  | cons k keys ih =>
    rw [List.countP_cons, List.length_cons, hashBound]
    cases index : asIndex k with
    | none =>
      rw [List.filterMap_cons_none index]
      simp only [Option.any_none, Bool.not_false, if_true]
      omega
    | some i =>
      rw [List.filterMap_cons_some index, List.countP_cons]
      by_cases low : i ≤ n
      · simp only [low, Option.any_some, decide_true, if_true, Bool.not_true, Bool.false_eq_true,
          if_false]
        omega
      · simp only [low, Option.any_some, decide_false, if_true, Bool.not_false, Bool.false_eq_true,
          if_false]
        omega

theorem count_liveIn (array : List (Option V)) (n : Nat) :
    ((liveIn array 0 array.length).countP fun i => i ≤ n) +
      (liveIn array n array.length).length = (liveIn array 0 array.length).length := by
  have low : ∀ {b : Nat}, b ≤ n → (liveIn array 0 b).countP (fun i => i ≤ n) =
      (liveIn array 0 b).length := by
    intro b bound
    refine List.countP_eq_length.mpr fun i member => ?_
    obtain ⟨_, below, _⟩ := mem_liveIn.mp member
    exact decide_eq_true (by omega)
  by_cases inside : n ≤ array.length
  · have high : (liveIn array n array.length).countP (fun i => i ≤ n) = 0 := by
      refine List.countP_eq_zero.mpr fun i member => ?_
      obtain ⟨above, _, _⟩ := mem_liveIn.mp member
      simp only [decide_eq_true_eq]
      omega
    rw [liveIn_append array (Nat.zero_le n) inside, List.countP_append, List.length_append, high,
      low (Nat.le_refl n)]
    omega
  · have beyond : liveIn array n array.length = [] := by
      unfold liveIn
      rw [Nat.sub_eq_zero_of_le (by omega)]
      rfl
    rw [beyond, low (by omega)]
    rfl

omit [DecidableEq K] in
theorem length_arrayItems (i : Nat) (slice : List (Option V)) :
    (arrayItems (K := K) i slice).length = slice.countP Option.isSome := by
  induction slice generalizing i with
  | nil => rfl
  | cons x slice ih =>
    cases x with
    | none => rw [arrayItems, ih, List.countP_cons]; rfl
    | some v => rw [arrayItems, List.length_cons, ih, List.countP_cons]; rfl

omit [DecidableEq K] in
/-- What is inserted into the new hash part. -/
theorem count_resizeItems (t : Table K V) (n : Nat) :
    ((resizeItems t n).countP fun x => hashBound n x.1) ≤
      (liveIn t.array n t.array.length).length + (liveKeys t.node).countP (hashBound n) := by
  have nodes : ((nodeItems t.node.reverse).countP fun x => hashBound n x.1) =
      (liveKeys t.node).countP (hashBound n) := by
    have keys : (nodeItems t.node.reverse).map Prod.fst = (liveKeys t.node).reverse := by
      unfold nodeItems liveKeys
      rw [List.map_filterMap, List.filterMap_reverse]
      refine congrArg List.reverse (List.filterMap_congr fun x _ => ?_)
      cases x.val <;> cases x.key <;> rfl
    have mapped := List.countP_map (p := hashBound n) (f := Prod.fst) (l := nodeItems t.node.reverse)
    rw [keys, List.countP_reverse] at mapped
    exact mapped.symm
  have slice : (t.array.drop n).take (t.array.length - n) = t.array.drop n := by
    rw [← List.length_drop, List.take_length]
  have array : ((arrayItems (K := K) n (t.array.drop n)).countP fun x => hashBound n x.1) ≤
      (liveIn t.array n t.array.length).length := by
    rw [length_liveIn t.array (Nat.le_refl _), slice, ← length_arrayItems (K := K) n]
    exact List.countP_le_length
  rw [resizeItems, List.countP_append, nodes]
  omega

variable {nk : Table K V → K → Except TableError (Slot × Table K V)}

/-- A rehash for a new key keeps all values and makes room for the key. -/
theorem Table.Sound.rehash (h : t.Sound rest) (places : Places nk)
    (absent : ∀ slot, ¬Located t k slot) (few : Fewer t.valueOf maxasize) :
    ∃ t' rest' na, DriverSF.rehash nk t k = .ok t' ∧ t'.Sound rest' ∧ t'.valueOf = t.valueOf ∧
      BestSize (newIndices t k) (maxbits + 1) na t'.array.length ∧
      (hashBound t'.array.length k = true → used t'.node < t'.node.length) := by
  obtain ⟨nums₁, array_run, tally₁⟩ := numusearrayLoop_spec h.small (maxbits + 1) 0 0 0 (by omega)
    (Nat.zero_le _) (fun e eq => absurd eq (Nat.succ_ne_zero e)) (fun _ => rfl) Tally.empty
  obtain ⟨nums₂, hash_run, tally₂⟩ := numusehash_spec t.node tally₁ h.node_valued
  obtain ⟨nums₃, key_run, tally₃⟩ := countint_eq tally₂ k
  rw [List.append_nil] at tally₃
  have tally : Tally nums₃ (newIndices t k) := tally₃
  obtain ⟨na, size, sizes_run, best⟩ := computesizes_spec tally
    (h.newIndices_nodup absent) (fun i member => (h.newIndices_range i member).1)
    (fun i member => (h.newIndices_range i member).2)
  have narray : (newIndices t k).length = (liveIn t.array 0 t.array.length).length +
      ((liveKeys t.node).filterMap asIndex).length + (asIndex k).toList.length := by
    rw [newIndices, indices, List.length_append, List.length_append]
    omega
  -- the keys that stay in the hash part are those that the new array part does not take
  have count := best.count fun i member => (h.newIndices_range i member).1
  rw [newIndices, indices, List.countP_append, List.countP_append] at count
  have stay := count_liveKeys (liveKeys t.node) size
  have slice := count_liveIn t.array size
  have inserted := count_resizeItems t size
  have key : ((asIndex k).toList.countP fun i => i ≤ size) +
      (if hashBound size k then 1 else 0) = 1 := by
    unfold hashBound
    cases asIndex k with
    | none => rfl
    | some i => by_cases low : i ≤ size <;> simp [low]
  have live := h.live_lt few
  have fits : (liveIn t.array 0 t.array.length).length + (liveKeys t.node).length + 1 - na ≤
      2 ^ maxbits := by
    have max : maxasize = 2 ^ maxbits := rfl
    omega
  obtain ⟨t', rest', run, sound, values, array, enough, taken⟩ :=
    h.resize places best.le_max fits (by omega)
  refine ⟨t', rest', na, ?_, sound, values, ?_, ?_⟩
  · rw [DriverSF.rehash, numusearray]
    rw [Nat.pow_zero, Nat.zero_add] at array_run
    simp only [array_run, hash_run, key_run, ← narray, sizes_run]
    exact run
  · rw [array]
    exact best
  · rw [array]
    intro out
    rw [if_pos out] at key
    omega

/-- Without a place for a new key the table is rehashed once, and the key gets a slot. -/
theorem Table.Sound.newkey_full (h : t.Sound rest) (absent : ∀ slot, ¬Located t k slot)
    (few : Fewer t.valueOf maxasize) {t₁ : Table K V} (full : DriverSF.placeKey t k = .ok (none, t₁))
    (fuel : Nat) :
    ∃ slot t' rest' na, newkey (fuel + 2) t k = .ok (slot, t') ∧ t'.Sound rest' ∧
      Located t' k slot ∧ t'.valueOf = t.valueOf ∧
      BestSize (newIndices t k) (maxbits + 1) na t'.array.length := by
  rcases h.placeKey absent with ⟨lastfree, none_left, _⟩ | ⟨i, t', rest', place, placed⟩
  · obtain ⟨t₂, rest₂, na, run₂, sound₂, values₂, best, room⟩ :=
      h.rehash (newkey_places fuel) absent few
    obtain ⟨slot, t', rest', run', sound', located, values', array', _⟩ :=
      luaHSetWith_spec (newkey_places fuel) sound₂ room
    refine ⟨slot, t', rest', na, ?_, sound', located, values'.trans values₂, ?_⟩
    · rw [newkey, none_left]
      show (DriverSF.rehash _ t k >>= _) = _
      rw [run₂]
      exact run'
    · rw [array']
      exact best
  · cases full.symm.trans place

/-- A key always gets a slot, with at most one rehash. -/
theorem Table.Sound.luaHSet (h : t.Sound rest) (few : Fewer t.valueOf maxasize) (fuel : Nat)
    (k : K) :
    ∃ slot t' rest', DriverSF.luaHSet (fuel + 2) t (.key k) = .ok (slot, t') ∧ t'.Sound rest' ∧
      Located t' k slot ∧ t'.valueOf = t.valueOf := by
  by_cases found : ∃ slot, Located t k slot
  · obtain ⟨slot, here⟩ := found
    refine ⟨slot, t, rest, ?_, h, here, rfl⟩
    rw [DriverSF.luaHSet, luaHSetWith, h.luaHGet_located here]
    rfl
  · have absent := not_exists.mp found
    have start : DriverSF.luaHSet (fuel + 2) t (.key k) = newkey (fuel + 2) t k := by
      rw [DriverSF.luaHSet, luaHSetWith, h.luaHGet_absent absent]
      rfl
    rw [start]
    rcases h.placeKey absent with ⟨lastfree, full, _⟩ | ⟨i, t', rest', place, placed⟩
    · obtain ⟨slot, t', rest', _, run, sound, located, values, _⟩ :=
        h.newkey_full absent few full fuel
      exact ⟨slot, t', rest', run, sound, located, values⟩
    · exact ⟨.node i, t', rest', newkey_places (fuel + 1) t t' k i place, placed.sound,
        placed.located, placed.values⟩

/-- What the passes count are the indices of keys that have a value, and of the new key. -/
theorem Table.Sound.mem_newIndices (h : t.Sound rest) {i : Nat} :
    i ∈ newIndices t k ↔
      0 < i ∧ i ≤ maxasize ∧ (t.valueOf (ofInt (i : Int)) ≠ none ∨ ofInt (i : Int) = k) := by
  constructor
  · intro member
    obtain ⟨positive, bound⟩ := h.newIndices_range i member
    refine ⟨positive, bound, ?_⟩
    rcases List.mem_append.mp member with member | member
    · have index := (asIndex_eq_some.mp (Option.mem_toList.mp member)).1
      exact Or.inr (ofInt_arrayindex k _ index)
    · exact Or.inl (h.value_of_index member)
  · rintro ⟨positive, bound, used | rfl⟩
    · have in_int : (i : Int) < 2147483648 := by
        simp only [maxasize, maxbits] at bound
        omega
      have index := arrayindex_ofInt (K := K) (i : Int) (by omega) in_int
      obtain ⟨slot, here⟩ : ∃ slot, Located t (ofInt (i : Int)) slot := by
        by_contra absent
        exact used (h.valueOf_absent (not_exists.mp absent))
      rw [h.valueOf_located here] at used
      refine List.mem_append_right _ (List.mem_append.mpr ?_)
      cases slot with
      | array j =>
        obtain ⟨index', inside⟩ := here
        have same := Option.some.inj (index.symm.trans index')
        obtain rfl : i = j + 1 := by omega
        exact Or.inr (mem_liveIn.mpr ⟨by omega, inside, Option.isSome_iff_ne_none.mpr used⟩)
      | node p =>
        refine Or.inl (List.mem_filterMap.mpr ⟨ofInt (i : Int), ?_, ?_⟩)
        · exact h.mem_liveKeys.mpr ⟨p, here, used⟩
        · exact asIndex_eq_some.mpr ⟨index, positive, bound⟩
    · have in_int : (i : Int) < 2147483648 := by
        simp only [maxasize, maxbits] at bound
        omega
      refine List.mem_append_left _ (Option.mem_toList.mpr ?_)
      exact asIndex_eq_some.mpr ⟨arrayindex_ofInt _ (by omega) in_int, positive, bound⟩

/-- How many of the indices up to a power of two have a value or are that of a new key. -/
def inUse (t : Table K V) (k : K) (d : Nat) : Nat :=
  (List.range' 1 (2 ^ d)).countP fun i : Nat =>
    (t.valueOf (ofInt (i : Int))).isSome || ofInt (i : Int) == k

theorem Table.Sound.upTo_newIndices (h : t.Sound rest) (absent : ∀ slot, ¬Located t k slot)
    {d : Nat} (small : d ≤ maxbits) : upTo (newIndices t k) d = inUse t k d := by
  have bound : 2 ^ d ≤ maxasize := Nat.pow_le_pow_right (by omega) small
  unfold upTo inUse
  rw [List.countP_eq_length_filter, List.countP_eq_length_filter]
  refine List.Perm.length_eq ((List.perm_ext_iff_of_nodup
    ((h.newIndices_nodup absent).filter _) (List.Nodup.filter _ List.nodup_range')).mpr fun i => ?_)
  rw [List.mem_filter, List.mem_filter, h.mem_newIndices, List.mem_range'_1, decide_eq_true_eq,
    Bool.or_eq_true, Option.isSome_iff_ne_none, beq_iff_eq]
  constructor
  · rintro ⟨⟨positive, _, used⟩, low⟩
    exact ⟨⟨positive, by omega⟩, used⟩
  · rintro ⟨⟨positive, low⟩, used⟩
    exact ⟨⟨positive, by omega, used⟩, by omega⟩

end DriverSF
