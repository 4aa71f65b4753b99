import Mathlib.Logic.Relation
import DriverSF.TableMap

namespace DriverSF

open Chains ScatterTable TableKey

variable {K V : Type}

/-- The place of a slot in the order of a traversal. -/
def Slot.order (size : Nat) : Slot → Nat
  | .array i => i
  | .node i => size + i

theorem firstFrom_spec (values : List (Option V)) (left i : Nat) :
    (∃ j v, firstFrom values left i = some (j, v) ∧ i ≤ j ∧ values[j]?.join = some v ∧
      ∀ p, i ≤ p → p < j → values[p]?.join = none) ∨
    firstFrom values left i = none ∧ ∀ p, i ≤ p → p < i + left → values[p]?.join = none := by
  induction left generalizing i with
  | zero => exact Or.inr ⟨rfl, fun p low high => absurd high (Nat.not_lt.mpr low)⟩
  | succ left ih =>
    cases value : values[i]?.join with
    | some v =>
      refine Or.inl ⟨i, v, ?_, Nat.le_refl i, value, fun p low high => ?_⟩
      · rw [firstFrom, value]
      · exact absurd high (Nat.not_lt.mpr low)
    | none =>
      have step : firstFrom values (left + 1) i = firstFrom values left (i + 1) := by
        rw [firstFrom, value]
      rw [step]
      have here : ∀ {p}, i ≤ p → values[p]?.join = none ∨ i + 1 ≤ p := by
        intro p low
        rcases Nat.eq_or_lt_of_le low with same | above
        · exact Or.inl (same ▸ value)
        · exact Or.inr above
      rcases ih (i + 1) with ⟨j, v, run, low, found, none_before⟩ | ⟨run, none_there⟩
      · refine Or.inl ⟨j, v, run, by omega, found, fun p low high => ?_⟩
        exact (here low).elim id fun above => none_before p above high
      · refine Or.inr ⟨run, fun p low high => ?_⟩
        exact (here low).elim id fun above => none_there p above (by omega)

section Order

theorem tagAt_store (t : Table K V) (slot : Slot) (v : Option V) :
    tagAt (t.store slot v).node = tagAt t.node := by
  cases slot with
  | array i => rfl
  | node i => exact tagAt_modify i fun _ => ⟨rfl, rfl⟩

theorem join_map_val (node : List (Node K V)) (i : Nat) :
    (node.map Node.val)[i]?.join = node[i]?.bind Node.val := by
  rw [List.getElem?_map]
  cases node[i]? <;> rfl

variable [TableKey K] {t : Table K V} {rest : Nat → List Nat} {k k' : K} {slot slot' : Slot}

theorem dead_removeEntry {node : List (Node K V)} {i : Nat}
    (dead : tagAt (node.map removeEntry) i = some (k, true)) :
    tagAt node i = some (k, true) ∨ iscollectable k = true := by
  obtain ⟨n', at_i, key, killed⟩ := tagAt_eq_some.mp dead
  rw [List.getElem?_map] at at_i
  obtain ⟨n, before, rfl⟩ := Option.map_eq_some_iff.mp at_i
  rcases Bool.or_eq_true_iff.mp killed with old | new
  · exact Or.inl (tagAt_eq_some.mpr ⟨n, before, key, old⟩)
  · have collectable := (Bool.and_eq_true_iff.mp new).2
    rw [show n.key = some k from key] at collectable
    exact Or.inr collectable

theorem Table.Sound.node_key (h : t.Sound rest) {i : Nat} {v : V}
    (value : t.value (.node i) = some v) :
    ∃ k, tagAt t.node i = some (k, false) ∧ t.node[i]?.bind Node.key = some k := by
  obtain ⟨k, tag⟩ := h.valued i (by
    show t.value (.node i) ≠ none
    rw [value]
    exact Option.some_ne_none v)
  obtain ⟨n, at_i, key, _⟩ := tagAt_eq_some.mp tag
  exact ⟨k, tag, by rw [at_i]; exact key⟩

theorem order_inj (here : Located t k slot) (there : Located t k' slot')
    (same : slot.order t.array.length = slot'.order t.array.length) : k = k' := by
  have slots : slot = slot' := by
    cases slot with
    | array i =>
      have inside := here.2
      cases slot' with
      | array j => exact congrArg Slot.array same
      | node j =>
        simp only [Slot.order] at same
        omega
    | node i =>
      cases slot' with
      | array j =>
        have inside := there.2
        simp only [Slot.order] at same
        omega
      | node j =>
        simp only [Slot.order, Nat.add_left_cancel_iff] at same
        rw [same]
  subst slots
  exact located_key here there

variable [DecidableEq K]

/-- `luaH_next` gives the first key with a value behind the one that it gets. -/
theorem Table.Sound.luaHNext (h : t.Sound rest) {key : TValue K} {p : Nat}
    (index : findindex t key = .ok ((p : Int) - 1)) :
    (∃ k v slot, DriverSF.luaHNext t key = .ok (some (k, v)) ∧ Located t k slot ∧
      t.value slot = some v ∧ p ≤ slot.order t.array.length ∧
      ∀ slot', p ≤ slot'.order t.array.length →
        slot'.order t.array.length < slot.order t.array.length → t.value slot' = none) ∨
    DriverSF.luaHNext t key = .ok none ∧
      ∀ slot', p ≤ slot'.order t.array.length → t.value slot' = none := by
  have start : ((p : Int) - 1 + 1).toNat = p := by omega
  unfold DriverSF.luaHNext
  simp only [index, bind, Except.bind, start]
  rcases firstFrom_spec t.array (t.array.length - p) p with
    ⟨j, v, run, low, found, none_before⟩ | ⟨run, none_there⟩
  · have inside : j < t.array.length := by
      by_contra outside
      rw [List.getElem?_eq_none (Nat.le_of_not_lt outside)] at found
      cases found
    obtain ⟨first, second⟩ := h.in_int inside
    simp only [run]
    refine Or.inl ⟨ofInt (j + 1 : Int), v, .array j, rfl,
      ⟨arrayindex_ofInt _ first second, inside⟩, found, low, fun slot' low' high' => ?_⟩
    cases slot' with
    | array i => exact none_before i low' high'
    | node i =>
      simp only [Slot.order] at high'
      omega
  · have none_array : ∀ i, p ≤ i → t.value (.array i) = none := by
      intro i low
      by_cases inside : i < t.array.length
      · exact none_there i low (by omega)
      · rw [Table.value, List.getElem?_eq_none (Nat.le_of_not_lt inside)]
        rfl
    simp only [run]
    rcases firstFrom_spec (t.node.map Node.val) (t.node.length - (p - t.array.length))
      (p - t.array.length) with ⟨j, v, run', low, found, none_before⟩ | ⟨run', none_nodes⟩
    · rw [join_map_val] at found
      obtain ⟨k, tag, key_at⟩ := h.node_key found
      simp only [run', key_at]
      refine Or.inl ⟨k, v, .node j, rfl, tag, found, ?_, fun slot' low' high' => ?_⟩
      · simp only [Slot.order]
        omega
      · cases slot' with
        | array i => exact none_array i low'
        | node i =>
          simp only [Slot.order] at low' high'
          have value := none_before i (by omega) (by omega)
          rwa [join_map_val] at value
    · simp only [run']
      refine Or.inr ⟨rfl, fun slot' low' => ?_⟩
      cases slot' with
      | array i => exact none_array i low'
      | node i =>
        simp only [Slot.order] at low'
        by_cases inside : i < t.node.length
        · have value := none_nodes i (by omega) (by omega)
          rwa [join_map_val] at value
        · rw [Table.value, List.getElem?_eq_none (Nat.le_of_not_lt inside)]
          rfl

end Order

/-- A traversal: the table, the key that the next call gets, and what the calls gave. -/
structure Traversal (K V : Type) where
  table : Table K V
  control : Option (TValue K)
  visited : List (K × V)

variable [DecidableEq K] [TableKey K]

/-- What a program may do during a traversal, and the collector. -/
inductive TraversalStep : Traversal K V → Traversal K V → Prop where
  | next {s : Traversal K V} {key : TValue K} {k : K} {v : V} (control : s.control = some key)
      (run : luaHNext s.table key = .ok (some (k, v))) :
      TraversalStep s { s with control := some (.key k), visited := s.visited ++ [(k, v)] }
  | finish {s : Traversal K V} {key : TValue K} (control : s.control = some key)
      (run : luaHNext s.table key = .ok none) : TraversalStep s { s with control := none }
  | assign {s : Traversal K V} (fuel : Nat) {k : K} {v : Option V} {t : Table K V}
      (used : s.table.valueOf k ≠ none) (run : luaRawset fuel s.table (.key k) v = .ok t) :
      TraversalStep s { s with table := t }
  | traverse {s : Traversal K V} : TraversalStep s { s with table := removeEntries s.table }

variable {t t' : Table K V} {rest : Nat → List Nat} {k : K} {slot : Slot}

section Kept

/-- What stays of a table while it is traversed. -/
structure KeptTable (t t' : Table K V) (rest : Nat → List Nat) : Prop where
  sound : t'.Sound rest
  array : t'.array.length = t.array.length
  nodes : t'.node.length = t.node.length
  keys : ∀ i, (tagAt t'.node i).map Prod.fst = (tagAt t.node i).map Prod.fst
  live : ∀ i k, tagAt t'.node i = some (k, false) → tagAt t.node i = some (k, false)
  dead : ∀ i k, tagAt t.node i = some (k, false) → tagAt t'.node i = some (k, true) →
    iscollectable k = true
  values : ∀ k, t'.valueOf k ≠ none → t.valueOf k ≠ none

theorem KeptTable.refl (h : t.Sound rest) : KeptTable t t rest where
  sound := h
  array := rfl
  nodes := rfl
  keys _ := rfl
  live _ _ found := found
  dead i k live dead := by
    have same := live.symm.trans dead
    simp at same
  values _ used := used

theorem KeptTable.located (h : KeptTable t t' rest) (here : Located t' k slot) : Located t k slot := by
  cases slot with
  | array i => exact ⟨here.1, h.array ▸ here.2⟩
  | node i => exact h.live i k here

/-- A key that has a value may get another one, or lose it. -/
theorem KeptTable.store (h : KeptTable t t' rest) (here : Located t' k slot) (used : t'.valueOf k ≠ none)
    (v : Option V) : KeptTable t (t'.store slot v) rest where
  sound := h.sound.store here v
  array := (length_store slot v).1.trans h.array
  nodes := (length_store slot v).2.trans h.nodes
  keys := by
    rw [tagAt_store]
    exact h.keys
  live := by
    rw [tagAt_store]
    exact h.live
  dead := by
    rw [tagAt_store]
    exact h.dead
  values k' used' := by
    rw [h.sound.valueOf_store here v] at used'
    by_cases same : k' = k
    · rw [same]
      exact h.values k used
    · rw [Function.update_of_ne same] at used'
      exact h.values k' used'

theorem KeptTable.removeEntries (h : KeptTable t t' rest) : KeptTable t (removeEntries t') rest where
  sound := h.sound.removeEntries
  array := h.array
  nodes := (List.length_map _).trans h.nodes
  keys i := (tagAt_removeEntry t'.node i).trans (h.keys i)
  live i k found := h.live i k (tagAt_of_removeEntry found)
  dead i k live dead := (dead_removeEntry dead).elim (h.dead i k live) id
  values k used := h.values k (by rwa [h.sound.valueOf_removeEntries] at used)

theorem find?_of_imp {α : Type} {p q : α → Bool} {places : List α} {i : α}
    (first : places.find? p = some i) (good : q i = true) (imp : ∀ j, q j = true → p j = true) :
    places.find? q = some i := by
  obtain ⟨_, front, back, split, before⟩ := List.find?_eq_some_iff_append.mp first
  refine List.find?_eq_some_iff_append.mpr ⟨good, front, back, split, fun j member => ?_⟩
  have bad := before j member
  simp only [Bool.not_eq_true', ← Bool.not_eq_true] at bad ⊢
  exact fun found => bad (imp j found)

/-- The keys that the traversal met still have their numbers, dead or not. -/
theorem KeptTable.findindex (kept : KeptTable t t' rest) (h : t.Sound rest) (here : Located t k slot) :
    DriverSF.findindex t' (.key k) = .ok (slot.order t'.array.length) := by
  cases slot with
  | array i =>
    obtain ⟨index, inside⟩ := here
    have range : (0 : Int) < (i + 1 : Int) ∧ (i + 1 : Int) ≤ t'.array.length := by
      rw [kept.array]
      omega
    simp only [DriverSF.findindex, index, Option.filter_some, decide_eq_true range, if_true]
    congr
    simp only [Slot.order]
    omega
  | node i =>
    have found : tagAt t.node i = some (k, false) := here
    have inside : i < t'.node.length := by
      rw [kept.nodes]
      exact lt_of_tagAt (by rw [found]; exact Option.some_ne_none _)
    have filled : 0 < t'.node.length := Nat.zero_lt_of_lt inside
    have out : ((arrayindex k).filter fun j : Int => 0 < j ∧ j ≤ t'.array.length) = none := by
      refine Option.filter_eq_none_iff.mpr fun j index range => ?_
      have bounds := of_decide_eq_true range
      rw [kept.array] at bounds
      refine h.outside i k found ⟨j.toNat - 1, ?_, by omega⟩
      rw [index]
      congr
      omega
    have search := kept.sound.search (k := k) filled
      fun n => n.key == some k && (!n.dead || iscollectable k)
    have first := h.hashed.find_first found
    rw [← kept.nodes] at first
    have here' : (rest (mainposition t'.node.length k)).find? (fun j => t'.node[j]?.any
        fun n => n.key == some k && (!n.dead || iscollectable k)) = some i := by
      refine find?_of_imp first ?_ fun j good => ?_
      · have same := kept.keys i
        rw [found] at same
        obtain ⟨⟨k', d⟩, tag, eq⟩ := Option.map_eq_some_iff.mp same
        cases eq
        obtain ⟨n, at_i, key, alive⟩ := tagAt_eq_some.mp tag
        rw [at_i]
        cases d with
        | false => simp [key, alive]
        | true => simp [key, kept.dead i k found tag]
      · rw [Option.any_eq_true] at good
        obtain ⟨n, at_j, good⟩ := good
        have key : n.key = some k := by
          have both := (Bool.and_eq_true_iff.mp good).1
          simpa using both
        rw [decide_eq_true_iff, ← kept.keys j, tagAt_of at_j, key]
        rfl
    rw [here'] at search
    simp only [DriverSF.findindex, out, if_neg (Nat.ne_of_gt filled), search, bind, Except.bind]
    show Except.ok ((i : Int) + t'.array.length) = _
    rw [Slot.order]
    congr 1
    omega

end Kept

section Runs

/-- The key that the next call gets comes before the places from `p` on. -/
def Control (t : Table K V) (key : TValue K) (p : Nat) : Prop :=
  key = .nil ∧ p = 0 ∨
    ∃ k slot, key = .key k ∧ Located t k slot ∧ p = slot.order t.array.length + 1

theorem Control.findindex {key : TValue K} {p : Nat} (control : Control t key p)
    (h : t.Sound rest) (kept : KeptTable t t' rest) :
    DriverSF.findindex t' key = .ok ((p : Int) - 1) := by
  rcases control with ⟨rfl, rfl⟩ | ⟨k, slot, rfl, here, rfl⟩
  · rfl
  · rw [kept.findindex h here, kept.array]
    congr 1
    omega

/-- What holds after any number of calls, where the places below `p` have been passed. -/
structure Visiting (t : Table K V) (rest : Nat → List Nat) (s : Traversal K V) (p : Nat) : Prop where
  kept : KeptTable t s.table rest
  control : ∀ key, s.control = some key → Control t key p
  ended : s.control = none → ∀ slot, p ≤ slot.order t.array.length → s.table.value slot = none
  before : ∀ e ∈ s.visited, ∃ slot, Located t e.1 slot ∧ slot.order t.array.length < p
  values : ∀ e ∈ s.visited, t.valueOf e.1 ≠ none
  nodup : (s.visited.map Prod.fst).Nodup
  all : ∀ k slot, Located s.table k slot → slot.order t.array.length < p →
    s.table.value slot ≠ none → k ∈ s.visited.map Prod.fst

variable {s s' : Traversal K V} {p : Nat}

/-- The next key has not been visited. -/
theorem Visiting.fresh (h : t.Sound rest) (passed : Visiting t rest s p)
    (here : Located s.table k slot) (behind : p ≤ slot.order t.array.length) :
    k ∉ s.visited.map Prod.fst := by
  intro member
  obtain ⟨e, visited, rfl⟩ := List.mem_map.mp member
  obtain ⟨slot', there, less⟩ := passed.before e visited
  rw [h.located_inj there (passed.kept.located here)] at less
  omega

theorem Visiting.call (h : t.Sound rest) (passed : Visiting t rest s p) {key : TValue K}
    (control : s.control = some key) :
    (∃ k v slot, luaHNext s.table key = .ok (some (k, v)) ∧ Located s.table k slot ∧
      s.table.value slot = some v ∧ p ≤ slot.order t.array.length ∧
      ∀ slot', p ≤ slot'.order t.array.length →
        slot'.order t.array.length < slot.order t.array.length → s.table.value slot' = none) ∨
    luaHNext s.table key = .ok none ∧
      ∀ slot', p ≤ slot'.order t.array.length → s.table.value slot' = none := by
  have index := (passed.control key control).findindex h passed.kept
  have run := passed.kept.sound.luaHNext index
  rwa [passed.kept.array] at run

theorem Visiting.step (h : t.Sound rest) (passed : Visiting t rest s p) (step : TraversalStep s s') :
    ∃ p', Visiting t rest s' p' := by
  cases step with
  | @next key k v control run =>
    rcases passed.call h control with ⟨k', v', slot, run', here, value, behind, gap⟩ | ⟨run', _⟩
    · cases run.symm.trans run'
      have used : s.table.valueOf k ≠ none := by
        rw [passed.kept.sound.valueOf_located here, value]
        exact Option.some_ne_none v
      refine ⟨slot.order t.array.length + 1, passed.kept, ?_, ?_, ?_, ?_, ?_, ?_⟩
      · intro key same
        cases same
        exact Or.inr ⟨k, slot, rfl, passed.kept.located here, rfl⟩
      · intro none_left
        cases none_left
      · intro e member
        rcases List.mem_append.mp member with member | member
        · obtain ⟨slot', there, less⟩ := passed.before e member
          exact ⟨slot', there, by omega⟩
        · cases List.mem_singleton.mp member
          exact ⟨slot, passed.kept.located here, Nat.lt_succ_self _⟩
      · intro e member
        rcases List.mem_append.mp member with member | member
        · exact passed.values e member
        · cases List.mem_singleton.mp member
          exact passed.kept.values k used
      · rw [List.map_append]
        refine List.nodup_append.mpr ⟨passed.nodup, List.nodup_singleton k, ?_⟩
        rintro a old b new rfl
        rw [List.mem_singleton.mp new] at old
        exact passed.fresh h here behind old
      · intro k' slot' there less used'
        rw [List.map_append]
        by_cases old : slot'.order t.array.length < p
        · exact List.mem_append_left _ (passed.all k' slot' there old used')
        · by_cases between : slot'.order t.array.length < slot.order t.array.length
          · exact absurd (gap slot' (Nat.le_of_not_lt old) between) used'
          · have same : slot'.order t.array.length = slot.order t.array.length := by omega
            rw [← passed.kept.array] at same
            have key_same := order_inj there here same
            exact List.mem_append_right _ (List.mem_singleton.mpr key_same)
    · cases run.symm.trans run'
  | @finish key control run =>
    rcases passed.call h control with ⟨k, v, slot, run', _⟩ | ⟨_, none_left⟩
    · cases run.symm.trans run'
    · refine ⟨p, passed.kept, ?_, fun _ => none_left, passed.before, passed.values, passed.nodup,
        passed.all⟩
      intro key none_there
      cases none_there
  | @assign fuel k v t' used run =>
    obtain ⟨slot, here⟩ : ∃ slot, Located s.table k slot := by
      by_contra absent
      exact used (passed.kept.sound.valueOf_absent (not_exists.mp absent))
    have stored : t' = s.table.store slot v := by
      rw [luaRawset, luaHSet, luaHSetWith, passed.kept.sound.luaHGet_located here] at run
      exact (Except.ok.inj run).symm
    subst stored
    have other : ∀ slot', s.table.value slot' = none → slot' ≠ slot := by
      rintro slot' empty rfl
      exact used (by rw [passed.kept.sound.valueOf_located here, empty])
    refine ⟨p, passed.kept.store here used v, passed.control, ?_, passed.before, passed.values,
      passed.nodup, ?_⟩
    · intro none_left slot' behind
      have empty := passed.ended none_left slot' behind
      show (s.table.store slot v).value slot' = none
      rw [value_store_of_ne (other slot' empty)]
      exact empty
    · intro k' slot' there less used'
      have there' : Located s.table k' slot' := located_store.mp there
      by_cases empty : s.table.value slot' = none
      · refine absurd ?_ used'
        show (s.table.store slot v).value slot' = none
        rw [value_store_of_ne (other slot' empty)]
        exact empty
      · exact passed.all k' slot' there' less empty
  | traverse =>
    have same : ∀ slot, (removeEntries s.table).value slot = s.table.value slot := by
      intro slot
      cases slot with
      | array i => rfl
      | node i => exact congrFun (valAt_removeEntry s.table.node) i
    refine ⟨p, passed.kept.removeEntries, passed.control, ?_, passed.before, passed.values,
      passed.nodup, ?_⟩
    · intro none_left slot behind
      rw [same]
      exact passed.ended none_left slot behind
    · intro k slot here less used
      rw [same] at used
      refine passed.all k slot ?_ less used
      cases slot with
      | array i => exact here
      | node i => exact tagAt_of_removeEntry here

theorem Visiting.start (h : t.Sound rest) : Visiting t rest ⟨t, some .nil, []⟩ 0 where
  kept := KeptTable.refl h
  control _ same := Or.inl ⟨(Option.some.inj same).symm, rfl⟩
  ended none_left := absurd none_left (Option.some_ne_none _)
  before _ member := absurd member List.not_mem_nil
  values _ member := absurd member List.not_mem_nil
  nodup := List.nodup_nil
  all _ _ _ less := absurd less (Nat.not_lt_zero _)

/-- What a traversal of a table has done, and the next call of `luaH_next` will do. -/
structure VisitsOnce (t : Table K V) (s : Traversal K V) : Prop where
  distinct : (s.visited.map Prod.fst).Nodup
  valued : ∀ e ∈ s.visited, t.valueOf e.1 ≠ none
  next : ∀ key, s.control = some key →
    (∃ k v, luaHNext s.table key = .ok (some (k, v)) ∧ s.table.valueOf k = some v ∧
      k ∉ s.visited.map Prod.fst) ∨
    luaHNext s.table key = .ok none
  complete : s.control = none → ∀ k, s.table.valueOf k ≠ none → k ∈ s.visited.map Prod.fst

/-- A traversal visits every key that keeps a value exactly once, and no call fails. -/
theorem traversal_visits_once (reached : ReachedTable t)
    (run : Relation.ReflTransGen TraversalStep ⟨t, some .nil, []⟩ s) : VisitsOnce t s := by
  obtain ⟨rest, h⟩ := reached.sound
  obtain ⟨p, passed⟩ : ∃ p, Visiting t rest s p := by
    induction run with
    | refl => exact ⟨0, Visiting.start h⟩
    | tail _ step ih =>
      obtain ⟨p, passed⟩ := ih
      exact passed.step h step
  refine ⟨passed.nodup, passed.values, fun key control => ?_, fun ended k used => ?_⟩
  · rcases passed.call h control with ⟨k, v, slot, call, here, value, behind, _⟩ | ⟨call, _⟩
    · refine Or.inl ⟨k, v, call, ?_, passed.fresh h here behind⟩
      rw [passed.kept.sound.valueOf_located here, value]
    · exact Or.inr call
  · obtain ⟨slot, here⟩ : ∃ slot, Located s.table k slot := by
      by_contra absent
      exact used (passed.kept.sound.valueOf_absent (not_exists.mp absent))
    rw [passed.kept.sound.valueOf_located here] at used
    refine passed.all k slot here ?_ used
    by_contra behind
    exact used (passed.ended ended slot (Nat.le_of_not_lt behind))

end Runs

section Example

/-- The menu while it is traversed: one of its entries has been cleared and its key has died. -/
def deadMenu : Table ScriptKey Nat :=
  ⟨[some 5], [⟨some (.string (bytes "menu")), true, none, some 1⟩,
    ⟨some (.string (bytes "exit")), false, some 8, none⟩], 1⟩

def menuTraversal : Traversal ScriptKey Nat where
  table := deadMenu
  control := none
  visited := [(.integer 1, 5), (.string (bytes "menu"), 7), (.string (bytes "exit"), 8)]

theorem traversal_visits_once_menu : VisitsOnce fullMenu menuTraversal := by
  refine traversal_visits_once fullMenu_reached.1 ?_
  have first : TraversalStep ⟨fullMenu, some .nil, []⟩
      ⟨fullMenu, some (.key (.integer 1)), [(.integer 1, 5)]⟩ := .next rfl rfl
  have second : TraversalStep ⟨fullMenu, some (.key (.integer 1)), [(.integer 1, 5)]⟩
      ⟨fullMenu, some (.key (.string (bytes "menu"))),
        [(.integer 1, 5), (.string (bytes "menu"), 7)]⟩ := .next rfl rfl
  have cleared : TraversalStep
      ⟨fullMenu, some (.key (.string (bytes "menu"))),
        [(.integer 1, 5), (.string (bytes "menu"), 7)]⟩
      ⟨fullMenu.store (.node 0) none, some (.key (.string (bytes "menu"))),
        [(.integer 1, 5), (.string (bytes "menu"), 7)]⟩ :=
    .assign 0 (k := .string (bytes "menu")) (v := none) (by decide) rfl
  have killed : TraversalStep
      ⟨fullMenu.store (.node 0) none, some (.key (.string (bytes "menu"))),
        [(.integer 1, 5), (.string (bytes "menu"), 7)]⟩
      ⟨deadMenu, some (.key (.string (bytes "menu"))),
        [(.integer 1, 5), (.string (bytes "menu"), 7)]⟩ := .traverse
  have third : TraversalStep
      ⟨deadMenu, some (.key (.string (bytes "menu"))),
        [(.integer 1, 5), (.string (bytes "menu"), 7)]⟩
      ⟨deadMenu, some (.key (.string (bytes "exit"))), menuTraversal.visited⟩ := .next rfl rfl
  have ended : TraversalStep
      ⟨deadMenu, some (.key (.string (bytes "exit"))), menuTraversal.visited⟩ menuTraversal :=
    .finish rfl rfl
  exact (((((Relation.ReflTransGen.single first).tail second).tail cleared).tail killed).tail
    third).tail ended

end Example

end DriverSF
