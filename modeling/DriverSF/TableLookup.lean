import Mathlib.Tactic.Tauto
import DriverSF.LuaTable
import DriverSF.ScatterTable

namespace DriverSF

open Chains ScatterTable TableKey

variable {K V : Type}

/-- The key of a node and whether it is dead. -/
def tagAt (node : List (Node K V)) (i : Nat) : Option (K × Bool) :=
  node[i]?.bind fun n => n.key.map fun k => (k, n.dead)

def linkAt (node : List (Node K V)) (i : Nat) : Option Nat := node[i]?.bind Node.next

def valAt (node : List (Node K V)) (i : Nat) : Option V := node[i]?.bind Node.val

section Nodes

variable {node : List (Node K V)} {i j : Nat} {k : K} {n : Node K V}

theorem tagAt_eq_some {d : Bool} :
    tagAt node i = some (k, d) ↔ ∃ n, node[i]? = some n ∧ n.key = some k ∧ n.dead = d := by
  unfold tagAt
  rcases node[i]? with _ | n
  · simp
  · simp [and_left_comm]

theorem tagAt_of (found : node[i]? = some n) : tagAt node i = n.key.map fun k => (k, n.dead) := by
  rw [tagAt, found]
  rfl

theorem lt_of_tagAt (used : tagAt node i ≠ none) : i < node.length := by
  by_contra outside
  rw [tagAt, List.getElem?_eq_none (Nat.le_of_not_lt outside)] at used
  exact used rfl

theorem tagAt_set (inside : i < node.length) (n : Node K V) :
    tagAt (node.set i n) = Function.update (tagAt node) i (n.key.map fun k => (k, n.dead)) := by
  funext j
  by_cases same : j = i
  · subst same
    rw [Function.update_self, tagAt, List.getElem?_set_self inside]
    rfl
  · rw [Function.update_of_ne same, tagAt, List.getElem?_set_ne (Ne.symm same)]
    rfl

theorem linkAt_set (inside : i < node.length) (n : Node K V) :
    linkAt (node.set i n) = Function.update (linkAt node) i n.next := by
  funext j
  by_cases same : j = i
  · subst same
    rw [Function.update_self, linkAt, List.getElem?_set_self inside]
    rfl
  · rw [Function.update_of_ne same, linkAt, List.getElem?_set_ne (Ne.symm same)]
    rfl

theorem valAt_set (inside : i < node.length) (n : Node K V) :
    valAt (node.set i n) = Function.update (valAt node) i n.val := by
  funext j
  by_cases same : j = i
  · subst same
    rw [Function.update_self, valAt, List.getElem?_set_self inside]
    rfl
  · rw [Function.update_of_ne same, valAt, List.getElem?_set_ne (Ne.symm same)]
    rfl

theorem tagAt_modify (p : Nat) {f : Node K V → Node K V}
    (same : ∀ n, (f n).key = n.key ∧ (f n).dead = n.dead) :
    tagAt (node.modify p f) = tagAt node := by
  funext j
  unfold tagAt
  by_cases here : j = p
  · subst here
    rw [List.getElem?_modify_eq]
    rcases node[j]? with _ | n
    · rfl
    · simp [same n]
  · rw [List.getElem?_modify_ne _ _ (Ne.symm here)]

theorem linkAt_modify (p : Nat) {f : Node K V → Node K V} (same : ∀ n, (f n).next = n.next) :
    linkAt (node.modify p f) = linkAt node := by
  funext j
  unfold linkAt
  by_cases here : j = p
  · subst here
    rw [List.getElem?_modify_eq]
    rcases node[j]? with _ | n
    · rfl
    · simp [same n]
  · rw [List.getElem?_modify_ne _ _ (Ne.symm here)]

theorem valAt_modify (p : Nat) {f : Node K V → Node K V} (same : ∀ n, (f n).val = n.val) :
    valAt (node.modify p f) = valAt node := by
  funext j
  unfold valAt
  by_cases here : j = p
  · subst here
    rw [List.getElem?_modify_eq]
    rcases node[j]? with _ | n
    · rfl
    · simp [same n]
  · rw [List.getElem?_modify_ne _ _ (Ne.symm here)]

theorem tagAt_relink (p : Nat) (next : Option Nat) :
    tagAt (node.modify p fun x => { x with next := next }) = tagAt node :=
  tagAt_modify p fun _ => ⟨rfl, rfl⟩

theorem valAt_relink (p : Nat) (next : Option Nat) :
    valAt (node.modify p fun x => { x with next := next }) = valAt node :=
  valAt_modify p fun _ => rfl

theorem linkAt_relink {p : Nat} (inside : p < node.length) (next : Option Nat) :
    linkAt (node.modify p fun x => { x with next := next }) =
      Function.update (linkAt node) p next := by
  funext j
  by_cases same : j = p
  · subst same
    rw [Function.update_self, linkAt, List.getElem?_modify_eq, List.getElem?_eq_getElem inside]
    rfl
  · rw [Function.update_of_ne same, linkAt, List.getElem?_modify_ne _ _ (Ne.symm same)]
    rfl

/-- A loop along a chain is a search among its nodes. -/
theorem findNode_eq {rest : Nat → List Nat} (h : Follows (linkAt node) rest)
    (p : Node K V → Bool) {fuel : Nat} (inside : ∀ j ∈ rest i, j < node.length)
    (enough : (rest i).length ≤ fuel) :
    findNode node p fuel i = .ok ((rest i).find? fun j => node[j]?.any p) := by
  induction fuel generalizing i with
  | zero =>
    rw [h i] at enough
    exact absurd enough (Nat.not_succ_le_zero _)
  | succ fuel ih =>
    have here := inside i (h.mem_self i)
    obtain ⟨n, found⟩ : ∃ n, node[i]? = some n := ⟨_, List.getElem?_eq_getElem here⟩
    rw [findNode, found]
    by_cases good : p n = true
    · simp only [good, if_true]
      rw [h i, List.find?_cons_of_pos]
      simp [found, good]
    · have passed : node[i]?.any p = false := by
        rw [found]
        simpa using good
      simp only [if_neg good]
      cases last : n.next with
      | none =>
        have stop : linkAt node i = none := by rw [linkAt, found]; exact last
        rw [h.of_none stop, List.find?_cons, passed]
        rfl
      | some j =>
        have go : linkAt node i = some j := by rw [linkAt, found]; exact last
        have shape := h.of_some go
        rw [shape] at inside enough
        rw [shape, List.find?_cons, passed]
        exact ih (fun x member => inside x (List.mem_cons_of_mem i member))
          (Nat.le_of_succ_le_succ enough)

/-- The search for a free place goes down to the first one. -/
theorem getfreepos_spec (node : List (Node K V)) (lastfree : Nat) :
    (∃ n, getfreepos node lastfree = (some n, n) ∧ n < lastfree ∧
      (node[n]?.bind Node.key) = none ∧
      ∀ i, n < i → i < lastfree → (node[i]?.bind Node.key) ≠ none) ∨
    getfreepos node lastfree = (none, 0) ∧
      ∀ i, i < lastfree → (node[i]?.bind Node.key) ≠ none := by
  induction lastfree with
  | zero => exact Or.inr ⟨rfl, fun i less => absurd less (Nat.not_lt_zero i)⟩
  | succ l ih =>
    by_cases free : (node[l]?.bind Node.key) = none
    · refine Or.inl ⟨l, ?_, Nat.lt_succ_self l, free, fun i less less' => ?_⟩
      · rw [getfreepos, free]
        rfl
      · omega
    · have step : getfreepos node (l + 1) = getfreepos node l := by
        rw [getfreepos, if_neg]
        simpa using free
      rw [step]
      rcases ih with ⟨n, run, less, empty, above⟩ | ⟨run, all⟩
      · refine Or.inl ⟨n, run, by omega, empty, fun i low high => ?_⟩
        by_cases top : i = l
        · rw [top]
          exact free
        · exact above i low (by omega)
      · refine Or.inr ⟨run, fun i high => ?_⟩
        by_cases top : i = l
        · rw [top]
          exact free
        · exact all i (by omega)

theorem tagAt_eq_none (inside : i < node.length) :
    tagAt node i = none ↔ (node[i]?.bind Node.key) = none := by
  unfold tagAt
  rw [List.getElem?_eq_getElem inside]
  simp

theorem holds_iff [DecidableEq K] (node : List (Node K V)) (j : Nat) :
    node[j]?.any (Node.holds k) = decide (tagAt node j = some (k, false)) := by
  unfold tagAt
  rcases node[j]? with _ | ⟨_ | k', _ | _, v, next⟩ <;>
    simp [Node.holds, Bool.beq_eq_decide_eq]

end Nodes

section Positions

variable [TableKey K]

theorem or_one_le (x : Nat) : 0 < x ||| 1 ∧ x ||| 1 ≤ x + 1 := by
  have half : (x ||| 1) / 2 = x / 2 := by
    rw [Nat.or_div_two]
    exact Nat.or_zero _
  have odd : (x ||| 1) % 2 = 1 := Nat.or_mod_two_eq_one.mpr (Or.inr rfl)
  omega

theorem mainposition_lt {size : Nat} (filled : 0 < size) (k : K) : mainposition size k < size := by
  have mask : hashvalue k &&& (size - 1) ≤ size - 1 := Nat.and_le_right
  obtain ⟨positive, bound⟩ := or_one_le (size - 1)
  have modulus := Nat.mod_lt (hashvalue k) positive
  unfold mainposition
  split <;> omega

end Positions

section Tables

theorem length_store {t : Table K V} (slot : Slot) (v : Option V) :
    (t.store slot v).array.length = t.array.length ∧
      (t.store slot v).node.length = t.node.length := by
  cases slot with
  | array i => exact ⟨List.length_set, rfl⟩
  | node i => exact ⟨rfl, List.length_modify _ _ _⟩

theorem value_store_of_ne {t : Table K V} {slot slot' : Slot} (other : slot' ≠ slot) (v : Option V) :
    (t.store slot v).value slot' = t.value slot' := by
  cases slot with
  | array i =>
    cases slot' with
    | array j =>
      have apart : i ≠ j := fun same => other (congrArg Slot.array same.symm)
      simp only [Table.value, Table.store]
      rw [List.getElem?_set_ne apart]
    | node j => rfl
  | node i =>
    cases slot' with
    | array j => rfl
    | node j =>
      have apart : i ≠ j := fun same => other (congrArg Slot.node same.symm)
      simp only [Table.value, Table.store]
      rw [List.getElem?_modify_ne _ _ apart]

variable [TableKey K]

/-- The key is kept in an array part of this size. -/
def InArray (size : Nat) (k : K) : Prop := ∃ i : Nat, arrayindex k = some (i + 1 : Int) ∧ i < size

/-- What holds of every table, for the chains that its links make. -/
structure Table.Sound (t : Table K V) (rest : Nat → List Nat) : Prop where
  hashed : Hashed t.node.length (mainposition t.node.length) (tagAt t.node) (linkAt t.node) rest
  filled : ∀ i, t.lastfree ≤ i → i < t.node.length → tagAt t.node i ≠ none
  lastfree : t.lastfree ≤ t.node.length
  valued : ∀ i, valAt t.node i ≠ none → ∃ k, tagAt t.node i = some (k, false)
  outside : ∀ i k, tagAt t.node i = some (k, false) → ¬InArray t.array.length k
  small : t.array.length ≤ maxasize
  nodes : t.node.length ≤ 2 ^ maxbits

/-- The slot that a key has. -/
def Located (t : Table K V) (k : K) : Slot → Prop
  | .array i => arrayindex k = some (i + 1 : Int) ∧ i < t.array.length
  | .node i => tagAt t.node i = some (k, false)

variable {t : Table K V} {rest : Nat → List Nat} {k : K}

theorem Table.Sound.search (h : t.Sound rest) (filled : 0 < t.node.length) (p : Node K V → Bool) :
    findNode t.node p t.node.length (mainposition t.node.length k) =
      .ok ((rest (mainposition t.node.length k)).find? fun j => t.node[j]?.any p) := by
  have start := mainposition_lt filled k
  exact findNode_eq h.hashed.follows p (h.hashed.mem_inside start) (h.hashed.length_le start)

theorem Table.Sound.in_int (h : t.Sound rest) {i : Nat} (inside : i < t.array.length) :
    (-2147483648 : Int) ≤ (i + 1 : Int) ∧ (i + 1 : Int) < 2147483648 := by
  have small := h.small
  simp only [maxasize, maxbits] at small
  omega

theorem Table.Sound.located_inj (h : t.Sound rest) {slot slot' : Slot} (here : Located t k slot)
    (there : Located t k slot') : slot = slot' := by
  cases slot with
  | array i =>
    cases slot' with
    | array j =>
      have same := here.1.symm.trans there.1
      simp only [Option.some.injEq] at same
      congr
      omega
    | node j => exact absurd ⟨i, here.1, here.2⟩ (h.outside j k there)
  | node i =>
    cases slot' with
    | array j => exact absurd ⟨j, there.1, there.2⟩ (h.outside i k here)
    | node j => rw [h.hashed.unique i j k here there]

/-- Different keys have different slots. -/
theorem located_key {k' : K} {slot : Slot} (here : Located t k slot) (there : Located t k' slot) :
    k = k' := by
  cases slot with
  | array i =>
    exact (ofInt_arrayindex k _ here.1).symm.trans (ofInt_arrayindex k' _ there.1)
  | node i =>
    have same := here.symm.trans there
    simp only [Option.some.injEq, Prod.mk.injEq] at same
    exact same.1

/-- A value is stored where its key is. -/
theorem Table.Sound.store (h : t.Sound rest) {slot : Slot} (here : Located t k slot)
    (v : Option V) : (t.store slot v).Sound rest := by
  cases slot with
  | array i =>
    have length : (t.array.set i v).length = t.array.length := List.length_set
    refine ⟨h.hashed, h.filled, h.lastfree, h.valued, ?_, ?_, h.nodes⟩
    · intro j k' found
      show ¬InArray (t.array.set i v).length k'
      rw [length]
      exact h.outside j k' found
    · show (t.array.set i v).length ≤ maxasize
      rw [length]
      exact h.small
  | node i =>
    have tags : tagAt (t.node.modify i fun n => { n with val := v }) = tagAt t.node :=
      tagAt_modify i fun n => ⟨rfl, rfl⟩
    have links : linkAt (t.node.modify i fun n => { n with val := v }) = linkAt t.node :=
      linkAt_modify i fun n => rfl
    have length : (t.node.modify i fun n => { n with val := v }).length = t.node.length :=
      List.length_modify _ _ _
    refine ⟨?_, ?_, ?_, ?_, ?_, h.small, ?_⟩
    · simpa only [Table.store, tags, links, length] using h.hashed
    · simpa only [Table.store, tags, length] using h.filled
    · simpa only [Table.store, length] using h.lastfree
    · intro j used
      simp only [Table.store, tags] at used ⊢
      by_cases same : j = i
      · rw [same]
        exact ⟨k, here⟩
      · rw [valAt, List.getElem?_modify_ne _ _ (Ne.symm same)] at used
        exact h.valued j used
    · simpa only [Table.store, tags] using h.outside
    · simpa only [Table.store, length] using h.nodes

theorem located_store {slot slot' : Slot} {v : Option V} {k' : K} :
    Located (t.store slot v) k' slot' ↔ Located t k' slot' := by
  cases slot with
  | array i =>
    cases slot' with
    | array j => simp only [Located, Table.store, List.length_set]
    | node j => rfl
  | node i =>
    cases slot' with
    | array j => rfl
    | node j =>
      have tags : tagAt (t.node.modify i fun n => { n with val := v }) = tagAt t.node :=
        tagAt_modify i fun n => ⟨rfl, rfl⟩
      simp only [Located, Table.store, tags]

theorem value_store_self {slot : Slot} (here : Located t k slot) (v : Option V) :
    (t.store slot v).value slot = v := by
  cases slot with
  | array i =>
    simp only [Table.value, Table.store]
    rw [List.getElem?_set_self here.2]
    rfl
  | node i =>
    obtain ⟨n, found, _⟩ := tagAt_eq_some.mp here
    simp only [Table.value, Table.store]
    rw [List.getElem?_modify_eq, found]
    rfl

variable [DecidableEq K]

theorem Table.Sound.searchNode_eq (h : t.Sound rest) (filled : 0 < t.node.length) :
    searchNode t k = .ok (((rest (mainposition t.node.length k)).find? fun j =>
      tagAt t.node j = some (k, false)).map Slot.node) := by
  unfold searchNode
  rw [if_neg (Nat.ne_of_gt filled), h.search filled]
  simp only [holds_iff]
  rfl

theorem Table.Sound.searchNode_live (h : t.Sound rest) {i : Nat}
    (found : tagAt t.node i = some (k, false)) : searchNode t k = .ok (some (.node i)) := by
  have inside := lt_of_tagAt (by rw [found]; exact Option.some_ne_none _)
  rw [h.searchNode_eq (Nat.zero_lt_of_lt inside), h.hashed.find_live found]
  rfl

theorem Table.Sound.searchNode_absent (h : t.Sound rest)
    (absent : ∀ i, tagAt t.node i ≠ some (k, false)) : searchNode t k = .ok none := by
  by_cases empty : t.node.length = 0
  · rw [searchNode, if_pos empty]
  · have none_found : ((rest (mainposition t.node.length k)).find? fun j =>
        tagAt t.node j = some (k, false)) = none := by
      refine List.find?_eq_none.mpr fun j _ good => ?_
      exact absent j (of_decide_eq_true good)
    rw [h.searchNode_eq (Nat.pos_of_ne_zero empty), none_found]
    rfl

theorem luaHGetnum_array {i : Nat} (inside : i < t.array.length) :
    luaHGetnum t (i + 1 : Int) = .ok (some (.array i)) := by
  rw [luaHGetnum, if_pos (by omega)]
  have back : ((i + 1 : Int)).toNat - 1 = i := by omega
  rw [back]

/-- Outside the array part the search is among the nodes. -/
theorem luaHGet_node (out : ¬InArray t.array.length k) : luaHGet t k = searchNode t k := by
  unfold luaHGet
  cases index : arrayindex k with
  | none => rfl
  | some i =>
    have away : ¬(0 < i ∧ i ≤ (t.array.length : Int)) := by
      intro range
      refine out ⟨i.toNat - 1, ?_, by omega⟩
      rw [index]
      congr
      omega
    simp only [luaHGetnum, if_neg away]
    rw [ofInt_arrayindex k i index]

theorem luaHGetnum_eq {i : Nat} (bound : (i + 1 : Int) < 2147483648) :
    luaHGetnum t (i + 1 : Int) = luaHGet t (ofInt (i + 1 : Int) : K) := by
  unfold luaHGet
  rw [arrayindex_ofInt (K := K) (i + 1 : Int) (by omega) bound]

/-- `luaH_get` finds the slot of the key. -/
theorem Table.Sound.luaHGet_located (h : t.Sound rest) {slot : Slot} (here : Located t k slot) :
    luaHGet t k = .ok (some slot) := by
  cases slot with
  | array i =>
    rw [luaHGet, here.1]
    exact luaHGetnum_array here.2
  | node i =>
    rw [luaHGet_node (h.outside i k here)]
    exact h.searchNode_live here

theorem Table.Sound.luaHGet_absent (h : t.Sound rest) (absent : ∀ slot, ¬Located t k slot) :
    luaHGet t k = .ok none := by
  rw [luaHGet_node fun ⟨i, index, inside⟩ => absent (.array i) ⟨index, inside⟩]
  exact h.searchNode_absent fun i found => absent (.node i) found

/-- The value that a key has. -/
def Table.valueOf (t : Table K V) (k : K) : Option V :=
  match luaHGet t k with
  | .ok (some slot) => t.value slot
  | _ => none

theorem Table.Sound.valueOf_located (h : t.Sound rest) {slot : Slot} (here : Located t k slot) :
    t.valueOf k = t.value slot := by
  rw [Table.valueOf, h.luaHGet_located here]

theorem Table.Sound.valueOf_absent (h : t.Sound rest) (absent : ∀ slot, ¬Located t k slot) :
    t.valueOf k = none := by
  rw [Table.valueOf, h.luaHGet_absent absent]

/-- After a store the key has the new value, and the others have theirs. -/
theorem Table.Sound.valueOf_store (h : t.Sound rest) {slot : Slot} (here : Located t k slot)
    (v : Option V) : (t.store slot v).valueOf = Function.update t.valueOf k v := by
  have sound := h.store here v
  funext k'
  by_cases same : k' = k
  · subst same
    rw [Function.update_self, sound.valueOf_located (located_store.mpr here)]
    exact value_store_self here v
  · rw [Function.update_of_ne same]
    by_cases found : ∃ slot', Located t k' slot'
    · obtain ⟨slot', there⟩ := found
      have other : slot' ≠ slot := by
        rintro rfl
        exact same (located_key there here)
      rw [sound.valueOf_located (located_store.mpr there), h.valueOf_located there]
      exact value_store_of_ne other v
    · have absent := not_exists.mp found
      rw [h.valueOf_absent absent, sound.valueOf_absent fun slot' there =>
        absent slot' (located_store.mp there)]

end Tables

end DriverSF
