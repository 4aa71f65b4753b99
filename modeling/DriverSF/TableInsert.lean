import DriverSF.TableLookup

namespace DriverSF

open Chains ScatterTable TableKey

variable {K V : Type}

section Used

variable {α : Type} {f : Nat → Option α} {n : Nat}

theorem countP_update_le (x : α) (places : List Nat) :
    places.countP (fun i => (Function.update f n (some x) i).isSome) ≤
      places.countP (fun i => (f i).isSome) + places.count n := by
  induction places with
  | nil => exact Nat.zero_le _
  | cons i places ih =>
    rw [List.countP_cons, List.countP_cons, List.count_cons]
    by_cases same : i = n
    · subst same
      simp only [Function.update_self, Option.isSome_some, if_true, beq_self_eq_true]
      omega
    · have other : (i == n) = false := beq_eq_false_iff_ne.mpr same
      rw [Function.update_of_ne same, other]
      omega

theorem countP_update_used {x : α} (used : f n ≠ none) (places : List Nat) :
    places.countP (fun i => (Function.update f n (some x) i).isSome) =
      places.countP (fun i => (f i).isSome) := by
  refine List.countP_congr fun i _ => ?_
  by_cases same : i = n
  · subst same
    rw [Function.update_self, Option.isSome_iff_ne_none, Option.isSome_iff_ne_none]
    exact ⟨fun _ => used, fun _ => Option.some_ne_none x⟩
  · rw [Function.update_of_ne same]

/-- How many of the nodes have had a key. -/
def used (node : List (Node K V)) : Nat :=
  (List.range node.length).countP fun i => (tagAt node i).isSome

theorem used_update_le {node node' : List (Node K V)} {x : K × Bool}
    (length : node'.length = node.length)
    (tags : tagAt node' = Function.update (tagAt node) n (some x)) : used node' ≤ used node + 1 := by
  have grown := countP_update_le (f := tagAt node) (n := n) x (List.range node.length)
  have once := List.nodup_iff_count_le_one.mp (List.nodup_range (n := node.length)) n
  unfold used
  rw [length, tags]
  omega

theorem used_le (node : List (Node K V)) : used node ≤ node.length := by
  have bound := List.countP_le_length (p := fun i => (tagAt node i).isSome)
    (l := List.range node.length)
  rwa [List.length_range] at bound

theorem used_store {t : Table K V} (slot : Slot) (v : Option V) : used (t.store slot v).node = used t.node := by
  cases slot with
  | array i => rfl
  | node i =>
    have tags : tagAt (t.node.modify i fun n => { n with val := v }) = tagAt t.node :=
      tagAt_modify i fun n => ⟨rfl, rfl⟩
    unfold used
    simp only [Table.store, tags, List.length_modify]

/-- As long as there is room, not every node is taken. -/
theorem exists_free {node : List (Node K V)} (room : used node < node.length) :
    ∃ i, i < node.length ∧ tagAt node i = none := by
  by_contra full
  have all : ∀ i ∈ List.range node.length, (tagAt node i).isSome = true := by
    intro i member
    rw [Option.isSome_iff_ne_none]
    exact fun free => full ⟨i, List.mem_range.mp member, free⟩
  have count := List.countP_eq_length.mpr all
  rw [List.length_range] at count
  exact absurd count (Nat.ne_of_lt room)

end Used

section Tables

variable [TableKey K] {t t' : Table K V} {rest rest' : Nat → List Nat} {k : K}

theorem Table.Sound.val_free (h : t.Sound rest) {i : Nat} (free : tagAt t.node i = none) :
    valAt t.node i = none := by
  by_contra used
  obtain ⟨k, found⟩ := h.valued i used
  rw [free] at found
  cases found

/-- The loop of `newkey` finds the node before the main position. -/
theorem Table.Sound.find_previous (h : t.Sound rest) {km : K}
    (tag : tagAt t.node (mainposition t.node.length k) = some (km, false))
    (foreign : mainposition t.node.length km ≠ mainposition t.node.length k) :
    ∃ p, findNode t.node (fun x => x.next == some (mainposition t.node.length k)) t.node.length
        (mainposition t.node.length km) = .ok (some p) ∧
      linkAt t.node p = some (mainposition t.node.length k) := by
  have inside := lt_of_tagAt (by rw [tag]; exact Option.some_ne_none _)
  have member := h.hashed.home _ km false tag
  obtain ⟨q, before, linked⟩ := h.hashed.follows.linked_of_mem member (Ne.symm foreign)
  have search := h.search (k := km) (Nat.zero_lt_of_lt inside)
    fun x => x.next == some (mainposition t.node.length k)
  have good : ∀ j, t.node[j]?.any (fun x => x.next == some (mainposition t.node.length k)) = true ↔
      linkAt t.node j = some (mainposition t.node.length k) := by
    intro j
    unfold linkAt
    rcases t.node[j]? with _ | x <;> simp
  cases found : (rest (mainposition t.node.length km)).find? fun j =>
      t.node[j]?.any fun x => x.next == some (mainposition t.node.length k) with
  | none => exact absurd ((good q).mpr linked) (List.find?_eq_none.mp found q before)
  | some p =>
    have hit := List.find?_some found
    rw [found] at search
    exact ⟨p, search, (good p).mp hit⟩

variable [DecidableEq K]

theorem Table.Sound.valueOf_eq_some (h : t.Sound rest) (out : ¬InArray t.array.length k) {v : V} :
    t.valueOf k = some v ↔ ∃ i, tagAt t.node i = some (k, false) ∧ valAt t.node i = some v := by
  constructor
  · intro found
    by_contra none_found
    have absent : ∀ slot, ¬Located t k slot := by
      intro slot here
      cases slot with
      | array i => exact out ⟨i, here.1, here.2⟩
      | node i =>
        rw [h.valueOf_located here] at found
        exact none_found ⟨i, here, found⟩
    rw [h.valueOf_absent absent] at found
    cases found
  · rintro ⟨i, here, value⟩
    have located : Located t k (.node i) := here
    rw [h.valueOf_located located]
    exact value

/-- Tables with the same entries have the same values. -/
theorem valueOf_congr (h : t.Sound rest) (h' : t'.Sound rest') (array : t'.array = t.array)
    (entries : ∀ k v, (∃ i, tagAt t'.node i = some (k, false) ∧ valAt t'.node i = some v) ↔
      ∃ i, tagAt t.node i = some (k, false) ∧ valAt t.node i = some v) :
    t'.valueOf = t.valueOf := by
  funext k
  by_cases inside : InArray t.array.length k
  · obtain ⟨i, index, less⟩ := inside
    have here : Located t k (.array i) := ⟨index, less⟩
    have there : Located t' k (.array i) := ⟨index, by rw [array]; exact less⟩
    rw [h.valueOf_located here, h'.valueOf_located there, Table.value, Table.value, array]
  · refine Option.ext fun v => ?_
    rw [h.valueOf_eq_some inside, h'.valueOf_eq_some (by rw [array]; exact inside)]
    exact entries k v

/-- What `newkey` gives when it has a place for the key. -/
structure Placed (t t' : Table K V) (rest' : Nat → List Nat) (k : K) (i : Nat) : Prop where
  sound : t'.Sound rest'
  located : tagAt t'.node i = some (k, false)
  empty : valAt t'.node i = none
  values : t'.valueOf = t.valueOf
  array : t'.array = t.array
  length : t'.node.length = t.node.length
  used : used t'.node ≤ used t.node + 1

/-- The nodes after a key has got its place. -/
structure Replaced (t : Table K V) (node' : List (Node K V)) (k : K) (i : Nat) : Prop where
  length : node'.length = t.node.length
  located : tagAt node' i = some (k, false)
  empty : valAt node' i = none
  kept : ∀ j, tagAt t.node j ≠ none → tagAt node' j ≠ none
  keys : ∀ j k', tagAt node' j = some (k', false) → k' = k ∨ ∃ j', tagAt t.node j' = some (k', false)
  valued : ∀ j, valAt node' j ≠ none → ∃ k', tagAt node' j = some (k', false)
  entries : ∀ k' v, (∃ j, tagAt node' j = some (k', false) ∧ valAt node' j = some v) ↔
    ∃ j, tagAt t.node j = some (k', false) ∧ valAt t.node j = some v
  used : used node' ≤ used t.node + 1

theorem Table.Sound.placed (h : t.Sound rest) (out : ¬InArray t.array.length k)
    {node' : List (Node K V)} {i lastfree : Nat} (r : Replaced t node' k i)
    (hashed : Hashed node'.length (mainposition node'.length) (tagAt node') (linkAt node') rest')
    (filled : ∀ j, lastfree ≤ j → j < t.node.length → tagAt node' j ≠ none)
    (bound : lastfree ≤ t.node.length) :
    Placed t ⟨t.array, node', lastfree⟩ rest' k i := by
  have sound : Table.Sound ⟨t.array, node', lastfree⟩ rest' := by
    refine ⟨hashed, fun j above inside => filled j above (r.length ▸ inside), ?_, r.valued, ?_,
      h.small, ?_⟩
    · show lastfree ≤ node'.length
      rw [r.length]
      exact bound
    · intro j k' tag
      rcases r.keys j k' tag with rfl | ⟨j', before⟩
      · exact out
      · exact h.outside j' k' before
    · show node'.length ≤ 2 ^ maxbits
      rw [r.length]
      exact h.nodes
  exact ⟨sound, r.located, r.empty, valueOf_congr h sound rfl r.entries, rfl, r.length, r.used⟩

/-- The main position has no value. -/
theorem Table.Sound.place_main (h : t.Sound rest) (filled : 0 < t.node.length)
    (out : ¬InArray t.array.length k) (absent : ∀ i, tagAt t.node i ≠ some (k, false))
    {m : Node K V} (found : t.node[mainposition t.node.length k]? = some m) (empty : m.val = none) :
    Placed t ⟨t.array, t.node.set (mainposition t.node.length k)
      { m with key := some k, dead := false }, t.lastfree⟩ rest k
      (mainposition t.node.length k) := by
  have bound := mainposition_lt filled k
  have link : linkAt t.node (mainposition t.node.length k) = m.next := by
    rw [linkAt, found]
    rfl
  have value : valAt t.node (mainposition t.node.length k) = none := by
    rw [valAt, found]
    exact empty
  have tags : tagAt (t.node.set (mainposition t.node.length k)
      { m with key := some k, dead := false }) =
        Function.update (tagAt t.node) (mainposition t.node.length k) (some (k, false)) :=
    tagAt_set bound _
  have links : linkAt (t.node.set (mainposition t.node.length k)
      { m with key := some k, dead := false }) = linkAt t.node := by
    rw [linkAt_set bound]
    exact Function.update_eq_iff.mpr ⟨link.symm, fun j _ => rfl⟩
  have vals : valAt (t.node.set (mainposition t.node.length k)
      { m with key := some k, dead := false }) = valAt t.node := by
    rw [valAt_set bound]
    exact Function.update_eq_iff.mpr ⟨empty.trans value.symm, fun j _ => rfl⟩
  refine h.placed out ⟨List.length_set, ?_, ?_, ?_, ?_, ?_, ?_,
    used_update_le List.length_set tags⟩ ?_ ?_ h.lastfree
  · rw [tags, Function.update_self]
  · rw [vals]
    exact value
  · intro j used
    rw [tags]
    exact update_ne_none _ used
  · intro j k' tag
    rw [tags] at tag
    rcases update_some tag with ⟨_, eq⟩ | ⟨_, before⟩
    · cases eq
      exact Or.inl rfl
    · exact Or.inr ⟨j, before⟩
  · intro j used
    rw [vals] at used
    obtain ⟨k', tag⟩ := h.valued j used
    have other : j ≠ mainposition t.node.length k := by
      rintro rfl
      exact used value
    rw [tags, Function.update_of_ne other]
    exact ⟨k', tag⟩
  · intro k' v
    refine exists_congr fun j => ?_
    rw [tags, vals]
    by_cases same : j = mainposition t.node.length k
    · rw [same, value]
      simp
    · rw [Function.update_of_ne same]
  · rw [List.length_set, tags, links]
    exact h.hashed.overwrite bound absent
  · intro j above inside
    rw [tags]
    exact update_ne_none _ (h.filled j above inside)

section Collision

variable {n : Nat} {km : K}

/-- The new key goes to a free place. -/
theorem Table.Sound.place_append (h : t.Sound rest) (filled : 0 < t.node.length)
    (out : ¬InArray t.array.length k) (absent : ∀ i, tagAt t.node i ≠ some (k, false))
    {m : Node K V} (found : t.node[mainposition t.node.length k]? = some m)
    (key : m.key = some km) (alive : m.dead = false)
    (own : mainposition t.node.length km = mainposition t.node.length k)
    (free : tagAt t.node n = none) (less : n < t.lastfree)
    (above : ∀ i, n < i → i < t.lastfree → tagAt t.node i ≠ none) :
    ∃ rest', Placed t ⟨t.array, (t.node.set n ⟨some k, false, none, m.next⟩).set
      (mainposition t.node.length k) { m with next := some n }, n⟩ rest' k n := by
  have inside : n < t.node.length := Nat.lt_of_lt_of_le less h.lastfree
  have bound := mainposition_lt filled k
  have bound' : mainposition t.node.length k <
      (t.node.set n ⟨some k, false, none, m.next⟩).length := by
    rw [List.length_set]
    exact bound
  have length : ((t.node.set n ⟨some k, false, none, m.next⟩).set (mainposition t.node.length k)
      { m with next := some n }).length = t.node.length := by
    rw [List.length_set, List.length_set]
  have tag : tagAt t.node (mainposition t.node.length k) = some (km, false) := by
    rw [tagAt_of found, key, alive]
    rfl
  have link : m.next = linkAt t.node (mainposition t.node.length k) := by
    rw [linkAt, found]
    rfl
  have value : m.val = valAt t.node (mainposition t.node.length k) := by
    rw [valAt, found]
    rfl
  have other : mainposition t.node.length k ≠ n := by
    intro same
    rw [same, free] at tag
    cases tag
  have tags : tagAt ((t.node.set n ⟨some k, false, none, m.next⟩).set
      (mainposition t.node.length k) { m with next := some n }) =
        Function.update (tagAt t.node) n (some (k, false)) := by
    rw [tagAt_set bound', tagAt_set inside]
    refine Function.update_eq_iff.mpr ⟨?_, fun j _ => rfl⟩
    rw [Function.update_of_ne other, tag, key, alive]
    rfl
  have vals : valAt ((t.node.set n ⟨some k, false, none, m.next⟩).set
      (mainposition t.node.length k) { m with next := some n }) = valAt t.node := by
    rw [valAt_set bound', valAt_set inside]
    refine Function.update_eq_iff.mpr ⟨?_, fun j _ => ?_⟩
    · exact value
    · refine congrFun (Function.update_eq_iff.mpr ⟨(h.val_free free).symm, fun i _ => rfl⟩) j
  have links : linkAt ((t.node.set n ⟨some k, false, none, m.next⟩).set
      (mainposition t.node.length k) { m with next := some n }) =
        Function.update (Function.update (linkAt t.node) n
          (linkAt t.node (mainposition t.node.length k))) (mainposition t.node.length k)
          (some n) := by
    rw [linkAt_set bound', linkAt_set inside, link]
  obtain ⟨rest', hashed⟩ := h.hashed.append free inside tag own absent
  refine ⟨rest', h.placed out ⟨length, ?_, ?_, ?_, ?_, ?_, ?_, used_update_le length tags⟩ ?_ ?_
    (Nat.le_of_lt inside)⟩
  · rw [tags, Function.update_self]
  · rw [vals]
    exact h.val_free free
  · intro j used
    rw [tags]
    exact update_ne_none _ used
  · intro j k' found'
    rw [tags] at found'
    rcases update_some found' with ⟨_, eq⟩ | ⟨_, before⟩
    · cases eq
      exact Or.inl rfl
    · exact Or.inr ⟨j, before⟩
  · intro j used
    rw [vals] at used
    obtain ⟨k', before⟩ := h.valued j used
    have away : j ≠ n := by
      rintro rfl
      rw [free] at before
      cases before
    rw [tags, Function.update_of_ne away]
    exact ⟨k', before⟩
  · intro k' v
    refine exists_congr fun j => ?_
    rw [tags, vals]
    by_cases same : j = n
    · rw [same, h.val_free free]
      simp
    · rw [Function.update_of_ne same]
  · rw [length, tags, links]
    exact hashed
  · intro j low inside'
    rw [tags]
    by_cases same : j = n
    · rw [same, Function.update_self]
      exact Option.some_ne_none _
    · refine update_ne_none _ ?_
      by_cases high : t.lastfree ≤ j
      · exact h.filled j high inside'
      · exact above j (by omega) (by omega)

/-- The key in the main position moves to a free place. -/
theorem Table.Sound.place_displace (h : t.Sound rest) (filled : 0 < t.node.length)
    (out : ¬InArray t.array.length k) (absent : ∀ i, tagAt t.node i ≠ some (k, false))
    {m : Node K V} (found : t.node[mainposition t.node.length k]? = some m)
    (key : m.key = some km) (alive : m.dead = false)
    (foreign : mainposition t.node.length km ≠ mainposition t.node.length k)
    (free : tagAt t.node n = none) (less : n < t.lastfree)
    (above : ∀ i, n < i → i < t.lastfree → tagAt t.node i ≠ none) {p : Nat}
    (before : linkAt t.node p = some (mainposition t.node.length k)) :
    ∃ rest', Placed t ⟨t.array, ((t.node.modify p fun x => { x with next := some n }).set n m).set
      (mainposition t.node.length k) ⟨some k, false, none, none⟩, n⟩ rest' k
      (mainposition t.node.length k) := by
  have inside : n < t.node.length := Nat.lt_of_lt_of_le less h.lastfree
  have bound := mainposition_lt filled k
  have prior : p < t.node.length :=
    lt_of_tagAt (h.hashed.source p _ before)
  have inside' : n < (t.node.modify p fun x => { x with next := some n }).length := by
    rw [List.length_modify]
    exact inside
  have bound' : mainposition t.node.length k <
      ((t.node.modify p fun x => { x with next := some n }).set n m).length := by
    rw [List.length_set, List.length_modify]
    exact bound
  have length : (((t.node.modify p fun x => { x with next := some n }).set n m).set
      (mainposition t.node.length k) ⟨some k, false, none, none⟩).length = t.node.length := by
    rw [List.length_set, List.length_set, List.length_modify]
  have tag : tagAt t.node (mainposition t.node.length k) = some (km, false) := by
    rw [tagAt_of found, key, alive]
    rfl
  have link : m.next = linkAt t.node (mainposition t.node.length k) := by
    rw [linkAt, found]
    rfl
  have value : m.val = valAt t.node (mainposition t.node.length k) := by
    rw [valAt, found]
    rfl
  have other : mainposition t.node.length k ≠ n := by
    intro same
    rw [same, free] at tag
    cases tag
  have tags : tagAt (((t.node.modify p fun x => { x with next := some n }).set n m).set
      (mainposition t.node.length k) ⟨some k, false, none, none⟩) =
        Function.update (Function.update (tagAt t.node) n (some (km, false)))
          (mainposition t.node.length k) (some (k, false)) := by
    rw [tagAt_set bound', tagAt_set inside', tagAt_relink, key, alive]
    rfl
  have vals : valAt (((t.node.modify p fun x => { x with next := some n }).set n m).set
      (mainposition t.node.length k) ⟨some k, false, none, none⟩) =
        Function.update (Function.update (valAt t.node) n
          (valAt t.node (mainposition t.node.length k))) (mainposition t.node.length k) none := by
    rw [valAt_set bound', valAt_set inside', valAt_relink, value]
  have links : linkAt (((t.node.modify p fun x => { x with next := some n }).set n m).set
      (mainposition t.node.length k) ⟨some k, false, none, none⟩) =
        Function.update (Function.update (Function.update (linkAt t.node) p (some n)) n
          (linkAt t.node (mainposition t.node.length k))) (mainposition t.node.length k) none := by
    rw [linkAt_set bound', linkAt_set inside', linkAt_relink prior, link]
  obtain ⟨rest', hashed⟩ := h.hashed.displace free inside tag foreign absent before
  have few : used (((t.node.modify p fun x => { x with next := some n }).set n m).set
      (mainposition t.node.length k) ⟨some k, false, none, none⟩) ≤ used t.node + 1 := by
    have main_used : Function.update (tagAt t.node) n (some (km, false))
        (mainposition t.node.length k) ≠ none :=
      update_ne_none _ (by rw [tag]; exact Option.some_ne_none _)
    have step : used (t.node.set n ⟨some km, false, none, none⟩) ≤ used t.node + 1 :=
      used_update_le List.length_set (tagAt_set inside _)
    have same : used (((t.node.modify p fun x => { x with next := some n }).set n m).set
        (mainposition t.node.length k) ⟨some k, false, none, none⟩) =
          used (t.node.set n ⟨some km, false, none, none⟩) := by
      unfold used
      rw [length, List.length_set, tags, tagAt_set inside]
      exact countP_update_used main_used _
    rw [same]
    exact step
  have retagged : ∀ {j x}, Function.update (Function.update (tagAt t.node) n (some (km, false)))
      (mainposition t.node.length k) (some (k, false)) j = some x →
      x = (k, false) ∨ x = (km, false) ∨ tagAt t.node j = some x := by
    intro j x shown
    rcases update_some shown with ⟨_, eq⟩ | ⟨_, shown⟩
    · exact Or.inl eq
    · rcases update_some shown with ⟨_, eq⟩ | ⟨_, old⟩
      · exact Or.inr (Or.inl eq)
      · exact Or.inr (Or.inr old)
  refine ⟨rest', h.placed out ⟨length, ?_, ?_, ?_, ?_, ?_, ?_, few⟩ ?_ ?_ (Nat.le_of_lt inside)⟩
  · rw [tags, Function.update_self]
  · rw [vals, Function.update_self]
  · intro j used
    rw [tags]
    exact update_ne_none _ (update_ne_none _ used)
  · intro j k' shown
    rw [tags] at shown
    rcases retagged shown with eq | eq | old
    · cases eq
      exact Or.inl rfl
    · cases eq
      exact Or.inr ⟨_, tag⟩
    · exact Or.inr ⟨j, old⟩
  · intro j used
    rw [vals] at used
    by_cases here : j = mainposition t.node.length k
    · rw [here, Function.update_self] at used
      exact absurd rfl used
    · rw [Function.update_of_ne here] at used
      rw [tags, Function.update_of_ne here]
      by_cases there : j = n
      · rw [there, Function.update_self]
        exact ⟨km, rfl⟩
      · rw [Function.update_of_ne there] at used ⊢
        exact h.valued j used
  · intro k' v
    rw [tags, vals]
    constructor
    · rintro ⟨j, shown, value'⟩
      by_cases here : j = mainposition t.node.length k
      · rw [here, Function.update_self] at value'
        cases value'
      · rw [Function.update_of_ne here] at shown value'
        by_cases there : j = n
        · rw [there, Function.update_self] at shown value'
          exact ⟨_, tag.trans shown, value'⟩
        · rw [Function.update_of_ne there] at shown value'
          exact ⟨j, shown, value'⟩
    · rintro ⟨j, old, value'⟩
      by_cases here : j = mainposition t.node.length k
      · refine ⟨n, ?_, ?_⟩
        · rw [Function.update_of_ne (Ne.symm other), Function.update_self]
          exact tag.symm.trans (here ▸ old)
        · rw [Function.update_of_ne (Ne.symm other), Function.update_self]
          exact here ▸ value'
      · have there : j ≠ n := by
          rintro rfl
          rw [free] at old
          cases old
        refine ⟨j, ?_, ?_⟩
        · rw [Function.update_of_ne here, Function.update_of_ne there]
          exact old
        · rw [Function.update_of_ne here, Function.update_of_ne there]
          exact value'
  · rw [length, tags, links]
    exact hashed
  · intro j low inside'
    rw [tags]
    by_cases here : j = n
    · refine update_ne_none _ ?_
      rw [here, Function.update_self]
      exact Option.some_ne_none _
    · refine update_ne_none _ (update_ne_none _ ?_)
      by_cases high : t.lastfree ≤ j
      · exact h.filled j high inside'
      · exact above j (by omega) (by omega)

end Collision

/-- `newkey` finds a place, unless all nodes are taken. -/
theorem Table.Sound.placeKey (h : t.Sound rest) (absent : ∀ slot, ¬Located t k slot) :
    (∃ lastfree, DriverSF.placeKey t k = .ok (none, { t with lastfree }) ∧
      used t.node = t.node.length) ∨
    ∃ i t' rest', DriverSF.placeKey t k = .ok (some i, t') ∧ Placed t t' rest' k i := by
  have out : ¬InArray t.array.length k := fun ⟨i, index, less⟩ => absent (.array i) ⟨index, less⟩
  have unused : ∀ i, tagAt t.node i ≠ some (k, false) := fun i => absent (.node i)
  by_cases none_there : t.node.length = 0
  · refine Or.inl ⟨t.lastfree, ?_, ?_⟩
    · rw [DriverSF.placeKey, if_pos none_there]
    · have bound := used_le t.node
      omega
  · have filled := Nat.pos_of_ne_zero none_there
    obtain ⟨m, found⟩ : ∃ m, t.node[mainposition t.node.length k]? = some m :=
      ⟨_, List.getElem?_eq_getElem (mainposition_lt filled k)⟩
    cases value : m.val with
    | none =>
      refine Or.inr ⟨_, _, rest, ?_, h.place_main filled out unused found value⟩
      simp only [DriverSF.placeKey, if_neg none_there, found, value, Option.isNone_none, if_true]
    | some v =>
      have taken : valAt t.node (mainposition t.node.length k) ≠ none := by
        rw [valAt, found, Option.bind_some, value]
        exact Option.some_ne_none v
      obtain ⟨km, tag⟩ := h.valued _ taken
      obtain ⟨m', found', key, alive⟩ := tagAt_eq_some.mp tag
      obtain rfl := Option.some.inj (found.symm.trans found')
      rcases getfreepos_spec t.node t.lastfree with ⟨n, run, less, free, above⟩ | ⟨run, all⟩
      · have inside : n < t.node.length := Nat.lt_of_lt_of_le less h.lastfree
        have free' := (tagAt_eq_none inside).mpr free
        have above' : ∀ i, n < i → i < t.lastfree → tagAt t.node i ≠ none := by
          intro i low high empty
          have inside' : i < t.node.length := Nat.lt_of_lt_of_le high h.lastfree
          exact above i low high ((tagAt_eq_none inside').mp empty)
        by_cases own : mainposition t.node.length km = mainposition t.node.length k
        · obtain ⟨rest', placed⟩ :=
            h.place_append filled out unused found key alive own free' less above'
          refine Or.inr ⟨_, _, rest', ?_, placed⟩
          simp only [DriverSF.placeKey, if_neg none_there, found, value, Option.isNone_some,
            Bool.false_eq_true, if_false, run, key, own, ne_eq, not_true_eq_false]
          rfl
        · obtain ⟨p, search, before⟩ := h.find_previous tag own
          obtain ⟨rest', placed⟩ :=
            h.place_displace filled out unused found key alive own free' less above' before
          refine Or.inr ⟨_, _, rest', ?_, placed⟩
          simp only [DriverSF.placeKey, if_neg none_there, found, value, Option.isNone_some,
            Bool.false_eq_true, if_false, run, key, ne_eq, own, not_false_eq_true, if_true, search]
          rfl
      · refine Or.inl ⟨0, ?_, ?_⟩
        · simp only [DriverSF.placeKey, if_neg none_there, found, value, Option.isNone_some, run]
          rfl
        · by_contra some_free
          have room : used t.node < t.node.length :=
            Nat.lt_of_le_of_ne (used_le t.node) some_free
          obtain ⟨i, inside, empty⟩ := exists_free room
          by_cases high : t.lastfree ≤ i
          · exact h.filled i high inside empty
          · exact all i (Nat.lt_of_not_le high) ((tagAt_eq_none inside).mp empty)

end Tables

end DriverSF
