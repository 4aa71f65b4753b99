import DriverSF.TableInsert
import DriverSF.TableSizes

namespace DriverSF

open Chains ScatterTable TableKey

variable {K V : Type}

/-- The insertions of `resize`, in one. -/
def reinsertAll (set : Table K V → K → Except TableError (Slot × Table K V)) :
    List (K × V) → Table K V → Except TableError (Table K V)
  | [], t => .ok t
  | (k, v) :: items, t => do
    let (slot, t) ← set t k
    reinsertAll set items (t.store slot (some v))

theorem reinsertAll_append (set : Table K V → K → Except TableError (Slot × Table K V))
    (items items' : List (K × V)) (t : Table K V) :
    reinsertAll set (items ++ items') t =
      (reinsertAll set items t).bind fun t => reinsertAll set items' t := by
  induction items generalizing t with
  | nil => rfl
  | cons item items ih =>
    obtain ⟨k, v⟩ := item
    rw [List.cons_append, reinsertAll, reinsertAll]
    cases run : set t k with
    | error e => rfl
    | ok x => exact ih _

/-- What the last loop of `resize` inserts. -/
def nodeItems (nodes : List (Node K V)) : List (K × V) :=
  nodes.filterMap fun n => n.val.bind fun v => n.key.map fun k => (k, v)

theorem mem_nodeItems {nodes : List (Node K V)} {k : K} {v : V} :
    (k, v) ∈ nodeItems nodes ↔ ∃ n ∈ nodes, n.key = some k ∧ n.val = some v := by
  unfold nodeItems
  rw [List.mem_filterMap]
  refine exists_congr fun n => and_congr_right fun _ => ?_
  cases n.val <;> cases n.key <;> simp [and_comm]

theorem reinsertNodes_eq (set : Table K V → K → Except TableError (Slot × Table K V))
    {nodes : List (Node K V)} (valued : ∀ n ∈ nodes, n.val ≠ none → n.key ≠ none)
    (t : Table K V) : reinsertNodes set nodes t = reinsertAll set (nodeItems nodes) t := by
  induction nodes generalizing t with
  | nil => rfl
  | cons n nodes ih =>
    have later := fun t => ih (fun x member => valued x (List.mem_cons_of_mem n member)) t
    unfold nodeItems at later ⊢
    rw [reinsertNodes]
    cases value : n.val with
    | none =>
      rw [List.filterMap_cons_none (by rw [value]; rfl)]
      exact later t
    | some v =>
      have has_key := valued n List.mem_cons_self (by rw [value]; exact Option.some_ne_none v)
      obtain ⟨k, key⟩ := Option.ne_none_iff_exists'.mp has_key
      rw [List.filterMap_cons_some (b := (k, v)) (by rw [value, key]; rfl), key, reinsertAll]
      dsimp only
      cases set t k with
      | error e => rfl
      | ok x => exact later _

theorem free_replicate (size i : Nat) :
    tagAt (List.replicate size (⟨none, false, none, none⟩ : Node K V)) i = none ∧
      linkAt (List.replicate size (⟨none, false, none, none⟩ : Node K V)) i = none ∧
      valAt (List.replicate size (⟨none, false, none, none⟩ : Node K V)) i = none := by
  unfold tagAt linkAt valAt
  rw [List.getElem?_replicate]
  split <;> exact ⟨rfl, rfl, rfl⟩

theorem used_fresh (size : Nat) :
    used (List.replicate size (⟨none, false, none, none⟩ : Node K V)) = 0 := by
  unfold used
  refine List.countP_eq_zero.mpr fun i _ => ?_
  rw [(free_replicate size i).1]
  exact Bool.false_ne_true

theorem setnodevector_spec {size : Nat} (small : size ≤ 2 ^ maxbits) :
    ∃ nodes, size ≤ nodes ∧ nodes ≤ 2 ^ maxbits ∧ setnodevector (K := K) (V := V) size =
      .ok (List.replicate nodes ⟨none, false, none, none⟩) := by
  unfold setnodevector
  by_cases empty : size = 0
  · exact ⟨0, Nat.le_of_eq empty, Nat.zero_le _, by rw [if_pos empty]; rfl⟩
  · have fits := ceillog2_le_iff.mpr small
    refine ⟨2 ^ ceillog2 size, ceillog2_le_iff.mp (Nat.le_refl _),
      Nat.pow_le_pow_right (by omega) fits, ?_⟩
    rw [if_neg empty, if_neg (Nat.not_lt_of_le fits)]

variable [TableKey K] {t t' : Table K V} {rest rest' : Nat → List Nat} {k : K}

/-- The key goes to the hash part of a table with an array part of this size. -/
def hashBound (size : Nat) (k : K) : Bool := !(asIndex k).any fun i => i ≤ size

theorem hashBound_iff {size : Nat} (small : size ≤ maxasize) :
    hashBound size k = true ↔ ¬InArray size k := by
  unfold hashBound asIndex InArray
  cases index : arrayindex k with
  | none => simp
  | some i =>
    by_cases good : 0 < i ∧ i ≤ maxasize
    · simp only [if_pos good, Option.any_some, Bool.not_eq_true', decide_eq_false_iff_not,
        Option.some.injEq]
      constructor
      · rintro large ⟨j, eq, less⟩
        omega
      · intro out low
        exact out ⟨i.toNat - 1, by omega, by omega⟩
    · simp only [if_neg good, Option.any_none, Bool.not_false, true_iff, Option.some.injEq]
      rintro ⟨j, eq, less⟩
      exact good ⟨by omega, by omega⟩

/-- What the first loop of `resize` inserts, from the index `i` on. -/
def arrayItems : Nat → List (Option V) → List (K × V)
  | _, [] => []
  | i, none :: slice => arrayItems (i + 1) slice
  | i, some v :: slice => (ofInt (i + 1 : Int), v) :: arrayItems (i + 1) slice

theorem mem_arrayItems {i : Nat} {slice : List (Option V)} {v : V} :
    (k, v) ∈ arrayItems i slice ↔
      ∃ j, slice[j]? = some (some v) ∧ k = ofInt ((i + j : Nat) + 1 : Int) := by
  induction slice generalizing i with
  | nil => simp [arrayItems]
  | cons x slice ih =>
    have shift : (∃ j, (x :: slice)[j]? = some (some v) ∧ k = ofInt ((i + j : Nat) + 1 : Int)) ↔
        (x = some v ∧ k = ofInt (i + 1 : Int)) ∨
          ∃ j, slice[j]? = some (some v) ∧ k = ofInt ((i + 1 + j : Nat) + 1 : Int) := by
      constructor
      · rintro ⟨_ | j, found, eq⟩
        · exact Or.inl ⟨Option.some.inj found, eq⟩
        · refine Or.inr ⟨j, found, ?_⟩
          rw [eq, show i + 1 + j = i + (j + 1) by omega]
      · rintro (⟨rfl, eq⟩ | ⟨j, found, eq⟩)
        · exact ⟨0, rfl, eq⟩
        · refine ⟨j + 1, found, ?_⟩
          rw [eq, show i + 1 + j = i + (j + 1) by omega]
    rw [shift, ← ih]
    cases x with
    | none => simp [arrayItems]
    | some y =>
      rw [arrayItems, List.mem_cons]
      simp only [Prod.mk.injEq, Option.some.injEq]
      constructor
      · rintro (⟨eq, rfl⟩ | later)
        · exact Or.inl ⟨rfl, eq⟩
        · exact Or.inr later
      · rintro (⟨rfl, eq⟩ | later)
        · exact Or.inl ⟨eq, rfl⟩
        · exact Or.inr later

/-- All that `resize` inserts. -/
def resizeItems (t : Table K V) (nasize : Nat) : List (K × V) :=
  arrayItems nasize (t.array.drop nasize) ++ nodeItems t.node.reverse

/-- A table whose nodes are all free. -/
theorem sound_fresh {array : List (Option V)} (small : array.length ≤ maxasize) {size : Nat}
    (few : size ≤ 2 ^ maxbits) :
    (⟨array, List.replicate size ⟨none, false, none, none⟩, size⟩ : Table K V).Sound
      fun i => [i] := by
  have free := free_replicate (K := K) (V := V) size
  have unused : ∀ {i x}, tagAt (List.replicate size (⟨none, false, none, none⟩ : Node K V)) i ≠
      some x := by
    intro i x
    rw [(free i).1]
    exact (Option.some_ne_none x).symm
  have unlinked : ∀ {i x}, linkAt (List.replicate size (⟨none, false, none, none⟩ : Node K V)) i ≠
      some x := by
    intro i x
    rw [(free i).2.1]
    exact (Option.some_ne_none x).symm
  refine ⟨⟨?_, ?_, ?_, ?_, ?_, ?_, ?_, ?_, ?_⟩, ?_, ?_, ?_, ?_, small, ?_⟩
  · intro i
    show [i] = i :: _
    rw [(free i).2.1]
    rfl
  · exact fun i used => absurd (free i).1 used
  · exact fun i j found => absurd found unlinked
  · exact fun i j found => absurd found unlinked
  · exact fun i i' j found => absurd found unlinked
  · exact fun i k d found => absurd found unused
  · exact fun i k d found => absurd found unused
  · exact fun i j k found => absurd found unused
  · exact fun i j k found => absurd found unused
  · intro i above inside
    dsimp only at above inside
    rw [List.length_replicate] at inside
    omega
  · show size ≤ (List.replicate size _).length
    exact Nat.le_of_eq List.length_replicate.symm
  · exact fun i used => absurd (free i).2.2 used
  · exact fun i k found => absurd found unused
  · show (List.replicate size _).length ≤ 2 ^ maxbits
    rw [List.length_replicate]
    exact few

theorem Table.Sound.node_valued (h : t.Sound rest) :
    ∀ n ∈ t.node, n.val ≠ none → n.key ≠ none := by
  intro n member used
  obtain ⟨i, found⟩ := List.getElem?_of_mem member
  obtain ⟨k, tag⟩ := h.valued i (by rw [valAt, found]; exact used)
  obtain ⟨n', found', key, _⟩ := tagAt_eq_some.mp tag
  obtain rfl := Option.some.inj (found.symm.trans found')
  rw [key]
  exact Option.some_ne_none k

variable [DecidableEq K]

/-- A `newkey` that does not rehash when there is a place. -/
def Places (newkey : Table K V → K → Except TableError (Slot × Table K V)) : Prop :=
  ∀ t t' k i, placeKey t k = .ok (some i, t') → newkey t k = .ok (.node i, t')

theorem newkey_places (fuel : Nat) : Places (newkey (K := K) (V := V) (fuel + 1)) := by
  intro t t' k i place
  rw [newkey, place]
  rfl

variable {nk : Table K V → K → Except TableError (Slot × Table K V)}

/-- With room the key gets a slot, and nothing else changes. -/
theorem luaHSetWith_spec (places : Places nk) (h : t.Sound rest)
    (room : hashBound t.array.length k = true → used t.node < t.node.length) :
    ∃ slot t' rest', luaHSetWith nk t k = .ok (slot, t') ∧ t'.Sound rest' ∧ Located t' k slot ∧
      t'.valueOf = t.valueOf ∧ t'.array = t.array ∧ t'.node.length = t.node.length ∧
      used t'.node ≤ used t.node + if hashBound t.array.length k then 1 else 0 := by
  by_cases found : ∃ slot, Located t k slot
  · obtain ⟨slot, here⟩ := found
    refine ⟨slot, t, rest, ?_, h, here, rfl, rfl, rfl, Nat.le_add_right _ _⟩
    rw [luaHSetWith, h.luaHGet_located here]
    rfl
  · have absent := not_exists.mp found
    have out : hashBound t.array.length k = true := by
      rw [hashBound_iff h.small]
      rintro ⟨i, index, less⟩
      exact absent (.array i) ⟨index, less⟩
    rcases h.placeKey absent with ⟨lastfree, _, full⟩ | ⟨i, t', rest', place, placed⟩
    · exact absurd full (Nat.ne_of_lt (room out))
    · refine ⟨.node i, t', rest', ?_, placed.sound, placed.located, placed.values, placed.array,
        placed.length, ?_⟩
      · rw [luaHSetWith, h.luaHGet_absent absent]
        exact places t t' k i place
      · rw [if_pos out]
        exact placed.used

/-- Insertions into a table that has room for them give it the values that are pending. -/
theorem reinsertAll_spec (places : Places nk) {m : K → Option V} {items : List (K × V)}
    (h : t.Sound rest) (values : ∀ k v, (k, v) ∈ items → m k = some v)
    (pending : ∀ k, t.valueOf k = m k ∨ (t.valueOf k = none ∧ ∃ v, (k, v) ∈ items))
    (room : used t.node + (items.countP fun x => hashBound t.array.length x.1) ≤ t.node.length) :
    ∃ t' rest', reinsertAll (luaHSetWith nk) items t = .ok t' ∧ t'.Sound rest' ∧ t'.valueOf = m ∧
      t'.array.length = t.array.length ∧ t'.node.length = t.node.length ∧
      used t'.node ≤ used t.node + items.countP fun x => hashBound t.array.length x.1 := by
  induction items generalizing t rest with
  | nil =>
    refine ⟨t, rest, rfl, h, ?_, rfl, rfl, Nat.le_add_right _ _⟩
    funext k
    rcases pending k with same | ⟨_, v, member⟩
    · exact same
    · cases member
  | cons item items ih =>
    obtain ⟨k, v⟩ := item
    rw [List.countP_cons] at room
    dsimp only at room
    have room' : hashBound t.array.length k = true → used t.node < t.node.length := by
      intro out
      rw [if_pos out] at room
      omega
    obtain ⟨slot, t₁, rest₁, run, h₁, here, same, array, length, count⟩ :=
      luaHSetWith_spec places h room'
    have h₂ := h₁.store here (some v)
    have values₂ := h₁.valueOf_store here (some v)
    obtain ⟨array₂, length₂⟩ := length_store (t := t₁) slot (some v)
    rw [array] at array₂
    have count₂ := used_store (t := t₁) slot (some v)
    obtain ⟨t', rest', run', h', values', array', length', count'⟩ := ih h₂
      (fun k' v' member => values k' v' (List.mem_cons_of_mem _ member)) (by
        intro k'
        rw [values₂]
        by_cases self : k' = k
        · subst self
          rw [Function.update_self]
          exact Or.inl (values k' v List.mem_cons_self).symm
        · rw [Function.update_of_ne self, same]
          rcases pending k' with done | ⟨none_yet, v', member⟩
          · exact Or.inl done
          · rcases List.mem_cons.mp member with eq | later
            · cases eq
              exact absurd rfl self
            · exact Or.inr ⟨none_yet, v', later⟩) (by
        rw [count₂, array₂, length₂, length]
        omega)
    refine ⟨t', rest', ?_, h', values', array'.trans array₂, length'.trans (length₂.trans length), ?_⟩
    · rw [reinsertAll, run]
      exact run'
    · rw [count₂, array₂] at count'
      rw [List.countP_cons]
      dsimp only
      omega

theorem reinsertArray_eq {i : Nat} {slice : List (Option V)}
    (bound : (i + slice.length : Int) < 2147483648) (t : Table K V) :
    reinsertArray (luaHSetnumWith nk) i slice t =
      reinsertAll (luaHSetWith nk) (arrayItems i slice) t := by
  induction slice generalizing i t with
  | nil => rfl
  | cons x slice ih =>
    rw [List.length_cons] at bound
    cases x with
    | none => exact ih (by omega) t
    | some v =>
      have same : luaHSetnumWith nk t (i + 1 : Int) = luaHSetWith nk t (ofInt (i + 1 : Int)) := by
        rw [luaHSetnumWith, luaHSetWith, luaHGetnum_eq (by omega)]
      rw [reinsertArray, arrayItems, reinsertAll, same]
      cases luaHSetWith nk t (ofInt (i + 1 : Int)) with
      | error e => rfl
      | ok x => exact ih (by omega) _

/-- What is inserted has the value that it had. -/
theorem Table.Sound.resizeItems_value (h : t.Sound rest) (nasize : Nat) {v : V}
    (member : (k, v) ∈ resizeItems t nasize) : t.valueOf k = some v := by
  rcases List.mem_append.mp member with member | member
  · obtain ⟨j, found, rfl⟩ := mem_arrayItems.mp member
    rw [List.getElem?_drop] at found
    have inside := (List.getElem?_eq_some_iff.mp found).1
    obtain ⟨low, high⟩ := h.in_int inside
    have here : Located t (ofInt ((nasize + j : Nat) + 1 : Int) : K) (.array (nasize + j)) :=
      ⟨arrayindex_ofInt _ low high, inside⟩
    rw [h.valueOf_located here, Table.value, found]
    rfl
  · obtain ⟨n, inside, key, value⟩ := mem_nodeItems.mp member
    obtain ⟨i, found⟩ := List.getElem?_of_mem (List.mem_reverse.mp inside)
    have used : valAt t.node i = some v := by
      rw [valAt, found]
      exact value
    obtain ⟨k', tag⟩ := h.valued i (by rw [used]; exact Option.some_ne_none v)
    obtain ⟨n', found', key', _⟩ := tagAt_eq_some.mp tag
    obtain rfl := Option.some.inj (found.symm.trans found')
    obtain rfl := Option.some.inj (key.symm.trans key')
    have here : Located t k (.node i) := tag
    rw [h.valueOf_located here]
    exact used

/-- What is neither inserted nor kept in the array part has no value. -/
theorem Table.Sound.resize_pending (h : t.Sound rest) {nasize size : Nat}
    (small : nasize ≤ maxasize) (few : size ≤ 2 ^ maxbits) (k : K) :
    let fresh : Table K V :=
      ⟨(t.array ++ List.replicate (nasize - t.array.length) none).take nasize,
        List.replicate size ⟨none, false, none, none⟩, size⟩
    fresh.valueOf k = t.valueOf k ∨
      (fresh.valueOf k = none ∧ ∃ v, (k, v) ∈ resizeItems t nasize) := by
  intro fresh
  have length : fresh.array.length = nasize := by
    show ((t.array ++ List.replicate (nasize - t.array.length) none).take nasize).length = nasize
    rw [List.length_take, List.length_append, List.length_replicate]
    omega
  have sound : fresh.Sound fun i => [i] := sound_fresh (by rw [length]; exact small) few
  -- a key with a value is inserted, if it was not in the array part that stays
  have inserted : ∀ v, t.valueOf k = some v → (∀ i : Nat,
      arrayindex k = some (i + 1 : Int) → i < t.array.length → nasize ≤ i) → ∃ v, (k, v) ∈ resizeItems t nasize := by
    intro v value gone
    refine ⟨v, ?_⟩
    by_cases inside : InArray t.array.length k
    · obtain ⟨i, index, less⟩ := inside
      have high := gone i index less
      have here : Located t k (.array i) := ⟨index, less⟩
      rw [h.valueOf_located here, Table.value] at value
      refine List.mem_append_left _ (mem_arrayItems.mpr ⟨i - nasize, ?_, ?_⟩)
      · rw [List.getElem?_drop, show nasize + (i - nasize) = i by omega]
        rw [List.getElem?_eq_getElem less] at value ⊢
        exact congrArg some value
      · rw [show nasize + (i - nasize) = i by omega, ofInt_arrayindex k _ index]
    · obtain ⟨i, tag, used⟩ := (h.valueOf_eq_some inside).mp value
      obtain ⟨n, found, key, _⟩ := tagAt_eq_some.mp tag
      refine List.mem_append_right _ (mem_nodeItems.mpr ⟨n, ?_, key, ?_⟩)
      · exact List.mem_reverse.mpr (List.mem_of_getElem? found)
      · rw [valAt, found] at used
        exact used
  by_cases inside : InArray nasize k
  · obtain ⟨i, index, less⟩ := inside
    have there : Located fresh k (.array i) := ⟨index, by rw [length]; exact less⟩
    have value : fresh.valueOf k = (t.array ++ List.replicate (nasize - t.array.length) none)[i]?.join := by
      rw [sound.valueOf_located there]
      show ((t.array ++ List.replicate (nasize - t.array.length) none).take nasize)[i]?.join = _
      rw [List.getElem?_take_of_lt less]
    by_cases old : i < t.array.length
    · have here : Located t k (.array i) := ⟨index, old⟩
      refine Or.inl ?_
      rw [value, List.getElem?_append_left old, h.valueOf_located here]
      rfl
    · have padding : fresh.valueOf k = none := by
        rw [value, List.getElem?_append_right (Nat.le_of_not_lt old), List.getElem?_replicate]
        split <;> rfl
      cases found : t.valueOf k with
      | none => exact Or.inl padding
      | some v =>
        refine Or.inr ⟨padding, inserted v found fun j index' less' => ?_⟩
        rw [index] at index'
        simp only [Option.some.injEq] at index'
        omega
  · have absent : ∀ slot, ¬Located fresh k slot := by
      intro slot there
      cases slot with
      | array i => exact inside ⟨i, there.1, by rw [← length]; exact there.2⟩
      | node i =>
        have free := (free_replicate (K := K) (V := V) size i).1
        exact absurd (free.symm.trans there) (Option.some_ne_none _).symm
    have nothing := sound.valueOf_absent absent
    cases found : t.valueOf k with
    | none => exact Or.inl nothing
    | some v =>
      refine Or.inr ⟨nothing, inserted v found fun i index less => ?_⟩
      by_contra low
      exact inside ⟨i, index, Nat.lt_of_not_le low⟩

/-- A resize with room for what it inserts keeps all values. -/
theorem Table.Sound.resize (h : t.Sound rest) (places : Places nk) {nasize nhsize : Nat}
    (small : nasize ≤ maxasize) (few : nhsize ≤ 2 ^ maxbits)
    (room : ((resizeItems t nasize).countP fun x => hashBound nasize x.1) ≤ nhsize) :
    ∃ t' rest', DriverSF.resize nk t nasize nhsize = .ok t' ∧ t'.Sound rest' ∧
      t'.valueOf = t.valueOf ∧ t'.array.length = nasize ∧ nhsize ≤ t'.node.length ∧
      used t'.node ≤ (resizeItems t nasize).countP fun x => hashBound nasize x.1 := by
  obtain ⟨nodes, enough, bound, vector⟩ := setnodevector_spec (K := K) (V := V) few
  have length : ((t.array ++ List.replicate (nasize - t.array.length) none).take nasize).length =
      nasize := by
    rw [List.length_take, List.length_append, List.length_replicate]
    omega
  have dropped : (t.array ++ List.replicate (nasize - t.array.length) none).drop nasize =
      t.array.drop nasize := by
    rw [List.drop_append, List.drop_replicate]
    simp
  have fresh := sound_fresh (K := K) (V := V) (by rw [length]; exact small) bound
  have none_used := used_fresh (K := K) (V := V) nodes
  obtain ⟨t', rest', run, sound, values, array, node, count⟩ :=
    reinsertAll_spec places fresh (fun k v member => h.resizeItems_value nasize member)
      (fun k => h.resize_pending small bound k) (by
        dsimp only
        rw [none_used, length, List.length_replicate]
        omega)
  dsimp only at array node count
  rw [length] at array count
  rw [List.length_replicate] at node
  rw [none_used] at count
  have bound : (nasize + (t.array.drop nasize).length : Int) < 2147483648 := by
    have size := h.small
    simp only [maxasize, maxbits] at size small
    rw [List.length_drop]
    omega
  refine ⟨t', rest', ?_, sound, values, array, by omega, by omega⟩
  rw [DriverSF.resize, vector]
  show (DriverSF.reinsertArray _ _ _ _ >>= _) = _
  rw [dropped, List.length_replicate, reinsertArray_eq bound]
  rw [resizeItems, reinsertAll_append] at run
  rw [← run]
  refine congrArg _ (funext fun t₁ => ?_)
  exact reinsertNodes_eq _ (fun n member => h.node_valued n (List.mem_reverse.mp member)) t₁

end DriverSF
