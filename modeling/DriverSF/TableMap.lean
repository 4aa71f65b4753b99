import Mathlib.Data.List.Induction
import DriverSF.Simulation
import DriverSF.TableRehash

namespace DriverSF

open Chains ScatterTable Simulation TableKey

variable {K V : Type}

/-- What the interpreter, the API and the collector do with a table. -/
inductive TableAction (K V : Type) where
  | get (key : TValue K)
  | set (key : TValue K) (v : Option V)
  | preallocate (last : Nat)
  | traverse

section Maps

variable [DecidableEq K]

/-- What a table is: a map from keys to values. -/
def mapStep (m : K → Option V) : TableAction K V → Except TableError (Option V) × (K → Option V)
  | .get (.key k) => (.ok (m k), m)
  | .get _ => (.ok none, m)
  | .set (.key k) v => (.ok none, Function.update m k v)
  | .set .nil _ => (.error .nilIndex, m)
  | .set .nan _ => (.error .nanIndex, m)
  | .preallocate _ => (.ok none, m)
  | .traverse => (.ok none, m)

theorem mapStep_keys (m : K → Option V) (act : TableAction K V) :
    ∃ key, ∀ k, (mapStep m act).2 k ≠ none → m k ≠ none ∨ some k = key := by
  cases act with
  | set key v =>
    cases key with
    | key k =>
      refine ⟨some k, fun k' used => ?_⟩
      by_cases same : k' = k
      · exact Or.inr (congrArg some same)
      · dsimp only [mapStep] at used
        rw [Function.update_of_ne same] at used
        exact Or.inl used
    | nil => exact ⟨none, fun _ used => Or.inl used⟩
    | nan => exact ⟨none, fun _ used => Or.inl used⟩
  | get key => cases key <;> exact ⟨none, fun _ used => Or.inl used⟩
  | preallocate last => exact ⟨none, fun _ used => Or.inl used⟩
  | traverse => exact ⟨none, fun _ used => Or.inl used⟩

/-- A run makes no more keys than it has steps. -/
theorem fewer_after {m : K → Option V} {size : Nat} (acts : List (TableAction K V))
    (few : Fewer m size) : Fewer (after mapStep m acts) (size + acts.length) := by
  induction acts generalizing m size with
  | nil => exact few
  | cons act acts ih =>
    obtain ⟨keys, less, all⟩ := few
    obtain ⟨key, more⟩ := mapStep_keys m act
    have next : Fewer (mapStep m act).2 (size + 1) := by
      refine ⟨key.toList ++ keys, ?_, fun k used => ?_⟩
      · rw [List.length_append]
        cases key <;> simp <;> omega
      · rcases more k used with old | new
        · exact List.mem_append_right _ (all k old)
        · exact List.mem_append_left _ (Option.mem_toList.mpr new.symm)
    have rest := ih next
    rw [List.length_cons, show size + (acts.length + 1) = size + 1 + acts.length by omega]
    exact rest

/-- A short run of a map from the empty one makes too few keys to matter. -/
theorem fewer_of_short {acts front : List (TableAction K V)} (short : acts.length < maxasize)
    (before : front <+: acts) : Fewer (after mapStep (fun _ => none) front) maxasize := by
  have few : Fewer (fun _ : K => (none : Option V)) 1 :=
    ⟨[], Nat.zero_lt_one, fun _ used => absurd rfl used⟩
  obtain ⟨keys, less, all⟩ := fewer_after front few
  have shorter := before.length_le
  exact ⟨keys, by omega, all⟩

end Maps

variable [TableKey K] {t : Table K V} {rest : Nat → List Nat}

section Collector

/-- What the collector does to a node. -/
def removeEntry (n : Node K V) : Node K V :=
  { n with dead := n.dead || (n.val.isNone && n.key.any iscollectable) }

theorem removeEntries_node (t : Table K V) : (removeEntries t).node = t.node.map removeEntry := rfl

theorem tagAt_removeEntry (node : List (Node K V)) (i : Nat) :
    (tagAt (node.map removeEntry) i).map Prod.fst = (tagAt node i).map Prod.fst := by
  unfold tagAt
  rw [List.getElem?_map]
  rcases node[i]? with _ | n
  · rfl
  · rcases n with ⟨_ | k, dead, val, next⟩ <;> rfl

theorem tagAt_of_removeEntry {node : List (Node K V)} {i : Nat} {k : K}
    (found : tagAt (node.map removeEntry) i = some (k, false)) : tagAt node i = some (k, false) := by
  obtain ⟨n', at_i, key, alive⟩ := tagAt_eq_some.mp found
  rw [List.getElem?_map] at at_i
  obtain ⟨n, before, rfl⟩ := Option.map_eq_some_iff.mp at_i
  exact tagAt_eq_some.mpr ⟨n, before, key, (Bool.or_eq_false_iff.mp alive).1⟩

theorem valAt_removeEntry (node : List (Node K V)) : valAt (node.map removeEntry) = valAt node := by
  funext i
  unfold valAt
  rw [List.getElem?_map]
  cases node[i]? <;> rfl

theorem linkAt_removeEntry (node : List (Node K V)) :
    linkAt (node.map removeEntry) = linkAt node := by
  funext i
  unfold linkAt
  rw [List.getElem?_map]
  cases node[i]? <;> rfl

theorem tagAt_removeEntry_of_val {node : List (Node K V)} {i : Nat} {k : K}
    (found : tagAt node i = some (k, false)) (used : valAt node i ≠ none) :
    tagAt (node.map removeEntry) i = some (k, false) := by
  obtain ⟨n, at_i, key, alive⟩ := tagAt_eq_some.mp found
  rw [valAt, at_i, Option.bind_some] at used
  refine tagAt_eq_some.mpr ⟨removeEntry n, ?_, key, ?_⟩
  · rw [List.getElem?_map, at_i]
    rfl
  · have some_value : n.val.isNone = false := by
      cases value : n.val with
      | none => exact absurd value used
      | some v => rfl
    simp [removeEntry, alive, some_value]

/-- The collector may kill keys without a value. -/
theorem Table.Sound.removeEntries (h : t.Sound rest) : (removeEntries t).Sound rest := by
  have length : (t.node.map removeEntry).length = t.node.length := List.length_map _
  refine ⟨?_, ?_, ?_, ?_, ?_, h.small, ?_⟩
  · rw [removeEntries_node, linkAt_removeEntry, length]
    exact h.hashed.bury (tagAt_removeEntry t.node) fun i k => tagAt_of_removeEntry
  · intro i above inside free
    rw [removeEntries_node] at inside free
    rw [length] at inside
    have both := tagAt_removeEntry t.node i
    rw [free, Option.map_none] at both
    exact h.filled i above inside (Option.map_eq_none_iff.mp both.symm)
  · show t.lastfree ≤ (t.node.map removeEntry).length
    rw [length]
    exact h.lastfree
  · intro i used
    rw [removeEntries_node, valAt_removeEntry] at used
    obtain ⟨k, found⟩ := h.valued i used
    exact ⟨k, tagAt_removeEntry_of_val found used⟩
  · exact fun i k found => h.outside i k (tagAt_of_removeEntry found)
  · show (t.node.map removeEntry).length ≤ 2 ^ maxbits
    rw [length]
    exact h.nodes

end Collector

variable [DecidableEq K]

theorem Table.Sound.valueOf_removeEntries (h : t.Sound rest) :
    (DriverSF.removeEntries t).valueOf = t.valueOf := by
  refine valueOf_congr h h.removeEntries rfl fun k v => exists_congr fun i => ?_
  rw [removeEntries_node, valAt_removeEntry]
  constructor
  · rintro ⟨found, value⟩
    exact ⟨tagAt_of_removeEntry found, value⟩
  · rintro ⟨found, value⟩
    exact ⟨tagAt_removeEntry_of_val found (by rw [value]; exact Option.some_ne_none v), value⟩

/-- The array part may grow without a key. -/
theorem Table.Sound.preallocate (h : t.Sound rest) (fuel : Nat) {last : Nat}
    (small : last ≤ maxasize) :
    ∃ t' rest', DriverSF.preallocate (fuel + 1) t last = .ok t' ∧ t'.Sound rest' ∧
      t'.valueOf = t.valueOf := by
  unfold DriverSF.preallocate luaHResizearray
  by_cases grow : t.array.length < last
  · have fits : ((resizeItems t last).countP fun x => hashBound last x.1) ≤ t.node.length := by
      have count := count_resizeItems t last
      have none_left : liveIn t.array last t.array.length = [] := by
        unfold liveIn
        rw [Nat.sub_eq_zero_of_le (Nat.le_of_lt grow)]
        rfl
      have some_keys : (liveKeys t.node).countP (hashBound last) ≤ (liveKeys t.node).length :=
        List.countP_le_length
      have fewer : (liveKeys t.node).length ≤ t.node.length := List.length_filterMap_le _ _
      rw [none_left, List.length_nil] at count
      omega
    obtain ⟨t', rest', run, sound, values, _⟩ :=
      h.resize (newkey_places fuel) small h.nodes fits
    rw [if_pos grow]
    exact ⟨t', rest', run, sound, values⟩
  · rw [if_neg grow]
    exact ⟨t, rest, rfl, h, rfl⟩

def settled (t : Table K V) : Except TableError (Table K V) →
    Except TableError (Option V) × Table K V
  | .ok t' => (.ok none, t')
  | .error e => (.error e, t)

def tableStep (fuel : Nat) (t : Table K V) :
    TableAction K V → Except TableError (Option V) × Table K V
  | .get key => (luaRawget t key, t)
  | .set key v => settled t (luaRawset fuel t key v)
  | .preallocate last => settled t (DriverSF.preallocate fuel t last)
  | .traverse => (.ok none, removeEntries t)

def Represents (t : Table K V) (m : K → Option V) : Prop := t.valueOf = m ∧ ∃ rest, t.Sound rest

theorem Table.Sound.luaRawget (h : t.Sound rest) (k : K) :
    DriverSF.luaRawget t (.key k) = .ok (t.valueOf k) := by
  unfold DriverSF.luaRawget
  by_cases found : ∃ slot, Located t k slot
  · obtain ⟨slot, here⟩ := found
    simp only [h.luaHGet_located here, h.valueOf_located here]
    rfl
  · have absent := not_exists.mp found
    simp only [h.luaHGet_absent absent, h.valueOf_absent absent]
    rfl

/-- A step of the table is a step of the map. -/
theorem tableStep_mapStep (fuel : Nat) {t : Table K V} {m : K → Option V} {act : TableAction K V}
    (sizes : ∀ last, act = .preallocate last → last ≤ maxasize) (h : Represents t m)
    (few : Fewer m maxasize) :
    (tableStep (fuel + 2) t act).1 = (mapStep m act).1 ∧
      Represents (tableStep (fuel + 2) t act).2 (mapStep m act).2 := by
  obtain ⟨values, rest, sound⟩ := h
  subst values
  cases act with
  | get key =>
    cases key with
    | nil => exact ⟨rfl, rfl, rest, sound⟩
    | nan => exact ⟨rfl, rfl, rest, sound⟩
    | key k => exact ⟨sound.luaRawget k, rfl, rest, sound⟩
  | set key v =>
    cases key with
    | nil => exact ⟨rfl, rfl, rest, sound⟩
    | nan => exact ⟨rfl, rfl, rest, sound⟩
    | key k =>
      obtain ⟨slot, t', rest', run, sound', here, values⟩ := sound.luaHSet few fuel k
      have set : luaRawset (fuel + 2) t (.key k) v = .ok (t'.store slot v) := by
        unfold luaRawset
        rw [run]
        rfl
      rw [tableStep, set, mapStep, ← values]
      exact ⟨rfl, sound'.valueOf_store here v, rest', sound'.store here v⟩
  | preallocate last =>
    obtain ⟨t', rest', run, sound', values⟩ := sound.preallocate (fuel + 1) (sizes last rfl)
    rw [tableStep, run, mapStep, ← values]
    exact ⟨rfl, rfl, rest', sound'⟩
  | traverse => exact ⟨rfl, sound.valueOf_removeEntries, rest, sound.removeEntries⟩

theorem luaHNew_spec {narray nhash : Nat} {t : Table K V} (start : luaHNew narray nhash = .ok t)
    (small : narray ≤ maxasize) : Represents t fun _ => none := by
  unfold luaHNew at start
  obtain ⟨node, vector, same⟩ := bind_eq_ok_iff.mp start
  cases same
  obtain ⟨size, few, rfl⟩ : ∃ size, size ≤ 2 ^ maxbits ∧
      node = List.replicate size (⟨none, false, none, none⟩ : Node K V) := by
    unfold setnodevector at vector
    split at vector
    · cases vector
      exact ⟨0, Nat.zero_le _, rfl⟩
    · split at vector
      · cases vector
      · cases vector
        exact ⟨_, Nat.pow_le_pow_right (by omega) (by omega), rfl⟩
  have length : (List.replicate narray (none : Option V)).length ≤ maxasize := by
    rw [List.length_replicate]
    exact small
  have sound := sound_fresh (K := K) length few
  rw [List.length_replicate]
  refine ⟨?_, _, sound⟩
  funext k
  by_cases inside : InArray (List.replicate narray (none : Option V)).length k
  · obtain ⟨i, index, less⟩ := inside
    have here : Located ⟨List.replicate narray (none : Option V),
        List.replicate size ⟨none, false, none, none⟩, size⟩ k (.array i) := ⟨index, less⟩
    rw [sound.valueOf_located here, Table.value, List.getElem?_replicate]
    split <;> rfl
  · refine sound.valueOf_absent fun slot here => ?_
    cases slot with
    | array i => exact inside ⟨i, here.1, here.2⟩
    | node i =>
      have free := (free_replicate (K := K) (V := V) size i).1
      exact absurd (free.symm.trans here) (Option.some_ne_none _).symm

/-- A table that a program can have, as long as it never had too many keys. -/
inductive ReachedTable : Table K V → Prop where
  | new {narray nhash : Nat} {t : Table K V} (start : luaHNew narray nhash = .ok t)
      (small : narray ≤ maxasize) : ReachedTable t
  | step {t : Table K V} (fuel : Nat) {act : TableAction K V} (before : ReachedTable t)
      (sizes : ∀ last, act = .preallocate last → last ≤ maxasize)
      (few : Fewer t.valueOf maxasize) : ReachedTable (tableStep (fuel + 2) t act).2

theorem ReachedTable.sound (h : ReachedTable t) : ∃ rest, t.Sound rest := by
  induction h with
  | new start small => exact (luaHNew_spec start small).2
  | step fuel before sizes few ih => exact (tableStep_mapStep fuel sizes ⟨rfl, ih⟩ few).2.2

/-- Every run of a new table is that of a map, as long as the map has not too many keys. -/
theorem table_refines_map (fuel : Nat) {narray nhash : Nat} {t : Table K V}
    (start : luaHNew narray nhash = .ok t) (small : narray ≤ maxasize)
    (acts : List (TableAction K V)) (sizes : ∀ last, .preallocate last ∈ acts → last ≤ maxasize)
    (few : ∀ front, front <+: acts → Fewer (after mapStep (fun _ => none) front) maxasize) :
    outputs (tableStep (fuel + 2)) t acts = outputs mapStep (fun _ => none) acts :=
  (outputs_eq (R := Represents) (fun _ _ _ member h few =>
    tableStep_mapStep fuel (fun last eq => sizes last (eq ▸ member)) h few)
    (luaHNew_spec start small) few).1

/-- A short run of a new table reaches a table, and what it represents. -/
theorem reachedTable_of_run (fuel : Nat) {narray nhash : Nat} {t : Table K V}
    (start : luaHNew narray nhash = .ok t) (small : narray ≤ maxasize)
    {acts : List (TableAction K V)} (sizes : ∀ last, .preallocate last ∈ acts → last ≤ maxasize)
    (short : acts.length < maxasize) :
    ReachedTable (after (tableStep (fuel + 2)) t acts) ∧
      Fewer (after (tableStep (fuel + 2)) t acts).valueOf maxasize := by
  have represents : ∀ front, front <+: acts →
      Represents (after (tableStep (fuel + 2)) t front) (after mapStep (fun _ => none) front) := by
    intro front before
    refine (outputs_eq (R := Represents) (fun _ _ _ member h few =>
      tableStep_mapStep fuel (fun last eq => sizes last (before.subset (eq ▸ member))) h few)
      (luaHNew_spec start small) ?_).2
    exact fun first earlier => fewer_of_short short (earlier.trans before)
  have few : ∀ front, front <+: acts →
      Fewer (after (tableStep (fuel + 2)) t front).valueOf maxasize := by
    intro front before
    rw [(represents front before).1]
    exact fewer_of_short short before
  refine ⟨?_, few acts List.prefix_rfl⟩
  induction acts using List.reverseRecOn with
  | nil => exact .new start small
  | append_singleton acts act ih =>
    have front : acts <+: acts ++ [act] := List.prefix_append acts [act]
    have reached := ih (fun last member => sizes last (List.mem_append_left [act] member))
      (Nat.lt_of_le_of_lt front.length_le short)
      (fun first before => represents first (before.trans front))
      (fun first before => few first (before.trans front))
    rw [after_append]
    refine .step fuel reached (fun last same => sizes last ?_) (few acts front)
    rw [← same]
    exact List.mem_append_right acts (List.mem_singleton_self act)

/-- A table for a menu: an array part with one place and a hash part with two. -/
def newMenu : Table ScriptKey Nat :=
  ⟨[none], [⟨none, false, none, none⟩, ⟨none, false, none, none⟩], 2⟩

/-- The two strings collide. -/
def fillMenu : List (TableAction ScriptKey Nat) :=
  [.set (.key (.integer 1)) (some 5), .set (.key (.string (bytes "menu"))) (some 7),
    .set (.key (.string (bytes "exit"))) (some 8)]

/-- One of them is removed, and a further key makes the table grow. -/
def menuActions : List (TableAction ScriptKey Nat) :=
  fillMenu ++ [.get (.key (.string (bytes "exit"))), .set (.key (.string (bytes "menu"))) none,
    .traverse, .set (.key (.integer 2)) (some 6), .set (.key (.integer 3)) (some 9),
    .get (.key (.string (bytes "menu"))), .get (.key (.string (bytes "exit"))),
    .get (.key (.integer 2)), .preallocate 8, .get (.key (.integer 3)), .set .nan (some 1)]

theorem menuActions_sizes : ∀ last, .preallocate last ∈ menuActions → last ≤ maxasize := by
  intro last member
  obtain rfl : last = 8 := by simpa [menuActions, fillMenu] using member
  simp only [maxasize, maxbits]
  omega

theorem table_refines_map_menu :
    mainposition 2 (ScriptKey.string (bytes "menu")) = mainposition 2 (ScriptKey.string (bytes "exit")) ∧
      outputs (tableStep 2) newMenu menuActions = outputs mapStep (fun _ => none) menuActions :=
  have start : luaHNew 1 2 = .ok newMenu := rfl
  ⟨by decide, table_refines_map 0 start Nat.one_le_two_pow menuActions menuActions_sizes
    fun _ before => fewer_of_short (by decide) before⟩

/-- A rehash gives the array part the largest size of which more than half is in use. -/
theorem rehash_array_size (reached : ReachedTable t) (few : Fewer t.valueOf maxasize) {k : K}
    (absent : luaHGet t k = .ok none) {t₁ : Table K V} (full : placeKey t k = .ok (none, t₁))
    (fuel : Nat) :
    ∃ slot t', luaHSet (fuel + 2) t (.key k) = .ok (slot, t') ∧
      ((t'.array.length = 0 ∧ ∀ d, d ≤ maxbits → inUse t k d ≤ 2 ^ d / 2) ∨
        ∃ d, d ≤ maxbits ∧ t'.array.length = 2 ^ d ∧ 2 ^ d / 2 < inUse t k d ∧
          ∀ e, d < e → e ≤ maxbits → inUse t k e ≤ 2 ^ e / 2) := by
  obtain ⟨rest, h⟩ := reached.sound
  have nowhere : ∀ slot, ¬Located t k slot := by
    intro slot here
    cases absent.symm.trans (h.luaHGet_located here)
  obtain ⟨slot, t', _, na, run, _, _, _, best⟩ := h.newkey_full nowhere few full fuel
  refine ⟨slot, t', ?_, ?_⟩
  · rw [luaHSet, luaHSetWith, absent]
    exact run
  · rcases best with ⟨size, _, poor⟩ | ⟨d, less, size, _, good, poor⟩
    · refine Or.inl ⟨size, fun d small => ?_⟩
      rw [← h.upTo_newIndices nowhere small]
      exact poor d (Nat.lt_succ_of_le small)
    · have small := Nat.le_of_lt_succ less
      refine Or.inr ⟨d, small, size, ?_, fun e above small' => ?_⟩
      · rw [← h.upTo_newIndices nowhere small]
        exact good
      · rw [← h.upTo_newIndices nowhere small']
        exact poor e above (Nat.lt_succ_of_le small')

/-- Array and hash part are full. -/
def fullMenu : Table ScriptKey Nat :=
  ⟨[some 5], [⟨some (.string (bytes "menu")), false, some 7, some 1⟩,
    ⟨some (.string (bytes "exit")), false, some 8, none⟩], 1⟩

theorem fullMenu_reached : ReachedTable fullMenu ∧ Fewer fullMenu.valueOf maxasize :=
  have start : luaHNew 1 2 = .ok newMenu := rfl
  have run : after (tableStep 2) newMenu fillMenu = fullMenu := rfl
  run ▸ reachedTable_of_run 0 start Nat.one_le_two_pow (by simp [fillMenu]) (by decide)

theorem rehash_array_size_menu :
    ∃ slot t', luaHSet 2 fullMenu (.key (.integer 2)) = .ok (slot, t') ∧
      ((t'.array.length = 0 ∧ ∀ d, d ≤ maxbits → inUse fullMenu (.integer 2) d ≤ 2 ^ d / 2) ∨
        ∃ d, d ≤ maxbits ∧ t'.array.length = 2 ^ d ∧ 2 ^ d / 2 < inUse fullMenu (.integer 2) d ∧
          ∀ e, d < e → e ≤ maxbits → inUse fullMenu (.integer 2) e ≤ 2 ^ e / 2) :=
  rehash_array_size fullMenu_reached.1 fullMenu_reached.2 rfl rfl 0

end DriverSF
