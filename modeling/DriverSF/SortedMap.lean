import Mathlib.Logic.Function.Basic
import Mathlib.Order.Lattice
import Mathlib.Data.List.Basic

/-- A map whose entries are in the order of their keys. -/
structure SortedMap (κ α : Type*) [LinearOrder κ] where
  entries : List (κ × α)
  sorted : entries.Pairwise fun e e' => e.1 < e'.1

namespace SortedMap

variable {κ α : Type*} [LinearOrder κ]

def empty : SortedMap κ α := ⟨[], List.Pairwise.nil⟩

def find (m : SortedMap κ α) (k : κ) : Option α :=
  (m.entries.find? fun e => decide (e.1 = k)).map Prod.snd

/-- The first entry behind a key, or the first of all. -/
def after (m : SortedMap κ α) (last : Option κ) : Option (κ × α) :=
  m.entries.find? fun e => last.all fun k => decide (k < e.1)

def eraseFirst (m : SortedMap κ α) : SortedMap κ α := ⟨m.entries.tail, m.sorted.tail⟩

def erase (m : SortedMap κ α) (k : κ) : SortedMap κ α :=
  ⟨m.entries.filter fun e => decide (e.1 ≠ k), m.sorted.filter _⟩

def insert (m : SortedMap κ α) (k : κ) (a : α) : SortedMap κ α where
  entries := (m.entries.filter fun e => decide (e.1 < k)) ++
    (k, a) :: m.entries.filter fun e => decide (k < e.1)
  sorted := by
    have behind : ∀ e ∈ m.entries.filter fun e => decide (k < e.1), k < e.1 :=
      fun e he => of_decide_eq_true (List.mem_filter.mp he).2
    refine List.pairwise_append.mpr ⟨m.sorted.filter _,
      List.pairwise_cons.mpr ⟨behind, m.sorted.filter _⟩, ?_⟩
    intro e he e' he'
    have before : e.1 < k := of_decide_eq_true (List.mem_filter.mp he).2
    rcases List.mem_cons.mp he' with rfl | later
    · exact before
    · exact lt_trans before (behind e' later)

/-- A choice of entries by their keys keeps what is found under the chosen keys. -/
theorem find?_filter_key (q : κ → Bool) (es : List (κ × α)) (k : κ) :
    ((es.filter fun e => q e.1).find? fun e => decide (e.1 = k)) =
      if q k then es.find? fun e => decide (e.1 = k) else none := by
  rw [List.find?_filter]
  cases chosen : q k with
  | true =>
    have agree : (fun e : κ × α => decide (q e.1 = true ∧ decide (e.1 = k) = true)) =
        fun e => decide (e.1 = k) := by
      funext e
      by_cases here : e.1 = k
      · simp [here, chosen]
      · simp [here]
    rw [agree]
    rfl
  | false =>
    refine List.find?_eq_none.mpr ?_
    intro e _ found
    obtain ⟨kept, here⟩ := of_decide_eq_true found
    rw [of_decide_eq_true here, chosen] at kept
    cases kept

theorem find_erase (m : SortedMap κ α) (k k' : κ) :
    (m.erase k).find k' = if k' = k then none else m.find k' := by
  unfold find erase
  rw [find?_filter_key fun x => decide (x ≠ k)]
  by_cases same : k' = k
  · simp [same]
  · simp [same]

theorem find_insert (m : SortedMap κ α) (k k' : κ) (a : α) :
    (m.insert k a).find k' = if k' = k then some a else m.find k' := by
  unfold find insert
  rw [List.find?_append, List.find?_cons, find?_filter_key fun x => decide (x < k),
    find?_filter_key fun x => decide (k < x)]
  rcases lt_trichotomy k' k with less | rfl | more
  · have other : k ≠ k' := ne_of_gt less
    simp [less, other, ne_of_lt less, not_lt_of_gt less]
  · have itself : ¬ decide (k' < k') = true := fun h => lt_irrefl k' (of_decide_eq_true h)
    rw [if_neg itself, if_pos rfl]
    simp
  · have other : k ≠ k' := ne_of_lt more
    simp [more, other, ne_of_gt more, not_lt_of_gt more]

/-- Behind the entries of a front comes the first of the others. -/
theorem after_of_split (m : SortedMap κ α) {front back : List (κ × α)}
    (split : m.entries = front ++ back) :
    m.after (front.getLast?.map Prod.fst) = back.head? := by
  unfold after
  rw [split, List.find?_append]
  have sorted := m.sorted
  rw [split] at sorted
  obtain ⟨front_sorted, _, apart⟩ := List.pairwise_append.mp sorted
  rcases List.eq_nil_or_concat' front with rfl | ⟨front, e, rfl⟩
  · cases back <;> rfl
  · have last : ((front ++ [e]).getLast?.map Prod.fst) = some e.1 := by simp
    have none_before : (front ++ [e]).find? (fun x => (some e.1).all fun k => decide (k < x.1)) =
        none := by
      refine List.find?_eq_none.mpr ?_
      intro x hx found
      have behind : e.1 < x.1 := of_decide_eq_true found
      rcases List.mem_append.mp hx with earlier | here
      · have before := (List.pairwise_append.mp front_sorted).2.2 x earlier e
          (List.mem_singleton_self e)
        exact absurd behind (not_lt_of_gt before)
      · obtain rfl := List.mem_singleton.mp here
        exact absurd behind (lt_irrefl _)
    rw [last, none_before, Option.none_or]
    cases back with
    | nil => rfl
    | cons x back =>
      have behind := apart e (List.mem_append_right front (List.mem_singleton_self e)) x
        List.mem_cons_self
      exact List.find?_cons_of_pos (decide_eq_true behind)

end SortedMap
