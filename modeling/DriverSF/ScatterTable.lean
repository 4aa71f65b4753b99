import DriverSF.Chains

namespace ScatterTable

open Chains

variable {κ : Type*} {size : Nat} {main : κ → Nat} {tag : Nat → Option (κ × Bool)}
  {link : Nat → Option Nat} {rest : Nat → List Nat} {i j m n : Nat} {k : κ}

/-- A chained scatter table with Brent's variation: a place is tagged with its key, which may be
dead, and links lead from the main position of a key to its place. -/
structure Hashed (size : Nat) (main : κ → Nat) (tag : Nat → Option (κ × Bool))
    (link : Nat → Option Nat) (rest : Nat → List Nat) : Prop where
  follows : Follows link rest
  inside : ∀ i, tag i ≠ none → i < size
  source : ∀ i j, link i = some j → tag i ≠ none
  target : ∀ i j, link i = some j → tag j ≠ none
  injective : ∀ i i' j, link i = some j → link i' = some j → i = i'
  home : ∀ i k d, tag i = some (k, d) → i ∈ rest (main k)
  settled : ∀ i k d, tag i = some (k, d) → i ≠ main k →
    ∀ k' d', tag (main k) = some (k', d') → main k' = main k
  unique : ∀ i j k, tag i = some (k, false) → tag j = some (k, false) → i = j
  newest : ∀ i j k, tag i = some (k, false) → tag j = some (k, true) → i ∉ rest j

theorem update_some {α β : Type*} [DecidableEq α] {f : α → Option β} {a b : α} {x y : β}
    (found : Function.update f a (some x) b = some y) : (b = a ∧ y = x) ∨ (b ≠ a ∧ f b = some y) := by
  by_cases here : b = a
  · rw [here, Function.update_self] at found
    exact Or.inl ⟨here, (Option.some.inj found).symm⟩
  · rw [Function.update_of_ne here] at found
    exact Or.inr ⟨here, found⟩

theorem update_ne_none {α β : Type*} [DecidableEq α] {f : α → Option β} {a b : α} (x : β)
    (used : f b ≠ none) : Function.update f a (some x) b ≠ none := by
  by_cases here : b = a
  · rw [here, Function.update_self]
    exact Option.some_ne_none x
  · rwa [Function.update_of_ne here]

namespace Hashed

theorem link_free (h : Hashed size main tag link rest) (free : tag n = none) : link n = none := by
  cases found : link n with
  | none => rfl
  | some j => exact absurd free (h.source n j found)

theorem not_linked (h : Hashed size main tag link rest) (free : tag n = none) :
    ∀ i, link i ≠ some n :=
  fun i found => h.target i n found free

/-- No chain but its own goes through a free place. -/
theorem start_of_free (h : Hashed size main tag link rest) (free : tag n = none)
    (member : i ∈ rest n) : i = n := by
  rw [h.follows.of_none (h.link_free free)] at member
  exact List.mem_singleton.mp member

theorem mem_inside (h : Hashed size main tag link rest) (start : i < size) :
    ∀ j ∈ rest i, j < size := by
  intro j member
  by_cases same : j = i
  · rw [same]
    exact start
  · obtain ⟨p, _, found⟩ := h.follows.linked_of_mem member same
    exact h.inside j (h.target p j found)

theorem length_le (h : Hashed size main tag link rest) (start : i < size) :
    (rest i).length ≤ size :=
  h.follows.length_le (h.mem_inside start)

/-- A key is put where its main position is, over a key that is not in use. -/
theorem overwrite (h : Hashed size main tag link rest) (bound : main k < size)
    (absent : ∀ i, tag i ≠ some (k, false)) :
    Hashed size main (Function.update tag (main k) (some (k, false))) link rest := by
  refine ⟨h.follows, ?_, fun i j found => update_ne_none _ (h.source i j found),
    fun i j found => update_ne_none _ (h.target i j found), h.injective, ?_, ?_, ?_, ?_⟩
  · intro i used
    by_cases here : i = main k
    · rw [here]
      exact bound
    · rw [Function.update_of_ne here] at used
      exact h.inside i used
  · intro i k' d found
    rcases update_some found with ⟨rfl, eq⟩ | ⟨_, before⟩
    · cases eq
      exact h.follows.mem_self _
    · exact h.home i k' d before
  · intro i k' d found away k'' d' holder
    rcases update_some holder with ⟨here, eq⟩ | ⟨other, before'⟩
    · cases eq
      exact here.symm
    · rcases update_some found with ⟨here, eq⟩ | ⟨_, before⟩
      · cases eq
        exact absurd here away
      · exact h.settled i k' d before away k'' d' before'
  · intro i j k' first second
    rcases update_some first with ⟨here, eq⟩ | ⟨_, before⟩
    · rcases update_some second with ⟨here', _⟩ | ⟨_, before'⟩
      · exact here.trans here'.symm
      · cases eq
        exact absurd before' (absent j)
    · rcases update_some second with ⟨_, eq⟩ | ⟨_, before'⟩
      · cases eq
        exact absurd before (absent i)
      · exact h.unique i j k' before before'
  · intro i j k' first second
    rcases update_some second with ⟨_, eq⟩ | ⟨other, before'⟩
    · cases eq
    · rcases update_some first with ⟨here, eq⟩ | ⟨_, before⟩
      · cases eq
        intro back
        rw [here] at back
        exact other (h.follows.antisymm (h.home j k true before') back).symm
      · exact h.newest i j k' before before'

/-- The new key goes to a free place, behind a key in its own main position. -/
theorem append (h : Hashed size main tag link rest) (free : tag n = none) (bound : n < size)
    {km : κ} (holder : tag (main k) = some (km, false)) (own : main km = main k)
    (absent : ∀ i, tag i ≠ some (k, false)) :
    ∃ rest', Hashed size main (Function.update tag n (some (k, false)))
      (Function.update (Function.update link n (link (main k))) (main k) (some n)) rest' := by
  have other : n ≠ main k := by
    rintro rfl
    rw [free] at holder
    cases holder
  have fresh := h.not_linked free
  have relinked : ∀ {i j}, Function.update (Function.update link n (link (main k))) (main k)
      (some n) i = some j →
      (i = main k ∧ j = n) ∨ (i ≠ main k ∧ i = n ∧ link (main k) = some j) ∨
        (i ≠ main k ∧ i ≠ n ∧ link i = some j) := by
    intro i j found
    rcases update_some found with start | ⟨apart, found⟩
    · exact Or.inl start
    · by_cases here : i = n
      · rw [here, Function.update_self] at found
        exact Or.inr (Or.inl ⟨apart, here, found⟩)
      · rw [Function.update_of_ne here] at found
        exact Or.inr (Or.inr ⟨apart, here, found⟩)
  have member : ∀ i j, i ≠ n → j ≠ n →
      (j ∈ Function.update (fun i => behind (main k) n (rest i)) n
        (n :: (link (main k)).elim [] rest) i ↔ j ∈ rest i) := by
    intro i j first second
    rw [Function.update_of_ne first, mem_behind]
    simp [second]
  have member_new : ∀ i, i ≠ n →
      (n ∈ Function.update (fun i => behind (main k) n (rest i)) n
        (n :: (link (main k)).elim [] rest) i ↔ main k ∈ rest i) := by
    intro i first
    have out : n ∉ rest i := by
      intro met
      obtain ⟨p, _, found⟩ := h.follows.linked_of_mem met (Ne.symm first)
      exact fresh p found
    rw [Function.update_of_ne first, mem_behind]
    simp [out]
  have start : ∀ i k' d, i ≠ n → tag i = some (k', d) → main k' ≠ n := by
    intro i k' d here found eq
    have met := h.home i k' d found
    rw [eq] at met
    exact here (h.start_of_free free met)
  refine ⟨_, h.follows.insert fresh other, ?_, ?_, ?_, ?_, ?_, ?_, ?_, ?_⟩
  · intro i used
    by_cases here : i = n
    · rw [here]
      exact bound
    · rw [Function.update_of_ne here] at used
      exact h.inside i used
  · intro i j found
    rcases relinked found with ⟨rfl, _⟩ | ⟨_, rfl, _⟩ | ⟨_, _, before⟩
    · exact update_ne_none _ (by rw [holder]; exact Option.some_ne_none _)
    · rw [Function.update_self]
      exact Option.some_ne_none _
    · exact update_ne_none _ (h.source i j before)
  · intro i j found
    rcases relinked found with ⟨_, rfl⟩ | ⟨_, _, before⟩ | ⟨_, _, before⟩
    · rw [Function.update_self]
      exact Option.some_ne_none _
    · exact update_ne_none _ (h.target _ j before)
    · exact update_ne_none _ (h.target i j before)
  · intro i i' j first second
    rcases relinked first with ⟨rfl, rfl⟩ | ⟨_, rfl, before⟩ | ⟨apart, _, before⟩
    · rcases relinked second with ⟨rfl, _⟩ | ⟨_, _, before'⟩ | ⟨_, _, before'⟩
      · rfl
      · exact absurd before' (fresh _)
      · exact absurd before' (fresh _)
    · rcases relinked second with ⟨_, rfl⟩ | ⟨_, rfl, _⟩ | ⟨apart', _, before'⟩
      · exact absurd before (fresh _)
      · rfl
      · exact absurd (h.injective _ _ j before' before) apart'
    · rcases relinked second with ⟨_, rfl⟩ | ⟨_, _, before'⟩ | ⟨_, _, before'⟩
      · exact absurd before (fresh _)
      · exact absurd (h.injective _ _ j before before') apart
      · exact h.injective i i' j before before'
  · intro i k' d found
    rcases update_some found with ⟨rfl, eq⟩ | ⟨here, before⟩
    · cases eq
      exact (member_new _ (Ne.symm other)).mpr (h.follows.mem_self _)
    · exact (member _ i (start i k' d here before) here).mpr (h.home i k' d before)
  · intro i k' d found away k'' d' there
    rcases update_some found with ⟨rfl, eq⟩ | ⟨here, before⟩
    · cases eq
      rw [Function.update_of_ne (Ne.symm other), holder] at there
      cases there
      exact own
    · rw [Function.update_of_ne (start i k' d here before)] at there
      exact h.settled i k' d before away k'' d' there
  · intro i j k' first second
    rcases update_some first with ⟨here, eq⟩ | ⟨_, before⟩
    · rcases update_some second with ⟨here', _⟩ | ⟨_, before'⟩
      · exact here.trans here'.symm
      · cases eq
        exact absurd before' (absent j)
    · rcases update_some second with ⟨_, eq⟩ | ⟨_, before'⟩
      · cases eq
        exact absurd before (absent i)
      · exact h.unique i j k' before before'
  · intro i j k' first second
    rcases update_some second with ⟨_, eq⟩ | ⟨there, before'⟩
    · cases eq
    · rcases update_some first with ⟨rfl, eq⟩ | ⟨here, before⟩
      · cases eq
        rw [member_new j there]
        intro back
        have same := h.follows.antisymm (h.home j k true before') back
        rw [← same, holder] at before'
        cases before'
      · rw [member j i there here]
        exact h.newest i j k' before before'

/-- The key in the main position of the new one is in another's chain: it goes to a free place. -/
theorem displace (h : Hashed size main tag link rest) (free : tag n = none) (bound : n < size)
    {km : κ} (holder : tag (main k) = some (km, false)) (foreign : main km ≠ main k)
    (absent : ∀ i, tag i ≠ some (k, false)) {p : Nat} (before : link p = some (main k)) :
    ∃ rest', Hashed size main
      (Function.update (Function.update tag n (some (km, false))) (main k) (some (k, false)))
      (Function.update (Function.update (Function.update link p (some n)) n (link (main k)))
        (main k) none) rest' := by
  have other : n ≠ main k := by
    rintro rfl
    rw [free] at holder
    cases holder
  have fresh := h.not_linked free
  have only : ∀ i, link i = some (main k) → i = p := fun i found =>
    h.injective i p (main k) found before
  have prior : p ≠ n := by
    rintro rfl
    rw [h.link_free free] at before
    cases before
  have self : p ≠ main k := by
    rintro eq
    rw [eq] at before
    exact h.follows.not_mem_of_link before (h.follows.mem_self _)
  have relinked : ∀ {i j}, Function.update (Function.update (Function.update link p (some n)) n
      (link (main k))) (main k) none i = some j →
      i ≠ main k ∧ ((i = p ∧ j = n) ∨ (i = n ∧ link (main k) = some j) ∨
        (i ≠ p ∧ i ≠ n ∧ link i = some j)) := by
    intro i j found
    by_cases apart : i = main k
    · rw [apart, Function.update_self] at found
      cases found
    · rw [Function.update_of_ne apart] at found
      by_cases here : i = n
      · rw [here, Function.update_self] at found
        exact ⟨apart, Or.inr (Or.inl ⟨here, found⟩)⟩
      · rw [Function.update_of_ne here] at found
        rcases update_some found with first | ⟨later, found⟩
        · exact ⟨apart, Or.inl first⟩
        · exact ⟨apart, Or.inr (Or.inr ⟨later, here, found⟩)⟩
  have retagged : ∀ {i x}, Function.update (Function.update tag n (some (km, false))) (main k)
      (some (k, false)) i = some x →
      (i = main k ∧ x = (k, false)) ∨ (i ≠ main k ∧ i = n ∧ x = (km, false)) ∨
        (i ≠ main k ∧ i ≠ n ∧ tag i = some x) := by
    intro i x found
    rcases update_some found with first | ⟨apart, found⟩
    · exact Or.inl first
    · rcases update_some found with ⟨here, eq⟩ | ⟨here, found⟩
      · exact Or.inr (Or.inl ⟨apart, here, eq⟩)
      · exact Or.inr (Or.inr ⟨apart, here, found⟩)
  have used : ∀ i, i ≠ main k → tag i ≠ none →
      Function.update (Function.update tag n (some (km, false))) (main k) (some (k, false)) i ≠
        none :=
    fun i _ found => update_ne_none _ (update_ne_none _ found)
  have member : ∀ i j, i ≠ main k → i ≠ n → j ≠ n →
      (j ∈ Function.update (Function.update (fun i => instead (main k) n (rest i)) n
        (n :: (link (main k)).elim [] rest)) (main k) [main k] i ↔ j ∈ rest i ∧ j ≠ main k) := by
    intro i j apart first second
    rw [Function.update_of_ne apart, Function.update_of_ne first, mem_instead]
    simp [second]
  have member_new : ∀ i, i ≠ main k → i ≠ n →
      (n ∈ Function.update (Function.update (fun i => instead (main k) n (rest i)) n
        (n :: (link (main k)).elim [] rest)) (main k) [main k] i ↔ main k ∈ rest i) := by
    intro i apart first
    have out : n ∉ rest i := by
      intro met
      obtain ⟨q, _, found⟩ := h.follows.linked_of_mem met (Ne.symm first)
      exact fresh q found
    rw [Function.update_of_ne apart, Function.update_of_ne first, mem_instead]
    simp [out]
  -- the keys elsewhere have neither of the two places as their main position
  have start : ∀ i k' d, i ≠ main k → i ≠ n → tag i = some (k', d) →
      main k' ≠ main k ∧ main k' ≠ n := by
    intro i k' d apart here found
    have met := h.home i k' d found
    constructor
    · intro eq
      have away : i ≠ main k' := fun same => apart (same.trans eq)
      rw [← eq] at holder
      exact foreign ((h.settled i k' d found away km false holder).trans eq)
    · intro eq
      rw [eq] at met
      exact here (h.start_of_free free met)
  have start_moved : main km ≠ n := by
    intro eq
    have met := h.home (main k) km false holder
    rw [eq] at met
    exact other (h.start_of_free free met).symm
  refine ⟨_, h.follows.move fresh other before only, ?_, ?_, ?_, ?_, ?_, ?_, ?_, ?_⟩
  · intro i found
    by_cases apart : i = main k
    · rw [apart]
      exact h.inside _ (by rw [holder]; exact Option.some_ne_none _)
    · rw [Function.update_of_ne apart] at found
      by_cases here : i = n
      · rw [here]
        exact bound
      · rw [Function.update_of_ne here] at found
        exact h.inside i found
  · intro i j found
    obtain ⟨apart, ⟨rfl, _⟩ | ⟨rfl, _⟩ | ⟨_, _, linked⟩⟩ := relinked found
    · exact used i apart (h.source i _ before)
    · rw [Function.update_of_ne apart, Function.update_self]
      exact Option.some_ne_none _
    · exact used i apart (h.source i j linked)
  · intro i j found
    obtain ⟨apart, ⟨_, rfl⟩ | ⟨_, linked⟩ | ⟨_, _, linked⟩⟩ := relinked found
    · rw [Function.update_of_ne other, Function.update_self]
      exact Option.some_ne_none _
    · exact update_ne_none _ (update_ne_none _ (h.target _ j linked))
    · exact update_ne_none _ (update_ne_none _ (h.target i j linked))
  · intro i i' j first second
    obtain ⟨apart, ⟨rfl, rfl⟩ | ⟨rfl, linked⟩ | ⟨later, _, linked⟩⟩ := relinked first
    · obtain ⟨_, ⟨rfl, _⟩ | ⟨_, linked'⟩ | ⟨_, _, linked'⟩⟩ := relinked second
      · rfl
      · exact absurd linked' (fresh _)
      · exact absurd linked' (fresh _)
    · obtain ⟨apart', ⟨_, rfl⟩ | ⟨rfl, _⟩ | ⟨_, _, linked'⟩⟩ := relinked second
      · exact absurd linked (fresh _)
      · rfl
      · exact absurd (h.injective _ _ j linked' linked) apart'
    · obtain ⟨_, ⟨_, rfl⟩ | ⟨_, linked'⟩ | ⟨_, _, linked'⟩⟩ := relinked second
      · exact absurd linked (fresh _)
      · exact absurd (h.injective _ _ j linked linked') apart
      · exact h.injective i i' j linked linked'
  · intro i k' d found
    rcases retagged found with ⟨rfl, eq⟩ | ⟨_, rfl, eq⟩ | ⟨apart, here, old⟩
    · cases eq
      rw [Function.update_self]
      exact List.mem_singleton_self _
    · cases eq
      exact (member_new _ foreign start_moved).mpr (h.home _ km false holder)
    · obtain ⟨first, second⟩ := start i k' d apart here old
      exact (member _ i first second here).mpr ⟨h.home i k' d old, apart⟩
  · intro i k' d found away k'' d' there
    rcases retagged found with ⟨rfl, eq⟩ | ⟨_, rfl, eq⟩ | ⟨apart, here, old⟩
    · cases eq
      exact absurd rfl away
    · cases eq
      rw [Function.update_of_ne foreign, Function.update_of_ne start_moved] at there
      exact h.settled _ km false holder (Ne.symm foreign) k'' d' there
    · obtain ⟨first, second⟩ := start i k' d apart here old
      rw [Function.update_of_ne first, Function.update_of_ne second] at there
      exact h.settled i k' d old away k'' d' there
  · intro i j k' first second
    rcases retagged first with ⟨rfl, eq⟩ | ⟨_, rfl, eq⟩ | ⟨_, _, old⟩
    · cases eq
      rcases retagged second with ⟨rfl, _⟩ | ⟨_, rfl, eq⟩ | ⟨_, _, old'⟩
      · rfl
      · cases eq
        exact absurd rfl foreign
      · exact absurd old' (absent j)
    · cases eq
      rcases retagged second with ⟨rfl, eq⟩ | ⟨_, rfl, _⟩ | ⟨apart', _, old'⟩
      · cases eq
        exact absurd rfl foreign
      · rfl
      · exact absurd (h.unique j _ km old' holder) apart'
    · rcases retagged second with ⟨rfl, eq⟩ | ⟨_, rfl, eq⟩ | ⟨_, _, old'⟩
      · cases eq
        exact absurd old (absent i)
      · cases eq
        have same := h.unique i _ km old holder
        contradiction
      · exact h.unique i j k' old old'
  · intro i j k' first second
    rcases retagged second with ⟨_, eq⟩ | ⟨_, _, eq⟩ | ⟨apart', here', old'⟩
    · cases eq
    · cases eq
    · rcases retagged first with ⟨rfl, eq⟩ | ⟨_, rfl, eq⟩ | ⟨apart, here, old⟩
      · cases eq
        exact absurd rfl (start j k true apart' here' old').1
      · cases eq
        rw [member_new j apart' here']
        exact h.newest _ j km holder old'
      · rw [member j i apart' here' here]
        exact fun met => h.newest i j k' old old' met.1

/-- A key that is not in use dies. -/
theorem bury (h : Hashed size main tag link rest) {tag' : Nat → Option (κ × Bool)}
    (same : ∀ i, (tag' i).map Prod.fst = (tag i).map Prod.fst)
    (later : ∀ i k, tag' i = some (k, false) → tag i = some (k, false)) :
    Hashed size main tag' link rest := by
  have kept : ∀ i, tag' i = none ↔ tag i = none := by
    intro i
    rw [← Option.map_eq_none_iff (f := Prod.fst), same, Option.map_eq_none_iff]
  have key : ∀ {i k d}, tag' i = some (k, d) → ∃ d', tag i = some (k, d') := by
    intro i k d found
    have both := same i
    rw [found, Option.map_some] at both
    obtain ⟨⟨k', d'⟩, old, eq⟩ := Option.map_eq_some_iff.mp both.symm
    cases eq
    exact ⟨d', old⟩
  refine ⟨h.follows, fun i used => h.inside i fun free => used ((kept i).mpr free),
    fun i j found free => h.source i j found ((kept i).mp free),
    fun i j found free => h.target i j found ((kept j).mp free), h.injective, ?_, ?_, ?_, ?_⟩
  · intro i k d found
    obtain ⟨d', old⟩ := key found
    exact h.home i k d' old
  · intro i k d found away k' d' holder
    obtain ⟨e, old⟩ := key found
    obtain ⟨e', old'⟩ := key holder
    exact h.settled i k e old away k' e' old'
  · intro i j k first second
    exact h.unique i j k (later i k first) (later j k second)
  · intro i j k first second
    have old := later i k first
    obtain ⟨d', old'⟩ := key second
    cases d' with
    | true => exact h.newest i j k old old'
    | false =>
      have here := h.unique i j k old old'
      rw [here, second] at first
      cases first

variable [DecidableEq κ]

/-- The search for a key finds its place. -/
theorem find_live (h : Hashed size main tag link rest) (found : tag i = some (k, false)) :
    (rest (main k)).find? (fun j => tag j = some (k, false)) = some i := by
  cases search : (rest (main k)).find? (fun j => tag j = some (k, false)) with
  | none =>
    have none_found := List.find?_eq_none.mp search i (h.home i k false found)
    exact absurd (decide_eq_true found) none_found
  | some j =>
    have good := List.find?_some search
    rw [h.unique i j k found (of_decide_eq_true good)]

/-- Of all places that have or had a key, the one where it is in use comes first. -/
theorem find_first (h : Hashed size main tag link rest) (found : tag i = some (k, false)) :
    (rest (main k)).find? (fun j => (tag j).map Prod.fst = some k) = some i := by
  have good : decide ((tag i).map Prod.fst = some k) = true := by
    rw [found]
    exact decide_eq_true rfl
  have member := h.home i k false found
  cases search : (rest (main k)).find? (fun j => (tag j).map Prod.fst = some k) with
  | none => exact absurd good (List.find?_eq_none.mp search i member)
  | some j =>
    have before := h.follows.mem_of_find search member good
    have same := List.find?_some search
    obtain ⟨⟨k', d⟩, there, eq⟩ := Option.map_eq_some_iff.mp (of_decide_eq_true same)
    cases eq
    cases d with
    | true => exact absurd before (h.newest i j k' found there)
    | false => rw [h.unique i j k' found there]

end Hashed

end ScatterTable
