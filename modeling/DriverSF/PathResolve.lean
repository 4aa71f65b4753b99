import Mathlib.Data.List.Basic
import Mathlib.Data.List.Induction

namespace PathResolve

/-- How a path is written: its separators, and the character of `.` and `..`. -/
structure Style (α : Type*) where
  separator : α → Bool
  dot : α

variable {α : Type*}

def components (style : Style α) (path : List α) : List (List α) :=
  path.splitOnP style.separator

/-- The path ends in a proper name and not in a separator or a dot. -/
def EndsInName (style : Style α) (path : List α) : Prop :=
  ∃ b ∈ path.getLast?, style.separator b = false ∧ b ≠ style.dot

theorem EndsInName.append {style : Style α} {path : List α} (h : EndsInName style path)
    (front : List α) : EndsInName style (front ++ path) := by
  obtain ⟨b, hb, named⟩ := h
  refine ⟨b, ?_, named⟩
  rw [Option.mem_def] at hb ⊢
  simp [List.getLast?_append, hb]

theorem components_concat {style : Style α} {b : α} (hb : style.separator b = false)
    (s : List α) : ∃ front last, components style s = front ++ [last] ∧
      components style (s ++ [b]) = front ++ [last ++ [b]] := by
  induction s with
  | nil =>
    exact ⟨[], [], by simp [components], by
      simp [components, List.splitOnP_cons_eq_if_modifyHead, hb]⟩
  | cons x s ih =>
    obtain ⟨front, last, split, joined⟩ := ih
    simp only [components] at split joined
    simp only [components, List.cons_append, List.splitOnP_cons_eq_if_modifyHead, split, joined]
    cases style.separator x with
    | true => exact ⟨[] :: front, last, rfl, rfl⟩
    | false =>
      cases front with
      | nil => exact ⟨[], x :: last, rfl, rfl⟩
      | cons head tail => exact ⟨(x :: head) :: tail, last, rfl, rfl⟩

/-- Text without a separator extends the last component. -/
theorem components_append {style : Style α} {t : List α}
    (ht : ∀ b ∈ t, style.separator b = false) (s : List α) :
    ∃ front last, components style s = front ++ [last] ∧
      components style (s ++ t) = front ++ [last ++ t] := by
  induction t using List.reverseRecOn with
  | nil =>
    obtain ⟨front, last, split⟩ := List.eq_nil_or_concat (components style s) |>.resolve_left
      (List.splitOnP_ne_nil _ _)
    rw [List.concat_eq_append] at split
    exact ⟨front, last, split, by rw [List.append_nil, List.append_nil, split]⟩
  | append_singleton t b ih =>
    obtain ⟨front, last, split, joined⟩ := ih fun c hc => ht c (List.mem_append_left _ hc)
    obtain ⟨front', last', split', joined'⟩ := components_concat (ht b (by simp)) (s ++ t)
    obtain ⟨rfl, same⟩ := List.append_inj' (joined.symm.trans split') rfl
    obtain rfl := List.singleton_inj.mp same
    exact ⟨front, last, split, by rw [← List.append_assoc, joined', List.append_assoc]⟩

/-- A component that does not end in a dot is a name. -/
theorem concat_named {style : Style α} {b : α} (hb : b ≠ style.dot) (c : List α) :
    ¬ (c ++ [b] = [] ∨ c ++ [b] = [style.dot]) ∧ c ++ [b] ≠ [style.dot, style.dot] := by
  constructor
  · rintro (h | h)
    · simp at h
    · have last := congrArg List.getLast? h
      exact hb (by simpa using last)
  · intro h
    have last := congrArg List.getLast? h
    exact hb (by simpa using last)

variable [DecidableEq α]

/-- The directory or file that a component names, seen from a directory. -/
def enter (style : Style α) (dir : List (List α)) (c : List α) : List (List α) :=
  if c = [] ∨ c = [style.dot] then dir
  else if c = [style.dot, style.dot] then dir.dropLast
  else dir ++ [c]

def resolve (style : Style α) (cwd : List (List α)) (path : List α) : List (List α) :=
  (components style path).foldl (enter style) cwd

/-- Everything that the walk along the components visits. -/
def visited (style : Style α) (dir : List (List α)) : List (List α) → List (List (List α))
  | [] => [dir]
  | c :: rest => dir :: visited style (enter style dir c) rest

theorem enter_concat {style : Style α} {b : α} (hb : b ≠ style.dot) (dir : List (List α))
    (c : List α) : enter style dir (c ++ [b]) = dir ++ [c ++ [b]] := by
  obtain ⟨there, up⟩ := concat_named hb c
  rw [enter, if_neg there, if_neg up]

theorem resolve_of_endsInName {style : Style α} {path : List α} (cwd : List (List α))
    (h : EndsInName style path) :
    ∃ name b, b ∈ path.getLast? ∧
      resolve style cwd path =
        ((components style path).dropLast.foldl (enter style) cwd) ++ [name ++ [b]] := by
  obtain ⟨b, hb, sep, dot⟩ := h
  obtain ⟨s, rfl⟩ : ∃ s, path = s ++ [b] := List.getLast?_eq_some_iff.mp hb
  obtain ⟨front, last, _, joined⟩ := components_concat sep s
  refine ⟨last, b, hb, ?_⟩
  simp [resolve, joined, List.foldl_append, enter_concat dot]

theorem foldl_mem_visited (style : Style α) (dir : List (List α)) (cs : List (List α)) :
    cs.foldl (enter style) dir ∈ visited style dir cs := by
  induction cs generalizing dir with
  | nil => simp [visited]
  | cons c cs ih => exact List.mem_cons_of_mem _ (ih _)

theorem dropLast_resolve_mem_visited {style : Style α} {path : List α} (cwd : List (List α))
    (h : EndsInName style path) :
    (resolve style cwd path).dropLast ∈ visited style cwd (components style path).dropLast := by
  obtain ⟨name, b, _, resolved⟩ := resolve_of_endsInName cwd h
  rw [resolved, List.dropLast_concat]
  exact foldl_mem_visited style cwd _

/-- Where components lead from any directory: some steps up, and then down along names. -/
structure Offset (α : Type*) where
  up : Nat
  names : List (List α)

def Offset.applyTo (o : Offset α) (dir : List (List α)) : List (List α) :=
  dir.take (dir.length - o.up) ++ o.names

def Offset.enter (style : Style α) (o : Offset α) (c : List α) : Offset α :=
  if c = [] ∨ c = [style.dot] then o
  else if c = [style.dot, style.dot] then
    if o.names = [] then { o with up := o.up + 1 } else { o with names := o.names.dropLast }
  else { o with names := o.names ++ [c] }

def offset (style : Style α) (cs : List (List α)) : Offset α :=
  cs.foldl (Offset.enter style) ⟨0, []⟩

theorem enter_applyTo (style : Style α) (dir : List (List α)) (o : Offset α) (c : List α) :
    PathResolve.enter style (o.applyTo dir) c = (o.enter style c).applyTo dir := by
  unfold PathResolve.enter Offset.enter
  split
  next => rfl
  next =>
    split
    next =>
      split
      next empty =>
        simp only [Offset.applyTo, empty, List.append_nil]
        rw [List.dropLast_eq_take, List.take_take, List.length_take]
        congr 1
        omega
      next named => rw [Offset.applyTo, List.dropLast_append_of_ne_nil named]; rfl
    next => exact List.append_assoc _ _ _

theorem foldl_enter_applyTo (style : Style α) (dir : List (List α)) (o : Offset α)
    (cs : List (List α)) :
    cs.foldl (PathResolve.enter style) (o.applyTo dir) =
      (cs.foldl (Offset.enter style) o).applyTo dir := by
  induction cs generalizing o with
  | nil => rfl
  | cons c cs ih => rw [List.foldl_cons, List.foldl_cons, enter_applyTo, ih]

theorem foldl_enter_eq (style : Style α) (dir : List (List α)) (cs : List (List α)) :
    cs.foldl (enter style) dir = (offset style cs).applyTo dir := by
  have start : (⟨0, []⟩ : Offset α).applyTo dir = dir := by simp [Offset.applyTo]
  rw [offset, ← foldl_enter_applyTo, start]

/-- Read from left to right, the components take a parent only of a name they have entered. -/
def staysInside (style : Style α) : Nat → List (List α) → Bool
  | _, [] => true
  | depth, c :: cs =>
    if c = [] ∨ c = [style.dot] then staysInside style depth cs
    else if c = [style.dot, style.dot] then 0 < depth && staysInside style (depth - 1) cs
    else staysInside style (depth + 1) cs

theorem up_le_foldl (style : Style α) (o : Offset α) (cs : List (List α)) :
    o.up ≤ (cs.foldl (Offset.enter style) o).up := by
  induction cs generalizing o with
  | nil => exact Nat.le_refl _
  | cons c cs ih =>
    refine Nat.le_trans ?_ (ih (o.enter style c))
    unfold Offset.enter
    split
    next => exact Nat.le_refl _
    next =>
      split
      next =>
        split
        next => exact Nat.le_succ _
        next => exact Nat.le_refl _
      next => exact Nat.le_refl _

theorem up_foldl_eq_iff (style : Style α) (o : Offset α) (cs : List (List α)) :
    (cs.foldl (Offset.enter style) o).up = o.up ↔ staysInside style o.names.length cs = true := by
  induction cs generalizing o with
  | nil => simp [staysInside]
  | cons c cs ih =>
    rw [List.foldl_cons, staysInside]
    split
    next here =>
      have same : o.enter style c = o := if_pos here
      rw [same, ih]
    next there =>
      split
      next parent =>
        have step : o.enter style c = if o.names = [] then { o with up := o.up + 1 }
            else { o with names := o.names.dropLast } := by
          rw [Offset.enter, if_neg there, if_pos parent]
        by_cases empty : o.names = []
        · -- a step above the start is never taken back
          have climbed := up_le_foldl style (o.enter style c) cs
          have above : (o.enter style c).up = o.up + 1 := by rw [step, if_pos empty]
          simp only [empty, List.length_nil, Nat.lt_irrefl, decide_false, Bool.false_and,
            Bool.false_eq_true, iff_false]
          omega
        · have entered := List.length_pos_iff.mpr empty
          have further := ih (o.enter style c)
          rw [step, if_neg empty] at further ⊢
          simpa [entered] using further
      next named =>
        have step : o.enter style c = { o with names := o.names ++ [c] } := by
          rw [Offset.enter, if_neg there, if_neg named]
        have further := ih (o.enter style c)
        rw [step] at further ⊢
        simpa using further

theorem staysInside_iff (style : Style α) (cs : List (List α)) :
    staysInside style 0 cs = true ↔ (offset style cs).up = 0 :=
  (up_foldl_eq_iff style ⟨0, []⟩ cs).symm

/-- Entering a proper name at the end does not leave a directory. -/
theorem staysInside_concat {style : Style α} {b : α} (hb : b ≠ style.dot) (cs : List (List α))
    (c : List α) :
    staysInside style 0 (cs ++ [c ++ [b]]) = true ↔ staysInside style 0 cs = true := by
  rw [staysInside_iff, staysInside_iff, offset, List.foldl_append]
  have named : (offset style cs).enter style (c ++ [b]) =
      { offset style cs with names := (offset style cs).names ++ [c ++ [b]] } := by
    obtain ⟨there, up⟩ := concat_named hb c
    rw [Offset.enter, if_neg there, if_neg up]
  show ((offset style cs).enter style (c ++ [b])).up = 0 ↔ _
  rw [named]

theorem applyTo_of_staysInside {style : Style α} {cs : List (List α)}
    (h : staysInside style 0 cs = true) (dir : List (List α)) :
    (offset style cs).applyTo dir = dir ++ (offset style cs).names := by
  rw [Offset.applyTo, (staysInside_iff style cs).mp h, Nat.sub_zero, List.take_length]

theorem staysInside_front {style : Style α} {cs ds : List (List α)} (before : ds <+: cs)
    (h : staysInside style 0 cs = true) : staysInside style 0 ds = true := by
  obtain ⟨rest, rfl⟩ := before
  rw [staysInside_iff] at h ⊢
  have grown := up_le_foldl style (offset style ds) rest
  rw [offset, List.foldl_append] at h
  exact Nat.le_zero.mp (h ▸ grown)

theorem mem_visited {style : Style α} {dir d : List (List α)} {cs : List (List α)}
    (h : d ∈ visited style dir cs) : ∃ ds, ds <+: cs ∧ d = ds.foldl (enter style) dir := by
  induction cs generalizing dir with
  | nil => exact ⟨[], List.nil_prefix, List.mem_singleton.mp h⟩
  | cons c cs ih =>
    rcases List.mem_cons.mp h with rfl | later
    · exact ⟨[], List.nil_prefix, rfl⟩
    · obtain ⟨ds, before, rfl⟩ := ih later
      exact ⟨c :: ds, List.cons_prefix_cons.mpr ⟨rfl, before⟩, rfl⟩

theorem prefix_of_mem_visited {style : Style α} {dir d : List (List α)} {cs : List (List α)}
    (inside : staysInside style 0 cs = true) (h : d ∈ visited style dir cs) : dir <+: d := by
  obtain ⟨ds, before, rfl⟩ := mem_visited h
  rw [foldl_enter_eq, applyTo_of_staysInside (staysInside_front before inside)]
  exact List.prefix_append dir _

omit [DecidableEq α] in
/-- From two different directories with one parent the same steps lead into both of them only
without a step above them. -/
theorem up_eq_zero_of_both {o : Offset α} {root path path' : List (List α)} {d d' a a' : List α}
    (ne : d ≠ d') (ha : a ≠ d) (inside : o.applyTo (root ++ [d]) ++ [a] = (root ++ [d]) ++ path)
    (inside' : o.applyTo (root ++ [d']) ++ [a'] = (root ++ [d']) ++ path') : o.up = 0 := by
  by_contra climbed
  obtain ⟨top, rest, rfl, start⟩ : ∃ top rest, root = top ++ rest ∧
      ∀ e, o.applyTo (root ++ [e]) = top ++ o.names := by
    refine ⟨root.take (root.length + 1 - o.up), root.drop (root.length + 1 - o.up),
      (List.take_append_drop _ _).symm, ?_⟩
    intro e
    rw [Offset.applyTo, List.length_append, List.length_singleton,
      List.take_append_of_le_length (by omega)]
  rw [start] at inside inside'
  simp only [List.append_assoc, List.append_cancel_left_eq] at inside inside'
  rcases List.eq_nil_or_concat path with rfl | ⟨front, b, rfl⟩
  · have whole : o.names ++ [a] = rest ++ [d] := by simpa using inside
    exact ha (List.singleton_inj.mp (List.append_inj' whole rfl).2)
  · have whole : o.names ++ [a] = (rest ++ d :: front) ++ [b] := by simpa using inside
    have both : rest ++ (d :: front ++ [a']) = rest ++ ([d'] ++ path') := by
      rw [← inside', (List.append_inj' whole rfl).1, List.append_assoc]
    exact ne (List.cons.inj (List.append_cancel_left both)).1

end PathResolve
