import Mathlib.Data.List.Infix
import DriverSF.Lexer
import DriverSF.StateRules

namespace DriverSF

open StateRules

section Lines

def isNewline (c : UInt8) : Bool := c = 10 || c = 13

/-- The line breaks of a text, where two different newline characters make one. -/
def lineBreaks : Bytes → Nat
  | [] => 0
  | [c] => if isNewline c then 1 else 0
  | c :: d :: rest =>
    if isNewline c then
      if isNewline d && d ≠ c then 1 + lineBreaks rest else 1 + lineBreaks (d :: rest)
    else lineBreaks (d :: rest)

theorem lineBreaks_cons {c : UInt8} (other : isNewline c = false) (rest : Bytes) :
    lineBreaks (c :: rest) = lineBreaks rest := by
  cases rest with
  | nil => simp [lineBreaks, other]
  | cons d rest => simp [lineBreaks, other]

theorem currIsNewline_char2int (c : UInt8) : currIsNewline (char2int c) = isNewline c := by
  have ten : (c = 10) ↔ char2int c = ch '\n' := by
    rw [← UInt8.toNat_inj]
    simp [char2int, ch]
    omega
  have thirteen : (c = 13) ↔ char2int c = ch '\r' := by
    rw [← UInt8.toNat_inj]
    simp [char2int, ch]
    omega
  simp only [currIsNewline, isNewline, ten, thirteen]

end Lines

section Rules

variable {N α β : Type} {s s' : LexState Bytes N} {m : Lexing Bytes N α} {f : α → Lexing Bytes N β}
  {post post' : α → LexState Bytes N → Prop} {post₂ : β → LexState Bytes N → Prop}

/-- Some of the text has been read, and its lines have been counted. -/
structure Onward (s s' : LexState Bytes N) : Prop where
  suffix : s'.source <:+ s.source
  lines : s'.linenumber + lineBreaks s'.source = s.linenumber + lineBreaks s.source

theorem Onward.refl (s : LexState Bytes N) : Onward s s := ⟨List.suffix_rfl, rfl⟩

theorem Onward.trans {s'' : LexState Bytes N} (first : Onward s s') (second : Onward s' s'') :
    Onward s s'' :=
  ⟨second.suffix.trans first.suffix, second.lines.trans first.lines⟩

/-- Within a token, the lookahead stays. -/
structure Advance (s s' : LexState Bytes N) : Prop extends Onward s s' where
  lookahead : s'.lookahead = s.lookahead

theorem Advance.refl (s : LexState Bytes N) : Advance s s := ⟨Onward.refl s, rfl⟩

theorem Advance.trans {s'' : LexState Bytes N} (first : Advance s s') (second : Advance s' s'') :
    Advance s s'' :=
  ⟨first.toOnward.trans second.toOnward, second.lookahead.trans first.lookahead⟩

theorem Advance.length_le (h : Advance s s') : s'.source.length ≤ s.source.length :=
  h.suffix.length_le

/-- A syntax error with the line that the lexer has come to. -/
def AtLine (s : LexState Bytes N) (stop : LexStop Bytes) : Prop :=
  ∃ e unread, stop = .error e unread ∧ unread <:+ s.source ∧
    e.linenumber + lineBreaks unread = s.linenumber + lineBreaks s.source

theorem Onward.atLine (h : Onward s s') {stop : LexStop Bytes} (at_line : AtLine s' stop) :
    AtLine s stop := by
  obtain ⟨e, unread, rfl, suffix, lines⟩ := at_line
  exact ⟨e, unread, rfl, suffix.trans h.suffix, lines.trans h.lines⟩

/-- A part of the lexer reads on and counts the lines, or finds an error in some line. -/
def Lexes (m : Lexing Bytes N α) (s : LexState Bytes N) (post : α → LexState Bytes N → Prop) :
    Prop :=
  Meets (AtLine s) m s fun a s' => Advance s s' ∧ post a s'

theorem Lexes.pure {a : α} (h : post a s) : Lexes (Pure.pure a) s post :=
  Meets.pure ⟨Advance.refl s, h⟩

theorem Lexes.mono (h : Lexes m s post)
    (ends : ∀ a s', Advance s s' → post a s' → post' a s') : Lexes m s post' :=
  Meets.mono h (fun a s' both => ⟨both.1, ends a s' both.1 both.2⟩) fun _ at_line => at_line

theorem Lexes.bind (first : Lexes m s post)
    (next : ∀ a s', Advance s s' → post a s' → Lexes (f a) s' post₂) :
    Lexes (m >>= f) s post₂ :=
  Meets.bind first fun a s' both => Meets.mono (next a s' both.1 both.2)
    (fun _ _ later => ⟨both.1.trans later.1, later.2⟩) fun _ => both.1.toOnward.atLine

theorem Lexes.ite {c : Prop} [Decidable c] {m' : Lexing Bytes N α}
    (yes : c → Lexes m s post) (no : ¬c → Lexes m' s post) :
    Lexes (if c then m else m') s post :=
  Meets.ite yes no

/-- What does not read. -/
theorem Lexes.quiet {a : α} (run : m s = .ok (a, s'))
    (same : s'.source = s.source ∧ s'.linenumber = s.linenumber ∧ s'.lookahead = s.lookahead)
    (h : post a s') : Lexes m s post := by
  obtain ⟨source, line, lookahead⟩ := same
  refine Meets.of_ok run ⟨⟨⟨⟨[], source⟩, ?_⟩, lookahead⟩, h⟩
  rw [source, line]

theorem Lexes.after {a : α} (run : m s = .ok (a, s'))
    (same : s'.source = s.source ∧ s'.linenumber = s.linenumber ∧ s'.lookahead = s.lookahead)
    (next : Lexes (f a) s' post₂) : Lexes (m >>= f) s post₂ := by
  have first : Lexes m s fun b t => b = a ∧ t = s' := Lexes.quiet run same ⟨rfl, rfl⟩
  refine first.bind fun b t _ eq => ?_
  rw [eq.1, eq.2]
  exact next

theorem Lexes.error (msg : Bytes) (token : TokenKind) : Lexes (luaXLexerror msg token) s post :=
  Meets.of_error rfl ⟨_, s.source, rfl, List.suffix_rfl, rfl⟩

theorem Lexes.current {f : Int → Lexing Bytes N β}
    (h : Lexes (f (CharSource.current s.source)) s post₂) : Lexes (lexCurrent >>= f) s post₂ := h

theorem current_cases (text : Bytes) :
    (text = [] ∧ CharSource.current text = eoz) ∨
      ∃ c rest, text = c :: rest ∧ CharSource.current text = char2int c := by
  cases text with
  | nil => exact Or.inl ⟨rfl, rfl⟩
  | cons c rest => exact Or.inr ⟨c, rest, rfl, rfl⟩

/-- The current character is one within a line. -/
def Within (s : LexState Bytes N) : Prop :=
  CharSource.current s.source ≠ eoz ∧ currIsNewline (CharSource.current s.source) = false

theorem Within.split (h : Within s) : ∃ c rest, s.source = c :: rest ∧ isNewline c = false := by
  obtain ⟨inside, other⟩ := h
  rcases current_cases s.source with ⟨_, ended⟩ | ⟨c, rest, text, current⟩
  · exact absurd ended inside
  · rw [current, currIsNewline_char2int] at other
    exact ⟨c, rest, text, other⟩

theorem lexNext_lexes (h : Within s) :
    Lexes lexNext s fun _ s' => s'.source.length < s.source.length := by
  obtain ⟨c, rest, text, other⟩ := h.split
  have run : lexNext s = .ok ((), { s with source := rest }) := by
    unfold lexNext
    rw [text]
    rfl
  refine Meets.of_ok run ⟨⟨⟨?_, ?_⟩, rfl⟩, ?_⟩
  · rw [text]
    exact List.suffix_cons c rest
  · rw [text, lineBreaks_cons other]
  · rw [text]
    exact Nat.lt_succ_self _

theorem saveAndNext_lexes (h : Within s) :
    Lexes saveAndNext s fun _ s' => s'.source.length < s.source.length := by
  have saved : Within { s with
    buff := s.buff ++ [UInt8.ofNat (CharSource.current s.source).toNat] } := h
  exact Lexes.current (Lexes.after rfl ⟨rfl, rfl, rfl⟩ (lexNext_lexes saved))

theorem lineBreaks_pair {c d : UInt8} (first : isNewline c = true) (second : isNewline d = true)
    (other : d ≠ c) (rest : Bytes) : lineBreaks (c :: d :: rest) = 1 + lineBreaks rest := by
  simp [lineBreaks, first, second, other]

theorem lineBreaks_newline {c : UInt8} (newline : isNewline c = true) {rest : Bytes}
    (single : ∀ d, rest.head? = some d → (isNewline d && d ≠ c) = false) :
    lineBreaks (c :: rest) = 1 + lineBreaks rest := by
  cases rest with
  | nil => simp [lineBreaks, newline]
  | cons d rest =>
    rw [lineBreaks, if_pos newline, single d rfl]
    rfl

/-- After a line break has been read it is counted. -/
theorem countLine_meets {s₀ : LexState Bytes N} (suffix : s.source <:+ s₀.source)
    (lookahead : s.lookahead = s₀.lookahead)
    (lines : s.linenumber + 1 + lineBreaks s.source = s₀.linenumber + lineBreaks s₀.source)
    (less : s.source.length < s₀.source.length) :
    Meets (AtLine s₀) countLine s fun _ s' =>
      Advance s₀ s' ∧ s'.source.length < s₀.source.length := by
  by_cases many : 2147483645 ≤ s.linenumber + 1
  · have run : countLine s = luaXSyntaxerror (bytes "chunk has too many lines")
        { s with linenumber := s.linenumber + 1 } := if_pos many
    exact Meets.of_error run ⟨_, s.source, rfl, suffix, lines⟩
  · have run : countLine s = .ok ((), { s with linenumber := s.linenumber + 1 }) := if_neg many
    exact Meets.of_ok run ⟨⟨⟨suffix, lines⟩, lookahead⟩, less⟩

theorem lexNext_cons {c : UInt8} {rest : Bytes} (text : s.source = c :: rest) :
    lexNext s = .ok ((), { s with source := rest }) := by
  unfold lexNext
  rw [text]
  rfl

theorem inclinenumber_lexes (newline : currIsNewline (CharSource.current s.source) = true) :
    Lexes inclinenumber s fun _ s' => s'.source.length < s.source.length := by
  rcases current_cases s.source with ⟨_, ended⟩ | ⟨c, rest, text, current⟩
  · rw [ended] at newline
    cases newline
  · rw [current, currIsNewline_char2int] at newline
    refine Lexes.current (Meets.after (lexNext_cons text) (Meets.ite ?_ ?_))
    · intro pair
      obtain ⟨second, other⟩ := Bool.and_eq_true_iff.mp pair
      rcases current_cases rest with ⟨empty, ended⟩ | ⟨d, rest', text', current'⟩
      · rw [ended] at second
        cases second
      · rw [current', currIsNewline_char2int] at second
        rw [current', current, decide_eq_true_eq] at other
        subst text'
        have differ : d ≠ c := fun same => other (by rw [same])
        refine Meets.after (lexNext_cons rfl) (countLine_meets ?_ rfl ?_ ?_)
        · rw [text]
          exact (List.suffix_cons d rest').trans (List.suffix_cons c _)
        · rw [text, lineBreaks_pair newline second differ]
          show s.linenumber + 1 + lineBreaks rest' = _
          omega
        · rw [text, List.length_cons, List.length_cons]
          show rest'.length < _
          omega
    · intro single
      refine countLine_meets ?_ rfl ?_ ?_
      · rw [text]
        exact List.suffix_cons c rest
      · have breaks : lineBreaks (c :: rest) = 1 + lineBreaks rest := by
          refine lineBreaks_newline newline fun d first => ?_
          rw [← Bool.not_eq_true]
          intro both
          obtain ⟨second, other⟩ := Bool.and_eq_true_iff.mp both
          refine single (Bool.and_eq_true_iff.mpr ?_)
          cases rest with
          | nil => cases first
          | cons d' rest =>
            cases first
            have differ : char2int d ≠ char2int c := by
              intro same
              refine of_decide_eq_true other (UInt8.toNat_inj.mp ?_)
              exact Int.ofNat.inj same
            rw [current]
            exact ⟨(currIsNewline_char2int d).trans second, decide_eq_true differ⟩
        rw [text, breaks]
        show s.linenumber + 1 + lineBreaks rest = _
        omega
      · rw [text, List.length_cons]
        exact Nat.lt_succ_self _

end Rules

section Parts

variable {N : Type} {s : LexState Bytes N} {locale : Locale N}

theorem Within.of {c : Int} (current : CharSource.current s.source = c)
    (ordinary : c ≠ eoz ∧ currIsNewline c = false) : Within s := by
  unfold Within
  rw [current]
  exact ordinary

/-- The characters end neither the text nor a line. -/
def Plain (p : Int → Bool) : Prop := p eoz = false ∧ p (ch '\n') = false ∧ p (ch '\r') = false

theorem Plain.within {p : Int → Bool} (plain : Plain p)
    (good : p (CharSource.current s.source) = true) : Within s := by
  obtain ⟨ended, feed, back⟩ := plain
  refine ⟨fun same => ?_, ?_⟩
  · rw [same, ended] at good
    cases good
  · rw [← Bool.not_eq_true]
    intro newline
    rcases Bool.or_eq_true_iff.mp newline with same | same
    · rw [of_decide_eq_true same, feed] at good
      cases good
    · rw [of_decide_eq_true same, back] at good
      cases good

theorem saveWhile_lexes {p : Int → Bool} (plain : Plain p) {fuel : Nat}
    (short : s.source.length < fuel) : Lexes (saveWhile p fuel) s fun _ _ => True := by
  induction fuel generalizing s with
  | zero => exact absurd short (Nat.not_lt_zero _)
  | succ fuel ih =>
    refine Lexes.current (Lexes.ite (fun good => ?_) fun _ => Lexes.pure trivial)
    exact (saveAndNext_lexes (plain.within good)).bind fun _ s' _ less => ih (by omega)

theorem checkNext_lexes {set : Bytes}
    (plain : Plain fun c => c = 0 || set.any fun x => char2int x = c) :
    Lexes (checkNext set) s fun _ _ => True :=
  Lexes.current (Lexes.ite
    (fun good => (saveAndNext_lexes (plain.within good)).bind fun _ _ _ _ => Lexes.pure trivial)
    fun _ => Lexes.pure trivial)

theorem trydecpoint_lexes : Lexes (trydecpoint locale) s fun _ _ => True := by
  refine Lexes.after rfl ⟨rfl, rfl, rfl⟩ (Lexes.after rfl ⟨rfl, rfl, rfl⟩ (Lexes.after rfl ⟨rfl, rfl, rfl⟩
    (Lexes.after rfl ⟨rfl, rfl, rfl⟩ ?_)))
  split
  · exact Lexes.pure trivial
  · exact Lexes.after rfl ⟨rfl, rfl, rfl⟩ (Lexes.error _ _)

theorem readExponent_lexes : Lexes readExponent s fun _ _ => True := by
  refine (checkNext_lexes ⟨by decide, by decide, by decide⟩).bind fun _ _ _ _ => Lexes.ite ?_ ?_
  · intro _
    exact (checkNext_lexes ⟨by decide, by decide, by decide⟩).bind fun _ _ _ _ =>
      Lexes.pure trivial
  · exact fun _ => Lexes.pure trivial

theorem readNumeral_lexes (within : Within s) {fuel : Nat} (short : s.source.length ≤ fuel) :
    Lexes (readNumeral locale fuel) s fun _ s' => s'.source.length < s.source.length := by
  refine (saveAndNext_lexes within).bind fun _ s₁ _ less => ?_
  have digits : Plain fun c => isdigit c || c = ch '.' := ⟨by decide, by decide, by decide⟩
  have letters : Plain fun c => isalnum c || c = ch '_' := ⟨by decide, by decide, by decide⟩
  refine (saveWhile_lexes digits (by omega)).bind fun _ s₂ adv₂ _ => ?_
  refine readExponent_lexes.bind fun _ s₃ adv₃ _ => ?_
  have le₂ := adv₂.length_le
  have le₃ := adv₃.length_le
  refine (saveWhile_lexes letters (by omega)).bind fun _ s₄ adv₄ _ => ?_
  have le₄ := adv₄.length_le
  refine Lexes.after rfl ⟨rfl, rfl, rfl⟩ (Lexes.after rfl ⟨rfl, rfl, rfl⟩ (Lexes.after rfl ⟨rfl, rfl, rfl⟩
    (Lexes.after rfl ⟨rfl, rfl, rfl⟩ ?_)))
  split
  · refine Lexes.pure ?_
    show s₄.source.length < _
    omega
  · refine trydecpoint_lexes.mono fun _ s₅ adv₅ _ => ?_
    have le₅ : s₅.source.length ≤ s₄.source.length := adv₅.length_le
    omega

theorem skipEqs_lexes {fuel : Nat} (short : s.source.length < fuel) (count : Int) :
    Lexes (skipEqs fuel count) s fun r _ => count ≤ r := by
  induction fuel generalizing s count with
  | zero => exact absurd short (Nat.not_lt_zero _)
  | succ fuel ih =>
    refine Lexes.current (Lexes.ite (fun same => ?_) fun _ => Lexes.pure (Int.le_refl _))
    have within : Within s := Within.of same (by decide)
    refine (saveAndNext_lexes within).bind fun _ s' _ less => ?_
    exact (ih (by omega) (count + 1)).mono fun r _ _ le => by omega

theorem skipSep_lexes (within : Within s) {fuel : Nat} (short : s.source.length ≤ fuel) :
    Lexes (skipSep fuel) s fun r s' => s'.source.length < s.source.length ∧
      (0 ≤ r → CharSource.current s'.source = CharSource.current s.source) := by
  refine Lexes.current ((saveAndNext_lexes within).bind fun _ s₁ _ less => ?_)
  refine (skipEqs_lexes (by omega) 0).bind fun count s₂ adv₂ low => ?_
  have le₂ := adv₂.length_le
  refine Lexes.current (Lexes.pure ⟨by omega, fun positive => ?_⟩)
  by_contra other
  rw [if_neg other] at positive
  omega

theorem longStringLoop_lexes (seminfo : Bool) {sep : Int} (level : 0 ≤ sep) {fuel : Nat}
    (short : s.source.length < fuel) :
    Lexes (longStringLoop seminfo sep fuel) s fun _ _ => True := by
  induction fuel generalizing s with
  | zero => exact absurd short (Nat.not_lt_zero _)
  | succ fuel ih =>
    have again : ∀ {s' : LexState Bytes N}, s'.source.length < s.source.length →
        Lexes (longStringLoop seminfo sep fuel) s' fun _ _ => True := fun less => ih (by omega)
    refine Lexes.current (Lexes.ite (fun _ => Lexes.error _ _) fun inside => ?_)
    refine Lexes.ite (fun same => ?_) fun _ => Lexes.ite (fun same => ?_) fun _ => ?_
    · have within : Within s := Within.of same (by decide)
      refine (skipSep_lexes within (by omega)).bind fun r s₁ _ ⟨less, current⟩ => ?_
      refine Lexes.ite (fun eq => ?_) fun _ => again less
      have within₁ : Within s₁ := Within.of ((current (by omega)).trans same) (by decide)
      refine (saveAndNext_lexes within₁).bind fun _ s₂ _ less₂ => ?_
      exact Lexes.ite (fun _ => Lexes.error _ _) fun _ => again (by omega)
    · have within : Within s := Within.of same (by decide)
      refine (skipSep_lexes within (by omega)).bind fun r s₁ _ ⟨less, current⟩ => ?_
      refine Lexes.ite (fun eq => ?_) fun _ => again less
      have within₁ : Within s₁ := Within.of ((current (by omega)).trans same) (by decide)
      exact (saveAndNext_lexes within₁).mono fun _ _ _ _ => trivial
    · refine Lexes.ite (fun newline => ?_) fun other => ?_
      · have counted := inclinenumber_lexes
          (s := { s with buff := s.buff ++ [UInt8.ofNat (ch '\n').toNat] }) newline
        refine Lexes.after rfl ⟨rfl, rfl, rfl⟩ (counted.bind fun _ s₁ _ less => ?_)
        exact Lexes.ite (fun _ => again less) fun _ => Lexes.after rfl ⟨rfl, rfl, rfl⟩ (again less)
      · have within : Within s := ⟨inside, Bool.eq_false_iff.mpr other⟩
        refine Lexes.ite (fun _ => ?_) fun _ => ?_
        · exact (saveAndNext_lexes within).bind fun _ _ _ less => again less
        · exact (lexNext_lexes within).bind fun _ _ _ less => again less

theorem skipNewline_lexes : Lexes skipNewline s fun _ _ => True :=
  Lexes.current (Lexes.ite (fun newline => (inclinenumber_lexes newline).mono fun _ _ _ _ => trivial)
    fun _ => Lexes.pure trivial)

theorem readLongString_lexes (within : Within s) (seminfo : Bool) {sep : Int} (level : 0 ≤ sep)
    {fuel : Nat} (short : s.source.length ≤ fuel) :
    Lexes (readLongString seminfo sep fuel) s fun _ s' =>
      s'.source.length < s.source.length := by
  refine (saveAndNext_lexes within).bind fun _ s₁ _ less => ?_
  refine skipNewline_lexes.bind fun _ s₂ adv₂ _ => ?_
  have le₂ := adv₂.length_le
  refine (longStringLoop_lexes seminfo level (by omega)).bind fun _ s₃ adv₃ _ => ?_
  have le₃ := adv₃.length_le
  refine Lexes.quiet rfl ⟨rfl, rfl, rfl⟩ ?_
  omega

theorem readDecimal_lexes (left : Nat) (c : Int) :
    Lexes (readDecimal left c) s fun _ _ => True := by
  induction left generalizing s c with
  | zero => exact Lexes.pure trivial
  | succ left ih =>
    refine Lexes.current (Lexes.ite (fun digit => ?_) fun _ => Lexes.pure trivial)
    have digits : Plain isdigit := ⟨by decide, by decide, by decide⟩
    exact (lexNext_lexes (digits.within digit)).bind fun _ _ _ _ => ih _

theorem readEscape_lexes : Lexes readEscape s fun _ _ => True := by
  have letters : Plain fun c => (escapes.lookup c).isSome := ⟨by decide, by decide, by decide⟩
  refine Lexes.current ?_
  cases letter : escapes.lookup (CharSource.current s.source) with
  | some c =>
    have within : Within s := letters.within (by rw [letter]; rfl)
    have saved : Within { s with buff := s.buff ++ [UInt8.ofNat c.toNat] } := within
    exact Lexes.after rfl ⟨rfl, rfl, rfl⟩ ((lexNext_lexes saved).mono fun _ _ _ _ => trivial)
  | none =>
    refine Lexes.ite (fun newline => ?_) fun other => Lexes.ite (fun _ => Lexes.pure trivial) ?_
    · have counted := inclinenumber_lexes
        (s := { s with buff := s.buff ++ [UInt8.ofNat (ch '\n').toNat] }) newline
      exact Lexes.after rfl ⟨rfl, rfl, rfl⟩ (counted.mono fun _ _ _ _ => trivial)
    · intro inside
      refine Lexes.ite (fun _ => ?_) fun _ => ?_
      · refine (readDecimal_lexes 3 0).bind fun _ _ _ _ => ?_
        exact Lexes.ite (fun _ => Lexes.error _ _) fun _ => Lexes.quiet rfl ⟨rfl, rfl, rfl⟩ trivial
      · have within : Within s := ⟨inside, Bool.eq_false_iff.mpr other⟩
        exact (saveAndNext_lexes within).mono fun _ _ _ _ => trivial

theorem stringLoop_lexes (del : Int) {fuel : Nat} (short : s.source.length < fuel) :
    Lexes (stringLoop del fuel) s fun _ s' => CharSource.current s'.source = del := by
  induction fuel generalizing s with
  | zero => exact absurd short (Nat.not_lt_zero _)
  | succ fuel ih =>
    refine Lexes.current (Lexes.ite (fun same => Lexes.pure same) fun _ => ?_)
    refine Lexes.ite (fun _ => Lexes.error _ _) fun inside => ?_
    refine Lexes.ite (fun _ => Lexes.error _ _) fun other => ?_
    have within : Within s := ⟨inside, Bool.eq_false_iff.mpr other⟩
    refine Lexes.ite (fun _ => ?_) fun _ => ?_
    · refine (lexNext_lexes within).bind fun _ s₁ _ less => ?_
      refine readEscape_lexes.bind fun _ s₂ adv₂ _ => ih ?_
      have le₂ := adv₂.length_le
      omega
    · exact (saveAndNext_lexes within).bind fun _ s₁ _ less => ih (by omega)

theorem readString_lexes (within : Within s) {del : Int}
    (ordinary : del ≠ eoz ∧ currIsNewline del = false) {fuel : Nat}
    (short : s.source.length ≤ fuel) :
    Lexes (readString del fuel) s fun _ s' => s'.source.length < s.source.length := by
  refine (saveAndNext_lexes within).bind fun _ s₁ _ less => ?_
  refine (stringLoop_lexes del (by omega)).bind fun _ s₂ adv₂ same => ?_
  have le₂ := adv₂.length_le
  refine (saveAndNext_lexes (Within.of same ordinary)).bind fun _ s₃ _ less₃ => ?_
  refine Lexes.quiet rfl ⟨rfl, rfl, rfl⟩ ?_
  omega

theorem skipLine_lexes {fuel : Nat} (short : s.source.length < fuel) :
    Lexes (skipLine fuel) s fun _ _ => True := by
  induction fuel generalizing s with
  | zero => exact absurd short (Nat.not_lt_zero _)
  | succ fuel ih =>
    refine Lexes.current (Lexes.ite (fun _ => Lexes.pure trivial) fun other => ?_)
    have within : Within s := by
      rw [Bool.not_eq_true, Bool.or_eq_false_iff] at other
      exact ⟨of_decide_eq_false other.2, other.1⟩
    exact (lexNext_lexes within).bind fun _ s₁ _ less => ih (by omega)

theorem readComment_lexes {fuel : Nat} (short : s.source.length < fuel) :
    Lexes (readComment fuel) s fun _ _ => True := by
  refine Lexes.current (Lexes.ite (fun same => ?_) fun _ => skipLine_lexes short)
  have within : Within s := Within.of same (by decide)
  refine (skipSep_lexes within (Nat.le_of_lt short)).bind fun sep s₁ _ ⟨less, current⟩ => ?_
  have short₁ : s₁.source.length < fuel := by omega
  refine Lexes.after rfl ⟨rfl, rfl, rfl⟩ (Lexes.ite (fun level => ?_) fun _ => ?_)
  · have within₁ : Within { s₁ with buff := [] } :=
      Within.of ((current level).trans same) (by decide)
    refine (readLongString_lexes within₁ false level (Nat.le_of_lt short₁)).bind ?_
    exact fun _ _ _ _ => Lexes.quiet rfl ⟨rfl, rfl, rfl⟩ trivial
  · exact skipLine_lexes short₁

theorem orEqual_lexes (within : Within s) {token : Token N} (other : token ≠ .eos) :
    Lexes (orEqual token) s fun t s' => t ≠ .eos ∧ s'.source.length < s.source.length := by
  refine Lexes.current ((lexNext_lexes within).bind fun _ s₁ _ less => ?_)
  refine Lexes.current (Lexes.ite (fun same => ?_) fun _ => Lexes.pure ⟨by simp, less⟩)
  have within₁ : Within s₁ := Within.of same (by decide)
  exact (lexNext_lexes within₁).bind fun _ s₂ _ less₂ => Lexes.pure ⟨other, by omega⟩

theorem readDots_lexes (within : Within s) {fuel : Nat} (short : s.source.length ≤ fuel) :
    Lexes (readDots locale fuel) s fun t s' =>
      t ≠ .eos ∧ s'.source.length < s.source.length := by
  have dot : Plain fun c => c = 0 || (bytes ".").any fun x => char2int x = c :=
    ⟨by decide, by decide, by decide⟩
  refine (saveAndNext_lexes within).bind fun _ s₁ _ less => ?_
  refine (checkNext_lexes dot).bind fun _ s₂ adv₂ _ => ?_
  have le₂ := adv₂.length_le
  refine Lexes.ite (fun _ => ?_) fun _ => ?_
  · refine (checkNext_lexes dot).bind fun _ s₃ adv₃ _ => ?_
    have le₃ := adv₃.length_le
    exact Lexes.ite (fun _ => Lexes.pure ⟨by simp, by omega⟩) fun _ =>
      Lexes.pure ⟨by simp, by omega⟩
  · refine Lexes.current (Lexes.ite (fun digit => ?_) fun _ => Lexes.pure ⟨by simp, by omega⟩)
    have digits : Plain isdigit := ⟨by decide, by decide, by decide⟩
    refine (readNumeral_lexes (digits.within digit) (by omega)).bind fun _ s₃ _ less₃ => ?_
    exact Lexes.pure ⟨by simp, by omega⟩

theorem readName_lexes (within : Within s) {fuel : Nat} (short : s.source.length ≤ fuel) :
    Lexes (readName fuel) s fun t s' =>
      t ≠ .eos ∧ s'.source.length < s.source.length := by
  have letters : Plain fun c => isalnum c || c = ch '_' := ⟨by decide, by decide, by decide⟩
  refine (saveAndNext_lexes within).bind fun _ s₁ _ less => ?_
  refine (saveWhile_lexes letters (by omega)).bind fun _ s₂ adv₂ _ => ?_
  have le₂ := adv₂.length_le
  refine Lexes.after rfl ⟨rfl, rfl, rfl⟩ ?_
  split
  · exact Lexes.pure ⟨by simp, by omega⟩
  · exact Lexes.pure ⟨by simp, by omega⟩

theorem readBracket_lexes (same : CharSource.current s.source = ch '[') {fuel : Nat}
    (short : s.source.length ≤ fuel) :
    Lexes (readBracket fuel) s fun t s' =>
      t ≠ .eos ∧ s'.source.length < s.source.length := by
  have within : Within s := Within.of same (by decide)
  refine (skipSep_lexes within short).bind fun sep s₁ _ ⟨less, current⟩ => ?_
  refine Lexes.ite (fun level => ?_) fun _ => ?_
  · have within₁ : Within s₁ := Within.of ((current level).trans same) (by decide)
    refine (readLongString_lexes within₁ true level (by omega)).bind fun _ s₂ _ less₂ => ?_
    exact Lexes.pure ⟨by simp, by omega⟩
  · exact Lexes.ite (fun _ => Lexes.pure ⟨by simp, less⟩) fun _ => Lexes.error _ _

/-- The end token comes at the end of the text, and the others are read off it. -/
def Reads (s : LexState Bytes N) (t : Token N) (s' : LexState Bytes N) : Prop :=
  (t = .eos → s'.source = []) ∧ (t ≠ .eos → s'.source.length < s.source.length)

theorem Reads.token {t : Token N} {s' : LexState Bytes N}
    (h : t ≠ .eos ∧ s'.source.length < s.source.length) : Reads s t s' :=
  ⟨fun same => absurd same h.1, fun _ => h.2⟩

theorem Reads.after {t : Token N} {s₁ s₂ : LexState Bytes N} (h : Reads s₁ t s₂)
    (le : s₁.source.length ≤ s.source.length) : Reads s t s₂ :=
  ⟨h.1, fun other => Nat.lt_of_lt_of_le (h.2 other) le⟩

theorem llexLoop_lexes {fuel : Nat} (short : s.source.length < fuel) :
    Lexes (llexLoop locale fuel) s (Reads s) := by
  induction fuel generalizing s with
  | zero => exact absurd short (Nat.not_lt_zero _)
  | succ fuel ih =>
    have short' : s.source.length ≤ fuel := Nat.le_of_lt_succ short
    have again : ∀ {s' : LexState Bytes N}, s'.source.length < s.source.length →
        Lexes (llexLoop locale fuel) s' (Reads s) := fun less =>
      (ih (by omega)).mono fun _ _ _ reads => reads.after (Nat.le_of_lt less)
    refine Lexes.current (Lexes.ite (fun newline => ?_) fun other => ?_)
    · exact (inclinenumber_lexes newline).bind fun _ _ _ less => again less
    refine Lexes.ite (fun same => ?_) fun _ => ?_
    · have within : Within s := Within.of same (by decide)
      refine (lexNext_lexes within).bind fun _ s₁ _ less => ?_
      refine Lexes.current (Lexes.ite (fun same₁ => ?_) fun _ => ?_)
      · have within₁ : Within s₁ := Within.of same₁ (by decide)
        refine (lexNext_lexes within₁).bind fun _ s₂ _ less₂ => ?_
        refine (readComment_lexes (by omega)).bind fun _ s₃ adv₃ _ => again ?_
        have le₃ := adv₃.length_le
        omega
      · exact Lexes.pure (Reads.token ⟨by simp, less⟩)
    refine Lexes.ite (fun same => ?_) fun _ => ?_
    · exact (readBracket_lexes same short').mono fun _ _ _ => Reads.token
    have two : ∀ {c : Int} {token : Token N}, c ≠ eoz ∧ currIsNewline c = false →
        token ≠ .eos → CharSource.current s.source = c → Lexes (orEqual token) s (Reads s) :=
      fun ordinary token same =>
        (orEqual_lexes (Within.of same ordinary) token).mono fun _ _ _ => Reads.token
    refine Lexes.ite (two (by decide) (by simp)) fun _ => ?_
    refine Lexes.ite (two (by decide) (by simp)) fun _ => ?_
    refine Lexes.ite (two (by decide) (by simp)) fun _ => ?_
    refine Lexes.ite (two (by decide) (by simp)) fun _ => ?_
    refine Lexes.ite (fun quote => ?_) fun _ => ?_
    · have quotes : Plain fun c => c = ch '\x22' || c = ch '\x27' :=
        ⟨by decide, by decide, by decide⟩
      have within : Within s := quotes.within quote
      refine (readString_lexes within within short').bind fun _ s₁ _ less => ?_
      exact Lexes.pure (Reads.token ⟨by simp, less⟩)
    refine Lexes.ite (fun same => ?_) fun _ => Lexes.ite (fun ended => ?_) fun inside => ?_
    · have within : Within s := Within.of same (by decide)
      exact (readDots_lexes within short').mono fun _ _ _ => Reads.token
    · refine Lexes.pure ⟨fun _ => ?_, fun other => absurd rfl other⟩
      rcases current_cases s.source with ⟨empty, _⟩ | ⟨c, _, _, current⟩
      · exact empty
      · exact absurd (current.symm.trans ended) (char2int_ne_eoz c)
    have within : Within s := ⟨inside, Bool.eq_false_iff.mpr other⟩
    refine Lexes.ite (fun _ => ?_) fun _ => Lexes.ite (fun _ => ?_) fun _ => ?_
    · exact (lexNext_lexes within).bind fun _ _ _ less => again less
    · refine (readNumeral_lexes within short').bind fun _ s₁ _ less => ?_
      exact Lexes.pure (Reads.token ⟨by simp, less⟩)
    refine Lexes.ite (fun _ => ?_) fun _ => ?_
    · exact (readName_lexes within short').mono fun _ _ _ => Reads.token
    · refine (lexNext_lexes within).bind fun _ s₁ _ less => ?_
      exact Lexes.pure (Reads.token ⟨by simp, less⟩)

theorem llex_lexes (locale : Locale N) {fuel : Nat} (short : s.source.length < fuel) :
    Lexes (llex locale fuel) s (Reads s) :=
  Lexes.after rfl ⟨rfl, rfl, rfl⟩ (llexLoop_lexes (s := { s with buff := [] }) short)

end Parts

section Calls

variable {N : Type} {s : LexState Bytes N} {locale : Locale N} {fuel : Nat}

theorem setToken_meets {s₀ : LexState Bytes N} {t : Token N} (onward : Onward s₀ s)
    (reads : s₀.lookahead = .eos → Reads s₀ t s) (ahead : s.lookahead = .eos) :
    Meets (AtLine s₀) (setToken t) s fun _ s' =>
      Onward s₀ s' ∧ s'.lookahead = .eos ∧ (s₀.lookahead = .eos → Reads s₀ s'.t s') :=
  Meets.of_ok rfl ⟨⟨onward.suffix, onward.lines⟩, ahead, reads⟩

theorem luaXNext_meets (short : s.source.length < fuel) :
    Meets (AtLine s) (luaXNext locale fuel) s fun _ s' =>
      Onward s s' ∧ s'.lookahead = .eos ∧ (s.lookahead = .eos → Reads s s'.t s') := by
  refine Meets.after rfl (Meets.after rfl ?_)
  split
  · next ahead =>
    have read := llex_lexes (s := { s with lastline := s.linenumber }) locale short
    refine Meets.bind (Meets.mono read (fun _ _ h => h) fun _ h => h) fun t s₁ both => ?_
    obtain ⟨advance, reads⟩ := both
    exact setToken_meets ⟨advance.suffix, advance.lines⟩ (fun _ => reads)
      (advance.lookahead.trans ahead)
  · next other =>
    exact Meets.after rfl (Meets.of_ok rfl
      ⟨⟨List.suffix_rfl, rfl⟩, rfl, fun ahead => absurd ahead other⟩)

theorem lexCall_meets (short : s.source.length < fuel) (call : LexCall) :
    Meets (AtLine s) (lexCall locale fuel call) s fun _ s' => Onward s s' := by
  cases call with
  | next =>
    exact Meets.bind (luaXNext_meets short) fun _ _ both => Meets.of_ok rfl both.1
  | lookahead =>
    refine Meets.bind (Meets.bind (llex_lexes locale short) fun _ s₁ both => ?_) fun _ _ onward =>
      Meets.of_ok rfl onward
    exact Meets.of_ok rfl ⟨both.1.suffix, both.1.lines⟩

theorem lexCalls_meets (locale : Locale N) (short : s.source.length < fuel) (calls : List LexCall) :
    Meets (AtLine s) (lexCalls locale fuel calls) s fun _ s' => Onward s s' := by
  induction calls generalizing s with
  | nil => exact Meets.pure (Onward.refl s)
  | cons call calls ih =>
    refine Meets.bind (lexCall_meets short call) fun _ s₁ onward => ?_
    have le := onward.suffix.length_le
    have rest := ih (s := s₁) (by omega)
    refine Meets.bind (Meets.mono rest (fun _ _ h => h) fun _ => onward.atLine) fun _ s₂ later => ?_
    exact Meets.pure (onward.trans later)

theorem lexCalls_total (locale : Locale N) (text : Bytes) (enough : text.length < fuel)
    (calls : List LexCall) : lexCalls locale fuel calls (lexStart text) ≠ .error .fault := by
  intro stopped
  have run := lexCalls_meets (s := lexStart text) locale enough calls
  unfold Meets at run
  rw [stopped] at run
  obtain ⟨e, _, same, _⟩ := run
  cases same

/-- Every call of the lexer counts exactly the lines that it has read, and an error has the line
that the lexer has come to when it throws it. -/
theorem lexer_counts_lines (locale : Locale N) (text : Bytes) (enough : text.length < fuel)
    (calls : List LexCall) :
    (∃ seen s, lexCalls locale fuel calls (lexStart text) = .ok (seen, s) ∧
      s.source <:+ text ∧ s.linenumber + lineBreaks s.source = 1 + lineBreaks text) ∨
    ∃ e unread, lexCalls locale fuel calls (lexStart text) = .error (.error e unread) ∧
      unread <:+ text ∧ e.linenumber + lineBreaks unread = 1 + lineBreaks text := by
  have run := lexCalls_meets (s := lexStart text) locale enough calls
  unfold Meets at run
  cases result : lexCalls locale fuel calls (lexStart text) with
  | ok x =>
    obtain ⟨seen, s⟩ := x
    rw [result] at run
    exact Or.inl ⟨seen, s, rfl, run.suffix, run.lines⟩
  | error stop =>
    rw [result] at run
    obtain ⟨e, unread, rfl, suffix, lines⟩ := run
    exact Or.inr ⟨e, unread, rfl, suffix, lines⟩

/-- The second line break is in an unfinished string. -/
theorem lexer_counts_lines_unfinished :
    (∃ seen s, lexCalls plainLocale 8 [.next, .next]
        (lexStart (bytes "\r\nx'y\nz")) = .ok (seen, s) ∧
      s.source <:+ bytes "\r\nx'y\nz" ∧
      s.linenumber + lineBreaks s.source = 1 + lineBreaks (bytes "\r\nx'y\nz")) ∨
    ∃ e unread, lexCalls plainLocale 8 [.next, .next]
        (lexStart (bytes "\r\nx'y\nz")) = .error (.error e unread) ∧
      unread <:+ bytes "\r\nx'y\nz" ∧
      e.linenumber + lineBreaks unread = 1 + lineBreaks (bytes "\r\nx'y\nz") :=
  lexer_counts_lines plainLocale (bytes "\r\nx'y\nz") (by decide) [.next, .next]

theorem nextCall_meets (short : s.source.length < fuel) :
    Meets (AtLine s) (lexCall locale fuel .next) s fun first s' =>
      Onward s s' ∧ s'.lookahead = .eos ∧ (s.lookahead = .eos → Reads s first.t s') :=
  Meets.bind (luaXNext_meets short) fun _ _ both => Meets.of_ok rfl both

/-- After as many tokens as characters comes the end. -/
theorem nextCalls_meets (locale : Locale N) (short : s.source.length < fuel) (ahead : s.lookahead = .eos) (n : Nat) :
    Meets (AtLine s) (lexCalls locale fuel (List.replicate n .next)) s fun seen _ =>
      seen.length = n ∧
        (s.source.length < n → ∃ last, seen.getLast? = some last ∧ last.t = .eos) := by
  induction n generalizing s with
  | zero => exact Meets.pure ⟨rfl, fun none_left => absurd none_left (Nat.not_lt_zero _)⟩
  | succ n ih =>
    refine Meets.bind (nextCall_meets short) fun first s₁ both => ?_
    obtain ⟨onward, ahead₁, reads⟩ := both
    obtain ⟨ended, further⟩ := reads ahead
    have le := onward.suffix.length_le
    have rest := ih (s := s₁) (by omega) ahead₁
    refine Meets.bind (Meets.mono rest (fun _ _ h => h) fun _ => onward.atLine) fun seen s₂ later => ?_
    obtain ⟨length, last⟩ := later
    refine Meets.pure ⟨by rw [List.length_cons, length], fun less => ?_⟩
    rw [List.getLast?_cons]
    by_cases more : s₁.source.length < n
    · obtain ⟨x, found, eos⟩ := last more
      exact ⟨x, by rw [found]; rfl, eos⟩
    · have eos : first.t = .eos := by
        by_contra other
        have less₁ := further other
        omega
      have empty := ended eos
      rw [empty, List.length_nil] at more
      have none_left : seen = [] := List.length_eq_zero_iff.mp (by omega)
      exact ⟨first, by rw [none_left]; rfl, eos⟩

end Calls

end DriverSF
