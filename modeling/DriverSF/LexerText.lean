import DriverSF.LexerLines

namespace DriverSF

open StateRules

section Rules

variable {N α β : Type} {s s' : LexState Bytes N} {m : Lexing Bytes N α} {f : α → Lexing Bytes N β}
  {a : α} {b : β} {text text' text'' buff buff' buff'' : Bytes}

/-- The lexer is before a text that has not too many lines. -/
structure Stands (s : LexState Bytes N) (text buff : Bytes) : Prop where
  source : s.source = text
  buff : s.buff = buff
  decpoint : s.decpoint = 46
  ahead : s.lookahead = .eos
  lines : s.linenumber + lineBreaks text < 2147483645

/-- A part of the lexer reads on to another text. -/
def Goes (m : Lexing Bytes N α) (s : LexState Bytes N) (a : α) (text buff : Bytes) : Prop :=
  ∃ s', m s = .ok (a, s') ∧ Stands s' text buff

theorem Goes.pure (here : Stands s text buff) : Goes (Pure.pure a) s a text buff := ⟨s, rfl, here⟩

theorem Goes.run (first : m s = .ok (a, s')) (next : Goes (f a) s' b text buff) :
    Goes (m >>= f) s b text buff := by
  obtain ⟨s₂, run, there⟩ := next
  refine ⟨s₂, ?_, there⟩
  show (m s >>= fun x => f x.1 x.2) = _
  rw [first]
  exact run

theorem Goes.bind (first : Goes m s a text buff)
    (next : ∀ s', Stands s' text buff → Goes (f a) s' b text' buff') :
    Goes (m >>= f) s b text' buff' := by
  obtain ⟨s₁, run, here⟩ := first
  exact Goes.run run (next s₁ here)

theorem Goes.yes {c : Prop} [Decidable c] {m' : Lexing Bytes N α} (h : c)
    (go : Goes m s a text buff) : Goes (if c then m else m') s a text buff := by
  rwa [if_pos h]

theorem Goes.no {c : Prop} [Decidable c] {m' : Lexing Bytes N α} (h : ¬c)
    (go : Goes m' s a text buff) : Goes (if c then m else m') s a text buff := by
  rwa [if_neg h]

/-- The current character of a text. -/
theorem Goes.current {f : Int → Lexing Bytes N β} (here : Stands s text buff)
    (next : Goes (f (CharSource.current text)) s b text' buff') :
    Goes (lexCurrent >>= f) s b text' buff' := by
  have same : CharSource.current s.source = CharSource.current text := by rw [here.source]
  rw [← same] at next
  exact next

theorem Goes.head {c : UInt8} {rest : Bytes} {f : Int → Lexing Bytes N β}
    (here : Stands s (c :: rest) buff) (next : Goes (f (char2int c)) s b text' buff') :
    Goes (lexCurrent >>= f) s b text' buff' :=
  Goes.current here next

theorem lexNext_goes {c : UInt8} {rest : Bytes} (here : Stands s (c :: rest) buff)
    (within : isNewline c = false) : Goes lexNext s () rest buff := by
  refine ⟨_, lexNext_cons here.source, rfl, here.buff, here.decpoint, here.ahead, ?_⟩
  have lines := here.lines
  rwa [lineBreaks_cons within] at lines

theorem ofNat_char2int (c : UInt8) : UInt8.ofNat (char2int c).toNat = c := by
  simp [char2int]

theorem lexSave_eq (s : LexState Bytes N) (c : UInt8) :
    lexSave (char2int c) s = .ok ((), { s with buff := s.buff ++ [c] }) := by
  rw [lexSave, ofNat_char2int]

theorem lexSave_goes (here : Stands s text buff) (c : UInt8) :
    Goes (lexSave (char2int c)) s () text (buff ++ [c]) :=
  ⟨_, lexSave_eq s c, here.source, congrArg (· ++ [c]) here.buff, here.decpoint, here.ahead,
    here.lines⟩

theorem saveAndNext_goes {c : UInt8} {rest : Bytes} (here : Stands s (c :: rest) buff)
    (within : isNewline c = false) : Goes saveAndNext s () rest (buff ++ [c]) :=
  Goes.current here ((lexSave_goes here c).bind fun _ there => lexNext_goes there within)

theorem contents_goes (here : Stands s text buff) (first both : Nat) :
    Goes (contents first both) s ((buff.drop first).take (buff.length - both)) text buff := by
  refine ⟨s, ?_, here⟩
  rw [contents, here.buff]

/-- A line break has been read, and has room to be counted. -/
theorem countLine_goes (source : s.source = text) (same : s.buff = buff) (decpoint : s.decpoint = 46)
    (ahead : s.lookahead = .eos) (lines : s.linenumber + 1 + lineBreaks text < 2147483645) :
    Goes countLine s () text buff := by
  have few : ¬2147483645 ≤ s.linenumber + 1 := by omega
  have run : countLine s = .ok ((), { s with linenumber := s.linenumber + 1 }) := if_neg few
  exact ⟨_, run, source, same, decpoint, ahead, lines⟩

theorem inclinenumber_eq {c : UInt8} {rest : Bytes} (source : s.source = c :: rest) :
    inclinenumber s =
      (if currIsNewline (CharSource.current rest) && CharSource.current rest ≠ char2int c then do
          lexNext
          countLine
        else countLine : Lexing Bytes N Unit) { s with source := rest } := by
  have same : CharSource.current s.source = char2int c := by
    rw [source]
    rfl
  rw [← same]
  show (lexNext s >>= fun x => _) = _
  rw [lexNext_cons source]
  rfl

/-- A newline that has no partner behind it. -/
theorem inclinenumber_goes {c : UInt8} {rest : Bytes} (here : Stands s (c :: rest) buff)
    (newline : isNewline c = true)
    (single : ∀ d, rest.head? = some d → (isNewline d && d ≠ c) = false) :
    Goes inclinenumber s () rest buff := by
  have lines := here.lines
  rw [lineBreaks_newline newline single] at lines
  have other : ¬(currIsNewline (CharSource.current rest) &&
      CharSource.current rest ≠ char2int c) = true := by
    intro pair
    cases rest with
    | nil => cases pair
    | cons d rest =>
      have alone := single d rfl
      obtain ⟨second, differ⟩ := Bool.and_eq_true_iff.mp pair
      have newline' : isNewline d = true := (currIsNewline_char2int d).symm.trans second
      rw [newline', Bool.true_and, decide_eq_false_iff_not, not_not] at alone
      subst alone
      exact of_decide_eq_true differ rfl
  have room : s.linenumber + 1 + lineBreaks rest < 2147483645 := by omega
  obtain ⟨s', run, there⟩ := countLine_goes (s := { s with source := rest }) rfl
    here.buff here.decpoint here.ahead room
  exact ⟨s', by rw [inclinenumber_eq here.source, if_neg other, run], there⟩

/-- Two different newline characters are one line break. -/
theorem inclinenumber_pair {c d : UInt8} {rest : Bytes} (here : Stands s (c :: d :: rest) buff)
    (newline : isNewline c = true) (newline' : isNewline d = true) (differ : d ≠ c) :
    Goes inclinenumber s () rest buff := by
  have lines := here.lines
  rw [lineBreaks_pair newline newline' differ] at lines
  have pair : (currIsNewline (CharSource.current (d :: rest)) &&
      CharSource.current (d :: rest) ≠ char2int c) = true := by
    have other : char2int d ≠ char2int c := fun same =>
      differ (UInt8.toNat_inj.mp (Int.ofNat.inj same))
    exact Bool.and_eq_true_iff.mpr
      ⟨(currIsNewline_char2int d).trans newline', decide_eq_true other⟩
  have room : s.linenumber + 1 + lineBreaks rest < 2147483645 := by omega
  obtain ⟨s', run, there⟩ := countLine_goes (s := { s with source := rest }) rfl
    here.buff here.decpoint here.ahead room
  refine ⟨s', ?_, there⟩
  rw [inclinenumber_eq here.source, if_pos pair]
  show (lexNext { s with source := d :: rest } >>= fun x => _) = _
  rw [lexNext_cons rfl]
  exact run

end Rules

section Strings

variable {N : Type} {s : LexState Bytes N} {c d del : UInt8} {body text rest buff : Bytes}
  {fuel : Nat}

theorem char2int_ne (other : c ≠ d) : ¬char2int c = char2int d :=
  fun same => other (UInt8.toNat_inj.mp (Int.ofNat.inj same))

def decimalValue : Bytes → Int → Int
  | [], n => n
  | d :: digits, n => decimalValue digits (10 * n + (char2int d - 48))

/-- The text of a string between its delimiters. -/
inductive Literal (del : UInt8) : Bytes → Bytes → Prop
  | ended : Literal del [] []
  | plain {c : UInt8} {body text : Bytes} (other : c ≠ del) (slash : c ≠ 92)
      (within : isNewline c = false) (more : Literal del body text) :
      Literal del (c :: body) (c :: text)
  | letter {c d : UInt8} {body text : Bytes} (within : isNewline c = false)
      (letter : escapes.lookup (char2int c) = some (char2int d)) (more : Literal del body text) :
      Literal del (d :: body) (92 :: c :: text)
  | itself {c : UInt8} {body text : Bytes} (within : isNewline c = false)
      (letter : escapes.lookup (char2int c) = none) (digit : isdigit (char2int c) = false)
      (more : Literal del body text) : Literal del (c :: body) (92 :: c :: text)
  | newline {c : UInt8} {body text : Bytes} (newline : isNewline c = true)
      (single : ∀ d, text.head? = some d → (isNewline d && d ≠ c) = false)
      (more : Literal del body text) : Literal del (10 :: body) (92 :: c :: text)
  | newlines {c d : UInt8} {body text : Bytes} (first : isNewline c = true)
      (second : isNewline d = true) (differ : d ≠ c) (more : Literal del body text) :
      Literal del (10 :: body) (92 :: c :: d :: text)
  | decimal {c : UInt8} {digits body text : Bytes} (one : digits ≠ [])
      (most : digits.length ≤ 3) (all : ∀ d ∈ digits, isdigit (char2int d) = true)
      (stop : digits.length < 3 → ∀ d, text.head? = some d → isdigit (char2int d) = false)
      (value : decimalValue digits 0 = char2int c) (more : Literal del body text) :
      Literal del (c :: body) (92 :: (digits ++ text))

theorem readEscape_letter (here : Stands s (c :: rest) buff) (within : isNewline c = false)
    (letter : escapes.lookup (char2int c) = some (char2int d)) :
    Goes readEscape s () rest (buff ++ [d]) := by
  refine Goes.head here ?_
  simp only [letter]
  exact (lexSave_goes here d).bind fun _ there => lexNext_goes there within

theorem readEscape_itself (here : Stands s (c :: rest) buff) (within : isNewline c = false)
    (letter : escapes.lookup (char2int c) = none) (digit : isdigit (char2int c) = false) :
    Goes readEscape s () rest (buff ++ [c]) := by
  refine Goes.head here ?_
  simp only [letter]
  refine Goes.no ?_ (Goes.no (char2int_ne_eoz c) (Goes.no (Bool.eq_false_iff.mp digit) ?_))
  · rw [currIsNewline_char2int, within]
    exact Bool.false_ne_true
  · exact saveAndNext_goes here within

theorem readEscape_newline (here : Stands s (c :: rest) buff) (newline : isNewline c = true)
    (counts : ∀ s' : LexState Bytes N, Stands s' (c :: rest) (buff ++ [10]) →
      Goes inclinenumber s' () text (buff ++ [10])) :
    Goes readEscape s () text (buff ++ [10]) := by
  have letter : escapes.lookup (char2int c) = none := by
    rcases Bool.or_eq_true_iff.mp newline with same | same
    · rw [of_decide_eq_true same]
      decide
    · rw [of_decide_eq_true same]
      decide
  refine Goes.head here ?_
  simp only [letter]
  exact Goes.yes ((currIsNewline_char2int c).trans newline)
    ((lexSave_goes here 10).bind fun s' there => counts s' there)

theorem isdigit_plain : Plain isdigit := ⟨by decide, by decide, by decide⟩

theorem Plain.byte {p : Int → Bool} (plain : Plain p) (good : p (char2int c) = true) :
    isNewline c = false := by
  rw [← currIsNewline_char2int]
  obtain ⟨_, feed, back⟩ := plain
  rw [← Bool.not_eq_true]
  intro newline
  rcases Bool.or_eq_true_iff.mp newline with same | same
  · rw [of_decide_eq_true same, feed] at good
    cases good
  · rw [of_decide_eq_true same, back] at good
    cases good

theorem current_of_head {p : Int → Bool} (ended : p eoz = false)
    (inside : ∀ d, text.head? = some d → p (char2int d) = false) :
    p (CharSource.current text) = false := by
  cases text with
  | nil => exact ended
  | cons d text => exact inside d rfl

theorem lookup_of_isdigit {x : Int} (digit : isdigit x = true) : escapes.lookup x = none := by
  refine List.lookup_eq_none_iff.mpr fun p member => ?_
  rw [bne_iff_ne]
  intro same
  have letters : ∀ p ∈ escapes, isdigit p.1 = false := by decide
  rw [same, letters p member] at digit
  cases digit

theorem readDecimal_goes {digits : Bytes} {left : Nat} (most : digits.length ≤ left)
    (all : ∀ d ∈ digits, isdigit (char2int d) = true)
    (stop : digits.length < left → isdigit (CharSource.current rest) = false)
    (here : Stands s (digits ++ rest) buff) (n : Int) :
    Goes (readDecimal left n) s (decimalValue digits n) rest buff := by
  induction digits generalizing s left n with
  | nil =>
    cases left with
    | zero => exact Goes.pure here
    | succ left =>
      exact Goes.current here (Goes.no (Bool.eq_false_iff.mp (stop (Nat.succ_pos left)))
        (Goes.pure here))
  | cons d digits ih =>
    obtain ⟨left, rfl⟩ : ∃ l, left = l + 1 := ⟨left - 1, by rw [List.length_cons] at most; omega⟩
    rw [List.length_cons] at most stop
    obtain ⟨digit, others⟩ := List.forall_mem_cons.mp all
    refine Goes.head here (Goes.yes digit ((lexNext_goes here (isdigit_plain.byte digit)).bind ?_))
    exact fun _ there => ih (by omega) others (fun less => stop (by omega)) there _

theorem readEscape_decimal {digits : Bytes} (one : digits ≠ []) (most : digits.length ≤ 3)
    (all : ∀ d ∈ digits, isdigit (char2int d) = true)
    (stop : digits.length < 3 → isdigit (CharSource.current rest) = false)
    (value : decimalValue digits 0 = char2int c) (here : Stands s (digits ++ rest) buff) :
    Goes readEscape s () rest (buff ++ [c]) := by
  have decimal := readDecimal_goes most all stop here 0
  rw [value] at decimal
  obtain ⟨d, digits, rfl⟩ := List.exists_cons_of_ne_nil one
  have digit := all d List.mem_cons_self
  have letter := lookup_of_isdigit digit
  have small : ¬255 < char2int c := by
    unfold char2int
    have := c.toNat_lt
    omega
  refine Goes.head here ?_
  simp only [letter]
  refine Goes.no ?_ (Goes.no (char2int_ne_eoz d) (Goes.yes digit ?_))
  · rw [currIsNewline_char2int, isdigit_plain.byte digit]
    exact Bool.false_ne_true
  · exact decimal.bind fun _ there => Goes.no small (lexSave_goes there c)

theorem stringLoop_escape {after final : Bytes} (slash : del ≠ 92) (positive : 0 < fuel)
    (here : Stands s (92 :: text) buff)
    (escape : ∀ {s' : LexState Bytes N}, Stands s' text buff →
      Goes readEscape s' () after (buff ++ [c]))
    (next : ∀ {s' : LexState Bytes N}, Stands s' after (buff ++ [c]) →
      Goes (stringLoop (char2int del) (fuel - 1)) s' () rest final) :
    Goes (stringLoop (char2int del) fuel) s () rest final := by
  obtain ⟨fuel, rfl⟩ : ∃ f, fuel = f + 1 := ⟨fuel - 1, by omega⟩
  refine Goes.head here (Goes.no (char2int_ne slash.symm) (Goes.no (char2int_ne_eoz 92)
    (Goes.no Bool.false_ne_true (Goes.yes rfl ?_))))
  exact (lexNext_goes here rfl).bind fun _ here₁ => (escape here₁).bind fun _ => next

theorem stringLoop_plain {final : Bytes} (other : c ≠ del) (slash : c ≠ 92)
    (within : isNewline c = false) (positive : 0 < fuel) (here : Stands s (c :: text) buff)
    (next : ∀ {s' : LexState Bytes N}, Stands s' text (buff ++ [c]) →
      Goes (stringLoop (char2int del) (fuel - 1)) s' () rest final) :
    Goes (stringLoop (char2int del) fuel) s () rest final := by
  obtain ⟨fuel, rfl⟩ : ∃ f, fuel = f + 1 := ⟨fuel - 1, by omega⟩
  refine Goes.head here (Goes.no (char2int_ne other) (Goes.no (char2int_ne_eoz c)
    (Goes.no ?_ (Goes.no (char2int_ne slash) ?_))))
  · rw [currIsNewline_char2int, within]
    exact Bool.false_ne_true
  · exact (saveAndNext_goes here within).bind fun _ => next

/-- The delimiters of strings. -/
def Delimiter (del : UInt8) : Prop := del = 34 ∨ del = 39

theorem Delimiter.slash (quote : Delimiter del) : del ≠ 92 := by
  rcases quote with rfl | rfl
  · decide
  · decide

theorem Delimiter.within (quote : Delimiter del) : isNewline del = false := by
  rcases quote with rfl | rfl
  · rfl
  · rfl

theorem Delimiter.digit (quote : Delimiter del) : isdigit (char2int del) = false := by
  rcases quote with rfl | rfl
  · decide
  · decide

/-- What is not at the start of a string is not behind its end either. -/
theorem Delimiter.head {p : UInt8 → Prop} (own : p del) (inside : ∀ d, text.head? = some d → p d)
    {d : UInt8} (first : (text ++ del :: rest).head? = some d) : p d := by
  cases text with
  | nil => exact Option.some.inj first ▸ own
  | cons e text => exact inside d first

theorem stringLoop_literal (quote : Delimiter del) (literal : Literal del body text)
    (here : Stands s (text ++ del :: rest) buff) (enough : text.length < fuel) :
    Goes (stringLoop (char2int del) fuel) s () (del :: rest) (buff ++ body) := by
  induction literal generalizing s buff fuel with
  | ended =>
    obtain ⟨fuel, rfl⟩ : ∃ f, fuel = f + 1 := ⟨fuel - 1, by omega⟩
    rw [List.append_nil]
    exact Goes.head here (Goes.yes rfl (Goes.pure here))
  | plain other slash within more ih =>
    rw [List.length_cons] at enough
    rw [List.append_cons]
    exact stringLoop_plain other slash within (by omega) here fun there => ih there (by omega)
  | letter within letter more ih =>
    simp only [List.length_cons] at enough
    rw [List.append_cons]
    exact stringLoop_escape quote.slash (by omega) here
      (fun there => readEscape_letter there within letter) fun there => ih there (by omega)
  | itself within letter digit more ih =>
    simp only [List.length_cons] at enough
    rw [List.append_cons]
    exact stringLoop_escape quote.slash (by omega) here
      (fun there => readEscape_itself there within letter digit) fun there => ih there (by omega)
  | @newline c body text newline single more ih =>
    simp only [List.length_cons] at enough
    rw [List.append_cons]
    have alone : ∀ d, (text ++ del :: rest).head? = some d → (isNewline d && d ≠ c) = false :=
      fun d => Delimiter.head (p := fun d => (isNewline d && d ≠ c) = false)
        (by rw [quote.within, Bool.false_and]) single
    exact stringLoop_escape quote.slash (by omega) here
      (fun there => readEscape_newline there newline fun _ saved =>
        inclinenumber_goes saved newline alone) fun there => ih there (by omega)
  | newlines first second differ more ih =>
    simp only [List.length_cons] at enough
    rw [List.append_cons]
    exact stringLoop_escape quote.slash (by omega) here
      (fun there => readEscape_newline there first fun _ saved =>
        inclinenumber_pair saved first second differ) fun there => ih there (by omega)
  | @decimal c digits body text one most all stop value more ih =>
    simp only [List.length_cons, List.length_append] at enough
    rw [List.append_cons]
    rw [List.cons_append, List.append_assoc] at here
    have ended : digits.length < 3 → isdigit (CharSource.current (text ++ del :: rest)) = false :=
      fun less => current_of_head rfl fun d =>
        Delimiter.head (p := fun d => isdigit (char2int d) = false) quote.digit (stop less)
    exact stringLoop_escape quote.slash (by omega) here
      (fun there => readEscape_decimal one most all ended value there) fun there =>
        ih there (by omega)

/-- A string is read with its text between delimiters. -/
theorem readString_literal (quote : Delimiter del) (literal : Literal del body text)
    (here : Stands s (del :: (text ++ del :: rest)) []) (enough : text.length < fuel) :
    Goes (readString (char2int del) fuel) s body rest (del :: (body ++ [del])) := by
  refine (saveAndNext_goes here quote.within).bind fun s₁ here₁ => ?_
  refine (stringLoop_literal quote literal here₁ enough).bind fun s₂ here₂ => ?_
  refine (saveAndNext_goes here₂ quote.within).bind fun s₃ here₃ => ?_
  have read := contents_goes here₃ 1 2
  have inner : (([] ++ [del] ++ body ++ [del] : Bytes).drop 1).take
      (([] ++ [del] ++ body ++ [del] : Bytes).length - 2) = body := by simp
  rw [inner] at read
  exact read

/-- `addquoted` of `lstrlib.c`, for one character. -/
def quoteChar (c : UInt8) : Bytes :=
  if c = 34 || c = 92 || c = 10 then [92, c]
  else if c = 13 then bytes "\\r"
  else if c = 0 then bytes "\\000"
  else [c]

def addquoted (s : Bytes) : Bytes := 34 :: (s.flatMap quoteChar ++ [34])

/-- A quoted character goes on in the text, without a carriage return. -/
theorem quoteChar_head (c : UInt8) : ∃ d tail, quoteChar c = d :: tail ∧ d ≠ 13 := by
  unfold quoteChar
  split
  · exact ⟨92, [c], rfl, by decide⟩
  · split
    · exact ⟨92, [114], rfl, by decide⟩
    · next other =>
      split
      · exact ⟨92, [48, 48, 48], rfl, by decide⟩
      · exact ⟨c, [], rfl, other⟩

theorem quoted_head (front : Bytes) (feed : text.head? ≠ some 13) :
    (front.flatMap quoteChar ++ text).head? ≠ some 13 := by
  cases front with
  | nil => exact feed
  | cons c front =>
    obtain ⟨d, tail, quoted, other⟩ := quoteChar_head c
    rw [List.flatMap_cons, quoted]
    simpa using other

/-- What `addquoted` writes, before the rest of a string. -/
theorem quoted_literal (front : Bytes) (more : Literal 34 body text)
    (feed : text.head? ≠ some 13) :
    Literal 34 (front ++ body) (front.flatMap quoteChar ++ text) := by
  induction front with
  | nil => exact more
  | cons c front ih =>
    rw [List.flatMap_cons, List.append_assoc]
    unfold quoteChar
    split
    · next escaped =>
      by_cases line : c = 10
      · subst line
        refine .newline rfl (fun d first => ?_) ih
        have other : d ≠ 13 := fun same => quoted_head front feed (same ▸ first)
        simp [isNewline, other]
      · have quote : c = 34 ∨ c = 92 := by simpa [line] using escaped
        rcases quote with rfl | rfl
        · exact .itself rfl (by decide) (by decide) ih
        · exact .itself rfl (by decide) (by decide) ih
    · next plain =>
      split
      · next back =>
        subst back
        exact .letter rfl (by decide) ih
      · next feed =>
        split
        · next zero =>
          subst zero
          have digits : Literal 34 (0 :: (front ++ body))
              (92 :: ([48, 48, 48] ++ (front.flatMap quoteChar ++ text))) :=
            .decimal (by decide) (by decide) (List.all_eq_true.mp (by decide))
              (fun less => absurd less (by decide)) (by decide) ih
          exact digits
        · have others : c ≠ 34 ∧ c ≠ 92 ∧ c ≠ 10 := by simpa [not_or, and_assoc] using plain
          obtain ⟨quote, slash, line⟩ := others
          exact .plain quote slash (by simp [isNewline, line, feed]) ih

end Strings

end DriverSF
