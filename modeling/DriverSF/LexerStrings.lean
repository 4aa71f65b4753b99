import DriverSF.LexerTokens

namespace DriverSF

open StateRules

section Ends

variable {N α : Type} {s : LexState Bytes N} {c del : UInt8} {rest : Bytes} {fuel : Nat}
  {f : Int → Lexing Bytes N α} {post : α → LexState Bytes N → Prop}

/-- What holds behind a part of the lexer, when it raises no error. -/
def Ends (m : Lexing Bytes N α) (s : LexState Bytes N) (post : α → LexState Bytes N → Prop) :
    Prop :=
  Meets (fun _ => True) m s post

theorem Ends.head (source : s.source = c :: rest) (next : Ends (f (char2int c)) s post) :
    Ends (lexCurrent >>= f) s post := by
  have same : CharSource.current s.source = char2int c := by
    rw [source]
    rfl
  rw [← same] at next
  exact Meets.after rfl next

theorem Ends.ended (source : s.source = []) (next : Ends (f eoz) s post) :
    Ends (lexCurrent >>= f) s post := by
  have same : CharSource.current s.source = eoz := by
    rw [source]
    rfl
  rw [← same] at next
  exact Meets.after rfl next

theorem Ends.error (msg : Bytes) (token : TokenKind) :
    Ends (luaXLexerror msg token) s post :=
  Meets.of_error rfl trivial

theorem lexNext_ends (source : s.source = c :: rest) :
    Ends lexNext s fun _ s' => s'.source = rest ∧ s'.buff = s.buff :=
  Meets.of_ok (lexNext_cons source) ⟨rfl, rfl⟩

theorem lexSave_ends (c : UInt8) :
    Ends (lexSave (char2int c)) s fun _ s' =>
      s'.source = s.source ∧ s'.buff = s.buff ++ [c] :=
  Meets.of_ok (lexSave_eq s c) ⟨rfl, rfl⟩

theorem saveAndNext_ends (source : s.source = c :: rest) :
    Ends saveAndNext s fun _ s' => s'.source = rest ∧ s'.buff = s.buff ++ [c] := by
  refine Ends.head source (Meets.bind (lexSave_ends c) fun _ s₁ saved => ?_)
  refine Meets.mono (lexNext_ends (saved.1.trans source)) (fun _ s₂ later => ?_)
    fun _ _ => trivial
  exact ⟨later.1, later.2.trans saved.2⟩

theorem countLine_ends :
    Ends countLine s fun _ s' => s'.source = s.source ∧ s'.buff = s.buff := by
  by_cases many : 2147483645 ≤ s.linenumber + 1
  · exact Meets.of_error (if_pos many) trivial
  · exact Meets.of_ok (if_neg many) ⟨rfl, rfl⟩

theorem Ends.of_eq {m m' : Lexing Bytes N α} {s' : LexState Bytes N} (same : m s = m' s')
    (h : Ends m' s' post) : Ends m s post := by
  unfold Ends Meets at h ⊢
  rw [same]
  exact h

theorem inclinenumber_ends (source : s.source = c :: rest) :
    Ends inclinenumber s fun _ s' => s'.buff = s.buff ∧
      ((s'.source = rest ∧ ∀ d, rest.head? = some d → (isNewline d && d ≠ c) = false) ∨
        ∃ d, rest = d :: s'.source ∧ isNewline d = true ∧ d ≠ c) := by
  refine Ends.of_eq (inclinenumber_eq source) (Meets.ite (fun pair => ?_) fun single => ?_)
  · cases rest with
    | nil => cases pair
    | cons d rest =>
      obtain ⟨newline, differ⟩ := Bool.and_eq_true_iff.mp pair
      have other : d ≠ c := fun same => of_decide_eq_true differ (congrArg char2int same)
      refine Meets.bind (lexNext_ends rfl) fun _ s₁ first => ?_
      refine Meets.mono countLine_ends (fun _ s₂ second => ?_) fun _ _ => trivial
      have source₂ : s₂.source = rest := second.1.trans first.1
      refine ⟨second.2.trans first.2, Or.inr ⟨d, ?_, ?_, other⟩⟩
      · rw [source₂]
      · exact (currIsNewline_char2int d).symm.trans newline
  · refine Meets.mono countLine_ends (fun _ s₁ first => ?_) fun _ _ => trivial
    refine ⟨first.2, Or.inl ⟨first.1, fun d head => ?_⟩⟩
    obtain ⟨tail, rfl⟩ : ∃ tail, rest = d :: tail := by
      cases rest with
      | nil => cases head
      | cons e tail => exact ⟨tail, by rw [Option.some.inj head]⟩
    rw [← Bool.not_eq_true]
    intro pair
    obtain ⟨newline, differ⟩ := Bool.and_eq_true_iff.mp pair
    refine single (Bool.and_eq_true_iff.mpr ⟨?_, decide_eq_true ?_⟩)
    · exact (currIsNewline_char2int d).trans newline
    · exact char2int_ne (of_decide_eq_true differ)

theorem readDecimal_ends (left : Nat) (n : Int) :
    Ends (readDecimal left n) s fun value s' => s'.buff = s.buff ∧
      ∃ digits, s.source = digits ++ s'.source ∧ digits.length ≤ left ∧
        (∀ d ∈ digits, isdigit (char2int d) = true) ∧
        (digits.length < left → ∀ d, s'.source.head? = some d → isdigit (char2int d) = false) ∧
        value = decimalValue digits n := by
  induction left generalizing s n with
  | zero =>
    exact Meets.pure ⟨rfl, [], rfl, Nat.le_refl 0, fun _ member => (List.not_mem_nil member).elim,
      fun less => absurd less (Nat.not_lt_zero _), rfl⟩
  | succ left ih =>
    have stops : (∀ d, s.source.head? = some d → isdigit (char2int d) = false) →
        Ends (pure n) s fun value s' => s'.buff = s.buff ∧
          ∃ digits, s.source = digits ++ s'.source ∧ digits.length ≤ left + 1 ∧
            (∀ d ∈ digits, isdigit (char2int d) = true) ∧
            (digits.length < left + 1 →
              ∀ d, s'.source.head? = some d → isdigit (char2int d) = false) ∧
            value = decimalValue digits n := fun stop =>
      Meets.pure ⟨rfl, [], rfl, Nat.zero_le _, fun _ member => (List.not_mem_nil member).elim,
        fun _ => stop, rfl⟩
    cases source : s.source with
    | nil =>
      rw [source] at stops
      refine Ends.ended source (Meets.ite (fun digit => ?_) fun _ => stops ?_)
      · cases digit
      · exact fun d head => by cases head
    | cons d rest =>
      rw [source] at stops
      refine Ends.head source (Meets.ite (fun digit => ?_) fun other => stops ?_)
      · refine Meets.bind (lexNext_ends source) fun _ s₁ first => ?_
        refine Meets.mono (ih _) (fun value s₂ later => ?_) fun _ _ => trivial
        obtain ⟨buff, digits, text, most, all, stop, rfl⟩ := later
        refine ⟨buff.trans first.2, d :: digits, ?_, ?_, ?_, ?_, rfl⟩
        · rw [← first.1, text]
          rfl
        · rw [List.length_cons]
          omega
        · exact List.forall_mem_cons.mpr ⟨digit, all⟩
        · rw [List.length_cons]
          exact fun less => stop (by omega)
      · intro e head
        rw [← Option.some.inj head]
        exact Bool.eq_false_iff.mpr other

/-- The characters behind a backslash stand for one character, before the rest of the text. -/
def Escaped (c : UInt8) (front rest : Bytes) : Prop :=
  ∀ {del : UInt8} {body text tail : Bytes}, rest = text ++ del :: tail → Literal del body text →
    Literal del (c :: body) (92 :: (front ++ text))

/-- A condition on what follows holds at the start of it. -/
theorem before_of_rest {p : UInt8 → Prop} {text tail : Bytes} (same : rest = text ++ tail)
    (h : ∀ d, rest.head? = some d → p d) : ∀ d, text.head? = some d → p d := by
  intro d head
  cases text with
  | nil => cases head
  | cons e text =>
    rw [same] at h
    exact h d head

theorem escape_letter {x : Int} (letter : escapes.lookup (char2int c) = some x) :
    isNewline c = false ∧ ∃ d, x = char2int d := by
  have letters : Plain fun c => (escapes.lookup c).isSome := ⟨by decide, by decide, by decide⟩
  have bytes : ∀ p ∈ escapes, p.2 = char2int (UInt8.ofNat p.2.toNat) := by decide
  refine ⟨letters.byte (by rw [letter]; rfl), UInt8.ofNat x.toNat, ?_⟩
  obtain ⟨l₁, l₂, split, _⟩ := List.lookup_eq_some_iff.mp letter
  refine bytes (char2int c, x) ?_
  rw [split]
  exact List.mem_append_right l₁ List.mem_cons_self

theorem decimalValue_nonneg {digits : Bytes} (all : ∀ d ∈ digits, isdigit (char2int d) = true)
    {n : Int} (h : 0 ≤ n) : 0 ≤ decimalValue digits n := by
  induction digits generalizing n with
  | nil => exact h
  | cons d digits ih =>
    obtain ⟨digit, others⟩ := List.forall_mem_cons.mp all
    have least : 48 ≤ char2int d := of_decide_eq_true (Bool.and_eq_true_iff.mp digit).1
    exact ih others (by omega)

/-- An escape has been read, and the character that it stands for is saved. -/
def ReadsEscape (s s' : LexState Bytes N) : Prop :=
  ∃ c front, s.source = front ++ s'.source ∧ s'.buff = s.buff ++ [c] ∧ Escaped c front s'.source

theorem letter_ends {d : UInt8} (source : s.source = c :: rest) (within : isNewline c = false)
    (letter : escapes.lookup (char2int c) = some (char2int d)) :
    Ends (lexSave (char2int d) >>= fun _ => lexNext) s fun _ s' => ReadsEscape s s' := by
  refine Meets.bind (lexSave_ends d) fun _ s₁ saved => ?_
  obtain ⟨source₁, buff₁⟩ := saved
  refine Meets.mono (lexNext_ends (source₁.trans source)) (fun _ s₂ later => ?_) fun _ _ => trivial
  refine ⟨d, [c], ?_, later.2.trans buff₁, fun _ more => .letter within letter more⟩
  rw [later.1, source]
  rfl

theorem newline_ends (source : s.source = c :: rest) (newline : isNewline c = true) :
    Ends (lexSave (char2int 10) >>= fun _ => inclinenumber) s fun _ s' => ReadsEscape s s' := by
  refine Meets.bind (lexSave_ends 10) fun _ s₁ saved => ?_
  obtain ⟨source₁, buff₁⟩ := saved
  refine Meets.mono (inclinenumber_ends (source₁.trans source)) (fun _ s₂ later => ?_)
    fun _ _ => trivial
  obtain ⟨buff₂, ⟨source₂, single⟩ | ⟨d, pair, second, differ⟩⟩ := later
  · refine ⟨10, [c], ?_, buff₂.trans buff₁, fun same more => ?_⟩
    · rw [source₂, source]
      rfl
    · rw [source₂] at same
      exact .newline newline (before_of_rest same single) more
  · refine ⟨10, [c, d], ?_, buff₂.trans buff₁, fun _ more => ?_⟩
    · rw [source, pair]
      rfl
    · exact .newlines newline second differ more

theorem decimal_ends (source : s.source = c :: rest) (digit : isdigit (char2int c) = true) :
    Ends (readDecimal 3 0 >>= fun n =>
      if 255 < n then luaXLexerror (bytes "escape sequence too large") .string else lexSave n) s
      fun _ s' => ReadsEscape s s' := by
  refine Meets.bind (readDecimal_ends 3 0) fun value s₁ read => ?_
  obtain ⟨buff₁, digits, text, most, all, stop, rfl⟩ := read
  refine Meets.ite (fun _ => Ends.error _ _) fun small => ?_
  obtain ⟨d, value⟩ : ∃ d : UInt8, decimalValue digits 0 = char2int d := by
    have least := decimalValue_nonneg all (Int.le_refl 0)
    have byte : (decimalValue digits 0).toNat < 2 ^ 8 := by omega
    refine ⟨UInt8.ofNat (decimalValue digits 0).toNat, ?_⟩
    rw [char2int, UInt8.toNat_ofNat_of_lt' byte]
    omega
  have one : digits ≠ [] := by
    intro empty
    subst empty
    have unread : s₁.source = c :: rest := text.symm.trans source
    have first := stop (by decide) c (by rw [unread]; rfl)
    rw [digit] at first
    cases first
  rw [value]
  refine Meets.mono (lexSave_ends d) (fun _ s₂ saved => ?_) fun _ _ => trivial
  obtain ⟨source₂, buff₂⟩ := saved
  refine ⟨d, digits, ?_, ?_, fun same more => ?_⟩
  · rw [text, source₂]
  · rw [buff₂, buff₁]
  · rw [source₂] at same
    exact .decimal one most all (fun less => before_of_rest same (stop less)) value more

theorem itself_ends (source : s.source = c :: rest) (within : isNewline c = false)
    (letter : escapes.lookup (char2int c) = none) (digit : isdigit (char2int c) = false) :
    Ends saveAndNext s fun _ s' => ReadsEscape s s' := by
  refine Meets.mono (saveAndNext_ends source) (fun _ s₁ later => ?_) fun _ _ => trivial
  refine ⟨c, [c], ?_, later.2, fun _ more => .itself within letter digit more⟩
  rw [later.1, source]
  rfl

/-- A backslash at the end of the input escapes nothing, and an error follows. -/
theorem readEscape_ends :
    Ends readEscape s fun _ s' => s'.source = [] ∨ ReadsEscape s s' := by
  have read : ∀ {m : Lexing Bytes N Unit}, (Ends m s fun _ s' => ReadsEscape s s') →
      Ends m s fun _ s' => s'.source = [] ∨ ReadsEscape s s' := fun h =>
    Meets.mono h (fun _ _ => Or.inr) fun _ _ => trivial
  cases source : s.source with
  | nil => exact Ends.ended source (Meets.pure (Or.inl source))
  | cons c rest =>
    refine Ends.head source ?_
    cases letter : escapes.lookup (char2int c) with
    | some x =>
      obtain ⟨within, d, rfl⟩ := escape_letter letter
      exact read (letter_ends source within letter)
    | none =>
      refine Meets.ite (fun newline => ?_) fun other => ?_
      · exact read (newline_ends source ((currIsNewline_char2int c).symm.trans newline))
      have within : isNewline c = false := by
        rw [← currIsNewline_char2int]
        exact Bool.eq_false_iff.mpr other
      refine Meets.ite (fun ended => absurd ended (char2int_ne_eoz c)) fun _ => ?_
      refine Meets.ite (fun digit => read (decimal_ends source digit)) fun no_digit => ?_
      exact read (itself_ends source within letter (Bool.eq_false_iff.mpr no_digit))

/-- When the loop of `read_string` ends, it has read a string. -/
theorem stringLoop_ends :
    Ends (stringLoop (char2int del) fuel) s fun _ s' => ∃ body text rest,
      Literal del body text ∧ s.source = text ++ del :: rest ∧ s'.source = del :: rest ∧
        s'.buff = s.buff ++ body := by
  induction fuel generalizing s with
  | zero => exact Meets.of_error rfl trivial
  | succ fuel ih =>
    cases source : s.source with
    | nil =>
      refine Ends.ended source (Meets.ite (fun same => ?_) fun _ => ?_)
      · exact absurd same.symm (char2int_ne_eoz del)
      · exact Meets.ite (fun _ => Ends.error _ _) fun other => absurd rfl other
    | cons c rest =>
      refine Ends.head source (Meets.ite (fun same => ?_) fun differ => ?_)
      · have closed : c = del := UInt8.toNat_inj.mp (Int.ofNat.inj same)
        rw [closed] at source ⊢
        exact Meets.pure ⟨[], [], rest, .ended, rfl, source, (List.append_nil _).symm⟩
      refine Meets.ite (fun ended => absurd ended (char2int_ne_eoz c)) fun _ => ?_
      refine Meets.ite (fun _ => Ends.error _ _) fun other => ?_
      have within : isNewline c = false := by
        rw [← currIsNewline_char2int]
        exact Bool.eq_false_iff.mpr other
      refine Meets.ite (fun slash => ?_) fun no_slash => ?_
      · have backslash : c = 92 := UInt8.toNat_inj.mp (Int.ofNat.inj slash)
        refine Meets.bind (lexNext_ends source) fun _ s₁ first => ?_
        refine Meets.bind readEscape_ends fun _ s₂ escape => ?_
        refine Meets.mono ih (fun _ s₃ later => ?_) fun _ _ => trivial
        obtain ⟨body, text, tail, literal, source₂, source₃, buff₃⟩ := later
        rcases escape with empty | ⟨d, front, source₁, buff₂, escaped⟩
        · rw [empty] at source₂
          cases text with
          | nil => cases source₂
          | cons e text => cases source₂
        · refine ⟨d :: body, 92 :: (front ++ text), tail, escaped source₂ literal, ?_, source₃, ?_⟩
          · rw [← first.1, source₁, source₂, backslash, List.cons_append, List.append_assoc]
          · rw [buff₃, buff₂, first.2, List.append_assoc, List.singleton_append]
      · refine Meets.bind (saveAndNext_ends source) fun _ s₁ first => ?_
        refine Meets.mono ih (fun _ s₂ later => ?_) fun _ _ => trivial
        obtain ⟨body, text, tail, literal, source₁, source₂, buff₂⟩ := later
        have differ' : c ≠ del := fun same => differ (congrArg char2int same)
        have no_slash' : c ≠ 92 := fun same => no_slash (congrArg char2int same)
        refine ⟨c :: body, c :: text, tail, .plain differ' no_slash' within literal, ?_, source₂, ?_⟩
        · rw [← first.1, source₁]
          rfl
        · rw [buff₂, first.2, List.append_assoc, List.singleton_append]

theorem contents_ends (first both : Nat) :
    Ends (contents first both) s fun ts s' =>
      s' = s ∧ ts = (s.buff.drop first).take (s.buff.length - both) :=
  Meets.of_ok rfl ⟨rfl, rfl⟩

theorem readString_ends (source : s.source = del :: rest)
    (empty : s.buff = []) :
    Ends (readString (char2int del) fuel) s fun body s' =>
      ∃ text, Literal del body text ∧ rest = text ++ del :: s'.source := by
  refine Meets.bind (saveAndNext_ends source) fun _ s₁ first => ?_
  refine Meets.bind stringLoop_ends fun _ s₂ loop => ?_
  obtain ⟨body, text, tail, literal, source₁, source₂, buff₂⟩ := loop
  refine Meets.bind (saveAndNext_ends source₂) fun _ s₃ last => ?_
  refine Meets.mono (contents_ends 1 2) (fun ts s₄ read => ?_) fun _ _ => trivial
  obtain ⟨same, rfl⟩ := read
  have inner : (s₃.buff.drop 1).take (s₃.buff.length - 2) = body := by
    rw [last.2, buff₂, first.2, empty]
    simp
  rw [inner]
  refine ⟨text, literal, ?_⟩
  rw [same, last.1, ← source₁, first.1]

theorem Ends.no {m m' : Lexing Bytes N α} {p : Prop} [Decidable p] (h : ¬p)
    (next : Ends m' s post) : Ends (if p then m else m') s post := by
  rwa [if_neg h]

theorem Ends.yes {m m' : Lexing Bytes N α} {p : Prop} [Decidable p] (h : p)
    (next : Ends m s post) : Ends (if p then m else m') s post := by
  rwa [if_pos h]

end Ends

section Strings

variable {N : Type} {s : LexState Bytes N} {locale : Locale N} {del : UInt8} {rest : Bytes}
  {fuel : Nat}

theorem llexLoop_ends (quote : Delimiter del) (source : s.source = del :: rest)
    (empty : s.buff = []) :
    Ends (llexLoop locale fuel) s fun t s' =>
      ∃ body text, t = .string body ∧ Literal del body text ∧ rest = text ++ del :: s'.source := by
  cases fuel with
  | zero => exact Meets.of_error rfl trivial
  | succ fuel =>
    have read : Ends (do return .string (← readString (char2int del) fuel)) s fun t s' =>
        ∃ body text, (t : Token N) = .string body ∧ Literal del body text ∧
          rest = text ++ del :: s'.source :=
      Meets.bind (readString_ends source empty) fun body _ later =>
        Meets.pure ⟨body, later.choose, rfl, later.choose_spec⟩
    rcases quote with rfl | rfl
    · exact Ends.head source <| Ends.no Bool.false_ne_true <| Ends.no (by decide) <|
        Ends.no (by decide) <| Ends.no (by decide) <| Ends.no (by decide) <|
          Ends.no (by decide) <| Ends.no (by decide) <| Ends.yes rfl read
    · exact Ends.head source <| Ends.no Bool.false_ne_true <| Ends.no (by decide) <|
        Ends.no (by decide) <| Ends.no (by decide) <| Ends.no (by decide) <|
          Ends.no (by decide) <| Ends.no (by decide) <| Ends.yes rfl read

theorem nextCall_ends (quote : Delimiter del) (source : s.source = del :: rest)
    (ahead : s.lookahead = .eos) :
    Ends (lexCall locale fuel .next) s fun seen s' => ∃ body text,
      seen.t = .string body ∧ Literal del body text ∧ rest = text ++ del :: s'.source := by
  have loop : Ends (llexLoop locale fuel) { s with lastline := s.linenumber, buff := [] } _ :=
    llexLoop_ends quote source rfl
  refine Meets.mono (nextCall_of_loop ahead loop) (fun seen s' read => ?_) fun _ h => h
  obtain ⟨s₁, found, rfl⟩ := read
  exact found

theorem nextCall_string {body text buff : Bytes} (quote : Delimiter del)
    (literal : Literal del body text) (here : Stands s (del :: (text ++ del :: rest)) buff)
    (enough : text.length + 2 < fuel) :
    ∃ seen s', lexCall locale fuel .next s = .ok (seen, s') ∧ seen.t = .string body ∧
      s'.source = rest := by
  have opened : del :: (text ++ del :: rest) = del :: (text ++ [del]) ++ rest := by simp
  rw [opened] at here
  have short : (del :: (text ++ [del])).length < fuel := by simpa using enough
  have spells : Spells locale (.string body) (del :: (text ++ [del])) rest :=
    .string quote literal rest
  obtain ⟨seen, s', run, same, _, there⟩ := spells.next here short
  exact ⟨seen, s', run, same, there.source⟩

/-- After a delimiter the lexer gives exactly the strings of the language. -/
theorem lexer_reads_strings (locale : Locale N) (quote : Delimiter del) {input : Bytes}
    (lines : lineBreaks input < 2147483644) (enough : input.length + 1 < fuel) (body rest : Bytes) :
    (∃ seen s, lexCall locale fuel .next (lexStart (del :: input)) = .ok (seen, s) ∧
        seen.t = .string body ∧ s.source = rest) ↔
      ∃ text, Literal del body text ∧ input = text ++ del :: rest := by
  constructor
  · rintro ⟨seen, s, run, same, rfl⟩
    have read : Ends (lexCall locale fuel .next) (lexStart (del :: input)) _ :=
      nextCall_ends quote rfl rfl
    obtain ⟨body', text, same', literal, split⟩ := read.result run
    rw [same] at same'
    cases same'
    exact ⟨text, literal, split⟩
  · rintro ⟨text, literal, rfl⟩
    rw [← lineBreaks_cons quote.within] at lines
    rw [List.length_append, List.length_cons] at enough
    exact nextCall_string quote literal (lexStart_stands lines) (by omega)

theorem lexer_reads_strings_escape :
    (∃ seen s, lexCall plainLocale 9 .next (lexStart (34 :: bytes "a\\n\"x")) =
        .ok (seen, s) ∧ seen.t = .string [97, 10] ∧ s.source = [120]) ↔
      ∃ text, Literal 34 [97, 10] text ∧ bytes "a\\n\"x" = text ++ 34 :: [120] := by
  have single : lineBreaks (bytes "a\\n\"x") = 0 := by decide
  have enough : (bytes "a\\n\"x").length + 1 < 9 := by decide
  exact lexer_reads_strings plainLocale (Or.inl rfl) (by omega) enough [97, 10] [120]

/-- What `addquoted` writes is read back as the string. -/
theorem addquoted_read_back (locale : Locale N) (body rest : Bytes)
    (lines : lineBreaks (addquoted body ++ rest) < 2147483644)
    (enough : (addquoted body).length < fuel) :
    ∃ seen s, lexCall locale fuel .next (lexStart (addquoted body ++ rest)) = .ok (seen, s) ∧
      seen.t = .string body ∧ s.source = rest := by
  have literal := quoted_literal body .ended (by decide)
  rw [List.append_nil, List.append_nil] at literal
  have opened : addquoted body ++ rest = 34 :: (body.flatMap quoteChar ++ 34 :: rest) := by
    simp [addquoted]
  have length : (addquoted body).length = (body.flatMap quoteChar).length + 2 := by
    simp [addquoted]
  rw [opened] at lines ⊢
  exact nextCall_string (Or.inl rfl) literal (lexStart_stands lines) (by omega)

theorem addquoted_read_back_newline :
    ∃ seen s, lexCall plainLocale 13 .next
        (lexStart (addquoted (bytes "a\"\r\n") ++ bytes ";")) = .ok (seen, s) ∧
      seen.t = .string (bytes "a\"\r\n") ∧ s.source = bytes ";" := by
  have one : lineBreaks (addquoted (bytes "a\"\r\n") ++ bytes ";") = 1 := by decide
  have enough : (addquoted (bytes "a\"\r\n")).length < 13 := by decide
  exact addquoted_read_back plainLocale (bytes "a\"\r\n") (bytes ";") (by omega) enough

end Strings

end DriverSF
