import DriverSF.LexerText
import DriverSF.TextIndex

namespace DriverSF

open StateRules

section Words

variable {N : Type} {s : LexState Bytes N} {c : UInt8} {text rest buff : Bytes} {fuel : Nat}

theorem saveWhile_goes {p : Int → Bool} (plain : Plain p) {word : Bytes}
    (all : ∀ c ∈ word, p (char2int c) = true) (stop : p (CharSource.current rest) = false)
    (here : Stands s (word ++ rest) buff) (enough : word.length < fuel) :
    Goes (saveWhile p fuel) s () rest (buff ++ word) := by
  induction word generalizing s buff fuel with
  | nil =>
    obtain ⟨fuel, rfl⟩ : ∃ f, fuel = f + 1 := ⟨fuel - 1, by omega⟩
    rw [List.append_nil]
    exact Goes.current here (Goes.no (by rw [List.nil_append, stop]; exact Bool.false_ne_true)
      (Goes.pure here))
  | cons c word ih =>
    obtain ⟨fuel, rfl⟩ : ∃ f, fuel = f + 1 := ⟨fuel - 1, by omega⟩
    have good := all c List.mem_cons_self
    rw [List.append_cons]
    refine Goes.current here (Goes.yes good
      ((saveAndNext_goes here (plain.byte good)).bind fun _ there => ?_))
    exact ih (fun d member => all d (List.mem_cons_of_mem c member)) there
      (by rw [List.length_cons] at enough; omega)

theorem checkNext_yes {set : Bytes} (here : Stands s (c :: rest) buff) (within : isNewline c = false)
    (member : c ∈ set) : Goes (checkNext set) s true rest (buff ++ [c]) := by
  refine Goes.current here (Goes.yes ?_ ((saveAndNext_goes here within).bind fun _ there =>
    Goes.pure there))
  refine Bool.or_eq_true_iff.mpr (Or.inr (List.any_eq_true.mpr ⟨c, member, ?_⟩))
  exact decide_eq_true rfl

/-- The text starts with no character of the set, and with no NUL, which `check_next` takes too. -/
def Without (set text : Bytes) : Prop :=
  CharSource.current text ≠ 0 ∧ ∀ x ∈ set, char2int x ≠ CharSource.current text

theorem checkNext_no {set : Bytes} (here : Stands s text buff) (other : Without set text) :
    Goes (checkNext set) s false text buff := by
  refine Goes.current here (Goes.no (fun found => ?_) (Goes.pure here))
  rcases Bool.or_eq_true_iff.mp found with zero | member
  · exact other.1 (of_decide_eq_true zero)
  · obtain ⟨x, inside, same⟩ := List.any_eq_true.mp member
    exact other.2 x inside (of_decide_eq_true same)

def isletter (c : Int) : Bool := isalpha c || c = ch '_'

/-- The characters of names. -/
def isword (c : Int) : Bool := isalnum c || c = ch '_'

theorem isword_plain : Plain isword := ⟨by decide, by decide, by decide⟩

theorem isword_of_isletter {c : Int} (letter : isletter c = true) : isword c = true := by
  simp only [isletter, isword, isalnum, Bool.or_eq_true] at letter ⊢
  rcases letter with alpha | under
  · exact Or.inl (Or.inl alpha)
  · exact Or.inr under

theorem getDecpoint_goes (here : Stands s text buff) : Goes getDecpoint s 46 text buff := by
  refine ⟨s, ?_, here⟩
  rw [getDecpoint, here.decpoint]

/-- The decimal point in the buffer stays. -/
theorem buffreplace_goes (here : Stands s text buff) :
    Goes (buffreplace 46 46) s () text buff := by
  refine ⟨_, rfl, here.source, ?_, here.decpoint, here.ahead, here.lines⟩
  show s.buff.map (fun c => if c = 46 then 46 else c) = _
  have same : (fun c : UInt8 => if c = 46 then 46 else c) = id := by
    funext c
    by_cases point : c = 46
    · rw [if_pos point, point]
      rfl
    · rw [if_neg point]
      rfl
  rw [same, List.map_id, here.buff]

theorem converted_goes {locale : Locale N} {r : N} (here : Stands s text buff)
    (value : luaOStr2d locale (cstr buff) = some r) :
    Goes (convert locale) s (some r) text buff := by
  refine ⟨s, ?_, here⟩
  rw [convert, here.buff, value]

/-- A reserved word or a name. -/
def wordToken (ts : Bytes) : Token N :=
  match reservedWords.find? fun r => r.2 = ts with
  | some r => .reserved r.1
  | none => .name ts

theorem readName_goes {first : UInt8} {word : Bytes}
    (all : ∀ c ∈ first :: word, isword (char2int c) = true)
    (stop : isword (CharSource.current rest) = false)
    (here : Stands s (first :: word ++ rest) []) (enough : word.length < fuel) :
    Goes (readName fuel) s (wordToken (first :: word)) rest (first :: word) := by
  have within := isword_plain.byte (all first List.mem_cons_self)
  refine (saveAndNext_goes here within).bind fun s₁ here₁ => ?_
  refine (saveWhile_goes isword_plain (fun c member => all c (List.mem_cons_of_mem _ member)) stop
    here₁ enough).bind fun s₂ here₂ => ?_
  have read := contents_goes here₂ 0 0
  rw [List.drop_zero, Nat.sub_zero, List.take_length] at read
  refine read.bind fun s₃ here₃ => ?_
  unfold wordToken
  have same : ([] : Bytes) ++ [first] ++ word = first :: word := rfl
  rw [same] at here₃ ⊢
  cases reservedWords.find? fun r => r.2 = first :: word with
  | some r => exact Goes.pure here₃
  | none => exact Goes.pure here₃

/-- The mark of an exponent with its sign, before some other text. -/
inductive Exponent : Bytes → Bytes → Prop
  | absent {rest : Bytes} (other : Without (bytes "Ee") rest) : Exponent [] rest
  | mark {x : UInt8} {rest : Bytes} (mark : x ∈ bytes "Ee") (other : Without (bytes "+-") rest) :
      Exponent [x] rest
  | sign {x y : UInt8} {rest : Bytes} (mark : x ∈ bytes "Ee") (sign : y ∈ bytes "+-") :
      Exponent [x, y] rest

theorem exponent_within {c : UInt8} (member : c ∈ bytes "Ee" ++ bytes "+-") :
    isNewline c = false ∧ c ≠ 0 := by
  have all : (bytes "Ee" ++ bytes "+-").all (fun c => !isNewline c && c ≠ 0) = true := by decide
  simpa using List.all_eq_true.mp all c member

theorem readExponent_goes {e : Bytes} (exponent : Exponent e rest) (here : Stands s (e ++ rest) buff) :
    Goes readExponent s () rest (buff ++ e) := by
  cases exponent with
  | absent other =>
    rw [List.append_nil]
    exact (checkNext_no here other).bind fun _ there => Goes.no Bool.false_ne_true (Goes.pure there)
  | mark mark other =>
    have within := (exponent_within (List.mem_append_left _ mark)).1
    refine (checkNext_yes here within mark).bind fun _ here₁ => Goes.yes rfl ?_
    exact (checkNext_no here₁ other).bind fun _ => Goes.pure
  | sign mark sign =>
    have within := (exponent_within (List.mem_append_left _ mark)).1
    have within' := (exponent_within (List.mem_append_right _ sign)).1
    refine (checkNext_yes here within mark).bind fun _ here₁ => Goes.yes rfl ?_
    rw [List.append_cons]
    exact (checkNext_yes here₁ within' sign).bind fun _ => Goes.pure

theorem Exponent.subset {e : Bytes} (exponent : Exponent e rest) :
    ∀ c ∈ e, c ∈ bytes "Ee" ++ bytes "+-" := by
  intro c member
  cases exponent with
  | absent => cases member
  | mark mark =>
    rw [List.mem_singleton.mp member]
    exact List.mem_append_left _ mark
  | sign mark sign =>
    rcases List.mem_cons.mp member with rfl | member
    · exact List.mem_append_left _ mark
    · rw [List.mem_singleton.mp member]
      exact List.mem_append_right _ sign

def isdecimal (c : Int) : Bool := isdigit c || c = ch '.'

theorem isdecimal_plain : Plain isdecimal := ⟨by decide, by decide, by decide⟩

/-- A numeral, before some other text. -/
structure Numeral (first : UInt8) (a e b rest : Bytes) : Prop where
  digit : isdigit (char2int first) = true
  decimals : ∀ c ∈ a, isdecimal (char2int c) = true
  stop : isdecimal (CharSource.current (e ++ (b ++ rest))) = false
  exponent : Exponent e (b ++ rest)
  word : ∀ c ∈ b, isword (char2int c) = true
  ended : isword (CharSource.current rest) = false

theorem ne_nul_of {p : Int → Bool} (nul : p 0 = false) (good : p (char2int c) = true) : c ≠ 0 := by
  intro zero
  rw [zero] at good
  exact Bool.false_ne_true (nul.symm.trans good)

theorem Numeral.ne_nul {first : UInt8} {a e b : Bytes} (numeral : Numeral first a e b rest) :
    ∀ c ∈ first :: (a ++ e ++ b), c ≠ 0 := by
  intro c member
  rcases List.mem_cons.mp member with rfl | member
  · exact ne_nul_of (p := isdigit) rfl numeral.digit
  rcases List.mem_append.mp member with member | member
  · rcases List.mem_append.mp member with member | member
    · exact ne_nul_of (p := isdecimal) rfl (numeral.decimals c member)
    · exact (exponent_within (numeral.exponent.subset c member)).2
  · exact ne_nul_of (p := isword) rfl (numeral.word c member)

theorem readNumeral_goes {locale : Locale N} {first : UInt8} {a e b : Bytes} {r : N}
    (numeral : Numeral first a e b rest) (front : ∀ c ∈ buff, c ≠ 0)
    (value : luaOStr2d locale (buff ++ first :: (a ++ e ++ b)) = some r)
    (here : Stands s (first :: (a ++ e ++ b) ++ rest) buff)
    (enough : (a ++ e ++ b).length < fuel) :
    Goes (readNumeral locale fuel) s r rest (buff ++ first :: (a ++ e ++ b) ++ [0]) := by
  rw [List.length_append, List.length_append] at enough
  have opened : first :: (a ++ e ++ b) ++ rest = first :: (a ++ (e ++ (b ++ rest))) := by simp
  rw [opened] at here
  refine (saveAndNext_goes here (isdigit_plain.byte numeral.digit)).bind fun s₁ here₁ => ?_
  refine (saveWhile_goes isdecimal_plain numeral.decimals numeral.stop here₁ (by omega)).bind
    fun s₂ here₂ => ?_
  refine (readExponent_goes numeral.exponent here₂).bind fun s₃ here₃ => ?_
  refine (saveWhile_goes isword_plain numeral.word numeral.ended here₃ (by omega)).bind
    fun s₄ here₄ => ?_
  have whole : buff ++ [first] ++ a ++ e ++ b = buff ++ first :: (a ++ e ++ b) := by simp
  rw [whole] at here₄
  have nul_free : ∀ c ∈ buff ++ first :: (a ++ e ++ b), c ≠ 0 := by
    intro c member
    rcases List.mem_append.mp member with member | member
    · exact front c member
    · exact numeral.ne_nul c member
  have number : luaOStr2d locale (cstr (buff ++ first :: (a ++ e ++ b) ++ [0])) = some r := by
    rw [← value, cstr_append_of_ne_nul nul_free]
    exact congrArg (luaOStr2d locale) (List.append_nil _)
  refine (lexSave_goes here₄ 0).bind fun s₅ here₅ => ?_
  refine (getDecpoint_goes here₅).bind fun s₆ here₆ => ?_
  refine (buffreplace_goes here₆).bind fun s₇ here₇ => ?_
  exact (converted_goes here₇ number).bind fun s₈ here₈ => Goes.pure here₈

end Words

section Marks

variable {N : Type} {s : LexState Bytes N} {locale : Locale N} {c : UInt8} {token : Token N}
  {rest buff : Bytes} {fuel : Nat}

theorem orEqual_yes (here : Stands s (c :: 61 :: rest) buff) (within : isNewline c = false) :
    Goes (orEqual token) s token rest buff := by
  refine Goes.current here ((lexNext_goes here within).bind fun _ here₁ => ?_)
  exact Goes.current here₁ (Goes.yes rfl ((lexNext_goes here₁ rfl).bind fun _ => Goes.pure))

theorem char_goes (here : Stands s rest buff) (c : UInt8) :
    Goes (pure (.char (UInt8.ofNat (char2int c).toNat)) : Lexing Bytes N (Token N)) s (.char c)
      rest buff := by
  rw [ofNat_char2int]
  exact Goes.pure here

theorem orEqual_no (here : Stands s (c :: rest) buff) (within : isNewline c = false)
    (other : CharSource.current rest ≠ ch '=') : Goes (orEqual token) s (.char c) rest buff := by
  refine Goes.current here ((lexNext_goes here within).bind fun _ here₁ => ?_)
  exact Goes.current here₁ (Goes.no other (char_goes here₁ c))

theorem readDots_one (here : Stands s (46 :: rest) buff) (no_dot : Without (bytes ".") rest)
    (no_digit : isdigit (CharSource.current rest) = false) :
    Goes (readDots locale fuel) s (.char 46) rest (buff ++ [46]) := by
  refine (saveAndNext_goes here rfl).bind fun s₁ here₁ => ?_
  refine (checkNext_no here₁ no_dot).bind fun s₂ here₂ => Goes.no Bool.false_ne_true ?_
  exact Goes.current here₂ (Goes.no (by rw [no_digit]; exact Bool.false_ne_true) (Goes.pure here₂))

theorem readDots_number {first : UInt8} {a e b : Bytes} {r : N}
    (numeral : Numeral first a e b rest)
    (value : luaOStr2d locale (46 :: first :: (a ++ e ++ b)) = some r)
    (here : Stands s (46 :: first :: (a ++ e ++ b) ++ rest) [])
    (enough : (a ++ e ++ b).length < fuel) :
    Goes (readDots locale fuel) s (.number r) rest (46 :: first :: (a ++ e ++ b) ++ [0]) := by
  have no_dot : Without (bytes ".") (first :: (a ++ e ++ b ++ rest)) := by
    have least : 48 ≤ char2int first := of_decide_eq_true (Bool.and_eq_true_iff.mp numeral.digit).1
    refine ⟨fun zero => ?_, fun x member same => ?_⟩
    · rw [show char2int first = 0 from zero] at least
      exact absurd least (by decide)
    · rw [← show char2int x = char2int first from same, List.mem_singleton.mp member] at least
      exact absurd least (by decide)
  have dot : ∀ c ∈ ([46] : Bytes), c ≠ 0 := by simp
  refine (saveAndNext_goes here rfl).bind fun s₁ here₁ => ?_
  refine (checkNext_no here₁ no_dot).bind fun s₂ here₂ => Goes.no Bool.false_ne_true ?_
  refine Goes.head here₂ (Goes.yes numeral.digit ?_)
  exact (readNumeral_goes numeral dot value here₂ enough).bind fun _ => Goes.pure

theorem readDots_two (here : Stands s (46 :: 46 :: rest) buff) (no_dot : Without (bytes ".") rest) :
    Goes (readDots locale fuel) s .concat rest (buff ++ [46] ++ [46]) := by
  refine (saveAndNext_goes here rfl).bind fun s₁ here₁ => ?_
  refine (checkNext_yes here₁ rfl (by decide)).bind fun s₂ here₂ => Goes.yes rfl ?_
  exact (checkNext_no here₂ no_dot).bind fun s₃ here₃ => Goes.no Bool.false_ne_true (Goes.pure here₃)

theorem readDots_three (here : Stands s (46 :: 46 :: 46 :: rest) buff) :
    Goes (readDots locale fuel) s .dots rest (buff ++ [46] ++ [46] ++ [46]) := by
  refine (saveAndNext_goes here rfl).bind fun s₁ here₁ => ?_
  refine (checkNext_yes here₁ rfl (by decide)).bind fun s₂ here₂ => Goes.yes rfl ?_
  exact (checkNext_yes here₂ rfl (by decide)).bind fun s₃ here₃ => Goes.yes rfl (Goes.pure here₃)

theorem readBracket_goes (here : Stands s (91 :: rest) buff)
    (level : CharSource.current rest ≠ ch '=') (single : CharSource.current rest ≠ ch '[')
    (enough : 0 < fuel) : Goes (readBracket fuel) s (.char 91) rest (buff ++ [91]) := by
  obtain ⟨fuel, rfl⟩ : ∃ f, fuel = f + 1 := ⟨fuel - 1, by omega⟩
  have sep : Goes (skipSep (fuel + 1)) s (-1) rest (buff ++ [91]) := by
    refine Goes.current here ((saveAndNext_goes here rfl).bind fun s₁ here₁ => ?_)
    refine (Goes.current here₁ (Goes.no level (Goes.pure here₁))).bind fun s₂ here₂ => ?_
    refine Goes.current here₂ ?_
    have count : (if CharSource.current rest = CharSource.current (91 :: rest) then (0 : Int)
        else -0 - 1) = -1 := if_neg single
    rw [← count]
    exact Goes.pure here₂
  exact sep.bind fun s₁ here₁ => Goes.no (by decide) (Goes.yes rfl (Goes.pure here₁))

theorem skipLine_goes {line : Bytes} (all : ∀ c ∈ line, isNewline c = false)
    (stop : ∀ c, rest.head? = some c → isNewline c = true) (here : Stands s (line ++ rest) buff)
    (enough : line.length < fuel) : Goes (skipLine fuel) s () rest buff := by
  induction line generalizing s fuel with
  | nil =>
    obtain ⟨fuel, rfl⟩ : ∃ f, fuel = f + 1 := ⟨fuel - 1, by omega⟩
    refine Goes.current here (Goes.yes ?_ (Goes.pure here))
    cases rest with
    | nil => rfl
    | cons c rest =>
      refine Bool.or_eq_true_iff.mpr (Or.inl ?_)
      exact (currIsNewline_char2int c).trans (stop c rfl)
  | cons c line ih =>
    obtain ⟨fuel, rfl⟩ : ∃ f, fuel = f + 1 := ⟨fuel - 1, by omega⟩
    have within := all c List.mem_cons_self
    have inside : ¬(currIsNewline (char2int c) || char2int c = eoz) = true := by
      rw [currIsNewline_char2int, within, Bool.false_or, decide_eq_true_iff]
      exact char2int_ne_eoz c
    refine Goes.current here (Goes.no inside ((lexNext_goes here within).bind fun _ there => ?_))
    exact ih (fun d member => all d (List.mem_cons_of_mem c member)) there
      (by rw [List.length_cons] at enough; omega)

theorem readComment_goes {line : Bytes} (all : ∀ c ∈ line, isNewline c = false)
    (short : line.head? ≠ some 91) (stop : ∀ c, rest.head? = some c → isNewline c = true)
    (here : Stands s (line ++ rest) buff) (enough : line.length < fuel) :
    Goes (readComment fuel) s () rest buff := by
  have no_bracket : CharSource.current (line ++ rest) ≠ ch '[' := by
    intro same
    have bracket : (line ++ rest).head? = some 91 := by
      cases text : line ++ rest with
      | nil =>
        rw [text] at same
        cases same
      | cons c tail =>
        rw [text] at same
        exact congrArg some (UInt8.toNat_inj.mp (Int.ofNat.inj same))
    cases line with
    | nil => cases stop 91 bracket
    | cons c line => exact short bracket
  exact Goes.current here (Goes.no no_bracket (skipLine_goes all stop here enough))

end Marks

section Tokens

variable {N : Type} {s : LexState Bytes N} {locale : Locale N} {c : UInt8} {t : Token N}
  {body text rest buff buff' : Bytes} {fuel : Nat}

/-- The characters that `llex` has cases of their own for. -/
def special (c : Int) : Bool :=
  currIsNewline c || c = ch '-' || c = ch '[' || c = ch '=' || c = ch '<' || c = ch '>' ||
    c = ch '~' || c = ch '\x22' || c = ch '\x27' || c = ch '.'

/-- The characters that are tokens wherever they stand. -/
def ismark (c : UInt8) : Bool :=
  !(special (char2int c) || isspace (char2int c) || isdigit (char2int c) || isletter (char2int c))

/-- The characters that are tokens, and the tokens that they are with `=`. -/
def equalities : List (UInt8 × Token N) := [(61, .eq), (60, .le), (62, .ge), (126, .ne)]

/-- The text of a token, before some other text. -/
inductive Spells (locale : Locale N) : Token N → Bytes → Bytes → Prop
  | word {first : UInt8} {more rest : Bytes} (letter : isletter (char2int first) = true)
      (all : ∀ c ∈ more, isword (char2int c) = true)
      (stop : isword (CharSource.current rest) = false) :
      Spells locale (wordToken (first :: more)) (first :: more) rest
  | number {first : UInt8} {a e b rest : Bytes} {r : N} (numeral : Numeral first a e b rest)
      (value : luaOStr2d locale (first :: (a ++ e ++ b)) = some r) :
      Spells locale (.number r) (first :: (a ++ e ++ b)) rest
  | fraction {first : UInt8} {a e b rest : Bytes} {r : N} (numeral : Numeral first a e b rest)
      (value : luaOStr2d locale (46 :: first :: (a ++ e ++ b)) = some r) :
      Spells locale (.number r) (46 :: first :: (a ++ e ++ b)) rest
  | string {del : UInt8} {body text : Bytes} (quote : Delimiter del)
      (literal : Literal del body text) (rest : Bytes) :
      Spells locale (.string body) (del :: (text ++ [del])) rest
  | mark {c : UInt8} {rest : Bytes} (own : ismark c = true) : Spells locale (.char c) [c] rest
  | alone {c : UInt8} {token : Token N} {rest : Bytes} (member : (c, token) ∈ equalities)
      (other : CharSource.current rest ≠ ch '=') : Spells locale (.char c) [c] rest
  | equality {c : UInt8} {token : Token N} {rest : Bytes} (member : (c, token) ∈ equalities) :
      Spells locale token [c, 61] rest
  | minus {rest : Bytes} (other : CharSource.current rest ≠ ch '-') :
      Spells locale (.char 45) [45] rest
  | bracket {rest : Bytes} (level : CharSource.current rest ≠ ch '=')
      (single : CharSource.current rest ≠ ch '[') : Spells locale (.char 91) [91] rest
  | dot {rest : Bytes} (no_dot : Without (bytes ".") rest)
      (no_digit : isdigit (CharSource.current rest) = false) : Spells locale (.char 46) [46] rest
  | concat {rest : Bytes} (no_dot : Without (bytes ".") rest) : Spells locale .concat [46, 46] rest
  | dots (rest : Bytes) : Spells locale .dots [46, 46, 46] rest

theorem llexLoop_other (here : Stands s (c :: rest) buff) (other : special (char2int c) = false)
    (go : Goes (if isspace (char2int c) then do
        lexNext
        llexLoop locale fuel
      else if isdigit (char2int c) then return .number (← readNumeral locale fuel)
      else if isletter (char2int c) then readName fuel
      else do
        lexNext
        return .char (UInt8.ofNat (char2int c).toNat)) s t text buff') :
    Goes (llexLoop locale (fuel + 1)) s t text buff' := by
  simp only [special, Bool.or_eq_false_iff, decide_eq_false_iff_not] at other
  obtain ⟨⟨⟨⟨⟨⟨⟨⟨⟨newline, minus⟩, bracket⟩, eq⟩, le⟩, ge⟩, ne⟩, quote⟩, tick⟩, dot⟩ := other
  have no_quote : ¬(char2int c = ch '\x22' || char2int c = ch '\x27') = true := by
    simp [quote, tick]
  refine Goes.current here (Goes.no (Bool.eq_false_iff.mp newline) (Goes.no minus ?_))
  refine Goes.no bracket (Goes.no eq (Goes.no le (Goes.no ge (Goes.no ne ?_))))
  exact Goes.no no_quote (Goes.no dot (Goes.no (char2int_ne_eoz c) go))

theorem special_of_isspace {x : Int} (space : isspace x = true) (within : currIsNewline x = false) :
    special x = false := by
  simp only [isspace, special, within, Bool.or_eq_true, Bool.and_eq_true, decide_eq_true_iff,
    Bool.or_eq_false_iff, decide_eq_false_iff_not] at space ⊢
  simp [ch]
  omega

theorem ordinary_of_isdigit {x : Int} (digit : isdigit x = true) :
    special x = false ∧ isspace x = false := by
  simp only [isdigit, isspace, special, currIsNewline, Bool.and_eq_true, decide_eq_true_iff,
    Bool.or_eq_false_iff, Bool.and_eq_false_iff, decide_eq_false_iff_not] at digit ⊢
  simp [ch]
  omega

theorem ordinary_of_isletter {x : Int} (letter : isletter x = true) :
    special x = false ∧ isspace x = false ∧ isdigit x = false := by
  simp only [isletter, isalpha, isdigit, isspace, special, currIsNewline, Bool.or_eq_true,
    Bool.and_eq_true, decide_eq_true_iff, Bool.or_eq_false_iff, Bool.and_eq_false_iff,
    decide_eq_false_iff_not] at letter ⊢
  simp [ch] at letter ⊢
  omega

/-- One round of the loop of `llex` only skips something. -/
def Skips (locale : Locale N) (fuel : Nat) (s : LexState Bytes N) (text buff : Bytes) : Prop :=
  ∃ s', Stands s' text buff ∧ ∀ {t rest buff'}, Goes (llexLoop locale fuel) s' t rest buff' →
    Goes (llexLoop locale (fuel + 1)) s t rest buff'

theorem skips_space (here : Stands s (c :: rest) buff) (space : isspace (char2int c) = true)
    (within : isNewline c = false) : Skips locale fuel s rest buff := by
  have plain : special (char2int c) = false :=
    special_of_isspace space ((currIsNewline_char2int c).trans within)
  obtain ⟨s', run, there⟩ := lexNext_goes here within
  exact ⟨s', there, fun go => llexLoop_other here plain (Goes.yes space (Goes.run run go))⟩

theorem skips_newline (here : Stands s (c :: rest) buff) (newline : isNewline c = true)
    (counts : Goes inclinenumber s () text buff) : Skips locale fuel s text buff := by
  obtain ⟨s', run, there⟩ := counts
  exact ⟨s', there, fun go => Goes.head here <|
    Goes.yes ((currIsNewline_char2int c).trans newline) (Goes.run run go)⟩

theorem skips_comment {line : Bytes} (here : Stands s (45 :: 45 :: (line ++ rest)) buff)
    (all : ∀ c ∈ line, isNewline c = false) (short : line.head? ≠ some 91)
    (stop : ∀ c, rest.head? = some c → isNewline c = true) (enough : line.length < fuel) :
    Skips locale fuel s rest buff := by
  obtain ⟨s₁, run₁, here₁⟩ := lexNext_goes here rfl
  obtain ⟨s₂, run₂, here₂⟩ := lexNext_goes here₁ rfl
  obtain ⟨s₃, run₃, here₃⟩ := readComment_goes all short stop here₂ enough
  refine ⟨s₃, here₃, fun go => Goes.head here (Goes.no Bool.false_ne_true (Goes.yes rfl ?_))⟩
  exact Goes.run run₁ (Goes.head here₁ (Goes.yes rfl (Goes.run run₂ (Goes.run run₃ go))))

theorem llexLoop_end (here : Stands s [] buff) : Goes (llexLoop locale (fuel + 1)) s .eos [] buff :=
  Goes.current here <| Goes.no Bool.false_ne_true <| Goes.no (by decide) <| Goes.no (by decide) <|
    Goes.no (by decide) <| Goes.no (by decide) <| Goes.no (by decide) <| Goes.no (by decide) <|
      Goes.no (by decide) <| Goes.no (by decide) <| Goes.yes rfl <| Goes.pure here

theorem llexLoop_equality {token : Token N} (member : (c, token) ∈ equalities)
    (here : Stands s (c :: rest) buff)
    (go : isNewline c = false → Goes (orEqual token) s t text buff') :
    Goes (llexLoop locale (fuel + 1)) s t text buff' := by
  simp only [equalities, List.mem_cons, Prod.mk.injEq, List.not_mem_nil, or_false] at member
  rcases member with ⟨rfl, rfl⟩ | ⟨rfl, rfl⟩ | ⟨rfl, rfl⟩ | ⟨rfl, rfl⟩
  · exact Goes.head here <| Goes.no Bool.false_ne_true <| Goes.no (by decide) <|
      Goes.no (by decide) <| Goes.yes rfl <| go rfl
  · exact Goes.head here <| Goes.no Bool.false_ne_true <| Goes.no (by decide) <|
      Goes.no (by decide) <| Goes.no (by decide) <| Goes.yes rfl <| go rfl
  · exact Goes.head here <| Goes.no Bool.false_ne_true <| Goes.no (by decide) <|
      Goes.no (by decide) <| Goes.no (by decide) <| Goes.no (by decide) <| Goes.yes rfl <| go rfl
  · exact Goes.head here <| Goes.no Bool.false_ne_true <| Goes.no (by decide) <|
      Goes.no (by decide) <| Goes.no (by decide) <| Goes.no (by decide) <|
        Goes.no (by decide) <| Goes.yes rfl <| go rfl

theorem llexLoop_dots (here : Stands s (46 :: rest) buff)
    (go : Goes (readDots locale fuel) s t text buff') :
    Goes (llexLoop locale (fuel + 1)) s t text buff' :=
  Goes.head here <| Goes.no Bool.false_ne_true <| Goes.no (by decide) <| Goes.no (by decide) <|
    Goes.no (by decide) <| Goes.no (by decide) <| Goes.no (by decide) <| Goes.no (by decide) <|
      Goes.no Bool.false_ne_true <| Goes.yes rfl go

theorem llexLoop_quote {del : UInt8} (quote : Delimiter del) (here : Stands s (del :: rest) buff)
    (go : Goes (do return .string (← readString (char2int del) fuel)) s t text buff') :
    Goes (llexLoop locale (fuel + 1)) s t text buff' := by
  rcases quote with rfl | rfl
  · exact Goes.head here <| Goes.no Bool.false_ne_true <| Goes.no (by decide) <|
      Goes.no (by decide) <| Goes.no (by decide) <| Goes.no (by decide) <| Goes.no (by decide) <|
        Goes.no (by decide) <| Goes.yes rfl go
  · exact Goes.head here <| Goes.no Bool.false_ne_true <| Goes.no (by decide) <|
      Goes.no (by decide) <| Goes.no (by decide) <| Goes.no (by decide) <| Goes.no (by decide) <|
        Goes.no (by decide) <| Goes.yes rfl go

/-- The loop of `llex` gives the token that the text spells. -/
theorem Spells.goes (spells : Spells locale t body rest) (here : Stands s (body ++ rest) [])
    (enough : body.length ≤ fuel) :
    ∃ buff, Goes (llexLoop locale (fuel + 1)) s t rest buff := by
  cases spells with
  | @word first more _ letter all stop =>
    obtain ⟨plain, no_space, no_digit⟩ := ordinary_of_isletter letter
    have words : ∀ c ∈ first :: more, isword (char2int c) = true :=
      List.forall_mem_cons.mpr ⟨isword_of_isletter letter, all⟩
    exact ⟨_, llexLoop_other here plain (Goes.no (Bool.eq_false_iff.mp no_space)
      (Goes.no (Bool.eq_false_iff.mp no_digit)
        (Goes.yes letter (readName_goes words stop here enough))))⟩
  | number numeral value =>
    have short := Nat.lt_of_succ_le enough
    obtain ⟨plain, no_space⟩ := ordinary_of_isdigit numeral.digit
    have nothing : ∀ c ∈ ([] : Bytes), c ≠ 0 := fun _ member => (List.not_mem_nil member).elim
    exact ⟨_, llexLoop_other here plain (Goes.no (Bool.eq_false_iff.mp no_space) (Goes.yes
      numeral.digit ((readNumeral_goes numeral nothing value here short).bind fun _ => Goes.pure)))⟩
  | fraction numeral value =>
    have short := Nat.lt_of_lt_of_le (Nat.lt_add_one _) (Nat.le_of_succ_le enough)
    exact ⟨_, llexLoop_dots here (readDots_number numeral value here short)⟩
  | @string del body text quote literal _ =>
    have opened : del :: (text ++ [del]) ++ rest = del :: (text ++ del :: rest) := by simp
    rw [opened] at here
    have short : text.length < fuel := by
      simp only [List.length_cons, List.length_append] at enough
      omega
    exact ⟨_, llexLoop_quote quote here
      ((readString_literal quote literal here short).bind fun _ => Goes.pure)⟩
  | @mark c _ own =>
    simp only [ismark, Bool.not_eq_true', Bool.or_eq_false_iff] at own
    obtain ⟨⟨⟨plain, no_space⟩, no_digit⟩, no_letter⟩ := own
    have within : isNewline c = false := by
      simp only [special, Bool.or_eq_false_iff, currIsNewline_char2int] at plain
      exact plain.1.1.1.1.1.1.1.1.1
    exact ⟨_, llexLoop_other here plain (Goes.no (Bool.eq_false_iff.mp no_space)
      (Goes.no (Bool.eq_false_iff.mp no_digit) (Goes.no (Bool.eq_false_iff.mp no_letter)
        ((lexNext_goes here within).bind fun _ there => char_goes there c))))⟩
  | alone member other =>
    exact ⟨_, llexLoop_equality member here fun within => orEqual_no here within other⟩
  | equality member =>
    exact ⟨_, llexLoop_equality member here fun within => orEqual_yes here within⟩
  | minus other =>
    exact ⟨_, Goes.head here <| Goes.no Bool.false_ne_true <| Goes.yes rfl <|
      (lexNext_goes here rfl).bind fun _ there => Goes.current there <|
        Goes.no other (Goes.pure there)⟩
  | bracket level single =>
    exact ⟨_, Goes.head here <| Goes.no Bool.false_ne_true <| Goes.no (by decide) <|
      Goes.yes rfl <| readBracket_goes here level single enough⟩
  | dot no_dot no_digit =>
    exact ⟨_, llexLoop_dots here (readDots_one here no_dot no_digit)⟩
  | concat no_dot => exact ⟨_, llexLoop_dots here (readDots_two here no_dot)⟩
  | dots => exact ⟨_, llexLoop_dots here (readDots_three here)⟩

end Tokens

section Texts

variable {N : Type} {s : LexState Bytes N} {locale : Locale N} {text buff : Bytes}
  {ts : List (Token N)} {fuel : Nat}

/-- Tokens as a text, with white space and comments around them. -/
inductive Written (locale : Locale N) : Bytes → List (Token N) → Prop
  | ended : Written locale [] []
  | space {c : UInt8} {text : Bytes} {ts : List (Token N)} (blank : isspace (char2int c) = true)
      (within : isNewline c = false) (more : Written locale text ts) : Written locale (c :: text) ts
  | newline {c : UInt8} {text : Bytes} {ts : List (Token N)} (newline : isNewline c = true)
      (single : ∀ d, text.head? = some d → (isNewline d && d ≠ c) = false)
      (more : Written locale text ts) : Written locale (c :: text) ts
  | newlines {c d : UInt8} {text : Bytes} {ts : List (Token N)} (first : isNewline c = true)
      (second : isNewline d = true) (differ : d ≠ c) (more : Written locale text ts) :
      Written locale (c :: d :: text) ts
  | comment {line text : Bytes} {ts : List (Token N)} (all : ∀ c ∈ line, isNewline c = false)
      (short : line.head? ≠ some 91) (stop : ∀ c, text.head? = some c → isNewline c = true)
      (more : Written locale text ts) : Written locale (45 :: 45 :: (line ++ text)) ts
  | token {t : Token N} {body rest : Bytes} {ts : List (Token N)}
      (spells : Spells locale t body rest) (more : Written locale rest ts) :
      Written locale (body ++ rest) (t :: ts)

/-- The loop of `llex` stops behind the first token, before the text of the others. -/
def Leads (locale : Locale N) (fuel : Nat) (s : LexState Bytes N) (text : Bytes)
    (ts : List (Token N)) : Prop :=
  ∃ rest buff, Goes (llexLoop locale fuel) s (ts.headD .eos) rest buff ∧
    Written locale rest ts.tail ∧ rest.length ≤ text.length

theorem Skips.leads {after : Bytes} (skips : Skips locale fuel s after [])
    (less : after.length < text.length) (enough : text.length ≤ fuel)
    (next : ∀ {s' : LexState Bytes N} {k : Nat}, Stands s' after [] → after.length ≤ k →
      Leads locale (k + 1) s' after ts) : Leads locale (fuel + 1) s text ts := by
  obtain ⟨k, rfl⟩ : ∃ k, fuel = k + 1 := ⟨fuel - 1, by omega⟩
  obtain ⟨s', there, goes⟩ := skips
  have room : after.length ≤ k := by omega
  obtain ⟨rest, buff, go, more, le⟩ := next there room
  exact ⟨rest, buff, goes go, more, by omega⟩

/-- White space and comments are skipped before the first token. -/
theorem Written.leads (written : Written locale text ts) (here : Stands s text [])
    (enough : text.length ≤ fuel) : Leads locale (fuel + 1) s text ts := by
  induction written generalizing s fuel with
  | ended => exact ⟨[], [], llexLoop_end here, .ended, Nat.le_refl _⟩
  | space blank within more ih =>
    exact (skips_space here blank within).leads (Nat.lt_succ_self _) enough ih
  | newline newline single more ih =>
    exact (skips_newline here newline (inclinenumber_goes here newline single)).leads
      (Nat.lt_succ_self _) enough ih
  | @newlines c d text ts first second differ more ih =>
    have less : text.length < (c :: d :: text).length := by
      simp only [List.length_cons]
      omega
    exact (skips_newline here first (inclinenumber_pair here first second differ)).leads
      less enough ih
  | @comment line text ts all short stop more ih =>
    have length : (45 :: 45 :: (line ++ text)).length = line.length + text.length + 2 := by simp
    exact (skips_comment here all short stop (by omega)).leads (by omega) enough ih
  | @token t body rest ts spells more ih =>
    rw [List.length_append] at enough
    have short : body.length ≤ fuel := by omega
    obtain ⟨buff, go⟩ := spells.goes here short
    exact ⟨rest, buff, go, more, by rw [List.length_append]; exact Nat.le_add_left _ _⟩

/-- Without a token ahead, `luaX_next` gives the token of the loop of `llex`. -/
theorem nextCall_of_loop {fails : LexStop Bytes → Prop} {post : Token N → LexState Bytes N → Prop}
    (ahead : s.lookahead = .eos)
    (loop : Meets fails (llexLoop locale fuel) { s with lastline := s.linenumber, buff := [] } post) :
    Meets fails (lexCall locale fuel .next) s fun seen s' =>
      ∃ s₁, post seen.t s₁ ∧ s' = { s₁ with t := seen.t } := by
  have token : Meets fails (luaXNext locale fuel) s fun _ s' =>
      ∃ s₁, post s'.t s₁ ∧ s' = { s₁ with t := s'.t } := by
    refine Meets.after rfl (Meets.after rfl ?_)
    split
    · exact Meets.bind (Meets.after rfl loop) fun t s₁ read => Meets.of_ok rfl ⟨s₁, read, rfl⟩
    · next other => exact absurd ahead other
  exact Meets.bind token fun _ _ later => Meets.of_ok rfl later

theorem Stands.reset (here : Stands s text buff) :
    Stands { s with lastline := s.linenumber, buff := [] } text [] :=
  ⟨here.source, rfl, here.decpoint, here.ahead, here.lines⟩

theorem nextCall_goes {t : Token N} {rest buff' : Bytes} (ahead : s.lookahead = .eos)
    (go : Goes (llexLoop locale fuel) { s with lastline := s.linenumber, buff := [] } t rest buff') :
    ∃ seen s', lexCall locale fuel .next s = .ok (seen, s') ∧ seen.t = t ∧
      Stands s' rest buff' := by
  obtain ⟨s₁, run, there⟩ := go
  have loop : Meets (fun _ => False) (llexLoop locale fuel)
      { s with lastline := s.linenumber, buff := [] } fun token s' =>
        token = t ∧ Stands s' rest buff' := Meets.of_ok run ⟨rfl, there⟩
  obtain ⟨seen, _, run', s₂, ⟨same, at_rest⟩, rfl⟩ := (nextCall_of_loop ahead loop).total
  refine ⟨seen, _, run', same, ?_⟩
  exact ⟨at_rest.source, at_rest.buff, at_rest.decpoint, at_rest.ahead, at_rest.lines⟩

theorem Spells.next {t : Token N} {body rest : Bytes} (spells : Spells locale t body rest)
    (here : Stands s (body ++ rest) buff) (enough : body.length < fuel) :
    ∃ seen s', lexCall locale fuel .next s = .ok (seen, s') ∧ seen.t = t ∧
      ∃ buff, Stands s' rest buff := by
  obtain ⟨fuel, rfl⟩ : ∃ f, fuel = f + 1 := ⟨fuel - 1, by omega⟩
  obtain ⟨buff', go⟩ := spells.goes here.reset (Nat.le_of_lt_succ enough)
  obtain ⟨seen, s', run, same, there⟩ := nextCall_goes here.ahead go
  exact ⟨seen, s', run, same, buff', there⟩

theorem Written.next (written : Written locale text ts) (here : Stands s text buff)
    (enough : text.length ≤ fuel) :
    Meets (fun _ => False) (lexCall locale (fuel + 1) .next) s fun seen s' =>
      seen.t = ts.headD .eos ∧ ∃ rest buff,
        Stands s' rest buff ∧ Written locale rest ts.tail ∧ rest.length ≤ text.length := by
  obtain ⟨rest, buff', go, more, le⟩ := written.leads here.reset enough
  obtain ⟨seen, s', run, same, there⟩ := nextCall_goes here.ahead go
  exact Meets.of_ok run ⟨same, rest, buff', there, more, le⟩

theorem Written.calls (written : Written locale text ts) (here : Stands s text buff)
    (enough : text.length ≤ fuel) :
    Meets (fun _ => False) (lexCalls locale (fuel + 1) (List.replicate (ts.length + 1) .next)) s
      fun seen _ => seen.map Seen.t = ts ++ [.eos] := by
  induction ts generalizing s text buff with
  | nil =>
    refine Meets.bind (written.next here enough) fun first _ later => ?_
    exact Meets.after rfl (Meets.pure (congrArg (fun t => [t]) later.1))
  | cons t ts ih =>
    refine Meets.bind (written.next here enough) fun first s₁ later => ?_
    obtain ⟨same, rest, _, there, more, le⟩ := later
    refine Meets.bind (ih more there (by omega)) fun seen _ others => Meets.pure ?_
    rw [List.map_cons, others, same]
    rfl

theorem lexStart_stands (lines : lineBreaks text < 2147483644) :
    Stands (lexStart text : LexState Bytes N) text [] :=
  ⟨rfl, rfl, rfl, rfl, show 1 + lineBreaks text < 2147483645 by omega⟩

/-- The lexer reads back the tokens of a text, and then the end. -/
theorem lexer_reads_tokens (written : Written locale text ts)
    (lines : lineBreaks text < 2147483644) (enough : text.length < fuel) :
    ∃ seen s, lexCalls locale fuel (List.replicate (ts.length + 1) .next) (lexStart text) =
        .ok (seen, s) ∧ seen.map Seen.t = ts ++ [.eos] := by
  obtain ⟨fuel, rfl⟩ : ∃ f, fuel = f + 1 := ⟨fuel - 1, by omega⟩
  exact (written.calls (lexStart_stands lines) (Nat.le_of_lt_succ enough)).total

theorem lexer_reads_tokens_return :
    ∃ seen s, lexCalls plainLocale 15 (List.replicate 4 .next)
        (lexStart (bytes "return \"\\r\";")) = .ok (seen, s) ∧
      seen.map Seen.t = [.reserved .tkReturn, .string [13], .char 59] ++ [.eos] := by
  have last : Written plainLocale [59] [.char 59] :=
    .token (.mark (by decide)) .ended
  have literal : Literal 34 [13] (quoteChar 13) := quoted_literal [13] .ended (by decide)
  have string : Written plainLocale (addquoted [13] ++ [59])
      [.string [13], .char 59] := .token (.string (Or.inl rfl) literal [59]) last
  have spaced : Written plainLocale (32 :: (addquoted [13] ++ [59]))
      [.string [13], .char 59] := .space (by decide) (by decide) string
  have word : Spells plainLocale (wordToken (114 :: bytes "eturn"))
      (114 :: bytes "eturn") (32 :: (addquoted [13] ++ [59])) :=
    .word (by decide) (List.all_eq_true.mp (by decide)) (by decide)
  have written : Written plainLocale (bytes "return \"\\r\";")
      [.reserved .tkReturn, .string [13], .char 59] := Written.token word spaced
  have single : lineBreaks (bytes "return \"\\r\";") = 0 := by decide
  have enough : (bytes "return \"\\r\";").length < 15 := by decide
  have run := lexer_reads_tokens written (by omega) enough
  exact run

end Texts

end DriverSF
