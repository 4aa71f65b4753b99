import DriverSF.LexerLines

namespace DriverSF

open StateRules

variable {N α β : Type}

/-- The same state of the lexer, over another source of characters. -/
def LexState.over {σ τ : Type} (s : LexState σ N) (source : τ) : LexState τ N :=
  ⟨source, s.linenumber, s.lastline, s.t, s.lookahead, s.buff, s.decpoint⟩

/-- A stream that has delivered the first character of the text that is left. -/
def StreamAt (x : ZioChars) (text : Bytes) : Prop :=
  x.current = CharSource.current text ∧ (text ≠ [] → x.z.Represents text.tail)

def SameLexer (s : LexState ZioChars N) (t : LexState Bytes N) : Prop :=
  ∃ x, StreamAt x t.source ∧ s = t.over x

/-- The same syntax error at the same place. -/
def SameError (stop : LexStop ZioChars) (stop' : LexStop Bytes) : Prop :=
  ∃ e x unread, stop = .error e x ∧ stop' = .error e unread ∧ StreamAt x unread

/-- The lexer over a stream does what it does over the text, if this does not read on at its end. -/
def Streams (m : Lexing ZioChars N α) (m' : Lexing Bytes N α) : Prop :=
  Mimics SameLexer SameError LexStop.fault m m'

/-- What the parser gets from the lexer: a result, a syntax error, or nothing. -/
def told {σ : Type} : Except (LexStop σ) (α × LexState σ N) → Except (Option LexError) α
  | .ok (a, _) => .ok a
  | .error (.error e _) => .error (some e)
  | .error .fault => .error none

section Actions

theorem Streams.pure (a : α) : Streams (N := N) (Pure.pure a) (Pure.pure a) := Mimics.pure a

theorem Streams.bind {m : Lexing ZioChars N α} {m' : Lexing Bytes N α}
    {f : α → Lexing ZioChars N β} {f' : α → Lexing Bytes N β} (first : Streams m m')
    (next : ∀ a, Streams (f a) (f' a)) : Streams (m >>= f) (m' >>= f') :=
  Mimics.bind first next

theorem Streams.ite {c : Prop} [Decidable c] {m n : Lexing ZioChars N α} {m' n' : Lexing Bytes N α}
    (yes : Streams m m') (no : Streams n n') :
    Streams (if c then m else n) (if c then m' else n') :=
  Mimics.ite yes no

/-- What neither reads nor stops. -/
theorem Streams.quiet {m : Lexing ZioChars N α} {m' : Lexing Bytes N α}
    (run : ∀ (t : LexState Bytes N) (x : ZioChars), ∃ a t', t'.source = t.source ∧
      m (t.over x) = .ok (a, t'.over x) ∧ m' t = .ok (a, t')) : Streams m m' := by
  rintro s t ⟨x, here, rfl⟩
  obtain ⟨a, t', same, first, second⟩ := run t x
  exact Or.inr (Or.inr ⟨a, _, t', first, second, x, same ▸ here, rfl⟩)

theorem Streams.error (msg : Bytes) (token : TokenKind) :
    Streams (luaXLexerror msg token : Lexing ZioChars N α) (luaXLexerror msg token) := by
  rintro s t ⟨x, here, rfl⟩
  exact Or.inr (Or.inl ⟨_, _, rfl, rfl, _, x, t.source, rfl, rfl, here⟩)

theorem Streams.fault : Streams (lexFault : Lexing ZioChars N α) lexFault :=
  fun _ _ _ => Or.inl rfl

theorem lexCurrent_streams : Streams (N := N) lexCurrent lexCurrent := by
  rintro s t ⟨x, here, rfl⟩
  refine Or.inr (Or.inr ⟨CharSource.current t.source, _, t, ?_, rfl, x, here, rfl⟩)
  show Except.ok (x.current, t.over x) = _
  rw [here.1]

/-- The stream is not read again after its end. -/
theorem lexNext_streams : Streams (N := N) lexNext lexNext := by
  rintro s t ⟨x, ⟨_, ahead⟩, rfl⟩
  rcases current_cases t.source with ⟨empty, _⟩ | ⟨c, rest, text, _⟩
  · refine Or.inl ?_
    unfold lexNext
    rw [empty]
    rfl
  · rw [text] at ahead
    have represents : x.z.Represents rest := ahead (List.cons_ne_nil c rest)
    obtain ⟨x', read, here⟩ : ∃ x', CharSource.next x = some x' ∧ StreamAt x' rest := by
      cases rest with
      | nil =>
        obtain ⟨z', got⟩ := zgetc_nil represents
        exact ⟨⟨eoz, z'⟩, congrArg (Option.map _) got, rfl, fun some_left => absurd rfl some_left⟩
      | cons d rest =>
        obtain ⟨z', got, further⟩ := zgetc_cons represents
        exact ⟨⟨char2int d, z'⟩, congrArg (Option.map _) got, rfl, fun _ => further⟩
    refine Or.inr (Or.inr ⟨(), (({ t with source := rest } : LexState Bytes N)).over x', _, ?_,
      lexNext_cons text, x', here, rfl⟩)
    unfold lexNext
    have same : CharSource.next (t.over x).source = some x' := read
    rw [same]
    rfl

theorem lexSave_streams (c : Int) : Streams (N := N) (lexSave c) (lexSave c) :=
  Streams.quiet fun t _ => ⟨(), { t with buff := t.buff ++ [UInt8.ofNat c.toNat] }, rfl, rfl, rfl⟩

theorem resetbuffer_streams : Streams (N := N) resetbuffer resetbuffer :=
  Streams.quiet fun t _ => ⟨(), { t with buff := [] }, rfl, rfl, rfl⟩

theorem saveAndNext_streams : Streams (N := N) saveAndNext saveAndNext :=
  lexCurrent_streams.bind fun c => (lexSave_streams c).bind fun _ => lexNext_streams

theorem countLine_streams : Streams (N := N) countLine countLine := by
  rintro s t ⟨x, here, rfl⟩
  by_cases many : 2147483645 ≤ t.linenumber + 1
  · exact Or.inr (Or.inl ⟨_, _, if_pos many, if_pos many, _, x, t.source, rfl, rfl, here⟩)
  · refine Or.inr (Or.inr ⟨(), _, { t with linenumber := t.linenumber + 1 }, if_neg many,
      if_neg many, x, here, rfl⟩)

end Actions

section Parts

variable {locale : Locale N}

theorem inclinenumber_streams : Streams (N := N) inclinenumber inclinenumber :=
  lexCurrent_streams.bind fun _ => lexNext_streams.bind fun _ => lexCurrent_streams.bind fun _ =>
    Streams.ite (lexNext_streams.bind fun _ => countLine_streams) countLine_streams

theorem checkNext_streams (set : Bytes) : Streams (N := N) (checkNext set) (checkNext set) :=
  lexCurrent_streams.bind fun _ =>
    Streams.ite (saveAndNext_streams.bind fun _ => Streams.pure true) (Streams.pure false)

theorem saveWhile_streams (p : Int → Bool) (fuel : Nat) :
    Streams (N := N) (saveWhile p fuel) (saveWhile p fuel) := by
  induction fuel with
  | zero => exact Streams.fault
  | succ fuel ih =>
    exact lexCurrent_streams.bind fun _ =>
      Streams.ite (saveAndNext_streams.bind fun _ => ih) (Streams.pure ())

theorem buffreplace_streams (old new : UInt8) :
    Streams (N := N) (buffreplace old new) (buffreplace old new) :=
  Streams.quiet fun t _ =>
    ⟨(), { t with buff := t.buff.map fun c => if c = old then new else c }, rfl, rfl, rfl⟩

theorem convert_streams : Streams (convert locale) (convert locale) :=
  Streams.quiet fun t _ => ⟨_, t, rfl, rfl, rfl⟩

theorem getDecpoint_streams : Streams (N := N) getDecpoint getDecpoint :=
  Streams.quiet fun t _ => ⟨_, t, rfl, rfl, rfl⟩

theorem setDecpoint_streams (decpoint : UInt8) :
    Streams (N := N) (setDecpoint decpoint) (setDecpoint decpoint) :=
  Streams.quiet fun t _ => ⟨(), { t with decpoint }, rfl, rfl, rfl⟩

theorem trydecpoint_streams : Streams (trydecpoint locale) (trydecpoint locale) := by
  refine getDecpoint_streams.bind fun _ => (setDecpoint_streams _).bind fun _ =>
    (buffreplace_streams _ _).bind fun _ => convert_streams.bind fun r => ?_
  cases r with
  | some r => exact Streams.pure r
  | none => exact (buffreplace_streams _ _).bind fun _ => Streams.error _ _

theorem readExponent_streams : Streams (N := N) readExponent readExponent :=
  (checkNext_streams _).bind fun _ =>
    Streams.ite ((checkNext_streams _).bind fun _ => Streams.pure ()) (Streams.pure ())

theorem readNumeral_streams (fuel : Nat) :
    Streams (readNumeral locale fuel) (readNumeral locale fuel) := by
  refine saveAndNext_streams.bind fun _ => (saveWhile_streams _ _).bind fun _ =>
    readExponent_streams.bind fun _ => (saveWhile_streams _ _).bind fun _ =>
    (lexSave_streams _).bind fun _ => getDecpoint_streams.bind fun _ =>
    (buffreplace_streams _ _).bind fun _ => convert_streams.bind fun r => ?_
  cases r with
  | some r => exact Streams.pure r
  | none => exact trydecpoint_streams

theorem skipEqs_streams (fuel : Nat) (count : Int) :
    Streams (N := N) (skipEqs fuel count) (skipEqs fuel count) := by
  induction fuel generalizing count with
  | zero => exact Streams.fault
  | succ fuel ih =>
    exact lexCurrent_streams.bind fun _ =>
      Streams.ite (saveAndNext_streams.bind fun _ => ih _) (Streams.pure _)

theorem skipSep_streams (fuel : Nat) : Streams (N := N) (skipSep fuel) (skipSep fuel) :=
  lexCurrent_streams.bind fun _ => saveAndNext_streams.bind fun _ =>
    (skipEqs_streams _ _).bind fun _ => lexCurrent_streams.bind fun _ => Streams.pure _

theorem longStringLoop_streams (seminfo : Bool) (sep : Int) (fuel : Nat) :
    Streams (N := N) (longStringLoop seminfo sep fuel) (longStringLoop seminfo sep fuel) := by
  induction fuel with
  | zero => exact Streams.fault
  | succ fuel ih =>
    refine lexCurrent_streams.bind fun _ => Streams.ite (Streams.error _ _) (Streams.ite ?_
      (Streams.ite ?_ (Streams.ite ?_ (Streams.ite ?_ ?_))))
    · exact (skipSep_streams _).bind fun _ => Streams.ite (saveAndNext_streams.bind fun _ =>
        Streams.ite (Streams.error _ _) ih) ih
    · exact (skipSep_streams _).bind fun _ => Streams.ite saveAndNext_streams ih
    · exact (lexSave_streams _).bind fun _ => inclinenumber_streams.bind fun _ =>
        Streams.ite ih (resetbuffer_streams.bind fun _ => ih)
    · exact saveAndNext_streams.bind fun _ => ih
    · exact lexNext_streams.bind fun _ => ih

theorem contents_streams (first both : Nat) :
    Streams (N := N) (contents first both) (contents first both) :=
  Streams.quiet fun t _ => ⟨_, t, rfl, rfl, rfl⟩

theorem readLongString_streams (seminfo : Bool) (sep : Int) (fuel : Nat) :
    Streams (N := N) (readLongString seminfo sep fuel) (readLongString seminfo sep fuel) := by
  refine saveAndNext_streams.bind fun _ => Streams.bind ?_ fun _ =>
    (longStringLoop_streams _ _ _).bind fun _ => contents_streams _ _
  exact lexCurrent_streams.bind fun _ => Streams.ite inclinenumber_streams (Streams.pure ())

theorem readDecimal_streams (left : Nat) (c : Int) :
    Streams (N := N) (readDecimal left c) (readDecimal left c) := by
  induction left generalizing c with
  | zero => exact Streams.pure c
  | succ left ih =>
    exact lexCurrent_streams.bind fun _ =>
      Streams.ite (lexNext_streams.bind fun _ => ih _) (Streams.pure c)

theorem readEscape_streams : Streams (N := N) readEscape readEscape := by
  refine lexCurrent_streams.bind fun c => ?_
  cases escapes.lookup c with
  | some c => exact (lexSave_streams _).bind fun _ => lexNext_streams
  | none =>
    refine Streams.ite ((lexSave_streams _).bind fun _ => inclinenumber_streams)
      (Streams.ite (Streams.pure ()) (Streams.ite ?_ saveAndNext_streams))
    exact (readDecimal_streams _ _).bind fun _ =>
      Streams.ite (Streams.error _ _) (lexSave_streams _)

theorem stringLoop_streams (del : Int) (fuel : Nat) :
    Streams (N := N) (stringLoop del fuel) (stringLoop del fuel) := by
  induction fuel with
  | zero => exact Streams.fault
  | succ fuel ih =>
    refine lexCurrent_streams.bind fun _ => Streams.ite (Streams.pure ())
      (Streams.ite (Streams.error _ _) (Streams.ite (Streams.error _ _) (Streams.ite ?_ ?_)))
    · exact lexNext_streams.bind fun _ => readEscape_streams.bind fun _ => ih
    · exact saveAndNext_streams.bind fun _ => ih

theorem readString_streams (del : Int) (fuel : Nat) :
    Streams (N := N) (readString del fuel) (readString del fuel) :=
  saveAndNext_streams.bind fun _ => (stringLoop_streams _ _).bind fun _ =>
    saveAndNext_streams.bind fun _ => contents_streams _ _

theorem skipLine_streams (fuel : Nat) : Streams (N := N) (skipLine fuel) (skipLine fuel) := by
  induction fuel with
  | zero => exact Streams.fault
  | succ fuel ih =>
    exact lexCurrent_streams.bind fun _ =>
      Streams.ite (Streams.pure ()) (lexNext_streams.bind fun _ => ih)

theorem readComment_streams (fuel : Nat) :
    Streams (N := N) (readComment fuel) (readComment fuel) := by
  refine lexCurrent_streams.bind fun _ => Streams.ite ?_ (skipLine_streams _)
  refine (skipSep_streams _).bind fun _ => resetbuffer_streams.bind fun _ =>
    Streams.ite ?_ (skipLine_streams _)
  exact (readLongString_streams _ _ _).bind fun _ => resetbuffer_streams

theorem orEqual_streams (token : Token N) : Streams (orEqual token) (orEqual token) :=
  lexCurrent_streams.bind fun _ => lexNext_streams.bind fun _ => lexCurrent_streams.bind fun _ =>
    Streams.ite (lexNext_streams.bind fun _ => Streams.pure _) (Streams.pure _)

theorem readDots_streams (fuel : Nat) :
    Streams (readDots locale fuel) (readDots locale fuel) := by
  refine saveAndNext_streams.bind fun _ => (checkNext_streams _).bind fun _ =>
    Streams.ite ?_ (lexCurrent_streams.bind fun _ => Streams.ite ?_ (Streams.pure _))
  · exact (checkNext_streams _).bind fun _ => Streams.ite (Streams.pure _) (Streams.pure _)
  · exact (readNumeral_streams _).bind fun _ => Streams.pure _

theorem readName_streams (fuel : Nat) : Streams (N := N) (readName fuel) (readName fuel) := by
  refine saveAndNext_streams.bind fun _ => (saveWhile_streams _ _).bind fun _ =>
    (contents_streams _ _).bind fun ts => ?_
  cases reservedWords.find? fun r => r.2 = ts with
  | some r => exact Streams.pure _
  | none => exact Streams.pure _

theorem readBracket_streams (fuel : Nat) :
    Streams (N := N) (readBracket fuel) (readBracket fuel) := by
  refine (skipSep_streams _).bind fun _ => Streams.ite ?_
    (Streams.ite (Streams.pure _) (Streams.error _ _))
  exact (readLongString_streams _ _ _).bind fun _ => Streams.pure _

theorem llexLoop_streams (fuel : Nat) :
    Streams (llexLoop locale fuel) (llexLoop locale fuel) := by
  induction fuel with
  | zero => exact Streams.fault
  | succ fuel ih =>
    refine lexCurrent_streams.bind fun _ => Streams.ite (inclinenumber_streams.bind fun _ => ih)
      (Streams.ite ?_ (Streams.ite (readBracket_streams _) (Streams.ite (orEqual_streams _)
      (Streams.ite (orEqual_streams _) (Streams.ite (orEqual_streams _)
      (Streams.ite (orEqual_streams _) (Streams.ite ?_ (Streams.ite (readDots_streams _)
      (Streams.ite (Streams.pure _) (Streams.ite ?_ (Streams.ite ?_
      (Streams.ite (readName_streams _) ?_))))))))))))
    · exact lexNext_streams.bind fun _ => lexCurrent_streams.bind fun _ =>
        Streams.ite (lexNext_streams.bind fun _ => (readComment_streams _).bind fun _ => ih)
          (Streams.pure _)
    · exact (readString_streams _ _).bind fun _ => Streams.pure _
    · exact lexNext_streams.bind fun _ => ih
    · exact (readNumeral_streams _).bind fun _ => Streams.pure _
    · exact lexNext_streams.bind fun _ => Streams.pure _

theorem llex_streams (fuel : Nat) : Streams (llex locale fuel) (llex locale fuel) :=
  resetbuffer_streams.bind fun _ => llexLoop_streams fuel

end Parts

section Calls

variable {locale : Locale N}

theorem setToken_streams (token : Token N) : Streams (setToken token) (setToken token) :=
  Streams.quiet fun t _ => ⟨(), { t with t := token }, rfl, rfl, rfl⟩

theorem setLookahead_streams (token : Token N) :
    Streams (setLookahead token) (setLookahead token) :=
  Streams.quiet fun t _ => ⟨(), { t with lookahead := token }, rfl, rfl, rfl⟩

theorem look_streams : Streams (N := N) look look :=
  Streams.quiet fun t _ => ⟨_, t, rfl, rfl, rfl⟩

theorem luaXNext_streams (fuel : Nat) : Streams (luaXNext locale fuel) (luaXNext locale fuel) := by
  have start : Streams (N := N) startToken startToken :=
    Streams.quiet fun t _ => ⟨(), { t with lastline := t.linenumber }, rfl, rfl, rfl⟩
  have ahead : Streams (N := N) getLookahead getLookahead :=
    Streams.quiet fun t _ => ⟨_, t, rfl, rfl, rfl⟩
  refine start.bind fun _ => ahead.bind fun token => ?_
  cases token with
  | eos => exact (llex_streams fuel).bind fun _ => setToken_streams _
  | _ => exact (setToken_streams _).bind fun _ => setLookahead_streams _

theorem lexCall_streams (fuel : Nat) (call : LexCall) :
    Streams (lexCall locale fuel call) (lexCall locale fuel call) := by
  cases call with
  | next => exact (luaXNext_streams fuel).bind fun _ => look_streams
  | lookahead =>
    exact ((llex_streams fuel).bind fun _ => setLookahead_streams _).bind fun _ => look_streams

theorem lexCalls_streams (fuel : Nat) (calls : List LexCall) :
    Streams (lexCalls locale fuel calls) (lexCalls locale fuel calls) := by
  induction calls with
  | nil => exact Streams.pure []
  | cons call calls ih =>
    exact (lexCall_streams fuel call).bind fun _ => ih.bind fun _ => Streams.pure _

theorem luaXSetinput_same {buff : Bytes} (size : buff.length < 2 ^ 32) :
    ∃ s : LexState ZioChars N, luaXSetinput (lualLoadbufferOverrideZio buff) = some s ∧
      SameLexer s (lexStart buff) := by
  have represents : (lualLoadbufferOverrideZio buff).Represents buff :=
    lualLoadbufferZio_represents size
  cases buff with
  | nil =>
    obtain ⟨z', got⟩ := zgetc_nil represents
    exact ⟨lexStart ⟨eoz, z'⟩, congrArg (Option.map _) got, ⟨eoz, z'⟩,
      ⟨rfl, fun some_left => absurd rfl some_left⟩, rfl⟩
  | cons c rest =>
    obtain ⟨z', got, further⟩ := zgetc_cons represents
    exact ⟨lexStart ⟨char2int c, z'⟩, congrArg (Option.map _) got, ⟨char2int c, z'⟩,
      ⟨rfl, fun _ => further⟩, rfl⟩

/-- Over the stream of a loaded buffer the lexer sees the text of the buffer, never reads on at the
end, and comes to the end token or to a syntax error. -/
theorem lexer_reads_buffer (locale : Locale N) {buff : Bytes} (size : buff.length < 2 ^ 32)
    {fuel : Nat} (enough : buff.length < fuel) :
    ∃ s, luaXSetinput (lualLoadbufferOverrideZio buff) = some s ∧
      (∀ calls, told (lexCalls locale fuel calls s) =
          told (lexCalls locale fuel calls (lexStart buff)) ∧
        lexCalls locale fuel calls s ≠ .error .fault) ∧
      ((∃ seen s' last,
          lexCalls locale fuel (List.replicate (buff.length + 1) .next) s = .ok (seen, s') ∧
          seen.getLast? = some last ∧ last.t = .eos) ∨
        ∃ e x, lexCalls locale fuel (List.replicate (buff.length + 1) .next) s =
          .error (.error e x)) := by
  obtain ⟨s, start, same⟩ := luaXSetinput_same (N := N) size
  have outcome : ∀ calls,
      (∃ e x unread, lexCalls locale fuel calls s = .error (.error e x) ∧
        lexCalls locale fuel calls (lexStart buff) = .error (.error e unread)) ∨
      ∃ seen s' t', lexCalls locale fuel calls s = .ok (seen, s') ∧
        lexCalls locale fuel calls (lexStart buff) = .ok (seen, t') := by
    intro calls
    rcases lexCalls_streams fuel calls s (lexStart buff) same with
      stopped | ⟨_, _, run, run', e, x, unread, rfl, rfl, _⟩ | ⟨seen, s', t', run, run', _⟩
    · exact absurd stopped (lexCalls_total locale buff enough calls)
    · exact Or.inl ⟨e, x, unread, run, run'⟩
    · exact Or.inr ⟨seen, s', t', run, run'⟩
  refine ⟨s, start, fun calls => ?_, ?_⟩
  · rcases outcome calls with ⟨e, x, unread, run, run'⟩ | ⟨seen, s', t', run, run'⟩
    · rw [run, run']
      exact ⟨rfl, fun same => by cases same⟩
    · rw [run, run']
      exact ⟨rfl, fun same => by cases same⟩
  · rcases outcome (List.replicate (buff.length + 1) .next) with
      ⟨e, x, _, run, _⟩ | ⟨seen, s', t', run, run'⟩
    · exact Or.inr ⟨e, x, run⟩
    · have last := nextCalls_meets (s := lexStart buff) locale enough rfl
        (buff.length + 1)
      unfold Meets at last
      rw [run'] at last
      obtain ⟨x, found, eos⟩ := last.2 (Nat.lt_succ_self _)
      exact Or.inl ⟨seen, s', x, run, found, eos⟩

theorem lexer_reads_buffer_return :
    ∃ s, luaXSetinput (lualLoadbufferOverrideZio (bytes "--[[a]]\nreturn 'b'")) = some s ∧
      (∀ calls, told (lexCalls plainLocale 19 calls s) =
          told (lexCalls plainLocale 19 calls (lexStart (bytes "--[[a]]\nreturn 'b'"))) ∧
        lexCalls plainLocale 19 calls s ≠ .error .fault) ∧
      ((∃ seen s' last,
          lexCalls plainLocale 19
            (List.replicate ((bytes "--[[a]]\nreturn 'b'").length + 1) .next) s =
              .ok (seen, s') ∧
          seen.getLast? = some last ∧ last.t = .eos) ∨
        ∃ e x, lexCalls plainLocale 19
          (List.replicate ((bytes "--[[a]]\nreturn 'b'").length + 1) .next) s =
            .error (.error e x)) :=
  lexer_reads_buffer plainLocale (by decide) (by decide)

end Calls

end DriverSF
