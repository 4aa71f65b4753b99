import DriverSF.LexerStrings
import DriverSF.LuaExec

namespace DriverSF

open StateRules

section Strings

variable {del : UInt8} {body text rest tail : Bytes}

theorem Literal.length_le (literal : Literal del body text) : body.length ≤ text.length := by
  induction literal with
  | ended => exact Nat.le_refl 0
  | plain _ _ _ _ ih | letter _ _ _ ih | itself _ _ _ _ ih | newline _ _ _ ih
  | newlines _ _ _ _ ih =>
    simp only [List.length_cons]
    omega
  | decimal _ _ _ _ _ _ ih =>
    simp only [List.length_cons, List.length_append]
    omega

/-- Only a string without escapes is as long as its text. -/
theorem Literal.plain_of_length (literal : Literal del body text)
    (short : text.length ≤ body.length) :
    ∀ c ∈ body, c ≠ del ∧ c ≠ 92 ∧ isNewline c = false := by
  induction literal with
  | ended => exact fun _ member => (List.not_mem_nil member).elim
  | plain other slash within more ih =>
    refine List.forall_mem_cons.mpr ⟨⟨other, slash, within⟩, ih ?_⟩
    simpa using short
  | letter _ _ more _ | itself _ _ _ more _ | newline _ _ more _ | newlines _ _ _ more _ =>
    have le := more.length_le
    simp only [List.length_cons] at short
    omega
  | decimal one _ _ _ _ more _ =>
    have le := more.length_le
    have positive := List.length_pos_iff.mpr one
    simp only [List.length_cons, List.length_append] at short
    omega

theorem plain_literal (plain : ∀ c ∈ body, c ≠ del ∧ c ≠ 92 ∧ isNewline c = false) :
    Literal del body body := by
  induction body with
  | nil => exact .ended
  | cons c body ih =>
    obtain ⟨⟨other, slash, within⟩, others⟩ := List.forall_mem_cons.mp plain
    exact .plain other slash within (ih others)

/-- A backslash stands for itself behind another one only. -/
theorem Literal.cons_slash (literal : Literal 34 (92 :: body) text)
    (split : text ++ 34 :: tail = 92 :: 92 :: rest) :
    ∃ text', Literal 34 body text' ∧ text' ++ 34 :: tail = rest := by
  generalize same : 92 :: body = full at literal
  cases literal with
  | ended => cases same
  | plain other slash within more =>
    exact absurd (List.cons.inj same).1.symm slash
  | letter within letter more =>
    have next := (List.cons.inj (List.cons.inj split).2).1
    rw [next] at letter
    cases letter
  | itself within letter digit more =>
    rw [← (List.cons.inj same).2] at more
    exact ⟨_, more, (List.cons.inj (List.cons.inj split).2).2⟩
  | newline newline single more =>
    have next := (List.cons.inj (List.cons.inj split).2).1
    rw [next] at newline
    cases newline
  | newlines first second differ more =>
    have next := (List.cons.inj (List.cons.inj split).2).1
    rw [next] at first
    cases first
  | @decimal c digits _ _ one most all stop value more =>
    obtain ⟨d, digits, rfl⟩ := List.exists_cons_of_ne_nil one
    have next := (List.cons.inj (List.cons.inj split).2).1
    have digit := all d List.mem_cons_self
    rw [next] at digit
    cases digit

theorem Literal.cons_plain {c : UInt8} (slash : c ≠ 92) (literal : Literal 34 (c :: body) text)
    (split : text ++ 34 :: tail = c :: rest) :
    ∃ text', Literal 34 body text' ∧ text' ++ 34 :: tail = rest := by
  cases literal with
  | plain _ _ _ more => exact ⟨_, more, (List.cons.inj split).2⟩
  | letter | itself | newline | newlines | decimal =>
    exact absurd (List.cons.inj split).1.symm slash

/-- A quoted part at the start of a string is read in one way only. -/
theorem Literal.strip {front : Bytes} (ordinary : ∀ c ∈ front, c ≠ 34 ∧ c ≠ 10 ∧ c ≠ 13 ∧ c ≠ 0)
    (literal : Literal 34 (front ++ body) text)
    (split : text ++ 34 :: tail = front.flatMap quoteChar ++ rest) :
    ∃ text', Literal 34 body text' ∧ text' ++ 34 :: tail = rest := by
  induction front generalizing text with
  | nil => exact ⟨text, literal, split⟩
  | cons c front ih =>
    obtain ⟨⟨quote, feed, back, zero⟩, others⟩ := List.forall_mem_cons.mp ordinary
    rw [List.flatMap_cons, List.append_assoc] at split
    by_cases slash : c = 92
    · subst slash
      obtain ⟨text', more, split'⟩ := literal.cons_slash split
      exact ih others more split'
    · have quoted : quoteChar c = [c] := by simp [quoteChar, slash, quote, feed, back, zero]
      rw [quoted] at split
      obtain ⟨text', more, split'⟩ := literal.cons_plain slash split
      exact ih others more split'

end Strings

section Chunks

variable {N : Type} {locale : Locale N} {fuel : Nat} {path text tail : Bytes}

/-- A path behind the folder ends at the quote of the chunk. -/
theorem path_plain (literal : Literal 34 path text)
    (split : text ++ 34 :: tail = path ++ [34, 41, 10]) :
    ∀ c ∈ path, c ≠ 34 ∧ c ≠ 92 ∧ isNewline c = false := by
  refine literal.plain_of_length ?_
  rcases List.append_eq_append_iff.mp split with ⟨more, rfl, _⟩ | ⟨more, rfl, behind⟩
  · rw [List.length_append]
    exact Nat.le_add_right _ _
  · cases more with
    | nil => rw [List.append_nil]
    | cons c more =>
      have member : (34 : UInt8) ∈ [41, 10] := by
        rw [(List.cons.inj behind).2]
        exact List.mem_append_right more List.mem_cons_self
      exact absurd member (by decide)

/-- The folder of the scripts, seen from the folder of the game's scripts. -/
def scriptsFolder : Bytes := bytes "..\\..\\scripts\\"

theorem scriptsFolder_ordinary : ∀ c ∈ scriptsFolder, c ≠ 34 ∧ c ≠ 10 ∧ c ≠ 13 ∧ c ≠ 0 := by
  intro c member
  have all : scriptsFolder.all (fun c => c ≠ 34 && c ≠ 10 && c ≠ 13 && c ≠ 0) = true := by decide
  simpa [and_assoc] using List.all_eq_true.mp all c member

theorem luaFileChunk_eq (path : Bytes) :
    luaFileChunk path = 100 :: bytes "ebugOpen" ++ ([40] ++
      (34 :: (scriptsFolder.flatMap quoteChar ++ path ++ [34]) ++ ([41] ++ (10 :: [])))) := by
  have front : bytes "debugOpen(\"" = 100 :: bytes "ebugOpen" ++ [40, 34] := by decide
  have folder : bytes "..\\\\..\\\\scripts\\\\" = scriptsFolder.flatMap quoteChar := by decide
  have back : bytes "\")\n" = [34, 41, 10] := by decide
  rw [luaFileChunk, front, folder, back]
  simp

theorem debugOpen_spells (rest : Bytes) :
    Spells locale (.name (bytes "debugOpen")) (100 :: bytes "ebugOpen") (40 :: rest) := by
  have word : Spells locale (wordToken (100 :: bytes "ebugOpen")) (100 :: bytes "ebugOpen")
      (40 :: rest) := .word (by decide) (List.all_eq_true.mp (by decide)) rfl
  exact word

theorem luaFileChunk_written (plain : ∀ c ∈ path, c ≠ 34 ∧ c ≠ 92 ∧ isNewline c = false) :
    Written locale (luaFileChunk path)
      [.name (bytes "debugOpen"), .char 40, .string (scriptsFolder ++ path), .char 41] := by
  have feed : path.head? ≠ some 13 := by
    intro head
    cases path with
    | nil => cases head
    | cons c path =>
      have within := (plain c List.mem_cons_self).2.2
      rw [Option.some.inj head] at within
      cases within
  have literal : Literal 34 (scriptsFolder ++ path) (scriptsFolder.flatMap quoteChar ++ path) :=
    quoted_literal scriptsFolder (plain_literal plain) feed
  have alone : ∀ d, ([] : Bytes).head? = some d → (isNewline d && d ≠ 10) = false := by
    intro d head
    cases head
  have closing : Written locale ([41] ++ (10 :: [])) [.char 41] :=
    .token (.mark (by decide)) (.newline rfl alone .ended)
  rw [luaFileChunk_eq]
  exact .token (debugOpen_spells _) (.token (.mark (by decide))
    (.token (.string (Or.inl rfl) literal _) closing))

theorem lexCalls_cons {call : LexCall} {calls : List LexCall} {s s' : LexState Bytes N}
    {seen : List (Seen N)} (run : lexCalls locale fuel (call :: calls) s = .ok (seen, s')) :
    ∃ first s₁ others, lexCall locale fuel call s = .ok (first, s₁) ∧
      lexCalls locale fuel calls s₁ = .ok (others, s') ∧ seen = first :: others := by
  have split : Meets (fun _ => True) (lexCalls locale fuel (call :: calls)) s fun seen s' =>
      ∃ first s₁ others, lexCall locale fuel call s = .ok (first, s₁) ∧
        lexCalls locale fuel calls s₁ = .ok (others, s') ∧ seen = first :: others :=
    Meets.bind Meets.self fun first s₁ run₁ => Meets.bind Meets.self fun others s₂ run₂ =>
      Meets.pure ⟨first, s₁, others, run₁, run₂, rfl⟩
  exact split.result run

/-- The first two tokens of the chunk lead to the string. -/
theorem luaFileChunk_front {a b : Seen N} {s₁ s₂ : LexState Bytes N}
    (start : Stands (lexStart (luaFileChunk path) : LexState Bytes N) (luaFileChunk path) [])
    (enough : (luaFileChunk path).length < fuel)
    (run₁ : lexCall locale fuel .next (lexStart (luaFileChunk path)) = .ok (a, s₁))
    (run₂ : lexCall locale fuel .next s₁ = .ok (b, s₂)) :
    ∃ buff, Stands s₂ (34 :: (scriptsFolder.flatMap quoteChar ++ (path ++ [34, 41, 10]))) buff := by
  rw [luaFileChunk_eq] at start enough run₁
  rw [List.length_append, List.length_append] at enough
  have first_short : (100 :: bytes "ebugOpen").length < fuel := by omega
  have second_short : [(40 : UInt8)].length < fuel := by omega
  obtain ⟨_, _, name, _, _, here₁⟩ := (debugOpen_spells _).next start first_short
  obtain ⟨rfl, rfl⟩ := Prod.mk.inj (Except.ok.inj (name.symm.trans run₁))
  have mark : ∀ rest, Spells locale (.char 40) [40] rest := fun _ => .mark (by decide)
  obtain ⟨_, _, opening, _, buff, here₂⟩ := (mark _).next here₁ second_short
  obtain ⟨rfl, rfl⟩ := Prod.mk.inj (Except.ok.inj (opening.symm.trans run₂))
  have text : 34 :: (scriptsFolder.flatMap quoteChar ++ path ++ [34]) ++ ([41] ++ [10]) =
      34 :: (scriptsFolder.flatMap quoteChar ++ (path ++ [34, 41, 10])) := by simp
  exact ⟨buff, text ▸ here₂⟩

/-- The chunk for a script opens exactly this script if and only if the path has no quote, no
backslash and no line break. -/
theorem executeLuaFile_opens (locale : Locale N) (vars : Vars) (path : Bytes)
    (lines : lineBreaks (executeLuaFile vars path).buffer < 2147483644)
    (enough : (executeLuaFile vars path).buffer.length < fuel) :
    (∃ seen s, lexCalls locale fuel (List.replicate 5 .next)
        (lexStart (executeLuaFile vars path).buffer) = .ok (seen, s) ∧
      seen.map Seen.t = [.name (bytes "debugOpen"), .char 40, .string (scriptsFolder ++ path),
        .char 41, .eos]) ↔
      ∀ c ∈ path, c ≠ 34 ∧ c ≠ 92 ∧ isNewline c = false := by
  have start : Stands (lexStart (luaFileChunk path) : LexState Bytes N) (luaFileChunk path) [] :=
    lexStart_stands lines
  constructor
  · rintro ⟨seen, s, run, tokens⟩
    obtain ⟨a, s₁, _, run₁, more₁, rfl⟩ := lexCalls_cons run
    obtain ⟨b, s₂, _, run₂, more₂, rfl⟩ := lexCalls_cons more₁
    obtain ⟨c, s₃, _, run₃, _, rfl⟩ := lexCalls_cons more₂
    obtain ⟨_, here⟩ := luaFileChunk_front start enough run₁ run₂
    -- the third token is the string
    have string : Ends (lexCall locale fuel .next) s₂ _ :=
      nextCall_ends (Or.inl rfl) here.source here.ahead
    obtain ⟨body, text, found, literal, split⟩ := string.result run₃
    have third := (List.cons.inj (List.cons.inj (List.cons.inj tokens).2).2).1
    have read : body = scriptsFolder ++ path := Token.string.inj (found.symm.trans third)
    rw [read] at literal
    obtain ⟨text', inner, behind⟩ := literal.strip scriptsFolder_ordinary split.symm
    exact path_plain inner behind
  · intro plain
    obtain ⟨fuel, rfl⟩ : ∃ f, fuel = f + 1 := ⟨fuel - 1, by omega⟩
    exact ((luaFileChunk_written plain).calls start (Nat.le_of_lt_succ enough)).total

theorem executeLuaFile_opens_load :
    (∃ seen s, lexCalls plainLocale 45 (List.replicate 5 .next)
        (lexStart (executeLuaFile idleVars (bytes "load.lua")).buffer) = .ok (seen, s) ∧
      seen.map Seen.t = [.name (bytes "debugOpen"), .char 40,
        .string (scriptsFolder ++ bytes "load.lua"), .char 41, .eos]) ↔
      ∀ c ∈ bytes "load.lua", c ≠ 34 ∧ c ≠ 92 ∧ isNewline c = false := by
  have one : lineBreaks (executeLuaFile idleVars (bytes "load.lua")).buffer = 1 := by decide
  have enough : (executeLuaFile idleVars (bytes "load.lua")).buffer.length < 45 := by decide
  exact executeLuaFile_opens plainLocale idleVars (bytes "load.lua") (by omega) enough

end Chunks

end DriverSF
