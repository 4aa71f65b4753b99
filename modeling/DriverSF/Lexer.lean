import Mathlib.Algebra.Group.Nat.Defs
import DriverSF.Decimal
import DriverSF.ZioStream

namespace DriverSF

/-- The reserved words, in the order of `luaX_tokens`. -/
inductive Reserved where
  | tkAnd | tkBreak | tkDo | tkElse | tkElseif | tkEnd | tkFalse | tkFor | tkFunction | tkIf
  | tkIn | tkLocal | tkNil | tkNot | tkOr | tkRepeat | tkReturn | tkThen | tkTrue | tkUntil
  | tkWhile
  deriving DecidableEq, Repr

def reservedWords : List (Reserved × Bytes) :=
  [(.tkAnd, bytes "and"), (.tkBreak, bytes "break"), (.tkDo, bytes "do"), (.tkElse, bytes "else"),
    (.tkElseif, bytes "elseif"), (.tkEnd, bytes "end"), (.tkFalse, bytes "false"),
    (.tkFor, bytes "for"), (.tkFunction, bytes "function"), (.tkIf, bytes "if"),
    (.tkIn, bytes "in"), (.tkLocal, bytes "local"), (.tkNil, bytes "nil"), (.tkNot, bytes "not"),
    (.tkOr, bytes "or"), (.tkRepeat, bytes "repeat"), (.tkReturn, bytes "return"),
    (.tkThen, bytes "then"), (.tkTrue, bytes "true"), (.tkUntil, bytes "until"),
    (.tkWhile, bytes "while")]

inductive TokenKind where
  | char (c : UInt8)
  | reserved (r : Reserved)
  | concat | dots | eq | ge | le | ne | number | name | string | eos
  deriving DecidableEq, Repr

/-- A token with its semantics information, for numbers that `luaO_str2d` makes. -/
inductive Token (N : Type) where
  | char (c : UInt8)
  | reserved (r : Reserved)
  | concat | dots | eq | ge | le | ne
  | number (r : N)
  | name (ts : Bytes)
  | string (ts : Bytes)
  | eos
  deriving DecidableEq, Repr

def Token.kind {N : Type} : Token N → TokenKind
  | .char c => .char c
  | .reserved r => .reserved r
  | .concat => .concat
  | .dots => .dots
  | .eq => .eq
  | .ge => .ge
  | .le => .le
  | .ne => .ne
  | .number _ => .number
  | .name _ => .name
  | .string _ => .string
  | .eos => .eos

/-- A syntax error: its line, its message and what it is near to. -/
structure LexError where
  linenumber : Nat
  msg : Bytes
  near : Option Bytes
  deriving DecidableEq, Repr

/-- The text of the error after the description of the chunk. -/
def LexError.text (e : LexError) : Bytes :=
  bytes ":" ++ Decimal.ofNat e.linenumber ++ bytes ": " ++ e.msg ++
    match e.near with
    | some token => bytes " near '" ++ token ++ bytes "'"
    | none => []

/-- A syntax error is thrown where the lexer stands, with `source` not yet read. -/
inductive LexStop (σ : Type) where
  | error (e : LexError) (source : σ)
  | fault

/-- What the current character is taken from; `none` where the C code reads outside the buffer. -/
class CharSource (σ : Type) where
  current : σ → Int
  next : σ → Option σ

/-- `ls->current` and `ls->z`. -/
structure ZioChars where
  current : Int
  z : Zio

instance : CharSource ZioChars where
  current := ZioChars.current
  next s := (zgetc s.z).map fun (c, z) => ⟨c, z⟩

/-- The text that is not yet read, from the current character on. -/
instance : CharSource Bytes where
  current
    | [] => eoz
    | c :: _ => char2int c
  next
    | [] => none
    | _ :: rest => some rest

structure LexState (σ N : Type) where
  source : σ
  linenumber : Nat
  lastline : Nat
  t : Token N
  lookahead : Token N
  buff : Bytes
  decpoint : UInt8

abbrev Lexing (σ N α : Type) := StateT (LexState σ N) (Except (LexStop σ)) α

/-- What the lexer uses of the C library: the numbers of `strtod` and of `strtoul` with base 16,
each with how many characters it takes, and the decimal point. -/
structure Locale (N : Type) where
  strtod : Bytes → N × Nat
  strtoul : Bytes → N × Nat
  decimalPoint : UInt8

/-- A locale whose numbers are their texts. -/
def plainLocale : Locale Bytes := ⟨fun s => (s, s.length), fun s => (s, s.length), 46⟩

section Classes

def ch (c : Char) : Int := c.toNat

def isdigit (c : Int) : Bool := 48 ≤ c && c ≤ 57
def isalpha (c : Int) : Bool := (65 ≤ c && c ≤ 90) || (97 ≤ c && c ≤ 122)
def isalnum (c : Int) : Bool := isalpha c || isdigit c
def isspace (c : Int) : Bool := c = 32 || (9 ≤ c && c ≤ 13)
def iscntrl (c : UInt8) : Bool := c.toNat < 32 || c.toNat = 127

def currIsNewline (c : Int) : Bool := c = ch '\n' || c = ch '\r'

end Classes

def luaOStr2d {N : Type} (locale : Locale N) (s : Bytes) : Option N :=
  let (result, taken) := locale.strtod s
  -- conversion failed?
  if taken = 0 then none
  else
    -- maybe an hexadecimal constant?
    let (result, taken) := match s.drop taken with
      | 120 :: _ => locale.strtoul s
      | 88 :: _ => locale.strtoul s
      | _ => (result, taken)
    if ((s.drop taken).dropWhile fun c => isspace (char2int c)) = [] then some result else none

section Actions

variable {σ N α : Type} [CharSource σ]

def lexFault : Lexing σ N α := fun _ => .error .fault

def lexNext : Lexing σ N Unit := fun s =>
  match CharSource.next s.source with
  | some source => .ok ((), { s with source })
  | none => .error .fault

def lexCurrent : Lexing σ N Int := fun s => .ok (CharSource.current s.source, s)

def lexSave (c : Int) : Lexing σ N Unit := fun s =>
  .ok ((), { s with buff := s.buff ++ [UInt8.ofNat c.toNat] })

def resetbuffer : Lexing σ N Unit := fun s => .ok ((), { s with buff := [] })

def saveAndNext : Lexing σ N Unit := do
  lexSave (← lexCurrent)
  lexNext

def luaXToken2str : TokenKind → Bytes
  | .char c => if iscntrl c then bytes "char(" ++ Decimal.ofNat c.toNat ++ bytes ")" else [c]
  | .reserved r => (reservedWords.lookup r).getD []
  | .concat => bytes ".."
  | .dots => bytes "..."
  | .eq => bytes "=="
  | .ge => bytes ">="
  | .le => bytes "<="
  | .ne => bytes "~="
  | .number => bytes "<number>"
  | .name => bytes "<name>"
  | .string => bytes "<string>"
  | .eos => bytes "<eof>"

def txtToken (buff : Bytes) : TokenKind → Bytes
  | .name => cstr buff
  | .string => cstr buff
  | .number => cstr buff
  | token => luaXToken2str token

/-- The token 0 is not named. -/
def luaXLexerror (msg : Bytes) (token : TokenKind) : Lexing σ N α := fun s =>
  let near := if token = .char 0 then none else some (txtToken s.buff token)
  .error (.error ⟨s.linenumber, msg, near⟩ s.source)

def luaXSyntaxerror (msg : Bytes) : Lexing σ N α := fun s => luaXLexerror msg s.t.kind s

def countLine : Lexing σ N Unit := fun s =>
  let s := { s with linenumber := s.linenumber + 1 }
  if 2147483645 ≤ s.linenumber then luaXSyntaxerror (bytes "chunk has too many lines") s
  else .ok ((), s)

def inclinenumber : Lexing σ N Unit := do
  let old ← lexCurrent
  lexNext
  let c ← lexCurrent
  -- skip `\n\r' or `\r\n'
  if currIsNewline c && c ≠ old then
    lexNext
    countLine
  else countLine

/-- `strchr` finds the terminator of the set too. -/
def checkNext (set : Bytes) : Lexing σ N Bool := do
  let c ← lexCurrent
  if c = 0 || set.any (fun x => char2int x = c) then
    saveAndNext
    return true
  else return false

def saveWhile (p : Int → Bool) : Nat → Lexing σ N Unit
  | 0 => lexFault
  | fuel + 1 => do
    if p (← lexCurrent) then
      saveAndNext
      saveWhile p fuel
    else return ()

def buffreplace (old new : UInt8) : Lexing σ N Unit := fun s =>
  .ok ((), { s with buff := s.buff.map fun c => if c = old then new else c })

/-- `luaO_str2d` on the buffer. -/
def convert (locale : Locale N) : Lexing σ N (Option N) := fun s =>
  .ok (luaOStr2d locale (cstr s.buff), s)

def getDecpoint : Lexing σ N UInt8 := fun s => .ok (s.decpoint, s)

def setDecpoint (decpoint : UInt8) : Lexing σ N Unit := fun s => .ok ((), { s with decpoint })

def trydecpoint (locale : Locale N) : Lexing σ N N := do
  let old ← getDecpoint
  setDecpoint locale.decimalPoint
  buffreplace old locale.decimalPoint
  match ← convert locale with
  | some r => return r
  | none => do
    -- undo change (for error message)
    buffreplace locale.decimalPoint 46
    luaXLexerror (bytes "malformed number") .number

def readExponent : Lexing σ N Unit := do
  if ← checkNext (bytes "Ee") then
    -- optional exponent sign
    let _ ← checkNext (bytes "+-")
    return ()
  else return ()

def readNumeral (locale : Locale N) (fuel : Nat) : Lexing σ N N := do
  saveAndNext
  saveWhile (fun c => isdigit c || c = ch '.') fuel
  readExponent
  saveWhile (fun c => isalnum c || c = ch '_') fuel
  lexSave 0
  buffreplace 46 (← getDecpoint)
  match ← convert locale with
  | some r => return r
  | none => trydecpoint locale

def skipEqs : Nat → Int → Lexing σ N Int
  | 0, _ => lexFault
  | fuel + 1, count => do
    if (← lexCurrent) = ch '=' then
      saveAndNext
      skipEqs fuel (count + 1)
    else return count

def skipSep (fuel : Nat) : Lexing σ N Int := do
  let s ← lexCurrent
  saveAndNext
  let count ← skipEqs fuel 0
  return if (← lexCurrent) = s then count else -count - 1

/-- The loop of `read_long_string`; without `seminfo` it is that of a comment. -/
def longStringLoop (seminfo : Bool) (sep : Int) : Nat → Lexing σ N Unit
  | 0 => lexFault
  | fuel + 1 => do
    let c ← lexCurrent
    if c = eoz then
      luaXLexerror (bytes (if seminfo then "unfinished long string" else "unfinished long comment"))
        .eos
    else if c = ch '[' then
      if (← skipSep fuel) = sep then
        saveAndNext
        if sep = 0 then
          luaXLexerror (bytes "nesting of [[...]] is deprecated") (.char 91)
        else longStringLoop seminfo sep fuel
      else longStringLoop seminfo sep fuel
    else if c = ch ']' then
      if (← skipSep fuel) = sep then saveAndNext
      else longStringLoop seminfo sep fuel
    else if currIsNewline c then
      lexSave (ch '\n')
      inclinenumber
      if seminfo then longStringLoop seminfo sep fuel
      else
        resetbuffer
        longStringLoop seminfo sep fuel
    else if seminfo then
      saveAndNext
      longStringLoop seminfo sep fuel
    else
      lexNext
      longStringLoop seminfo sep fuel

/-- The buffer without some characters at its start and at its end. -/
def contents (first both : Nat) : Lexing σ N Bytes := fun s =>
  .ok ((s.buff.drop first).take (s.buff.length - both), s)

def skipNewline : Lexing σ N Unit := do
  if currIsNewline (← lexCurrent) then inclinenumber else return ()

def readLongString (seminfo : Bool) (sep : Int) (fuel : Nat) : Lexing σ N Bytes := do
  saveAndNext
  -- string starts with a newline?
  skipNewline
  longStringLoop seminfo sep fuel
  contents (2 + sep.toNat) (2 * (2 + sep.toNat))

/-- At most so many digits more. -/
def readDecimal : Nat → Int → Lexing σ N Int
  | 0, c => return c
  | left + 1, c => do
    let d ← lexCurrent
    if isdigit d then
      lexNext
      readDecimal left (10 * c + (d - 48))
    else return c

/-- The characters that the letters of escapes stand for. -/
def escapes : List (Int × Int) :=
  [(ch 'a', 7), (ch 'b', 8), (ch 'f', 12), (ch 'n', 10), (ch 'r', 13), (ch 't', 9), (ch 'v', 11)]

/-- What follows a backslash. -/
def readEscape : Lexing σ N Unit := do
  let c ← lexCurrent
  match escapes.lookup c with
  | some c =>
    lexSave c
    lexNext
  | none =>
    if currIsNewline c then
      lexSave (ch '\n')
      inclinenumber
    else if c = eoz then return ()
    else if isdigit c then
      let c ← readDecimal 3 0
      if 255 < c then luaXLexerror (bytes "escape sequence too large") .string
      else lexSave c
    else saveAndNext

def stringLoop (del : Int) : Nat → Lexing σ N Unit
  | 0 => lexFault
  | fuel + 1 => do
    let c ← lexCurrent
    if c = del then return ()
    else if c = eoz then luaXLexerror (bytes "unfinished string") .eos
    else if currIsNewline c then luaXLexerror (bytes "unfinished string") .string
    else if c = ch '\\' then
      lexNext
      readEscape
      stringLoop del fuel
    else
      saveAndNext
      stringLoop del fuel

def readString (del : Int) (fuel : Nat) : Lexing σ N Bytes := do
  saveAndNext
  stringLoop del fuel
  saveAndNext
  contents 1 2

/-- The rest of a short comment. -/
def skipLine : Nat → Lexing σ N Unit
  | 0 => lexFault
  | fuel + 1 => do
    let c ← lexCurrent
    if currIsNewline c || c = eoz then return ()
    else
      lexNext
      skipLine fuel

/-- A comment, after its two hyphens. -/
def readComment (fuel : Nat) : Lexing σ N Unit := do
  if (← lexCurrent) = ch '[' then
    let sep ← skipSep fuel
    resetbuffer
    if 0 ≤ sep then
      let _ ← readLongString false sep fuel
      resetbuffer
    else skipLine fuel
  else skipLine fuel

/-- A character, or a token of two when `=` follows. -/
def orEqual (token : Token N) : Lexing σ N (Token N) := do
  let c ← lexCurrent
  lexNext
  if (← lexCurrent) = ch '=' then
    lexNext
    return token
  else return .char (UInt8.ofNat c.toNat)

def readDots (locale : Locale N) (fuel : Nat) : Lexing σ N (Token N) := do
  saveAndNext
  if ← checkNext (bytes ".") then
    if ← checkNext (bytes ".") then return .dots else return .concat
  else if isdigit (← lexCurrent) then return .number (← readNumeral locale fuel)
  else return .char 46

def readName (fuel : Nat) : Lexing σ N (Token N) := do
  saveAndNext
  saveWhile (fun c => isalnum c || c = ch '_') fuel
  let ts ← contents 0 0
  match reservedWords.find? fun r => r.2 = ts with
  | some r => return .reserved r.1
  | none => return .name ts

def readBracket (fuel : Nat) : Lexing σ N (Token N) := do
  let sep ← skipSep fuel
  if 0 ≤ sep then return .string (← readLongString true sep fuel)
  else if sep = -1 then return .char 91
  else luaXLexerror (bytes "invalid long string delimiter") .string

/-- The loop of `llex`. -/
def llexLoop (locale : Locale N) : Nat → Lexing σ N (Token N)
  | 0 => lexFault
  | fuel + 1 => do
    let c ← lexCurrent
    if currIsNewline c then
      inclinenumber
      llexLoop locale fuel
    else if c = ch '-' then
      lexNext
      if (← lexCurrent) = ch '-' then
        lexNext
        readComment fuel
        llexLoop locale fuel
      else return .char 45
    else if c = ch '[' then readBracket fuel
    else if c = ch '=' then orEqual .eq
    else if c = ch '<' then orEqual .le
    else if c = ch '>' then orEqual .ge
    else if c = ch '~' then orEqual .ne
    else if c = ch '\x22' || c = ch '\x27' then return .string (← readString c fuel)
    else if c = ch '.' then readDots locale fuel
    else if c = eoz then return .eos
    else if isspace c then
      lexNext
      llexLoop locale fuel
    else if isdigit c then return .number (← readNumeral locale fuel)
    else if isalpha c || c = ch '_' then readName fuel
    else
      lexNext
      return .char (UInt8.ofNat c.toNat)

def llex (locale : Locale N) (fuel : Nat) : Lexing σ N (Token N) := do
  resetbuffer
  llexLoop locale fuel

def startToken : Lexing σ N Unit := fun s => .ok ((), { s with lastline := s.linenumber })

def getLookahead : Lexing σ N (Token N) := fun s => .ok (s.lookahead, s)

def setLookahead (lookahead : Token N) : Lexing σ N Unit := fun s => .ok ((), { s with lookahead })

def setToken (t : Token N) : Lexing σ N Unit := fun s => .ok ((), { s with t })

def luaXNext (locale : Locale N) (fuel : Nat) : Lexing σ N Unit := do
  startToken
  match ← getLookahead with
  | .eos => setToken (← llex locale fuel)
  | t =>
    setToken t
    setLookahead .eos

def luaXLookahead (locale : Locale N) (fuel : Nat) : Lexing σ N Unit := do
  setLookahead (← llex locale fuel)

/-- What the parser does with the lexer. -/
inductive LexCall where
  | next
  | lookahead
  deriving DecidableEq, Repr

/-- What the parser looks at. -/
structure Seen (N : Type) where
  t : Token N
  lookahead : Token N
  linenumber : Nat
  lastline : Nat

def look : Lexing σ N (Seen N) := fun s =>
  .ok (⟨s.t, s.lookahead, s.linenumber, s.lastline⟩, s)

def lexCall (locale : Locale N) (fuel : Nat) : LexCall → Lexing σ N (Seen N)
  | .next => do
    luaXNext locale fuel
    look
  | .lookahead => do
    luaXLookahead locale fuel
    look

def lexCalls (locale : Locale N) (fuel : Nat) : List LexCall → Lexing σ N (List (Seen N))
  | [] => return []
  | call :: calls => do
    let first ← lexCall locale fuel call
    let rest ← lexCalls locale fuel calls
    return first :: rest

def lexStart (source : σ) : LexState σ N := ⟨source, 1, 1, .eos, .eos, [], 46⟩

/-- The state for a stream, of which the first character is read. -/
def luaXSetinput (z : Zio) : Option (LexState ZioChars N) :=
  (zgetc z).map fun (c, z) => lexStart ⟨c, z⟩

end Actions

end DriverSF
