import Concatenative.Settings.Basic
import Concatenative.Text.Hex

/-! Settings documents. A line is blank, or sets one key to `true` or `false`; a number sign starts
a comment. Keys are bare words, or stand in double quotes, with escapes, or in single quotes,
without. No key is set twice. -/

namespace Concatenative.Settings

/-- Why there are no settings. -/
inductive LoadError where
  /-- The text is not a settings document. -/
  | malformed
  /-- There is no file of that name. -/
  | absent (path : String)
  /-- The contents of the file are not a text. -/
  | notText (path : String)
  deriving DecidableEq

def LoadError.message : LoadError → String
  | .malformed => "failed to parse config"
  | .absent path => "failed to read config " ++ path ++ ": No such file or directory (os error 2)"
  | .notText path => "failed to read config " ++ path ++ ": stream did not contain valid UTF-8"

def isBlank (c : Char) : Bool := c = ' ' || c = '\t'

/-- The characters of a bare key. -/
def isBare (c : Char) : Bool := c.isAlphanum || c = '_' || c = '-'

/-- The characters that may stand in a comment: no control characters but the tab. -/
def isVisible (c : Char) : Bool := c = '\t' || 0x20 ≤ c.toNat && c.toNat ≠ 0x7f

/-- The character whose code point has the given hexadecimal digits. -/
def hexChar? (digits : List Char) : Option Char := do
  let code ← Text.hexNumber? digits
  if code.isValidChar then some (Char.ofNat code) else none

/-- The character of a one-letter escape. -/
def escape? : Char → Option Char
  | 'b' => some '\x08'
  | 't' => some '\t'
  | 'n' => some '\n'
  | 'f' => some '\x0c'
  | 'r' => some '\r'
  | '"' => some '"'
  | '\\' => some '\\'
  | _ => none

/-- The contents of a key in double quotes, from behind the opening quote, and the rest of the line
behind the closing one. -/
def quotedKey? : List Char → Option (List Char × List Char)
  | [] => none
  | '"' :: rest => some ([], rest)
  | '\\' :: 'u' :: a :: b :: c :: d :: rest => do
    let (key, rest) ← quotedKey? rest
    return ((← hexChar? [a, b, c, d]) :: key, rest)
  | '\\' :: 'U' :: a :: b :: c :: d :: e :: f :: g :: h :: rest => do
    let (key, rest) ← quotedKey? rest
    return ((← hexChar? [a, b, c, d, e, f, g, h]) :: key, rest)
  | '\\' :: c :: rest => do
    let (key, rest) ← quotedKey? rest
    return ((← escape? c) :: key, rest)
  | c :: rest => do
    let (key, rest) ← quotedKey? rest
    if isVisible c then return (c :: key, rest) else none

/-- The contents of a key in single quotes, from behind the opening quote, and the rest of the line
behind the closing one. -/
def literalKey? (cs : List Char) : Option (List Char × List Char) :=
  match cs.dropWhile (· ≠ '\'') with
  | [] => none
  | _ :: rest =>
    let key := cs.takeWhile (· ≠ '\'')
    if key.all isVisible then some (key, rest) else none

/-- The key at the start of a line and the rest of the line. -/
def key? : List Char → Option (List Char × List Char)
  | '"' :: rest => quotedKey? rest
  | '\'' :: rest => literalKey? rest
  | cs =>
    let key := cs.takeWhile isBare
    if key.isEmpty then none else some (key, cs.dropWhile isBare)

/-- The truth value at the start of a text and the rest of it. -/
def truth? : List Char → Option (Bool × List Char)
  | 't' :: 'r' :: 'u' :: 'e' :: rest => some (true, rest)
  | 'f' :: 'a' :: 'l' :: 's' :: 'e' :: rest => some (false, rest)
  | _ => none

/-- Whether nothing but blanks and a comment is left of a line. -/
def isSpent (cs : List Char) : Bool :=
  match cs.dropWhile isBlank with
  | [] => true
  | '#' :: comment => comment.all isVisible
  | _ => false

/-- The key and the value of a line that sets one, or nothing if the line is blank. -/
def entry? (line : List Char) : Option (Option (String × Bool)) :=
  if isSpent line then some none
  else do
    let (key, rest) ← key? (line.dropWhile isBlank)
    match rest.dropWhile isBlank with
    | '=' :: rest =>
      let (value, rest) ← truth? (rest.dropWhile isBlank)
      if isSpent rest then some (some (String.ofList key, value)) else none
    | _ => none

/-- The lines of a text. A line ends in a line feed, with or without a carriage return before it. -/
def linesOf : List Char → List (List Char)
  | [] => [[]]
  | '\n' :: rest => [] :: linesOf rest
  | '\r' :: '\n' :: rest => [] :: linesOf rest
  | c :: rest =>
    match linesOf rest with
    | [] => [[c]]
    | line :: lines => (c :: line) :: lines

/-- The text without the mark that may start it. -/
def withoutMark : List Char → List Char
  | '\ufeff' :: cs => cs
  | cs => cs

/-- Sets one key after another. A key must be known, and it must not have been set before. -/
def setAll (s : Settings) (done : List Setting) : List (String × Bool) → Option Settings
  | [] => some s
  | (key, value) :: rest =>
    match Setting.ofKey? key with
    | none => none
    | some setting =>
      if setting ∈ done then none
      else setAll (s.set setting value) (setting :: done) rest

/-- Reads a settings document. Keys that it does not set keep their defaults. -/
def parse (text : String) : Except LoadError Settings :=
  let entries := (linesOf (withoutMark text.toList)).mapM entry?
  match entries.bind fun entries => setAll {} [] (entries.filterMap id) with
  | some settings => .ok settings
  | none => .error .malformed

/-- Settings from the contents of a file, or from its absence. -/
def load (path : String) (contents : Option ByteArray) : Except LoadError Settings :=
  match contents with
  | none => .error (.absent path)
  | some bytes =>
    match String.fromUTF8? bytes with
    | none => .error (.notText path)
    | some text => parse text

end Concatenative.Settings
