import Shading.Json.Number
import Shading.Json.Quoted

/-!
# Tokens of JSON text

Text is read one character at a time.  Between tokens only blanks stand.  A word
is a run of characters that are neither blank nor punctuation, and it is a number
or one of three names.  A string ends at the first quote that no backslash
precedes.
-/

namespace Shading.Json

/-- A token. -/
inductive Token where
  | leftBrace
  | rightBrace
  | leftBracket
  | rightBracket
  | comma
  | colon
  | null
  | bool (value : Bool)
  | number (value : Number)
  | string (value : String)
deriving DecidableEq, Repr

namespace Token

/-- The characters that may stand between tokens. -/
def isBlank (c : Char) : Bool := c = ' ' || c = '\t' || c = '\n' || c = '\r'

/-- The token that is a single character. -/
def punctuation? : Char → Option Token
  | '\x7b' => some .leftBrace
  | '\x7d' => some .rightBrace
  | '[' => some .leftBracket
  | ']' => some .rightBracket
  | ',' => some .comma
  | ':' => some .colon
  | _ => none

/-- The token of a word. -/
def ofWord? (word : List Char) : Option Token :=
  if word = ['n', 'u', 'l', 'l'] then some .null
  else if word = ['t', 'r', 'u', 'e'] then some (.bool true)
  else if word = ['f', 'a', 'l', 's', 'e'] then some (.bool false)
  else (Number.ofText? word).map .number

/-- The token of a string, from what stands between its quotes. -/
def ofQuoted? (text : List Char) : Option Token :=
  (unescape text).map fun chars => .string (String.ofList chars)

end Token

/-! ## Scanning -/

/-- The token that is being read.  Its characters are kept in reverse. -/
inductive Unfinished where
  | nothing
  | word (chars : List Char)
  | quoted (chars : List Char)
  /-- A string behind a backslash. -/
  | escaped (chars : List Char)

/-- The tokens read so far, in reverse, and the one being read. -/
structure Scan where
  tokens : List Token
  unfinished : Unfinished

namespace Scan

/-- Reads a character between tokens. -/
def start (tokens : List Token) (c : Char) : Scan :=
  if Token.isBlank c then ⟨tokens, .nothing⟩
  else if c = '"' then ⟨tokens, .quoted []⟩
  else
    match Token.punctuation? c with
    | some token => ⟨token :: tokens, .nothing⟩
    | none => ⟨tokens, .word [c]⟩

/-- Whether a character ends a word. -/
def endsWord (c : Char) : Bool := Token.isBlank c || c = '"' || (Token.punctuation? c).isSome

/-- Reads a character. -/
def step (s : Scan) (c : Char) : Option Scan :=
  match s.unfinished with
  | .nothing => some (start s.tokens c)
  | .word chars =>
    if endsWord c then
      (Token.ofWord? chars.reverse).map fun token => start (token :: s.tokens) c
    else some ⟨s.tokens, .word (c :: chars)⟩
  | .quoted chars =>
    if c = '"' then (Token.ofQuoted? chars.reverse).map fun token => ⟨token :: s.tokens, .nothing⟩
    else if c = '\\' then some ⟨s.tokens, .escaped (c :: chars)⟩
    else some ⟨s.tokens, .quoted (c :: chars)⟩
  | .escaped chars => some ⟨s.tokens, .quoted (c :: chars)⟩

/-- The tokens at the end of the text. -/
def finish (s : Scan) : Option (List Token) :=
  match s.unfinished with
  | .nothing => some s.tokens.reverse
  | .word chars => (Token.ofWord? chars.reverse).map fun token => (token :: s.tokens).reverse
  | .quoted _ | .escaped _ => none

end Scan

/-- The tokens of a text. -/
def tokens? (text : List Char) : Option (List Token) := do
  (← text.foldlM Scan.step ⟨[], .nothing⟩).finish

end Shading.Json
