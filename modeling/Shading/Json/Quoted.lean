/-!
# Strings in JSON text

`escape` writes a quote and a backslash with a backslash before them and control
characters by their code.  `unescape` reads these forms and the other short
forms, and it joins the two halves of a surrogate pair.  Half a pair is refused.
-/

namespace Shading.Json

/-- The value of a hexadecimal digit. -/
def hexValue? (c : Char) : Option Nat :=
  if c.isDigit then some (c.toNat - '0'.toNat)
  else if 'a' ≤ c ∧ c ≤ 'f' then some (c.toNat - 'a'.toNat + 10)
  else if 'A' ≤ c ∧ c ≤ 'F' then some (c.toNat - 'A'.toNat + 10)
  else none

/-- The first half of a surrogate pair. -/
def isHighHalf (unit : Nat) : Bool := 0xD800 ≤ unit && unit < 0xDC00

/-- The second half of a surrogate pair. -/
def isLowHalf (unit : Nat) : Bool := 0xDC00 ≤ unit && unit < 0xE000

/-- The character that a surrogate pair stands for. -/
def joinHalves (high low : Nat) : Char :=
  Char.ofNat (0x10000 + (high - 0xD800) * 0x400 + (low - 0xDC00))

/-- The character that one letter behind a backslash stands for. -/
def shortEscape? : Char → Option Char
  | '"' => some '"'
  | '\\' => some '\\'
  | '/' => some '/'
  | 'b' => some '\x08'
  | 'f' => some '\x0c'
  | 'n' => some '\n'
  | 'r' => some '\r'
  | 't' => some '\t'
  | _ => none

/-! ## Reading -/

/-- Where in an escape reading is. -/
inductive Escape where
  /-- In no escape. -/
  | none
  /-- Behind a backslash. -/
  | backslash
  /-- Before some more digits of a code.  The code may be the second half of a pair. -/
  | digits (high : Option Nat) (left value : Nat)
  /-- Behind the first half of a pair. -/
  | half (high : Nat)
  /-- Behind the backslash of the second half of a pair. -/
  | halfBackslash (high : Nat)
deriving DecidableEq

namespace Escape

/-- The character of a complete code, or the first half of a pair. -/
def ofCode (high : Option Nat) (code : Nat) : Option (List Char × Escape) :=
  match high with
  | some high => if isLowHalf code then some ([joinHalves high code], .none) else Option.none
  | Option.none =>
    if isHighHalf code then some ([], .half code)
    else if isLowHalf code then Option.none
    else some ([Char.ofNat code], .none)

/-- The characters that are complete with one more character. -/
def step (c : Char) : Escape → Option (List Char × Escape)
  | .none =>
    if c = '\\' then some ([], .backslash)
    else if c.toNat < 0x20 then Option.none
    else some ([c], .none)
  | .backslash =>
    if c = 'u' then some ([], .digits Option.none 3 0)
    else (shortEscape? c).map fun c => ([c], .none)
  | .digits high left value => do
    let digit ← hexValue? c
    if left = 0 then ofCode high (value * 16 + digit)
    else some ([], .digits high (left - 1) (value * 16 + digit))
  | .half high => if c = '\\' then some ([], .halfBackslash high) else Option.none
  | .halfBackslash high => if c = 'u' then some ([], .digits (some high) 3 0) else Option.none

end Escape

/-- The characters of a string from what stands between its quotes, in an escape. -/
def unescapeFrom : Escape → List Char → Option (List Char)
  | escape, [] => if escape = .none then some [] else none
  | escape, c :: rest => do
    let (done, escape) ← escape.step c
    return done ++ (← unescapeFrom escape rest)

/-- The characters of a string from what stands between its quotes. -/
def unescape (text : List Char) : Option (List Char) := unescapeFrom .none text

/-! ## Writing -/

/-- A hexadecimal digit. -/
def hexDigit (value : Nat) : Char := Nat.digitChar value

/-- A character as it stands between quotes. -/
def escapeChar (c : Char) : List Char :=
  if c = '"' then ['\\', '"']
  else if c = '\\' then ['\\', '\\']
  else if c.toNat < 0x20 then
    ['\\', 'u', '0', '0', hexDigit (c.toNat / 16), hexDigit (c.toNat % 16)]
  else [c]

/-- What stands between the quotes of a string. -/
def escape (text : List Char) : List Char := text.flatMap escapeChar

example : unescape "a\\n\\u00e9\\ud83d\\ude00".toList = some "a\né😀".toList := by decide
example : unescape "\\ud83d".toList = none := by decide
example : unescape (escape "\"\\\x01é".toList) = some "\"\\\x01é".toList := by decide

end Shading.Json
