import Shading.Json.Token

/-!
# JSON text

`Json.ofText?` reads a value from text and `Json.text` writes one.  Values are
read one token at a time.  What is open around the place of reading is kept on a
stack, so reading ends with the tokens.  Of two members with one name an object
keeps the later value.
-/

namespace Shading.Json

/-! ## Reading -/

/-- An array or an object that is open around the value being read. -/
inductive Frame where
  /-- The items before the value, in reverse. -/
  | array (items : List Json)
  /-- The members before the value, and the value's own name. -/
  | object (members : List (String × Json)) (name : String)

/-- What the next token has to be. -/
inductive Expecting where
  /-- A value. -/
  | anyValue (frames : List Frame)
  /-- An array's first item or its end. -/
  | firstItem (frames : List Frame)
  /-- A comma or the end of an array. -/
  | nextItem (items : List Json) (frames : List Frame)
  /-- An object's first name or its end. -/
  | firstName (frames : List Frame)
  /-- A name behind a comma. -/
  | nextName (members : List (String × Json)) (frames : List Frame)
  /-- The colon behind a name. -/
  | colon (members : List (String × Json)) (name : String) (frames : List Frame)
  /-- A comma or the end of an object. -/
  | nextMember (members : List (String × Json)) (frames : List Frame)
  /-- Nothing more. -/
  | finished (value : Json)

namespace Expecting

/-- Puts a value where it belongs. -/
def put (value : Json) : List Frame → Expecting
  | [] => .finished value
  | .array items :: frames => .nextItem (value :: items) frames
  | .object members name :: frames => .nextMember (setMember name value members) frames

/-- Reads the first token of a value. -/
def startValue (frames : List Frame) : Token → Option Expecting
  | .leftBrace => some (.firstName frames)
  | .leftBracket => some (.firstItem frames)
  | .null => some (put .null frames)
  | .bool value => some (put (.bool value) frames)
  | .number value => some (put (.number value) frames)
  | .string value => some (put (.string value) frames)
  | .rightBrace | .rightBracket | .comma | .colon => none

/-- Reads a token. -/
def step : Expecting → Token → Option Expecting
  | .anyValue frames, token => startValue frames token
  | .firstItem frames, .rightBracket => some (put (.array []) frames)
  | .firstItem frames, token => startValue (.array [] :: frames) token
  | .nextItem items frames, .comma => some (.anyValue (.array items :: frames))
  | .nextItem items frames, .rightBracket => some (put (.array items.reverse) frames)
  | .firstName frames, .rightBrace => some (put (.object []) frames)
  | .firstName frames, .string name => some (.colon [] name frames)
  | .nextName members frames, .string name => some (.colon members name frames)
  | .colon members name frames, .colon => some (.anyValue (.object members name :: frames))
  | .nextMember members frames, .comma => some (.nextName members frames)
  | .nextMember members frames, .rightBrace => some (put (.object members) frames)
  | _, _ => none

/-- The value that was read, if it is complete. -/
def value? : Expecting → Option Json
  | .finished value => some value
  | _ => none

end Expecting

/-- A value from its tokens. -/
def ofTokens? (tokens : List Token) : Option Json := do
  (← tokens.foldlM Expecting.step (.anyValue [])).value?

/-- A value from its text. -/
def ofText? (text : String) : Option Json := do ofTokens? (← tokens? text.toList)

/-! ## Writing -/

/-- A string in quotes. -/
def quoted (text : String) : String := "\"" ++ String.ofList (escape text.toList) ++ "\""

mutual

/-- The text of a value. -/
def text : Json → String
  | .null => "null"
  | .bool value => if value then "true" else "false"
  | .number value => value.text
  | .string value => quoted value
  | .array items => "[" ++ itemsText items ++ "]"
  | .object members => "\x7b" ++ membersText members ++ "\x7d"

/-- Items with commas between them. -/
def itemsText : List Json → String
  | [] => ""
  | [item] => text item
  | item :: rest => text item ++ "," ++ itemsText rest

/-- Members with commas between them. -/
def membersText : List (String × Json) → String
  | [] => ""
  | [(name, value)] => quoted name ++ ":" ++ text value
  | (name, value) :: rest => quoted name ++ ":" ++ text value ++ "," ++ membersText rest

end

end Shading.Json
