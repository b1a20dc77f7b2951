/-!
# Parentheses

`parenthesized` puts text in parentheses unless one pair of them encloses it
already.  A pair encloses the text when the first character opens it and no
earlier character than the last one closes it.
-/

namespace Shading

/-- Whether the parentheses open before a character are all closed by one that is
not the last.  `depth` of them are open before the text. -/
def closesEarly (depth : Nat) : List Char → Bool
  | [] => false
  | '(' :: rest => closesEarly (depth + 1) rest
  | ')' :: rest => (depth - 1 = 0 && !rest.isEmpty) || closesEarly (depth - 1) rest
  | _ :: rest => closesEarly depth rest

/-- Whether one pair of parentheses encloses text. -/
def isEnclosed (text : List Char) : Bool :=
  text.head? = some '(' && text.getLast? = some ')' && !closesEarly 0 text

/-- Text that one pair of parentheses encloses. -/
def parenthesized (text : String) : String :=
  if isEnclosed text.toList then text else "(" ++ text ++ ")"

/-- Text that is enclosed already stays as it is. -/
theorem parenthesized_of_isEnclosed {text : String} (h : isEnclosed text.toList = true) :
    parenthesized text = text := by simp [parenthesized, h]

end Shading
