import RowFlips.Json.Basic
import RowFlips.Json.Token

/-!
# Reading JSON texts

Tokens are taken one by one while the arrays and objects that they stand in are held in a list,
the innermost first, so values may be nested to any depth.
-/

namespace RowFlips.Json

/-- An array or object in the making, its parts so far in reverse order. -/
inductive Frame where
  | array (done : List Json)
  /-- An object, with the name of the member whose value is being read. -/
  | object (done : List (Option String × Json)) (name : Option String)

/-- What may come next. -/
inductive Expected where
  | value
  /-- A value or the end of an empty array. -/
  | firstElement
  /-- A name or the end of an empty object. -/
  | firstName
  /-- A name, in an object with members. -/
  | name (done : List (Option String × Json))
  /-- The colon after a name. -/
  | colon (done : List (Option String × Json)) (name : Option String)
  /-- What may follow a value. -/
  | follower (v : Json)

/-- What may come after a token that starts a value. -/
def startValue? (frames : List Frame) : Token → Option (List Frame × Expected)
  | .null => some (frames, .follower .null)
  | .true => some (frames, .follower (.bool true))
  | .false => some (frames, .follower (.bool false))
  | .number literal => some (frames, .follower (.number literal))
  | .string text => some (frames, .follower (.string text))
  | .openBracket => some (.array [] :: frames, .firstElement)
  | .openBrace => some (frames, .firstName)
  | _ => none

/-- What may come after a token that follows the value `v`. -/
def endValue? (v : Json) : List Frame → Token → Option (List Frame × Expected)
  | .array done :: frames, .comma => some (.array (v :: done) :: frames, .value)
  | .array done :: frames, .closeBracket =>
    some (frames, .follower (.array (v :: done).reverse))
  | .object done name :: frames, .comma => some (frames, .name ((name, v) :: done))
  | .object done name :: frames, .closeBrace =>
    some (frames, .follower (.object ((name, v) :: done).reverse))
  | _, _ => none

/-- What may come after a token. -/
def step? (frames : List Frame) : Expected → Token → Option (List Frame × Expected)
  | .value, t => startValue? frames t
  | .firstElement, .closeBracket => some (frames.tail, .follower (.array []))
  | .firstElement, t => startValue? frames t
  | .firstName, .closeBrace => some (frames, .follower (.object []))
  | .firstName, .string name => some (frames, .colon [] name)
  | .name done, .string name => some (frames, .colon done name)
  | .colon done name, .colon => some (.object done name :: frames, .value)
  | .follower v, t => endValue? v frames t
  | _, _ => none

/-- The value that tokens spell. -/
def ofTokens? : List Frame → Expected → List Token → Option Json
  | [], .follower v, [] => some v
  | _, _, [] => none
  | frames, expected, t :: ts =>
    match step? frames expected t with
    | none => none
    | some (frames, expected) => ofTokens? frames expected ts

/-- The value of a JSON text; `none` if the text is not one. -/
def parse? (cs : List Char) : Option Json := (Token.readAll? [] cs).bind (ofTokens? [] .value)

end RowFlips.Json
