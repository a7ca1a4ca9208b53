/-!
# Bytes and text

Files are bytes, and text is stored in them as UTF-8. The lines of a file are separated by line
feeds; a carriage return right before a line feed belongs to the line end. What follows the last
line feed is a line of its own unless it is empty.

## Main results

* `decode?_encode`: text survives being stored.
-/

namespace RowFlips.Text

/-- The bytes of a file. -/
abbrev Bytes := List UInt8

/-! ### UTF-8 -/

/-- The bytes that store a text. -/
def encode (s : List Char) : Bytes := s.flatMap String.utf8EncodeChar

/-- The text that bytes store; `none` if they are not well-formed UTF-8. -/
def decode? (b : Bytes) : Option (List Char) := b.toByteArray.utf8Decode?.map Array.toList

/-- Stored text reads back as itself. -/
theorem decode?_encode (s : List Char) : decode? (encode s) = some s := by
  have h : (encode s).toByteArray = s.utf8Encode := rfl
  rw [decode?, h, List.utf8Decode?_utf8Encode]
  simp

/-! ### Lines -/

/-- A line, last byte first, without the carriage return at its end. -/
def dropReturn : Bytes → Bytes
  | 13 :: line => line
  | line => line

/-- The lines of a file, where `line` holds the bytes of a line begun before it, the last one
first. -/
def linesFrom (line : Bytes) : Bytes → List Bytes
  | [] => if line.isEmpty then [] else [line.reverse]
  | b :: rest =>
    if b = 10 then (dropReturn line).reverse :: linesFrom [] rest else linesFrom (b :: line) rest

/-- The lines of a file, without their line ends. -/
def lines (content : Bytes) : List Bytes := linesFrom [] content

end RowFlips.Text
