import RowFlips.Log.Corruption
import RowFlips.Targets

/-!
# What can go wrong

Errors are causes. Every text that a user sees for one is made here, by the `message` functions.
-/

namespace RowFlips

/-! ### Lines of a log -/

/-- The numbers that a line of a log is made of. -/
inductive Field where
  | channel | dimm | rank | bank | row | column
  | offset | observed | expected
deriving DecidableEq, Repr

namespace Field

/-- What the field is called. -/
def name : Field → String
  | channel => "channel"
  | dimm => "DIMM"
  | rank => "rank"
  | bank => "bank"
  | row => "row"
  | column => "column"
  | offset => "offset"
  | observed => "observed byte"
  | expected => "expected byte"

/-- How many values the field has. -/
def size : Field → Nat
  | row | column => UInt16.size
  | offset => UInt32.size
  | _ => UInt8.size

end Field

/-- Why a text is not an address, a corruption or a line of a log. -/
inductive Malformed where
  /-- An address with `count` fields between its parentheses. -/
  | fieldCount (count : Nat) (inner : List Char)
  /-- A field that is not a 64 bit hexadecimal numeral. -/
  | notHex (field : Field) (digits : List Char)
  /-- A numeral too great for its field. -/
  | outOfRange (field : Field) (digits : List Char)
  /-- Text that starts neither an address nor a corruption. -/
  | unexpected (rest : List Char)
  /-- A line without a colon. -/
  | missingColon
  /-- A corruption before the colon. -/
  | corruptionAmongTargets (c : Corruption)
  /-- Nothing before the colon. -/
  | noTarget
  /-- A victim that no corruption follows. -/
  | victimWithoutCorruptions (victim : Address)
  /-- A corruption that no victim precedes. -/
  | corruptionWithoutVictim (c : Corruption)
  /-- A corruption that lies past the last column of its row. -/
  | pastLastColumn (offset : UInt32) (column : UInt16)
deriving DecidableEq, Repr

/-- The text of the cause. -/
def Malformed.message : Malformed → String
  | fieldCount count inner =>
    "expected 5 or 6 address fields, got " ++ toString count ++ " in '(" ++
      String.ofList inner ++ ")'"
  | notHex field digits => "invalid hex " ++ field.name ++ " '" ++ String.ofList digits ++ "'"
  | outOfRange field digits => field.name ++ " '" ++ String.ofList digits ++ "' out of range"
  | unexpected rest => "unexpected input '" ++ String.ofList rest ++ "'"
  | missingColon => "missing ':' between targets and victims"
  | corruptionAmongTargets c => "corruption " ++ toString c ++ " among targets"
  | noTarget => "no target address"
  | victimWithoutCorruptions victim => "victim " ++ toString victim ++ " without corruptions"
  | corruptionWithoutVictim c => "corruption " ++ toString c ++ " without victim"
  | pastLastColumn offset column =>
    "offset 0x" ++ String.ofList (Hex.digits offset.toNat) ++ " from column 0x" ++
      String.ofList (Hex.digits column.toNat) ++ " is past the last column"

/-! ### Targets -/

/-- Why targets do not fit a log or a table. -/
inductive TargetFault where
  /-- Neither one row nor two. -/
  | count (n : Nat)
  /-- Two rows that are not as far apart as the reader asks. -/
  | distance (t : Targets) (expected : Int)
  /-- Two rows that give no distance for a whole table, the second below the first. -/
  | negative (t : Targets)
  /-- Two rows that are not as far apart as the rest of the table, or not in one bank and column. -/
  | inconsistent (t : Targets) (expected : UInt32)
deriving DecidableEq, Repr

/-- The text of the cause. -/
def TargetFault.message : TargetFault → String
  | count n => "Unsupported hammering pattern with " ++ toString n ++ " targets"
  | distance t expected =>
    "target distance " ++ toString t.distance ++ " of " ++ toString t ++ ", expected " ++
      toString expected
  | negative t => "negative target distance in " ++ toString t
  | inconsistent t expected =>
    "Inconsistent target distance: " ++ toString t ++ ", expected " ++ toString expected.toNat

/-! ### Binary images -/

/-- The tables of a binary image. -/
inductive Section where
  | range | hammering | flip
deriving DecidableEq, Repr

namespace Section

/-- What the table is called. -/
def name : Section → String
  | range => "range"
  | hammering => "hammering"
  | flip => "flip"

/-- The bytes of one record of the table. -/
def recordSize : Section → Nat
  | range => 16
  | hammering => 8
  | flip => 12

end Section

/-- The counts that an image stores in 32 bits. -/
inductive Counted where
  | hammerings | flipRecords
deriving DecidableEq, Repr

/-- What is counted. -/
def Counted.name : Counted → String
  | hammerings => "hammerings"
  | flipRecords => "flip records"

/-- Why bytes are not an image, or attacks do not fit one. -/
inductive ImageFault where
  /-- Fewer bytes than a header has. -/
  | tooShort (size : Nat)
  /-- A first word other than the magic number. -/
  | badMagic (magic : UInt32)
  /-- A header that gives another size than the file has. -/
  | sizeMismatch (stated : UInt64) (actual : Nat)
  /-- A table that does not start at a multiple of the alignment, or starts inside the header. -/
  | misaligned (table : Section) (offset : UInt64)
  /-- A table that ends after the file. -/
  | pastEnd (table : Section) (count : UInt32) (offset size : UInt64)
  /-- A range with hammerings that the image does not have. -/
  | rangeOutside (index : Nat)
  /-- A hammering with flip records that the image does not have. -/
  | hammeringOutside (index : Nat)
  /-- A byte number too great for a flip record. -/
  | cellByte (byte : UInt32)
  /-- A count too great for its field. -/
  | tooMany (what : Counted) (n : Nat)
deriving DecidableEq, Repr

/-- The text of the cause. -/
def ImageFault.message : ImageFault → String
  | tooShort size => "file too short for header: " ++ toString size ++ " bytes"
  | badMagic magic => "bad magic 0x" ++ String.ofList (Hex.padded 8 magic.toNat)
  | sizeMismatch stated actual =>
    "header size " ++ toString stated.toNat ++ " does not match file size " ++ toString actual
  | misaligned table offset =>
    "misaligned " ++ table.name ++ " section at " ++ toString offset.toNat
  | pastEnd table count offset size =>
    table.name ++ " section (" ++ toString count.toNat ++ " records at " ++ toString offset.toNat ++
      ") exceeds file size " ++ toString size.toNat
  | rangeOutside index => "range " ++ toString index ++ " points past hammering table"
  | hammeringOutside index => "hammering " ++ toString index ++ " points past flip table"
  | cellByte byte => "cell byte " ++ toString byte.toNat ++ " out of range"
  | tooMany what n => "too many " ++ what.name ++ ": " ++ toString n

/-! ### Files -/

/-- Why a file cannot be read or written. -/
inductive FileFault where
  /-- There is nothing of this name. -/
  | missing
  /-- The name is that of a directory. -/
  | isDirectory
  /-- A part of the path before the last is not a directory. -/
  | notDirectory
  /-- The file may not be read or written. -/
  | denied
  /-- The path, or a part of it, is longer than the system allows. -/
  | nameTooLong
  /-- The size cannot be set beforehand, since it is not that of a file. -/
  | notSizable
  /-- There is no space for what is written. -/
  | noSpace
  /-- The content is not UTF-8. -/
  | notText
deriving DecidableEq, Repr

/-- The text of the cause. -/
def FileFault.message : FileFault → String
  | missing => "No such file or directory (os error 2)"
  | isDirectory => "Is a directory (os error 21)"
  | notDirectory => "Not a directory (os error 20)"
  | denied => "Permission denied (os error 13)"
  | nameTooLong => "File name too long (os error 36)"
  | notSizable => "Invalid argument (os error 22)"
  | noSpace => "No space left on device (os error 28)"
  | notText => "stream did not contain valid UTF-8"

/-! ### All errors -/

/-- An error of the library. -/
inductive Error where
  /-- A malformed line of a log; the line number is 0 for a line on its own. -/
  | parse (line : Nat) (cause : Malformed)
  /-- Targets that do not fit, in a line of a log if one is given. -/
  | targets (line : Option Nat) (cause : TargetFault)
  /-- A malformed binary image. -/
  | image (cause : ImageFault)
  /-- Attacks put together though their targets differ. -/
  | mismatched (left right : Targets)
  /-- A file that cannot be read or written. -/
  | file (cause : FileFault)
  /-- A configuration file that does not hold a configuration. -/
  | config
deriving DecidableEq, Repr

namespace Error

/-- The text of the error. -/
def message : Error → String
  | parse line cause => "Parse error on line " ++ toString line ++ ": " ++ cause.message
  | targets none cause => "Inconsistent targets: " ++ cause.message
  | targets (some line) cause =>
    "Inconsistent targets: line " ++ toString line ++ ": " ++ cause.message
  | image cause => "Invalid fliptable file: " ++ cause.message
  | mismatched left right => "Mismatched targets: " ++ toString left ++ " vs " ++ toString right
  | file cause => cause.message
  | config => "not a configuration"

/-- The error with the number of the line it arose on, if it is one that a line can cause. -/
def atLine (line : Nat) : Error → Error
  | parse _ cause => parse line cause
  | targets _ cause => targets (some line) cause
  | e => e

end Error

end RowFlips
