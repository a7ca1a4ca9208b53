/-!
# Command line arguments

Arguments are options and others, in any order. An option has a long name after two dashes and may
have a letter after one dash. Its value follows as the next argument, or in the same one after an
equals sign; after a letter it may also follow at once. An argument of two dashes ends the options.
-/

namespace RowFlips

/-- An option that a tool knows. -/
structure CommandOption where
  /-- The long name. -/
  name : String
  /-- The letter, if there is one. -/
  letter : Option Char
  /-- The option has a value. -/
  hasValue : Bool

/-- The arguments of a tool, taken apart. -/
structure Arguments where
  /-- The arguments that are not options, in order. -/
  others : List String
  /-- The options given by long name, with their values; those without a value have an empty one. -/
  options : List (String × String)

namespace Arguments

/-- The value of an option. -/
def value? (a : Arguments) (name : String) : Option String := a.options.lookup name

/-- The arguments with an option added; `none` if it was given before. -/
def addOption? (a : Arguments) (name value : String) : Option Arguments :=
  if (a.value? name).isSome then none
  else some { a with options := a.options ++ [(name, value)] }

/-- The arguments with one added that is not an option. -/
def addOther (a : Arguments) (other : String) : Arguments :=
  { a with others := a.others ++ [other] }

/-- What an argument is. -/
inductive Kind where
  /-- Not an option. -/
  | other
  /-- An option, with its value if it has one in the same argument. -/
  | option (o : CommandOption) (value : Option String)
  /-- An option that the tool does not know. -/
  | unknown

/-- The option of a long name. -/
def longKind (known : List CommandOption) (name : List Char) (value : Option String) : Kind :=
  match known.find? fun o => o.name.toList = name with
  | none => .unknown
  | some o => .option o value

/-- What an argument is, given its characters. -/
def kind (known : List CommandOption) : List Char → Kind
  | '-' :: '-' :: cs =>
    match cs.dropWhile (· != '=') with
    | [] => longKind known cs none
    | _ :: value => longKind known (cs.takeWhile (· != '=')) (some (String.ofList value))
  | '-' :: c :: cs =>
    match known.find? fun o => o.letter = some c with
    | none => .unknown
    | some o =>
      match cs with
      | [] => .option o none
      | '=' :: value => .option o (some (String.ofList value))
      | value => .option o (some (String.ofList value))
  | _ => .other

/-- The argument may be the value of the option before it. -/
def isValue (arg : String) : Bool :=
  match arg.toList with
  | '-' :: _ :: _ => false
  | _ => true

/-- The arguments added to those taken apart already; `none` if they cannot be. -/
def addAll? (known : List CommandOption) (a : Arguments) : List String → Option Arguments
  | [] => some a
  | arg :: args =>
    if arg = "--" then some { a with others := a.others ++ args }
    else
      match kind known arg.toList with
      | .unknown => none
      | .other => (a.addOther arg).addAll? known args
      | .option o value =>
        match o.hasValue, value, args with
        | true, some value, args => (a.addOption? o.name value).bind (addAll? known · args)
        | true, none, value :: args =>
          if isValue value then (a.addOption? o.name value).bind (addAll? known · args) else none
        | true, none, [] => none
        | false, none, args => (a.addOption? o.name "").bind (addAll? known · args)
        | false, some _, _ => none

/-- The arguments taken apart; `none` for an option that is not known or given twice, a missing
value or one that is too many. -/
def parse? (known : List CommandOption) (args : List String) : Option Arguments :=
  addAll? known ⟨[], []⟩ args

end Arguments

end RowFlips
