/-!
# Command line arguments

The commands and how their arguments are read. Options may stand anywhere after the command; those
of one letter may be joined, and a value may follow its option directly, after `=`, or as the next
argument. After `--` nothing is an option. Reading either succeeds or is a usage error.
-/

namespace ModalBounds

/-- What the program is asked to do. -/
inductive Command where
  /-- Bound a model over input ranges. -/
  | bound (expression : String) (ranges : List String) (inner nodes json : Bool)
  /-- Check constraints on a model, from a file or as they are given. -/
  | check (expression : String) (ranges : List String) (file : Option String)
      (constraints : List String) (inner json : Bool)
  /-- Print a partial derivative. -/
  | derive (expression variableName : String) (order : Nat)
deriving DecidableEq, Repr

/-- How an option can be given. -/
structure OptionSpec where
  short : Char
  long : String
  takesValue : Bool
  repeatable : Bool

/-- The options and the other arguments of a command. -/
structure Arguments where
  options : List (Char × String) := []
  positionals : List String := []

namespace Arguments

def values (a : Arguments) (short : Char) : List String :=
  (a.options.filter (·.1 == short)).map (·.2)

def flag (a : Arguments) (short : Char) : Bool := !(a.values short).isEmpty

/-- Adds an option; some may be given only once. -/
def add? (a : Arguments) (o : OptionSpec) (value : String) : Option Arguments :=
  if !o.repeatable && a.flag o.short then none
  else some { a with options := a.options ++ [(o.short, value)] }

/-- What an argument leaves to do: nothing, or to take the next one as the value of an option. -/
inductive Pending where
  | done (a : Arguments)
  | value (a : Arguments) (o : OptionSpec)

/-- Adds the options of a group of letters. The first that takes a value takes the rest of the
group, if there is a rest. -/
def addShort? (specs : List OptionSpec) (a : Arguments) : List Char → Option Pending
  | [] => some (.done a)
  | c :: cs => do
    let o ← specs.find? (·.short == c)
    if o.takesValue then
      match cs with
      | [] => return .value a o
      | '=' :: value => return .done (← a.add? o (String.ofList value))
      | value => return .done (← a.add? o (String.ofList value))
    else
      let a ← a.add? o ""
      addShort? specs a cs

/-- Adds an option given by its long name, with a value after `=` if it takes one. -/
def addLong? (specs : List OptionSpec) (a : Arguments) (text : List Char) : Option Pending := do
  let name := String.ofList (text.takeWhile (· != '='))
  let o ← specs.find? (·.long == name)
  match o.takesValue, text.dropWhile (· != '=') with
  | true, [] => return .value a o
  | true, _ :: value => return .done (← a.add? o (String.ofList value))
  | false, [] => return .done (← a.add? o "")
  | false, _ :: _ => none

/-- Whether an argument is an option rather than a value: it begins with a dash that is not all of
it. -/
def isOption (text : List Char) : Bool :=
  match text with
  | '-' :: _ :: _ => true
  | _ => false

def read? (specs : List OptionSpec) (a : Arguments) : List String → Option Arguments
  | [] => some a
  | arg :: rest =>
    match arg.toList with
    | ['-', '-'] => some { a with positionals := a.positionals ++ rest }
    | text =>
      if isOption text then
        let pending := match text with
          | '-' :: '-' :: name => addLong? specs a name
          | _ => addShort? specs a (text.drop 1)
        match pending with
        | some (.done a) => read? specs a rest
        | some (.value a o) =>
          match rest with
          | [] => none
          | value :: rest =>
            if isOption value.toList then none
            else
              match a.add? o value with
              | some a => read? specs a rest
              | none => none
        | none => none
      else read? specs { a with positionals := a.positionals ++ [arg] } rest

end Arguments

namespace Command

def innerOption : OptionSpec := ⟨'i', "inner", false, false⟩

def nodesOption : OptionSpec := ⟨'n', "nodes", false, false⟩

def jsonOption : OptionSpec := ⟨'j', "json", false, false⟩

def fileOption : OptionSpec := ⟨'f', "constraints", true, false⟩

def constraintOption : OptionSpec := ⟨'c', "constraint", true, true⟩

def orderOption : OptionSpec := ⟨'o', "order", true, false⟩

/-- The number that decimal digits denote. -/
def natOfDigits? (digits : List Char) : Option Nat :=
  if digits.isEmpty || !digits.all Char.isDigit then none
  else some (digits.foldl (fun n c => n * 10 + (c.toNat - '0'.toNat)) 0)

/-- A whole number of 32 bits, with an optional sign. Only zero may have a minus. -/
def nat32? (text : String) : Option Nat :=
  match text.toList with
  | '-' :: digits => (natOfDigits? digits).filter (· == 0)
  | '+' :: digits => (natOfDigits? digits).filter (· < 4294967296)
  | digits => (natOfDigits? digits).filter (· < 4294967296)

def bound? (args : List String) : Option Command := do
  let a ← Arguments.read? [innerOption, nodesOption, jsonOption] {} args
  match a.positionals with
  | [] => none
  | expression :: ranges =>
    return bound expression ranges (a.flag 'i') (a.flag 'n') (a.flag 'j')

/-- A file and constraints exclude each other, and the name of a file is not empty. -/
def check? (args : List String) : Option Command := do
  let a ← Arguments.read? [innerOption, jsonOption, fileOption, constraintOption] {} args
  let file := (a.values 'f').head?
  if file == some "" || (file.isSome && a.flag 'c') then none
  else
    match a.positionals with
    | [] => none
    | expression :: ranges =>
      return check expression ranges file (a.values 'c') (a.flag 'i') (a.flag 'j')

def derive? (args : List String) : Option Command := do
  let a ← Arguments.read? [orderOption] {} args
  let order ← match a.values 'o' with
    | [] => some 1
    | text :: _ => nat32? text
  match a.positionals with
  | [expression, variableName] => return derive expression variableName order
  | _ => none

/-- The command that arguments stand for; absent on a usage error. -/
def ofArguments? : List String → Option Command
  | "bound" :: args => bound? args
  | "check" :: args => check? args
  | "derive" :: args => derive? args
  | _ => none

end Command

end ModalBounds
