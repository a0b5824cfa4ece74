/-!
# Program arguments

Arguments are options, with a value or without, and everything else in order. An option is written
out behind two hyphens or as one letter behind one; its value is the rest of the same argument or
the next argument. Behind `--` nothing is an option.
-/
namespace AttributeTrees.Command

structure Choice where
  name : String
  letter : Option Char
  hasValue : Bool
  repeats : Bool
  isPath : Bool

/-- What was given. An option without a value is given with an empty one. -/
structure Given where
  options : List (String × String)
  others : List String

namespace Given

def nothing : Given := ⟨[], []⟩

def addOption (g : Given) (name value : String) : Given :=
  { g with options := (name, value) :: g.options }

def addOther (g : Given) (value : String) : Given := { g with others := value :: g.others }

def values (g : Given) (name : String) : List String :=
  (g.options.filter (·.1 == name)).map (·.2)

def has (g : Given) (name : String) : Bool := g.options.any (·.1 == name)

def isValid (choices : List Choice) (g : Given) : Bool :=
  choices.all fun c =>
    (c.repeats || (g.values c.name).length ≤ 1) &&
      (!c.isPath || (g.values c.name).all fun v => !v.isEmpty)

end Given

def splitAssigned (text : List Char) : String × Option String :=
  let name := text.takeWhile (· != '=')
  (String.ofList name,
    match text.dropWhile (· != '=') with
    | _ :: value => some (String.ofList value)
    | [] => none)

def optionOf? (choices : List Choice) : List Char → Option (Choice × Option String)
  | '-' :: '-' :: text =>
    let (name, value) := splitAssigned text
    (choices.find? (·.name == name)).map (·, value)
  | '-' :: letter :: rest =>
    let value :=
      match rest with
      | [] => none
      | '=' :: value => some (String.ofList value)
      | value => some (String.ofList value)
    (choices.find? (·.letter == some letter)).map (·, value)
  | _ => none

def isMarked (argument : String) : Bool :=
  match argument.toList with
  | '-' :: _ :: _ => true
  | _ => false

def read? (choices : List Choice) : List String → Option Given
  | [] => some .nothing
  | argument :: rest =>
    if argument == "--" then some (rest.foldr (fun a g => g.addOther a) .nothing)
    else if isMarked argument then
      match optionOf? choices argument.toList with
      | none => none
      | some (c, value) =>
        match c.hasValue, value with
        | false, none => (read? choices rest).map (·.addOption c.name "")
        | false, some _ => none
        | true, some value => (read? choices rest).map (·.addOption c.name value)
        | true, none =>
          match rest with
          | [] => none
          | value :: more =>
            if isMarked value then none
            else (read? choices more).map (·.addOption c.name value)
    else (read? choices rest).map (·.addOther argument)

def valid? (choices : List Choice) (arguments : List String) : Option Given :=
  (read? choices arguments).filter (Given.isValid choices)

end AttributeTrees.Command
