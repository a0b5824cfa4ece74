import AttributeTrees.Config.Names
import AttributeTrees.Disk
/-!
# Sources of configuration

Where an application's values come from: its arguments, variables of its environment, documents of
groups in directories, and a directory of secrets.
-/
namespace AttributeTrees.Config

structure Sources where
  application : String
  namePrefix : Option String
  group : Option String
  directories : List String
  secrets : Option String
  tags : List String
  owner : String
  environment : List (String × String)
  arguments : List String

def defaultGroup : String := "defaults"

def valueAfter? (label : String) : List String → Option String
  | [] => none
  | argument :: rest => if argument == label then rest.head? else valueAfter? label rest

def isOption (argument : String) : Bool := argument.startsWith "--"

def assigned? (name argument : String) : Option String :=
  let mark := (name ++ "=").toList
  if mark.isPrefixOf argument.toList then some (String.ofList (argument.toList.drop mark.length))
  else none

/-- Each occurrence of an option among arguments with its value: the next argument, if that is no
option, or the text behind the equals sign. -/
def occurrences (name : String) : List String → List (Option String)
  | [] => []
  | argument :: rest =>
    if argument == name then rest.head?.filter (!isOption ·) :: occurrences name rest
    else
      match assigned? name argument with
      | some value => some value :: occurrences name rest
      | none => occurrences name rest

namespace Sources

def ofApplication (name : String) : Sources where
  application := name
  namePrefix := none
  group := none
  directories := []
  secrets := none
  tags := []
  owner := variableOwner name
  environment := []
  arguments := []

def tagOptions : List String := ["--instance", "--config-tag"]

def groupOption : String := "--config-group"

def withArguments (s : Sources) (arguments : List String) : Sources :=
  { s with
    arguments := arguments
    tags := s.tags ++ tagOptions.filterMap (valueAfter? · arguments)
    group := (valueAfter? groupOption arguments).or s.group }

def withVariable (s : Sources) (name value : String) : Sources :=
  { s with environment := (name, value) :: s.environment }

def shortName? (s : Sources) : Option String :=
  s.namePrefix.bind fun start =>
    if start.toList.isPrefixOf s.application.toList then
      some (String.ofList (s.application.toList.drop start.length))
    else none

def groups (s : Sources) : List String :=
  let all := [s.application] ++ s.shortName?.toList ++ s.group.toList ++ [defaultGroup]
  (all.filter fun g => !g.isEmpty).foldl (fun gs g => if gs.contains g then gs else gs ++ [g]) []

def argumentValues (s : Sources) (key : String) : List (Option String) :=
  occurrences (argumentName key) s.arguments

def setting? (s : Sources) (key : String) : Option String :=
  s.environment.lookup (variableName s.owner key)

def allTags (s : Sources) (tag : Option String) : List String := tag.toList ++ s.tags

end Sources

def endings : List String := ["yaml", "json"]

def candidateFiles (directory group : String) (tags : List String) : List String :=
  let names := tags.map (group ++ "@" ++ ·) ++ [group]
  names.flatMap fun name => endings.map fun e => Disk.join directory (name ++ "." ++ e)

/-- The files that are tried for a lookup, group by group and directory by directory. -/
def Sources.files (s : Sources) (tags : List String) : List String :=
  s.groups.flatMap fun group => s.directories.flatMap fun dir => candidateFiles dir group tags

end AttributeTrees.Config
