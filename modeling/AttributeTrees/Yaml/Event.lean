import AttributeTrees.Yaml.Token
/-!
# Events of YAML

What a text says, in order: scalars, aliases, and the starts and ends of sequences, mappings and
documents. Anchors are numbered in the order of the text.
-/
namespace AttributeTrees.Yaml

structure Tag where
  start : String
  suffix : String
deriving DecidableEq, Repr

inductive Event where
  | streamStart
  | streamEnd
  | documentStart
  | documentEnd
  | alias (anchor : Nat)
  | scalar (style : Style) (text : String) (anchor : Option Nat) (tag : Option Tag)
  | sequenceStart (anchor : Option Nat)
  | sequenceEnd
  | mappingStart (anchor : Option Nat)
  | mappingEnd
deriving DecidableEq, Repr

namespace Event

/-- Stands where a node is left out behind an anchor or tag. -/
def bare (anchor : Option Nat) (tag : Option Tag) : Event := .scalar .plain "" anchor tag

def missing : Event := bare none none

end Event

end AttributeTrees.Yaml
