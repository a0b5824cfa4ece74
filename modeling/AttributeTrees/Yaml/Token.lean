/-!
# Tokens of YAML

The pieces a text is cut into. Where the syntax shows structure by indentation, tokens for the
start and end of a block stand for it.
-/
namespace AttributeTrees.Yaml

inductive Style where
  | plain
  | singleQuoted
  | doubleQuoted
  | literal
  | folded
deriving DecidableEq, Repr

inductive Token where
  | streamStart
  | streamEnd
  | versionDirective
  | tagDirective (handle start : String)
  | documentStart
  | documentEnd
  | blockSequenceStart
  | blockMappingStart
  | blockEnd
  | flowSequenceStart
  | flowSequenceEnd
  | flowMappingStart
  | flowMappingEnd
  | blockEntry
  | flowEntry
  | key
  | value
  | alias (name : String)
  | anchor (name : String) (atMargin : Bool)
  | tag (handle suffix : String) (atMargin : Bool)
  | scalar (style : Style) (text : String)
deriving DecidableEq, Repr

inductive Fault where
  | indentation
  | tab
  | missingKeyMark
  | misplacedKey
  | misplacedValue
  | misplacedEntry
  | misplacedComment
  | documentEndContent
  | directive
  | tag
  | anchor
  | unknownAnchor
  | unknownHandle
  | blockScalar
  | quotedScalar
  | plainScalar
  | unexpectedCharacter
  | nesting
  | missingContent
  | missingEntry
  | missingStart
  | duplicateKey
deriving DecidableEq, Repr

end AttributeTrees.Yaml
