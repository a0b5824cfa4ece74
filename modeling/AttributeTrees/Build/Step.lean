import AttributeTrees.Path
import AttributeTrees.Visit.Recorder
/-!
# Builders

Where a visitor sees nesting, a builder sees every run of values together with the path it belongs
to. A builder is a state machine on such steps.
-/
namespace AttributeTrees.Build

open Text.Utf8 (Bytes)

inductive Step where
  | start
  | add (path : Path) (run : Run)
  | addObject (path : Path)
  | finishObject (path : Path)
  | addList (path : Path)
  | finishList (path : Path)
  | unparsed (blocks : List Bytes)
  | finish
  | fail

structure Builder (β : Type) where
  wantsMore : β → Bool
  receive : β → Step → β
  verdict : β → Bool

def recorder : Builder (Visit.Recorder Step) where
  wantsMore := Visit.Recorder.wantsMore
  receive r s :=
    r.keep s (match s with
      | .add _ run => run.length
      | _ => 0)
  verdict r := r.satisfied

end AttributeTrees.Build
