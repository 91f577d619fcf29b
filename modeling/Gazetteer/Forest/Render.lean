import Gazetteer.Forest.Basic
import Gazetteer.Text.Quoted

/-!
# The text of a row

A row is shown with its index, its bounds and its key, the key in quotes.
-/

namespace Gazetteer

/-- The text of a key, which may be missing. -/
def renderKey : Option String → String
  | some k => "Some(" ++ quote k ++ ")"
  | none => "None"

/-- The text of the row at index `i`. -/
def Interval.render (r : Interval String) (i : Nat) : String :=
  "Region \x7b index: " ++ toString i ++ ", start: " ++ toString r.span.start.val
    ++ ", end: " ++ toString r.span.stop.val ++ ", key: " ++ renderKey r.key ++ " \x7d"

end Gazetteer
