/-!
# Runs

A **run** is a stretch of neighbouring elements with the same key. In a sorted list equal keys
stand together, so keeping the first element of every run keeps one element for each key.
-/

namespace Gazetteer

variable {α β : Type} [DecidableEq β]

/-- The first element of every run, where `last` is the key of the run before the list. -/
def firstOfRunsAfter (key : α → β) (last : Option β) : List α → List α
  | [] => []
  | a :: rest =>
    if last = some (key a) then firstOfRunsAfter key last rest
    else a :: firstOfRunsAfter key (some (key a)) rest

/-- The first element of every run of equal keys. -/
def firstOfRuns (key : α → β) (xs : List α) : List α := firstOfRunsAfter key none xs

end Gazetteer
