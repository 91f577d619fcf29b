import Gazetteer.Directory.Basic

/-!
# Drafting a directory

A `Draft` takes declarations in any order. The first declaration of a name is its primary one. A
later one takes its place only if it is of a kind with a strictly lower rank; the one that gives
way, or the one that comes too late, joins the duplicates of the name. No declaration is lost.
-/

namespace Gazetteer.Directory

/-- A directory in the making. -/
structure Draft (κ : Type) where
  /-- The primary declaration of each name. -/
  primaries : Register (Declaration κ)
  /-- The declarations set aside for each name. -/
  duplicates : Register (List (Declaration κ))
deriving DecidableEq

namespace Draft

variable {κ : Type}

/-- The draft without names. -/
def empty : Draft κ := ⟨.empty, .empty⟩

/-- The number of names. -/
def size (d : Draft κ) : Nat := d.primaries.size

/-- Nothing has been declared. -/
def isEmpty (d : Draft κ) : Bool := d.size == 0

/-- The name has been declared. -/
def contains (d : Draft κ) (name : String) : Bool := d.primaries.contains name

/-- Sets a declaration aside. -/
def divert (d : Draft κ) (name : String) (decl : Declaration κ) : Draft κ :=
  { d with duplicates := d.duplicates.push name decl }

/-- Makes a declaration the primary one. -/
def promote (d : Draft κ) (name : String) (decl : Declaration κ) : Draft κ :=
  { d with primaries := d.primaries.insert name decl }

/-- Records a declaration, and says whether it is now the primary one. -/
def record [Ranked κ] (d : Draft κ) (name : String) (decl : Declaration κ) : Bool × Draft κ :=
  match d.primaries.find? name with
  | none => (true, d.promote name decl)
  | some primary =>
    if Ranked.outranks decl.kind primary.kind then
      (true, (d.promote name decl).divert name primary)
    else (false, d.divert name decl)

/-- Records a declaration of a proper span, and says whether it is now the primary one. -/
def add [Ranked κ] (d : Draft κ) (name : String) (decl : Declaration κ) :
    Except Error (Bool × Draft κ) :=
  if decl.span.Proper then .ok (d.record name decl) else .error (.emptySpan decl.span)

/-- Records a declaration whose region is exactly the text of its name. -/
def addName [Ranked κ] (d : Draft κ) (name : String) (kind : κ) (start : Offset) :
    Except Error (Bool × Draft κ) :=
  match impliedStop? name start with
  | some stop => d.add name ⟨kind, ⟨start, stop⟩⟩
  | none => .error (.emptySpan ⟨start, start⟩)

/-- Records a declaration if its span is proper. -/
def offer [Ranked κ] (d : Draft κ) (name : String) (decl : Declaration κ) : Draft κ :=
  match d.add name decl with
  | .ok (_, d') => d'
  | .error _ => d

/-- Gives the primary declaration of a name another region, and says whether there was one. -/
def relocate (d : Draft κ) (name : String) (span : Span) : Except Error (Bool × Draft κ) :=
  if span.Proper then
    match d.primaries.find? name with
    | some primary => .ok (true, d.promote name { primary with span })
    | none => .ok (false, d)
  else .error (.emptySpan span)

/-- The directory of everything recorded. -/
def freeze (d : Draft κ) : Directory κ :=
  .ofPrimaries (d.primaries.rows.mergeSort fun a b => a.1 ≤ b.1) d.duplicates

end Draft

/-- The directory without names. -/
def empty {κ : Type} : Directory κ := Draft.empty.freeze

end Gazetteer.Directory
