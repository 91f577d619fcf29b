import Gazetteer.Bisect
import Gazetteer.Directory.Basic
import Gazetteer.Nesting

/-!
# Directories by position

A `Layout` arranges the regions of a directory in **position order**: by start, of regions with the
same start the longer first, of equal regions by ordinal. Enclosing regions thus come before what
they enclose, and each slot can be linked to the innermost slot around it.

Nothing forbids that regions of a directory straddle. Parent links are of no use then, and the
region at a position is found by a scan from the back; a layout without straddling regions is
climbed.
-/

namespace Gazetteer

/-- A region in position order. -/
structure Slot where
  /-- The ordinal of the region. -/
  ordinal : Nat
  /-- The region. -/
  span : Span
  /-- The slot around this one. -/
  parent : Option Nat
  /-- The region starts inside an earlier one and ends after it. -/
  straddles : Bool
deriving DecidableEq

/-- The regions of a directory by position. -/
structure Layout where
  /-- The regions in position order. -/
  slots : Array Slot
  /-- The regions by end, of equal ends by ordinal. -/
  byStop : Array Placed
deriving DecidableEq

namespace Layout

/-! ## Making a layout -/

/-- Position order: start ascending, end descending, ordinal ascending. -/
def positionLE (a b : Placed) : Bool :=
  a.span.start < b.span.start ||
    (a.span.start = b.span.start &&
      (b.span.stop < a.span.stop || (a.span.stop = b.span.stop && a.index ≤ b.index)))

/-- The order by end, then by ordinal. -/
def stopLE (a b : Placed) : Bool :=
  a.span.stop < b.span.stop || (a.span.stop = b.span.stop && a.index ≤ b.index)

/-- The slot of a region, given the open slots around its start, innermost first. -/
def slotIn (around : List Placed) (region : Placed) : Slot :=
  match around with
  | top :: _ =>
    if region.span.stop ≤ top.span.stop then ⟨region.index, region.span, some top.index, false⟩
    else ⟨region.index, region.span, none, true⟩
  | [] => ⟨region.index, region.span, none, false⟩

/-- The slots of regions in position order, the first of them at place `next`. -/
def arrange (next : Nat) (pending : List Placed) : List Placed → List Slot
  | [] => []
  | region :: rest =>
    let around := stillOpen region.span.start pending
    slotIn around region :: arrange (next + 1) (⟨next, region.span⟩ :: around) rest

/-- The layout of regions, each given with its ordinal. -/
def ofRegions (regions : List Placed) : Layout :=
  { slots := (arrange 0 [] (regions.mergeSort positionLE)).toArray
    byStop := (regions.mergeSort stopLE).toArray }

/-! ## Asking a layout -/

/-- The number of regions. -/
def size (l : Layout) : Nat := l.slots.size

/-- The ordinals in position order. -/
def order (l : Layout) : List Nat := l.slots.toList.map (·.ordinal)

/-- The ordinal at a place. -/
def ordinal? (l : Layout) (p : Nat) : Option Nat := l.slots[p]?.map (·.ordinal)

/-- The slot around the slot at a place. -/
def parent? (l : Layout) (p : Nat) : Option Nat := l.slots[p]?.bind (·.parent)

/-- Some regions straddle. -/
def straddling (l : Layout) : Bool := l.slots.any (·.straddles)

/-- The number of regions that start at or before `pos`. -/
def startedBy (l : Layout) (pos : Offset) : Nat :=
  bisect (fun p => l.slots[p]?.any (·.span.start ≤ pos)) 0 l.size

/-- The region at place `p` ends after `pos`. -/
def outlasts (l : Layout) (pos : Offset) (p : Nat) : Bool := l.slots[p]?.any (pos < ·.span.stop)

/-- The place of the last region, in position order, around `pos`. -/
def placeAt? (l : Layout) (pos : Offset) : Option Nat :=
  if l.straddling then (List.range (l.startedBy pos)).reverse.find? (l.outlasts pos)
  else climb l.parent? (l.outlasts pos) (l.startedBy pos)

/-- The ordinal of the innermost region around `pos`. -/
def innermost? (l : Layout) (pos : Offset) : Option Nat := (l.placeAt? pos).bind l.ordinal?

/-- The ordinal of the last region, in position order, that starts at or before `pos`. -/
def nearestBefore? (l : Layout) (pos : Offset) : Option Nat :=
  match l.startedBy pos with
  | 0 => none
  | last + 1 => l.ordinal? last

/-- The ordinal of the first region, in position order, that starts exactly at `pos`. -/
def startingAt? (l : Layout) (pos : Offset) : Option Nat :=
  let p := bisect (fun p => l.slots[p]?.any (·.span.start < pos)) 0 l.size
  l.slots[p]?.bind fun s => if s.span.start = pos then some s.ordinal else none

/-- The least ordinal of a region that ends exactly at `pos`. -/
def endingAt? (l : Layout) (pos : Offset) : Option Nat :=
  let p := bisect (fun p => l.byStop[p]?.any (·.span.stop < pos)) 0 l.byStop.size
  l.byStop[p]?.bind fun s => if s.span.stop = pos then some s.index else none

end Layout

/-! ## Directories -/

namespace Directory

variable {κ : Type}

/-- The layout of a directory. -/
def layout (d : Directory κ) : Layout := .ofRegions (d.entries.map fun e => ⟨e.ordinal, e.span⟩)

/-- The entries in position order. -/
def byPosition (d : Directory κ) : List (Entry κ) := d.layout.order.filterMap d.entry?

/-- The innermost entry around `pos`. -/
def innermost? (d : Directory κ) (pos : Offset) : Option (Entry κ) :=
  (d.layout.innermost? pos).bind d.entry?

/-- The entry that starts last at or before `pos`, whether or not it lies around it. -/
def nearestBefore? (d : Directory κ) (pos : Offset) : Option (Entry κ) :=
  (d.layout.nearestBefore? pos).bind d.entry?

/-- The outermost entry that starts exactly at `pos`. -/
def startingAt? (d : Directory κ) (pos : Offset) : Option (Entry κ) :=
  (d.layout.startingAt? pos).bind d.entry?

/-- The first entry, by name, that ends exactly at `pos`. -/
def endingAt? (d : Directory κ) (pos : Offset) : Option (Entry κ) :=
  (d.layout.endingAt? pos).bind d.entry?

end Directory

end Gazetteer
