import LatticeSurgery.Layout.Patch

/-! # Layouts

A rectangular grid of patches, read from and written as rows of characters. Neighbours touch unless
one of them is blocked.
-/

namespace LatticeSurgery

/-- A grid of patches. -/
structure Layout where
  /-- Length of every row. -/
  cols : Nat
  rows : List (List Patch)
  deriving Repr, DecidableEq

namespace Layout

/-- A grid that is one routing channel. -/
def channel (rows cols : Nat) : Layout :=
  { cols
    rows := (List.range rows).map fun row => (List.range cols).map fun col =>
      { coord := ⟨row, col⟩, kind := .route, orientation := .z } }

/-- Reads the rest of a row. -/
def readRow (row col : Nat) : List Char → Except Error (List Patch)
  | [] => .ok []
  | mark :: marks =>
      match Patch.ofMark? mark with
      | none => .error (.badSetup (.unknownPatch mark row col))
      | some (kind, orientation) => do
          let rest ← readRow row (col + 1) marks
          return { coord := ⟨row, col⟩, kind, orientation } :: rest

/-- Reads rows that all have the given length. -/
def readRows (cols row : Nat) : List (List Char) → Except Error (List (List Patch))
  | [] => .ok []
  | marks :: lines =>
      if marks.length = cols then do
        let patches ← readRow row 0 marks
        let rest ← readRows cols (row + 1) lines
        return patches :: rest
      else .error (.badSetup (.rowLength row marks.length cols))

/-- Reads a layout from lines of text, the first of which sets the length of all. -/
def ofLines (lines : List String) : Except Error Layout := do
  let marks := lines.map String.toList
  let cols := (marks.head?.map List.length).getD 0
  let rows ← readRows cols 0 marks
  return { cols, rows }

/-- The lines of a picture of the layout; locked patches are starred. -/
def lines (l : Layout) : List String := l.rows.map fun row => String.ofList (row.map Patch.mark)

/-- The picture of the layout, each line ended. -/
def text (l : Layout) : String := String.join (l.lines.map (· ++ "\n"))

/-- Number of rows and of columns. -/
def shape (l : Layout) : Nat × Nat := (l.rows.length, l.cols)

/-- All patches, row by row. -/
def patches (l : Layout) : List Patch := l.rows.flatten

/-- The patch at a place. -/
def patch? (l : Layout) (c : Coord) : Option Patch := (l.rows[c.row]?).bind fun row => row[c.col]?

/-- Changes the patch at a place. -/
def modify (l : Layout) (c : Coord) (f : Patch → Patch) : Layout :=
  { l with rows := l.rows.modify c.row fun row => row.modify c.col f }

/-- Places of a kind of patch, row by row. -/
def coordsOf (l : Layout) (kind : PatchKind) : List Coord :=
  (l.patches.filter (·.kind = kind)).map (·.coord)

/-- Places locked by a node, row by row. -/
def lockedBy (l : Layout) (node : NodeId) : List Coord :=
  (l.patches.filter fun patch => patch.lock.any (·.node == node)).map (·.coord)

/-- Whether a node may use a place at a cycle. -/
def probe (l : Layout) (c : Coord) (node : NodeId) (cycle : Nat) : Bool :=
  (l.patch? c).any (·.isFree node cycle)

/-- Whether a route of a node may pass through a place at a cycle. -/
def routable (l : Layout) (node : NodeId) (cycle : Nat) (c : Coord) : Bool :=
  (l.patch? c).any fun patch => patch.kind = .route && patch.isFree node cycle

/-- Whether a place lies on the border of an external block. -/
def isExternal (l : Layout) (c : Coord) : Bool := (l.patch? c).any (·.kind = .external)

/-- Orientation of the patch at a place. -/
def orientation? (l : Layout) (c : Coord) : Option Boundary := (l.patch? c).map (·.orientation)

/-- Boundary that a place shows along an axis. -/
def exposes (l : Layout) (c : Coord) (axis : Axis) : Option Boundary :=
  (l.patch? c).bind (·.exposes axis)

/-- Whether a place is on the grid and not blocked. -/
def isOpen (l : Layout) (c : Coord) : Bool := (l.patch? c).any (·.kind ≠ .blocked)

/-- The open neighbours of an open place, in coordinate order. -/
def adjacent (l : Layout) (c : Coord) : List (Coord × Axis) :=
  if l.isOpen c then c.neighbours.filter (l.isOpen ·.1) else []

/-- Locks a patch for a number of cycles. Outside the grid there is nothing to lock. -/
def lock (l : Layout) (c : Coord) (node : NodeId) (cycle duration : Nat) : Except Error Layout :=
  if (l.patch? c).isSome then do
    let freeAt ← addWords cycle duration
    return l.modify c (·.locked ⟨node, cycle, freeAt⟩)
  else .ok l

/-- Locks several patches for a node, one after the other. -/
def lockAll (l : Layout) (node : NodeId) (cycle duration : Nat) : List Coord → Except Error Layout
  | [] => .ok l
  | c :: rest => do
      let l ← l.lock c node cycle duration
      l.lockAll node cycle duration rest

/-- Gives up the lock of a node on a patch. -/
def unlock (l : Layout) (c : Coord) (node : NodeId) : Layout := l.modify c (·.unlocked node)

/-- Turns the boundaries of a register. -/
def rotate (l : Layout) (c : Coord) : Layout := l.modify c Patch.rotated

/-- Gives a patch a new role. -/
def setPatch (l : Layout) (c : Coord) (kind : PatchKind) (orientation : Boundary) : Except Error Layout :=
  if (l.patch? c).isSome then .ok (l.modify c fun patch => { patch with kind, orientation })
  else .error (.badSetup (.noPatch c.row c.col))

/-- A change shows at its own place only. -/
theorem patch?_modify (l : Layout) (c d : Coord) (f : Patch → Patch) :
    (l.modify c f).patch? d = if d = c then (l.patch? d).map f else l.patch? d := by
  obtain ⟨row, col⟩ := c
  obtain ⟨row', col'⟩ := d
  simp only [patch?, modify, List.getElem?_modify, Coord.mk.injEq]
  by_cases sameRow : row = row'
  · by_cases sameCol : col = col' <;>
      cases l.rows[row']? <;> simp [sameRow, sameCol, eq_comm]
  · simp [sameRow, eq_comm]

@[simp, grind =] theorem shape_modify (l : Layout) (c : Coord) (f : Patch → Patch) :
    (l.modify c f).shape = l.shape := by
  simp [shape, modify]

end Layout

end LatticeSurgery
