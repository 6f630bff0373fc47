import TopWallets.Lib.BitField

/- Cells: finite trees whose nodes carry a bit string and an ordered list of
   references. A `Slice` is what a reader has not consumed yet of one cell. -/

/-- A cell: its data bits and the cells it refers to. -/
inductive Cell where
  | mk (bits : List Bool) (refs : List Cell)

/-- The unread part of a cell. -/
structure Slice where
  bits : List Bool
  refs : List Cell

namespace Cell

def bits : Cell → List Bool
  | mk bits _ => bits

def refs : Cell → List Cell
  | mk _ refs => refs

mutual
/-- The length of the longest chain of references below a cell. -/
def depth : Cell → Nat
  | mk _ refs => depthRefs refs

/-- The depth of a cell holding these references. -/
def depthRefs : List Cell → Nat
  | [] => 0
  | c :: cs => max (depth c + 1) (depthRefs cs)
end

/-- A reader at the start of the cell. -/
def toSlice (c : Cell) : Slice := ⟨c.bits, c.refs⟩

@[simp] theorem bits_mk (bits : List Bool) (refs : List Cell) : (mk bits refs).bits = bits := rfl

@[simp] theorem refs_mk (bits : List Bool) (refs : List Cell) : (mk bits refs).refs = refs := rfl

@[simp] theorem toSlice_mk (bits : List Bool) (refs : List Cell) :
    (mk bits refs).toSlice = ⟨bits, refs⟩ := rfl

@[simp] theorem depth_mk (bits : List Bool) (refs : List Cell) :
    (mk bits refs).depth = depthRefs refs := by
  rw [depth]

@[simp] theorem depthRefs_nil : depthRefs [] = 0 := by
  rw [depthRefs]

@[simp] theorem depthRefs_cons (c : Cell) (cs : List Cell) :
    depthRefs (c :: cs) = max (c.depth + 1) (depthRefs cs) := by
  rw [depthRefs]

end Cell
