import TopWallets.Lib.Bytes
import TopWallets.Vm

/- Bags of cells, the bytes in which cells leave the program: the writer, `BagOfCells` of
   `vm/boc.cpp`.

   The cells of the roots are imported depth first, each once: what was imported is found by its
   hash. They are then put in an order in which every cell stands after the cells it refers to,
   which depends on weights; cells of weight 0 are special, and may carry their hashes. The bytes
   are a header, an index where it is asked for, and the cells, last one first.

   Correspondence (C++ ↔ Lean):
     `DataCell`, as the bag uses it       ↔ `DataCells`
     `CellTraits`, `LevelMask`            ↔ `hashBytes`, ..., `LevelMask.level`, ...
     `DataCell::serialize`                ↔ `DataCells.serialize`
     `import_cell`, `import_cells`        ↔ `importCell`, `importCells`
     `revisit` of force 0, 1, 2           ↔ `previsit`, `visit`, `allocate`
     `reorder_cells`                      ↔ `reorderCells`
     `compute_sizes`, `estimate_serialized_size` ↔ `computeSizes`, `estimateSerializedSize`
     `serialize_to_impl`                  ↔ `serializeToImpl`
     `std_boc_serialize`, `std_boc_serialize_multi` ↔ `stdBocSerialize`, `stdBocSerializeMulti`
   Numbers are natural numbers. The hash table of the imported cells is the list of its entries. -/
namespace Vm

def hashBytes : Nat := 32
def depthBytes : Nat := 2

namespace LevelMask

def level (mask : Nat) : Nat := mask.size

def hashesCount (mask : Nat) : Nat := (List.range 32).countP mask.testBit + 1

def isSignificant (mask level : Nat) : Bool := level == 0 || mask.testBit (level - 1)

/-- The levels that have a hash of their own. -/
def levels (mask : Nat) : List Nat := (List.range (level mask + 1)).filter (isSignificant mask)

end LevelMask

/-- The data, with the bit that ends it where it does not fill its last byte. -/
def cellData (bits : List Bool) : List UInt8 :=
  let tail := if bits.length % 8 = 0 then [] else true :: List.replicate (7 - bits.length % 8) false
  bytesOfBits ((bits.length + 7) / 8) (bits ++ tail)

/-- `DataCell`, and `DataCell::create`. -/
structure DataCells where
  DataCell : Type
  special : DataCell → Bool
  levelMask : DataCell → Nat
  bits : DataCell → List Bool
  refs : DataCell → List DataCell
  hash : DataCell → (level : Nat) → List UInt8
  depth : DataCell → (level : Nat) → Nat
  create : List Bool → List DataCell → (special : Bool) → Except String DataCell

namespace DataCells
variable (D : DataCells) (dc : D.DataCell)

/-- The hash of the highest level. -/
def repHash : List UInt8 := D.hash dc (LevelMask.level (D.levelMask dc))

def data : List UInt8 := cellData (D.bits dc)

def d1 : Nat := (D.refs dc).length + 8 * (D.special dc).toNat + 32 * D.levelMask dc

def d2 : Nat := (D.bits dc).length / 8 * 2 + if (D.bits dc).length % 8 = 0 then 0 else 1

def serializedSize (withHashes : Bool) : Nat :=
  ((D.bits dc).length + 23) / 8 +
    if withHashes then LevelMask.hashesCount (D.levelMask dc) * (hashBytes + depthBytes) else 0

/-- The hashes and the depths of the levels. -/
def hashes : List UInt8 :=
  (LevelMask.levels (D.levelMask dc)).flatMap (D.hash dc) ++
    (LevelMask.levels (D.levelMask dc)).flatMap fun i => Bytes.big depthBytes (D.depth dc i)

/-- Nothing is written into a buffer that is too short. -/
def serialize (buffSize : Nat) (withHashes : Bool) : List UInt8 :=
  if D.serializedSize dc withHashes > buffSize then []
  else
    UInt8.ofNat (D.d1 dc + withHashes.toNat * 16) :: UInt8.ofNat (D.d2 dc) ::
      ((if withHashes then D.hashes dc else []) ++ D.data dc)

end DataCells

/-- The new index of a cell: -1, -2 and -3, or the index. -/
inductive NewIdx where
  | unset | previsited | visited
  | at (i : Nat)
  deriving DecidableEq

structure CellInfo (C : Type) where
  dc : C
  refIdx : List Nat
  wt : Nat
  hcnt : Nat
  newIdx : NewIdx
  shouldCache : Bool
  isRootCell : Bool

namespace CellInfo
variable {C : Type}

def isSpecial (info : CellInfo C) : Bool := info.wt == 0

end CellInfo

/-- The errors of the writer; `fuel` is none of the source. -/
inductive BocError where
  | depthTooLarge
  | noCells
  | wrongSize
  | fuel
  deriving DecidableEq

namespace BagOfCells

def maxCellWhs : Nat := 64

/-- What `import_cells` fills. -/
structure Import (C : Type) where
  cells : List (List UInt8 × Nat)
  cellList : List (CellInfo C)
  intRefs : Nat
  dataBytes : Nat

namespace Import
variable {C : Type}

def empty : Import C := ⟨[], [], 0, 0⟩

def cellCount (boc : Import C) : Nat := boc.cellList.length

def wtOf (boc : Import C) (i : Nat) : Nat := (boc.cellList[i]?.map CellInfo.wt).getD 0

end Import

section
variable (D : DataCells)

/-- A cell that was not found, of which the references are imported. -/
def addCell (cell : D.DataCell) (refs : List Nat) (sumChildWt : Nat) (boc : Import D.DataCell) :
    Nat × Import D.DataCell :=
  let info : CellInfo D.DataCell :=
    { dc := cell
      refIdx := refs
      wt := min 0xff sumChildWt
      hcnt := LevelMask.hashesCount (D.levelMask cell)
      newIdx := .unset
      shouldCache := false
      isRootCell := false }
  (boc.cellCount,
    { boc with
      cells := boc.cells ++ [(D.repHash cell, boc.cellCount)]
      cellList := boc.cellList ++ [info]
      dataBytes := boc.dataBytes + D.serializedSize cell false })

/-- A cell that was imported before. -/
def setShouldCache (pos : Nat) (boc : Import D.DataCell) : Import D.DataCell :=
  { boc with cellList := boc.cellList.modify pos fun info => { info with shouldCache := true } }

/-- The import of a reference, in the loop over them. -/
def importRef (importCell : D.DataCell → Import D.DataCell →
    Except BocError (Nat × Import D.DataCell)) (state : List Nat × Nat × Import D.DataCell)
    (ref : D.DataCell) : Except BocError (List Nat × Nat × Import D.DataCell) := do
  let (refs, sumChildWt, boc) := state
  let (idx, boc) ← importCell ref boc
  return (refs ++ [idx], sumChildWt + boc.wtOf idx, { boc with intRefs := boc.intRefs + 1 })

/-- `import_cell(cell, depth)`, with `max_depth + 1 - depth` left. -/
def importCell : Nat → D.DataCell → Import D.DataCell → Except BocError (Nat × Import D.DataCell)
  | 0, _, _ => .error .depthTooLarge
  | left + 1, cell, boc =>
    match boc.cells.lookup (D.repHash cell) with
    | some pos => .ok (pos, setShouldCache D pos boc)
    | none => do
      let (refs, sumChildWt, boc) ←
        (D.refs cell).foldlM (importRef D (importCell left)) ([], 1, boc)
      return addCell D cell refs sumChildWt boc

def importRoot (state : List Nat × Import D.DataCell) (root : D.DataCell) :
    Except BocError (List Nat × Import D.DataCell) := do
  let (idxs, boc) := state
  let (idx, boc) ← importCell D (maxDepth + 1) root boc
  return (idxs ++ [idx], boc)

/-- The import of the roots one after another. -/
def importRoots (roots : List D.DataCell) :
    Except BocError (List Nat × Import D.DataCell) :=
  roots.foldlM (importRoot D) ([], Import.empty)

end

/-! ## The order of the cells -/

section
variable {C : Type}

/-- The weights of the references of the cell, cut to their shares of `max_cell_whs`. -/
def limitWeights (cellList : List (CellInfo C)) (i : Nat) : List (CellInfo C) :=
  match cellList[i]? with
  | none => cellList
  | some dci =>
    let s := dci.refIdx.length
    let wt := fun (l : List (CellInfo C)) r => (l[r]?.map CellInfo.wt).getD 0
    let fits := fun j r => decide (wt cellList r ≤ (maxCellWhs - 1 + j) / s)
    let (sum, c) := dci.refIdx.zipIdx.foldl (fun (sum, c) (r, j) =>
      if fits j r then (sum - wt cellList r, c - 1) else (sum, c)) (maxCellWhs - 1, s)
    (dci.refIdx.zipIdx.foldl (fun (l, sum) (r, j) =>
      if fits j r then (l, sum)
      else (l.modify r fun dcj => { dcj with wt := min dcj.wt (sum / c) }, sum + 1))
      (cellList, sum)).1

/-- The weight of a cell, or 0 where it is less than its references and itself need. -/
def finalWeight (cellList : List (CellInfo C)) (i : Nat) : List (CellInfo C) :=
  match cellList[i]? with
  | none => cellList
  | some dci =>
    let sum := dci.refIdx.foldl (fun sum r => sum + (cellList[r]?.map CellInfo.wt).getD 0) 1
    cellList.modify i fun dci => { dci with wt := if sum ≤ dci.wt then sum else 0 }

def weigh (cellList : List (CellInfo C)) : List (CellInfo C) :=
  let limited := (List.range cellList.length).reverse.foldl limitWeights cellList
  (List.range cellList.length).foldl finalWeight limited

/-- `cell_list_` and `cell_list_tmp`. -/
structure Order (C : Type) where
  cellList : List (CellInfo C)
  cellListTmp : List (CellInfo C)

namespace Order

def setNewIdx (i : Nat) (idx : NewIdx) (o : Order C) : Order C :=
  { o with cellList := o.cellList.modify i fun dci => { dci with newIdx := idx } }

def setRefIdx (i : Nat) (refs : List Nat) (o : Order C) : Order C :=
  { o with cellList := o.cellList.modify i fun dci => { dci with refIdx := refs } }

/-- The new index of an allocated cell. -/
def newIdxOf (o : Order C) (i : Nat) : Nat :=
  match o.cellList[i]?.map CellInfo.newIdx with
  | some (.at idx) => idx
  | _ => 0

end Order

/-- Force 2. -/
def allocate (i : Nat) (o : Order C) : Nat × Order C :=
  match o.cellList[i]? with
  | none => (0, o)
  | some dci =>
    match dci.newIdx with
    | .at idx => (idx, o)
    | _ =>
      let idx := o.cellListTmp.length
      (idx, { o.setNewIdx i (.at idx) with
        cellListTmp := o.cellListTmp ++ [{ dci with newIdx := .at idx }] })

/-- The references of a cell that are all visited, allocated from the last one on. -/
def allocateRefs (refs : List Nat) (o : Order C) : List Nat × Order C :=
  refs.foldr (fun r (idxs, o) => let (idx, o) := allocate r o; (idx :: idxs, o)) ([], o)

mutual
/-- Force 0. The fuel bounds the depth of the recursion. -/
def previsit : Nat → Nat → Order C → Option (Order C)
  | 0, _, _ => none
  | fuel + 1, i, o =>
    match o.cellList[i]? with
    | none => some o
    | some dci =>
      if dci.newIdx ≠ .unset then some o
      else do
        let o ← dci.refIdx.reverse.foldlM (fun o r =>
          if (o.cellList[r]?.map CellInfo.isSpecial).getD false then visit fuel r o
          else previsit fuel r o) o
        return o.setNewIdx i .previsited

/-- Force 1. -/
def visit : Nat → Nat → Order C → Option (Order C)
  | 0, _, _ => none
  | fuel + 1, i, o =>
    match o.cellList[i]? with
    | none => some o
    | some dci =>
      match dci.newIdx with
      | .at _ => some o
      | .visited => some o
      | _ => do
        let o ← if dci.isSpecial then previsit fuel i o else pure o
        let o ← dci.refIdx.reverse.foldlM (fun o r => visit fuel r o) o
        let (refs, o) := allocateRefs dci.refIdx o
        return (o.setRefIdx i refs).setNewIdx i .visited
end

/-- The cells in their new order, and the new indices of the roots. -/
def revisitRoots (roots : List Nat) (cellList : List (CellInfo C)) :
    Option (List Nat × List (CellInfo C)) := do
  let fuel := 2 * cellList.length + 2
  let o ← roots.foldlM (fun o root => do visit fuel root (← previsit fuel root o))
    ⟨cellList, []⟩
  let o := roots.foldl (fun o root => (allocate root o).2) o
  return (roots.map o.newIdxOf, o.cellListTmp)

end

/-! ## The bytes -/

/-- What the writer starts from. -/
structure Bag (C : Type) where
  cellList : List (CellInfo C)
  roots : List Nat
  intRefs : Nat
  dataBytes : Nat
  intHashes : Nat
  topHashes : Nat

namespace Bag
variable {C : Type}

def cellCount (bag : Bag C) : Nat := bag.cellList.length

end Bag

def intHashes {C : Type} (cellList : List (CellInfo C)) : Nat :=
  (cellList.map fun dci => if dci.wt = 0 then dci.hcnt else 0).sum

def topHashes {C : Type} (roots : List Nat) (cellList : List (CellInfo C)) : Nat :=
  (roots.map fun i =>
    match cellList[i]? with
    | some dci => if dci.isRootCell ∧ dci.wt ≠ 0 then dci.hcnt else 0
    | none => 0).sum

/-- `reorder_cells`. No cell is marked as a root cell, so that none is counted as a top one. -/
def reorderCells {C : Type} (idxs : List Nat) (boc : Import C) : Option (Bag C) := do
  let weighed := weigh boc.cellList
  let (roots, cellList) ← revisitRoots idxs weighed
  return ⟨cellList, roots, boc.intRefs, boc.dataBytes, intHashes weighed, topHashes idxs weighed⟩

structure Mode where
  withIndex : Bool
  withCRC32C : Bool
  withTopHash : Bool
  withIntHashes : Bool
  withCacheBits : Bool

structure Info where
  refByteSize : Nat
  offsetByteSize : Nat
  hasIndex : Bool
  hasCRC32C : Bool
  hasCacheBits : Bool
  rootCount : Nat
  cellCount : Nat
  dataSize : Nat
  totalSize : Nat

/-- The least number of bytes that hold `n`. -/
def byteCount (n : Nat) : Nat := (Nat.digits 256 n).length

def bocGeneric : Nat := 0xb5ee9c72

section
variable (D : DataCells) (crc32c : List UInt8 → BitVec 32) (mode : Mode)

/-- `none` is the size 0. -/
def computeSizes (bag : Bag D.DataCell) : Option (Nat × Nat × Nat) :=
  if bag.roots = [] ∨ bag.dataBytes = 0 then none
  else
    let rs := byteCount bag.cellCount
    let hashes := ((if mode.withTopHash then bag.topHashes else 0) +
      if mode.withIntHashes then bag.intHashes else 0) * (hashBytes + depthBytes)
    let dataBytesAdj := bag.dataBytes + bag.intRefs * rs + hashes
    let maxOffset := if mode.withCacheBits then dataBytesAdj * 2 else dataBytesAdj
    let os := byteCount maxOffset
    if rs > 4 ∨ os > 8 then none else some (rs, os, dataBytesAdj)

def estimateSerializedSize (bag : Bag D.DataCell) : Option Info :=
  if mode.withCacheBits ∧ ¬ mode.withIndex then none
  else
    match computeSizes D mode bag with
    | none => none
    | some (rs, os, dataBytesAdj) =>
      let rootsOffset := 4 + 1 + 1 + 3 * rs + os
      let indexOffset := rootsOffset + bag.roots.length * rs
      let dataOffset := indexOffset + if mode.withIndex then bag.cellCount * os else 0
      some ⟨rs, os, mode.withIndex, mode.withCRC32C, mode.withCacheBits, bag.roots.length,
        bag.cellCount, dataBytesAdj, dataOffset + dataBytesAdj + if mode.withCRC32C then 4 else 0⟩

def withHash (dci : CellInfo D.DataCell) : Bool :=
  mode.withIntHashes && dci.isSpecial || dci.isRootCell && mode.withTopHash

/-- The buffer for the bytes of one cell. -/
def bufSize : Nat := 256

/-- A cell and its references, as indices from the last cell on. -/
def cellBytes (info : Info) (dci : CellInfo D.DataCell) : List UInt8 :=
  D.serialize dci.dc bufSize (withHash D mode dci) ++
    dci.refIdx.flatMap fun r => Bytes.big info.refByteSize (info.cellCount - 1 - r)

/-- The entries of the index: the end of each cell, and whether it is to be cached. -/
def indexBytes (info : Info) : (offs : Nat) → List (CellInfo D.DataCell) → List UInt8
  | _, [] => []
  | offs, dci :: rest =>
    let offs := offs + (D.serializedSize dci.dc (withHash D mode dci) +
      (D.refs dci.dc).length * info.refByteSize)
    Bytes.big info.offsetByteSize
      (if info.hasCacheBits then offs * 2 + dci.shouldCache.toNat else offs) ++
      indexBytes info offs rest

def headerByte (info : Info) : Nat :=
  info.hasIndex.toNat * 128 + info.hasCRC32C.toNat * 64 + info.hasCacheBits.toNat * 32 +
    info.refByteSize

def serializeToImpl (info : Info) (bag : Bag D.DataCell) : List UInt8 :=
  let ref := Bytes.big info.refByteSize
  let body := Bytes.big 4 bocGeneric ++
    (UInt8.ofNat (headerByte info) :: UInt8.ofNat info.offsetByteSize ::
      (ref bag.cellCount ++ ref bag.roots.length ++ ref 0 ++
        Bytes.big info.offsetByteSize info.dataSize ++
        bag.roots.flatMap (fun i => ref (bag.cellCount - 1 - i)) ++
        (if info.hasIndex then indexBytes D mode info 0 bag.cellList.reverse else []) ++
        bag.cellList.reverse.flatMap (cellBytes D mode info)))
  if info.hasCRC32C then body ++ Bytes.little 4 (crc32c body).toNat else body

def serializeToSlice (bag : Bag D.DataCell) : Except BocError (List UInt8) :=
  match estimateSerializedSize D mode bag with
  | none => .error .noCells
  | some info =>
    let res := serializeToImpl D crc32c mode info bag
    if info.refByteSize < 1 ∨ info.refByteSize > 7 ∨ res.length ≠ info.totalSize then
      .error .wrongSize
    else .ok res

/-- The bytes of a bag of cells with these roots. -/
def serializeRoots (roots : List D.DataCell) : Except BocError (List UInt8) := do
  let (idxs, boc) ← importRoots D roots
  match reorderCells idxs boc with
  | none => .error .fuel
  | some bag => serializeToSlice D crc32c mode bag

end
end BagOfCells

section
variable (D : DataCells) (crc32c : List UInt8 → BitVec 32)

def stdBocSerialize (root : D.DataCell) (mode : BagOfCells.Mode) :
    Except BocError (List UInt8) :=
  BagOfCells.serializeRoots D crc32c mode [root]

def stdBocSerializeMulti (roots : List D.DataCell) (mode : BagOfCells.Mode) :
    Except BocError (List UInt8) :=
  if roots.isEmpty then .ok [] else BagOfCells.serializeRoots D crc32c mode roots

end

end Vm
