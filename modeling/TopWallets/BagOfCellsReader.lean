import TopWallets.BagOfCells

/- The reader of bags of cells: `parse_serialized_header`, `CellSerializationInfo` and
   `BagOfCells::deserialize` of `vm/boc.cpp`.

   Bytes are read at offsets, and an offset behind the end is the error `outOfRange` here, which
   the source would not notice. Sizes and offsets are natural numbers, a number that goes
   through an `int` is the signed one of its bits.

   Correspondence (C++ ↔ Lean):
     `read_int`                             ↔ `readInt`
     `substr`                               ↔ `substr`
     `CellSerializationInfo`                ↔ `CellSerializationInfo`
     `parse_serialized_header`              ↔ `parseSerializedHeader`
     `get_idx_entry`, `get_cell_slice`      ↔ `getIdxEntry`, `getCellSlice`
     `deserialize_cell`, `deserialize`      ↔ `deserializeCell`, `deserialize`
     `std_boc_deserialize`, `std_boc_deserialize_multi`
                                            ↔ `stdBocDeserialize`, `stdBocDeserializeMulti` -/
namespace Vm.BagOfCells

/-- Why a bag of cells is not read. -/
inductive ReadError where
  | outOfRange
  | check
  | cellWrite
  | notEnoughBytes
  | invalidFirstByte
  | absentCells
  | overlongEncoding
  | create (error : String)
  | isSpecialMismatch
  | levelMaskMismatch
  | hashMismatch
  | depthMismatch
  | lowerHashMismatch
  | lowerDepthMismatch
  | invalidHeader
  | tooManyRoots
  | crcMismatch
  | invalidRootIndex
  | invalidCell
  | endOffset
  | invalidIndexEntry
  | unusedSpace
  | smallerIndex
  | nonExistentCell
  | wrongCacheFlag
  | notOneRoot
  | nonZeroLevel

def readInt (data : List UInt8) (offset bytes : Nat) : Except ReadError Nat :=
  if offset + bytes ≤ data.length then .ok (Bytes.ofBig ((data.drop offset).take bytes))
  else .error .outOfRange

/-- `Slice::substr`, whose `CHECK` bounds the start only. -/
def substr (data : List UInt8) (offset size : Nat) : Except ReadError (List UInt8) :=
  if offset ≤ data.length then .ok ((data.drop offset).take size) else .error .check

/-! ## Cells -/

structure CellSerializationInfo where
  special : Bool
  levelMask : Nat
  withHashes : Bool
  hashesOffset : Nat
  depthOffset : Nat
  dataOffset : Nat
  dataLen : Nat
  dataWithBits : Bool
  refsOffset : Nat
  refsCnt : Nat
  endOffset : Nat

namespace CellSerializationInfo

def ofBytes (d1 d2 refByteSize : Nat) : Except ReadError CellSerializationInfo :=
  let refsCnt := d1 % 8
  let levelMask := d1 / 32
  let withHashes := d1.testBit 4
  if refsCnt > 4 then
    if refsCnt ≠ 7 ∨ ¬ withHashes then .error .invalidFirstByte else .error .absentCells
  else
    let n := LevelMask.hashesCount levelMask
    let hashesOffset := 2
    let depthOffset := hashesOffset + if withHashes then n * hashBytes else 0
    let dataOffset := depthOffset + if withHashes then n * depthBytes else 0
    let dataLen := d2 / 2 + d2 % 2
    let refsOffset := dataOffset + dataLen
    .ok ⟨d1.testBit 3, levelMask, withHashes, hashesOffset, depthOffset, dataOffset, dataLen,
      d2 % 2 = 1, refsOffset, refsCnt, refsOffset + refsCnt * refByteSize⟩

/-- `init` at the start of a slice. -/
def init (data : List UInt8) (refByteSize : Nat) : Except ReadError CellSerializationInfo :=
  match data with
  | d1 :: d2 :: _ => do
    let info ← ofBytes d1.toNat d2.toNat refByteSize
    if data.length < info.endOffset then .error .notEnoughBytes else return info
  | _ => .error .notEnoughBytes

def countTrailingZeroes (byte : Nat) : Nat :=
  ((List.range 8).takeWhile fun i => ¬ byte.testBit i).length

variable (info : CellSerializationInfo)

def getBits (cell : List UInt8) : Except ReadError Nat :=
  if info.dataWithBits then do
    let last ← readInt cell (info.dataOffset + info.dataLen - 1) 1
    if last % 128 = 0 then .error .overlongEncoding
    else return (info.dataLen - 1) * 8 + 7 - countTrailingZeroes last
  else return info.dataLen * 8

variable (D : DataCells)

/-- One of the levels below the last one, whose hash is the `hashI`-th. -/
def checkLevel (cellSlice : List UInt8) (res : D.DataCell) (hashI levelI : Nat) :
    Except ReadError Unit := do
  if (← substr cellSlice (info.hashesOffset + hashBytes * hashI) hashBytes) ≠ D.hash res levelI then
    .error .lowerHashMismatch
  if (← readInt cellSlice (info.depthOffset + depthBytes * hashI) depthBytes) ≠
      D.depth res levelI then
    .error .lowerDepthMismatch

def checkHashes (cellSlice : List UInt8) (res : D.DataCell) : Except ReadError Unit := do
  let hashN := LevelMask.hashesCount info.levelMask
  let level := LevelMask.level info.levelMask
  if D.hash res level ≠
      (← substr cellSlice (info.hashesOffset + hashBytes * (hashN - 1)) hashBytes) then
    .error .hashMismatch
  if D.depth res level ≠
      (← readInt cellSlice (info.depthOffset + depthBytes * (hashN - 1)) depthBytes) then
    .error .depthMismatch
  let lower := (List.range level).filter (LevelMask.isSignificant info.levelMask)
  lower.zipIdx.forM fun (levelI, hashI) => info.checkLevel D cellSlice res hashI levelI

def createDataCell (cellSlice : List UInt8) (refs : List D.DataCell) :
    Except ReadError D.DataCell := do
  let bits ← info.getBits cellSlice
  if cellSlice.length * 8 < info.dataOffset * 8 + bits then .error .outOfRange
  if bits > maxBits ∨ refs.length > maxRefs then .error .cellWrite
  let data := (BitField.ofBytes (cellSlice.drop info.dataOffset)).take bits
  let res ← (D.create data refs info.special).mapError .create
  if D.special res ≠ info.special then .error .isSpecialMismatch
  if D.levelMask res ≠ info.levelMask then .error .levelMaskMismatch
  if info.withHashes then info.checkHashes D cellSlice res
  return res

end CellSerializationInfo

/-! ## The header -/

def bocIdx : Nat := 0x68ff65f3
def bocIdxCrc32c : Nat := 0xacc3a728

structure Header where
  refByteSize : Nat
  offsetByteSize : Nat
  rootCount : Nat
  cellCount : Nat
  absentCount : Nat
  hasIndex : Bool
  hasRoots : Bool
  hasCRC32C : Bool
  hasCacheBits : Bool
  rootsOffset : Nat
  indexOffset : Nat
  dataOffset : Nat
  dataSize : Nat
  totalSize : Nat

/-- What the parser of the header returns: 0, the size that is needed, negated, or the size of the
bag of cells with its header. -/
inductive HeaderResult where
  | invalid
  | needed (size : Nat)
  | header (h : Header)

/-- An `int` of `bytes` bytes, of which there are at most 4. -/
def readIndex (data : List UInt8) (offset bytes : Nat) : Except ReadError Int := do
  return Bytes.signed 32 (← readInt data offset bytes)

/-- The part of the header behind its first 6 bytes. -/
def parseCounts (slice : List UInt8) (sz magic refByteSize offsetByteSize : Nat)
    (hasIndex hasCRC32C hasCacheBits : Bool) : Except ReadError HeaderResult := do
  let rootsOffset := 6 + 3 * refByteSize + offsetByteSize
  if sz < refByteSize then return .needed rootsOffset
  let cellCount ← readIndex slice 6 refByteSize
  if cellCount ≤ 0 then return .invalid
  if sz < 2 * refByteSize then return .needed rootsOffset
  let rootCount ← readIndex slice (6 + refByteSize) refByteSize
  if rootCount ≤ 0 then return .invalid
  if magic ≠ bocGeneric ∧ rootCount ≠ 1 then return .invalid
  let cellCount := cellCount.toNat
  let rootCount := rootCount.toNat
  let indexOffset := rootsOffset + if magic = bocGeneric then rootCount * refByteSize else 0
  let dataOffset := indexOffset + if hasIndex then cellCount * offsetByteSize else 0
  if sz < 3 * refByteSize then return .needed rootsOffset
  let absentCount ← readIndex slice (6 + 2 * refByteSize) refByteSize
  if absentCount < 0 ∨ absentCount > cellCount then return .invalid
  if sz < 3 * refByteSize + offsetByteSize then return .needed rootsOffset
  let dataSize ← readInt slice (6 + 3 * refByteSize) offsetByteSize
  if dataSize > cellCount * 2 ^ 10 then return .invalid
  if dataSize > 2 ^ 40 then return .invalid
  if dataSize < cellCount * (2 + refByteSize) - refByteSize then return .invalid
  return .header
    { refByteSize, offsetByteSize, rootCount, cellCount, absentCount := absentCount.toNat
      hasIndex, hasRoots := magic = bocGeneric, hasCRC32C, hasCacheBits
      rootsOffset, indexOffset, dataOffset, dataSize
      totalSize := dataOffset + dataSize + if hasCRC32C then 4 else 0 }

def parseSerializedHeader (slice : List UInt8) : Except ReadError HeaderResult := do
  let sz := min slice.length 0xffff
  if sz < 4 then return .needed 10
  let magic ← readInt slice 0 4
  if magic ≠ bocGeneric ∧ magic ≠ bocIdx ∧ magic ≠ bocIdxCrc32c then return .invalid
  if sz < 5 then return .needed 10
  let byte ← readInt slice 4 1
  let hasIndex := if magic = bocGeneric then byte.testBit 7 else true
  let hasCRC32C := if magic = bocGeneric then byte.testBit 6 else decide (magic = bocIdxCrc32c)
  let hasCacheBits := if magic = bocGeneric then byte.testBit 5 else false
  if hasCacheBits ∧ ¬ hasIndex then return .invalid
  let refByteSize := byte % 8
  if refByteSize > 4 ∨ refByteSize < 1 then return .invalid
  if sz < 6 then return .needed (7 + 3 * refByteSize)
  let offsetByteSize ← readInt slice 5 1
  if offsetByteSize > 8 ∨ offsetByteSize < 1 then return .invalid
  parseCounts slice (sz - 6) magic refByteSize offsetByteSize hasIndex hasCRC32C hasCacheBits

/-! ## The cells of a bag -/

/-- Where the ends of the cells are found: in the data from an offset on, or in a table. -/
inductive Index where
  | stored (offset : Nat)
  | custom (ends : List Nat)

section
variable (h : Header)

def getIdxEntryRaw (data : List UInt8) (index : Index) (i : Nat) : Except ReadError Nat :=
  match index with
  | .custom ends =>
    match ends[i]? with
    | some e => .ok e
    | none => .error .outOfRange
  | .stored offset =>
    if i < h.cellCount then readInt data (offset + i * h.offsetByteSize) h.offsetByteSize
    else .ok 0

/-- The end of the cell before `i`. -/
def getIdxEntry (data : List UInt8) (index : Index) : (i : Nat) → Except ReadError Nat
  | 0 => .ok 0
  | i + 1 => do
    let raw ← getIdxEntryRaw h data index i
    return if h.hasCacheBits then raw / 2 else raw

def getCacheEntry (data : List UInt8) (index : Index) (i : Nat) : Except ReadError Bool :=
  if ¬ h.hasCacheBits ∨ ¬ h.hasIndex then .ok true
  else do return (← getIdxEntryRaw h data index i) % 2 = 1

def getCellSlice (data : List UInt8) (index : Index) (cells : List UInt8) (idx : Nat) :
    Except ReadError (List UInt8) := do
  let offs ← getIdxEntry h data index idx
  let offsEnd ← getIdxEntry h data index (idx + 1)
  if offs > offsEnd ∨ offsEnd > cells.length then .error .invalidIndexEntry
  else substr cells offs (offsEnd - offs)

/-- One more reference to a cell; two are as many as more. -/
def countRef (counts : List Nat) (i : Nat) : Except ReadError (List Nat) :=
  if i < counts.length then .ok (counts.modify i fun cnt => if cnt < 2 then cnt + 1 else cnt)
  else .error .outOfRange

/-- The counts are kept for the cache bits only. -/
def countIf (counts : List Nat) (i : Nat) : Except ReadError (List Nat) :=
  if h.hasCacheBits then countRef counts i else .ok counts

/-- The index of a reference of the cell `idx`, and the cell, among those that are there, the last
one of the bag first. -/
def readRef {C : Type} (cellSlice : List UInt8) (cellsSpan : List C) (idx offset : Nat) :
    Except ReadError (Nat × C) := do
  let refIdx ← readIndex cellSlice offset h.refByteSize
  if refIdx ≤ idx then .error .smallerIndex
  if refIdx ≥ h.cellCount then .error .nonExistentCell
  match cellsSpan[h.cellCount - refIdx.toNat - 1]? with
  | some cell => return (refIdx.toNat, cell)
  | none => .error .outOfRange

/-- The next reference, in the loop over them. -/
def deserializeRef {C : Type} (cellSlice : List UInt8) (cellsSpan : List C) (idx refsOffset : Nat)
    (state : List C × List Nat) (k : Nat) : Except ReadError (List C × List Nat) := do
  let (refs, counts) := state
  let (refIdx, ref) ← readRef h cellSlice cellsSpan idx (refsOffset + k * h.refByteSize)
  return (refs ++ [ref], ← countIf h counts refIdx)

variable (D : DataCells)

/-- A cell with the counts of the references after it. -/
def deserializeCell (data : List UInt8) (index : Index) (cells : List UInt8) (idx : Nat)
    (cellsSpan : List D.DataCell) (counts : List Nat) :
    Except ReadError (D.DataCell × List Nat) := do
  let cellSlice ← getCellSlice h data index cells idx
  let info ← CellSerializationInfo.init cellSlice h.refByteSize
  if info.endOffset ≠ cellSlice.length then .error .unusedSpace
  let (refs, counts) ← (List.range info.refsCnt).foldlM
    (deserializeRef h cellSlice cellsSpan idx info.refsOffset) ([], counts)
  return (← info.createDataCell D cellSlice refs, counts)

def rootIndex (data : List UInt8) (i : Nat) : Except ReadError Int :=
  if h.hasRoots then readIndex data (h.rootsOffset + i * h.refByteSize) h.refByteSize else .ok 0

def readRoot (data : List UInt8) (state : List Nat × List Nat) (i : Nat) :
    Except ReadError (List Nat × List Nat) := do
  let (idxs, counts) := state
  let idx ← rootIndex h data i
  if idx < 0 ∨ idx ≥ h.cellCount then .error .invalidRootIndex
  return (idxs ++ [idx.toNat], ← countIf h counts idx.toNat)

/-- The indices of the roots, counted from the first cell of the bag. -/
def readRoots (data : List UInt8) : Except ReadError (List Nat × List Nat) :=
  (List.range h.rootCount).foldlM (readRoot h data)
    ([], if h.hasCacheBits then List.replicate h.cellCount 0 else [])

/-- The cells from the last one of the bag on. -/
def readCell (data : List UInt8) (index : Index) (cells : List UInt8)
    (state : List D.DataCell × List Nat) (i : Nat) :
    Except ReadError (List D.DataCell × List Nat) := do
  let (cellList, counts) := state
  let (cell, counts) ←
    deserializeCell h D data index cells (h.cellCount - 1 - i) cellList counts
  return (cellList ++ [cell], counts)

/-- The ends of the next `n` cells. -/
def customIndex (refByteSize : Nat) : (n cur : Nat) → List UInt8 → Except ReadError (List Nat)
  | 0, _, cells => if cells.isEmpty then .ok [] else .error .endOffset
  | n + 1, cur, cells => do
    let info ← (CellSerializationInfo.init cells refByteSize).mapError fun _ => .invalidCell
    let rest ← substr cells info.endOffset cells.length
    return (cur + info.endOffset) :: (← customIndex refByteSize n (cur + info.endOffset) rest)

def checkCacheFlag (data : List UInt8) (index : Index) (counts : List Nat) (idx : Nat) :
    Except ReadError Unit := do
  match counts[idx]? with
  | none => .error .outOfRange
  | some cnt => if decide (cnt > 1) ≠ (← getCacheEntry h data index idx) then .error .wrongCacheFlag

def checkCacheFlags (data : List UInt8) (index : Index) (counts : List Nat) :
    Except ReadError Unit :=
  if h.hasCacheBits then (List.range h.cellCount).forM (checkCacheFlag h data index counts)
  else .ok ()

def rootCell {C : Type} (cellList : List C) (idx : Nat) : Except ReadError C :=
  match cellList[h.cellCount - idx - 1]? with
  | some cell => .ok cell
  | none => .error .outOfRange

def checkCRC32C (crc32c : List UInt8 → BitVec 32) (data : List UInt8) : Except ReadError Unit :=
  if ¬ h.hasCRC32C then .ok ()
  else if data.length < 4 then .error .outOfRange
  else if (crc32c (data.take (data.length - 4))).toNat ≠
      Bytes.ofLittle (data.drop (data.length - 4)) then .error .crcMismatch
  else .ok ()

/-- Where the ends of the cells are; without an index they are found in the cells. -/
def findIndex (cells : List UInt8) : Except ReadError Index :=
  if h.hasIndex then .ok (.stored h.indexOffset)
  else Index.custom <$> customIndex h.refByteSize h.cellCount 0 cells

/-- The roots of a bag of the size that its header says. -/
def deserializeCells (crc32c : List UInt8 → BitVec 32) (data : List UInt8) (maxRoots : Nat) :
    Except ReadError (List D.DataCell) :=
  if h.rootCount > maxRoots then .error .tooManyRoots
  else do
    checkCRC32C h crc32c data
    let (roots, counts) ← readRoots h data
    let cells ← substr data h.dataOffset h.dataSize
    let index ← findIndex h cells
    let (cellList, counts) ← (List.range h.cellCount).foldlM (readCell h D data index cells)
      ([], counts)
    checkCacheFlags h data index counts
    roots.mapM (rootCell h cellList)

end

/-- The roots; there are none when there are not enough bytes, which is no error. -/
def deserialize (D : DataCells) (crc32c : List UInt8 → BitVec 32) (data : List UInt8)
    (maxRoots : Nat) : Except ReadError (List D.DataCell) := do
  match ← parseSerializedHeader data with
  | .invalid => .error .invalidHeader
  | .needed _ => return []
  | .header h =>
    if h.totalSize > data.length then return [] else deserializeCells h D crc32c data maxRoots

end Vm.BagOfCells

namespace Vm
variable (D : DataCells) (crc32c : List UInt8 → BitVec 32)

/-- `none` is a null reference. -/
def stdBocDeserialize (data : List UInt8) (canBeEmpty : Bool) :
    Except BagOfCells.ReadError (Option D.DataCell) :=
  if data.isEmpty ∧ canBeEmpty then .ok none
  else do
    match ← BagOfCells.deserialize D crc32c data 1 with
    | [root] => if LevelMask.level (D.levelMask root) ≠ 0 then .error .nonZeroLevel else
      return some root
    | _ => .error .notOneRoot

def stdBocDeserializeMulti (data : List UInt8) (maxRoots : Nat) :
    Except BagOfCells.ReadError (List D.DataCell) :=
  if data.isEmpty then .ok []
  else do
    let roots ← BagOfCells.deserialize D crc32c data maxRoots
    if roots.any fun root => LevelMask.level (D.levelMask root) ≠ 0 then .error .nonZeroLevel
    else return roots

end Vm
