import TopWallets.BagOfCellsReader
import TopWallets.Lib.Faults

/- The reader of bags of cells stays within the bytes that it is given, whatever they are
   (`stdBocDeserialize_safe`).

   The size that the header asks for covers the header, the roots, the index and the cells; the
   end of each cell is checked before the cell is read, and its two first bytes tell where its
   parts are. A reference is to a cell that has been read. -/
namespace Vm.BagOfCells
open Faults

/-- What the source would not notice: it reads behind the end of its bytes, or fails a `CHECK`. -/
def ReadError.Fault : ReadError → Prop
  | .outOfRange | .check | .cellWrite => True
  | _ => False

abbrev ReadSafe {α : Type} (x : Except ReadError α) (post : α → Prop) : Prop :=
  Safe ReadError.Fault x post

theorem readInt_safe {data : List UInt8} {offset bytes : Nat} (h : offset + bytes ≤ data.length) :
    ReadSafe (readInt data offset bytes) fun _ => True := by
  rw [readInt, if_pos h]
  exact .ok trivial

theorem readIndex_safe {data : List UInt8} {offset bytes : Nat} (h : offset + bytes ≤ data.length) :
    ReadSafe (readIndex data offset bytes) fun _ => True :=
  (readInt_safe h).bind fun _ _ => trivial

theorem substr_safe {data : List UInt8} {offset : Nat} (h : offset ≤ data.length) (size : Nat) :
    ReadSafe (substr data offset size) fun part =>
      part.length = min size (data.length - offset) := by
  rw [substr, if_pos h]
  refine .ok ?_
  rw [List.length_take, List.length_drop]

/-! ## The header -/

/-- What the parts of a header have to do with each other. -/
structure Header.Valid (h : Header) : Prop where
  cellCount_pos : 0 < h.cellCount
  indexOffset_eq : h.indexOffset =
    h.rootsOffset + if h.hasRoots then h.rootCount * h.refByteSize else 0
  dataOffset_eq : h.dataOffset =
    h.indexOffset + if h.hasIndex then h.cellCount * h.offsetByteSize else 0
  totalSize_eq : h.totalSize = h.dataOffset + h.dataSize + if h.hasCRC32C then 4 else 0

def HeaderResult.Valid : HeaderResult → Prop
  | .header h => h.Valid
  | _ => True

theorem parseCounts_safe {slice : List UInt8} {sz : Nat} (hsz : sz + 6 ≤ slice.length)
    (magic refByteSize offsetByteSize : Nat) (hasIndex hasCRC32C hasCacheBits : Bool) :
    ReadSafe (parseCounts slice sz magic refByteSize offsetByteSize hasIndex hasCRC32C hasCacheBits)
      HeaderResult.Valid := by
  rw [parseCounts]
  refine .ite (fun _ => trivial) fun hroom => ?_
  refine (readIndex_safe (by omega)).bind fun cellCount _ => ?_
  refine .ite (fun _ => trivial) fun _ => .ite (fun _ => trivial) fun hroom => ?_
  refine (readIndex_safe (by omega)).bind fun rootCount _ => .ite (fun _ => trivial) fun _ => ?_
  refine .ite (fun _ => trivial) fun _ => .ite (fun _ => trivial) fun hroom => ?_
  refine (readIndex_safe (by omega)).bind fun absentCount _ => ?_
  refine .ite (fun _ => trivial) fun _ => .ite (fun _ => trivial) fun hroom => ?_
  refine (readInt_safe (by omega)).bind fun dataSize _ => ?_
  refine .ite (fun _ => trivial) fun _ => .ite (fun _ => trivial) fun _ => ?_
  refine .ite (fun _ => trivial) fun _ => ?_
  refine ⟨?_, ?_, rfl, rfl⟩
  · simp only
    omega
  · simp only [decide_eq_true_eq]

theorem parseSerializedHeader_safe (slice : List UInt8) :
    ReadSafe (parseSerializedHeader slice) HeaderResult.Valid := by
  rw [parseSerializedHeader]
  refine .ite (fun _ => trivial) fun hfour => ?_
  refine (readInt_safe (by omega)).bind fun magic _ => .ite (fun _ => trivial) fun _ => ?_
  refine .ite (fun _ => trivial) fun hfive => ?_
  refine (readInt_safe (by omega)).bind fun byte _ => .ite (fun _ => trivial) fun _ => ?_
  refine .ite (fun _ => trivial) fun _ => .ite (fun _ => trivial) fun hsix => ?_
  refine (readInt_safe (by omega)).bind fun offsetByteSize _ => .ite (fun _ => trivial) fun _ => ?_
  exact parseCounts_safe (by omega) ..

/-! ## A cell -/

namespace CellSerializationInfo

/-- Where the parts of a cell are. -/
structure Valid (info : CellSerializationInfo) (refByteSize : Nat) : Prop where
  levelMask_lt : info.levelMask < 8
  refsCnt_le : info.refsCnt ≤ maxRefs
  hashesOffset_eq : info.hashesOffset = 2
  depthOffset_eq : info.withHashes = true →
    info.depthOffset = 2 + LevelMask.hashesCount info.levelMask * hashBytes
  dataOffset_eq : info.withHashes = true →
    info.dataOffset = info.depthOffset + LevelMask.hashesCount info.levelMask * depthBytes
  dataLen_pos : info.dataWithBits = true → 1 ≤ info.dataLen
  dataLen_le : info.dataLen ≤ 128 ∧ (info.dataWithBits = false → info.dataLen ≤ 127)
  refsOffset_eq : info.refsOffset = info.dataOffset + info.dataLen
  endOffset_eq : info.endOffset = info.refsOffset + info.refsCnt * refByteSize

theorem ofBytes_safe {d1 d2 : Nat} (hd1 : d1 < 256) (hd2 : d2 < 256) (refByteSize : Nat) :
    ReadSafe (ofBytes d1 d2 refByteSize) fun info => info.Valid refByteSize := by
  rw [ofBytes]
  refine .ite (fun _ => .ite (fun _ => id) fun _ => id) fun hrefs => ?_
  refine .ok ⟨by simp only; omega, by simp only [maxRefs]; omega, rfl, ?_, ?_, ?_, ?_, rfl, rfl⟩
  · intro hhashes
    simp only at hhashes ⊢
    rw [if_pos hhashes]
  · intro hhashes
    simp only at hhashes ⊢
    rw [if_pos hhashes, if_pos hhashes]
  · simp only [decide_eq_true_eq]
    omega
  · simp only [decide_eq_false_iff_not]
    omega

theorem init_safe (data : List UInt8) (refByteSize : Nat) :
    ReadSafe (init data refByteSize) fun info =>
      info.Valid refByteSize ∧ info.endOffset ≤ data.length := by
  unfold init
  split
  · next d1 d2 rest =>
    have hbytes := ofBytes_safe (UInt8.toNat_lt d1) (UInt8.toNat_lt d2) refByteSize
    exact hbytes.bind fun info hinfo =>
      .ite (fun _ => id) fun hlength => .ok ⟨hinfo, not_lt.1 hlength⟩
  · exact .error id

variable {info : CellSerializationInfo} {refByteSize : Nat} {cell : List UInt8}

theorem getBits_safe (hinfo : info.Valid refByteSize) (hlength : info.endOffset ≤ cell.length) :
    ReadSafe (info.getBits cell) fun bits => bits ≤ maxBits ∧ bits ≤ info.dataLen * 8 := by
  have hrefs := hinfo.refsOffset_eq
  have hend := hinfo.endOffset_eq
  have hle := hinfo.dataLen_le
  rw [getBits, maxBits]
  refine .ite (fun hbits => ?_) fun hbits => ?_
  · have hpos := hinfo.dataLen_pos hbits
    refine (readInt_safe (by omega)).bind fun last _ => .ite (fun _ => id) fun _ => .ok ?_
    omega
  · have hlt := hle.2 (Bool.eq_false_of_not_eq_true hbits)
    exact .ok ⟨by omega, le_rfl⟩

variable {D : DataCells}

theorem length_lower : ∀ mask < 8, ((List.range (LevelMask.level mask)).filter
    (LevelMask.isSignificant mask)).length + 1 = LevelMask.hashesCount mask := by
  decide

theorem checkHashes_safe (hinfo : info.Valid refByteSize) (hlength : info.endOffset ≤ cell.length)
    (hhashes : info.withHashes = true) (res : D.DataCell) :
    ReadSafe (info.checkHashes D cell res) fun _ => True := by
  have hoffset := hinfo.hashesOffset_eq
  have hdepth := hinfo.depthOffset_eq hhashes
  have hdata := hinfo.dataOffset_eq hhashes
  have hrefs := hinfo.refsOffset_eq
  have hend := hinfo.endOffset_eq
  have hcount := length_lower info.levelMask hinfo.levelMask_lt
  simp only [hashBytes, depthBytes] at hdepth hdata
  rw [checkHashes]
  simp only [hashBytes, depthBytes]
  refine (substr_safe (by omega) _).bind fun _ _ => .ite (fun _ => id) fun _ => ?_
  refine (readInt_safe (by omega)).bind fun _ _ => .ite (fun _ => id) fun _ => ?_
  refine .forM fun p hp => ?_
  have hlt := (List.getElem?_eq_some_iff.1 (List.mem_zipIdx_iff_getElem?.1 hp)).1
  rw [checkLevel]
  simp only [hashBytes, depthBytes]
  refine (substr_safe (by omega) _).bind fun _ _ => .ite (fun _ => id) fun _ => ?_
  exact (readInt_safe (by omega)).bind fun _ _ => .ite (fun _ => id) fun _ => trivial

theorem createDataCell_safe (hinfo : info.Valid refByteSize)
    (hlength : info.endOffset ≤ cell.length) {refs : List D.DataCell}
    (hcount : refs.length = info.refsCnt) :
    ReadSafe (info.createDataCell D cell refs) fun _ => True := by
  have hrefs := hinfo.refsOffset_eq
  have hend := hinfo.endOffset_eq
  have hle := hinfo.refsCnt_le
  rw [createDataCell]
  refine (getBits_safe hinfo hlength).bind fun bits hbits => ?_
  refine .ite (fun hlong => by omega) fun _ => .ite (fun hmany => by omega) fun _ => ?_
  refine (Safe.mapError (fun _ => id) fun _ _ => trivial).bind fun res _ => ?_
  refine .ite (fun _ => id) fun _ => .ite (fun _ => id) fun _ => ?_
  refine .ite (fun hhashes => ?_) fun _ => trivial
  exact (checkHashes_safe hinfo hlength hhashes res).bind fun _ _ => trivial

end CellSerializationInfo

/-! ## The bag -/

section
variable {h : Header} {data cells : List UInt8} {index : Index}

/-- The bytes are as many as the header asks for. -/
structure Covers (h : Header) (data : List UInt8) : Prop extends h.Valid where
  totalSize_le : h.totalSize ≤ data.length

/-- There is an entry for each cell. -/
def Index.Valid (h : Header) : Index → Prop
  | .stored offset => h.hasIndex = true ∧ offset = h.indexOffset
  | .custom ends => ends.length = h.cellCount

theorem getIdxEntryRaw_safe (hcovers : Covers h data) (hindex : index.Valid h) {i : Nat}
    (hi : i < h.cellCount) : ReadSafe (getIdxEntryRaw h data index i) fun _ => True := by
  cases index with
  | custom ends =>
    have hlt : i < ends.length := hi.trans_eq hindex.symm
    rw [getIdxEntryRaw, List.getElem?_eq_getElem hlt]
    exact .ok trivial
  | stored offset =>
    obtain ⟨hhas, rfl⟩ := hindex
    have hdata := hcovers.dataOffset_eq
    have htotal := hcovers.totalSize_eq
    have hle := hcovers.totalSize_le
    rw [if_pos hhas] at hdata
    have hmul : i * h.offsetByteSize + h.offsetByteSize ≤ h.cellCount * h.offsetByteSize := by
      rw [← Nat.succ_mul]
      exact Nat.mul_le_mul_right _ hi
    rw [getIdxEntryRaw, if_pos hi]
    exact readInt_safe (by omega)

theorem getIdxEntry_safe (hcovers : Covers h data) (hindex : index.Valid h) {i : Nat}
    (hi : i ≤ h.cellCount) : ReadSafe (getIdxEntry h data index i) fun _ => True := by
  cases i with
  | zero => exact .ok trivial
  | succ i => exact (getIdxEntryRaw_safe hcovers hindex hi).bind fun _ _ => trivial

theorem getCellSlice_safe (hcovers : Covers h data) (hindex : index.Valid h) {i : Nat}
    (hi : i < h.cellCount) : ReadSafe (getCellSlice h data index cells i) fun _ => True := by
  refine (getIdxEntry_safe hcovers hindex hi.le).bind fun offs _ => ?_
  refine (getIdxEntry_safe hcovers hindex hi).bind fun offsEnd _ => .ite (fun _ => id) fun hle => ?_
  exact (substr_safe (by omega) _).mono fun _ _ => trivial

/-- There is a count for each cell where they are kept. -/
def CountsValid (h : Header) (counts : List Nat) : Prop :=
  h.hasCacheBits = true → counts.length = h.cellCount

theorem countIf_safe {counts : List Nat} (hcounts : CountsValid h counts) {i : Nat}
    (hi : i < h.cellCount) : ReadSafe (countIf h counts i) (CountsValid h) := by
  refine .ite (fun hcache => ?_) fun _ => .ok hcounts
  have hlength := hcounts hcache
  rw [countRef, if_pos (by omega)]
  refine .ok fun _ => ?_
  rw [List.length_modify, hlength]

/-- The cells behind `idx` have been read. -/
theorem readRef_safe {C : Type} {cellSlice : List UInt8} {cellsSpan : List C} {idx offset : Nat}
    (hidx : idx < h.cellCount) (hspan : cellsSpan.length = h.cellCount - 1 - idx)
    (hoffset : offset + h.refByteSize ≤ cellSlice.length) :
    ReadSafe (readRef h cellSlice cellsSpan idx offset) fun ref => ref.1 < h.cellCount := by
  refine (readIndex_safe hoffset).bind fun refIdx _ => .ite (fun _ => id) fun hlo => ?_
  refine .ite (fun _ => id) fun hhi => ?_
  have hlt : h.cellCount - refIdx.toNat - 1 < cellsSpan.length := by omega
  rw [List.getElem?_eq_getElem hlt]
  refine .ok ?_
  change refIdx.toNat < h.cellCount
  omega

variable {D : DataCells}

theorem deserializeCell_safe (hcovers : Covers h data) (hindex : index.Valid h) {idx : Nat}
    (hidx : idx < h.cellCount) {cellsSpan : List D.DataCell}
    (hspan : cellsSpan.length = h.cellCount - 1 - idx) {counts : List Nat}
    (hcounts : CountsValid h counts) :
    ReadSafe (deserializeCell h D data index cells idx cellsSpan counts) fun cell =>
      CountsValid h cell.2 := by
  refine (getCellSlice_safe hcovers hindex hidx).bind fun cellSlice _ => ?_
  refine (CellSerializationInfo.init_safe cellSlice h.refByteSize).bind fun info hinfo => ?_
  obtain ⟨hinfo, hlength⟩ := hinfo
  have hend := hinfo.endOffset_eq
  refine .ite (fun _ => id) fun _ => ?_
  refine (Safe.foldlM_range (fun k (state : List D.DataCell × List Nat) =>
    state.1.length = k ∧ CountsValid h state.2) ⟨rfl, hcounts⟩ ?_).bind fun state hstate => ?_
  · intro k hk state hstate
    have hmul : k * h.refByteSize + h.refByteSize ≤ info.refsCnt * h.refByteSize := by
      rw [← Nat.succ_mul]
      exact Nat.mul_le_mul_right _ hk
    refine (readRef_safe hidx hspan (by omega)).bind fun ref href => ?_
    refine (countIf_safe hstate.2 href).bind fun counts hcounts => .ok ⟨?_, hcounts⟩
    rw [List.length_append, hstate.1, List.length_singleton]
  · exact (CellSerializationInfo.createDataCell_safe hinfo hlength hstate.1).bind fun _ _ =>
      hstate.2

theorem rootIndex_safe (hcovers : Covers h data) {i : Nat} (hi : i < h.rootCount) :
    ReadSafe (rootIndex h data i) fun _ => True := by
  refine .ite (fun hroots => ?_) fun _ => .ok trivial
  have hindex := hcovers.indexOffset_eq
  have hdata := hcovers.dataOffset_eq
  have htotal := hcovers.totalSize_eq
  have hle := hcovers.totalSize_le
  have hmul : i * h.refByteSize + h.refByteSize ≤ h.rootCount * h.refByteSize := by
    rw [← Nat.succ_mul]
    exact Nat.mul_le_mul_right _ hi
  rw [if_pos hroots] at hindex
  exact readIndex_safe (by omega)

theorem readRoots_safe (hcovers : Covers h data) :
    ReadSafe (readRoots h data) fun roots =>
      roots.1.length = h.rootCount ∧ (∀ idx ∈ roots.1, idx < h.cellCount) ∧
        CountsValid h roots.2 := by
  refine Safe.foldlM_range (fun k (state : List Nat × List Nat) =>
    state.1.length = k ∧ (∀ idx ∈ state.1, idx < h.cellCount) ∧ CountsValid h state.2)
    ⟨rfl, ?_, ?_⟩ ?_
  · intro idx hidx
    cases hidx
  · intro hcache
    rw [if_pos hcache, List.length_replicate]
  · intro k hk state hstate
    refine (rootIndex_safe hcovers hk).bind fun idx _ => .ite (fun _ => id) fun hrange => ?_
    have hidx : idx.toNat < h.cellCount := by omega
    obtain ⟨hlength, hroots, hcounts⟩ := hstate
    refine (countIf_safe hcounts hidx).bind fun counts hcounts =>
      .ok ⟨?_, fun i hi => ?_, hcounts⟩
    · rw [List.length_append, hlength, List.length_singleton]
    · rcases List.mem_append.1 hi with hi | hi
      · exact hroots i hi
      · rw [List.mem_singleton.1 hi]
        exact hidx

theorem customIndex_safe (refByteSize n cur : Nat) (cells : List UInt8) :
    ReadSafe (customIndex refByteSize n cur cells) fun ends => ends.length = n := by
  induction n generalizing cur cells with
  | zero => exact .ite (fun _ => .ok rfl) fun _ => id
  | succ n ih =>
    have hinit := CellSerializationInfo.init_safe cells refByteSize
    have hread : ReadSafe ((CellSerializationInfo.init cells refByteSize).mapError
        fun _ => ReadError.invalidCell) fun info => info.endOffset ≤ cells.length :=
      .mapError (fun _ => id) fun info hinfo => by
        rw [hinfo] at hinit
        exact hinit.2
    refine hread.bind fun info hinfo => ?_
    · refine (substr_safe hinfo _).bind fun rest _ => (ih _ _).bind fun ends hends => .ok ?_
      rw [List.length_cons, hends]

theorem findIndex_safe (h : Header) (cells : List UInt8) :
    ReadSafe (findIndex h cells) fun index => index.Valid h :=
  .ite (fun hhas => .ok ⟨hhas, rfl⟩) fun _ => (customIndex_safe ..).map fun _ hends => hends

theorem checkCacheFlags_safe (hcovers : Covers h data) (hindex : index.Valid h) {counts : List Nat}
    (hcounts : CountsValid h counts) :
    ReadSafe (checkCacheFlags h data index counts) fun _ => True := by
  refine .ite (fun hcache => .forM fun idx hidx => ?_) fun _ => .ok trivial
  have hlt := List.mem_range.1 hidx
  have hlength := hcounts hcache
  rw [checkCacheFlag, List.getElem?_eq_getElem (by omega)]
  have hentry : ReadSafe (getCacheEntry h data index idx) fun _ => True :=
    .ite (fun _ => trivial) fun _ =>
      (getIdxEntryRaw_safe hcovers hindex hlt).bind fun _ _ => trivial
  exact hentry.bind fun _ _ => .ite (fun _ => id) fun _ => trivial

/-- No bytes make the reader of cells read behind their end. -/
theorem deserializeCells_safe (hcovers : Covers h data) (crc32c : List UInt8 → BitVec 32)
    (maxRoots : Nat) : ReadSafe (deserializeCells h D crc32c data maxRoots) fun roots =>
      roots.length ≤ maxRoots := by
  have htotal := hcovers.totalSize_eq
  have hle := hcovers.totalSize_le
  refine .ite (fun _ => id) fun hmax => ?_
  have hcheck : ReadSafe (checkCRC32C h crc32c data) fun _ => True := by
    refine .ite (fun _ => trivial) fun hcrc => ?_
    rw [if_pos (not_not.1 hcrc)] at htotal
    exact .ite (fun hshort => by omega) fun _ => .ite (fun _ => id) fun _ => trivial
  refine hcheck.bind fun _ _ => ?_
  refine (readRoots_safe hcovers).bind fun roots hroots => ?_
  refine (substr_safe (by omega) _).bind fun cells _ => ?_
  refine (findIndex_safe h cells).bind fun index hindex => ?_
  refine (Safe.foldlM_range (fun i (state : List D.DataCell × List Nat) =>
    state.1.length = i ∧ CountsValid h state.2) ⟨rfl, hroots.2.2⟩ ?_).bind fun state hstate => ?_
  · intro i hi state hstate
    refine (deserializeCell_safe hcovers hindex (by omega) (by omega) hstate.2).bind
      fun cell hcell => .ok ⟨?_, hcell⟩
    rw [List.length_append, hstate.1, List.length_singleton]
  · refine (checkCacheFlags_safe hcovers hindex hstate.2).bind fun _ _ =>
      (Safe.mapM fun idx hidx => ?_).mono fun cells hcells => ?_
    · have hlt := hroots.2.1 idx hidx
      rw [rootCell, List.getElem?_eq_getElem (by omega)]
      exact .ok trivial
    · rw [hcells, hroots.1]
      exact not_lt.1 hmax

end

theorem deserialize_safe (D : DataCells) (crc32c : List UInt8 → BitVec 32) (data : List UInt8)
    (maxRoots : Nat) : ReadSafe (deserialize D crc32c data maxRoots) fun roots =>
      roots.length ≤ maxRoots := by
  refine (parseSerializedHeader_safe data).bind fun result hresult => ?_
  cases result with
  | invalid => exact .error id
  | needed size => exact .ok (Nat.zero_le _)
  | header h =>
    exact .ite (fun _ => .ok (Nat.zero_le _)) fun hle =>
      deserializeCells_safe ⟨hresult, not_lt.1 hle⟩ crc32c maxRoots

end Vm.BagOfCells

namespace Vm
open BagOfCells
variable (D : DataCells) (crc32c : List UInt8 → BitVec 32)

/-- Whatever the bytes are, they are not left, and no assertion about them fails. -/
theorem stdBocDeserialize_safe (data : List UInt8) (canBeEmpty : Bool) :
    ReadSafe (stdBocDeserialize D crc32c data canBeEmpty) fun root =>
      ∀ c ∈ root, LevelMask.level (D.levelMask c) = 0 := by
  refine .ite (fun _ => .ok fun c hc => by cases hc) fun _ =>
    (deserialize_safe D crc32c data 1).bind fun roots _ => ?_
  split
  · refine .ite (fun _ => id) fun hlevel => .ok fun c hc => ?_
    obtain rfl := Option.mem_some_iff.1 hc
    exact not_not.1 hlevel
  · exact .error id

/-- The same of the roots of a bag, of which there are no more than are asked for. -/
theorem stdBocDeserializeMulti_safe (data : List UInt8) (maxRoots : Nat) :
    ReadSafe (stdBocDeserializeMulti D crc32c data maxRoots) fun roots =>
      roots.length ≤ maxRoots ∧ ∀ c ∈ roots, LevelMask.level (D.levelMask c) = 0 := by
  refine .ite (fun _ => .ok ⟨Nat.zero_le _, fun c hc => by cases hc⟩) fun _ =>
    (deserialize_safe D crc32c data maxRoots).bind fun roots hroots => ?_
  refine .ite (fun _ => id) fun hlevels => .ok ⟨hroots, fun c hc => ?_⟩
  by_contra hlevel
  exact hlevels (List.any_eq_true.2 ⟨c, hc, decide_eq_true hlevel⟩)

end Vm
