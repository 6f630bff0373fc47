import TopWallets.BagOfCellsCells

/- The bytes of a bag: how many they are, what their parts are, and that the header is read back
   (`parseSerializedHeader_spec`).

   The writer computes the size first and compares it at the end (`serializeToSlice_spec`): it is
   another one where a cell with its hashes does not fit the buffer that is used for it. -/
namespace Vm.BagOfCells
open Ton (ok_bind)

variable {D : DataCells}

/-! ## Sizes -/

theorem byteCount_le_iff {n k : Nat} : byteCount n ≤ k ↔ n < 256 ^ k :=
  Nat.digits_length_le_iff (by decide) n

theorem byteCount_pos {n : Nat} (h : 0 < n) : 1 ≤ byteCount n := by
  by_contra hlt
  have hle := byteCount_le_iff.1 (Nat.le_of_lt_succ (not_le.1 hlt))
  omega

def cellSize (mode : Mode) (refByteSize : Nat) (dci : CellInfo D.DataCell) : Nat :=
  D.serializedSize dci.dc (withHash D mode dci) + (D.refs dci.dc).length * refByteSize

/-- What the writer makes of its mode and its bag. -/
structure Sized (mode : Mode) (bag : Bag D.DataCell) (info : Info) : Prop where
  hasIndex_eq : info.hasIndex = mode.withIndex
  hasCRC32C_eq : info.hasCRC32C = mode.withCRC32C
  hasCacheBits_eq : info.hasCacheBits = mode.withCacheBits
  index_of_cacheBits : info.hasCacheBits = true → info.hasIndex = true
  rootCount_eq : info.rootCount = bag.roots.length
  cellCount_eq : info.cellCount = bag.cellCount
  refByteSize_pos : 1 ≤ info.refByteSize
  refByteSize_le : info.refByteSize ≤ 4
  cellCount_lt : bag.cellCount < 256 ^ info.refByteSize
  offsetByteSize_pos : 1 ≤ info.offsetByteSize
  offsetByteSize_le : info.offsetByteSize ≤ 8
  dataSize_eq : info.dataSize =
    (bag.cellList.map (cellSize mode info.refByteSize)).sum
  dataSize_lt : (if info.hasCacheBits then info.dataSize * 2 else info.dataSize) <
    256 ^ info.offsetByteSize
  dataSize_le : info.dataSize ≤ bag.cellCount * 2 ^ 9
  totalSize_eq : info.totalSize = 6 + 3 * info.refByteSize + info.offsetByteSize +
    bag.roots.length * info.refByteSize +
    (if info.hasIndex then bag.cellCount * info.offsetByteSize else 0) + info.dataSize +
    if info.hasCRC32C then 4 else 0

section
variable {bag : Bag D.DataCell} {roots : List D.DataCell} {mode : Mode}

theorem Bag.WellFormed.length_refs (h : bag.WellFormed roots) {info : CellInfo D.DataCell}
    (hinfo : info ∈ bag.cellList) : info.refIdx.length = (D.refs info.dc).length := by
  obtain ⟨i, hi, rfl⟩ := List.mem_iff_getElem.1 hinfo
  exact (h.sound i _ (List.getElem?_eq_getElem hi)).1.length_eq

variable (mode) in
/-- The bytes of the cells are as many as was computed. -/
theorem sum_cellSize (h : bag.WellFormed roots) (rs : Nat) :
    bag.dataBytes + bag.intRefs * rs + ((if mode.withTopHash then bag.topHashes else 0) +
      if mode.withIntHashes then bag.intHashes else 0) * (hashBytes + depthBytes) =
      (bag.cellList.map (cellSize mode rs)).sum := by
  have hcell : ∀ info ∈ bag.cellList, cellSize mode rs info =
      D.serializedSize info.dc false + info.refIdx.length * rs +
        (if mode.withIntHashes then if info.wt = 0 then info.hcnt else 0 else 0) *
          (hashBytes + depthBytes) := by
    intro info hinfo
    obtain ⟨hroot, hhcnt⟩ := h.hcnt_eq info hinfo
    rw [cellSize, h.length_refs hinfo, withHash, CellInfo.isSpecial, hroot, hhcnt]
    simp only [DataCells.serializedSize, Bool.false_and, Bool.or_false]
    cases mode.withIntHashes
    · simp
    · by_cases hwt : info.wt = 0
      · simp [hwt]
        ring
      · simp [hwt]
  rw [List.map_congr_left hcell, h.dataBytes_eq, h.intRefs_eq, h.intHashes_eq, h.topHashes_eq,
    allRefs, List.length_flatMap, intHashes, List.sum_map_add, List.sum_map_add,
    List.sum_map_mul_right, List.sum_map_mul_right, ite_self, Nat.zero_add]
  cases mode.withIntHashes <;> simp

theorem hashesCount_le : ∀ mask < 8, LevelMask.hashesCount mask ≤ 4 := by
  decide

theorem cellSize_le (hD : D.Lawful) {rs : Nat} (hrs : rs ≤ 4) (dci : CellInfo D.DataCell) :
    cellSize mode rs dci ≤ 2 ^ 9 := by
  have hbits := hD.bits_le dci.dc
  have hrefs := hD.refs_le dci.dc
  have hhashes := hashesCount_le _ (hD.levelMask_lt dci.dc)
  rw [maxBits] at hbits
  rw [maxRefs] at hrefs
  have hmul : (D.refs dci.dc).length * rs ≤ 4 * 4 := Nat.mul_le_mul hrefs hrs
  simp only [cellSize, DataCells.serializedSize, hashBytes, depthBytes]
  split <;> omega

theorem two_le_serializedSize (dc : D.DataCell) (withHashes : Bool) :
    2 ≤ D.serializedSize dc withHashes := by
  rw [DataCells.serializedSize]
  omega

theorem estimateSerializedSize_spec (hD : D.Lawful) (h : bag.WellFormed roots)
    (hroots : bag.roots ≠ []) (hcount : bag.cellCount < 2 ^ 31)
    (hmode : mode.withCacheBits = true → mode.withIndex = true) :
    ∃ info, estimateSerializedSize D mode bag = some info ∧ Sized mode bag info := by
  obtain ⟨root, hroot⟩ := List.exists_mem_of_ne_nil _ hroots
  have hlt : root < bag.cellCount := DagTable.rowsOf_length h.rows root hroot
  have hdata : bag.dataBytes ≠ 0 := by
    have hmem : D.serializedSize bag.cellList[root].dc false ∈
        bag.cellList.map fun info => D.serializedSize info.dc false :=
      List.mem_map_of_mem (f := fun info : CellInfo D.DataCell => D.serializedSize info.dc false)
        (List.getElem_mem hlt)
    have hle := List.le_sum_of_mem hmem
    have htwo := two_le_serializedSize bag.cellList[root].dc false
    rw [h.dataBytes_eq]
    omega
  have hrs : byteCount bag.cellCount ≤ 4 :=
    byteCount_le_iff.2 (hcount.trans_le (by norm_num))
  have hsum := sum_cellSize mode h (byteCount bag.cellCount)
  have hdataSize : (bag.cellList.map (cellSize mode (byteCount bag.cellCount))).sum ≤
      bag.cellCount * 2 ^ 9 := by
    have hle := List.sum_le_card_nsmul (bag.cellList.map (cellSize mode (byteCount bag.cellCount)))
      (2 ^ 9) (by
        intro size hsize
        obtain ⟨dci, -, rfl⟩ := List.mem_map.1 hsize
        exact cellSize_le hD hrs dci)
    rwa [List.length_map, smul_eq_mul] at hle
  have hos : ∀ x, x ≤ bag.cellCount * 2 ^ 9 * 2 → byteCount x ≤ 8 := by
    intro x hx
    refine byteCount_le_iff.2 ?_
    norm_num
    omega
  have hpos : 0 < (bag.cellList.map (cellSize mode (byteCount bag.cellCount))).sum := by
    rw [← hsum]
    omega
  have hnone : ¬ (bag.roots = [] ∨ bag.dataBytes = 0) := by
    rintro (hnil | hzero)
    · exact hroots hnil
    · exact hdata hzero
  have hcache : ¬ (mode.withCacheBits = true ∧ ¬ mode.withIndex = true) := by
    rintro ⟨hcache, hindex⟩
    exact hindex (hmode hcache)
  rw [estimateSerializedSize, if_neg hcache, computeSizes, if_neg hnone]
  simp only [hsum]
  generalize hdef : (bag.cellList.map (cellSize mode (byteCount bag.cellCount))).sum = dataSize at *
  have hmax : byteCount (if mode.withCacheBits then dataSize * 2 else dataSize) ≤ 8 := by
    apply hos
    split <;> omega
  rw [if_neg (by omega)]
  refine ⟨_, rfl, rfl, rfl, rfl, hmode, rfl, rfl, byteCount_pos (by omega), hrs,
    byteCount_le_iff.1 le_rfl, byteCount_pos ?_, hmax, hdef.symm, byteCount_le_iff.1 le_rfl,
    hdataSize, rfl⟩
  split <;> omega

/-! ## The parts -/

/-- The header, but for the roots. -/
def headerBytes (info : Info) (bag : Bag D.DataCell) : List UInt8 :=
  Bytes.big 4 bocGeneric ++ (Bytes.big 1 (headerByte info) ++
    (Bytes.big 1 info.offsetByteSize ++ (Bytes.big info.refByteSize bag.cellCount ++
      (Bytes.big info.refByteSize bag.roots.length ++ (Bytes.big info.refByteSize 0 ++
        Bytes.big info.offsetByteSize info.dataSize)))))

def rootsBytes (info : Info) (bag : Bag D.DataCell) : List UInt8 :=
  bag.roots.flatMap fun i => Bytes.big info.refByteSize (bag.cellCount - 1 - i)

/-- The entries of the index. -/
def entries (mode : Mode) (refByteSize : Nat) (hasCacheBits : Bool) :
    (offs : Nat) → List (CellInfo D.DataCell) → List Nat
  | _, [] => []
  | offs, dci :: rest =>
    let offs := offs + cellSize mode refByteSize dci
    (if hasCacheBits then offs * 2 + dci.shouldCache.toNat else offs) ::
      entries mode refByteSize hasCacheBits offs rest

def indexPart (mode : Mode) (info : Info) (bag : Bag D.DataCell) : List UInt8 :=
  if info.hasIndex then (entries mode info.refByteSize info.hasCacheBits 0
    bag.cellList.reverse).flatMap (Bytes.big info.offsetByteSize) else []

def cellsPart (mode : Mode) (info : Info) (bag : Bag D.DataCell) : List UInt8 :=
  bag.cellList.reverse.flatMap (cellBytes D mode info)

def bodyBytes (mode : Mode) (info : Info) (bag : Bag D.DataCell) : List UInt8 :=
  headerBytes info bag ++ (rootsBytes info bag ++ (indexPart mode info bag ++
    cellsPart mode info bag))

theorem big_one_eq {v : Nat} (hv : v < 256) : Bytes.big 1 v = [UInt8.ofNat v] := by
  rw [Bytes.big, Bytes.little, Bytes.little, List.reverse_singleton, Nat.mod_eq_of_lt hv]

theorem indexBytes_eq (info : Info) (offs : Nat) (l : List (CellInfo D.DataCell)) :
    indexBytes D mode info offs l =
      (entries mode info.refByteSize info.hasCacheBits offs l).flatMap
        (Bytes.big info.offsetByteSize) := by
  induction l generalizing offs with
  | nil => rfl
  | cons dci l ih =>
    rw [indexBytes, entries, List.flatMap_cons]
    simp only [ih]
    rfl

variable {info : Info}

theorem headerByte_lt (hinfo : Sized mode bag info) : headerByte info < 256 := by
  have hle := hinfo.refByteSize_le
  have hindex := Bool.toNat_le info.hasIndex
  have hcrc := Bool.toNat_le info.hasCRC32C
  have hcache := Bool.toNat_le info.hasCacheBits
  rw [headerByte]
  omega

theorem serializeToImpl_eq (crc32c : List UInt8 → BitVec 32) (hinfo : Sized mode bag info) :
    serializeToImpl D crc32c mode info bag = bodyBytes mode info bag ++
      if info.hasCRC32C then Bytes.little 4 (crc32c (bodyBytes mode info bag)).toNat else [] := by
  have hos := hinfo.offsetByteSize_le
  have hbody : Bytes.big 4 bocGeneric ++
      (UInt8.ofNat (headerByte info) :: UInt8.ofNat info.offsetByteSize ::
        (Bytes.big info.refByteSize bag.cellCount ++ Bytes.big info.refByteSize bag.roots.length ++
          Bytes.big info.refByteSize 0 ++ Bytes.big info.offsetByteSize info.dataSize ++
          bag.roots.flatMap (fun i => Bytes.big info.refByteSize (bag.cellCount - 1 - i)) ++
          (if info.hasIndex then indexBytes D mode info 0 bag.cellList.reverse else []) ++
          bag.cellList.reverse.flatMap (cellBytes D mode info))) = bodyBytes mode info bag := by
    rw [bodyBytes, headerBytes, big_one_eq (headerByte_lt hinfo), big_one_eq (by omega),
      indexBytes_eq]
    simp only [List.append_assoc, List.cons_append, List.nil_append]
    rfl
  rw [serializeToImpl]
  simp only [hbody]
  split
  · rfl
  · rw [List.append_nil]

/-! ## Lengths -/

@[simp] theorem length_headerBytes (info : Info) (bag : Bag D.DataCell) :
    (headerBytes info bag).length = 6 + 3 * info.refByteSize + info.offsetByteSize := by
  simp only [headerBytes, List.length_append, Bytes.length_big]
  omega

@[simp] theorem length_rootsBytes (info : Info) (bag : Bag D.DataCell) :
    (rootsBytes info bag).length = bag.roots.length * info.refByteSize := by
  have hlength := length_flatMap_take (l := bag.roots)
    (f := fun i => Bytes.big info.refByteSize (bag.cellCount - 1 - i))
    (fun i _ => Bytes.length_big _ _) le_rfl
  rwa [List.take_length] at hlength

@[simp] theorem length_entries (rs : Nat) (hasCacheBits : Bool) (offs : Nat)
    (l : List (CellInfo D.DataCell)) : (entries mode rs hasCacheBits offs l).length = l.length := by
  induction l generalizing offs with
  | nil => rfl
  | cons dci l ih => rw [entries, List.length_cons, ih, List.length_cons]

@[simp] theorem length_indexPart (mode : Mode) (info : Info) (bag : Bag D.DataCell) :
    (indexPart mode info bag).length =
      if info.hasIndex then bag.cellCount * info.offsetByteSize else 0 := by
  rw [indexPart]
  split
  · have hlength := length_flatMap_take
      (l := entries mode info.refByteSize info.hasCacheBits 0 bag.cellList.reverse)
      (f := Bytes.big info.offsetByteSize) (fun e _ => Bytes.length_big _ _) le_rfl
    rwa [List.take_length, length_entries, List.length_reverse] at hlength
  · rfl

/-- The cell has its place in the buffer. -/
def Fits (mode : Mode) (dci : CellInfo D.DataCell) : Prop :=
  D.serializedSize dci.dc (withHash D mode dci) ≤ bufSize

theorem length_serialize (hD : D.Lawful) (dc : D.DataCell) {buffSize : Nat} {withHashes : Bool}
    (hfits : D.serializedSize dc withHashes ≤ buffSize) :
    (D.serialize dc buffSize withHashes).length = D.serializedSize dc withHashes := by
  rw [serialize_eq dc hfits, List.length_cons, List.length_cons, List.length_append, length_data,
    DataCells.serializedSize]
  cases withHashes
  · simp only [Bool.false_eq_true, if_false, List.length_nil]
    omega
  · simp only [if_true, length_hashes dc hD]
    omega

variable (info) in
theorem length_cellBytes (hD : D.Lawful) (h : bag.WellFormed roots) {dci : CellInfo D.DataCell}
    (hdci : dci ∈ bag.cellList) (hfits : Fits mode dci) :
    (cellBytes D mode info dci).length = cellSize mode info.refByteSize dci := by
  have hlength := length_flatMap_take (l := dci.refIdx)
    (f := fun r => Bytes.big info.refByteSize (info.cellCount - 1 - r))
    (fun r _ => Bytes.length_big _ _) le_rfl
  rw [List.take_length, h.length_refs hdci] at hlength
  rw [cellBytes, List.length_append, length_serialize hD dci.dc hfits, hlength]
  rfl

/-- Of a cell that does not fit the buffer only the references are written. -/
theorem length_cellBytes_lt (h : bag.WellFormed roots) {dci : CellInfo D.DataCell}
    (hdci : dci ∈ bag.cellList) (hfits : ¬ Fits mode dci) :
    (cellBytes D mode info dci).length < cellSize mode info.refByteSize dci := by
  have hlength := length_flatMap_take (l := dci.refIdx)
    (f := fun r => Bytes.big info.refByteSize (info.cellCount - 1 - r))
    (fun r _ => Bytes.length_big _ _) le_rfl
  rw [List.take_length, h.length_refs hdci] at hlength
  have hempty : D.serialize dci.dc bufSize (withHash D mode dci) = [] := if_pos (not_le.1 hfits)
  have htwo := two_le_serializedSize dci.dc (withHash D mode dci)
  rw [cellBytes, hempty, List.nil_append, hlength, cellSize]
  omega

theorem length_cellsPart (hD : D.Lawful) (h : bag.WellFormed roots) (hinfo : Sized mode bag info)
    (hfits : ∀ dci ∈ bag.cellList, Fits mode dci) :
    (cellsPart mode info bag).length = info.dataSize := by
  have hmap : bag.cellList.reverse.map (fun dci => (cellBytes D mode info dci).length) =
      (bag.cellList.map (cellSize mode info.refByteSize)).reverse := by
    rw [← List.map_reverse]
    exact List.map_congr_left fun dci hdci =>
      length_cellBytes info hD h (List.mem_reverse.1 hdci) (hfits dci (List.mem_reverse.1 hdci))
  rw [cellsPart, List.length_flatMap, hmap, List.sum_reverse, hinfo.dataSize_eq]

theorem length_cellsPart_lt (hD : D.Lawful) (h : bag.WellFormed roots)
    (hinfo : Sized mode bag info) (hfits : ∃ dci ∈ bag.cellList, ¬ Fits mode dci) :
    (cellsPart mode info bag).length < info.dataSize := by
  have hreverse : (cellsPart mode info bag).length =
      (bag.cellList.map fun dci => (cellBytes D mode info dci).length).sum := by
    rw [cellsPart, List.length_flatMap, List.map_reverse, List.sum_reverse]
  rw [hreverse, hinfo.dataSize_eq]
  refine List.sum_lt_sum _ _ (fun dci hdci => ?_) ?_
  · by_cases hfits : Fits mode dci
    · exact (length_cellBytes info hD h hdci hfits).le
    · exact (length_cellBytes_lt h hdci hfits).le
  · obtain ⟨dci, hdci, hnot⟩ := hfits
    exact ⟨dci, hdci, length_cellBytes_lt h hdci hnot⟩

theorem length_serializeToImpl (crc32c : List UInt8 → BitVec 32) (hinfo : Sized mode bag info) :
    (serializeToImpl D crc32c mode info bag).length + info.dataSize =
      info.totalSize + (cellsPart mode info bag).length := by
  have hcrc : (if info.hasCRC32C then Bytes.little 4 (crc32c (bodyBytes mode info bag)).toNat
      else []).length = if info.hasCRC32C then 4 else 0 := by
    split
    · exact Bytes.length_little _ _
    · rfl
  rw [serializeToImpl_eq crc32c hinfo, List.length_append, hcrc, bodyBytes, List.length_append,
    List.length_append, List.length_append, length_headerBytes, length_rootsBytes, length_indexPart,
    hinfo.totalSize_eq]
  omega

open Classical in
/-- The bytes are returned when all cells fit the buffer; otherwise their size is not the one that
was computed. -/
theorem serializeToSlice_spec (crc32c : List UInt8 → BitVec 32) (hD : D.Lawful)
    (h : bag.WellFormed roots) (hinfo : Sized mode bag info)
    (hestimate : estimateSerializedSize D mode bag = some info) :
    serializeToSlice D crc32c mode bag = if ∀ dci ∈ bag.cellList, Fits mode dci then
      .ok (serializeToImpl D crc32c mode info bag) else .error .wrongSize := by
  have hle := hinfo.refByteSize_le
  have hpos := hinfo.refByteSize_pos
  have hlength := length_serializeToImpl crc32c hinfo
  rw [serializeToSlice, hestimate]
  simp only
  by_cases hfits : ∀ dci ∈ bag.cellList, Fits mode dci
  · have hcells := length_cellsPart hD h hinfo hfits
    rw [if_pos hfits, if_neg (by omega)]
  · have hnot : ∃ dci ∈ bag.cellList, ¬ Fits mode dci := by
      simpa only [not_forall, exists_prop] using hfits
    have hcells := length_cellsPart_lt hD h hinfo hnot
    rw [if_neg hfits, if_pos (by omega)]

/-! ## The header -/

/-- What the header says. -/
def headerOf (info : Info) (bag : Bag D.DataCell) : Header :=
  let rootsOffset := 6 + 3 * info.refByteSize + info.offsetByteSize
  let indexOffset := rootsOffset + bag.roots.length * info.refByteSize
  let dataOffset := indexOffset + if info.hasIndex then bag.cellCount * info.offsetByteSize else 0
  { refByteSize := info.refByteSize
    offsetByteSize := info.offsetByteSize
    rootCount := bag.roots.length
    cellCount := bag.cellCount
    absentCount := 0
    hasIndex := info.hasIndex
    hasRoots := true
    hasCRC32C := info.hasCRC32C
    hasCacheBits := info.hasCacheBits
    rootsOffset
    indexOffset
    dataOffset
    dataSize := info.dataSize
    totalSize := dataOffset + info.dataSize + if info.hasCRC32C then 4 else 0 }

@[simp] theorem refByteSize_headerOf (info : Info) (bag : Bag D.DataCell) :
    (headerOf info bag).refByteSize = info.refByteSize := rfl

@[simp] theorem offsetByteSize_headerOf (info : Info) (bag : Bag D.DataCell) :
    (headerOf info bag).offsetByteSize = info.offsetByteSize := rfl

@[simp] theorem cellCount_headerOf (info : Info) (bag : Bag D.DataCell) :
    (headerOf info bag).cellCount = bag.cellCount := rfl

@[simp] theorem hasIndex_headerOf (info : Info) (bag : Bag D.DataCell) :
    (headerOf info bag).hasIndex = info.hasIndex := rfl

@[simp] theorem hasCacheBits_headerOf (info : Info) (bag : Bag D.DataCell) :
    (headerOf info bag).hasCacheBits = info.hasCacheBits := rfl

theorem headerByte_spec (hinfo : Sized mode bag info) :
    (headerByte info).testBit 7 = info.hasIndex ∧ (headerByte info).testBit 6 = info.hasCRC32C ∧
      (headerByte info).testBit 5 = info.hasCacheBits ∧ headerByte info % 8 = info.refByteSize := by
  have hle := hinfo.refByteSize_le
  have hbit : ∀ (b : Bool) (i : Nat), headerByte info / 2 ^ i % 2 = b.toNat →
      (headerByte info).testBit i = b := by
    intro b i hb
    rw [Nat.testBit_eq_decide_div_mod_eq, hb]
    cases b <;> rfl
  have hindex := Bool.toNat_le info.hasIndex
  have hcrc := Bool.toNat_le info.hasCRC32C
  have hcache := Bool.toNat_le info.hasCacheBits
  refine ⟨hbit _ 7 ?_, hbit _ 6 ?_, hbit _ 5 ?_, ?_⟩
  all_goals
    rw [headerByte]
    omega

theorem parseCounts_spec (hinfo : Sized mode bag info) (hcount : bag.cellCount < 2 ^ 31)
    (hcells : 0 < bag.cellCount) (hroots : 0 < bag.roots.length)
    (hrootCount : bag.roots.length ≤ bag.cellCount) (rest : List UInt8) {sz : Nat}
    (hsz : 3 * info.refByteSize + info.offsetByteSize ≤ sz) :
    parseCounts (headerBytes info bag ++ rest) sz bocGeneric info.refByteSize info.offsetByteSize
      info.hasIndex info.hasCRC32C info.hasCacheBits = .ok
        (if info.dataSize < bag.cellCount * (2 + info.refByteSize) - info.refByteSize then .invalid
        else .header (headerOf info bag)) := by
  have hlt := hinfo.cellCount_lt
  have hread : ∀ (pre post : List UInt8) (offset width v : Nat),
      headerBytes info bag ++ rest = pre ++ (Bytes.big width v ++ post) → pre.length = offset →
      v < 256 ^ width → readInt (headerBytes info bag ++ rest) offset width = .ok v := by
    intro pre post offset width v hsplit hoffset hv
    rw [hsplit]
    exact readInt_append hoffset hv
  have hcellCount := readIndex_of_readInt (hread
    (Bytes.big 4 bocGeneric ++ Bytes.big 1 (headerByte info) ++ Bytes.big 1 info.offsetByteSize)
    _ 6 info.refByteSize bag.cellCount (by simp only [headerBytes, List.append_assoc]; rfl)
    (by simp) hlt) hcount
  have hrootCount' := readIndex_of_readInt (hread
    (Bytes.big 4 bocGeneric ++ Bytes.big 1 (headerByte info) ++ Bytes.big 1 info.offsetByteSize ++
      Bytes.big info.refByteSize bag.cellCount)
    _ (6 + info.refByteSize) info.refByteSize bag.roots.length
    (by simp only [headerBytes, List.append_assoc]; rfl)
    (by simp only [List.length_append, Bytes.length_big]) (by omega)) (by omega)
  have habsent := readIndex_of_readInt (hread
    (Bytes.big 4 bocGeneric ++ Bytes.big 1 (headerByte info) ++ Bytes.big 1 info.offsetByteSize ++
      Bytes.big info.refByteSize bag.cellCount ++ Bytes.big info.refByteSize bag.roots.length)
    _ (6 + 2 * info.refByteSize) info.refByteSize 0
    (by simp only [headerBytes, List.append_assoc]; rfl)
    (by simp only [List.length_append, Bytes.length_big]; omega) (by positivity)) (by norm_num)
  have hdataSize := hread
    (Bytes.big 4 bocGeneric ++ Bytes.big 1 (headerByte info) ++ Bytes.big 1 info.offsetByteSize ++
      Bytes.big info.refByteSize bag.cellCount ++ Bytes.big info.refByteSize bag.roots.length ++
      Bytes.big info.refByteSize 0)
    rest (6 + 3 * info.refByteSize) info.offsetByteSize info.dataSize
    (by simp only [headerBytes, List.append_assoc])
    (by simp only [List.length_append, Bytes.length_big]; omega)
    (by have := hinfo.dataSize_lt; split at this <;> omega)
  have hdataLe := hinfo.dataSize_le
  rw [parseCounts]
  simp only [hcellCount, hrootCount', habsent, hdataSize, ok_bind]
  rw [if_neg (by omega), if_neg (by omega), if_neg (by omega), if_neg (by omega),
    if_neg (by omega), if_neg (by omega), if_neg (by omega), if_neg (by omega), if_neg (by omega),
    if_neg (by omega)]
  simp only [Int.toNat_natCast]
  split <;> rfl

theorem parseSerializedHeader_spec (hinfo : Sized mode bag info) (hcount : bag.cellCount < 2 ^ 31)
    (hcells : 0 < bag.cellCount) (hroots : 0 < bag.roots.length)
    (hrootCount : bag.roots.length ≤ bag.cellCount) (rest : List UInt8) :
    parseSerializedHeader (headerBytes info bag ++ rest) = .ok
      (if info.dataSize < bag.cellCount * (2 + info.refByteSize) - info.refByteSize then .invalid
        else .header (headerOf info bag)) := by
  have hrsPos := hinfo.refByteSize_pos
  have hrsLe := hinfo.refByteSize_le
  have hosPos := hinfo.offsetByteSize_pos
  have hosLe := hinfo.offsetByteSize_le
  obtain ⟨hindex, hcrc, hcache, hrs⟩ := headerByte_spec hinfo
  have hread : ∀ (pre post : List UInt8) (offset width v : Nat),
      headerBytes info bag ++ rest = pre ++ (Bytes.big width v ++ post) → pre.length = offset →
      v < 256 ^ width → readInt (headerBytes info bag ++ rest) offset width = .ok v := by
    intro pre post offset width v hsplit hoffset hv
    rw [hsplit]
    exact readInt_append hoffset hv
  have hmagic := hread [] _ 0 4 bocGeneric (by simp only [headerBytes, List.append_assoc]; rfl)
    rfl (by decide)
  have hbyte := hread (Bytes.big 4 bocGeneric) _ 4 1 (headerByte info)
    (by simp only [headerBytes, List.append_assoc]; rfl) (by simp) (by
      have := headerByte_lt hinfo
      omega)
  have hoffset := hread (Bytes.big 4 bocGeneric ++ Bytes.big 1 (headerByte info)) _ 5 1
    info.offsetByteSize (by simp only [headerBytes, List.append_assoc]; rfl) (by simp) (by omega)
  have hlength : 6 + 3 * info.refByteSize + info.offsetByteSize ≤
      min (headerBytes info bag ++ rest).length 0xffff := by
    rw [List.length_append, length_headerBytes]
    omega
  have hcounts := parseCounts_spec hinfo hcount hcells hroots hrootCount rest
    (show 3 * info.refByteSize + info.offsetByteSize ≤
      min (headerBytes info bag ++ rest).length 0xffff - 6 by omega)
  rw [parseSerializedHeader]
  simp only [hmagic, hbyte, hoffset, ok_bind, hindex, hcrc, hcache, hrs]
  rw [if_neg (by omega), if_neg (by simp), if_neg (by omega), if_neg, if_neg (by omega),
    if_neg (by omega), if_neg (by omega)]
  · exact hcounts
  · rintro ⟨hc, hi⟩
    exact hi (hinfo.index_of_cacheBits hc)

end
end Vm.BagOfCells
