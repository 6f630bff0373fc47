import TopWallets.BagOfCellsBytes

/- What is written into a bag of cells is read back (`stdBocDeserialize_stdBocSerialize`).

   The cells are read from the last one of the bytes on, so that the cells that a cell refers to
   are there when it is read; `countsOf` is what the reader counts meanwhile. The reader takes
   bytes to be too few that are less than a reference and two bytes for each cell: a bag with one
   root has as many references, less one, as it has cells. -/
namespace Vm
namespace BagOfCells
open DagTable (RowsOf Reach)
open Ton (ok_bind)

variable {D : DataCells}

section
variable {bag : Bag D.DataCell} {roots : List D.DataCell} {mode : Mode} {info : Info}

/-! ## The index -/

/-- The end of the cells `l`. -/
def endOf (mode : Mode) (rs : Nat) (l : List (CellInfo D.DataCell)) : Nat :=
  (l.map (cellSize mode rs)).sum

variable (mode) in
theorem entries_getElem? (rs : Nat) (hasCacheBits : Bool) (offs : Nat)
    {l : List (CellInfo D.DataCell)} {i : Nat} {dci : CellInfo D.DataCell} (hi : l[i]? = some dci) :
    (entries mode rs hasCacheBits offs l)[i]? = some
      (if hasCacheBits then (offs + endOf mode rs (l.take (i + 1))) * 2 + dci.shouldCache.toNat
      else offs + endOf mode rs (l.take (i + 1))) := by
  induction l generalizing offs i with
  | nil => cases hi
  | cons dci' l ih =>
    cases i with
    | zero =>
      obtain rfl := Option.some.inj hi
      simp only [entries, endOf, List.getElem?_cons_zero, List.take_succ_cons, List.take_zero,
        List.map_cons, List.map_nil, List.sum_cons, List.sum_nil, Nat.add_zero]
    | succ i =>
      rw [List.getElem?_cons_succ] at hi
      rw [entries, List.getElem?_cons_succ, ih _ hi, List.take_succ_cons, endOf, endOf,
        List.map_cons, List.sum_cons, Nat.add_assoc]

variable (info) in
theorem length_cellsPart_take (hD : D.Lawful) (h : bag.WellFormed roots)
    (hfits : ∀ dci ∈ bag.cellList, Fits mode dci) {l : List (CellInfo D.DataCell)}
    (hl : ∀ dci ∈ l, dci ∈ bag.cellList) :
    (l.flatMap (cellBytes D mode info)).length = endOf mode info.refByteSize l := by
  rw [List.length_flatMap, endOf]
  exact congrArg List.sum (List.map_congr_left fun dci hdci =>
    length_cellBytes info hD h (hl dci hdci) (hfits dci (hl dci hdci)))

variable (info) in
theorem init_cellBytes (hD : D.Lawful) (h : bag.WellFormed roots) {dci : CellInfo D.DataCell}
    (hdci : dci ∈ bag.cellList) (hfits : Fits mode dci) (rest : List UInt8) :
    CellSerializationInfo.init (cellBytes D mode info dci ++ rest) info.refByteSize =
      .ok (serializationInfo dci.dc (withHash D mode dci) info.refByteSize) := by
  have hlength := length_cellBytes info hD h hdci hfits
  rw [cellBytes, List.append_assoc]
  refine init_serialize dci.dc hD hfits ?_
  rw [← List.append_assoc, List.length_append]
  rw [cellBytes] at hlength
  rw [hlength, cellSize]
  omega

variable (info) in
/-- Without an index, the ends of the cells are found in the cells. -/
theorem customIndex_spec (hD : D.Lawful) (h : bag.WellFormed roots)
    (hfits : ∀ dci ∈ bag.cellList, Fits mode dci) {l : List (CellInfo D.DataCell)}
    (hl : ∀ dci ∈ l, dci ∈ bag.cellList) (cur : Nat) :
    customIndex info.refByteSize l.length cur (l.flatMap (cellBytes D mode info)) =
      .ok (entries mode info.refByteSize false cur l) := by
  induction l generalizing cur with
  | nil => rfl
  | cons dci l ih =>
    have hdci := hl dci List.mem_cons_self
    have hlength := length_cellBytes info hD h hdci (hfits dci hdci)
    have hend : (serializationInfo dci.dc (withHash D mode dci) info.refByteSize).endOffset =
        cellSize mode info.refByteSize dci := endOffset_serializationInfo ..
    have hsubstr : substr (cellBytes D mode info dci ++ l.flatMap (cellBytes D mode info))
        (cellSize mode info.refByteSize dci)
        (cellBytes D mode info dci ++ l.flatMap (cellBytes D mode info)).length =
          .ok (l.flatMap (cellBytes D mode info)) := by
      rw [substr, if_pos (by rw [List.length_append]; omega), ← hlength, List.drop_left,
        List.take_of_length_le (by rw [List.length_append]; omega)]
    rw [List.length_cons, List.flatMap_cons, customIndex,
      init_cellBytes info hD h hdci (hfits dci hdci)]
    simp only [Except.mapError, ok_bind, hend, hsubstr,
      ih (fun d hd => hl d (List.mem_cons_of_mem _ hd))]
    rfl

/-- The index has the ends of the cells, and whether they are to be cached. -/
def Indexes (mode : Mode) (info : Info) (bag : Bag D.DataCell) (data : List UInt8)
    (index : Index) : Prop :=
  ∀ (i : Nat) (dci : CellInfo D.DataCell), bag.cellList.reverse[i]? = some dci →
    getIdxEntryRaw (headerOf info bag) data index i =
      .ok (if info.hasCacheBits then
        endOf mode info.refByteSize (bag.cellList.reverse.take (i + 1)) * 2 + dci.shouldCache.toNat
      else endOf mode info.refByteSize (bag.cellList.reverse.take (i + 1)))

theorem indexes_custom (hinfo : Sized mode bag info) (hindex : info.hasIndex = false)
    (data : List UInt8) : Indexes mode info bag data
      (.custom (entries mode info.refByteSize false 0 bag.cellList.reverse)) := by
  intro i dci hi
  have hcache : ¬ info.hasCacheBits = true := by
    intro hcache
    rw [hinfo.index_of_cacheBits hcache] at hindex
    cases hindex
  rw [getIdxEntryRaw, entries_getElem? _ _ _ _ hi, if_neg hcache]
  simp only [Bool.false_eq_true, if_false, Nat.zero_add]

theorem endOf_le (hinfo : Sized mode bag info) (i : Nat) :
    endOf mode info.refByteSize (bag.cellList.reverse.take i) ≤ info.dataSize := by
  have hperm : endOf mode info.refByteSize bag.cellList.reverse = info.dataSize := by
    rw [endOf, List.map_reverse, List.sum_reverse, hinfo.dataSize_eq]
  rw [← hperm]
  conv_rhs => rw [← List.take_append_drop i bag.cellList.reverse]
  rw [endOf, endOf, List.map_append, List.sum_append]
  omega

theorem indexes_stored (hinfo : Sized mode bag info) (hindex : info.hasIndex = true)
    (rest : List UInt8) : Indexes mode info bag
      (headerBytes info bag ++ (rootsBytes info bag ++ (indexPart mode info bag ++ rest)))
      (.stored (headerOf info bag).indexOffset) := by
  intro i dci hi
  have hlt : i < (headerOf info bag).cellCount := by
    have hlt := (List.getElem?_eq_some_iff.1 hi).1
    rwa [List.length_reverse] at hlt
  have hentry := entries_getElem? mode info.refByteSize info.hasCacheBits 0 hi
  rw [Nat.zero_add] at hentry
  have hle := endOf_le hinfo (i + 1)
  have hmax := hinfo.dataSize_lt
  have hcached := Bool.toNat_le dci.shouldCache
  -- The doubled offset is even, so that the flag has its place.
  have heven : ∃ k, 256 ^ info.offsetByteSize = 2 * k := by
    refine ⟨128 * 256 ^ (info.offsetByteSize - 1), ?_⟩
    calc 256 ^ info.offsetByteSize
        = 256 ^ (info.offsetByteSize - 1 + 1) := by
          rw [Nat.sub_add_cancel hinfo.offsetByteSize_pos]
      _ = 2 * (128 * 256 ^ (info.offsetByteSize - 1)) := by
          rw [pow_succ]
          ring
  obtain ⟨k, hk⟩ := heven
  rw [getIdxEntryRaw, if_pos hlt, offsetByteSize_headerOf, indexPart, if_pos hindex,
    ← List.append_assoc]
  refine readInt_table _ (g := id) hentry ?_ ?_
  · change (if info.hasCacheBits then _ else _) < _
    by_cases hcache : info.hasCacheBits = true
    · rw [if_pos hcache] at hmax ⊢
      omega
    · rw [if_neg hcache] at hmax ⊢
      omega
  · rw [List.length_append, length_headerBytes, length_rootsBytes]
    rfl

/-! ## One cell of the bag -/

section
variable {data : List UInt8} {index : Index}

theorem getIdxEntry_spec (hindexes : Indexes mode info bag data index) {i : Nat}
    (hi : i ≤ bag.cellCount) : getIdxEntry (headerOf info bag) data index i =
      .ok (endOf mode info.refByteSize (bag.cellList.reverse.take i)) := by
  cases i with
  | zero => rfl
  | succ i =>
    have hlt : i < bag.cellList.reverse.length := by
      rw [List.length_reverse]
      exact hi
    have hentry := hindexes i _ (List.getElem?_eq_getElem hlt)
    have hcached := Bool.toNat_le bag.cellList.reverse[i].shouldCache
    rw [getIdxEntry, hentry, ok_bind]
    by_cases hcache : info.hasCacheBits = true
    · rw [if_pos hcache, hasCacheBits_headerOf, if_pos hcache]
      exact congrArg Except.ok (by omega)
    · rw [if_neg hcache, hasCacheBits_headerOf, if_neg hcache]
      rfl

theorem getCacheEntry_spec (hinfo : Sized mode bag info)
    (hindexes : Indexes mode info bag data index) (hcache : info.hasCacheBits = true) {i : Nat}
    {dci : CellInfo D.DataCell} (hi : bag.cellList.reverse[i]? = some dci) :
    getCacheEntry (headerOf info bag) data index i = .ok dci.shouldCache := by
  have hindex := hinfo.index_of_cacheBits hcache
  have hif : ¬ (¬ (headerOf info bag).hasCacheBits = true ∨
      ¬ (headerOf info bag).hasIndex = true) := by
    rintro (hnot | hnot)
    · exact hnot hcache
    · exact hnot hindex
  rw [getCacheEntry, if_neg hif, hindexes i dci hi, ok_bind, if_pos hcache]
  refine congrArg Except.ok ?_
  cases dci.shouldCache
  · simp
  · simp only [Bool.toNat_true, decide_eq_true_eq]
    omega

theorem getCellSlice_spec (hD : D.Lawful) (h : bag.WellFormed roots) (hinfo : Sized mode bag info)
    (hfits : ∀ dci ∈ bag.cellList, Fits mode dci) (hindexes : Indexes mode info bag data index)
    {i : Nat} {dci : CellInfo D.DataCell} (hi : bag.cellList.reverse[i]? = some dci) :
    getCellSlice (headerOf info bag) data index (cellsPart mode info bag) i =
      .ok (cellBytes D mode info dci) := by
  have hlt := (List.getElem?_eq_some_iff.1 hi).1
  rw [List.length_reverse] at hlt
  have hmem : ∀ d ∈ bag.cellList.reverse, d ∈ bag.cellList := fun d hd => List.mem_reverse.1 hd
  have hdci := hmem dci (List.mem_of_getElem? hi)
  have hlength := length_cellBytes info hD h hdci (hfits dci hdci)
  have hpre := length_cellsPart_take info hD h hfits
    (l := bag.cellList.reverse.take i) fun d hd => hmem d (List.mem_of_mem_take hd)
  have hsucc : endOf mode info.refByteSize (bag.cellList.reverse.take (i + 1)) =
      endOf mode info.refByteSize (bag.cellList.reverse.take i) +
        cellSize mode info.refByteSize dci := by
    rw [List.take_add_one, hi, endOf, endOf, List.map_append, List.sum_append]
    simp
  have hend := endOf_le hinfo (i + 1)
  have hcells := length_cellsPart hD h hinfo hfits
  have hle : i + 1 ≤ bag.cellCount := hlt
  rw [getCellSlice, getIdxEntry_spec hindexes hlt.le, getIdxEntry_spec hindexes hle, ok_bind,
    ok_bind, if_neg (by omega), hsucc, Nat.add_sub_cancel_left, cellsPart, flatMap_split _ hi,
    ← hlength]
  exact substr_append hpre

/-- A loop that is in the state `S k` after `k` rounds. -/
theorem foldlM_range {σ ε : Type} {f : σ → Nat → Except ε σ} {n : Nat} (S : Nat → σ)
    (hf : ∀ k < n, f (S k) k = .ok (S (k + 1))) : (List.range n).foldlM f (S 0) = .ok (S n) := by
  induction n with
  | zero => rfl
  | succ n ih =>
    rw [List.range_succ, List.foldlM_append, ih fun k hk => hf k (Nat.lt_succ_of_lt hk), ok_bind,
      List.foldlM_cons, hf n (Nat.lt_succ_self n)]
    rfl

/-- How often the cells were referred to in `seen`, counted from the last cell on; two are as many
as more. -/
def countsOf (n : Nat) (seen : List Nat) : List Nat :=
  (List.range n).map fun k => min 2 (seen.count (n - 1 - k))

theorem countRef_spec {n r : Nat} (hr : r < n) (seen : List Nat) :
    countRef (countsOf n seen) (n - 1 - r) = .ok (countsOf n (seen ++ [r])) := by
  have hlt : n - 1 - r < (countsOf n seen).length := by
    rw [countsOf, List.length_map, List.length_range]
    omega
  rw [countRef, if_pos hlt]
  refine congrArg Except.ok (List.ext_getElem (by simp [countsOf]) fun k hk hk' => ?_)
  have hkn : k < n := by
    simpa [countsOf] using hk'
  rw [List.getElem_modify]
  simp only [countsOf, List.getElem_map, List.getElem_range, List.count_append,
    List.count_singleton, beq_iff_eq]
  by_cases hrk : n - 1 - r = k
  · have hr' : r = n - 1 - k := by omega
    rw [if_pos hrk, if_pos hr']
    split <;> omega
  · have hr' : ¬ r = n - 1 - k := by omega
    rw [if_neg hrk, if_neg hr']
    omega

def countsFor (info : Info) (bag : Bag D.DataCell) (seen : List Nat) : List Nat :=
  if info.hasCacheBits then countsOf bag.cellCount seen else []

theorem countIf_spec {r : Nat} (hr : r < bag.cellCount) (seen : List Nat) :
    countIf (headerOf info bag) (countsFor info bag seen) (bag.cellCount - 1 - r) =
      .ok (countsFor info bag (seen ++ [r])) := by
  rw [countIf, hasCacheBits_headerOf, countsFor, countsFor]
  by_cases hcache : info.hasCacheBits = true
  · rw [if_pos hcache, if_pos hcache, if_pos hcache]
    exact countRef_spec hr seen
  · rw [if_neg hcache, if_neg hcache, if_neg hcache]

/-- A reference is to a cell that is there already. -/
theorem readRef_spec (hinfo : Sized mode bag info) (hcount : bag.cellCount < 2 ^ 31)
    {dci : CellInfo D.DataCell} {j k r : Nat} {c : D.DataCell} (pre : List UInt8) (offset : Nat)
    (hj : j < bag.cellCount) (hk : dci.refIdx[k]? = some r) (hr : r < j)
    (hc : ((bag.cellList.take j).map CellInfo.dc)[r]? = some c)
    (hoffset : pre.length + k * info.refByteSize = offset) :
    readRef (headerOf info bag)
      (pre ++ dci.refIdx.flatMap fun r => Bytes.big info.refByteSize (bag.cellCount - 1 - r))
      ((bag.cellList.take j).map CellInfo.dc) (bag.cellCount - 1 - j) offset =
        .ok (bag.cellCount - 1 - r, c) := by
  have hlt := hinfo.cellCount_lt
  have hread : readInt (pre ++ (dci.refIdx.flatMap
      (fun r => Bytes.big info.refByteSize (bag.cellCount - 1 - r)) ++ [])) offset
        info.refByteSize = .ok (bag.cellCount - 1 - r) :=
    readInt_table pre (g := fun r => bag.cellCount - 1 - r) hk (by omega) hoffset
  rw [List.append_nil] at hread
  have hread := readIndex_of_readInt hread (by omega)
  rw [readRef, refByteSize_headerOf, hread, ok_bind, if_neg (by omega), if_neg (by
    rw [cellCount_headerOf]
    omega), cellCount_headerOf]
  have hidx : bag.cellCount - ((bag.cellCount - 1 - r : Nat) : Int).toNat - 1 = r := by
    rw [Int.toNat_natCast]
    omega
  rw [hidx, hc]
  rfl

theorem refsOffset_serializationInfo (dc : D.DataCell) (withHashes : Bool) (refByteSize : Nat) :
    (serializationInfo dc withHashes refByteSize).refsOffset = D.serializedSize dc withHashes := by
  have hend := endOffset_serializationInfo dc withHashes refByteSize
  have hrefs : (serializationInfo dc withHashes refByteSize).endOffset =
      (serializationInfo dc withHashes refByteSize).refsOffset +
        (D.refs dc).length * refByteSize := rfl
  omega

theorem rowsOf_take {l : List (CellInfo D.DataCell)} {rs : List Nat} {cs : List D.DataCell}
    {j : Nat} (hrows : RowsOf CellInfo.dc l rs cs) (hlt : ∀ r ∈ rs, r < j) {k : Nat} {r : Nat}
    (hk : rs[k]? = some r) : ∃ c, cs[k]? = some c ∧ ((l.take j).map CellInfo.dc)[r]? = some c := by
  obtain ⟨hkr, rfl⟩ := List.getElem?_eq_some_iff.1 hk
  have hkc : k < cs.length := hrows.length_eq ▸ hkr
  have hrow := (List.forall₂_iff_get.1 hrows).2 k hkr hkc
  refine ⟨cs[k], List.getElem?_eq_getElem hkc, ?_⟩
  rw [List.getElem?_map, List.getElem?_take, if_pos (hlt _ (List.getElem_mem hkr))]
  exact hrow

/-- A cell is read when the cells that it refers to have been. -/
theorem deserializeCell_spec (hD : D.Lawful) (h : bag.WellFormed roots)
    (hinfo : Sized mode bag info) (hcount : bag.cellCount < 2 ^ 31)
    (hfits : ∀ dci ∈ bag.cellList, Fits mode dci) (hindexes : Indexes mode info bag data index)
    {j : Nat} {dci : CellInfo D.DataCell} (hj : bag.cellList[j]? = some dci) (seen : List Nat) :
    deserializeCell (headerOf info bag) D data index (cellsPart mode info bag)
      (bag.cellCount - 1 - j) ((bag.cellList.take j).map CellInfo.dc) (countsFor info bag seen) =
        .ok (dci.dc, countsFor info bag (seen ++ dci.refIdx)) := by
  obtain ⟨hrows, hbefore⟩ := h.sound j dci hj
  have hlt : j < bag.cellCount := (List.getElem?_eq_some_iff.1 hj).1
  have hdci := List.mem_of_getElem? hj
  have hreverse : bag.cellList.reverse[bag.cellCount - 1 - j]? = some dci := by
    have hlt' := (List.getElem?_eq_some_iff.1 hj).1
    have hidx : bag.cellList.length - 1 - (bag.cellList.length - 1 - j) = j := by omega
    rw [Bag.cellCount, List.getElem?_reverse (by omega), hidx, hj]
  have hlength := length_cellBytes info hD h hdci (hfits dci hdci)
  have hinit := init_cellBytes info hD h hdci (hfits dci hdci) []
  rw [List.append_nil] at hinit
  have hend : (serializationInfo dci.dc (withHash D mode dci) info.refByteSize).endOffset =
      (cellBytes D mode info dci).length := by
    rw [hlength]
    exact endOffset_serializationInfo ..
  have hrefs := foldlM_range (n := (D.refs dci.dc).length)
    (f := deserializeRef (headerOf info bag) (cellBytes D mode info dci)
      ((bag.cellList.take j).map CellInfo.dc) (bag.cellCount - 1 - j)
      (serializationInfo dci.dc (withHash D mode dci) info.refByteSize).refsOffset)
    (fun k => ((D.refs dci.dc).take k, countsFor info bag (seen ++ dci.refIdx.take k)))
    (by
      intro k hk
      have hkr : k < dci.refIdx.length := hrows.length_eq ▸ hk
      obtain ⟨c, hc, hspan⟩ := rowsOf_take hrows hbefore (List.getElem?_eq_getElem hkr)
      have hr := hbefore _ (List.getElem_mem hkr)
      have hread := readRef_spec (D := D) hinfo hcount
        (D.serialize dci.dc bufSize (withHash D mode dci))
        ((serializationInfo dci.dc (withHash D mode dci) info.refByteSize).refsOffset +
          k * (headerOf info bag).refByteSize) hlt (List.getElem?_eq_getElem hkr) hr hspan (by
          rw [length_serialize hD dci.dc (hfits dci hdci), refsOffset_serializationInfo]
          rfl)
      have hbytes : D.serialize dci.dc bufSize (withHash D mode dci) ++
          dci.refIdx.flatMap (fun r => Bytes.big info.refByteSize (bag.cellCount - 1 - r)) =
            cellBytes D mode info dci := by
        rw [cellBytes, hinfo.cellCount_eq]
      rw [hbytes] at hread
      have htake : (D.refs dci.dc).take (k + 1) = (D.refs dci.dc).take k ++ [c] := by
        rw [List.take_add_one, hc]
        rfl
      have hseen : seen ++ dci.refIdx.take (k + 1) =
          seen ++ dci.refIdx.take k ++ [dci.refIdx[k]] := by
        rw [List.take_add_one, List.getElem?_eq_getElem hkr, List.append_assoc]
        rfl
      rw [deserializeRef, hread, ok_bind, htake, hseen]
      simp only [countIf_spec (hr.trans hlt)]
      rfl)
  rw [List.take_zero, List.take_zero, List.append_nil, List.take_length, hrows.length_eq.symm,
    List.take_length] at hrefs
  rw [deserializeCell, getCellSlice_spec hD h hinfo hfits hindexes hreverse, ok_bind,
    refByteSize_headerOf, hinit, ok_bind, hend, if_neg (not_not.2 rfl)]
  have hcnt : (serializationInfo dci.dc (withHash D mode dci) info.refByteSize).refsCnt =
      dci.refIdx.length := hrows.length_eq.symm
  have hcreate := createDataCell_spec dci.dc hD info.refByteSize
    (dci.refIdx.flatMap fun r => Bytes.big info.refByteSize (info.cellCount - 1 - r))
    (hfits dci hdci)
  rw [hcnt, hrefs, ok_bind]
  exact congrArg (fun res : Except ReadError D.DataCell => do
    return (← res, countsFor info bag (seen ++ dci.refIdx))) hcreate

/-- All cells, from the last one of the bag on. -/
theorem readCells_spec (hD : D.Lawful) (h : bag.WellFormed roots)
    (hinfo : Sized mode bag info) (hcount : bag.cellCount < 2 ^ 31)
    (hfits : ∀ dci ∈ bag.cellList, Fits mode dci) (hindexes : Indexes mode info bag data index)
    (seen : List Nat) :
    (List.range (headerOf info bag).cellCount).foldlM
      (readCell (headerOf info bag) D data index (cellsPart mode info bag))
      ([], countsFor info bag seen) = .ok (bag.cellList.map CellInfo.dc,
        countsFor info bag (seen ++ allRefs bag.cellList)) := by
  have hloop := foldlM_range (n := bag.cellCount)
    (f := readCell (headerOf info bag) D data index (cellsPart mode info bag))
    (fun j => ((bag.cellList.take j).map CellInfo.dc,
      countsFor info bag (seen ++ allRefs (bag.cellList.take j))))
    (by
      intro j hj
      have hget : bag.cellList[j]? = some bag.cellList[j] := List.getElem?_eq_getElem hj
      have htake : bag.cellList.take (j + 1) = bag.cellList.take j ++ [bag.cellList[j]] := by
        rw [List.take_add_one, hget]
        rfl
      have hrefs : seen ++ allRefs (bag.cellList.take (j + 1)) =
          seen ++ allRefs (bag.cellList.take j) ++ bag.cellList[j].refIdx := by
        rw [htake, allRefs, allRefs, List.flatMap_append, List.flatMap_singleton, List.append_assoc]
      rw [readCell, cellCount_headerOf,
        deserializeCell_spec hD h hinfo hcount hfits hindexes hget, ok_bind, hrefs, htake,
        List.map_append, List.map_singleton]
      rfl)
  rw [List.take_zero, Bag.cellCount, List.take_length, allRefs, List.flatMap_nil,
    List.append_nil] at hloop
  exact hloop

/-! ## The bag -/

theorem readRoots_spec (h : bag.WellFormed roots) (hinfo : Sized mode bag info)
    (hcount : bag.cellCount < 2 ^ 31) (rest : List UInt8) :
    readRoots (headerOf info bag) (headerBytes info bag ++ (rootsBytes info bag ++ rest)) =
      .ok (bag.roots.map fun r => bag.cellCount - 1 - r,
        countsFor info bag bag.roots) := by
  have hlt := hinfo.cellCount_lt
  have hroots := DagTable.rowsOf_length h.rows
  have hloop := foldlM_range (n := bag.roots.length)
    (f := readRoot (headerOf info bag) (headerBytes info bag ++ (rootsBytes info bag ++ rest)))
    (fun k => ((bag.roots.take k).map fun r => bag.cellCount - 1 - r,
      countsFor info bag (bag.roots.take k)))
    (by
      intro k hk
      have hget : bag.roots[k]? = some bag.roots[k] := List.getElem?_eq_getElem hk
      have hr : bag.roots[k] < bag.cellCount := hroots _ (List.getElem_mem hk)
      have htake : bag.roots.take (k + 1) = bag.roots.take k ++ [bag.roots[k]] := by
        rw [List.take_add_one, hget]
        rfl
      have hread : rootIndex (headerOf info bag)
          (headerBytes info bag ++ (rootsBytes info bag ++ rest)) k =
            .ok ((bag.cellCount - 1 - bag.roots[k] : Nat) : Int) := by
        refine readIndex_of_readInt (readInt_table _ (g := fun r => bag.cellCount - 1 - r) hget
          (by omega) ?_) (by omega)
        rw [length_headerBytes]
        rfl
      rw [readRoot, hread, ok_bind, if_neg (by rw [cellCount_headerOf]; omega), Int.toNat_natCast]
      simp only [countIf_spec hr, htake, List.map_append, List.map_singleton]
      rfl)
  have hcounts : (if (headerOf info bag).hasCacheBits then
      List.replicate (headerOf info bag).cellCount 0 else []) = countsFor info bag [] := by
    rw [countsFor, hasCacheBits_headerOf, cellCount_headerOf, countsOf]
    simp only [List.count_nil, min_zero, List.map_const', List.length_range]
  rw [List.take_zero, List.take_length, List.map_nil, ← hcounts] at hloop
  exact hloop

/-- A cell is to be cached when it is referred to more than once. -/
theorem checkCacheFlags_spec (h : bag.WellFormed roots) (hinfo : Sized mode bag info)
    (hindexes : Indexes mode info bag data index) (seen : List Nat)
    (hseen : ∀ i, seen.count i = visits bag.cellList bag.roots i) :
    checkCacheFlags (headerOf info bag) data index (countsFor info bag seen) = .ok () := by
  rw [checkCacheFlags, hasCacheBits_headerOf]
  split
  case isFalse => rfl
  case isTrue hcache =>
  refine forM_ok fun i hi => ?_
  have hlt : i < bag.cellCount := List.mem_range.1 hi
  have hlt' : bag.cellCount - 1 - i < bag.cellList.length := by
    rw [Bag.cellCount] at hlt ⊢
    omega
  have hreverse : bag.cellList.reverse[i]? = some bag.cellList[bag.cellCount - 1 - i] := by
    rw [List.getElem?_reverse hlt]
    exact List.getElem?_eq_getElem hlt'
  obtain ⟨-, hshould⟩ := h.cached _ _ (List.getElem?_eq_getElem hlt')
  have hcounts : (countsFor info bag seen)[i]? =
      some (min 2 (visits bag.cellList bag.roots (bag.cellCount - 1 - i))) := by
    rw [countsFor, if_pos hcache, countsOf, List.getElem?_map, List.getElem?_range hlt,
      Option.map_some, hseen]
  have hflag : decide (min 2 (visits bag.cellList bag.roots (bag.cellCount - 1 - i)) > 1) =
      bag.cellList[bag.cellCount - 1 - i].shouldCache := by
    rw [hshould, decide_eq_decide]
    omega
  rw [checkCacheFlag, hcounts]
  simp only [getCacheEntry_spec hinfo hindexes hcache hreverse, ok_bind, hflag]
  exact if_neg (not_not.2 rfl)

theorem mapM_ok {α β ε : Type} {f : α → Except ε β} {l : List α} {l' : List β}
    (h : List.Forall₂ (fun a b => f a = .ok b) l l') : l.mapM f = .ok l' := by
  induction h with
  | nil => rfl
  | cons ha _ ih =>
    rw [List.mapM_cons, ha, ok_bind, ih]
    rfl

theorem rootCells_spec (h : bag.WellFormed roots) :
    (bag.roots.map fun r => bag.cellCount - 1 - r).mapM
      (rootCell (headerOf info bag) (bag.cellList.map CellInfo.dc)) = .ok roots := by
  have hroots := DagTable.rowsOf_length h.rows
  refine mapM_ok (List.forall₂_map_left_iff.2 ?_)
  refine (List.forall₂_iff_get.2 ⟨h.rows.length_eq, fun k hk hk' => ?_⟩)
  have hrow := (List.forall₂_iff_get.1 h.rows).2 k hk hk'
  have hlt := hroots _ (List.getElem_mem hk)
  rw [List.get_eq_getElem] at hrow ⊢
  have hidx : (headerOf info bag).cellCount - (bag.cellCount - 1 - bag.roots[k]) - 1 =
      bag.roots[k] := by
    rw [cellCount_headerOf, Bag.cellCount]
    omega
  rw [rootCell, hidx, List.getElem?_map, hrow]

end

def crcBytes (crc32c : List UInt8 → BitVec 32) (info : Info) (body : List UInt8) : List UInt8 :=
  if info.hasCRC32C then Bytes.little 4 (crc32c body).toNat else []

variable (bag info) in
theorem checkCRC32C_spec (crc32c : List UInt8 → BitVec 32) (body : List UInt8) :
    checkCRC32C (headerOf info bag) crc32c (body ++ crcBytes crc32c info body) = .ok () := by
  have hhas : (headerOf info bag).hasCRC32C = info.hasCRC32C := rfl
  rw [checkCRC32C, hhas, crcBytes]
  by_cases hcrc : info.hasCRC32C = true
  · have hlength : (body ++ Bytes.little 4 (crc32c body).toNat).length - 4 = body.length := by
      rw [List.length_append, Bytes.length_little]
      omega
    have hlt := (crc32c body).isLt
    rw [if_neg (not_not.2 hcrc), if_pos hcrc,
      if_neg (by rw [List.length_append, Bytes.length_little]; omega), hlength, List.take_left,
      List.drop_left, Bytes.ofLittle_little_of_lt (by norm_num; omega), if_neg (not_not.2 rfl)]
  · rw [if_pos hcrc]

theorem findIndex_spec (hD : D.Lawful) (h : bag.WellFormed roots) (hinfo : Sized mode bag info)
    (hfits : ∀ dci ∈ bag.cellList, Fits mode dci) (rest : List UInt8) :
    ∃ index, findIndex (headerOf info bag) (cellsPart mode info bag) = .ok index ∧
      Indexes mode info bag
        (headerBytes info bag ++ (rootsBytes info bag ++ (indexPart mode info bag ++ rest)))
        index := by
  by_cases hindex : info.hasIndex = true
  · exact ⟨_, if_pos hindex, indexes_stored hinfo hindex rest⟩
  · have hcustom := customIndex_spec info hD h hfits
      (l := bag.cellList.reverse) (fun d hd => List.mem_reverse.1 hd) 0
    rw [List.length_reverse] at hcustom
    refine ⟨_, ?_, indexes_custom hinfo (Bool.not_eq_true _ ▸ hindex) _⟩
    rw [findIndex, hasIndex_headerOf, if_neg hindex]
    exact congrArg (Index.custom <$> ·) hcustom

/-- The roots are read from the bytes of the bag. -/
theorem deserializeCells_spec (crc32c : List UInt8 → BitVec 32) (hD : D.Lawful)
    (h : bag.WellFormed roots) (hinfo : Sized mode bag info) (hcount : bag.cellCount < 2 ^ 31)
    (hfits : ∀ dci ∈ bag.cellList, Fits mode dci) {maxRoots : Nat}
    (hmax : bag.roots.length ≤ maxRoots) :
    deserializeCells (headerOf info bag) D crc32c (serializeToImpl D crc32c mode info bag)
      maxRoots = .ok roots := by
  have hcheck := checkCRC32C_spec bag info crc32c (bodyBytes mode info bag)
  have hbytes : serializeToImpl D crc32c mode info bag =
      bodyBytes mode info bag ++ crcBytes crc32c info (bodyBytes mode info bag) :=
    serializeToImpl_eq crc32c hinfo
  rw [hbytes]
  generalize crcBytes crc32c info (bodyBytes mode info bag) = crc at hcheck
  have hcells := length_cellsPart hD h hinfo hfits
  have hbody : bodyBytes mode info bag ++ crc = headerBytes info bag ++ (rootsBytes info bag ++
      (indexPart mode info bag ++ (cellsPart mode info bag ++ crc))) := by
    simp only [bodyBytes, List.append_assoc]
  have hsubstr : substr (bodyBytes mode info bag ++ crc) (headerOf info bag).dataOffset
      (headerOf info bag).dataSize = .ok (cellsPart mode info bag) := by
    have hpre : (headerBytes info bag ++ (rootsBytes info bag ++ indexPart mode info bag)).length =
        (headerOf info bag).dataOffset := by
      rw [List.length_append, List.length_append, length_headerBytes, length_rootsBytes,
        length_indexPart, ← Nat.add_assoc]
      rfl
    have hsplit : bodyBytes mode info bag ++ crc =
        (headerBytes info bag ++ (rootsBytes info bag ++ indexPart mode info bag)) ++
          (cellsPart mode info bag ++ crc) := by
      simp only [bodyBytes, List.append_assoc]
    have hsize : (headerOf info bag).dataSize = (cellsPart mode info bag).length := hcells.symm
    rw [hsplit, hsize]
    exact substr_append hpre
  obtain ⟨index, hindex, hindexes⟩ := findIndex_spec hD h hinfo hfits
    (cellsPart mode info bag ++ crc)
  rw [← hbody] at hindexes
  have hreadRoots := readRoots_spec h hinfo hcount
    (indexPart mode info bag ++ (cellsPart mode info bag ++ crc))
  rw [← hbody] at hreadRoots
  have hflags := checkCacheFlags_spec h hinfo hindexes (bag.roots ++ allRefs bag.cellList)
    fun i => by
      rw [visits, List.count_append, List.count_append, Nat.add_comm]
  rw [deserializeCells, if_neg (not_lt.2 (show (headerOf info bag).rootCount ≤ maxRoots from hmax))]
  simp only [hcheck, hreadRoots, hsubstr, hindex, ok_bind,
    readCells_spec hD h hinfo hcount hfits hindexes, hflags, rootCells_spec h]

/-! ## How much data there is -/

theorem Bag.WellFormed.cellCount_eq (h : bag.WellFormed roots) :
    {c | ∃ root ∈ roots, Reach D.refs root c}.ncard = bag.cellCount := by
  classical
  have hset : {c | ∃ root ∈ roots, Reach D.refs root c} =
      ((bag.cellList.map CellInfo.dc).toFinset : Set D.DataCell) := by
    ext c
    rw [List.coe_toFinset]
    exact (h.mem_iff c).symm
  rw [hset, Set.ncard_coe_finset, List.toFinset_card_of_nodup h.nodup, List.length_map,
    Bag.cellCount]

/-- Every cell is a root, or another cell refers to it. -/
theorem Bag.WellFormed.cellCount_le (h : bag.WellFormed roots) :
    bag.cellCount ≤ bag.intRefs + bag.roots.length := by
  have hsubset : List.range bag.cellCount ⊆ allRefs bag.cellList ++ bag.roots := by
    intro i hi
    have hlt : i < bag.cellList.length := List.mem_range.1 hi
    exact List.count_pos_iff.1 (h.cached i _ (List.getElem?_eq_getElem hlt)).1
  have hle := (List.subperm_of_subset List.nodup_range hsubset).length_le
  rwa [List.length_range, List.length_append, ← h.intRefs_eq] at hle

/-- The cells, and the data of the roots. -/
theorem Bag.WellFormed.dataBytes_le (h : bag.WellFormed roots) (hnodup : roots.Nodup) :
    2 * bag.cellCount + (roots.map fun c => D.serializedSize c false - 2).sum ≤ bag.dataBytes := by
  have hsubset : roots ⊆ bag.cellList.map CellInfo.dc := by
    intro root hroot
    exact (h.mem_iff root).2 ⟨root, hroot, .refl⟩
  obtain ⟨l, hperm, hsub⟩ := List.subperm_of_subset hnodup hsubset
  have hle := List.Sublist.sum_le_sum (hsub.map fun c => D.serializedSize c false - 2)
    (fun n _ => Nat.zero_le n)
  have hsum : bag.dataBytes = 2 * bag.cellCount +
      ((bag.cellList.map CellInfo.dc).map fun c => D.serializedSize c false - 2).sum := by
    have hcell : ∀ info ∈ bag.cellList, D.serializedSize info.dc false =
        2 + (D.serializedSize info.dc false - 2) := by
      intro info _
      have hle := two_le_serializedSize info.dc false
      omega
    rw [h.dataBytes_eq, List.map_congr_left hcell, List.sum_map_add, List.map_const',
      List.sum_replicate, List.map_map, smul_eq_mul, Bag.cellCount, mul_comm]
    rfl
  rw [hsum, ← (hperm.map fun c => D.serializedSize c false - 2).sum_eq]
  omega

theorem dataSize_ok (h : bag.WellFormed roots) (hinfo : Sized mode bag info) (hnodup : roots.Nodup)
    (hdata : roots.length = 1 ∨ ∀ root ∈ roots, 25 ≤ (D.bits root).length) :
    ¬ info.dataSize < bag.cellCount * (2 + info.refByteSize) - info.refByteSize := by
  have hle := hinfo.refByteSize_le
  have hsum := sum_cellSize mode h info.refByteSize
  have hcells := h.cellCount_le
  have hbytes := h.dataBytes_le hnodup
  have hlength := h.rows.length_eq
  rw [← hinfo.dataSize_eq] at hsum
  have hmul : bag.cellCount * info.refByteSize ≤
      bag.intRefs * info.refByteSize + bag.roots.length * info.refByteSize := by
    rw [← Nat.add_mul]
    exact Nat.mul_le_mul_right _ hcells
  rw [Nat.mul_add]
  rcases hdata with hone | hbits
  · rw [hlength, hone] at hmul
    omega
  · have hroots : bag.roots.length * info.refByteSize ≤
        (roots.map fun c => D.serializedSize c false - 2).sum := by
      rw [hlength]
      have hsize := List.card_nsmul_le_sum (roots.map fun c => D.serializedSize c false - 2)
        info.refByteSize (by
          intro size hsize
          obtain ⟨root, hroot, rfl⟩ := List.mem_map.1 hsize
          have hbits := hbits root hroot
          simp only [DataCells.serializedSize, Bool.false_eq_true, if_false]
          omega)
      rwa [List.length_map, smul_eq_mul] at hsize
    omega

/-! ## The round trip -/

theorem deserialize_spec (crc32c : List UInt8 → BitVec 32) (hD : D.Lawful)
    (h : bag.WellFormed roots) (hinfo : Sized mode bag info) (hcount : bag.cellCount < 2 ^ 31)
    (hfits : ∀ dci ∈ bag.cellList, Fits mode dci) (hne : roots ≠ []) (hnodup : roots.Nodup)
    {maxRoots : Nat} (hmax : roots.length ≤ maxRoots) :
    deserialize D crc32c (serializeToImpl D crc32c mode info bag) maxRoots =
      if info.dataSize < bag.cellCount * (2 + info.refByteSize) - info.refByteSize then
        .error .invalidHeader else .ok roots := by
  have hlength := h.rows.length_eq
  have hroots : 0 < bag.roots.length := hlength ▸ List.length_pos_of_ne_nil hne
  have hrootCount : bag.roots.length ≤ bag.cellCount := by
    have hsubset : roots ⊆ bag.cellList.map CellInfo.dc := fun root hroot =>
      (h.mem_iff root).2 ⟨root, hroot, .refl⟩
    have hle := (List.subperm_of_subset hnodup hsubset).length_le
    rwa [List.length_map, ← hlength] at hle
  have hbytes := serializeToImpl_eq crc32c hinfo
  rw [bodyBytes, List.append_assoc] at hbytes
  obtain ⟨rest, hrest⟩ : ∃ rest, serializeToImpl D crc32c mode info bag =
      headerBytes info bag ++ rest := ⟨_, hbytes⟩
  have hparse := parseSerializedHeader_spec hinfo hcount (hroots.trans_le hrootCount) hroots
    hrootCount rest
  have hsize := length_serializeToImpl crc32c hinfo
  rw [length_cellsPart hD h hinfo hfits, hinfo.totalSize_eq] at hsize
  have htotal : ¬ (headerOf info bag).totalSize >
      (serializeToImpl D crc32c mode info bag).length := by
    simp only [headerOf]
    omega
  rw [← hrest] at hparse
  by_cases hsmall : info.dataSize < bag.cellCount * (2 + info.refByteSize) - info.refByteSize
  · rw [if_pos hsmall] at hparse ⊢
    rw [deserialize, hparse]
    rfl
  · rw [if_neg hsmall] at hparse ⊢
    rw [deserialize, hparse]
    exact (if_neg htotal).trans
      (deserializeCells_spec crc32c hD h hinfo hcount hfits (hlength ▸ hmax))

end

/-- What becomes of roots that are written into a bag and read again. -/
theorem deserialize_serializeRoots (crc32c : List UInt8 → BitVec 32) (hD : D.Lawful)
    {roots : List D.DataCell} (hne : roots ≠ []) (hnodup : roots.Nodup)
    (hdistinct : D.Distinct roots)
    (hcount : {c | ∃ root ∈ roots, Reach D.refs root c}.ncard < 2 ^ 31) {maxRoots : Nat}
    (hmax : roots.length ≤ maxRoots) (mode : Mode) :
    (∃ bytes, serializeRoots D crc32c mode roots = .ok bytes ∧
      (deserialize D crc32c bytes maxRoots = .ok roots ∨
        deserialize D crc32c bytes maxRoots = .error .invalidHeader ∧ roots.length ≠ 1 ∧
          ∃ root ∈ roots, (D.bits root).length < 25)) ∨
    (serializeRoots D crc32c mode roots = .error .noCells ∧
      mode.withCacheBits = true ∧ mode.withIndex = false) ∨
    (serializeRoots D crc32c mode roots = .error .wrongSize ∧ mode.withIntHashes = true ∧
      ∃ root ∈ roots, ∃ c, Reach D.refs root c ∧ bufSize < D.serializedSize c true) := by
  obtain ⟨idxs, boc, himport, himported, hrows, hmem⟩ := importRoots_spec hD hdistinct
  obtain ⟨bag, hreorder, h⟩ := reorderCells_spec himported hrows hmem
  have hserialize : serializeRoots D crc32c mode roots = serializeToSlice D crc32c mode bag := by
    rw [serializeRoots, himport, ok_bind]
    simp only [hreorder]
  rw [hserialize]
  rw [h.cellCount_eq] at hcount
  have hroots : bag.roots ≠ [] := by
    intro hnil
    have hlength := h.rows.length_eq
    rw [hnil] at hlength
    exact hne (List.length_eq_zero_iff.1 hlength.symm)
  by_cases hmode : mode.withCacheBits = true ∧ ¬ mode.withIndex = true
  · refine .inr (.inl ⟨?_, hmode.1, by simpa using hmode.2⟩)
    rw [serializeToSlice, estimateSerializedSize, if_pos hmode]
  obtain ⟨info, hestimate, hinfo⟩ := estimateSerializedSize_spec hD h hroots hcount fun hcache =>
    not_not.1 fun hindex => hmode ⟨hcache, hindex⟩
  rw [serializeToSlice_spec crc32c hD h hinfo hestimate]
  by_cases hfits : ∀ dci ∈ bag.cellList, Fits mode dci
  · rw [if_pos hfits]
    refine .inl ⟨_, rfl, ?_⟩
    rw [deserialize_spec crc32c hD h hinfo hcount hfits hne hnodup hmax]
    split
    · next hsmall =>
      refine .inr ⟨rfl, fun hone => dataSize_ok h hinfo hnodup (.inl hone) hsmall, ?_⟩
      by_contra hbits
      refine dataSize_ok h hinfo hnodup (.inr fun root hroot => ?_) hsmall
      by_contra hlt
      exact hbits ⟨root, hroot, not_le.1 hlt⟩
    · exact .inl rfl
  · simp only [not_forall, exists_prop] at hfits
    obtain ⟨dci, hdci, hnot⟩ := hfits
    obtain ⟨hroot, -⟩ := h.hcnt_eq dci hdci
    have hhash : withHash D mode dci = true := by
      by_contra hfalse
      have hbits := hD.bits_le dci.dc
      rw [maxBits] at hbits
      refine hnot ?_
      rw [Fits, Bool.eq_false_of_not_eq_true hfalse]
      simp only [DataCells.serializedSize, Bool.false_eq_true, if_false, bufSize]
      omega
    rw [Fits, hhash] at hnot
    refine .inr (.inr ⟨if_neg fun hall => hnot (hhash ▸ hall dci hdci), ?_, ?_⟩)
    · rw [withHash, hroot] at hhash
      simpa using (Bool.and_eq_true_iff.1 (by simpa using hhash)).1
    · obtain ⟨root, hroot, hreach⟩ := (h.mem_iff dci.dc).1 (List.mem_map_of_mem hdci)
      exact ⟨root, hroot, dci.dc, hreach, not_le.1 hnot⟩

end BagOfCells

/-! ## The functions for files and messages -/

section
open BagOfCells
open DagTable (Reach)
open Ton (ok_bind)
variable {D : DataCells} (crc32c : List UInt8 → BitVec 32)

theorem not_isEmpty_of_deserialize {roots : List D.DataCell} (hne : roots ≠ []) {maxRoots : Nat}
    {bytes : List UInt8}
    (h : deserialize D crc32c bytes maxRoots = .ok roots ∨
      deserialize D crc32c bytes maxRoots = .error .invalidHeader) : bytes.isEmpty = false := by
  cases bytes with
  | nil =>
    rcases h with h | h
    · exact absurd (Except.ok.inj h).symm hne
    · cases h
  | cons => rfl

/-- A cell that is written into a bag of cells is read back from it, unless its level is not 0,
which is refused then. It is not written when the cache bits have no index to be in, and when the
bytes of a cell with its hashes do not fit their buffer. -/
theorem stdBocDeserialize_stdBocSerialize (hD : D.Lawful) {root : D.DataCell}
    (hdistinct : D.Distinct [root]) (hcount : {c | Reach D.refs root c}.ncard < 2 ^ 31)
    (mode : Mode) :
    (∃ bytes, stdBocSerialize D crc32c root mode = .ok bytes ∧
      ∀ canBeEmpty, stdBocDeserialize D crc32c bytes canBeEmpty =
        if LevelMask.level (D.levelMask root) = 0 then .ok (some root) else .error .nonZeroLevel) ∨
    (stdBocSerialize D crc32c root mode = .error .noCells ∧
      mode.withCacheBits = true ∧ mode.withIndex = false) ∨
    (stdBocSerialize D crc32c root mode = .error .wrongSize ∧ mode.withIntHashes = true ∧
      ∃ c, Reach D.refs root c ∧ bufSize < D.serializedSize c true) := by
  have hset : {c | ∃ r ∈ [root], Reach D.refs r c} = {c | Reach D.refs root c} := by
    ext c
    simp
  rcases deserialize_serializeRoots crc32c hD (List.cons_ne_nil root [])
    (List.nodup_singleton root) hdistinct (hset ▸ hcount) (le_refl 1) mode with
    ⟨bytes, hbytes, hresult⟩ | hcache | ⟨hsize, hhashes, r, hr, hc⟩
  · refine .inl ⟨bytes, hbytes, fun canBeEmpty => ?_⟩
    have hok : deserialize D crc32c bytes 1 = .ok [root] := by
      rcases hresult with hok | ⟨-, hone, -⟩
      · exact hok
      · exact absurd rfl hone
    have hne := not_isEmpty_of_deserialize crc32c (List.cons_ne_nil root []) (.inl hok)
    rw [stdBocDeserialize, if_neg (by simp [hne]), hok, ok_bind]
    exact ite_not ..
  · exact .inr (.inl hcache)
  · obtain rfl := List.mem_singleton.1 hr
    exact .inr (.inr ⟨hsize, hhashes, hc⟩)

/-- The bytes of a bag with an index and cache bits, and of one of two roots. -/
def sampleBytes : List UInt8 := [
    0xb5, 0xee, 0x9c, 0x72, 0xe1, 0x01, 0x03, 0x01, 0x00, 0x13, 0x00, 0x10, 0x20, 0x27,
    0x02, 0x08, 0x00, 0x00, 0x00, 0x00, 0x01, 0x02, 0x02, 0x08, 0xff, 0xff, 0xff, 0xff, 0x02, 0x02,
    0x00, 0x01, 0xc0]

def sampleBytesMulti : List UInt8 := [
    0xb5, 0xee, 0x9c, 0x72, 0x41, 0x01, 0x03, 0x02, 0x00, 0x13, 0x00, 0x01,
    0x02, 0x08, 0x00, 0x00, 0x00, 0x00, 0x01, 0x02, 0x02, 0x08, 0xff, 0xff, 0xff, 0xff, 0x02, 0x02,
    0x00, 0x01, 0xc0]

/-- Their checksums. -/
def sampleCrc (bytes : List UInt8) : BitVec 32 :=
  if bytes = sampleBytes then 0x1853f9ab
  else if bytes = sampleBytesMulti then 0xb5ec0a99
  else 0

theorem stdBocDeserialize_stdBocSerialize_sample :
    stdBocSerialize (ordinaryCells OrdinaryCell.sampleHash) sampleCrc OrdinaryCell.sampleTop
        ⟨true, true, false, true, true⟩ = .ok (sampleBytes ++ [0xab, 0xf9, 0x53, 0x18]) ∧
      ∀ canBeEmpty, stdBocDeserialize (ordinaryCells OrdinaryCell.sampleHash) sampleCrc
        (sampleBytes ++ [0xab, 0xf9, 0x53, 0x18]) canBeEmpty =
          .ok (some OrdinaryCell.sampleTop) := by
  have hbytes : stdBocSerialize (ordinaryCells OrdinaryCell.sampleHash) sampleCrc
      OrdinaryCell.sampleTop ⟨true, true, false, true, true⟩ =
        .ok (sampleBytes ++ [0xab, 0xf9, 0x53, 0x18]) := by decide +kernel
  rcases stdBocDeserialize_stdBocSerialize sampleCrc
    (ordinaryCells_lawful OrdinaryCell.length_sampleHash) OrdinaryCell.distinct_sampleTop
    OrdinaryCell.ncard_sampleTop ⟨true, true, false, true, true⟩ with
    ⟨bytes, hwritten, hread⟩ | ⟨herror, -⟩ | ⟨herror, -⟩
  · obtain rfl := Except.ok.inj (hbytes.symm.trans hwritten)
    exact ⟨hbytes, hread⟩
  · cases hbytes.symm.trans herror
  · cases hbytes.symm.trans herror

/-- The same of several roots, but that the reader takes the bytes to be too few for the cells
where there are many and some root has less than four bytes of data. -/
theorem stdBocDeserializeMulti_stdBocSerializeMulti (hD : D.Lawful) {roots : List D.DataCell}
    (hnodup : roots.Nodup) (hdistinct : D.Distinct roots)
    (hlevel : ∀ root ∈ roots, LevelMask.level (D.levelMask root) = 0)
    (hcount : {c | ∃ root ∈ roots, Reach D.refs root c}.ncard < 2 ^ 31) {maxRoots : Nat}
    (hmax : roots.length ≤ maxRoots) (mode : Mode) :
    (∃ bytes, stdBocSerializeMulti D crc32c roots mode = .ok bytes ∧
      (stdBocDeserializeMulti D crc32c bytes maxRoots = .ok roots ∨
        stdBocDeserializeMulti D crc32c bytes maxRoots = .error .invalidHeader ∧
          roots.length ≠ 1 ∧ ∃ root ∈ roots, (D.bits root).length < 25)) ∨
    (stdBocSerializeMulti D crc32c roots mode = .error .noCells ∧
      mode.withCacheBits = true ∧ mode.withIndex = false) ∨
    (stdBocSerializeMulti D crc32c roots mode = .error .wrongSize ∧ mode.withIntHashes = true ∧
      ∃ root ∈ roots, ∃ c, Reach D.refs root c ∧ bufSize < D.serializedSize c true) := by
  by_cases hempty : roots = []
  · subst hempty
    exact .inl ⟨[], rfl, .inl rfl⟩
  have hserialize : stdBocSerializeMulti D crc32c roots mode = serializeRoots D crc32c mode roots :=
    if_neg (by simpa using hempty)
  rw [hserialize]
  rcases deserialize_serializeRoots crc32c hD hempty hnodup hdistinct hcount hmax mode with
    ⟨bytes, hbytes, hresult⟩ | hother
  · refine .inl ⟨bytes, hbytes, ?_⟩
    have hne := not_isEmpty_of_deserialize crc32c hempty (hresult.imp_right And.left)
    have hlevels : ¬ (roots.any fun root => LevelMask.level (D.levelMask root) ≠ 0) = true := by
      simpa using hlevel
    rw [stdBocDeserializeMulti, if_neg (by simp [hne])]
    rcases hresult with hok | ⟨herror, hrest⟩
    · rw [hok, ok_bind, if_neg hlevels]
      exact .inl rfl
    · rw [herror]
      exact .inr ⟨rfl, hrest⟩
  · exact .inr hother

theorem stdBocDeserializeMulti_stdBocSerializeMulti_sample :
    stdBocSerializeMulti (ordinaryCells OrdinaryCell.sampleHash) sampleCrc
        [OrdinaryCell.sampleTop, OrdinaryCell.sampleRoot] ⟨false, true, false, false, false⟩ =
          .ok (sampleBytesMulti ++ [0x99, 0x0a, 0xec, 0xb5]) ∧
      stdBocDeserializeMulti (ordinaryCells OrdinaryCell.sampleHash) sampleCrc
        (sampleBytesMulti ++ [0x99, 0x0a, 0xec, 0xb5]) 2 =
          .ok [OrdinaryCell.sampleTop, OrdinaryCell.sampleRoot] := by
  have hbytes : stdBocSerializeMulti (ordinaryCells OrdinaryCell.sampleHash) sampleCrc
      [OrdinaryCell.sampleTop, OrdinaryCell.sampleRoot] ⟨false, true, false, false, false⟩ =
        .ok (sampleBytesMulti ++ [0x99, 0x0a, 0xec, 0xb5]) := by decide +kernel
  have hnodup : [OrdinaryCell.sampleTop, OrdinaryCell.sampleRoot].Nodup := by
    simp [OrdinaryCell.sampleTop, OrdinaryCell.sampleRoot]
  rcases stdBocDeserializeMulti_stdBocSerializeMulti sampleCrc
    (ordinaryCells_lawful OrdinaryCell.length_sampleHash) hnodup
    OrdinaryCell.distinct_sampleRoots (fun root _ => rfl) OrdinaryCell.ncard_sampleRoots
    (le_refl 2) ⟨false, true, false, false, false⟩ with
    ⟨bytes, hwritten, hread⟩ | ⟨herror, -⟩ | ⟨herror, -⟩
  · obtain rfl := Except.ok.inj (hbytes.symm.trans hwritten)
    refine ⟨hbytes, hread.resolve_right ?_⟩
    -- both roots have 32 bits
    rintro ⟨-, -, root, hroot, hbits⟩
    rcases List.mem_cons.1 hroot with rfl | hroot
    · exact absurd hbits (by decide)
    · obtain rfl := List.mem_singleton.1 hroot
      exact absurd hbits (by decide)
  · cases hbytes.symm.trans herror
  · cases hbytes.symm.trans herror

end

end Vm
