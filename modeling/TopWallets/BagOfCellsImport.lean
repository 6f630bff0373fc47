import TopWallets.BagOfCells
import TopWallets.Lib.DagTable

/- What the import of cells into a bag makes: a sound table of the cells below the roots, each
   once (`importRoots_spec`).

   That a cell is found by its hash supposes that the cells of the bag have different ones
   (`Distinct`). While a cell is imported, the indices of its references and of the roots before
   are pending: they are counted where it matters whether a cell is referred to more than once. -/
namespace Vm

namespace DataCells

/-- What `DataCell::create` sees to, and that the cell it makes is its content. -/
structure Lawful (D : DataCells) : Prop where
  bits_le : ∀ c, (D.bits c).length ≤ maxBits
  refs_le : ∀ c, (D.refs c).length ≤ maxRefs
  levelMask_lt : ∀ c, D.levelMask c < 8
  length_hash : ∀ c i, (D.hash c i).length = hashBytes
  depth_lt : ∀ c i, D.depth c i < 256 ^ depthBytes
  create_eq : ∀ c, D.create (D.bits c) (D.refs c) (D.special c) = .ok c
  depth_le : ∀ c, DagTable.DepthLe D.refs maxDepth c

/-- No two of the cells below the roots have one hash. -/
def Distinct (D : DataCells) (roots : List D.DataCell) : Prop :=
  Set.InjOn D.repHash {c | ∃ root ∈ roots, DagTable.Reach D.refs root c}

end DataCells

theorem map_modify_of {α β : Type*} {f : α → α} {g : α → β} (h : ∀ a, g (f a) = g a)
    (l : List α) (i : Nat) : (l.modify i f).map g = l.map g := by
  apply List.ext_getElem?
  intro j
  rw [List.getElem?_map, List.getElem?_map, List.getElem?_modify]
  cases l[j]? with
  | none => rfl
  | some a =>
    by_cases hij : i = j
    · simp [hij, h]
    · simp [hij]

theorem mem_modify {α : Type*} {f : α → α} {l : List α} {i : Nat} {a : α} (h : a ∈ l.modify i f) :
    ∃ b ∈ l, a = b ∨ a = f b := by
  obtain ⟨j, hj, rfl⟩ := List.mem_iff_getElem.1 h
  rw [List.length_modify] at hj
  refine ⟨l[j], List.getElem_mem hj, ?_⟩
  rw [List.getElem_modify]
  by_cases hij : i = j
  · rw [if_pos hij]
    exact .inr rfl
  · rw [if_neg hij]
    exact .inl rfl

namespace BagOfCells
open DagTable (RowsOf Reach DepthLe rowsOf_congr)

abbrev Sound (D : DataCells) (l : List (CellInfo D.DataCell)) : Prop :=
  DagTable.Sound CellInfo.dc CellInfo.refIdx D.refs l

/-- The references of all cells. -/
def allRefs {C : Type} (l : List (CellInfo C)) : List Nat := l.flatMap CellInfo.refIdx

/-- How often a cell is referred to. -/
def visits {C : Type} (l : List (CellInfo C)) (pending : List Nat) (i : Nat) : Nat :=
  (allRefs l ++ pending).count i

/-- The state between two imports; `intPending` of the pending references are counted. -/
structure Imported (D : DataCells) (boc : Import D.DataCell) (pending : List Nat)
    (intPending : Nat) : Prop where
  cells_eq : boc.cells = (boc.cellList.map CellInfo.dc).zipIdx.map fun (c, i) => (D.repHash c, i)
  nodup : (boc.cellList.map CellInfo.dc).Nodup
  sound : Sound D boc.cellList
  fresh : ∀ info ∈ boc.cellList, info.newIdx = .unset ∧ info.isRootCell = false ∧
    info.hcnt = LevelMask.hashesCount (D.levelMask info.dc)
  dataBytes_eq : boc.dataBytes =
    ((boc.cellList.map CellInfo.dc).map fun c => D.serializedSize c false).sum
  intRefs_eq : boc.intRefs = (allRefs boc.cellList).length + intPending
  pending_lt : ∀ r ∈ pending, r < boc.cellCount
  cached : ∀ (i : Nat) (info : CellInfo D.DataCell), boc.cellList[i]? = some info →
    1 ≤ visits boc.cellList pending i ∧
      info.shouldCache = decide (2 ≤ visits boc.cellList pending i)

/-! ## The table of hashes -/

section
variable {α κ : Type} [BEq κ] [LawfulBEq κ] {f : α → κ} {h : κ}

theorem lookup_zipIdx_some {l : List α} {n pos : Nat}
    (hlookup : ((l.zipIdx n).map fun (a, i) => (f a, i)).lookup h = some pos) :
    n ≤ pos ∧ ∃ a, l[pos - n]? = some a ∧ f a = h := by
  induction l generalizing n with
  | nil => cases hlookup
  | cons a l ih =>
    rw [List.zipIdx_cons, List.map_cons, List.lookup_cons] at hlookup
    cases hkey : h == f a with
    | true =>
      rw [hkey] at hlookup
      obtain rfl := Option.some.inj hlookup
      exact ⟨le_rfl, a, by simp, (eq_of_beq hkey).symm⟩
    | false =>
      rw [hkey] at hlookup
      obtain ⟨hle, b, hb, hfb⟩ := ih hlookup
      have hpos : pos - n = pos - (n + 1) + 1 := by omega
      exact ⟨by omega, b, by rw [hpos, List.getElem?_cons_succ, hb], hfb⟩

theorem lookup_zipIdx_none {l : List α} {n : Nat}
    (hlookup : ((l.zipIdx n).map fun (a, i) => (f a, i)).lookup h = none) :
    ∀ a ∈ l, f a ≠ h := by
  induction l generalizing n with
  | nil =>
    intro a ha
    cases ha
  | cons b l ih =>
    rw [List.zipIdx_cons, List.map_cons, List.lookup_cons] at hlookup
    cases hkey : h == f b with
    | true =>
      rw [hkey] at hlookup
      cases hlookup
    | false =>
      rw [hkey] at hlookup
      intro a ha
      rcases List.mem_cons.1 ha with rfl | ha
      · intro heq
        rw [beq_iff_eq.2 heq.symm] at hkey
        cases hkey
      · exact ih hlookup a ha

end

/-! ## One cell -/

section
variable {D : DataCells} {boc : Import D.DataCell} {pending : List Nat} {intPending : Nat}

theorem imported_empty : Imported D Import.empty [] 0 where
  cells_eq := rfl
  nodup := List.nodup_nil
  sound := DagTable.sound_nil
  fresh := by
    intro info hinfo
    cases hinfo
  dataBytes_eq := rfl
  intRefs_eq := rfl
  pending_lt := by
    intro r hr
    cases hr
  cached := by
    intro i info hinfo
    cases hinfo

/-- A pending reference may be counted before the others. -/
theorem Imported.perm (h : Imported D boc pending intPending) {pending' : List Nat}
    (hperm : pending.Perm pending') : Imported D boc pending' intPending where
  __ := h
  pending_lt := fun r hr => h.pending_lt r (hperm.mem_iff.2 hr)
  cached := by
    intro i info hinfo
    have hvisits : visits boc.cellList pending' i = visits boc.cellList pending i := by
      rw [visits, visits, List.count_append, List.count_append, hperm.count_eq]
    rw [hvisits]
    exact h.cached i info hinfo

theorem allRefs_congr {C : Type} {l l' : List (CellInfo C)}
    (h : l.map CellInfo.refIdx = l'.map CellInfo.refIdx) : allRefs l = allRefs l' := by
  rw [allRefs, allRefs, List.flatMap_def, List.flatMap_def, h]

/-- A cell that is found has one more reference. -/
theorem Imported.setShouldCache (h : Imported D boc pending intPending) {pos : Nat}
    (hpos : pos < boc.cellList.length) :
    Imported D (setShouldCache D pos boc) (pos :: pending) intPending := by
  have hmap : ∀ {β : Type} (g : CellInfo D.DataCell → β),
      (∀ info, g { info with shouldCache := true } = g info) →
      (BagOfCells.setShouldCache D pos boc).cellList.map g = boc.cellList.map g :=
    fun g hg => map_modify_of hg _ _
  have hdc := hmap CellInfo.dc fun _ => rfl
  have hrefs := hmap CellInfo.refIdx fun _ => rfl
  have hvisits : ∀ i, visits (BagOfCells.setShouldCache D pos boc).cellList (pos :: pending) i =
      visits boc.cellList pending i + if pos = i then 1 else 0 := by
    intro i
    rw [visits, visits, allRefs_congr hrefs, List.count_append, List.count_append, List.count_cons]
    simp only [beq_iff_eq]
    omega
  refine ⟨?_, ?_, h.sound.congr hdc.symm hrefs.symm, ?_, ?_, ?_, ?_, ?_⟩
  · rw [hdc]
    exact h.cells_eq
  · rw [hdc]
    exact h.nodup
  · intro info hinfo
    obtain ⟨info', hinfo', rfl | rfl⟩ := mem_modify hinfo
    · exact h.fresh info hinfo'
    · exact h.fresh info' hinfo'
  · rw [hdc]
    exact h.dataBytes_eq
  · rw [allRefs_congr hrefs]
    exact h.intRefs_eq
  · intro r hr
    have hcount : (BagOfCells.setShouldCache D pos boc).cellCount = boc.cellCount :=
      List.length_modify ..
    rw [hcount]
    rcases List.mem_cons.1 hr with rfl | hr
    · exact hpos
    · exact h.pending_lt r hr
  · intro i info hinfo
    rw [hvisits]
    rw [BagOfCells.setShouldCache, List.getElem?_modify] at hinfo
    obtain ⟨info', hinfo', rfl⟩ := Option.map_eq_some_iff.1 hinfo
    obtain ⟨hone, hcache⟩ := h.cached i info' hinfo'
    by_cases hi : pos = i
    · rw [if_pos hi, if_pos hi]
      exact ⟨by omega, (decide_eq_true (by omega)).symm⟩
    · rw [if_neg hi, if_neg hi]
      exact ⟨hone, hcache⟩

/-- Nothing refers to the cell that is not there yet. -/
theorem Imported.visits_cellCount (h : Imported D boc pending intPending) :
    visits boc.cellList pending boc.cellCount = 0 := by
  rw [visits, List.count_eq_zero]
  intro hmem
  rcases List.mem_append.1 hmem with hmem | hmem
  · obtain ⟨info, hinfo, hr⟩ := List.mem_flatMap.1 hmem
    obtain ⟨i, hi, rfl⟩ := List.mem_iff_getElem.1 hinfo
    have hlt := (h.sound i boc.cellList[i] (List.getElem?_eq_getElem hi)).2 _ hr
    exact absurd hlt (not_lt.2 hi.le)
  · exact absurd (h.pending_lt _ hmem) (lt_irrefl _)

/-- A new cell, whose references are no longer pending. -/
theorem Imported.addCell {refs : List Nat}
    (h : Imported D boc (refs ++ pending) (refs.length + intPending)) {cell : D.DataCell}
    (hnew : cell ∉ boc.cellList.map CellInfo.dc)
    (hrefs : RowsOf CellInfo.dc boc.cellList refs (D.refs cell)) (wt : Nat) :
    Imported D (addCell D cell refs wt boc).2 ((addCell D cell refs wt boc).1 :: pending)
      intPending := by
  have hlist : ∃ info : CellInfo D.DataCell, (BagOfCells.addCell D cell refs wt boc).2.cellList =
      boc.cellList ++ [info] ∧ info.dc = cell ∧ info.refIdx = refs ∧ info.newIdx = .unset ∧
        info.isRootCell = false ∧ info.shouldCache = false ∧
          info.hcnt = LevelMask.hashesCount (D.levelMask cell) :=
    ⟨_, rfl, rfl, rfl, rfl, rfl, rfl, rfl⟩
  obtain ⟨info, hlist, rfl, rfl, hunset, hroot, hcache, hhcnt⟩ := hlist
  have hallRefs : allRefs (boc.cellList ++ [info]) = allRefs boc.cellList ++ info.refIdx := by
    rw [allRefs, List.flatMap_append, List.flatMap_singleton]
    rfl
  have hvisits : ∀ i, visits (boc.cellList ++ [info]) (boc.cellCount :: pending) i =
      visits boc.cellList (info.refIdx ++ pending) i + if boc.cellCount = i then 1 else 0 := by
    intro i
    simp only [visits, hallRefs, List.count_append, List.count_cons, beq_iff_eq]
    omega
  have hmap : ∀ {β : Type} (g : CellInfo D.DataCell → β),
      (boc.cellList ++ [info]).map g = boc.cellList.map g ++ [g info] := by
    intro β g
    rw [List.map_append, List.map_singleton]
  refine ⟨?_, ?_, ?_, ?_, ?_, ?_, ?_, ?_⟩
  · rw [hlist, hmap, List.zipIdx_append, List.map_append, ← h.cells_eq, List.length_map]
    simp only [List.zipIdx_cons, List.zipIdx_nil, List.map_singleton, Nat.zero_add]
    rfl
  · rw [hlist, hmap]
    exact List.nodup_append.2 ⟨h.nodup, List.nodup_singleton _, by
      intro c hc c' hc' heq
      rw [List.mem_singleton] at hc'
      subst hc'
      subst heq
      exact hnew hc⟩
  · rw [hlist]
    exact h.sound.concat hrefs
  · rw [hlist]
    intro info' hinfo'
    rcases List.mem_append.1 hinfo' with hinfo' | hinfo'
    · exact h.fresh info' hinfo'
    · obtain rfl := List.mem_singleton.1 hinfo'
      exact ⟨hunset, hroot, hhcnt⟩
  · rw [hlist, hmap, List.map_append, List.sum_append, ← h.dataBytes_eq]
    rfl
  · have hint := h.intRefs_eq
    rw [hlist, hallRefs, List.length_append]
    change boc.intRefs = _
    omega
  · intro r hr
    have hcount : (BagOfCells.addCell D info.dc info.refIdx wt boc).2.cellCount =
        boc.cellCount + 1 := by
      rw [Import.cellCount, hlist, List.length_append]
      rfl
    rw [hcount]
    rcases List.mem_cons.1 hr with rfl | hr
    · exact Nat.lt_succ_self _
    · exact (h.pending_lt r (List.mem_append_right _ hr)).trans (Nat.lt_succ_self _)
  · intro i info' hinfo'
    rw [hlist] at hinfo' ⊢
    change 1 ≤ visits _ (boc.cellCount :: pending) i ∧
      info'.shouldCache = decide (2 ≤ visits _ (boc.cellCount :: pending) i)
    rw [hvisits]
    by_cases hi : i < boc.cellCount
    · rw [List.getElem?_append_left hi] at hinfo'
      rw [if_neg (by omega)]
      exact h.cached i info' hinfo'
    · have hlt := (List.getElem?_eq_some_iff.1 hinfo').1
      rw [List.length_append, List.length_singleton] at hlt
      obtain rfl : i = boc.cellCount := by
        rw [Import.cellCount] at hi ⊢
        omega
      rw [Import.cellCount, List.getElem?_concat_length] at hinfo'
      obtain rfl := Option.some.inj hinfo'
      rw [h.visits_cellCount, if_pos rfl]
      exact ⟨le_rfl, hcache⟩

theorem Imported.count (h : Imported D boc pending intPending) :
    Imported D { boc with intRefs := boc.intRefs + 1 } pending (intPending + 1) where
  __ := h
  intRefs_eq := by
    have hint := h.intRefs_eq
    change boc.intRefs + 1 = (allRefs boc.cellList).length + _
    omega

end

/-! ## The cells below the roots -/

section
variable {D : DataCells}

def dcs (boc : Import D.DataCell) : List D.DataCell := boc.cellList.map CellInfo.dc

theorem dcs_setShouldCache (pos : Nat) (boc : Import D.DataCell) :
    dcs (setShouldCache D pos boc) = dcs boc :=
  map_modify_of (f := fun info : CellInfo D.DataCell => { info with shouldCache := true })
    (fun _ => rfl) _ _

theorem dcs_addCell (cell : D.DataCell) (refs : List Nat) (wt : Nat) (boc : Import D.DataCell) :
    dcs (addCell D cell refs wt boc).2 = dcs boc ++ [cell] := by
  rw [dcs, dcs, addCell, List.map_append]
  rfl

/-- What an import keeps and adds. -/
structure Extends (boc boc' : Import D.DataCell) (cells : List D.DataCell) : Prop where
  dcs_prefix : dcs boc <+: dcs boc'
  new_reach : ∀ c ∈ dcs boc', c ∈ dcs boc ∨ ∃ cell ∈ cells, Reach D.refs cell c

/-- The cell is imported, whatever was imported before from a set of cells. -/
def Imports (S : Set D.DataCell) (left : Nat) (cell : D.DataCell) : Prop :=
  ∀ boc pending intPending, (∀ c ∈ dcs boc, c ∈ S) → Imported D boc pending intPending →
    ∃ idx boc', importCell D left cell boc = .ok (idx, boc') ∧
      Imported D boc' (idx :: pending) intPending ∧
      RowsOf CellInfo.dc boc'.cellList [idx] [cell] ∧ Extends boc boc' [cell]

theorem Extends.refl (boc : Import D.DataCell) (cells : List D.DataCell) :
    Extends boc boc cells :=
  ⟨List.prefix_rfl, fun _ hc => .inl hc⟩

theorem Extends.trans {boc boc' boc'' : Import D.DataCell} {cells cells' : List D.DataCell}
    (h : Extends boc boc' cells) (h' : Extends boc' boc'' cells') :
    Extends boc boc'' (cells ++ cells') := by
  refine ⟨h.dcs_prefix.trans h'.dcs_prefix, fun c hc => ?_⟩
  rcases h'.new_reach c hc with hc | ⟨cell, hcell, hreach⟩
  · rcases h.new_reach c hc with hc | ⟨cell, hcell, hreach⟩
    · exact .inl hc
    · exact .inr ⟨cell, List.mem_append_left _ hcell, hreach⟩
  · exact .inr ⟨cell, List.mem_append_right _ hcell, hreach⟩

variable {S : Set D.DataCell}

theorem mem_of_reach (hS : ∀ c ∈ S, ∀ r ∈ D.refs c, r ∈ S) {c c' : D.DataCell} (hc : c ∈ S)
    (h : Reach D.refs c c') : c' ∈ S := by
  induction h with
  | refl => exact hc
  | tail _ hstep ih => exact hS _ ih _ hstep

theorem Extends.subset {boc boc' : Import D.DataCell} {cells : List D.DataCell}
    (h : Extends boc boc' cells) (hS : ∀ c ∈ S, ∀ r ∈ D.refs c, r ∈ S)
    (hcells : ∀ c ∈ cells, c ∈ S) (hboc : ∀ c ∈ dcs boc, c ∈ S) : ∀ c ∈ dcs boc', c ∈ S := by
  intro c hc
  rcases h.new_reach c hc with hc | ⟨cell, hcell, hreach⟩
  · exact hboc c hc
  · exact mem_of_reach hS (hcells cell hcell) hreach

/-- The references, one after another. -/
theorem importRefs_spec (hS : ∀ c ∈ S, ∀ r ∈ D.refs c, r ∈ S) {left : Nat}
    {cells : List D.DataCell} (hcells : ∀ c ∈ cells, c ∈ S)
    (himports : ∀ c ∈ cells, Imports S left c) (rs : List Nat) (wt : Nat)
    (boc : Import D.DataCell) (pending : List Nat) (intPending : Nat)
    (hboc : ∀ c ∈ dcs boc, c ∈ S)
    (h : Imported D boc (rs ++ pending) (rs.length + intPending)) :
    ∃ rs' wt' boc', cells.foldlM (importRef D (importCell D left)) (rs, wt, boc) =
        .ok (rs ++ rs', wt', boc') ∧
      Imported D boc' (rs ++ rs' ++ pending) ((rs ++ rs').length + intPending) ∧
      RowsOf CellInfo.dc boc'.cellList rs' cells ∧ Extends boc boc' cells := by
  induction cells generalizing rs wt boc with
  | nil =>
    refine ⟨[], wt, boc, ?_, ?_, .nil, .refl _ _⟩
    · rw [List.append_nil]
      rfl
    · rw [List.append_nil]
      exact h
  | cons cell cells ih =>
    obtain ⟨idx, boc₁, hok, himported, hrow, hextends⟩ :=
      himports cell List.mem_cons_self boc _ _ hboc h
    have hboc₁ : ∀ c ∈ dcs boc₁, c ∈ S := hextends.subset hS
      (fun c hc => hcells c (List.mem_singleton.1 hc ▸ List.mem_cons_self)) hboc
    have hnext : Imported D { boc₁ with intRefs := boc₁.intRefs + 1 } (rs ++ [idx] ++ pending)
        ((rs ++ [idx]).length + intPending) := by
      have hperm : (idx :: (rs ++ pending)).Perm (rs ++ [idx] ++ pending) := by
        rw [List.append_assoc]
        exact List.perm_middle.symm
      have hlength : (rs ++ [idx]).length + intPending = rs.length + intPending + 1 := by
        rw [List.length_append, List.length_singleton]
        omega
      rw [hlength]
      exact himported.count.perm hperm
    obtain ⟨rs', wt', boc₂, hok', himported', hrows, hextends'⟩ :=
      ih (fun c hc => hcells c (List.mem_cons_of_mem _ hc))
        (fun c hc => himports c (List.mem_cons_of_mem _ hc)) _ (wt + boc₁.wtOf idx)
        { boc₁ with intRefs := boc₁.intRefs + 1 } hboc₁ hnext
    have happend : rs ++ [idx] ++ rs' = rs ++ idx :: rs' := List.append_assoc ..
    rw [happend] at hok' himported'
    refine ⟨idx :: rs', wt', boc₂, ?_, himported', ?_,
      hextends.trans ⟨hextends'.dcs_prefix, hextends'.new_reach⟩⟩
    · rw [List.foldlM_cons, importRef, hok]
      exact hok'
    · exact DagTable.rowsOf_append (rowsOf_congr hextends'.dcs_prefix hrow) hrows

/-- A cell is imported, with what is below it. -/
theorem importCell_spec (hinj : Set.InjOn D.repHash S) (hS : ∀ c ∈ S, ∀ r ∈ D.refs c, r ∈ S)
    (n : Nat) {cell : D.DataCell} (hdepth : DepthLe D.refs n cell) (hcell : cell ∈ S) :
    Imports S (n + 1) cell := by
  intro boc pending intPending hboc h
  rw [importCell]
  cases hlookup : boc.cells.lookup (D.repHash cell) with
  | some pos =>
    rw [h.cells_eq] at hlookup
    obtain ⟨-, c, hc, hhash⟩ := lookup_zipIdx_some hlookup
    rw [Nat.sub_zero] at hc
    obtain rfl : c = cell := hinj (hboc c (List.mem_of_getElem? hc)) hcell hhash
    have hpos : pos < boc.cellList.length := by
      simpa using (List.getElem?_eq_some_iff.1 hc).1
    have hdcs := dcs_setShouldCache pos boc
    refine ⟨pos, _, rfl, h.setShouldCache hpos, .cons ?_ .nil, ?_, ?_⟩
    · rw [← List.getElem?_map, ← dcs, hdcs]
      exact hc
    · rw [hdcs]
    · rw [hdcs]
      exact fun _ hc => .inl hc
  | none =>
    rw [h.cells_eq] at hlookup
    have himports : ∀ c ∈ D.refs cell, Imports S n c := by
      cases n with
      | zero =>
        rw [DepthLe] at hdepth
        rw [hdepth]
        intro c hc
        cases hc
      | succ n => exact fun c hc => importCell_spec hinj hS n (hdepth c hc) (hS cell hcell c hc)
    obtain ⟨rs, wt, boc', hok, himported, hrows, hextends⟩ :=
      importRefs_spec hS (hS cell hcell) himports [] 1 boc pending intPending hboc
        (by simpa using h)
    rw [List.nil_append] at hok himported
    have hnew : cell ∉ dcs boc' := by
      intro hmem
      rcases hextends.new_reach cell hmem with hmem | ⟨r, hr, hreach⟩
      · exact lookup_zipIdx_none hlookup cell hmem rfl
      · exact DagTable.not_reach_of_depthLe hdepth hr hreach
    have hdcs := dcs_addCell cell rs wt boc'
    refine ⟨_, _, ?_, himported.addCell hnew hrows wt, .cons ?_ .nil, ?_, ?_⟩
    · simp only [hok]
      rfl
    · rw [← List.getElem?_map, ← dcs, hdcs]
      simp [dcs, addCell, Import.cellCount]
    · rw [hdcs]
      exact hextends.dcs_prefix.trans (List.prefix_append _ _)
    · rw [hdcs]
      intro c hc
      rcases List.mem_append.1 hc with hc | hc
      · rcases hextends.new_reach c hc with hc | ⟨r, hr, hreach⟩
        · exact .inl hc
        · exact .inr ⟨cell, List.mem_singleton_self _, .head hr hreach⟩
      · obtain rfl := List.mem_singleton.1 hc
        exact .inr ⟨c, List.mem_singleton_self _, .refl⟩

/-! ## The roots -/

/-- What is left of the import when more roots follow. -/
theorem importRoots_from (hinj : Set.InjOn D.repHash S) (hS : ∀ c ∈ S, ∀ r ∈ D.refs c, r ∈ S)
    {roots : List D.DataCell} (hroots : ∀ c ∈ roots, c ∈ S)
    (hdepth : ∀ c ∈ roots, DepthLe D.refs maxDepth c) (idxs : List Nat)
    (boc : Import D.DataCell) (hboc : ∀ c ∈ dcs boc, c ∈ S) (h : Imported D boc idxs 0) :
    ∃ idxs' boc', roots.foldlM (importRoot D) (idxs, boc) = .ok (idxs ++ idxs', boc') ∧
      Imported D boc' (idxs ++ idxs') 0 ∧ RowsOf CellInfo.dc boc'.cellList idxs' roots ∧
      Extends boc boc' roots := by
  induction roots generalizing idxs boc with
  | nil =>
    refine ⟨[], boc, ?_, ?_, .nil, .refl _ _⟩
    · rw [List.append_nil]
      rfl
    · rw [List.append_nil]
      exact h
  | cons root roots ih =>
    obtain ⟨idx, boc₁, hok, himported, hrow, hextends⟩ := importCell_spec hinj hS maxDepth
      (hdepth root List.mem_cons_self) (hroots root List.mem_cons_self) boc _ _ hboc h
    have hboc₁ : ∀ c ∈ dcs boc₁, c ∈ S := hextends.subset hS
      (fun c hc => hroots c (List.mem_singleton.1 hc ▸ List.mem_cons_self)) hboc
    obtain ⟨idxs', boc₂, hok', himported', hrows, hextends'⟩ :=
      ih (fun c hc => hroots c (List.mem_cons_of_mem _ hc))
        (fun c hc => hdepth c (List.mem_cons_of_mem _ hc)) (idxs ++ [idx]) boc₁ hboc₁
        (himported.perm (List.perm_append_singleton idx idxs).symm)
    have happend : idxs ++ [idx] ++ idxs' = idxs ++ idx :: idxs' := List.append_assoc ..
    rw [happend] at hok' himported'
    refine ⟨idx :: idxs', boc₂, ?_, himported', ?_, hextends.trans hextends'⟩
    · rw [List.foldlM_cons, importRoot, hok]
      exact hok'
    · exact DagTable.rowsOf_append (rowsOf_congr hextends'.dcs_prefix hrow) hrows

/-- The bag that is imported has the cells below the roots, each once. -/
theorem importRoots_spec (hD : D.Lawful) {roots : List D.DataCell} (hdistinct : D.Distinct roots) :
    ∃ idxs boc, importRoots D roots = .ok (idxs, boc) ∧ Imported D boc idxs 0 ∧
      RowsOf CellInfo.dc boc.cellList idxs roots ∧
      ∀ c, c ∈ dcs boc ↔ ∃ root ∈ roots, Reach D.refs root c := by
  have hclosed : ∀ c ∈ {c | ∃ root ∈ roots, Reach D.refs root c}, ∀ r ∈ D.refs c,
      r ∈ {c | ∃ root ∈ roots, Reach D.refs root c} := by
    rintro c ⟨root, hroot, hreach⟩ r hr
    exact ⟨root, hroot, hreach.tail hr⟩
  obtain ⟨idxs, boc, hok, himported, hrows, hextends⟩ := importRoots_from hdistinct hclosed
    (fun c hc => ⟨c, hc, .refl⟩) (fun c _ => hD.depth_le c) [] Import.empty
    (by
      intro c hc
      cases hc) imported_empty
  rw [List.nil_append] at hok himported
  refine ⟨idxs, boc, hok, himported, hrows, fun c => ⟨fun hc => ?_, ?_⟩⟩
  · rcases hextends.new_reach c hc with hc | hc
    · cases hc
    · exact hc
  · rintro ⟨root, hroot, hreach⟩
    obtain ⟨j, hj, rfl⟩ := List.mem_iff_getElem.1 hroot
    have hrow := (List.forall₂_iff_get.1 hrows).2 j (by rw [hrows.length_eq]; exact hj) hj
    obtain ⟨info, hinfo, heq⟩ := Option.map_eq_some_iff.1 hrow
    rw [List.get_eq_getElem] at heq
    exact himported.sound.mem_of_reach
      (List.mem_map.2 ⟨info, List.mem_of_getElem? hinfo, heq⟩) hreach

end
end BagOfCells
end Vm
