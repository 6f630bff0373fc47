import TopWallets.BagOfCellsImport

/- Cells without a type, as `DataCell` makes them: `ordinaryCells`.

   All cells below a cell are within the limits, which is what a cell carries here. Its hash is
   that of its two descriptor bytes, its data, and the depths and hashes of its references.

   Correspondence (C++ ↔ Lean):
     `DataCell::create`, for `SpecialType::Ordinary` ↔ `OrdinaryCell.create`
     `DataCell::create`, the hash                    ↔ `OrdinaryCell.hash` -/
namespace Vm
open DagTable (Reach DepthLe)

/-- A cell, all cells below which are within the limits. -/
@[ext] structure OrdinaryCell where
  cell : Cell
  fits : ∀ c', Reach Cell.refs cell c' → CellFits c'

namespace OrdinaryCell

def refs (c : OrdinaryCell) : List OrdinaryCell :=
  c.cell.refs.attach.map fun r => ⟨r.1, fun c' h => c.fits c' (.head r.2 h)⟩

@[simp] theorem map_refs (c : OrdinaryCell) : c.refs.map cell = c.cell.refs := by
  rw [refs, List.map_map]
  exact List.attach_map_subtype_val c.cell.refs

theorem length_refs (c : OrdinaryCell) : c.refs.length = c.cell.refs.length := by
  rw [← map_refs, List.length_map]

theorem fits_mk {bits : List Bool} (refs : List OrdinaryCell) (hbits : bits.length ≤ maxBits)
    (hrefs : refs.length ≤ maxRefs) (hdepth : Cell.depthRefs (refs.map cell) ≤ maxDepth) :
    ∀ c', Reach Cell.refs (.mk bits (refs.map cell)) c' → CellFits c' := by
  intro c' hc'
  rcases Relation.ReflTransGen.cases_head hc' with rfl | ⟨r, hr, hreach⟩
  · refine ⟨hbits, ?_, hdepth⟩
    rw [Cell.refs_mk, List.length_map]
    exact hrefs
  · obtain ⟨r, -, rfl⟩ := List.mem_map.1 hr
    exact r.fits c' hreach

/-- Bits and references within the limits make a cell; special cells are left out. -/
def create (bits : List Bool) (refs : List OrdinaryCell) (special : Bool) :
    Except String OrdinaryCell :=
  if special then .error "Unknown special cell type"
  else if hbits : bits.length > maxBits then .error "Too many bits"
  else if hrefs : refs.length > maxRefs then .error "Too many cell references"
  else if hdepth : Cell.depthRefs (refs.map cell) > maxDepth then .error "Depth is too big"
  else .ok ⟨.mk bits (refs.map cell), fits_mk refs (not_lt.1 hbits) (not_lt.1 hrefs)
    (not_lt.1 hdepth)⟩

section
variable (sha256 : List UInt8 → List UInt8)

/-- The descriptor bytes of an ordinary cell. -/
def descriptors (bits : List Bool) (refs : List Cell) : List UInt8 :=
  [UInt8.ofNat refs.length,
    UInt8.ofNat (bits.length / 8 * 2 + if bits.length % 8 = 0 then 0 else 1)]

mutual
def hash : Cell → List UInt8
  | .mk bits refs => sha256 (descriptors bits refs ++ cellData bits ++
      refs.flatMap (fun r => Bytes.big depthBytes r.depth) ++ hashes refs)

/-- The hashes of the references. -/
def hashes : List Cell → List UInt8
  | [] => []
  | c :: cs => hash c ++ hashes cs
end

end

end OrdinaryCell

/-- Ordinary cells have the level 0. -/
def ordinaryCells (sha256 : List UInt8 → List UInt8) : DataCells where
  DataCell := OrdinaryCell
  special _ := false
  levelMask _ := 0
  bits c := c.cell.bits
  refs := OrdinaryCell.refs
  hash c _ := OrdinaryCell.hash sha256 c.cell
  depth c _ := c.cell.depth
  create := OrdinaryCell.create

theorem depth_le_depthRefs {c : Cell} {cs : List Cell} (h : c ∈ cs) :
    c.depth + 1 ≤ Cell.depthRefs cs := by
  induction cs with
  | nil => cases h
  | cons c' cs ih =>
    rw [Cell.depthRefs_cons]
    rcases List.mem_cons.1 h with rfl | h
    · exact le_max_left _ _
    · exact (ih h).trans (le_max_right _ _)

namespace OrdinaryCell

theorem depth_eq (c : OrdinaryCell) : c.cell.depth = Cell.depthRefs (c.refs.map cell) := by
  rw [map_refs]
  cases c.cell
  rw [Cell.depth_mk, Cell.refs_mk]

theorem depth_lt {c r : OrdinaryCell} (hr : r ∈ c.refs) : r.cell.depth + 1 ≤ c.cell.depth := by
  rw [depth_eq c]
  exact depth_le_depthRefs (List.mem_map_of_mem hr)

theorem depth_le (c : OrdinaryCell) : c.cell.depth ≤ maxDepth := by
  have hle := (c.fits c.cell .refl).2.2
  rwa [← map_refs, ← depth_eq] at hle

theorem depthLe (n : Nat) {c : OrdinaryCell} (h : c.cell.depth ≤ n) : DepthLe refs n c := by
  induction n generalizing c with
  | zero =>
    refine List.eq_nil_iff_forall_not_mem.2 fun r hr => ?_
    have hlt := depth_lt hr
    omega
  | succ n ih =>
    intro r hr
    have hlt := depth_lt hr
    exact ih (by omega)

theorem create_eq (c : OrdinaryCell) : create c.cell.bits c.refs false = .ok c := by
  have hfits := c.fits c.cell .refl
  rw [CellFits, ← map_refs, List.length_map] at hfits
  obtain ⟨hbits, hrefs, hdepth⟩ := hfits
  rw [create, if_neg Bool.false_ne_true, dif_neg (not_lt.2 hbits), dif_neg (not_lt.2 hrefs),
    dif_neg (not_lt.2 hdepth)]
  have hcell : Cell.mk c.cell.bits (c.refs.map cell) = c.cell := by
    rw [map_refs]
    cases c.cell
    rfl
  exact congrArg Except.ok (OrdinaryCell.ext hcell)

end OrdinaryCell

theorem ordinaryCells_lawful {sha256 : List UInt8 → List UInt8}
    (hsha256 : ∀ m, (sha256 m).length = hashBytes) : (ordinaryCells sha256).Lawful where
  bits_le c := (OrdinaryCell.fits c _ .refl).1
  refs_le c := (OrdinaryCell.length_refs c).trans_le (OrdinaryCell.fits c _ .refl).2.1
  levelMask_lt _ := by
    change 0 < 8
    decide
  length_hash c _ := by
    obtain ⟨⟨bits, refs⟩, h⟩ := c
    change (OrdinaryCell.hash sha256 (.mk bits refs)).length = hashBytes
    rw [OrdinaryCell.hash]
    exact hsha256 _
  depth_lt c _ := (OrdinaryCell.depth_le c).trans_lt (by decide)
  create_eq := OrdinaryCell.create_eq
  depth_le c := OrdinaryCell.depthLe maxDepth (OrdinaryCell.depth_le c)

/-! ## Three cells

    A leaf, a cell that refers to it twice, and a cell that refers to both. -/

namespace OrdinaryCell

def sampleLeaf : OrdinaryCell :=
  ⟨.mk [true] [], fits_mk [] (by decide) (by decide) (by simp)⟩

def sampleRoot : OrdinaryCell :=
  ⟨.mk (List.replicate 32 true) [sampleLeaf.cell, sampleLeaf.cell],
    fits_mk [sampleLeaf, sampleLeaf] (by decide) (by decide) (by decide)⟩

def sampleTop : OrdinaryCell :=
  ⟨.mk (List.replicate 32 false) [sampleRoot.cell, sampleLeaf.cell],
    fits_mk [sampleRoot, sampleLeaf] (by decide) (by decide) (by decide)⟩

def leafHash : List UInt8 := [
    0x7c, 0x6c, 0x1a, 0x96, 0x5f, 0xd5, 0x01, 0xd2, 0x93, 0x8c, 0x2c, 0x0e, 0x06, 0x62, 0x6b, 0xda,
    0xa3, 0x53, 0x13, 0x57, 0x01, 0x6e, 0x16, 0x90, 0x70, 0xc9, 0xef, 0x79, 0xc4, 0xc4, 0x6b, 0xc0]

def rootHash : List UInt8 := [
    0x78, 0xbf, 0x70, 0x91, 0x9b, 0xde, 0xaa, 0x10, 0xff, 0x7a, 0xf8, 0x35, 0xdf, 0x74, 0x82, 0xdf,
    0xb1, 0x20, 0x6b, 0xde, 0x86, 0x25, 0xee, 0x56, 0xbe, 0xa1, 0x90, 0xc9, 0x5a, 0x24, 0x0f, 0xf2]

def topHash : List UInt8 := [
    0x4b, 0x73, 0xab, 0x11, 0xec, 0xd5, 0x2d, 0x70, 0xb7, 0x1d, 0x40, 0xee, 0xa3, 0x19, 0x75, 0xee,
    0xb0, 0x71, 0x8d, 0x4e, 0xb2, 0xbf, 0x57, 0x39, 0x0b, 0x44, 0x4f, 0xbb, 0x10, 0xb2, 0x32, 0x4b]

/-- SHA-256 of what the hashes of the cells are made of. -/
def sampleHash (m : List UInt8) : List UInt8 :=
  if m = [0, 1, 0xc0] then leafHash
  else if m = [2, 8, 0xff, 0xff, 0xff, 0xff, 0, 0, 0, 0] ++ leafHash ++ leafHash then rootHash
  else if m = [2, 8, 0, 0, 0, 0, 0, 1, 0, 0] ++ rootHash ++ leafHash then topHash
  else List.replicate hashBytes 0

theorem length_sampleHash (m : List UInt8) : (sampleHash m).length = hashBytes := by
  rw [sampleHash]
  split_ifs
  · rfl
  · rfl
  · rfl
  · exact List.length_replicate

theorem hash_sampleLeaf : hash sampleHash sampleLeaf.cell = leafHash := by decide +kernel

theorem hash_sampleRoot : hash sampleHash sampleRoot.cell = rootHash := by decide +kernel

theorem hash_sampleTop : hash sampleHash sampleTop.cell = topHash := by decide +kernel

theorem reach_sampleTop {c : OrdinaryCell} (h : Reach refs sampleTop c) :
    c = sampleTop ∨ c = sampleRoot ∨ c = sampleLeaf := by
  have htop : refs sampleTop = [sampleRoot, sampleLeaf] := rfl
  have hroot : refs sampleRoot = [sampleLeaf, sampleLeaf] := rfl
  have hleaf : refs sampleLeaf = [] := rfl
  induction h with
  | refl => exact .inl rfl
  | @tail c c' _ hc ih =>
    rcases ih with rfl | rfl | rfl
    · have hmem : c' ∈ [sampleRoot, sampleLeaf] := htop ▸ hc
      exact .inr (by simpa using hmem)
    · have hmem : c' ∈ [sampleLeaf, sampleLeaf] := hroot ▸ hc
      exact .inr (.inr (by simpa using hmem))
    · have hmem : c' ∈ ([] : List OrdinaryCell) := hleaf ▸ hc
      cases hmem

/-- The roots, of which one is below the other. -/
theorem reach_sampleRoots {c : OrdinaryCell}
    (h : ∃ root ∈ [sampleTop, sampleRoot], Reach refs root c) :
    c = sampleTop ∨ c = sampleRoot ∨ c = sampleLeaf := by
  obtain ⟨root, hroot, hc⟩ := h
  rcases List.mem_cons.1 hroot with rfl | hroot
  · exact reach_sampleTop hc
  · obtain rfl := List.mem_singleton.1 hroot
    have htop : Reach refs sampleTop sampleRoot := .single (List.mem_cons_self : _ ∈ [_, _])
    exact reach_sampleTop (htop.trans hc)

theorem distinct_sampleRoots : (ordinaryCells sampleHash).Distinct [sampleTop, sampleRoot] := by
  rintro c hc c' hc' heq
  change hash sampleHash (cell c) = hash sampleHash (cell c') at heq
  rcases reach_sampleRoots hc with rfl | rfl | rfl <;>
    rcases reach_sampleRoots hc' with rfl | rfl | rfl <;>
    simp only [hash_sampleLeaf, hash_sampleRoot, hash_sampleTop] at heq <;>
    first
      | rfl
      | exact absurd heq (by decide)

theorem distinct_sampleTop : (ordinaryCells sampleHash).Distinct [sampleTop] := by
  apply distinct_sampleRoots.mono
  rintro c ⟨root, hroot, hc⟩
  exact ⟨root, List.mem_cons.2 (.inl (List.mem_singleton.1 hroot)), hc⟩

theorem ncard_sampleRoots :
    {c | ∃ root ∈ [sampleTop, sampleRoot], Reach refs root c}.ncard < 2 ^ 31 := by
  have hsubset : {c | ∃ root ∈ [sampleTop, sampleRoot], Reach refs root c} ⊆
      ({sampleTop, sampleRoot, sampleLeaf} : Set OrdinaryCell) := fun c hc => reach_sampleRoots hc
  have hle := Set.ncard_le_ncard hsubset (Set.toFinite _)
  have hfirst := Set.ncard_insert_le sampleTop {sampleRoot, sampleLeaf}
  have hsecond := Set.ncard_insert_le sampleRoot {sampleLeaf}
  rw [Set.ncard_singleton] at hsecond
  omega

theorem ncard_sampleTop : {c | Reach refs sampleTop c}.ncard < 2 ^ 31 := by
  have hsubset : {c | Reach refs sampleTop c} ⊆
      {c | ∃ root ∈ [sampleTop, sampleRoot], Reach refs root c} := fun c hc =>
    ⟨sampleTop, List.mem_cons_self, hc⟩
  have hfinite : {c | ∃ root ∈ [sampleTop, sampleRoot], Reach refs root c}.Finite :=
    (Set.toFinite ({sampleTop, sampleRoot, sampleLeaf} : Set OrdinaryCell)).subset
      fun c hc => reach_sampleRoots hc
  exact (Set.ncard_le_ncard hsubset hfinite).trans_lt ncard_sampleRoots

end OrdinaryCell

end Vm
