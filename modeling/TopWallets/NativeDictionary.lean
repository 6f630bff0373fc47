import TopWallets.DictionaryRuns
import TopWallets.JettonMetadata
import TopWallets.Lib.Bytes

/- The native dictionary behind `Dictionary` of Complex.Ton, and the on-chain
   metadata of a jetton written with it.

   A key is imported as a signed number and exported again in the bits of a key,
   which gives the bits of its bytes. The dictionaries that are built by storing
   references are `Built`, a tree within the limits; they satisfy what the metadata
   assumes of a dictionary (`Built.ops_lawful`), and the native functions compute
   their roots (`ops_implements`). Main result: with the native dictionary the
   metadata reads back exactly when every text is short (`native_readsBack_iff`).

   Correspondence (C++ ↔ Lean):
     `import_bytes`, `integer_key`         ↔ `importBytes`, `integerKey`
     `DictionaryStoreRef`, `DictionaryFindRef`  ↔ `storeRef`, `findRef`
     `DictionaryCreate`, `DictionaryGetRootCell`, the `Dictionary` of
     `CellSliceLoadDict`                   ↔ the fields of `ops`
   Big numbers are modelled by their values. A lookup that throws is one that finds
   nothing, and a set that throws an error of the caller. -/
namespace Ton.NativeDictionary

/-! ## Keys -/

/-- The bytes as a signed number, most significant first. -/
def importBytes (bs : List UInt8) : Int := Bytes.signed (8 * bs.length) (Bytes.ofBig bs)

/-- The number in `n` bits, if it fits. -/
def integerKey (x : Int) (n : Nat) : Option (List Bool) :=
  if -2 ^ (n - 1) ≤ x ∧ x < 2 ^ (n - 1) then some (BitField.ofNat n (Bytes.unsigned n x)) else none

/-- The bits of the number are those of the bytes. -/
theorem ofNat_ofBig (bs : List UInt8) :
    BitField.ofNat (8 * bs.length) (Bytes.ofBig bs) = BitField.ofBytes bs := by
  induction bs with
  | nil => rfl
  | cons b bs ih =>
    have hlt := Bytes.ofBig_lt bs
    have hpow : 2 ^ (8 * bs.length) = 256 ^ bs.length := by
      rw [Nat.pow_mul]
    have hdiv : (b.toNat * 256 ^ bs.length + Bytes.ofBig bs) / 256 ^ bs.length = b.toNat := by
      rw [Nat.add_comm, Nat.add_mul_div_right _ _ (by positivity), Nat.div_eq_of_lt hlt,
        Nat.zero_add]
    have hmod : BitField.ofNat (8 * bs.length) (b.toNat * 256 ^ bs.length + Bytes.ofBig bs) =
        BitField.ofNat (8 * bs.length) (Bytes.ofBig bs) := by
      rw [← BitField.ofNat_mod, hpow, Nat.add_comm, Nat.add_mul_mod_self_right,
        Nat.mod_eq_of_lt hlt]
    rw [List.length_cons, show 8 * (bs.length + 1) = 8 + 8 * bs.length by omega, Bytes.ofBig_cons,
      BitField.ofNat_add, hpow, hdiv, hmod, ih, BitField.ofBytes, BitField.ofBytes,
      List.flatMap_cons]

/-- A key of bytes has the bits of the bytes. -/
theorem integerKey_importBytes {bs : List UInt8} (h : 0 < bs.length) :
    integerKey (importBytes bs) (8 * bs.length) = some (BitField.ofBytes bs) := by
  have hlt : Bytes.ofBig bs < 2 ^ (8 * bs.length) := by
    rw [Nat.pow_mul]
    exact Bytes.ofBig_lt bs
  generalize hw : 8 * bs.length = w at hlt
  have hpow : 2 ^ w = 2 * 2 ^ (w - 1) := by
    rw [← pow_succ', Nat.sub_add_cancel (by omega)]
  have hcast : ((2 ^ (w - 1) : Nat) : Int) = 2 ^ (w - 1) := by push_cast; rfl
  have hpowInt : (2 : Int) ^ w = 2 * 2 ^ (w - 1) := by exact_mod_cast hpow
  have hsigned : importBytes bs = Bytes.ofBig bs ∧ Bytes.ofBig bs < 2 ^ (w - 1) ∨
      importBytes bs = Bytes.ofBig bs - 2 ^ w ∧ 2 ^ (w - 1) ≤ Bytes.ofBig bs := by
    rw [importBytes, hw, Bytes.signed]
    split
    · next hsmall => exact .inl ⟨rfl, hsmall⟩
    · next hbig => exact .inr ⟨rfl, by omega⟩
  have hunsigned : Bytes.unsigned w (importBytes bs) = Bytes.ofBig bs := by
    have hmod : (Bytes.ofBig bs : Int) % 2 ^ w = Bytes.ofBig bs :=
      Int.emod_eq_of_lt (by positivity) (by exact_mod_cast hlt)
    rw [Bytes.unsigned]
    rcases hsigned with ⟨heq, -⟩ | ⟨heq, -⟩
    · rw [heq, hmod, Int.toNat_natCast]
    · rw [heq, Int.sub_emod_right, hmod, Int.toNat_natCast]
  have hfits : -2 ^ (w - 1) ≤ importBytes bs ∧ importBytes bs < 2 ^ (w - 1) := by
    rcases hsigned with ⟨heq, hbound⟩ | ⟨heq, hbound⟩ <;>
      · rw [heq]
        zify at hlt hpow hbound
        constructor <;> omega
  rw [integerKey, if_pos hfits, hunsigned, ← hw, ofNat_ofBig]

def keyBits (k : Key256) : List Bool := BitField.ofBytes k.toList

theorem integerKey_key256 (k : Key256) :
    integerKey (importBytes k.toList) 256 = some (keyBits k) := by
  have hlen : k.toList.length = 32 := k.length_toList
  have hpos : 0 < k.toList.length := by omega
  have hkey := integerKey_importBytes hpos
  rwa [hlen] at hkey

theorem length_keyBits (k : Key256) : (keyBits k).length = 256 := by
  rw [keyBits, BitField.length_ofBytes, Vector.length_toList]

theorem keyBits_inj {k k' : Key256} : keyBits k = keyBits k' ↔ k = k' := by
  refine ⟨fun h => ?_, congrArg keyBits⟩
  have hbytes (k : Key256) : Vm.bytesOfBits 32 (keyBits k) = k.toList := by
    have hread := Vm.bytesOfBits_ofBytes k.toList []
    rwa [List.append_nil, Vector.length_toList] at hread
  have hlist : k.toList = k'.toList := by rw [← hbytes k, h, hbytes]
  exact Vector.toList_inj.1 hlist

theorem exists_keyBits {key : List Bool} (h : key.length = 256) : ∃ k, key = keyBits k := by
  refine ⟨⟨(Vm.bytesOfBits 32 key).toArray, by simp⟩, ?_⟩
  have hbits := @Vm.ofBytes_bytesOfBits 32 key (by omega)
  have hlist : (⟨(Vm.bytesOfBits 32 key).toArray, by simp⟩ : Key256).toList =
      Vm.bytesOfBits 32 key := rfl
  rw [keyBits, hlist, hbits]

/-! ## The native functions -/

def storeRef (dict : Option Cell) (key : Key256) (cell : Cell) : Except Exception (Option Cell) :=
  match integerKey (importBytes key.toList) 256 with
  | none => .error .cellWrite
  | some intkey =>
    match Vm.Dict.setRef 256 dict intkey cell .set with
    | .ok (_, dict) => .ok dict
    | .error _ => .error .cellWrite

def findRef (dict : Option Cell) (key : Key256) : Option Slice :=
  match integerKey (importBytes key.toList) 256 with
  | none => none
  | some intkey =>
    match Vm.Dict.lookup 256 dict intkey with
    | .ok slice => slice
    | .error _ => none

/-- The native dictionary: an object is the root cell it holds. -/
def ops : DictionaryOps where
  Handle := Option Cell
  create := none
  ofRootCell root := root
  getRootCell dict := dict
  setRef := storeRef
  lookup := findRef

/-! ## Dictionaries that were built -/

def refSlice (c : Cell) : Slice := ⟨[], [c]⟩

/-- A dictionary of references that was built by storing them: its tree, within the limits. -/
structure Built where
  tree : Option (HmEdge Cell)
  spelled : Vm.Dict.Spelled refSlice 256 tree

namespace Built

def root (d : Built) : Option Cell := d.tree.map (HmEdge.cell refSlice 256)

def empty : Built := ⟨none, nofun⟩

/-- The cell that a key is mapped to. -/
def find (d : Built) (k : Key256) : Option Cell := HmEdge.findIn d.tree (keyBits k)

/-- The tree of a root is the only one. -/
theorem root_injective {d d' : Built} (h : d.root = d'.root) : d = d' := by
  obtain ⟨t, ht⟩ := d
  obtain ⟨t', ht'⟩ := d'
  have hgrammar (t : HmEdge Cell) (ht : t.HasKeyLength 256) :
      Hashmap (fun s v => s = refSlice v) 256 (t.cell refSlice 256).toSlice t :=
    (HmEdge.shortHashmap_cell refSlice (fun _ => rfl) ht).hashmap
  cases t with
  | none =>
    cases t' with
    | none => rfl
    | some t' => cases h
  | some t =>
    cases t' with
    | none => cases h
    | some t' =>
      have hcell : t.cell refSlice 256 = t'.cell refSlice 256 := Option.some.inj h
      have hspelled := hgrammar t (ht t rfl).1
      rw [hcell] at hspelled
      have href : ∀ s v v', s = refSlice v → s = refSlice v' → v = v' := by
        rintro _ v v' rfl heq
        exact (List.cons.inj (congrArg Slice.refs heq)).1
      obtain rfl := Hashmap.unique href hspelled (hgrammar t' (ht' t' rfl).1)
      rfl

end Built

/-- A tree whose keys are among `keys` has no more entries than these. -/
theorem length_entries_le {t : HmEdge Cell} (ht : t.HasKeyLength 256) {keys : List Key256}
    {P : Cell → Prop} (h : ∀ k c, t.find (keyBits k) = some c → k ∈ keys ∧ P c) :
    t.entries.length ≤ keys.length ∧ ∀ e ∈ t.entries, P e.2 := by
  have hentries : ∀ e ∈ t.entries, ∃ k, e.1 = keyBits k ∧ k ∈ keys ∧ P e.2 := by
    intro e he
    obtain ⟨k, hk⟩ := exists_keyBits (HmEdge.length_of_mem_entries ht e he)
    have hfound := HmEdge.mem_entries_iff.1 he
    rw [hk] at hfound
    exact ⟨k, hk, h k e.2 hfound⟩
  have hsub : t.entries.map Prod.fst ⊆ keys.map keyBits := by
    intro key hkey
    obtain ⟨e, he, rfl⟩ := List.mem_map.1 hkey
    obtain ⟨k, hk, hmem, -⟩ := hentries e he
    exact List.mem_map.2 ⟨k, hmem, hk.symm⟩
  have hle := (List.subperm_of_subset t.nodup_keys hsub).length_le
  rw [List.length_map, List.length_map] at hle
  refine ⟨hle, fun e he => ?_⟩
  obtain ⟨k, -, -, hP⟩ := hentries e he
  exact hP

theorem length_entries_fork (s : List Bool) (l r : HmEdge Cell) :
    (HmEdge.fork s l r).entries.length = l.entries.length + r.entries.length := by
  rw [HmEdge.entries, List.length_append, List.length_map, List.length_map]

theorem forall_entries_fork {P : Cell → Prop} {s : List Bool} {l r : HmEdge Cell}
    (h : ∀ e ∈ (HmEdge.fork s l r).entries, P e.2) :
    (∀ e ∈ l.entries, P e.2) ∧ ∀ e ∈ r.entries, P e.2 := by
  rw [HmEdge.entries, List.forall_mem_append] at h
  exact ⟨fun e he => h.1 (s ++ false :: e.1, e.2) (List.mem_map.2 ⟨e, he, rfl⟩),
    fun e he => h.2 (s ++ true :: e.1, e.2) (List.mem_map.2 ⟨e, he, rfl⟩)⟩

/-- The cells of a tree are nested no deeper than its values and a fork for each entry. -/
theorem depth_le {t : HmEdge Cell} {m h : Nat} (hm : m ≤ 256) (ht : t.HasKeyLength m)
    (hvalues : ∀ e ∈ t.entries, e.2.depth + 1 ≤ h) :
    (t.cell refSlice m).depth + 1 ≤ t.entries.length + h := by
  induction t generalizing m with
  | leaf s c =>
    have hc := hvalues (s, c) (List.mem_singleton_self _)
    have hcell : (HmEdge.leaf s c).cell refSlice m = .mk (HmLabel.shortest m s ++ []) [c] := rfl
    have hlen : (HmEdge.leaf s c).entries.length = 1 := rfl
    simp only at hc
    rw [hcell, Cell.depth_mk, Cell.depthRefs_cons, Cell.depthRefs_nil, hlen]
    omega
  | fork s l r ihl ihr =>
    obtain ⟨k, hk, hl, hr⟩ := ht
    have hlpos := List.length_pos_iff.2 l.entries_ne_nil
    have hrpos := List.length_pos_iff.2 r.entries_ne_nil
    obtain ⟨hlvalues, hrvalues⟩ := forall_entries_fork (P := fun c => c.depth + 1 ≤ h) hvalues
    have hldepth := ihl (by omega) hl hlvalues
    have hrdepth := ihr (by omega) hr hrvalues
    rw [HmEdge.cell_fork hk, length_entries_fork, Cell.depth_mk, Cell.depthRefs_cons,
      Cell.depthRefs_cons, Cell.depthRefs_nil]
    omega

/-- Cells of labels and references fit as long as they are not nested too deep. -/
theorem allCells_of_depth {t : HmEdge Cell} {m h : Nat} (hm : m ≤ 256) (ht : t.HasKeyLength m)
    (hvalues : ∀ e ∈ t.entries, e.2.depth + 1 ≤ h) (hdepth : t.entries.length + h ≤ Vm.maxDepth) :
    t.AllCells Vm.CellFits refSlice m := by
  have hfits {m : Nat} {t : HmEdge Cell} {refs : List Cell} (hm : m ≤ 256)
      (ht : t.HasKeyLength m) (hvalues : ∀ e ∈ t.entries, e.2.depth + 1 ≤ h)
      (hdepth : t.entries.length + h ≤ Vm.maxDepth)
      (hcell : t.cell refSlice m = .mk (HmLabel.shortest m t.label) refs)
      (hrefs : refs.length ≤ Vm.maxRefs) : Vm.CellFits (t.cell refSlice m) := by
    have hlabel := HmLabel.length_shortest_le_long m t.label
    have hbits := Vm.Dict.lenBits_le_ten (hm.trans (show 256 ≤ Vm.Dict.maxKeyBits by decide))
    have hlen := HmEdge.length_label_le ht
    have hnested := depth_le hm ht hvalues
    rw [hcell] at hnested ⊢
    rw [Cell.depth_mk] at hnested
    refine ⟨?_, hrefs, ?_⟩
    · rw [Cell.bits_mk, Vm.maxBits]
      omega
    · rw [Cell.refs_mk]
      omega
  induction t generalizing m with
  | leaf s c =>
    have hcell : (HmEdge.leaf s c).cell refSlice m = .mk (HmLabel.shortest m s) [c] :=
      congrArg (Cell.mk · [c]) (List.append_nil _)
    exact hfits hm ht hvalues hdepth hcell (show 1 ≤ Vm.maxRefs by decide)
  | fork s l r ihl ihr =>
    have hfork := ht
    obtain ⟨k, hk, hl, hr⟩ := ht
    obtain ⟨hlvalues, hrvalues⟩ := forall_entries_fork (P := fun c => c.depth + 1 ≤ h) hvalues
    have hlen := length_entries_fork s l r
    rw [HmEdge.allCells_fork hk]
    exact ⟨hfits hm hfork hvalues hdepth (HmEdge.cell_fork hk l r) (show 2 ≤ Vm.maxRefs by decide),
      ihl (by omega) hl hlvalues (by omega), ihr (by omega) hr hrvalues (by omega)⟩

namespace Built

/-- The tree with a key set. -/
def insertTree (d : Built) (k : Key256) (c : Cell) : HmEdge Cell :=
  HmEdge.insertIn (keyBits k) c d.tree

theorem hasKeyLength_insertTree (d : Built) (k : Key256) (c : Cell) :
    (d.insertTree k c).HasKeyLength 256 :=
  HmEdge.hasKeyLength_insertIn d.spelled.hasKeyLength (length_keyBits k) c

theorem find_insertTree (d : Built) (k : Key256) (c : Cell) (k' : Key256) :
    (d.insertTree k c).find (keyBits k') = if k' = k then some c else d.find k' := by
  rw [insertTree, HmEdge.find_insertIn d.spelled.hasKeyLength (length_keyBits k) c]
  by_cases hk : k' = k
  · subst hk
    rw [Function.update_self, if_pos rfl]
  · rw [Function.update_of_ne (mt keyBits_inj.1 hk), if_neg hk]
    rfl

open Classical in
noncomputable def setRef (d : Built) (k : Key256) (c : Cell) : Except Exception Built :=
  if h : (d.insertTree k c).AllCells Vm.CellFits refSlice 256 then
    .ok ⟨some (d.insertTree k c), by
      rintro t ⟨⟩
      exact ⟨d.hasKeyLength_insertTree k c, h⟩⟩
  else .error .cellWrite

open Classical in
noncomputable def ofRootCell (root : Option Cell) : Built :=
  if h : ∃ d : Built, d.root = root then h.choose else empty

/-- The dictionaries that were built, as the writer of the metadata sees them. -/
noncomputable def ops : DictionaryOps where
  Handle := Built
  create := empty
  ofRootCell := ofRootCell
  getRootCell := root
  setRef := setRef
  lookup d k := (d.find k).map refSlice

theorem setRef_ok_iff {d d' : Built} {k : Key256} {c : Cell} :
    d.setRef k c = .ok d' ↔ d'.tree = some (d.insertTree k c) := by
  rw [setRef]
  constructor
  · intro h
    split at h
    · obtain rfl := Except.ok.inj h
      rfl
    · cases h
  · intro htree
    have hfits := (d'.spelled _ htree).2
    obtain ⟨t, ht⟩ := d'
    obtain rfl : t = some (d.insertTree k c) := htree
    exact dif_pos hfits

theorem ofRootCell_root (d : Built) : ofRootCell d.root = d := by
  have h : ∃ d' : Built, d'.root = d.root := ⟨d, rfl⟩
  rw [ofRootCell, dif_pos h]
  exact root_injective h.choose_spec

theorem find_setRef {d d' : Built} {k : Key256} {c : Cell} (h : d.setRef k c = .ok d')
    (k' : Key256) : d'.find k' = if k' = k then some c else d.find k' := by
  rw [← find_insertTree d k c k', find, setRef_ok_iff.1 h]
  rfl

/-- The keys of a bounded dictionary, and the depth of its values. -/
theorem exists_keys {d : Built} {n h : Nat} (hd : ops.Bounded d n h) :
    ∃ keys : List Key256, keys.length ≤ n ∧
      ∀ k c, d.find k = some c → k ∈ keys ∧ c.depth + 1 ≤ h := by
  obtain ⟨keys, hkeys, hall⟩ := hd
  refine ⟨keys, hkeys, fun k c hfound => ?_⟩
  obtain ⟨hmem, hdepth⟩ := hall k (refSlice c) (congrArg (Option.map refSlice) hfound)
  rw [refSlice, Cell.depthRefs_cons, Cell.depthRefs_nil] at hdepth
  exact ⟨hmem, by omega⟩

theorem exists_setRef {d : Built} {n h : Nat} (hd : ops.Bounded d n h) (k : Key256) {c : Cell}
    (hc : c.depth + 1 ≤ h) (hroom : n + 1 + h < Vm.maxDepth) : ∃ d', d.setRef k c = .ok d' := by
  obtain ⟨keys, hkeys, hall⟩ := exists_keys hd
  have hlength := d.hasKeyLength_insertTree k c
  have hfind : ∀ k' c', (d.insertTree k c).find (keyBits k') = some c' →
      k' ∈ k :: keys ∧ c'.depth + 1 ≤ h := by
    intro k' c' hfound
    rw [find_insertTree] at hfound
    split at hfound
    · next heq =>
      obtain rfl := Option.some.inj hfound
      exact ⟨by simp [heq], hc⟩
    · obtain ⟨hmem, hdepth⟩ := hall k' c' hfound
      exact ⟨by simp [hmem], hdepth⟩
  obtain ⟨hcount, hvalues⟩ :=
    length_entries_le (P := fun c => c.depth + 1 ≤ h) hlength hfind
  rw [List.length_cons] at hcount
  have hfits := allCells_of_depth le_rfl hlength hvalues (by omega)
  exact ⟨⟨some (d.insertTree k c), by rintro t ⟨⟩; exact ⟨hlength, hfits⟩⟩, setRef_ok_iff.2 rfl⟩

theorem depth_root_le {d : Built} {n h : Nat} (hd : ops.Bounded d n h) {r : Cell}
    (hr : d.root = some r) : r.depth ≤ n + h := by
  obtain ⟨keys, hkeys, hall⟩ := exists_keys hd
  obtain ⟨t, htree, rfl⟩ := Option.map_eq_some_iff.1 hr
  obtain ⟨hlength, -⟩ := d.spelled t htree
  have hfind : ∀ k c, t.find (keyBits k) = some c → k ∈ keys ∧ c.depth + 1 ≤ h := by
    intro k c hfound
    apply hall k c
    rw [find, htree]
    exact hfound
  obtain ⟨hcount, hvalues⟩ :=
    length_entries_le (P := fun c => c.depth + 1 ≤ h) hlength hfind
  have hdepth := depth_le le_rfl hlength hvalues
  omega

/-- The dictionaries that are built satisfy what is assumed of a dictionary. -/
theorem ops_lawful : ops.Lawful where
  lookup_create _ := rfl
  lookup_setRef d k c d' h k' := by
    refine (congrArg (Option.map refSlice) (find_setRef h k')).trans ?_
    split <;> rfl
  setRef_ok d n h k c hd hc hroom := exists_setRef hd k hc hroom
  lookup_ofRootCell d k := congrArg (ops.lookup · k) (ofRootCell_root d)
  lookup_of_root_null d k hnone := by
    have htree : Built.tree d = none := Option.map_eq_none_iff.1 hnone
    exact congrArg (fun t => (HmEdge.findIn t (keyBits k)).map refSlice) htree
  depth_root d n h r hd hr := depth_root_le hd hr

end Built

/-! ## The native functions compute the roots of what is built -/

theorem storeRef_root (d : Built) (k : Key256) (c : Cell) :
    storeRef d.root k c = Built.root <$> d.setRef k c := by
  have hspec := Vm.Dict.dictSet_spec (show 256 ≤ Vm.Dict.maxKeyBits by decide)
    d.spelled (length_keyBits k) c .set
  rcases hspec with ⟨hmode, -⟩ | ⟨-, hset⟩
  · cases hmode
  have hstore : Vm.CellBuilder.storeRefBool (some c) = Vm.CellBuilder.addSliceBool (refSlice c) :=
    rfl
  simp only [storeRef, integerKey_key256, Vm.Dict.setRef, Vm.Dict.setGen,
    if_neg (not_not.2 (length_keyBits k)), hstore, Built.root]
  change ∀ {r}, _ ↔ r = some ((d.insertTree k c).cell refSlice 256) ∧
    (d.insertTree k c).AllCells Vm.CellFits refSlice 256 at hset
  rcases Vm.Dict.ok_or_error hset with ⟨hfits, hok⟩ | ⟨hfits, e, herror⟩
  · rw [hok, Built.setRef, dif_pos hfits]
    rfl
  · rw [herror, Built.setRef, dif_neg hfits]
    rfl

theorem findRef_root (d : Built) (k : Key256) : findRef d.root k = (d.find k).map refSlice := by
  have hspec := Vm.Dict.lookup_spec (show 256 ≤ Vm.Dict.maxKeyBits by decide) d.spelled (keyBits k)
  simp only [findRef, integerKey_key256, Built.root, hspec]
  rfl

/-- `D` computes on `root d` what `A` computes on `d`. -/
structure Implements (D A : DictionaryOps) (root : A.Handle → D.Handle) : Prop where
  create : root A.create = D.create
  getRootCell : ∀ d, D.getRootCell (root d) = A.getRootCell d
  setRef : ∀ d k c, D.setRef (root d) k c = root <$> A.setRef d k c
  lookup : ∀ d k, D.lookup (root d) k = A.lookup d k

theorem ops_implements : Implements ops Built.ops Built.root where
  create := rfl
  getRootCell _ := rfl
  setRef := storeRef_root
  lookup := findRef_root

/-! ## The metadata of a jetton -/

namespace Implements
variable {D A : DictionaryOps} {root : A.Handle → D.Handle} {sha256 : List Char → Key256}

theorem storeField (h : Implements D A root) (hash : Dict (Option (List Char))) (d : A.Handle)
    (name : List Char) :
    storeField D sha256 hash (root d) name = root <$> storeField A sha256 hash d name := by
  rw [Ton.storeField, Ton.storeField]
  generalize (hash.lookup name).join = value
  cases value with
  | none => rfl
  | some value =>
    cases value with
    | nil => rfl
    | cons c cs =>
      show (CellBuilder.storeBuffer (Utf8.encode (c :: cs)) dataFormatSnake >>=
          D.setRef (root d) (sha256 name)) =
        root <$> (CellBuilder.storeBuffer (Utf8.encode (c :: cs)) dataFormatSnake >>=
          A.setRef d (sha256 name))
      cases CellBuilder.storeBuffer (Utf8.encode (c :: cs)) dataFormatSnake with
      | error e => rfl
      | ok cell => exact h.setRef d (sha256 name) cell

theorem foldlM_storeField (h : Implements D A root) (hash : Dict (Option (List Char)))
    (names : List (List Char)) (d : A.Handle) :
    names.foldlM (Ton.storeField D sha256 hash) (root d) =
      root <$> names.foldlM (Ton.storeField A sha256 hash) d := by
  induction names generalizing d with
  | nil => rfl
  | cons name names ih =>
    rw [List.foldlM_cons, List.foldlM_cons, h.storeField]
    cases Ton.storeField A sha256 hash d name with
    | error e => rfl
    | ok d => exact ih d

/-- The same cell is built. -/
theorem build (h : Implements D A root) (info : JettonInfo) :
    buildJettonOnchainMetadata D sha256 info = buildJettonOnchainMetadata A sha256 info := by
  rw [buildJettonOnchainMetadata, buildJettonOnchainMetadata, ← h.create, h.foldlM_storeField]
  cases hashKeys.foldlM (Ton.storeField A sha256 info.toDict) A.create with
  | error e => rfl
  | ok d =>
    show CellBuilder.finish (CellBuilder.storeDict (some (D.getRootCell (root d))) _) = _
    rw [h.getRootCell]
    rfl

theorem stored (h : Implements D A root) {d : A.Handle} {name : List Char}
    {value : Option (List Char)} (hstored : Stored A sha256 d name value) :
    Stored D sha256 (root d) name value := by
  refine ⟨fun hempty => (h.lookup d _).trans (hstored.absent hempty), fun hne => ?_⟩
  obtain ⟨cell, hcell, hfound⟩ := hstored.cell hne
  exact ⟨cell, hcell, (h.lookup d _).trans hfound⟩

end Implements

section Metadata
variable {sha256 : List Char → Key256}

/-- A metadata cell that the native dictionary builds reads as what it holds. -/
theorem exists_stored_of_build (hsha : (hashKeys.map sha256).Nodup) {info : JettonInfo}
    {cell : Cell} (h : buildJettonOnchainMetadata ops sha256 info = .ok cell) :
    ∃ d cs, (∀ name ∈ hashKeys, Stored ops sha256 d name (info.toDict.lookup name).join) ∧
      Slice.loadInt 8 cell.toSlice = (contentLayoutOnchain, cs) ∧
      jettonFromOnchain ops sha256 cs = .ok (some (readInfo ops sha256 d info.decimals)) := by
  rw [ops_implements.build] at h
  obtain ⟨d, hfold, hfinish⟩ := bind_ok_iff.1 h
  obtain ⟨hstored, -⟩ := foldlM_storeField Built.ops_lawful hsha (fun name _ => rfl) hfold
  obtain ⟨k, s, hfound⟩ := exists_stored hstored
  obtain ⟨r, hr⟩ := exists_rootCell Built.ops_lawful hfound
  have hroot : ops.getRootCell (Built.root d) = some r := hr
  exact stored_reads (fun name hname => ops_implements.stored (hstored name hname))
    (fun _ => rfl) hroot hfinish

/-- With the native dictionary the metadata of a jetton reads back exactly when every text is
short. -/
theorem native_readsBack_iff (hsha : (hashKeys.map sha256).Nodup) (info : JettonInfo) :
    ReadsBack ops sha256 info ↔ info.TextsShort := by
  constructor
  · rintro ⟨cell, cs, info', hbuild, hlayout, hread, hsame⟩
    obtain ⟨d, cs', hstored, hlayout', hread'⟩ := exists_stored_of_build hsha hbuild
    obtain rfl : cs = cs' := congrArg Prod.snd (hlayout.symm.trans hlayout')
    obtain rfl := Option.some.inj (Except.ok.inj (hread.symm.trans hread'))
    exact (readInfo_same_iff hstored).1 hsame
  · intro hshort
    obtain ⟨cell, hcell⟩ := build_ok Built.ops_lawful hsha hshort
    rw [← ops_implements.build] at hcell
    obtain ⟨d, cs, hstored, hlayout, hread⟩ := exists_stored_of_build hsha hcell
    exact ⟨cell, cs, _, hcell, hlayout, hread, (readInfo_same_iff hstored).2 hshort⟩

theorem native_readsBack_iff_named : ReadsBack ops Chain.sha256 (Chain.named "TON".toList) :=
  (native_readsBack_iff Chain.sha256_nodup _).2
    (by simp only [JettonInfo.TextsShort, IsShort, Chain.named]; decide)

end Metadata

end Ton.NativeDictionary
