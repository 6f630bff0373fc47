import TopWallets.CellDictionary
import TopWallets.SerializeDictRoundtrip

/- `SerializeDict` against the native cell dictionary.

   The one builds the tree of all keys from the top, the other sets one key after
   another. Both spell a tree with the entries of the map and the shortest labels,
   and there is only one such tree: so the cells are the same, in whatever order
   the keys are set (`serialize_eq_dictionary`). -/
namespace Ton.SerializeDict

open Vm (CellBuilder)
open CellBuilder (storeBool)

variable {α : Type}

/-! ## The order of the keys -/

theorem bitsOf_inj {k l : List Char} (hk : IsBinary k) (hl : IsBinary l) (h : bitsOf k = bitsOf l) :
    k = l := by
  induction k generalizing l with
  | nil => exact (List.map_eq_nil_iff.1 h.symm).symm
  | cons c k ih =>
    cases l with
    | nil => cases h
    | cons d l =>
      rw [IsBinary, List.forall_mem_cons] at hk hl
      obtain ⟨hhead, htail⟩ := List.cons.inj h
      rw [ih hk.2 hl.2 htail]
      rcases hk.1 with rfl | rfl <;> rcases hl.1 with rfl | rfl <;> simp_all

/-- An edge of binary labels is known by its tree. -/
theorem Edge.eq_of_toHm : ∀ {e e' : Edge α}, e.Binary → e'.Binary → e.toHm = e'.toHm → e = e'
  | .mk label (.leaf value), .mk label' (.leaf value'), hbin, hbin', h => by
    obtain ⟨hlabel, hvalue⟩ := HmEdge.leaf.inj h
    rw [bitsOf_inj hbin.1 hbin'.1 hlabel, hvalue]
  | .mk label (.fork left right), .mk label' (.fork left' right'), hbin, hbin', h => by
    obtain ⟨hlabel, hleft, hright⟩ := HmEdge.fork.inj h
    rw [bitsOf_inj hbin.1 hbin'.1 hlabel, eq_of_toHm hbin.2.1 hbin'.2.1 hleft,
      eq_of_toHm hbin.2.2 hbin'.2.2 hright]
  | .mk label (.leaf value), .mk label' (.fork left right), _, _, h => nomatch h
  | .mk label (.fork left right), .mk label' (.leaf value), _, _, h => nomatch h

theorem HasKeys.perm {n : Nat} {src src' : Dict α} (h : HasKeys n src) (hperm : src'.Perm src) :
    HasKeys n src' :=
  ⟨fun e he => h.decimal e (hperm.mem_iff.1 he), ((hperm.map _).nodup_iff).2 h.distinct⟩

/-- Maps that differ in the order of their entries alone are serialized alike. -/
theorem serialize_perm {n : Nat} {src src' : Dict α} (h0 : 0 < n) (hn : n ≤ 64) (hne : src ≠ [])
    (hkeys : HasKeys n src) (hperm : src'.Perm src)
    (serializer : α → CellBuilder → Except Exception CellBuilder) :
    serialize src' n serializer = serialize src n serializer := by
  have hne' : src' ≠ [] := by
    rintro rfl
    exact hne hperm.symm.eq_nil
  obtain ⟨e, he, hbin, -, hentries⟩ := buildTree_spells h0 hn hne hkeys
  obtain ⟨e', he', hbin', -, hentries'⟩ := buildTree_spells h0 hn hne' (hkeys.perm hperm)
  have htree : e'.toHm = e.toHm :=
    HmEdge.eq_of_perm_entries (hentries'.trans ((hperm.map _).trans hentries.symm))
  rw [serialize, serialize, he, he', Edge.eq_of_toHm hbin' hbin htree]

/-! ## The native dictionary -/

theorem nodup_keyed {n : Nat} {src : Dict α} (hn : n ≤ 64) (h : HasKeys n src) :
    ((keyed n src).map Prod.fst).Nodup := by
  simpa [keyed, Function.comp_def] using h.nodup_keyBits hn

/-- The cell is the one that setting the keys leaves, in any order. Setting them gives a cell if
the values leave room for their keys; its labels are the shortest, and the order in which keys were
added to the map does not matter. -/
theorem serialize_eq_dictionary {n : Nat} {src : Dict α}
    {serializer : α → CellBuilder → Except Exception CellBuilder}
    {enc : α → List Bool × List Cell} {X : Slice → α → Prop}
    (h0 : 0 < n) (hn : n ≤ 64) (hne : src ≠ []) (hkeys : HasKeys n src)
    (hser : Serializes serializer enc) (hX : ∀ v, X (valueSlice enc v) v)
    {es : List (List Bool × α)} (hes : es.Perm (keyed n src)) :
    (∀ cell, Vm.Dict.dictionary n (es.map fun e => (e.1, valueSlice enc e.2)) = .ok (some cell) →
      serialize src n serializer = .ok cell ∧
        ∃ t, ShortHashmap X n cell.toSlice t ∧ t.entries.Perm (keyed n src)) ∧
    ((∀ e ∈ es, Vm.Dict.Room n (valueSlice enc e.2)) →
      ∃ cell, Vm.Dict.dictionary n (es.map fun e => (e.1, valueSlice enc e.2)) = .ok (some cell)) ∧
    ∀ src', src'.Perm src → serialize src' n serializer = serialize src n serializer := by
  have hlength : ∀ e ∈ es, e.1.length = n := by
    intro e he
    obtain ⟨e', -, rfl⟩ := List.mem_map.1 (hes.mem_iff.1 he)
    exact BitField.length_ofNat _ _
  have hnodup : (es.map Prod.fst).Nodup := ((hes.map _).nodup_iff).2 (nodup_keyed hn hkeys)
  have hne' : es ≠ [] := by
    rintro rfl
    exact hne (List.map_eq_nil_iff.1 hes.symm.eq_nil)
  refine ⟨fun cell hcell => ?_, Vm.Dict.dictionary_of_room hn hne' hlength hnodup,
    fun src' hperm => serialize_perm h0 hn hne hkeys hperm serializer⟩
  obtain ⟨t, rfl, ht, hfits, hentries⟩ := Vm.Dict.dictionary_cell hn hlength hnodup hcell
  obtain ⟨e, he, hbin, hlen, hspells⟩ := buildTree_spells h0 hn hne hkeys
  -- Both trees have the entries of the map.
  obtain rfl : e.toHm = t := HmEdge.eq_of_perm_entries (hspells.trans (hentries.trans hes).symm)
  obtain ⟨b, hwrite, hfinish⟩ := e.write_cell hser hbin hlen hn hfits
  refine ⟨?_, e.toHm, HmEdge.shortHashmap_cell _ hX hlen, hspells⟩
  simp only [serialize, he, bind, Except.bind, hwrite, hfinish]

/-- Two keys of two bits, set in either order. -/
theorem serialize_eq_dictionary_one_two :
    ∃ cell, Vm.Dict.dictionary 2 [([true, false], ⟨[true], []⟩), ([false, true], ⟨[false], []⟩)] =
        .ok (some cell) ∧
      serialize [(['1'], false), (['2'], true)] 2 (fun v b => .ok (storeBool v b)) = .ok cell := by
  have hes : [([true, false], true), ([false, true], false)].Perm
      (keyed 2 [(['1'], false), (['2'], true)]) := by decide
  have hser : Serializes (fun v b => .ok (storeBool v b)) fun v => ([v], []) := serializes_storeBool
  obtain ⟨hsame, hroom, -⟩ := serialize_eq_dictionary (X := fun s v => s = ⟨[v], []⟩) (by decide)
    (by decide) (by simp) hasKeys_one_two hser (fun _ => rfl) hes
  have hfits : ∀ e ∈ [([true, false], true), ([false, true], false)],
      Vm.Dict.Room 2 (valueSlice (fun v => ([v], [])) e.2) := fun e _ =>
    ⟨show 2 + lenBits 2 + 2 + 1 ≤ Vm.maxBits by decide, Nat.zero_le _, by simp [valueSlice]; decide⟩
  obtain ⟨cell, hcell⟩ := hroom hfits
  exact ⟨cell, hcell, (hsame cell hcell).1⟩

/-- The key 1 of four bits, whose label has nine, with 127 bytes: setting it fails. -/
theorem dictionary_large_ne {cell : Cell} : Vm.Dict.dictionary 4
    [([false, false, false, true], ⟨BitField.ofBytes (List.replicate 127 0), []⟩)] ≠
      .ok (some cell) := by
  intro h
  rw [Vm.Dict.dictionary, List.foldlM_cons] at h
  obtain ⟨root, hset, -⟩ := bind_ok_iff.1 h
  have hfits := ((@Vm.Dict.set_none_ok_iff (List UInt8) (fun v => ⟨BitField.ofBytes v, []⟩) 4
    [false, false, false, true] rfl (by decide) (List.replicate 127 0) _).1 hset).2
  have hbits : ((HmEdge.leaf [false, false, false, true] (List.replicate 127 0)).cell
      (fun v : List UInt8 => ⟨BitField.ofBytes v, []⟩) 4).bits.length = 9 + 127 * 8 := by
    rw [HmEdge.cell]
    show (HmLabel.shortest 4 [false, false, false, true] ++
      BitField.ofBytes (List.replicate 127 0)).length = _
    rw [List.length_append, BitField.length_ofBytes, List.length_replicate]
    rfl
  exact absurd (hbits ▸ hfits.1 : 9 + 127 * 8 ≤ Vm.maxBits) (by decide)

/-- The dictionary does not always take what is serialized. -/
theorem not_serialize_eq_dictionary :
    ¬ ∀ (n : Nat) (src : Dict (List UInt8)) (es : List (List Bool × List UInt8)),
      0 < n → n ≤ 64 → src ≠ [] → HasKeys n src → es.Perm (keyed n src) →
        ∃ cell, serialize src n (fun v b => .ok (CellBuilder.storeBytes v b)) = .ok cell ∧
          Vm.Dict.dictionary n (es.map fun e => (e.1, ⟨BitField.ofBytes e.2, []⟩)) =
            .ok (some cell) := by
  intro hall
  have hkeys : HasKeys 4 [(['1'], List.replicate 127 (0 : UInt8))] := by
    refine ⟨fun e he => ?_, by decide⟩
    obtain rfl := List.mem_singleton.1 he
    exact ⟨1, by decide, by simp [IsKey]⟩
  have hes : [([false, false, false, true], List.replicate 127 (0 : UInt8))].Perm
      (keyed 4 [(['1'], List.replicate 127 0)]) := by decide
  obtain ⟨cell, -, hdictionary⟩ := hall 4 [(['1'], List.replicate 127 0)]
    [([false, false, false, true], List.replicate 127 0)] (by decide) (by decide) (by simp)
    hkeys hes
  exact dictionary_large_ne hdictionary

end Ton.SerializeDict
