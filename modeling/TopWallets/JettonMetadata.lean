import TopWallets.SnakeText
import TopWallets.Lib.Decimal

/- The on-chain metadata of a jetton: `JettonController.BuildJettonOnchainMetadata`
   writes it, `JettonController.JettonFromOnchain` reads it.

   The metadata is a dictionary from the SHA-256 hashes of the field names to the
   cells of the field texts. The native dictionary is `DictionaryOps`, what is
   assumed of it `DictionaryOps.Lawful`; the hash function is a parameter whose
   values at the field names are distinct. Main result: what is read back is what
   was written exactly when every text has less than 127 bytes
   (`readsBack_iff`), the texts that one cell holds with the prefix byte.

   Correspondence (C# ↔ Lean):
     `Dictionary` and its native functions  ↔ `DictionaryOps`
     `JettonInfo.ToDict`, `.FromDict`       ↔ `JettonInfo.toDict`, `JettonInfo.fromDict`
     `hashKeysBytes`                        ↔ `hashKeys` and the hash function
     `BuildJettonOnchainMetadata`           ↔ `buildJettonOnchainMetadata`
     `JettonFromOnchain`                    ↔ `jettonFromOnchain`
   Left out of `JettonInfo` is what does not come from the cell: the total supply and
   the addresses, which `JettonFromOnchain` passes through. -/
namespace Ton

/-- A 256-bit key. -/
abbrev Key256 := Vector UInt8 32

/-- The native dictionary of 256-bit keys. -/
structure DictionaryOps where
  Handle : Type
  create : Handle
  ofRootCell : Option Cell → Handle
  getRootCell : Handle → Option Cell
  setRef : Handle → Key256 → Cell → Except Exception Handle
  lookup : Handle → Key256 → Option Slice

/-- The dictionary has at most `n` keys, and no value refers to cells nested deeper than `h`. -/
def DictionaryOps.Bounded (D : DictionaryOps) (d : D.Handle) (n h : Nat) : Prop :=
  ∃ keys : List Key256, keys.length ≤ n ∧
    ∀ k s, D.lookup d k = some s → k ∈ keys ∧ Cell.depthRefs s.refs ≤ h

/-- A dictionary finds what was set last, also through its root cell, and setting a key works
as long as the tree stays within the depth of a cell. -/
structure DictionaryOps.Lawful (D : DictionaryOps) : Prop where
  lookup_create : ∀ k, D.lookup D.create k = none
  lookup_setRef : ∀ d k c d', D.setRef d k c = .ok d' →
    ∀ k', D.lookup d' k' = if k' = k then some ⟨[], [c]⟩ else D.lookup d k'
  setRef_ok : ∀ d n h k c, D.Bounded d n h → c.depth + 1 ≤ h → n + 1 + h < Vm.maxDepth →
    ∃ d', D.setRef d k c = .ok d'
  lookup_ofRootCell : ∀ d k, D.lookup (D.ofRootCell (D.getRootCell d)) k = D.lookup d k
  lookup_of_root_null : ∀ d k, D.getRootCell d = none → D.lookup d k = none
  depth_root : ∀ d n h r, D.Bounded d n h → D.getRootCell d = some r → r.depth ≤ n + h

structure JettonInfo where
  name : Option (List Char)
  description : Option (List Char)
  symbol : Option (List Char)
  imageData : Option (List Char)
  decimals : Int32
  color : Option (List Char)
  deployer : Option (List Char)

namespace JettonInfo

def toDict (info : JettonInfo) : Dict (Option (List Char)) :=
  let hash : Dict (Option (List Char)) := []
  let hash := hash.set "symbol".toList info.symbol
  let hash := hash.set "name".toList info.name
  let hash := hash.set "description".toList info.description
  let hash := hash.set "image_data".toList info.imageData
  let hash := hash.set "decimals".toList (some (Decimal.ofInt info.decimals.toInt))
  let hash := hash.set "color".toList info.color
  hash.set "deployer".toList info.deployer

/-- `int.Parse`. -/
def parseInt (k : List Char) : Except Exception Int32 :=
  match Decimal.toInt? k with
  | none => .error .format
  | some i => if -2 ^ 31 ≤ i ∧ i < 2 ^ 31 then .ok (Int32.ofInt i) else .error .overflow

def fromDict (dict : Dict (List Char)) : Except Exception JettonInfo := do
  let decimals ← match dict.lookup "decimals".toList with
    | some text => parseInt text
    | none => pure 9
  return {
    name := dict.lookup "name".toList
    description := dict.lookup "description".toList
    symbol := dict.lookup "symbol".toList
    imageData := if "image".toList ∈ dict.keys then dict.lookup "image".toList
      else dict.lookup "image_data".toList
    decimals
    color := dict.lookup "color".toList
    deployer := dict.lookup "deployer".toList }

end JettonInfo

/-- The field names, in the order of the static constructor. -/
def hashKeys : List (List Char) :=
  ["name".toList, "description".toList, "symbol".toList, "decimals".toList, "image".toList,
    "image_data".toList, "color".toList, "deployer".toList]

/-- The value of `ContentLayout.ONCHAIN`. -/
def contentLayoutOnchain : Int := 0

section Metadata
variable (D : DictionaryOps) (sha256 : List Char → Key256)

/-- One round of the loop of `BuildJettonOnchainMetadata`. -/
def storeField (hash : Dict (Option (List Char))) (dict : D.Handle) (name : List Char) :
    Except Exception D.Handle :=
  match (hash.lookup name).join with
  | none | some [] => .ok dict
  | some value => do
    D.setRef dict (sha256 name) (← CellBuilder.storeBuffer (Utf8.encode value) dataFormatSnake)

def buildJettonOnchainMetadata (info : JettonInfo) : Except Exception Cell := do
  let dict ← hashKeys.foldlM (storeField D sha256 info.toDict) D.create
  CellBuilder.finish (CellBuilder.storeDict (some (D.getRootCell dict))
    (CellBuilder.store contentLayoutOnchain 8 CellBuilder.begin))

/-- `Slice.LoadDict(256)`: a null pointer where the flag is 0. A slice without a flag reads as
one that is set. -/
def loadDict (cs : Slice) : Option D.Handle :=
  match Vm.fetchUlongBool 1 cs with
  | some (0, _) => none
  | some (_, cs) => some (D.ofRootCell (Vm.fetchRef cs).1)
  | none => some (D.ofRootCell (Vm.fetchRef cs).1)

/-- The text of a dictionary value. -/
def loadValue (slice : Slice) : Option (List Char) :=
  if 0 < slice.bits.length then loadText slice
  else
    match Vm.fetchRef slice with
    | (some ref, _) => loadText ref.toSlice
    | (none, _) => none

/-- One round of the loop of `JettonFromOnchain`. -/
def loadField (dict : D.Handle) (hash : Dict (List Char)) (name : List Char) :
    Except Exception (Dict (List Char)) :=
  match (D.lookup dict (sha256 name)).bind loadValue with
  | some value => hash.add name value
  | none => .ok hash

def jettonFromOnchain (cs : Slice) : Except Exception (Option JettonInfo) :=
  match loadDict D cs with
  | none => .error .accessViolation
  | some dict => do
    let hash ← hashKeys.foldlM (loadField D sha256 dict) []
    if 0 < hash.length then return some (← JettonInfo.fromDict hash) else return none

/-! ## The dictionary of the texts -/

variable {D} {sha256}

/-- The value of a field is in the dictionary, as the cell of its text, unless it is empty. -/
structure Stored (D : DictionaryOps) (sha256 : List Char → Key256) (d : D.Handle)
    (name : List Char) (value : Option (List Char)) : Prop where
  absent : value.getD [] = [] → D.lookup d (sha256 name) = none
  cell : value.getD [] ≠ [] → ∃ cell,
    CellBuilder.storeBuffer (Utf8.encode (value.getD [])) dataFormatSnake = .ok cell ∧
      D.lookup d (sha256 name) = some ⟨[], [cell]⟩

theorem Stored.congr {d d' : D.Handle} {name : List Char} {value : Option (List Char)}
    (h : Stored D sha256 d name value)
    (hd : D.lookup d' (sha256 name) = D.lookup d (sha256 name)) :
    Stored D sha256 d' name value :=
  ⟨by rw [hd]; exact h.absent, by rw [hd]; exact h.cell⟩

theorem storeField_spec (hD : D.Lawful) {hash : Dict (Option (List Char))} {d d' : D.Handle}
    {name : List Char} (hnew : D.lookup d (sha256 name) = none)
    (h : storeField D sha256 hash d name = .ok d') :
    Stored D sha256 d' name (hash.lookup name).join ∧
      ∀ k, k ≠ sha256 name → D.lookup d' k = D.lookup d k := by
  rw [storeField] at h
  generalize (hash.lookup name).join = value at h
  match value, h with
  | none, h | some [], h =>
    obtain rfl := Except.ok.inj h
    exact ⟨⟨fun _ => hnew, fun hne => absurd rfl hne⟩, fun _ _ => rfl⟩
  | some (c :: cs), h =>
    obtain ⟨cell, hcell, h⟩ := bind_ok_iff.1 h
    have hlookup := hD.lookup_setRef _ _ _ _ h
    exact ⟨⟨nofun, fun _ => ⟨cell, hcell, by rw [hlookup, if_pos rfl]⟩⟩,
      fun k hk => by rw [hlookup, if_neg hk]⟩

/-- The dictionary after the loop holds every field. -/
theorem foldlM_storeField (hD : D.Lawful) {hash : Dict (Option (List Char))}
    {names : List (List Char)} {d d' : D.Handle} (hnd : (names.map sha256).Nodup)
    (hnew : ∀ name ∈ names, D.lookup d (sha256 name) = none)
    (h : names.foldlM (storeField D sha256 hash) d = .ok d') :
    (∀ name ∈ names, Stored D sha256 d' name (hash.lookup name).join) ∧
      ∀ k, k ∉ names.map sha256 → D.lookup d' k = D.lookup d k := by
  induction names generalizing d with
  | nil =>
    obtain rfl := Except.ok.inj h
    exact ⟨by simp, fun _ _ => rfl⟩
  | cons name names ih =>
    rw [List.foldlM_cons] at h
    obtain ⟨d₁, h₁, h⟩ := bind_ok_iff.1 h
    rw [List.map_cons, List.nodup_cons] at hnd
    obtain ⟨hstored, hsame⟩ := storeField_spec hD (hnew name (by simp)) h₁
    have hnew' : ∀ n ∈ names, D.lookup d₁ (sha256 n) = none := by
      intro n hn
      rw [hsame _ (fun heq => hnd.1 (heq ▸ List.mem_map_of_mem hn))]
      exact hnew n (by simp [hn])
    obtain ⟨hrest, hsame'⟩ := ih hnd.2 hnew' h
    refine ⟨fun n hn => ?_, fun k hk => ?_⟩
    · rcases List.mem_cons.1 hn with rfl | hn
      · exact hstored.congr (hsame' _ hnd.1)
      · exact hrest n hn
    · rw [List.map_cons, List.mem_cons, not_or] at hk
      rw [hsame' k hk.2, hsame k hk.1]

/-- The texts are short enough for one cell with the prefix byte. -/
def IsShort (value : Option (List Char)) : Prop := (Utf8.encode (value.getD [])).length < 127

theorem bounded_create (hD : D.Lawful) : D.Bounded D.create 0 1 :=
  ⟨[], le_rfl, fun k s h => by rw [hD.lookup_create k] at h; cases h⟩

/-- The loop goes through when every text is short. -/
theorem foldlM_storeField_ok (sha256 : List Char → Key256) (hD : D.Lawful)
    {hash : Dict (Option (List Char))} (hshort : ∀ name, IsShort (hash.lookup name).join)
    (names : List (List Char)) {n : Nat}
    {d : D.Handle} (hd : D.Bounded d n 1) (hn : n + names.length < 1000) :
    ∃ d', names.foldlM (storeField D sha256 hash) d = .ok d' ∧
      D.Bounded d' (n + names.length) 1 := by
  induction names generalizing n d with
  | nil => exact ⟨d, rfl, hd⟩
  | cons name names ih =>
    rw [List.length_cons] at hn ⊢
    obtain ⟨d₁, h₁, hd₁⟩ : ∃ d₁, storeField D sha256 hash d name = .ok d₁ ∧
        D.Bounded d₁ (n + 1) 1 := by
      obtain ⟨keys, hkeys, hall⟩ := hd
      have hweak : D.Bounded d (n + 1) 1 := ⟨keys, by omega, hall⟩
      have hval := hshort name
      rw [storeField]
      split
      · exact ⟨d, rfl, hweak⟩
      · exact ⟨d, rfl, hweak⟩
      · rename_i value hne heq
        rw [heq] at hval
        obtain ⟨cell, hcell, hdepth, -⟩ := loadText_storeBuffer_short (s := value)
          (fun h => hne (by rw [h])) hval
        obtain ⟨d₁, hset⟩ := hD.setRef_ok d n 1 (sha256 name) cell ⟨keys, hkeys, hall⟩
          (by omega) (by rw [Vm.maxDepth]; omega)
        refine ⟨d₁, by rw [hcell]; exact hset, sha256 name :: keys, by simpa using hkeys, ?_⟩
        intro k s hk
        rw [hD.lookup_setRef _ _ _ _ hset k] at hk
        split at hk
        · rename_i hkey
          obtain rfl := Option.some.inj hk
          exact ⟨by simp [hkey], by simp [hdepth]⟩
        · obtain ⟨hmem, hle⟩ := hall k s hk
          exact ⟨by simp [hmem], hle⟩
    obtain ⟨d', h', hd'⟩ := ih hd₁ (by omega)
    refine ⟨d', by rw [List.foldlM_cons, h₁]; exact h', ?_⟩
    rwa [show n + (names.length + 1) = n + 1 + names.length by omega]

/-! ## What is read of it -/

/-- What the reader finds under a field name. -/
def readValue (D : DictionaryOps) (sha256 : List Char → Key256) (d : D.Handle) (name : List Char) :
    Option (List Char) :=
  (D.lookup d (sha256 name)).bind loadValue

theorem loadValue_ref (cell : Cell) : loadValue ⟨[], [cell]⟩ = loadText cell.toSlice := rfl

/-- A field is read back, empty for missing, exactly when its text is short. -/
theorem Stored.readValue_iff {d : D.Handle} {name : List Char} {value : Option (List Char)}
    (h : Stored D sha256 d name value) :
    (readValue D sha256 d name).getD [] = value.getD [] ↔ IsShort value := by
  rw [readValue, IsShort]
  by_cases hempty : value.getD [] = []
  · rw [h.absent hempty, hempty]
    exact iff_of_true rfl (by decide)
  · obtain ⟨cell, hcell, hlookup⟩ := h.cell hempty
    rw [hlookup, Option.bind_some, loadValue_ref, ← loadText_storeBuffer_iff hempty hcell]
    generalize value.getD [] = text at hempty hcell
    by_cases hlong : 127 ≤ (Utf8.encode text).length
    · obtain ⟨s', htext, -⟩ := loadText_storeBuffer_long hlong hcell
      rw [htext, Option.getD_some, Option.some.injEq]
    · obtain ⟨cell', hcell', -, htext⟩ := loadText_storeBuffer_short hempty (by omega)
      obtain rfl := Except.ok.inj (hcell.symm.trans hcell')
      simp [htext]

/-- The map the reader fills. -/
def readHash (D : DictionaryOps) (sha256 : List Char → Key256) (d : D.Handle)
    (names : List (List Char)) : Dict (List Char) :=
  names.filterMap (fun name => (readValue D sha256 d name).map (fun v => (name, v)))

theorem foldlM_loadField {d : D.Handle} {names : List (List Char)} (hash : Dict (List Char))
    (hnd : names.Nodup) (hnew : ∀ name ∈ names, name ∉ hash.keys) :
    names.foldlM (loadField D sha256 d) hash = .ok (hash ++ readHash D sha256 d names) := by
  induction names generalizing hash with
  | nil => simp [readHash, pure, Except.pure]
  | cons name names ih =>
    rw [List.nodup_cons] at hnd
    rw [List.foldlM_cons, loadField]
    cases hvalue : readValue D sha256 d name with
    | none =>
      rw [readValue] at hvalue
      rw [hvalue]
      have hrest := ih hash hnd.2 (fun n hn => hnew n (by simp [hn]))
      rw [readHash, List.filterMap_cons, readValue, hvalue]
      exact hrest
    | some v =>
      rw [readValue] at hvalue
      rw [hvalue]
      simp only [Dict.add_eq (hnew name (by simp)) v]
      have hrest := ih (hash ++ [(name, v)]) hnd.2 (fun n hn => by
        simp only [Dict.keys, List.map_append, List.mem_append, List.map_cons, List.map_nil,
          List.mem_singleton, not_or]
        exact ⟨hnew n (by simp [hn]), fun heq => hnd.1 (heq ▸ hn)⟩)
      rw [readHash, List.filterMap_cons, readValue, hvalue]
      rw [List.append_assoc] at hrest
      exact hrest

theorem lookup_readHash (d : D.Handle) (names : List (List Char)) (name : List Char) :
    (readHash D sha256 d names).lookup name =
      if name ∈ names then readValue D sha256 d name else none := by
  induction names with
  | nil => rfl
  | cons n names ih =>
    rw [readHash, List.filterMap_cons]
    by_cases hn : name = n
    · subst hn
      rw [if_pos (by simp)]
      cases hvalue : readValue D sha256 d name with
      | none =>
        refine ih.trans ?_
        rw [hvalue, ite_self]
      | some v => simp
    · have hmem : name ∈ n :: names ↔ name ∈ names := by simp [hn]
      rw [if_congr hmem rfl rfl, ← ih]
      cases readValue D sha256 d n with
      | none => rfl
      | some v => exact Dict.lookup_cons_of_ne hn v _

theorem mem_keys_readHash {d : D.Handle} {names : List (List Char)} {name : List Char}
    (h : name ∈ (readHash D sha256 d names).keys) : readValue D sha256 d name ≠ none := by
  obtain ⟨e, he, rfl⟩ := List.mem_map.1 h
  obtain ⟨n, -, hn⟩ := List.mem_filterMap.1 he
  obtain ⟨v, hv, rfl⟩ := Option.map_eq_some_iff.1 hn
  simp [hv]

/-- The information the reader puts together from the dictionary. -/
def readInfo (D : DictionaryOps) (sha256 : List Char → Key256) (d : D.Handle) (decimals : Int32) :
    JettonInfo where
  name := readValue D sha256 d "name".toList
  description := readValue D sha256 d "description".toList
  symbol := readValue D sha256 d "symbol".toList
  imageData := readValue D sha256 d "image_data".toList
  decimals := decimals
  color := readValue D sha256 d "color".toList
  deployer := readValue D sha256 d "deployer".toList

theorem parseInt_ofInt (n : Int32) : JettonInfo.parseInt (Decimal.ofInt n.toInt) = .ok n := by
  rw [JettonInfo.parseInt, Decimal.toInt?_ofInt]
  simp only [if_pos (And.intro n.le_toInt n.toInt_lt), Int32.ofInt_toInt]

/-- Where the decimals are found and no `image` field is, the reader takes every other field as
it finds it. -/
theorem jettonFromOnchain_eq {d : D.Handle} {cs : Slice} {decimals : Int32}
    (hload : loadDict D cs = some d)
    (hdec : readValue D sha256 d "decimals".toList = some (Decimal.ofInt decimals.toInt))
    (himage : readValue D sha256 d "image".toList = none) :
    jettonFromOnchain D sha256 cs = .ok (some (readInfo D sha256 d decimals)) := by
  have hfold : hashKeys.foldlM (loadField D sha256 d) [] =
      .ok ([] ++ readHash D sha256 d hashKeys) :=
    foldlM_loadField [] (by decide) (by simp [Dict.keys])
  have hlookup : ∀ name ∈ hashKeys, (readHash D sha256 d hashKeys).lookup name =
      readValue D sha256 d name := fun name h => by rw [lookup_readHash, if_pos h]
  have hdec' := (hlookup "decimals".toList (by decide)).trans hdec
  have hpos : 0 < (readHash D sha256 d hashKeys).length := by
    apply List.length_pos_of_ne_nil
    intro hnil
    rw [hnil] at hdec'
    cases hdec'
  have himage' : "image".toList ∉ (readHash D sha256 d hashKeys).keys :=
    fun h => mem_keys_readHash h himage
  have hinfo : JettonInfo.fromDict (readHash D sha256 d hashKeys) =
      .ok (readInfo D sha256 d decimals) := by
    simp only [JettonInfo.fromDict, hdec', parseInt_ofInt, himage', if_false, bind, Except.bind,
      hlookup "name".toList (by decide), hlookup "description".toList (by decide),
      hlookup "symbol".toList (by decide), hlookup "image_data".toList (by decide),
      hlookup "color".toList (by decide), hlookup "deployer".toList (by decide)]
    rfl
  rw [jettonFromOnchain, hload]
  simp only [hfold, List.nil_append, bind, Except.bind, if_pos hpos, hinfo]
  rfl

/-! ## The round trip -/

/-- The same fields, empty and missing not told apart. -/
def JettonInfo.Same (a b : JettonInfo) : Prop :=
  a.name.getD [] = b.name.getD [] ∧ a.description.getD [] = b.description.getD [] ∧
    a.symbol.getD [] = b.symbol.getD [] ∧ a.imageData.getD [] = b.imageData.getD [] ∧
    a.decimals = b.decimals ∧ a.color.getD [] = b.color.getD [] ∧
    a.deployer.getD [] = b.deployer.getD []

/-- The metadata cell of `info` is built, and reads back as `info`. -/
def ReadsBack (D : DictionaryOps) (sha256 : List Char → Key256) (info : JettonInfo) : Prop :=
  ∃ cell cs info', buildJettonOnchainMetadata D sha256 info = .ok cell ∧
    Slice.loadInt 8 cell.toSlice = (contentLayoutOnchain, cs) ∧
    jettonFromOnchain D sha256 cs = .ok (some info') ∧ info'.Same info

theorem lookup_toDict (info : JettonInfo) (name : List Char) :
    info.toDict.lookup name =
      if name = "deployer".toList then some info.deployer
      else if name = "color".toList then some info.color
      else if name = "decimals".toList then some (some (Decimal.ofInt info.decimals.toInt))
      else if name = "image_data".toList then some info.imageData
      else if name = "description".toList then some info.description
      else if name = "name".toList then some info.name
      else if name = "symbol".toList then some info.symbol
      else none := by
  simp only [JettonInfo.toDict, Dict.lookup_set]
  rfl

/-- Every text of the information has less than 127 bytes. -/
def JettonInfo.TextsShort (info : JettonInfo) : Prop :=
  IsShort info.name ∧ IsShort info.description ∧ IsShort info.symbol ∧ IsShort info.imageData ∧
    IsShort info.color ∧ IsShort info.deployer

/-- The text of a 32-bit number is short. -/
theorem isShort_decimals (n : Int32) : IsShort (some (Decimal.ofInt n.toInt)) := by
  have hlen : (Decimal.ofInt n.toInt).length ≤ 11 := by
    have hlo := n.le_toInt
    have hhi := n.toInt_lt
    cases h : n.toInt with
    | ofNat k =>
      rw [h, Int.ofNat_eq_natCast] at hhi
      have := Decimal.length_ofNat_le (n := k) (k := 10) (by decide) (by omega)
      rw [Decimal.ofInt]
      omega
    | negSucc k =>
      rw [h] at hlo
      have := Decimal.length_ofNat_le (n := k + 1) (k := 10) (by decide) (by omega)
      rw [Decimal.ofInt, List.length_cons]
      omega
  have hbytes := Utf8.length_encode_le (Decimal.ofInt n.toInt)
  rw [IsShort, Option.getD_some]
  omega

theorem isShort_toDict {info : JettonInfo} (h : info.TextsShort) (name : List Char) :
    IsShort (info.toDict.lookup name).join := by
  obtain ⟨hname, hdescription, hsymbol, himage, hcolor, hdeployer⟩ := h
  rw [lookup_toDict]
  repeat' split
  all_goals first | assumption | exact isShort_decimals _ | simp [IsShort]

/-- The metadata cell: the layout byte, and the root of the dictionary. -/
theorem finish_metadata (r : Cell) :
    CellBuilder.finish (CellBuilder.storeDict (some (some r))
      (CellBuilder.store contentLayoutOnchain 8 CellBuilder.begin)) =
      if r.depth + 1 ≤ Vm.maxDepth then .ok (.mk (BitField.ofNat 8 0 ++ [true]) [r])
      else .error .cellWrite := by
  have hfit : CellBuilder.begin.canExtendBy (BitField.ofNat 8 0).length 0 := ⟨by decide, by decide⟩
  have hstore : CellBuilder.store contentLayoutOnchain 8 CellBuilder.begin =
      CellBuilder.begin.append (BitField.ofNat 8 0) [] hfit :=
    Appends.store 0 8 (by decide) CellBuilder.begin hfit
  have hroom : (CellBuilder.begin.append (BitField.ofNat 8 0) [] hfit).canExtendBy
      [true].length [r].length :=
    ⟨by simp [CellBuilder.begin, Vm.maxBits], by simp [CellBuilder.begin, Vm.maxRefs]⟩
  rw [hstore, (kept_storeDict r _).eq_append trivial hroom, finish_eq]
  simp [CellBuilder.begin]

/-- The value of a field in the map that is written. -/
theorem value_toDict (info : JettonInfo) :
    (info.toDict.lookup "name".toList).join = info.name ∧
      (info.toDict.lookup "description".toList).join = info.description ∧
      (info.toDict.lookup "symbol".toList).join = info.symbol ∧
      (info.toDict.lookup "image_data".toList).join = info.imageData ∧
      (info.toDict.lookup "color".toList).join = info.color ∧
      (info.toDict.lookup "deployer".toList).join = info.deployer ∧
      (info.toDict.lookup "decimals".toList).join = some (Decimal.ofInt info.decimals.toInt) ∧
      (info.toDict.lookup "image".toList).join = none := by
  simp [lookup_toDict]

theorem exists_rootCell (hD : D.Lawful) {d : D.Handle} {k : Key256} {s : Slice}
    (h : D.lookup d k = some s) : ∃ r, D.getRootCell d = some r := by
  cases hroot : D.getRootCell d with
  | some r => exact ⟨r, rfl⟩
  | none =>
    rw [hD.lookup_of_root_null d k hroot] at h
    cases h

/-- A metadata cell with a dictionary that holds the fields reads as what the dictionary holds. -/
theorem stored_reads {info : JettonInfo} {d : D.Handle} {r cell : Cell}
    (hstored : ∀ name ∈ hashKeys, Stored D sha256 d name (info.toDict.lookup name).join)
    (hlookup : ∀ k, D.lookup (D.ofRootCell (D.getRootCell d)) k = D.lookup d k)
    (hr : D.getRootCell d = some r)
    (hfinish : CellBuilder.finish (CellBuilder.storeDict (some (D.getRootCell d))
      (CellBuilder.store contentLayoutOnchain 8 CellBuilder.begin)) = .ok cell) :
    ∃ d cs, (∀ name ∈ hashKeys, Stored D sha256 d name (info.toDict.lookup name).join) ∧
      Slice.loadInt 8 cell.toSlice = (contentLayoutOnchain, cs) ∧
      jettonFromOnchain D sha256 cs = .ok (some (readInfo D sha256 d info.decimals)) := by
  obtain ⟨-, -, -, -, -, -, hdecimals, himage⟩ := value_toDict info
  have hdec := hstored "decimals".toList (by decide)
  rw [hdecimals] at hdec
  obtain ⟨c, hc, hfound⟩ := hdec.cell (Decimal.ofInt_ne_nil _)
  have hnoimage := hstored "image".toList (by decide)
  rw [himage] at hnoimage
  rw [hr, finish_metadata] at hfinish
  split at hfinish
  · obtain rfl := Except.ok.inj hfinish
    refine ⟨D.ofRootCell (D.getRootCell d), ⟨[true], [r]⟩,
      fun name hname => (hstored name hname).congr (hlookup _), loadInt_zero [true] [r],
      jettonFromOnchain_eq ?_ ?_ ?_⟩
    · rw [hr]
      rfl
    · rw [readValue, hlookup, hfound, Option.bind_some, loadValue_ref,
        loadText_storeBuffer_iff (Decimal.ofInt_ne_nil _) hc]
      exact isShort_decimals info.decimals
    · rw [readValue, hlookup]
      rw [hnoimage.absent rfl]
      rfl
  · cases hfinish

/-- The decimals are never empty, so the dictionary has an entry. -/
theorem exists_stored {info : JettonInfo} {d : D.Handle}
    (hstored : ∀ name ∈ hashKeys, Stored D sha256 d name (info.toDict.lookup name).join) :
    ∃ k s, D.lookup d k = some s := by
  have hdec := hstored "decimals".toList (by decide)
  rw [(value_toDict info).2.2.2.2.2.2.1] at hdec
  obtain ⟨c, -, hfound⟩ := hdec.cell (Decimal.ofInt_ne_nil _)
  exact ⟨_, _, hfound⟩

/-- A metadata cell that was built reads as what its dictionary holds. -/
theorem build_reads (hD : D.Lawful) (hsha : (hashKeys.map sha256).Nodup) {info : JettonInfo}
    {cell : Cell} (h : buildJettonOnchainMetadata D sha256 info = .ok cell) :
    ∃ d cs, (∀ name ∈ hashKeys, Stored D sha256 d name (info.toDict.lookup name).join) ∧
      Slice.loadInt 8 cell.toSlice = (contentLayoutOnchain, cs) ∧
      jettonFromOnchain D sha256 cs = .ok (some (readInfo D sha256 d info.decimals)) := by
  obtain ⟨d, hfold, hfinish⟩ := bind_ok_iff.1 h
  obtain ⟨hstored, -⟩ := foldlM_storeField hD hsha (fun name _ => hD.lookup_create _) hfold
  obtain ⟨k, s, hfound⟩ := exists_stored hstored
  obtain ⟨r, hr⟩ := exists_rootCell hD hfound
  exact stored_reads hstored (hD.lookup_ofRootCell d) hr hfinish

/-- The metadata cell of short texts is built. -/
theorem build_ok (hD : D.Lawful) (hsha : (hashKeys.map sha256).Nodup) {info : JettonInfo}
    (hshort : info.TextsShort) : ∃ cell, buildJettonOnchainMetadata D sha256 info = .ok cell := by
  obtain ⟨d, hfold, hbounded⟩ := foldlM_storeField_ok sha256 hD (isShort_toDict hshort) hashKeys
    (bounded_create hD) (by decide)
  obtain ⟨hstored, -⟩ := foldlM_storeField hD hsha (fun name _ => hD.lookup_create _) hfold
  obtain ⟨k, s, hfound⟩ := exists_stored hstored
  obtain ⟨r, hr⟩ := exists_rootCell hD hfound
  have hdepth : r.depth + 1 ≤ Vm.maxDepth := by
    have := hD.depth_root d _ _ r hbounded hr
    have hlen : hashKeys.length = 8 := rfl
    rw [Vm.maxDepth]
    omega
  refine ⟨.mk (BitField.ofNat 8 0 ++ [true]) [r], ?_⟩
  rw [buildJettonOnchainMetadata, hfold]
  simp only [bind, Except.bind, hr, finish_metadata, if_pos hdepth]

theorem readInfo_same_iff {d : D.Handle} {info : JettonInfo}
    (h : ∀ name ∈ hashKeys, Stored D sha256 d name (info.toDict.lookup name).join) :
    (readInfo D sha256 d info.decimals).Same info ↔ info.TextsShort := by
  have hfield : ∀ {name : List Char} {value : Option (List Char)}, name ∈ hashKeys →
      (info.toDict.lookup name).join = value →
      ((readValue D sha256 d name).getD [] = value.getD [] ↔ IsShort value) := by
    rintro name _ hname rfl
    exact (h name hname).readValue_iff
  obtain ⟨hname, hdescription, hsymbol, himage, hcolor, hdeployer, -, -⟩ := value_toDict info
  simp only [JettonInfo.Same, JettonInfo.TextsShort, readInfo, true_and,
    hfield (by decide) hname, hfield (by decide) hdescription, hfield (by decide) hsymbol,
    hfield (by decide) himage, hfield (by decide) hcolor, hfield (by decide) hdeployer]

theorem ReadsBack.textsShort (hD : D.Lawful) (hsha : (hashKeys.map sha256).Nodup)
    {info : JettonInfo} (h : ReadsBack D sha256 info) : info.TextsShort := by
  obtain ⟨cell, cs, info', hbuild, hlayout, hread, hsame⟩ := h
  obtain ⟨d, cs', hstored, hlayout', hread'⟩ := build_reads hD hsha hbuild
  obtain rfl : cs = cs' := congrArg Prod.snd (hlayout.symm.trans hlayout')
  obtain rfl := Option.some.inj (Except.ok.inj (hread.symm.trans hread'))
  exact (readInfo_same_iff hstored).1 hsame

/-- The metadata of a jetton reads back exactly when every text is short. -/
theorem readsBack_iff (hD : D.Lawful) (hsha : (hashKeys.map sha256).Nodup) (info : JettonInfo) :
    ReadsBack D sha256 info ↔ info.TextsShort := by
  refine ⟨ReadsBack.textsShort hD hsha, fun hshort => ?_⟩
  obtain ⟨cell, hcell⟩ := build_ok hD hsha hshort
  obtain ⟨d, cs, hstored, hlayout, hread⟩ := build_reads hD hsha hcell
  exact ⟨cell, cs, _, hcell, hlayout, hread, (readInfo_same_iff hstored).2 hshort⟩

end Metadata

/-! ## A dictionary that satisfies the assumptions

    Its root cell is a chain of the entries. For one entry this is the one edge of
    the native dictionary: a long label of all the key bits, and the value. -/

namespace Chain

abbrev Entries := { l : List (Key256 × Cell) // (l.map Prod.fst).Nodup }

def keyBits (k : Key256) : List Bool := BitField.ofBytes k.toList

def keyOfBits (bits : List Bool) : Key256 :=
  ⟨(Vm.bytesOfBits 32 bits).toArray, by simp⟩

def toCell : Key256 × Cell → List (Key256 × Cell) → Cell
  | (k, c), [] => .mk (true :: false :: (BitField.ofNat 9 256 ++ keyBits k)) [c]
  | (k, c), e :: es => .mk (keyBits k) [c, toCell e es]

def ofCell : Cell → List (Key256 × Cell)
  | .mk bits [c] => [(keyOfBits (bits.drop 11), c)]
  | .mk bits [c, next] => (keyOfBits bits, c) :: ofCell next
  | _ => []

def insert (k : Key256) (c : Cell) (d : Entries) : Entries :=
  ⟨(k, c) :: d.1.filter (fun e => e.1 ≠ k), by
    rw [List.map_cons, List.nodup_cons]
    refine ⟨by simp, ?_⟩
    exact (List.filter_sublist.map _).nodup d.2⟩

def ofList (l : List (Key256 × Cell)) : Entries :=
  l.foldr (fun e d => insert e.1 e.2 d) ⟨[], by simp⟩

def find (d : Entries) (k : Key256) : Option Slice := (d.1.lookup k).map (fun c => ⟨[], [c]⟩)

def ops : DictionaryOps where
  Handle := Entries
  create := ⟨[], by simp⟩
  ofRootCell root := ofList ((root.map ofCell).getD [])
  getRootCell d :=
    match d.1 with
    | [] => none
    | e :: es => some (toCell e es)
  setRef d k c := .ok (insert k c d)
  lookup := find

theorem keyOfBits_keyBits (k : Key256) : keyOfBits (keyBits k) = k := by
  have h := Vm.bytesOfBits_ofBytes k.toList []
  rw [List.append_nil, Vector.length_toList] at h
  simp only [keyOfBits, keyBits, h]
  rfl

theorem ofCell_toCell (e : Key256 × Cell) (es : List (Key256 × Cell)) :
    ofCell (toCell e es) = e :: es := by
  induction es generalizing e with
  | nil =>
    have hdrop :
        (true :: false :: (BitField.ofNat 9 256 ++ keyBits e.1)).drop 11 = keyBits e.1 := rfl
    rw [toCell, ofCell, hdrop, keyOfBits_keyBits]
  | cons e' es ih => simp only [toCell, ofCell, keyOfBits_keyBits, ih]

theorem lookup_filter_ne {k k' : Key256} (h : k' ≠ k) (l : List (Key256 × Cell)) :
    (l.filter (fun e => e.1 ≠ k)).lookup k' = l.lookup k' := by
  induction l with
  | nil => rfl
  | cons e l ih =>
    obtain ⟨ke, c⟩ := e
    by_cases he : ke = k
    · subst he
      rw [Dict.lookup_cons_of_ne h, ← ih]
      simp
    · rw [List.filter_cons_of_pos (by simpa using he), List.lookup_cons, List.lookup_cons, ih]

theorem lookup_insert (k k' : Key256) (c : Cell) (d : Entries) :
    (insert k c d).1.lookup k' = if k' = k then some c else d.1.lookup k' := by
  by_cases hk : k' = k
  · subst hk
    rw [insert, List.lookup_cons_self, if_pos rfl]
  · rw [insert, Dict.lookup_cons_of_ne hk, lookup_filter_ne hk, if_neg hk]

theorem find_insert (k k' : Key256) (c : Cell) (d : Entries) :
    find (insert k c d) k' = if k' = k then some ⟨[], [c]⟩ else find d k' := by
  rw [find, lookup_insert]
  split <;> rfl

theorem lookup_ofList (l : List (Key256 × Cell)) (k : Key256) :
    (ofList l).1.lookup k = l.lookup k := by
  induction l with
  | nil => rfl
  | cons e l ih =>
    refine (lookup_insert e.1 k e.2 (ofList l)).trans ?_
    rw [ih]
    by_cases hk : k = e.1
    · rw [hk, if_pos rfl, List.lookup_cons_self]
    · rw [if_neg hk, Dict.lookup_cons_of_ne hk]

theorem lookup_of_mem {l : List (Key256 × Cell)} (hnd : (l.map Prod.fst).Nodup)
    {e : Key256 × Cell} (he : e ∈ l) : l.lookup e.1 = some e.2 := by
  induction l with
  | nil => cases he
  | cons e' l ih =>
    rw [List.map_cons, List.nodup_cons] at hnd
    rcases List.mem_cons.1 he with rfl | hmem
    · exact List.lookup_cons_self
    · have hne : e.1 ≠ e'.1 := fun h => hnd.1 (h ▸ List.mem_map_of_mem hmem)
      rw [Dict.lookup_cons_of_ne hne, ih hnd.2 hmem]

theorem depth_toCell {h : Nat} (e : Key256 × Cell) (es : List (Key256 × Cell))
    (hall : ∀ x ∈ e :: es, x.2.depth + 1 ≤ h) : (toCell e es).depth ≤ es.length + h := by
  induction es generalizing e with
  | nil => simpa [toCell] using hall
  | cons e' es ih =>
    have hrest := ih e' (fun x hx => hall x (by simp [List.mem_cons.1 hx]))
    have he := hall e (by simp)
    simp only [toCell, Cell.depth_mk, Cell.depthRefs_cons, Cell.depthRefs_nil, List.length_cons]
    omega

theorem ops_lawful : ops.Lawful where
  lookup_create k := rfl
  lookup_setRef d k c d' hset k' := by
    obtain rfl := Except.ok.inj hset
    exact find_insert k k' c d
  setRef_ok d n h k c _ _ _ := ⟨_, rfl⟩
  lookup_ofRootCell d k := by
    match d with
    | ⟨[], _⟩ => rfl
    | ⟨e :: es, hnd⟩ =>
      refine congrArg (Option.map _) ((lookup_ofList _ k).trans ?_)
      exact congrArg (List.lookup k) (ofCell_toCell e es)
  lookup_of_root_null d k hnone := by
    match d, hnone with
    | ⟨[], _⟩, _ => rfl
  depth_root d n h r hd hr := by
    obtain ⟨keys, hkeys, hall⟩ := hd
    match d, hr, hall with
    | ⟨e :: es, hnd⟩, hr, hall =>
      obtain rfl := Option.some.inj hr
      have hmem : ∀ x ∈ e :: es, x.1 ∈ keys ∧ x.2.depth + 1 ≤ h := by
        intro x hx
        have hx' := lookup_of_mem hnd hx
        obtain ⟨hkey, hdepth⟩ := hall x.1 ⟨[], [x.2]⟩ (congrArg (Option.map _) hx')
        exact ⟨hkey, by simpa using hdepth⟩
      have hlen : ((e :: es).map Prod.fst).length ≤ keys.length :=
        (List.subperm_of_subset hnd (fun k hk => by
          obtain ⟨x, hx, rfl⟩ := List.mem_map.1 hk
          exact (hmem x hx).1)).length_le
      rw [List.length_map, List.length_cons] at hlen
      have := depth_toCell e es (fun x hx => (hmem x hx).2)
      omega

/-- SHA-256 of the field names, as a number. -/
def digest (name : List Char) : Nat :=
  if name = "name".toList then 0x82a3537ff0dbce7eec35d69edc3a189ee6f17d82f353a553f9aa96cb0be3ce89
  else if name = "description".toList then
    0xc9046f7a37ad0ea7cee73355984fa5428982f8b37c8f7bcec91f7ac71a7cd104
  else if name = "symbol".toList then
    0xb76a7ca153c24671658335bbd08946350ffc621fa1c516e7123095d4ffd5c581
  else if name = "decimals".toList then
    0xee80fd2f1e03480e2282363596ee752d7bb27f50776b95086a0279189675923e
  else if name = "image".toList then
    0x6105d6cc76af400325e94d588ce511be5bfdbb73b437dc51eca43917d7a43e3d
  else if name = "image_data".toList then
    0xd9a88ccec79eef59c84b671136a20ece4cd00caaad5bc47e2c208829154ee9e4
  else if name = "color".toList then
    0x74284d9dcbcc09928ca5d7d6187270a62ac1b58ccdc4a44b81e47257ffa53b9e
  else if name = "deployer".toList then
    0xeeb9b5c0c28d22e56a7489caabab44c3fe349d0b556cc41a5bb567433db88bc2
  else 0

def sha256 (name : List Char) : Key256 :=
  ⟨(BigInt256.exportBytes 32 (digest name)).toArray,
    List.size_toArray.trans (BigInt256.length_exportBytes _ _)⟩

theorem take_sha256 (name : List Char) : (sha256 name).toList.take 2 =
    [UInt8.ofNat (digest name / 256 ^ 31), UInt8.ofNat (digest name / 256 ^ 30)] := rfl

theorem sha256_nodup : (hashKeys.map sha256).Nodup := by
  refine List.Nodup.of_map (fun k => k.toList.take 2) ?_
  simp only [List.map_map, Function.comp_def, take_sha256]
  decide

/-- A jetton that is only named. -/
def named (name : List Char) : JettonInfo :=
  ⟨some name, none, none, none, 9, none, none⟩

theorem length_encode_replicate (n : Nat) : (Utf8.encode (List.replicate n 'a')).length = n := by
  induction n with
  | zero => rfl
  | succ n ih =>
    rw [List.replicate_succ, Utf8.encode_cons, List.length_append, ih]
    exact Nat.add_comm 1 n

end Chain

/-- A short name reads back. -/
theorem readsBack_short_name : ReadsBack Chain.ops Chain.sha256 (Chain.named "TON".toList) :=
  (readsBack_iff Chain.ops_lawful Chain.sha256_nodup _).2
    (by simp only [JettonInfo.TextsShort, IsShort, Chain.named]; decide)

/-- A name that fills a cell does not. -/
theorem readsBack_name_127_false :
    ¬ ReadsBack Chain.ops Chain.sha256 (Chain.named (List.replicate 127 'a')) := by
  intro h
  have hname : (Utf8.encode (List.replicate 127 'a')).length < 127 :=
    (h.textsShort Chain.ops_lawful Chain.sha256_nodup).1
  rw [Chain.length_encode_replicate] at hname
  omega

end Ton
