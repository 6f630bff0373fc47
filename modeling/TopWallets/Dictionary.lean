import TopWallets.CellDictionary
import TopWallets.Lib.HashmapFind

/- The native dictionary object (`vm::Dictionary`): lookup, the modes of setting a
   key, and deletion, over the root cell it holds.

   A lookup follows the labels down. A deletion takes the value out and writes the
   labels above it again; where one side of a fork is left, the two edges become
   one. An operation that throws leaves the root as it was. Main results: a lookup
   finds what the tree of a cell maps the key to, whichever labels it is spelled
   with (`lookup_hashmap`); setting in a mode is a lookup and a plain set
   (`dictSet_mode`); and deletion erases (`dictLookupDelete_cell`).

   Correspondence (C++ ↔ Lean):
     `is_prefix_of`, `skip_label`, `extract_label_to`
                                    ↔ `LabelParser.isPrefixOf`, `.skipLabel`, `.extractLabel`
     `DictionaryFixed::lookup`      ↔ `lookup`, its loop `lookupFrom`
     `finish_create_fork`           ↔ `finishCreateFork`
     `dict_lookup_delete`           ↔ `dictLookupDelete`, the way up `rebuild`,
                                      `writeSide`, `mergeEdges`
     `Dictionary::set_gen`, `set`, `set_ref`  ↔ `setGen`, `setValue`, `setRef`
     `lookup_delete`                ↔ `lookupDelete`
   Left out are augmented and prefix dictionaries, iteration and the operations on
   whole subdictionaries. -/
namespace Vm.Dict
open CellBuilder

namespace LabelParser
variable {n : Nat}

def isPrefixOf (label : LabelParser n) (key : List Bool) : Bool :=
  if label.lBits > key.length then false
  else if label.lSame = 0 then
    decide (label.lBits ≤ label.remainder.bits.length) &&
      label.remainder.bits.take label.lBits == key.take label.lBits
  else bitsMemscan (key.take label.lBits) (label.lSame % 2 == 1) == label.lBits

/-- What follows the label. -/
def skipLabel (label : LabelParser n) : Slice := advance label.sBits label.remainder

/-- The label, and what follows it. -/
def extractLabel (label : LabelParser n) : List Bool × Slice :=
  if label.lSame = 0 then
    (label.remainder.bits.take label.lBits, advance label.lBits label.remainder)
  else (List.replicate label.lBits (label.lSame % 2 == 1), label.remainder)

end LabelParser

/-! ## Lookup -/

def lookupFrom (cell : Cell) (key : List Bool) (n : Nat) : Except DictError (Option Slice) :=
  match LabelParser.load cell n with
  | .error e => .error e
  | .ok label =>
    if label.isPrefixOf key then
      if h : label.lBits = n then .ok (some label.skipLabel)
      else
        have : n - label.lBits - 1 < n := by have := label.lBits_le; omega
        match label.remainder.refs with
        | c1 :: c2 :: _ =>
          lookupFrom (if key.getD label.lBits false then c2 else c1)
            (key.drop (label.lBits + 1)) (n - label.lBits - 1)
        | _ => .error .cellUnd
    else .ok none
termination_by n

def lookup (n : Nat) (root : Option Cell) (key : List Bool) : Except DictError (Option Slice) :=
  if key.length ≠ n then .ok none
  else
    match root with
    | none => .ok none
    | some cell => lookupFrom cell key n

/-! ## Setting -/

/-- A mode sets a key that is there, one that is not, or both. -/
def SetMode.allows : SetMode → Bool → Bool
  | .set, _ => true
  | .replace, found => found
  | .add, found => !found

/-- Whether the key was set, and the root after it. -/
def setGen (n : Nat) (root : Option Cell) (key : List Bool) (storeVal : Store) (mode : SetMode) :
    Except DictError (Bool × Option Cell) :=
  if key.length ≠ n then .ok (false, root)
  else do
    match ← dictSet storeVal mode root key n with
    | none => return (false, root)
    | some cell => return (true, some cell)

def setValue (n : Nat) (root : Option Cell) (key : List Bool) (value : Slice) (mode : SetMode) :
    Except DictError (Bool × Option Cell) :=
  setGen n root key (addSliceBool value) mode

def setRef (n : Nat) (root : Option Cell) (key : List Bool) (valRef : Cell) (mode : SetMode) :
    Except DictError (Bool × Option Cell) :=
  setGen n root key (storeRefBool (some valRef)) mode

/-! ## Deletion -/

def finishCreateFork (c1 c2 : Cell) (cb : CellBuilder) : Except DictError Cell :=
  let stored := (storeRefBool (some c1)).and (storeRefBool (some c2)) cb
  if stored.1 then finalize stored.2 else .error .dictErr

/-- The fork again, with `c` on the side that the key goes on into. -/
def writeSide (key : List Bool) (len n : Nat) (swBit : Bool) (c other : Cell) :
    Except DictError Cell := do
  let cb ← appendDictLabel key len n empty
  if swBit then finishCreateFork other c cb else finishCreateFork c other cb

/-- The edge and the one of the other side in one. -/
def mergeEdges (key : List Bool) (len n : Nat) (swBit : Bool) (other : Cell) :
    Except DictError Cell := do
  let label2 ← LabelParser.load other (n - len - 1)
  let buffer := key.take len ++ (!swBit) :: label2.extractLabel.1
  let cb ← appendDictLabel buffer buffer.length n empty
  finalize (← storeOrThrow (addSliceBool label2.extractLabel.2) cb)

/-- The edge with what is left of the side that the key goes on into; with nothing left there it
becomes one with the edge of the other side. -/
def rebuild (key : List Bool) (len n : Nat) (swBit : Bool) (other : Cell) :
    Option (Slice × Option Cell) → Except DictError (Option (Slice × Option Cell))
  | none => .ok none
  | some (oldVal, some c) => do
    return some (oldVal, some (← writeSide key len n swBit c other))
  | some (oldVal, none) => do
    return some (oldVal, some (← mergeEdges key len n swBit other))

/-- The value that the key was mapped to, and what is left of the dictionary. -/
def dictLookupDelete (dict : Option Cell) (key : List Bool) (n : Nat) :
    Except DictError (Option (Slice × Option Cell)) :=
  match dict with
  | none => .ok none
  | some dict =>
    match LabelParser.load dict n with
    | .error e => .error e
    | .ok label =>
      if label.commonPrefixLen key < label.lBits then .ok none
      else if h : label.lBits = n then .ok (some (label.skipLabel, none))
      else
        have : n - label.lBits - 1 < n := by have := label.lBits_le; omega
        match label.remainder.refs with
        | c1 :: c2 :: _ =>
          let swBit := key.getD label.lBits false
          dictLookupDelete (some (if swBit then c2 else c1)) (key.drop (label.lBits + 1))
            (n - label.lBits - 1) >>= rebuild key label.lBits n swBit (if swBit then c1 else c2)
        | _ => .error .cellUnd
termination_by n

/-- The value that the key was mapped to, and the root after it. -/
def lookupDelete (n : Nat) (root : Option Cell) (key : List Bool) :
    Except DictError (Option Slice × Option Cell) :=
  if key.length ≠ n then .ok (none, root)
  else do
    match ← dictLookupDelete root key n with
    | none => return (none, root)
    | some (oldVal, dict) => return (some oldVal, dict)

/-! ## What the parser tells -/

namespace LabelParser.Reads
variable {n : Nat} {label : LabelParser n} {s rest : List Bool} {refs : List Cell}

theorem remainder_eq (h : label.Reads s rest refs) :
    label.lSame = 0 ∧ label.remainder = ⟨s ++ rest, refs⟩ ∨
      ∃ v : Bool, label.lSame = 6 + v.toNat ∧ s = List.replicate s.length v ∧
        label.remainder = ⟨rest, refs⟩ := by
  have heta : label.remainder = ⟨label.remainder.bits, label.remainder.refs⟩ := rfl
  rcases h.bits with ⟨hsame, hbits⟩ | ⟨v, hsame, hs, hbits⟩
  · exact .inl ⟨hsame, by rw [heta, hbits, h.refs]⟩
  · exact .inr ⟨v, hsame, hs, by rw [heta, hbits, h.refs]⟩

theorem skipLabel (h : label.Reads s rest refs) : label.skipLabel = ⟨rest, refs⟩ := by
  rw [LabelParser.skipLabel, sBits, h.lBits]
  rcases h.remainder_eq with ⟨hsame, hremainder⟩ | ⟨v, hsame, -, hremainder⟩
  · rw [if_neg (by omega), hremainder, advance_append]
  · rw [if_pos (by omega), hremainder]
    exact advance_append [] rest refs

theorem extractLabel (h : label.Reads s rest refs) :
    label.extractLabel = (s, ⟨rest, refs⟩) := by
  rw [LabelParser.extractLabel, h.lBits]
  rcases h.remainder_eq with ⟨hsame, hremainder⟩ | ⟨v, hsame, hs, hremainder⟩
  · rw [if_pos hsame, hremainder, List.take_left, advance_append]
  · have hv : (label.lSame % 2 == 1) = v := by rw [hsame]; cases v <;> rfl
    rw [if_neg (by omega), hremainder, hv, ← hs]

end LabelParser.Reads

theorem commonLength_le_left (s k : List Bool) : commonLength s k ≤ s.length := by
  induction s generalizing k with
  | nil => simp [commonLength]
  | cons a s ih =>
    cases k with
    | nil => simp [commonLength]
    | cons b k =>
      rw [commonLength]
      split
      · exact Nat.succ_le_succ (ih k)
      · exact Nat.zero_le _

theorem length_le_commonLength_iff (s k : List Bool) :
    s.length ≤ commonLength s k ↔ s <+: k := by
  induction s generalizing k with
  | nil => simp
  | cons a s ih =>
    cases k with
    | nil => simp [commonLength]
    | cons b k =>
      by_cases hab : a = b
      · rw [commonLength, if_pos hab, List.length_cons, Nat.succ_le_succ_iff, ih, hab,
          List.prefix_cons_inj]
      · rw [commonLength, if_neg hab, List.cons_prefix_cons]
        simp [hab]

theorem bitsMemscan_le (bits : List Bool) (v : Bool) : bitsMemscan bits v ≤ bits.length :=
  (List.takeWhile_sublist _).length_le

/-- The label is in the key exactly where the key does not part from it. -/
theorem isPrefixOf_iff {n : Nat} (label : LabelParser n) {key : List Bool} (hkey : key.length = n) :
    label.isPrefixOf key = true ↔ ¬ label.commonPrefixLen key < label.lBits := by
  have hle := label.lBits_le
  have htake : (key.take label.lBits).length = label.lBits := by
    rw [List.length_take]
    omega
  rw [LabelParser.isPrefixOf, LabelParser.commonPrefixLen, if_neg (by omega), Nat.not_lt]
  by_cases hsame : label.lSame = 0
  · rw [if_pos hsame, if_neg (not_not.2 hsame), Bool.and_eq_true, decide_eq_true_eq, beq_iff_eq]
    have hlen := List.length_take (i := label.lBits) (l := label.remainder.bits)
    constructor
    · rintro ⟨hroom, heq⟩
      have hself := (length_le_commonLength_iff (key.take label.lBits) (key.take label.lBits)).2
        List.prefix_rfl
      rw [heq]
      omega
    · intro hcommon
      have hleft := commonLength_le_left (label.remainder.bits.take label.lBits)
        (key.take label.lBits)
      have hroom : label.lBits ≤ label.remainder.bits.length := by omega
      have hpre := (length_le_commonLength_iff (label.remainder.bits.take label.lBits)
        (key.take label.lBits)).1 (by omega)
      exact ⟨hroom, hpre.eq_of_length (by omega)⟩
  · have hscan := bitsMemscan_le (key.take label.lBits) (label.lSame % 2 == 1)
    rw [if_neg hsame, if_pos hsame, beq_iff_eq]
    omega

/-! ## Lookup follows the tree -/

theorem load_of_label {n : Nat} (hn : n ≤ maxKeyBits) {c : Cell} {s code rest : List Bool}
    {refs : List Cell} (hc : c.toSlice = ⟨code ++ rest, refs⟩) (h : HmLabel n s code)
    (hfork : s.length < n → rest = [] ∧ refs.length = 2) :
    ∃ label, LabelParser.load c n = .ok label ∧ label.Reads s rest refs := by
  obtain ⟨label, hparse, hreads⟩ := parseLabel_append hn h rest refs
  refine ⟨label, ?_, hreads⟩
  rw [LabelParser.load, hc, hparse]
  apply if_neg
  rintro ⟨hlt, hbad⟩
  obtain ⟨rfl, hrefs⟩ := hfork (hreads.lBits ▸ hlt)
  rw [hreads.refs, or_iff_left (not_not.2 hrefs), LabelParser.sBits, hreads.lBits] at hbad
  rcases hreads.remainder_eq with ⟨hsame, hremainder⟩ | ⟨v, hsame, -, hremainder⟩
  · rw [if_neg (by omega), hremainder, List.append_nil] at hbad
    exact hbad rfl
  · rw [if_pos (by omega), hremainder] at hbad
    exact hbad rfl

/-- A lookup finds what the tree of a cell maps the key to, whichever labels spell the tree. -/
theorem lookupFrom_hashmap {α : Type} {X : Slice → α → Prop} {n : Nat} (hn : n ≤ maxKeyBits)
    {c : Cell} {t : HmEdge α} (h : Hashmap X n c.toSlice t) {key : List Bool}
    (hkey : key.length = n) :
    (t.find key = none ∧ lookupFrom c key n = .ok none) ∨
      ∃ s v, t.find key = some v ∧ X s v ∧ lookupFrom c key n = .ok (some s) := by
  generalize hcs : c.toSlice = cs at h
  induction h generalizing c key with
  | @leaf n s code rest refs v hlabel hlen hv =>
    obtain ⟨label, hload, hreads⟩ := load_of_label hn hcs hlabel fun hlt => by omega
    have hbits : label.lBits = n := hreads.lBits.trans hlen
    have hpre := isPrefixOf_iff label hkey
    rw [commonPrefixLen_eq hreads, hreads.lBits, Nat.not_lt, length_le_commonLength_iff] at hpre
    rw [lookupFrom, hload, HmEdge.find_leaf]
    by_cases hs : s <+: key
    · obtain rfl := hs.eq_of_length (hlen.trans hkey.symm)
      refine .inr ⟨⟨rest, refs⟩, v, if_pos rfl, hv, ?_⟩
      simp only [if_pos (hpre.2 hs), dif_pos hbits, hreads.skipLabel]
    · refine .inl ⟨if_neg (by rintro rfl; exact hs List.prefix_rfl), ?_⟩
      simp only [if_neg (mt hpre.1 hs)]
  | @fork n m s code left right l r hlabel hlen _ _ ihl ihr =>
    have hcode : c.toSlice = ⟨code ++ [], [left, right]⟩ := by rw [hcs, List.append_nil]
    obtain ⟨label, hload, hreads⟩ := load_of_label hn hcode hlabel fun _ => ⟨rfl, rfl⟩
    have hne : ¬ s.length = n := by omega
    have hm : n - s.length - 1 = m := by omega
    have hpre := isPrefixOf_iff label hkey
    rw [commonPrefixLen_eq hreads, hreads.lBits, Nat.not_lt, length_le_commonLength_iff] at hpre
    rw [lookupFrom, hload]
    simp only [hreads.lBits, dif_neg hne, hreads.refs, hm]
    rcases HmEdge.key_cases s false key with ⟨k, rfl⟩ | ⟨k, rfl⟩ | hnone
    · have hk : k.length = m := by
        rw [List.length_append, List.length_cons] at hkey
        omega
      rw [if_pos (hpre.2 (List.prefix_append ..)), HmEdge.getD_append_cons,
        HmEdge.drop_append_cons, show (HmEdge.fork s l r).find (s ++ false :: k) = l.find k from
          HmEdge.find_forkOn s false l r k]
      simpa using ihl (by omega) hk rfl
    · have hk : k.length = m := by
        rw [List.length_append, List.length_cons] at hkey
        omega
      rw [if_pos (hpre.2 (List.prefix_append ..)), HmEdge.getD_append_cons,
        HmEdge.drop_append_cons, show (HmEdge.fork s l r).find (s ++ (!false) :: k) = r.find k from
          HmEdge.find_forkOn_not s false l r k]
      simpa using ihr (by omega) hk rfl
    · -- a key with all of the label would go on behind it
      have hnot : ¬ s <+: key := by
        rintro ⟨k, rfl⟩
        cases k with
        | nil =>
          rw [List.append_nil] at hkey
          omega
        | cons b k => exact hnone b k rfl
      refine .inl ⟨HmEdge.find_forkOn_of_ne hnone false l r, ?_⟩
      rw [if_neg (mt hpre.1 hnot)]

/-- A dictionary finds what the tree of its cell maps the key to. -/
theorem lookup_hashmap {α : Type} {X : Slice → α → Prop} {n : Nat} (hn : n ≤ maxKeyBits)
    {c : Cell} {t : HmEdge α} (h : Hashmap X n c.toSlice t) (key : List Bool) :
    (t.find key = none ∧ lookup n (some c) key = .ok none) ∨
      ∃ s v, t.find key = some v ∧ X s v ∧ lookup n (some c) key = .ok (some s) := by
  rw [lookup.eq_def]
  by_cases hkey : key.length = n
  · rw [if_neg (not_not.2 hkey)]
    exact lookupFrom_hashmap hn h hkey
  · refine .inl ⟨?_, if_pos hkey⟩
    cases hfind : t.find key with
    | none => rfl
    | some v => exact absurd (HmEdge.length_of_find (HmEdge.hasKeyLength_of_hashmap h) hfind) hkey

/-- A fork below a label in its short form, with leaves below labels in the long form and in that
of equal bits. -/
def threeForms : HmEdge Bool := .fork [true] (.leaf [false, true] false) (.leaf [true, true] true)

def longLeaf : Cell :=
  .mk ([true, false] ++ BitField.ofNat (lenBits 2) 2 ++ [false, true] ++ [false]) []

def sameLeaf : Cell := .mk ([true, true, true] ++ BitField.ofNat (lenBits 2) 2 ++ [true]) []

theorem hashmap_threeForms : Hashmap (fun s v => s = ⟨[v], []⟩) 4
    (Cell.mk [false, true, false, true] [longLeaf, sameLeaf]).toSlice threeForms := by
  have hlong : Hashmap (fun s v => s = ⟨[v], []⟩) 2 longLeaf.toSlice
      (.leaf [false, true] false) :=
    .leaf (.long (by decide)) rfl rfl
  have hsame : Hashmap (fun s v => s = ⟨[v], []⟩) 2 sameLeaf.toSlice
      (.leaf (List.replicate 2 true) true) :=
    .leaf (.same (by decide)) rfl rfl
  exact .fork (.short (by decide)) rfl hlong hsame

/-- Both keys are found, each with its value. -/
theorem lookup_hashmap_long :
    lookup 4 (some (.mk [false, true, false, true] [longLeaf, sameLeaf]))
        [true, false, false, true] = .ok (some ⟨[false], []⟩) ∧
      lookup 4 (some (.mk [false, true, false, true] [longLeaf, sameLeaf]))
        [true, true, true, true] = .ok (some ⟨[true], []⟩) := by
  constructor
  · obtain ⟨hnone, -⟩ | ⟨s, v, hfind, hs, hlookup⟩ :=
      lookup_hashmap (by decide) hashmap_threeForms [true, false, false, true]
    · cases hnone
    · obtain rfl := Option.some.inj hfind
      rw [hlookup, hs]
  · obtain ⟨hnone, -⟩ | ⟨s, v, hfind, hs, hlookup⟩ :=
      lookup_hashmap (by decide) hashmap_threeForms [true, true, true, true]
    · cases hnone
    · obtain rfl := Option.some.inj hfind
      rw [hlookup, hs]

/-! ## Modes -/

/-- The way a lookup goes: the key parts from a label, it ends in a leaf, or it goes on below a
fork. -/
inductive Descends : Nat → Cell → List Bool → Option Slice → Prop where
  | parts {n : Nat} {dict : Cell} {key : List Bool} {label : LabelParser n} :
      LabelParser.load dict n = .ok label → label.commonPrefixLen key < label.lBits →
      Descends n dict key none
  | leaf {n : Nat} {dict : Cell} {key : List Bool} {label : LabelParser n} :
      LabelParser.load dict n = .ok label → ¬ label.commonPrefixLen key < label.lBits →
      label.lBits = n → Descends n dict key (some label.skipLabel)
  | fork {n : Nat} {dict c1 c2 : Cell} {refs : List Cell} {key : List Bool} {label : LabelParser n}
      {found : Option Slice} :
      LabelParser.load dict n = .ok label → ¬ label.commonPrefixLen key < label.lBits →
      label.lBits ≠ n → label.remainder.refs = c1 :: c2 :: refs →
      Descends (n - label.lBits - 1) (if key.getD label.lBits false then c2 else c1)
        (key.drop (label.lBits + 1)) found → Descends n dict key found

theorem descends_of_lookupFrom {n : Nat} {dict : Cell} {key : List Bool} (hkey : key.length = n)
    {found : Option Slice} (h : lookupFrom dict key n = .ok found) :
    Descends n dict key found := by
  induction n using Nat.strong_induction_on generalizing dict key with
  | _ n ih =>
    rw [lookupFrom] at h
    cases hload : LabelParser.load dict n with
    | error e => simp [hload] at h
    | ok label =>
      simp only [hload] at h
      have hpre := isPrefixOf_iff label hkey
      by_cases hparts : label.commonPrefixLen key < label.lBits
      · rw [if_neg (mt hpre.1 (not_not.2 hparts))] at h
        cases h
        exact .parts hload hparts
      rw [if_pos (hpre.2 hparts)] at h
      by_cases hn : label.lBits = n
      · rw [dif_pos hn] at h
        cases h
        exact .leaf hload hparts hn
      rw [dif_neg hn] at h
      have hlt := label.lBits_le
      rcases hrefs : label.remainder.refs with _ | ⟨c1, _ | ⟨c2, refs⟩⟩
      · simp [hrefs] at h
      · simp [hrefs] at h
      · simp only [hrefs] at h
        refine .fork hload hparts hn hrefs (ih _ (by omega) ?_ h)
        rw [List.length_drop]
        omega

/-- Setting in a mode is a lookup, and a plain set where the mode allows it. -/
theorem dictSet_mode (storeVal : Store) (mode : SetMode) {n : Nat} {dict : Cell} {key : List Bool}
    {found : Option Slice} (h : Descends n dict key found) :
    dictSet storeVal mode (some dict) key n =
      if mode.allows found.isSome then dictSet storeVal .set (some dict) key n else .ok none := by
  induction h with
  | parts hload hparts =>
    rw [dictSet, dictSet, hload]
    simp only [if_pos hparts]
    cases mode <;> rfl
  | leaf hload hparts hn =>
    rw [dictSet, dictSet, hload]
    simp only [if_neg hparts, dif_pos hn]
    cases mode <;> rfl
  | @fork n dict c1 c2 refs key label found hload hparts hn hrefs _ ih =>
    rw [dictSet, dictSet, hload]
    simp only [if_neg hparts, dif_neg hn, hrefs]
    -- the other side of the fork does not matter
    cases hbit : key.getD label.lBits false <;>
      · simp only [hbit, Bool.false_eq_true, if_false, if_true] at ih ⊢
        rw [ih]
        cases mode.allows found.isSome <;> rfl

/-! ## Deletion erases -/

/-- A key that is not found is not deleted. -/
theorem dictLookupDelete_none {n : Nat} {dict : Cell} {key : List Bool} {found : Option Slice}
    (h : Descends n dict key found) (hfound : found = none) :
    dictLookupDelete (some dict) key n = .ok none := by
  induction h with
  | parts hload hparts =>
    rw [dictLookupDelete, hload]
    exact if_pos hparts
  | leaf => cases hfound
  | fork hload hparts hn hrefs _ ih =>
    rw [dictLookupDelete, hload]
    simp only [if_neg hparts, dif_neg hn, hrefs, ih hfound]
    rfl

variable {α : Type} {enc : α → Slice}

theorem writes_finishCreateFork_iff {f : CellBuilder → Except DictError CellBuilder}
    {code : List Bool} (hf : Writes f code []) (c1 c2 : Cell) {c : Cell} :
    (f empty >>= finishCreateFork c1 c2) = .ok c ↔ c = .mk code [c1, c2] ∧ CellFits c := by
  have hstores := (Stores.storeRefBool c1).and (Stores.storeRefBool c2)
  by_cases hroom : empty.canExtendBy code.length 0
  · have hrefs : (empty.append code [] hroom).canExtendBy 0 2 :=
      ⟨Nat.zero_le _, show 2 ≤ maxRefs by decide⟩
    have heq := hstores.eq_append hrefs
    rw [hf.fits empty hroom, Ton.ok_bind, finishCreateFork, heq]
    simp [finalize_ok_iff]
  · obtain ⟨e, he⟩ := hf.refused empty hroom
    rw [he]
    refine iff_of_false (fun h => by cases h) ?_
    rintro ⟨rfl, hbits, -, -⟩
    exact hroom ⟨hbits, Nat.zero_le _⟩

/-- The fork is written again with the tree that is left on its side. -/
theorem writeSide_ok_iff {s key : List Bool} {m n : Nat} (hkey : s <+: key)
    (hn : n = s.length + (m + 1)) (hle : n ≤ maxKeyBits) (b : Bool) (t t' : HmEdge α) {c : Cell} :
    writeSide key s.length n b (t.cell enc m) (t'.cell enc m) = .ok c ↔
      c = (HmEdge.forkOn s b t t').cell enc n ∧ CellFits c := by
  have hw := writes_appendDictLabel key hkey.length_le (show s.length ≤ n by omega) hle
  rw [← List.prefix_iff_eq_take.1 hkey] at hw
  have hcell (l r : HmEdge α) : (HmEdge.fork s l r).cell enc n =
      .mk (HmLabel.shortest n s) [l.cell enc m, r.cell enc m] := HmEdge.cell_fork hn l r
  cases b
  · rw [show HmEdge.forkOn s false t t' = .fork s t t' from rfl, hcell]
    exact writes_finishCreateFork_iff hw _ _
  · rw [show HmEdge.forkOn s true t t' = .fork s t' t from rfl, hcell]
    exact writes_finishCreateFork_iff hw _ _

/-- The two edges become one, with what followed the lower one. -/
theorem mergeEdges_ok_iff {s k : List Bool} {m n : Nat} (hn : n = s.length + (m + 1))
    (hle : n ≤ maxKeyBits) (c : Bool) {t : HmEdge α} (ht : t.HasKeyLength m) {d : Cell} :
    mergeEdges (s ++ c :: k) s.length n c (t.cell enc m) = .ok d ↔
      d = (t.withLabel (s ++ (!c) :: t.label)).cell enc n ∧ CellFits d := by
  have hm : n - s.length - 1 = m := by omega
  have hlabel := HmEdge.length_label_le ht
  obtain ⟨label2, hload, hreads⟩ := load_cell enc (show m ≤ maxKeyBits by omega) ht
  have hlen : (s ++ (!c) :: t.label).length ≤ n := by
    rw [List.length_append, List.length_cons]
    omega
  have hw := writes_appendDictLabel (s ++ (!c) :: t.label) le_rfl hlen hle
  rw [List.take_length] at hw
  rw [mergeEdges, hm, hload, Ton.ok_bind, hreads.extractLabel]
  simp only [List.take_left]
  have hbelow : n - (s ++ (!c) :: t.label).length - 1 = m - t.label.length - 1 := by
    rw [List.length_append, List.length_cons]
    omega
  rw [HmEdge.cell_eq enc n, HmEdge.label_withLabel, HmEdge.payload_withLabel, hbelow]
  exact writes_finalize_iff hw _

/-- Under a longer label, only the first cell of a tree is another one. -/
theorem allCells_merged {P : Cell → Prop} {t : HmEdge α} {m n : Nat} (ht : t.HasKeyLength m)
    {s : List Bool} (hn : n = s.length + (m + 1)) (c : Bool) (h : t.AllCells P enc m) :
    (t.withLabel (s ++ c :: t.label)).AllCells P enc n ↔
      P ((t.withLabel (s ++ c :: t.label)).cell enc n) := by
  cases t with
  | leaf s' v => exact Iff.rfl
  | fork s' l r =>
    obtain ⟨j, hj, -, -⟩ := ht
    have hsides := ((HmEdge.allCells_fork hj l r).1 h).2
    have hlen : n = (s ++ c :: s').length + (j + 1) := by
      rw [List.length_append, List.length_cons]
      omega
    exact (HmEdge.allCells_fork hlen l r).trans (and_iff_left hsides)

theorem dictLookupDelete_leaf {key : List Bool} (hn : key.length ≤ maxKeyBits) (v : α) :
    dictLookupDelete (some ((HmEdge.leaf key v).cell enc key.length)) key key.length =
      .ok (some (enc v, none)) := by
  have ht : (HmEdge.leaf key v).HasKeyLength key.length := rfl
  obtain ⟨label, hload, hreads⟩ := load_cell enc hn ht
  have hself := commonLength_append key []
  rw [List.append_nil] at hself
  have hpfx : label.commonPrefixLen key = key.length := by
    rw [commonPrefixLen_eq hreads, HmEdge.label, hself]
  have hbits : label.lBits = key.length := hreads.lBits
  rw [dictLookupDelete, hload]
  simp only [hpfx, hbits, Nat.lt_irrefl, if_false, dif_pos, hreads.skipLabel]
  rfl

theorem dictLookupDelete_fork {m : Nat} {s : List Bool} {t other : HmEdge α}
    (ht : t.HasKeyLength m) (hother : other.HasKeyLength m)
    (hn : s.length + (m + 1) ≤ maxKeyBits) (c : Bool) (k : List Bool) :
    dictLookupDelete (some ((HmEdge.forkOn s c t other).cell enc (s.length + (m + 1))))
        (s ++ c :: k) (s.length + (m + 1)) =
      dictLookupDelete (some (t.cell enc m)) k m >>=
        rebuild (s ++ c :: k) s.length (s.length + (m + 1)) c (other.cell enc m) := by
  obtain ⟨label, hload, hreads⟩ := load_cell enc hn
    (HmEdge.hasKeyLength_forkOn (b := c) ht hother)
  have hlabel : (HmEdge.forkOn s c t other).label = s := by cases c <;> rfl
  have hm : s.length + (m + 1) - s.length - 1 = m := by omega
  rw [hlabel, hm] at hreads
  have hpfx : label.commonPrefixLen (s ++ c :: k) = s.length := by
    rw [commonPrefixLen_eq hreads, commonLength_append]
  have hne : ¬ s.length = s.length + (m + 1) := by omega
  rw [dictLookupDelete, hload]
  simp only [hpfx, hreads.lBits, Nat.lt_irrefl, if_false, dif_neg hne, HmEdge.drop_append_cons,
    HmEdge.getD_append_cons, hm]
  cases c
  · rw [show label.remainder.refs = [t.cell enc m, other.cell enc m] from hreads.refs]
    rfl
  · rw [show label.remainder.refs = [other.cell enc m, t.cell enc m] from hreads.refs]
    rfl

/-- Deletion erases the key and returns its value, if what is left fits. -/
theorem dictLookupDelete_cell {v : α} {n : Nat} {t : HmEdge α} {key : List Bool}
    {r : Option (HmEdge α)} (h : HmEdge.Erases v n t key r) (hn : n ≤ maxKeyBits)
    (hfits : t.AllCells CellFits enc n) {x : Option (Slice × Option Cell)} :
    dictLookupDelete (some (t.cell enc n)) key n = .ok x ↔
      x = some (enc v, r.map (HmEdge.cell enc n)) ∧
        ∀ t', r = some t' → t'.AllCells CellFits enc n := by
  induction h generalizing x with
  | leaf =>
    rw [dictLookupDelete_leaf hn, Except.ok.injEq, eq_comm]
    exact (and_iff_left nofun).symm
  | @merge m s k c other hother hk =>
    obtain ⟨-, -, hfitOther⟩ := (HmEdge.allCells_forkOn rfl c _ other).1 hfits
    have hleaf : (HmEdge.leaf k v).HasKeyLength m := hk
    have hm : m ≤ maxKeyBits := by omega
    subst hk
    rw [dictLookupDelete_fork hleaf hother hn, dictLookupDelete_leaf hm, Ton.ok_bind, rebuild,
      Ton.bind_ok_iff]
    simp only [mergeEdges_ok_iff rfl hn c hother, Option.some.injEq, forall_eq',
      allCells_merged hother rfl (!c) hfitOther]
    constructor
    · rintro ⟨d, ⟨rfl, hd⟩, hx⟩
      exact ⟨(Except.ok.inj hx).symm, hd⟩
    · rintro ⟨rfl, hd⟩
      exact ⟨_, ⟨rfl, hd⟩, rfl⟩
  | @inFork m s k c t t' other hlow hother hk _ ih =>
    obtain ⟨-, hfit, hfitOther⟩ := (HmEdge.allCells_forkOn rfl c t other).1 hfits
    rw [dictLookupDelete_fork hlow hother hn, Ton.bind_ok_iff]
    simp only [ih (by omega) hfit, Option.some.injEq, forall_eq', exists_eq_left, and_assoc,
      Option.map_some, HmEdge.allCells_forkOn rfl, hfitOther, and_true]
    have hpre : s <+: s ++ c :: k := List.prefix_append _ _
    constructor
    · rintro ⟨hbelow, hy⟩
      obtain ⟨d, hd, hx⟩ := Ton.bind_ok_iff.1 hy
      obtain ⟨rfl, hcell⟩ := (writeSide_ok_iff hpre rfl hn c t' other).1 hd
      exact ⟨(Except.ok.inj hx).symm, hcell, hbelow⟩
    · rintro ⟨rfl, hcell, hbelow⟩
      have hside := (writeSide_ok_iff hpre rfl hn c t' other).2 ⟨rfl, hcell⟩
      exact ⟨hbelow, Ton.bind_ok_iff.2 ⟨_, hside, rfl⟩⟩

/-! ## The dictionary of a tree -/

/-- A tree whose cells are within the limits, or none. -/
def Spelled (enc : α → Slice) (n : Nat) (t : Option (HmEdge α)) : Prop :=
  ∀ t', t = some t' → t'.HasKeyLength n ∧ t'.AllCells CellFits enc n

theorem Spelled.hasKeyLength {n : Nat} {t : Option (HmEdge α)} (h : Spelled enc n t) :
    ∀ t', t = some t' → t'.HasKeyLength n := fun t' ht' => (h t' ht').1

theorem lookupFrom_cell {n : Nat} (hn : n ≤ maxKeyBits) {t : HmEdge α} (ht : t.HasKeyLength n)
    {key : List Bool} (hkey : key.length = n) :
    lookupFrom (t.cell enc n) key n = .ok ((t.find key).map enc) := by
  have hspelled : Hashmap (fun s v => s = enc v) n (t.cell enc n).toSlice t :=
    (HmEdge.shortHashmap_cell enc (fun _ => rfl) ht).hashmap
  rcases lookupFrom_hashmap hn hspelled hkey with ⟨hfind, hlookup⟩ | ⟨s, v, hfind, rfl, hlookup⟩
  · rw [hfind, hlookup]
    rfl
  · rw [hfind, hlookup]
    rfl

theorem descends_cell {n : Nat} (hn : n ≤ maxKeyBits) {t : HmEdge α} (ht : t.HasKeyLength n)
    {key : List Bool} (hkey : key.length = n) :
    Descends n (t.cell enc n) key ((t.find key).map enc) :=
  descends_of_lookupFrom hkey (lookupFrom_cell hn ht hkey)

theorem lookup_spec {n : Nat} (hn : n ≤ maxKeyBits) {t : Option (HmEdge α)} (ht : Spelled enc n t)
    (key : List Bool) :
    lookup n (t.map (HmEdge.cell enc n)) key = .ok ((HmEdge.findIn t key).map enc) := by
  by_cases hkey : key.length = n
  · rw [lookup.eq_def, if_neg (not_not.2 hkey)]
    cases t with
    | none => rfl
    | some t => exact lookupFrom_cell hn (ht t rfl).1 hkey
  · rw [lookup.eq_def, if_pos hkey, HmEdge.findIn_of_length_ne ht.hasKeyLength hkey]
    rfl

/-- Setting a key spells the tree with the key in it, if that fits and the mode allows it. -/
theorem dictSet_spec {n : Nat} (hn : n ≤ maxKeyBits) {t : Option (HmEdge α)}
    (ht : Spelled enc n t) {key : List Bool} (hkey : key.length = n) (v : α) (mode : SetMode) :
    (mode.allows (HmEdge.findIn t key).isSome = false ∧
      dictSet (addSliceBool (enc v)) mode (t.map (HmEdge.cell enc n)) key n = .ok none) ∨
    (mode.allows (HmEdge.findIn t key).isSome = true ∧ ∀ {r},
      dictSet (addSliceBool (enc v)) mode (t.map (HmEdge.cell enc n)) key n = .ok r ↔
        r = some ((HmEdge.insertIn key v t).cell enc n) ∧
          (HmEdge.insertIn key v t).AllCells CellFits enc n) := by
  cases t with
  | none =>
    show (mode.allows false = false ∧ dictSet (addSliceBool (enc v)) mode none key n = .ok none) ∨ _
    by_cases hmode : mode = .replace
    · subst hmode
      exact .inl ⟨rfl, by rw [dictSet]; rfl⟩
    · refine .inr ⟨by cases mode <;> first | rfl | exact absurd rfl hmode, fun {r} => ?_⟩
      show dictSet (addSliceBool (enc v)) mode none key n = .ok r ↔ _
      have hleaf := @writeLeaf_ok_iff α enc key n hkey hn v
      rw [dictSet]
      simp only [if_neg hmode, Ton.bind_ok_iff]
      constructor
      · rintro ⟨c, hc, hr⟩
        obtain ⟨rfl, hfits⟩ := hleaf.1 hc
        exact ⟨(Except.ok.inj hr).symm, hfits⟩
      · rintro ⟨rfl, hfits⟩
        exact ⟨_, hleaf.2 ⟨rfl, hfits⟩, rfl⟩
  | some t =>
    obtain ⟨hlength, hfits⟩ := ht t rfl
    have hset := dictSet_mode (addSliceBool (enc v)) mode (@descends_cell α enc n hn t hlength key
      hkey)
    rw [Option.isSome_map] at hset
    show (mode.allows (t.find key).isSome = false ∧
        dictSet (addSliceBool (enc v)) mode (some (t.cell enc n)) key n = .ok none) ∨ _
    cases hmode : mode.allows (t.find key).isSome with
    | false =>
      rw [hmode] at hset
      exact .inl ⟨rfl, hset⟩
    | true =>
      rw [hmode] at hset
      refine .inr ⟨hmode, fun {r} => ?_⟩
      show dictSet (addSliceBool (enc v)) mode (some (t.cell enc n)) key n = .ok r ↔ _
      rw [hset, if_pos rfl]
      exact dictSet_cell (HmEdge.inserts_insert hlength hkey v) hn hlength hfits

/-- A computation whose results are known gives its result, or throws. -/
theorem ok_or_error {β : Type} {x : Except DictError β} {a : β} {P : Prop}
    (h : ∀ {r}, x = .ok r ↔ r = a ∧ P) : (P ∧ x = .ok a) ∨ (¬ P ∧ ∃ e, x = .error e) := by
  by_cases hP : P
  · exact .inl ⟨hP, h.2 ⟨rfl, hP⟩⟩
  · refine .inr ⟨hP, ?_⟩
    cases hx : x with
    | ok r => exact absurd (h.1 hx).2 hP
    | error e => exact ⟨e, rfl⟩

end Vm.Dict
