import TopWallets.Exceptions
import TopWallets.Vm
import TopWallets.Lib.HashmapTree

/- The native cell dictionary (`vm::Dictionary`): `dict_set` and the labels it
   writes.

   A key is set by reading the labels on its way down and writing them again on
   the way up; where the key parts from a label, the edge is cut in two and the
   remainder gets a label of its own. Main result: `dict_set` inserts into the
   tree that a cell spells, and spells the result with the shortest labels
   (`dictSet_cell`), so a run of insertions spells the tree of what was inserted
   (`dictionary_cell`).

   Correspondence (C++ ↔ Lean):
     `ensure_pass` of a store                ↔ `CellBuilder.ensurePass`
     `bits_memscan`, `common_prefix_len`     ↔ `bitsMemscan`, `commonLength`
     `LabelParser`, `parse_label`            ↔ `LabelParser`, `parseLabel`
     `validate_ext`                          ↔ `LabelParser.validateExt`
     `append_dict_label_same`, `append_dict_label`
                                             ↔ `appendDictLabelSame`, `appendDictLabel`
     `dict_set`, `Dictionary::set`           ↔ `dictSet`, `set`
   The steps of `dict_set` that write a cell are `writeLeaf`, `writeLower` and
   `writeFork`. -/
namespace Vm

/-- The codes of `VmError`, and `CellWriteError`. -/
inductive DictError where
  | cellOv
  | cellUnd
  | dictErr
  | cellWrite
  deriving DecidableEq, Repr

namespace CellBuilder

def ensurePass (f : Store) (b : CellBuilder) : Except DictError CellBuilder :=
  if (f b).1 then .ok (f b).2 else .error .cellWrite

def storeLong (val : Int) (bits : Nat) : CellBuilder → Except DictError CellBuilder :=
  ensurePass (storeLongBool val bits)

def storeBits (bs : List Bool) : CellBuilder → Except DictError CellBuilder :=
  ensurePass (storeBitsBool bs)

def storeRef (ref : Cell) : CellBuilder → Except DictError CellBuilder :=
  ensurePass (storeRefBool (some ref))

def finalize (b : CellBuilder) : Except DictError Cell :=
  match b.finalizeNovm with
  | .ok cell => .ok cell
  | .error _ => .error .cellWrite

/-- `cell_builder_add_slice_bool`. -/
def addSliceBool (cs : Slice) : Store := storeAll cs.bits cs.refs

end CellBuilder

namespace Dict
open CellBuilder

def maxKeyBits : Nat := 1023

def countLeadingZeroes32 (x : Nat) : Nat := 32 - x.size

/-- The number of leading bits equal to `cmpTo`. -/
def bitsMemscan (bits : List Bool) (cmpTo : Bool) : Nat := (bits.takeWhile (· == cmpTo)).length

def advance (bits : Nat) (cs : Slice) : Slice :=
  if bits ≤ cs.bits.length then ⟨cs.bits.drop bits, cs.refs⟩ else cs

/-! ## Labels -/

structure LabelParser (maxLabelLen : Nat) where
  remainder : Slice
  lSame : Nat
  lBits : Nat
  lBits_le : lBits ≤ maxLabelLen

/-- The label at the start of a slice. -/
def parseLabel (cs : Slice) (maxLabelLen : Nat) : Option (LabelParser maxLabelLen) :=
  let lenBits := 32 - countLeadingZeroes32 maxLabelLen
  match cs.bits with
  | false :: false :: _ => some ⟨advance 2 cs, 0, 0, Nat.zero_le _⟩
  | false :: true :: _ =>
    let cs := advance 1 cs
    let lBits := bitsMemscan cs.bits true
    if h : lBits ≤ maxLabelLen ∧ 2 * lBits + 1 ≤ cs.bits.length then
      some ⟨advance (lBits + 1) cs, 0, lBits, h.1⟩
    else none
  | true :: false :: _ =>
    match fetchUlongBool lenBits (advance 2 cs) with
    | some (lBits, cs) =>
      if h : lBits ≤ maxLabelLen ∧ lBits ≤ cs.bits.length then some ⟨cs, 0, lBits, h.1⟩ else none
    | none => none
  | true :: true :: _ =>
    match fetchUlongBool 3 cs with
    | some (lSame, cs) =>
      match fetchUlongBool lenBits cs with
      | some (lBits, cs) => if h : lBits ≤ maxLabelLen then some ⟨cs, lSame, lBits, h⟩ else none
      | none => none
    | none => none
  | _ => none

namespace LabelParser
variable {n : Nat}

/-- The bits of the label that are still in front of the remainder. -/
def sBits (label : LabelParser n) : Nat := if label.lSame ≠ 0 then 0 else label.lBits

def validateExt (label : LabelParser n) : Except DictError (LabelParser n) :=
  if label.lBits < n ∧
      (label.remainder.bits.length ≠ label.sBits ∨ label.remainder.refs.length ≠ 2) then
    .error .dictErr
  else .ok label

/-- `LabelParser{cell, n}`. -/
def load (dict : Cell) (n : Nat) : Except DictError (LabelParser n) :=
  match parseLabel dict.toSlice n with
  | some label => label.validateExt
  | none => .error .cellUnd

def commonPrefixLen (label : LabelParser n) (key : List Bool) : Nat :=
  if label.lSame ≠ 0 then bitsMemscan (key.take label.lBits) (label.lSame % 2 == 1)
  else commonLength (label.remainder.bits.take label.lBits) (key.take label.lBits)

end LabelParser

def appendDictLabelSame (same : Bool) (len maxLen : Nat) (cb : CellBuilder) :
    Except DictError CellBuilder :=
  let k := 32 - countLeadingZeroes32 maxLen
  if 1 < len ∧ k < 2 * len - 1 then do
    storeLong len k (← storeLong (6 + same.toNat) 3 cb)
  else if k < len then do
    storeLong (-same.toNat) len (← storeLong len k (← storeLong 2 2 cb))
  else do
    storeLong (-same.toNat) len (← storeLong (-2) (len + 1) (← storeLong 0 1 cb))

/-- The label is the first `len` bits of `label`. -/
def appendDictLabel (label : List Bool) (len maxLen : Nat) (cb : CellBuilder) :
    Except DictError CellBuilder :=
  let k := 32 - countLeadingZeroes32 maxLen
  if 0 < len ∧ bitsMemscan (label.take len) (label.headD false) = len then
    appendDictLabelSame (label.headD false) len maxLen cb
  else do
    let cb ←
      if k < len then do storeLong len k (← storeLong 2 2 cb)
      else do storeLong (-2) (len + 1) (← storeLong 0 1 cb)
    if maxBits - cb.bits.length < len then .error .cellOv
    else storeBits (label.take len) cb

/-! ## Setting a key -/

inductive SetMode where
  | set
  | replace
  | add
  deriving DecidableEq, Repr

/-- A store whose refusal is a `VmError`. -/
def storeOrThrow (f : Store) (cb : CellBuilder) : Except DictError CellBuilder :=
  if (f cb).1 then .ok (f cb).2 else .error .cellOv

/-- The cell of a key, or of the rest of one. -/
def writeLeaf (key : List Bool) (n : Nat) (storeVal : Store) : Except DictError Cell := do
  let cb ← appendDictLabel key n n empty
  finalize (← storeOrThrow storeVal cb)

/-- The lower portion of an edge that is cut after `pfxLen` bits. -/
def writeLower {n : Nat} (label : LabelParser n) (pfxLen m : Nat) : Except DictError Cell :=
  let t := label.lBits - pfxLen - 1
  if label.lSame ≠ 0 then do
    let cb ← appendDictLabelSame (label.lSame % 2 == 1) t m empty
    finalize (← storeOrThrow (addSliceBool label.remainder) cb)
  else do
    let cs := advance (pfxLen + 1) label.remainder
    let cb ← appendDictLabel cs.bits t m empty
    finalize (← storeOrThrow (addSliceBool (advance t cs)) cb)

def writeFork (key : List Bool) (len n : Nat) (c1 c2 : Cell) : Except DictError Cell := do
  let cb ← appendDictLabel key len n empty
  finalize (← storeRef c2 (← storeRef c1 cb))

/-- The dictionary with the key set, or `none` where it stays as it is. -/
def dictSet (storeVal : Store) (mode : SetMode) (dict : Option Cell) (key : List Bool) (n : Nat) :
    Except DictError (Option Cell) :=
  match dict with
  | none => if mode = .replace then .ok none else do return some (← writeLeaf key n storeVal)
  | some dict =>
    match LabelParser.load dict n with
    | .error e => .error e
    | .ok label =>
      let pfxLen := label.commonPrefixLen key
      if pfxLen < label.lBits then
        if mode = .replace then .ok none
        else do
          let m := n - pfxLen - 1
          let c1 ← writeLeaf (key.drop (pfxLen + 1)) m storeVal
          let c2 ← writeLower label pfxLen m
          if key.getD pfxLen false then return some (← writeFork key pfxLen n c2 c1)
          else return some (← writeFork key pfxLen n c1 c2)
      else if h : label.lBits = n then
        if mode = .add then .ok none else do return some (← writeLeaf key n storeVal)
      else
        have : n - label.lBits - 1 < n := by have := label.lBits_le; omega
        match label.remainder.refs with
        | c1 :: c2 :: _ =>
          if key.getD label.lBits false then do
            match ← dictSet storeVal mode (some c2) (key.drop (label.lBits + 1))
                (n - label.lBits - 1) with
            | none => return none
            | some c2 => return some (← writeFork key label.lBits n c1 c2)
          else do
            match ← dictSet storeVal mode (some c1) (key.drop (label.lBits + 1))
                (n - label.lBits - 1) with
            | none => return none
            | some c1 => return some (← writeFork key label.lBits n c1 c2)
        | _ => .error .cellUnd
termination_by n

/-- `Dictionary::set`. -/
def set (mode : SetMode) (n : Nat) (root : Option Cell) (key : List Bool) (value : Slice) :
    Except DictError (Option Cell) := do
  match ← dictSet (addSliceBool value) mode root key n with
  | none => return root
  | some cell => return some cell

/-- The dictionary that keys of `n` bits are set in, one after the other. -/
def dictionary (n : Nat) (es : List (List Bool × Slice)) : Except DictError (Option Cell) :=
  es.foldlM (fun root e => set .set n root e.1 e.2) none

/-! ## What is written -/

/-- `Writes f bs rs`: `f` appends the bits `bs` and the references `rs` where they fit, and refuses
where they do not. -/
structure Writes (f : CellBuilder → Except DictError CellBuilder) (bs : List Bool)
    (rs : List Cell) : Prop where
  fits : ∀ b (h : b.canExtendBy bs.length rs.length), f b = .ok (b.append bs rs h)
  refused : ∀ b, ¬ b.canExtendBy bs.length rs.length → ∃ e, f b = .error e

namespace Writes
variable {f g : CellBuilder → Except DictError CellBuilder} {bs cs : List Bool} {rs qs : List Cell}

theorem ensurePass {f : Store} (hf : Stores f bs rs) : Writes (ensurePass f) bs rs where
  fits b h := by
    rw [CellBuilder.ensurePass, hf.eq_append h]
    rfl
  refused b h := by
    have hrefused : ¬ (f b).1 = true := by
      obtain ⟨-, -, -, -, -, -, hok, -⟩ := hf b
      exact mt hok.1 h
    exact ⟨.cellWrite, by rw [CellBuilder.ensurePass, if_neg hrefused]⟩

theorem storeLong (val : Int) (bits : Nat) (h : bits ≤ 64) :
    Writes (storeLong val bits) (longBits val bits) [] := ensurePass (.storeLongBool val bits h)

theorem storeBits (bs : List Bool) : Writes (storeBits bs) bs [] := ensurePass (.storeAll bs [])

theorem storeRef (ref : Cell) : Writes (storeRef ref) [] [ref] := ensurePass (.storeRefBool ref)

theorem bind (hf : Writes f bs rs) (hg : Writes g cs qs) :
    Writes (fun b => f b >>= g) (bs ++ cs) (rs ++ qs) where
  fits b h := by
    have hroom := h
    simp only [canExtendBy, List.length_append] at hroom
    have hfirst : b.canExtendBy bs.length rs.length := ⟨by omega, by omega⟩
    have hsecond : (b.append bs rs hfirst).canExtendBy cs.length qs.length := by
      simp only [canExtendBy, bits_append, refs_append, List.length_append]
      omega
    show f b >>= g = _
    rw [hf.fits b hfirst]
    exact (hg.fits _ hsecond).trans (congrArg Except.ok
      (CellBuilder.ext (List.append_assoc ..) (List.append_assoc ..)))
  refused b h := by
    by_cases hfirst : b.canExtendBy bs.length rs.length
    · have hsecond : ¬ (b.append bs rs hfirst).canExtendBy cs.length qs.length := by
        intro hroom
        apply h
        simp only [canExtendBy, bits_append, refs_append, List.length_append] at hfirst hroom ⊢
        omega
      rw [hf.fits b hfirst]
      exact hg.refused _ hsecond
    · obtain ⟨e, he⟩ := hf.refused b hfirst
      exact ⟨e, by rw [he]; rfl⟩

theorem congr (hf : Writes f bs rs) (h : ∀ b, g b = f b) : Writes g bs rs := by
  obtain rfl : g = f := funext h
  exact hf

end Writes

theorem lenBits_eq {m : Nat} (h : m ≤ maxKeyBits) : 32 - countLeadingZeroes32 m = lenBits m := by
  have hsize : m.size ≤ 32 := Nat.size_le.2 (h.trans_lt (by decide))
  have hle : lenBits m ≤ m.size := (Nat.clog_le_iff_le_pow (by decide)).2 (Nat.lt_size_self m)
  have hge : m.size ≤ lenBits m := Nat.size_le.2 (lt_two_pow_lenBits (Nat.le_refl m))
  rw [countLeadingZeroes32]
  omega

theorem lenBits_le_ten {m : Nat} (h : m ≤ maxKeyBits) : lenBits m ≤ 10 :=
  (Nat.clog_le_iff_le_pow (by decide)).2 (Nat.succ_le_succ h)

theorem longBits_natCast {n : Nat} (h : n < 2 ^ 64) (bits : Nat) :
    longBits n bits = BitField.ofNat bits n := by
  have hmod : ((n : Int) % 2 ^ 64).toNat = n := by omega
  rw [longBits, hmod]

/-- All bits of `-1` are ones. -/
theorem longBits_neg_toNat (same : Bool) {len : Nat} (h : len ≤ 64) :
    longBits (-same.toNat) len = List.replicate len same := by
  cases same
  · exact BitField.ofNat_zero len
  · exact BitField.ofNat_two_pow_sub_one h

/-- A unary length: ones, and a zero. -/
theorem longBits_neg_two {len : Nat} (h : len ≤ 63) :
    longBits (-2) (len + 1) = List.replicate len true ++ [false] := by
  have hval : ((-2 : Int) % 2 ^ 64).toNat = 2 * (2 ^ 63 - 1) := by decide
  rw [longBits, hval, BitField.ofNat_two_mul, BitField.ofNat_two_pow_sub_one h]

/-! A label in each of its three forms. -/

theorem writes_short (len : Nat) (h : len ≤ 63) {f : CellBuilder → Except DictError CellBuilder}
    {bs : List Bool} (hf : Writes f bs []) :
    Writes (fun cb => (do f (← storeLong (-2) (len + 1) (← storeLong 0 1 cb))))
      (false :: (List.replicate len true ++ false :: bs)) [] := by
  have hw := (Writes.storeLong 0 1 (by decide)).bind
    ((Writes.storeLong (-2) (len + 1) (by omega)).bind hf)
  rw [longBits_neg_two h, List.append_assoc] at hw
  exact hw

theorem writes_long {len m : Nat} (hlen : len ≤ m) (hm : m ≤ maxKeyBits)
    {f : CellBuilder → Except DictError CellBuilder} {bs : List Bool} (hf : Writes f bs []) :
    Writes (fun cb => (do f (← storeLong len (lenBits m) (← storeLong 2 2 cb))))
      (true :: false :: (BitField.ofNat (lenBits m) len ++ bs)) [] := by
  have hbits := lenBits_le_ten hm
  have hw := (Writes.storeLong 2 2 (by decide)).bind
    ((Writes.storeLong len (lenBits m) (by omega)).bind hf)
  rw [longBits_natCast ((hlen.trans hm).trans_lt (by decide))] at hw
  exact hw

theorem writes_same {len m : Nat} (hlen : len ≤ m) (hm : m ≤ maxKeyBits) (same : Bool) :
    Writes (fun cb => (do storeLong len (lenBits m) (← storeLong (6 + same.toNat) 3 cb)))
      (true :: true :: same :: BitField.ofNat (lenBits m) len) [] := by
  have hbits := lenBits_le_ten hm
  have hw := (Writes.storeLong (6 + same.toNat) 3 (by decide)).bind
    (Writes.storeLong len (lenBits m) (by omega))
  have htype : longBits (6 + same.toNat) 3 = [true, true, same] := by cases same <;> decide
  rw [longBits_natCast ((hlen.trans hm).trans_lt (by decide)), htype] at hw
  exact hw

theorem writes_appendDictLabelSame {len m : Nat} (hlen : len ≤ m) (hm : m ≤ maxKeyBits)
    (same : Bool) :
    Writes (appendDictLabelSame same len m)
      (HmLabel.shortest m (List.replicate len same)) [] := by
  have hbits := lenBits_le_ten hm
  have hconst : List.replicate len same =
      List.replicate len ((List.replicate len same).headD false) := by
    cases len <;> rfl
  unfold appendDictLabelSame HmLabel.shortest
  simp only [List.length_replicate, ← hconst, and_true, lenBits_eq hm]
  by_cases hsame : 1 < len ∧ lenBits m < 2 * len - 1
  · have hhead : (List.replicate len same).headD false = same := by
      cases len with
      | zero => omega
      | succ len => rfl
    simp only [if_pos hsame, hhead]
    exact writes_same hlen hm same
  · -- 0 and -1 have the bit in every digit
    simp only [if_neg hsame]
    have hdigits := Writes.storeLong (-same.toNat) len (by omega)
    rw [longBits_neg_toNat same (by omega)] at hdigits
    by_cases hlong : lenBits m < len
    · simp only [if_pos hlong]
      exact writes_long hlen hm hdigits
    · simp only [if_neg hlong]
      exact writes_short _ (by omega) hdigits

/-- The bits that are equal to one bit are those in common with a run of it. -/
theorem bitsMemscan_take (v : Bool) (key : List Bool) (len : Nat) :
    bitsMemscan (key.take len) v = commonLength (List.replicate len v) key := by
  induction len generalizing key with
  | zero => simp [bitsMemscan, commonLength]
  | succ len ih =>
    cases key with
    | nil => simp [bitsMemscan, commonLength, List.replicate_succ]
    | cons a key =>
      rw [List.replicate_succ, commonLength, ← ih]
      by_cases hav : a = v
      · simp [bitsMemscan, hav]
      · simp [bitsMemscan, hav, Ne.symm hav]

theorem bitsMemscan_eq_length_iff (bits : List Bool) (v : Bool) :
    bitsMemscan bits v = bits.length ↔ bits = List.replicate bits.length v := by
  induction bits with
  | nil => simp [bitsMemscan]
  | cons a bits ih =>
    rw [List.length_cons, List.replicate_succ, List.cons.injEq, ← ih, bitsMemscan, bitsMemscan]
    by_cases hav : a = v <;> simp [hav]

theorem writes_appendDictLabel (label : List Bool) {len m : Nat} (hlabel : len ≤ label.length)
    (hlen : len ≤ m) (hm : m ≤ maxKeyBits) :
    Writes (appendDictLabel label len m) (HmLabel.shortest m (label.take len)) [] := by
  have hbits := lenBits_le_ten hm
  have htake : (label.take len).length = len := List.length_take_of_le hlabel
  have hscan := bitsMemscan_eq_length_iff (label.take len) (label.headD false)
  rw [htake] at hscan
  by_cases hsame : 0 < len ∧ bitsMemscan (label.take len) (label.headD false) = len
  · have hw := writes_appendDictLabelSame hlen hm (label.headD false)
    rw [← hscan.1 hsame.2] at hw
    refine hw.congr fun b => ?_
    rw [appendDictLabel, if_pos hsame]
  · -- the digits are not all the same, so no run is the shortest label
    have hother : ¬ (1 < len ∧ lenBits m < 2 * len - 1 ∧
        label.take len = List.replicate len ((label.take len).headD false)) := by
      rintro ⟨hlt, -, heq⟩
      have hhead : (label.take len).headD false = label.headD false := by
        cases label with
        | nil => simp
        | cons a label =>
          cases len with
          | zero => omega
          | succ len => rfl
      rw [hhead] at heq
      exact hsame ⟨by omega, hscan.2 heq⟩
    have hdigits : Writes (fun cb => if maxBits - cb.bits.length < len then .error .cellOv
        else storeBits (label.take len) cb) (label.take len) [] := by
      refine ⟨fun b h => ?_, fun b h => ?_⟩
      · have hroom := h.1
        rw [htake] at hroom
        exact (if_neg (by omega)).trans ((Writes.storeBits _).fits b h)
      · by_cases hroom : maxBits - b.bits.length < len
        · exact ⟨.cellOv, if_pos hroom⟩
        · obtain ⟨e, he⟩ := (Writes.storeBits _).refused b h
          exact ⟨e, (if_neg hroom).trans he⟩
    unfold HmLabel.shortest
    rw [htake, if_neg hother]
    by_cases hlong : lenBits m < len
    · have hw := writes_long hlen hm hdigits
      rw [if_pos hlong]
      refine hw.congr fun b => ?_
      rw [appendDictLabel]
      simp only [if_neg hsame, lenBits_eq hm, if_pos hlong]
    · have hw := writes_short len (by omega) hdigits
      rw [if_neg hlong]
      refine hw.congr fun b => ?_
      rw [appendDictLabel]
      simp only [if_neg hsame, lenBits_eq hm, if_neg hlong]

/-! ## What is read -/

/-- The parser stands behind the label `s`: its bits are in front of `rest`, or they are all the
same and `rest` is all there is. -/
structure LabelParser.Reads {n : Nat} (label : LabelParser n) (s rest : List Bool)
    (refs : List Cell) : Prop where
  lBits : label.lBits = s.length
  refs : label.remainder.refs = refs
  bits : label.lSame = 0 ∧ label.remainder.bits = s ++ rest ∨
    ∃ v : Bool, label.lSame = 6 + v.toNat ∧ s = List.replicate s.length v ∧
      label.remainder.bits = rest

theorem bitsMemscan_unary (len : Nat) (bits : List Bool) :
    bitsMemscan (List.replicate len true ++ false :: bits) true = len := by
  induction len with
  | zero => rfl
  | succ len ih =>
    rw [bitsMemscan, List.replicate_succ, List.cons_append, List.takeWhile_cons_of_pos rfl,
      List.length_cons]
    exact congrArg (· + 1) ih

theorem advance_append (bits rest : List Bool) (refs : List Cell) :
    advance bits.length ⟨bits ++ rest, refs⟩ = ⟨rest, refs⟩ := by
  rw [advance, if_pos (by simp), List.drop_left]

theorem parseLabel_short {n len : Nat} {s : List Bool} (hs : s.length = len) (hlen : len ≤ n)
    (rest : List Bool) (refs : List Cell) :
    parseLabel ⟨false :: (List.replicate len true ++ false :: (s ++ rest)), refs⟩ n =
      some ⟨⟨s ++ rest, refs⟩, 0, len, hlen⟩ := by
  cases len with
  | zero => rfl
  | succ len =>
    have hstart : advance 1
        ⟨false :: (List.replicate (len + 1) true ++ false :: (s ++ rest)), refs⟩ =
        ⟨List.replicate (len + 1) true ++ false :: (s ++ rest), refs⟩ :=
      advance_append [false] _ refs
    have hlength : advance (len + 1 + 1)
        ⟨List.replicate (len + 1) true ++ false :: (s ++ rest), refs⟩ = ⟨s ++ rest, refs⟩ := by
      have hdrop := advance_append (List.replicate (len + 1) true ++ [false]) (s ++ rest) refs
      rw [List.length_append, List.length_replicate, List.length_singleton, List.append_assoc]
        at hdrop
      exact hdrop
    have hroom : 2 * (len + 1) + 1 ≤
        (List.replicate (len + 1) true ++ false :: (s ++ rest)).length := by
      simp only [List.length_append, List.length_replicate, List.length_cons]
      omega
    have hscan := bitsMemscan_unary (len + 1) (s ++ rest)
    simp only [List.replicate_succ, List.cons_append] at hstart hlength hroom hscan ⊢
    simp only [parseLabel, hstart, hscan, hlength]
    exact dif_pos ⟨hlen, hroom⟩

/-- The parser reads what the grammar allows. -/
theorem parseLabel_append {n : Nat} (hn : n ≤ maxKeyBits) {s code : List Bool}
    (h : HmLabel n s code) (rest : List Bool) (refs : List Cell) :
    ∃ label, parseLabel ⟨code ++ rest, refs⟩ n = some label ∧ label.Reads s rest refs := by
  have hbits := lenBits_le_ten hn
  cases h with
  | short hlen =>
    rw [List.cons_append, List.append_assoc, List.cons_append]
    exact ⟨_, parseLabel_short rfl hlen rest refs, rfl, rfl, .inl ⟨rfl, rfl⟩⟩
  | long hlen =>
    have hfetch := fetchUlongBool_ofNat (by omega) (lt_two_pow_lenBits hlen) (s ++ rest) refs
    have hstart :=
      advance_append [true, false] (BitField.ofNat (lenBits n) s.length ++ (s ++ rest)) refs
    refine ⟨⟨⟨s ++ rest, refs⟩, 0, s.length, hlen⟩, ?_, rfl, rfl, .inl ⟨rfl, rfl⟩⟩
    simp only [List.length_cons, List.length_nil, List.cons_append, List.nil_append] at hstart
    simp only [parseLabel, List.cons_append, List.append_assoc, hstart, lenBits_eq hn, hfetch]
    exact dif_pos ⟨hlen, by simp⟩
  | @same v len hlen =>
    have hfetch := fetchUlongBool_ofNat (by omega) (lt_two_pow_lenBits hlen) rest refs
    have htype (bits : List Bool) : fetchUlongBool 3 ⟨true :: true :: v :: bits, refs⟩ =
        some (6 + v.toNat, ⟨bits, refs⟩) := by
      have h3 : BitField.ofNat 3 (6 + v.toNat) = [true, true, v] := by cases v <;> rfl
      have hthree := fetchUlongBool_ofNat (w := 3) (n := 6 + v.toNat) (by decide)
        (by cases v <;> decide) bits refs
      rwa [h3] at hthree
    refine ⟨⟨⟨rest, refs⟩, 6 + v.toNat, len, hlen⟩, ?_, (List.length_replicate ..).symm, rfl,
      .inr ⟨v, rfl, by rw [List.length_replicate], rfl⟩⟩
    simp only [parseLabel, List.cons_append, htype, lenBits_eq hn, hfetch]
    exact dif_pos hlen

/-! ## What fits -/

variable {α : Type} {enc : α → Slice}

theorem finalize_ok_iff {b : CellBuilder} {c : Cell} :
    finalize b = .ok c ↔ c = .mk b.bits b.refs ∧ CellFits c := by
  rw [finalize, finalizeNovm]
  by_cases hdepth : Cell.depthRefs b.refs ≤ maxDepth
  · rw [if_pos hdepth, Except.ok.injEq, eq_comm]
    refine (and_iff_left_of_imp ?_).symm
    rintro rfl
    exact ⟨b.bits_le, b.refs_le, hdepth⟩
  · rw [if_neg hdepth]
    refine iff_of_false nofun ?_
    rintro ⟨rfl, -, -, hfits⟩
    exact hdepth hfits

/-- A cell of a label and what follows it is written if it fits. -/
theorem writes_finalize_iff {f : CellBuilder → Except DictError CellBuilder} {code : List Bool}
    (hf : Writes f code []) (cs : Slice) {c : Cell} :
    (do finalize (← storeOrThrow (addSliceBool cs) (← f empty))) = .ok c ↔
      c = .mk (code ++ cs.bits) cs.refs ∧ CellFits c := by
  by_cases hroom : empty.canExtendBy code.length 0
  swap
  · obtain ⟨e, he⟩ := hf.refused empty hroom
    rw [he]
    refine iff_of_false nofun ?_
    rintro ⟨rfl, hbits, -, -⟩
    rw [Cell.bits_mk, List.length_append] at hbits
    exact hroom ⟨(Nat.le_add_right ..).trans hbits, Nat.zero_le _⟩
  rw [hf.fits empty hroom]
  simp only [Ton.bind_ok_iff, Except.ok.injEq, exists_eq_left', storeOrThrow]
  by_cases hfit : (empty.append code [] hroom).canExtendBy cs.bits.length cs.refs.length
  · rw [addSliceBool, storeAll_eq hfit]
    simp [finalize_ok_iff]
  · rw [addSliceBool, storeAll_refused hfit]
    refine iff_of_false (by simp) ?_
    rintro ⟨rfl, hbits, hrefs, -⟩
    simp only [Cell.bits_mk, Cell.refs_mk, List.length_append] at hbits hrefs
    refine hfit ⟨?_, hrefs⟩
    simp only [bits_append, bits_empty, List.nil_append]
    omega

theorem writeLeaf_ok_iff {key : List Bool} {n : Nat} (hkey : key.length = n) (hn : n ≤ maxKeyBits)
    (v : α) {c : Cell} : writeLeaf key n (addSliceBool (enc v)) = .ok c ↔
      c = (HmEdge.leaf key v).cell enc n ∧ (HmEdge.leaf key v).AllCells CellFits enc n := by
  have hw := writes_appendDictLabel _ (Nat.le_of_eq hkey.symm) (Nat.le_refl n) hn
  rw [List.take_of_length_le (Nat.le_of_eq hkey)] at hw
  refine (writes_finalize_iff hw (enc v)).trans (and_congr_right ?_)
  rintro rfl
  rfl

theorem writeFork_ok_iff {s key : List Bool} {m n : Nat} (hkey : s <+: key)
    (hn : n = s.length + (m + 1)) (hle : n ≤ maxKeyBits) {l r : HmEdge α} {c : Cell} :
    writeFork key s.length n (l.cell enc m) (r.cell enc m) = .ok c ↔
      c = (HmEdge.fork s l r).cell enc n ∧ CellFits c := by
  have hw := writes_appendDictLabel key hkey.length_le (show s.length ≤ n by omega) hle
  rw [← List.prefix_iff_eq_take.1 hkey] at hw
  have hrefs := hw.bind ((Writes.storeRef (l.cell enc m)).bind (Writes.storeRef (r.cell enc m)))
  rw [HmEdge.cell_fork hn]
  by_cases hroom : empty.canExtendBy (HmLabel.shortest n s ++ ([] ++ [])).length 2
  · have hfork : writeFork key s.length n (l.cell enc m) (r.cell enc m) =
        finalize (empty.append _ ([] ++ ([l.cell enc m] ++ [r.cell enc m])) hroom) := by
      have hstores := congrArg (· >>= finalize) (hrefs.fits empty hroom)
      simp only [bind_assoc] at hstores
      exact hstores
    rw [hfork, finalize_ok_iff]
    simp
  · obtain ⟨e, he⟩ := hrefs.refused empty hroom
    have hfork : writeFork key s.length n (l.cell enc m) (r.cell enc m) = .error e := by
      have hstores := congrArg (· >>= finalize) he
      simp only [bind_assoc] at hstores
      exact hstores
    rw [hfork]
    refine iff_of_false nofun ?_
    rintro ⟨rfl, hbits, -, -⟩
    apply hroom
    rw [List.append_nil, List.append_nil]
    exact ⟨hbits, by decide⟩

/-- Where the label goes on with the key, the parser counts the bits they have in common. -/
theorem commonPrefixLen_eq {n : Nat} {label : LabelParser n} {s rest : List Bool}
    {refs : List Cell} (h : label.Reads s rest refs) (key : List Bool) :
    label.commonPrefixLen key = commonLength s key := by
  rw [LabelParser.commonPrefixLen, h.lBits]
  rcases h.bits with ⟨hsame, hbits⟩ | ⟨v, hsame, hs, -⟩
  · rw [if_neg (by omega), hbits, List.take_left, commonLength_take]
  · have hv : (label.lSame % 2 == 1) = v := by rw [hsame]; cases v <;> rfl
    rw [if_pos (by omega), hv, bitsMemscan_take, ← hs]

/-- The lower portion of an edge keeps what followed its label. -/
theorem writeLower_ok_iff {n m : Nat} {label : LabelParser n} {q s' rest : List Bool} {b : Bool}
    {refs : List Cell} (h : label.Reads (q ++ b :: s') rest refs) (hs' : s'.length ≤ m)
    (hm : m ≤ maxKeyBits) {c : Cell} : writeLower label q.length m = .ok c ↔
      c = .mk (HmLabel.shortest m s' ++ rest) refs ∧ CellFits c := by
  have ht : label.lBits - q.length - 1 = s'.length := by
    rw [h.lBits, List.length_append, List.length_cons]
    omega
  rw [writeLower, ht]
  rcases h.bits with ⟨hsame, hbits⟩ | ⟨v, hsame, hs, hbits⟩
  · -- the bits of the label are there, and those up to the branch are skipped
    have hcut : advance (q.length + 1) label.remainder = ⟨s' ++ rest, refs⟩ := by
      have hdrop := advance_append (q ++ [b]) (s' ++ rest) refs
      rw [List.length_append, List.length_singleton, List.append_assoc] at hdrop
      rw [← hdrop]
      refine congrArg (advance _) ?_
      have heta : label.remainder = ⟨label.remainder.bits, label.remainder.refs⟩ := rfl
      rw [heta, hbits, h.refs, List.append_assoc]
      rfl
    have hw := writes_appendDictLabel (s' ++ rest) (by simp) hs' hm
    rw [List.take_left] at hw
    rw [if_neg (by omega), hcut]
    simp only [advance_append]
    exact writes_finalize_iff hw ⟨rest, refs⟩
  · -- the label is a run, none of whose bits are there
    have hv : (label.lSame % 2 == 1) = v := by rw [hsame]; cases v <;> rfl
    have hs'v : List.replicate s'.length v = s' := by
      refine (List.eq_replicate_iff.2 ⟨rfl, fun x hx => ?_⟩).symm
      refine List.eq_of_mem_replicate (n := (q ++ b :: s').length) ?_
      rw [← hs]
      exact List.mem_append_right _ (List.mem_cons_of_mem _ hx)
    have hw := writes_appendDictLabelSame hs' hm v
    rw [hs'v] at hw
    have heta : label.remainder = ⟨rest, refs⟩ := by
      rw [← hbits, ← h.refs]
    rw [if_pos (by omega), hv, heta]
    exact writes_finalize_iff hw ⟨rest, refs⟩

/-- The parser reads the label of a tree off its cell. -/
theorem load_cell (enc : α → Slice) {n : Nat} (hn : n ≤ maxKeyBits) {t : HmEdge α}
    (ht : t.HasKeyLength n) :
    ∃ label, LabelParser.load (t.cell enc n) n = .ok label ∧
      label.Reads t.label (t.payload enc (n - t.label.length - 1)).bits
        (t.payload enc (n - t.label.length - 1)).refs := by
  have hlabel := HmLabel.hmLabel_shortest (HmEdge.length_label_le ht)
  obtain ⟨label, hparse, hreads⟩ := parseLabel_append hn hlabel
    (t.payload enc (n - t.label.length - 1)).bits (t.payload enc (n - t.label.length - 1)).refs
  refine ⟨label, ?_, hreads⟩
  rw [LabelParser.load, HmEdge.cell_eq, Cell.toSlice_mk, hparse]
  refine if_neg ?_
  rintro ⟨hlt, hbad⟩
  -- A label shorter than the key is that of a fork.
  rw [hreads.lBits] at hlt
  cases t with
  | leaf s v =>
    have hs : s.length = n := ht
    exact absurd hlt (by rw [HmEdge.label]; omega)
  | fork s l r =>
    rcases hreads.bits with ⟨hsame, hbits⟩ | ⟨v, hsame, -, hbits⟩
    · refine hbad.elim (fun hlen => hlen ?_) fun hlen => hlen ?_
      · rw [hbits, LabelParser.sBits, if_neg (by omega), hreads.lBits, HmEdge.payload,
          List.append_nil]
      · rw [hreads.refs]
        rfl
    · refine hbad.elim (fun hlen => hlen ?_) fun hlen => hlen ?_
      · rw [hbits, LabelParser.sBits, if_pos (by omega)]
        rfl
      · rw [hreads.refs]
        rfl

/-! ## Setting a key inserts it -/

/-- The fork of two trees, on the sides that a bit of the key tells. -/
theorem writeForkOn_ok_iff {s key : List Bool} {m n : Nat} (hkey : s <+: key)
    (hn : n = s.length + (m + 1)) (hle : n ≤ maxKeyBits) (b : Bool) (t t' : HmEdge α)
    {r : Option Cell} :
    (if b then do return some (← writeFork key s.length n (t'.cell enc m) (t.cell enc m))
      else do return some (← writeFork key s.length n (t.cell enc m) (t'.cell enc m))) = .ok r ↔
      r = some ((HmEdge.forkOn s b t t').cell enc n) ∧
        CellFits ((HmEdge.forkOn s b t t').cell enc n) := by
  have hside (l r' : HmEdge α) :
      (do return some (← writeFork key s.length n (l.cell enc m) (r'.cell enc m))) = .ok r ↔
        r = some ((HmEdge.fork s l r').cell enc n) ∧
          CellFits ((HmEdge.fork s l r').cell enc n) := by
    rw [Ton.bind_ok_iff]
    simp only [writeFork_ok_iff hkey hn hle, pure, Except.pure, Except.ok.injEq]
    constructor
    · rintro ⟨c, ⟨rfl, hfits⟩, rfl⟩
      exact ⟨rfl, hfits⟩
    · rintro ⟨rfl, hfits⟩
      exact ⟨_, ⟨rfl, hfits⟩, rfl⟩
  cases b
  · exact hside t t'
  · exact hside t' t

theorem dictSet_parts {n m : Nat} {t : HmEdge α} {q s' k' : List Bool} {b : Bool}
    (hlabel : t.label = q ++ b :: s') (ht : t.HasKeyLength n) (hn : n = q.length + (m + 1))
    (hk : k'.length = m) (hle : n ≤ maxKeyBits) (hfits : t.AllCells CellFits enc n) (v : α)
    {r : Option Cell} :
    dictSet (addSliceBool (enc v)) .set (some (t.cell enc n)) (q ++ (!b) :: k') n = .ok r ↔
      r = some ((HmEdge.forkOn q (!b) (.leaf k' v) (t.withLabel s')).cell enc n) ∧
        (HmEdge.forkOn q (!b) (.leaf k' v) (t.withLabel s')).AllCells CellFits enc n := by
  obtain ⟨label, hload, hreads⟩ := load_cell enc hle ht
  have hpfx : label.commonPrefixLen (q ++ (!b) :: k') = q.length := by
    rw [commonPrefixLen_eq hreads, hlabel, commonLength_parts]
  have hlt : q.length < label.lBits := by
    rw [hreads.lBits, hlabel, List.length_append, List.length_cons]
    omega
  have hm : n - q.length - 1 = m := by omega
  have hs' : s'.length ≤ m := by
    have hlen := HmEdge.length_label_le ht
    rw [hlabel, List.length_append, List.length_cons] at hlen
    omega
  rw [hlabel] at hreads
  -- the old tree goes on below the branch
  have hlower (c : Cell) : writeLower label q.length m = .ok c ↔
      c = (t.withLabel s').cell enc m ∧ (t.withLabel s').AllCells CellFits enc m := by
    rw [writeLower_ok_iff hreads hs' (by omega), HmEdge.allCells_withLabel hlabel hn hfits,
      HmEdge.cell_eq enc m (t.withLabel s'), HmEdge.label_withLabel, HmEdge.payload_withLabel,
      show n - (q ++ b :: s').length - 1 = m - s'.length - 1 by
        rw [List.length_append, List.length_cons]; omega]
    refine and_congr_right ?_
    rintro rfl
    exact Iff.rfl
  have hprefix : q <+: q ++ (!b) :: k' := List.prefix_append _ _
  rw [dictSet, hload]
  simp only [hpfx, if_pos hlt, hm, HmEdge.drop_append_cons, HmEdge.getD_append_cons,
    Ton.bind_ok_iff, writeLeaf_ok_iff hk (show m ≤ maxKeyBits by omega), hlower, reduceCtorEq,
    if_false]
  constructor
  · rintro ⟨_, ⟨rfl, hleaf⟩, _, ⟨rfl, hold⟩, hfork⟩
    obtain ⟨rfl, hcell⟩ := (writeForkOn_ok_iff hprefix hn hle _ _ _).1 hfork
    exact ⟨rfl, (HmEdge.allCells_forkOn hn _ _ _).2 ⟨hcell, hleaf, hold⟩⟩
  · rintro ⟨rfl, hall⟩
    obtain ⟨hcell, hleaf, hold⟩ := (HmEdge.allCells_forkOn hn _ _ _).1 hall
    have hfork := (writeForkOn_ok_iff hprefix hn hle _ _ _).2 ⟨rfl, hcell⟩
    exact ⟨_, ⟨rfl, hleaf⟩, _, ⟨rfl, hold⟩, hfork⟩

/-- A child that was set goes into the fork above it. -/
theorem matchSome_ok_iff {x : Except DictError (Option Cell)}
    {f : Cell → Except DictError (Option Cell)} {c d : Cell} {P Q : Prop}
    (hx : ∀ {r}, x = .ok r ↔ r = some c ∧ P)
    (hf : ∀ {r}, f c = .ok r ↔ r = some d ∧ Q) {r : Option Cell} :
    (x >>= fun
      | none => pure none
      | some c => f c) = .ok r ↔ r = some d ∧ Q ∧ P := by
  rw [Ton.bind_ok_iff]
  constructor
  · rintro ⟨a, ha, hfork⟩
    obtain ⟨rfl, hp⟩ := hx.1 ha
    obtain ⟨rfl, hq⟩ := hf.1 hfork
    exact ⟨rfl, hq, hp⟩
  · rintro ⟨rfl, hq, hp⟩
    exact ⟨_, hx.2 ⟨rfl, hp⟩, hf.2 ⟨rfl, hq⟩⟩

theorem dictSet_replace {key : List Bool} (hle : key.length ≤ maxKeyBits) (w v : α)
    {r : Option Cell} :
    dictSet (addSliceBool (enc v)) .set (some ((HmEdge.leaf key w).cell enc key.length)) key
        key.length = .ok r ↔
      r = some ((HmEdge.leaf key v).cell enc key.length) ∧
        (HmEdge.leaf key v).AllCells CellFits enc key.length := by
  have ht : (HmEdge.leaf key w).HasKeyLength key.length := rfl
  obtain ⟨label, hload, hreads⟩ := load_cell enc hle ht
  have hpfx : label.commonPrefixLen key = key.length := by
    have hself := commonLength_append key []
    rw [List.append_nil] at hself
    rw [commonPrefixLen_eq hreads, HmEdge.label, hself]
  have hbits : label.lBits = key.length := hreads.lBits
  rw [dictSet, hload]
  simp only [hpfx, hbits, Nat.lt_irrefl, if_false, dif_pos, reduceCtorEq]
  rw [Ton.bind_ok_iff]
  simp only [writeLeaf_ok_iff rfl hle, pure, Except.pure, Except.ok.injEq]
  constructor
  · rintro ⟨c, ⟨rfl, hfits⟩, rfl⟩
    exact ⟨rfl, hfits⟩
  · rintro ⟨rfl, hfits⟩
    exact ⟨_, ⟨rfl, hfits⟩, rfl⟩

/-- Setting a key inserts it into the tree that the cell spells, if the result fits. -/
theorem dictSet_cell {v : α} {n : Nat} {t t' : HmEdge α} {key : List Bool}
    (h : HmEdge.Inserts v n t key t') (hn : n ≤ maxKeyBits) (ht : t.HasKeyLength n)
    (hfits : t.AllCells CellFits enc n) {r : Option Cell} :
    dictSet (addSliceBool (enc v)) .set (some (t.cell enc n)) key n = .ok r ↔
      r = some (t'.cell enc n) ∧ t'.AllCells CellFits enc n := by
  induction h generalizing r with
  | parts hlabel _ hk => exact dictSet_parts hlabel ht rfl hk hn hfits v
  | replace => exact dictSet_replace hn _ v
  | @inFork m s k c t t' other hlow hother hk _ ih =>
    obtain ⟨label, hload, hreads⟩ := load_cell enc hn ht
    have hlabel : (HmEdge.forkOn s c t other).label = s := by cases c <;> rfl
    rw [hlabel] at hreads
    have hpfx : label.commonPrefixLen (s ++ c :: k) = s.length := by
      rw [commonPrefixLen_eq hreads, commonLength_append]
    have hbits : label.lBits = s.length := hreads.lBits
    have hne : ¬ s.length = s.length + (m + 1) := by omega
    have hm : s.length + (m + 1) - s.length - 1 = m := by omega
    have hprefix : s <+: s ++ c :: k := List.prefix_append _ _
    obtain ⟨-, hfit, hfitOther⟩ := (HmEdge.allCells_forkOn rfl c t other).1 hfits
    rw [hm] at hreads
    rw [dictSet, hload]
    simp only [hpfx, hbits, Nat.lt_irrefl, if_false, dif_neg hne, HmEdge.drop_append_cons,
      HmEdge.getD_append_cons, hm]
    -- the whole label is in the key, which goes on into one side
    have hset := @ih (by omega) hlow hfit
    have hfork := @writeForkOn_ok_iff α enc s _ m _ hprefix rfl hn c t' other
    rw [HmEdge.allCells_forkOn rfl, and_iff_left hfitOther]
    cases c
    · rw [show label.remainder.refs = [t.cell enc m, other.cell enc m] from hreads.refs]
      exact matchSome_ok_iff hset hfork
    · rw [show label.remainder.refs = [other.cell enc m, t.cell enc m] from hreads.refs]
      exact matchSome_ok_iff hset hfork

/-! ## Runs of insertions -/

theorem set_none_ok_iff {n : Nat} {key : List Bool} (hkey : key.length = n) (hn : n ≤ maxKeyBits)
    (v : α) {r : Option Cell} : set .set n none key (enc v) = .ok r ↔
      r = some ((HmEdge.leaf key v).cell enc n) ∧
        (HmEdge.leaf key v).AllCells CellFits enc n := by
  have hset : dictSet (addSliceBool (enc v)) .set none key n =
      (do return some (← writeLeaf key n (addSliceBool (enc v)))) := by
    rw [dictSet]
    rfl
  rw [set, hset]
  simp only [Ton.bind_ok_iff, writeLeaf_ok_iff hkey hn, pure, Except.pure, Except.ok.injEq]
  constructor
  · rintro ⟨_, ⟨c, ⟨rfl, hfits⟩, rfl⟩, hr⟩
    exact ⟨(Except.ok.inj hr).symm, hfits⟩
  · rintro ⟨rfl, hfits⟩
    exact ⟨_, ⟨_, ⟨rfl, hfits⟩, rfl⟩, rfl⟩

theorem set_some_ok_iff {n : Nat} {t : HmEdge α} (ht : t.HasKeyLength n)
    (hfits : t.AllCells CellFits enc n) {key : List Bool} (hkey : key.length = n)
    (hn : n ≤ maxKeyBits) (v : α) {r : Option Cell} :
    set .set n (some (t.cell enc n)) key (enc v) = .ok r ↔
      r = some ((t.insert key v).cell enc n) ∧ (t.insert key v).AllCells CellFits enc n := by
  have hinsert := HmEdge.inserts_insert ht hkey v
  rw [set, Ton.bind_ok_iff]
  constructor
  · rintro ⟨a, ha, hr⟩
    obtain ⟨rfl, hall⟩ := (dictSet_cell hinsert hn ht hfits).1 ha
    exact ⟨(Except.ok.inj hr).symm, hall⟩
  · rintro ⟨rfl, hall⟩
    exact ⟨_, (dictSet_cell hinsert hn ht hfits).2 ⟨rfl, hall⟩, rfl⟩

/-- What is left of a run of insertions spells the tree of the keys and values. -/
theorem foldlM_set_ok {n : Nat} (hn : n ≤ maxKeyBits) {es : List (List Bool × α)} {t : HmEdge α}
    (ht : t.HasKeyLength n) (hfits : t.AllCells CellFits enc n) (hes : ∀ e ∈ es, e.1.length = n)
    {r : Option Cell}
    (h : es.foldlM (fun root e => set .set n root e.1 (enc e.2)) (some (t.cell enc n)) = .ok r) :
    r = some ((t.insertAll es).cell enc n) ∧ (t.insertAll es).AllCells CellFits enc n := by
  induction es generalizing t with
  | nil => exact ⟨(Except.ok.inj h).symm, hfits⟩
  | cons e es ih =>
    rw [List.forall_mem_cons] at hes
    rw [List.foldlM_cons, Ton.bind_ok_iff] at h
    obtain ⟨root, hroot, h⟩ := h
    obtain ⟨rfl, hall⟩ := (set_some_ok_iff ht hfits hes.1 hn e.2).1 hroot
    exact ih (HmEdge.inserts_insert ht hes.1 e.2).hasKeyLength hall hes.2 h

theorem dictionary_cons (n : Nat) (e : List Bool × α) (es : List (List Bool × α)) :
    dictionary n ((e :: es).map fun e => (e.1, enc e.2)) =
      set .set n none e.1 (enc e.2) >>= fun root =>
        es.foldlM (fun root e => set .set n root e.1 (enc e.2)) root := by
  rw [dictionary, List.map_cons, List.foldlM_cons]
  simp only [List.foldlM_map]

/-- A dictionary that was built spells a tree with the keys and values as its entries. -/
theorem dictionary_cell {n : Nat} (hn : n ≤ 64) {es : List (List Bool × α)}
    (hes : ∀ e ∈ es, e.1.length = n) (hnodup : (es.map Prod.fst).Nodup) {c : Cell}
    (h : dictionary n (es.map fun e => (e.1, enc e.2)) = .ok (some c)) :
    ∃ t : HmEdge α, c = t.cell enc n ∧ t.HasKeyLength n ∧ t.AllCells CellFits enc n ∧
      t.entries.Perm es := by
  cases es with
  | nil => cases h
  | cons e es =>
    rw [List.forall_mem_cons] at hes
    rw [List.map_cons, List.nodup_cons] at hnodup
    rw [dictionary_cons, Ton.bind_ok_iff] at h
    obtain ⟨root, hroot, h⟩ := h
    have hn : n ≤ maxKeyBits := hn.trans (by decide)
    obtain ⟨rfl, hfits⟩ := (set_none_ok_iff hes.1 hn e.2).1 hroot
    have hleaf : (HmEdge.leaf e.1 e.2).HasKeyLength n := hes.1
    obtain ⟨hc, hall⟩ := foldlM_set_ok hn hleaf hfits hes.2 h
    refine ⟨_, Option.some.inj hc, HmEdge.hasKeyLength_insertAll hleaf hes.2, hall, ?_⟩
    refine (HmEdge.entries_insertAll hleaf hes.2 hnodup.2 fun x hx y hy => ?_).trans ?_
    · obtain rfl := List.mem_singleton.1 hy
      exact fun heq => hnodup.1 (heq ▸ List.mem_map_of_mem hx)
    · exact List.perm_append_comm

/-! ## Room -/

/-- A value leaves room in its cell for a whole key of `n` bits, and above it for `n` forks. -/
def Room (n : Nat) (v : Slice) : Prop :=
  2 + lenBits n + n + v.bits.length ≤ maxBits ∧ v.refs.length ≤ maxRefs ∧
    Cell.depthRefs v.refs + n ≤ maxDepth

/-- A tree whose values leave room is within the limits. -/
theorem allCells_of_room {n m : Nat} (hm : m ≤ n) {t : HmEdge α}
    (ht : t.HasKeyLength m) (hroom : ∀ e ∈ t.entries, Room n (enc e.2)) :
    t.AllCells CellFits enc m ∧ (t.cell enc m).depth + n ≤ maxDepth + m := by
  induction t generalizing m with
  | leaf s v =>
    obtain ⟨hbits, hrefs, hdepth⟩ := hroom (s, v) (List.mem_singleton_self _)
    -- a value leaves room for the long form of any label
    have hlabel := HmLabel.length_shortest_le_long m s
    have hlen := HmLabel.lenBits_le hm
    have hs : s.length = m := ht
    have hcell : (HmEdge.leaf s v).cell enc m =
        .mk (HmLabel.shortest m s ++ (enc v).bits) (enc v).refs := rfl
    refine ⟨⟨?_, hrefs, ?_⟩, ?_⟩
    · rw [hcell, Cell.bits_mk, List.length_append]
      simp only at hbits
      omega
    · exact (Nat.le_add_right _ n).trans hdepth
    · rw [hcell, Cell.depth_mk]
      simp only at hdepth
      omega
  | fork s l r ihl ihr =>
    obtain ⟨k, hk, hl, hr⟩ := ht
    have hsplit : (HmEdge.fork s l r).entries =
        HmEdge.under s false l.entries ++ HmEdge.under s true r.entries := rfl
    rw [hsplit, List.forall_mem_append] at hroom
    have hside {b : Bool} {t : HmEdge α}
        (h : ∀ e ∈ HmEdge.under s b t.entries, Room n (enc e.2)) :
        ∀ e ∈ t.entries, Room n (enc e.2) := fun e he =>
      h (s ++ b :: e.1, e.2) (List.mem_map_of_mem he)
    obtain ⟨hlfits, hldepth⟩ := ihl (by omega) hl (hside hroom.1)
    obtain ⟨hrfits, hrdepth⟩ := ihr (by omega) hr (hside hroom.2)
    -- a fork has nothing but its label and its two sides
    obtain ⟨e, he⟩ := List.exists_mem_of_ne_nil _ l.entries_ne_nil
    have hspare := (hside hroom.1 e he).1
    have hlen := HmLabel.lenBits_le hm
    have hlabel := HmLabel.length_shortest_le_long m s
    rw [HmEdge.allCells_fork hk, HmEdge.cell_fork hk]
    refine ⟨⟨⟨hlabel.trans (by omega), show 2 ≤ maxRefs by decide, ?_⟩, hlfits, hrfits⟩, ?_⟩
    · rw [Cell.refs_mk, Cell.depthRefs_cons, Cell.depthRefs_cons, Cell.depthRefs_nil]
      omega
    · rw [Cell.depth_mk, Cell.depthRefs_cons, Cell.depthRefs_cons, Cell.depthRefs_nil]
      omega

theorem foldlM_set_of_room {n : Nat} (hn : n ≤ maxKeyBits) {es : List (List Bool × α)}
    {t : HmEdge α} (ht : t.HasKeyLength n) (hes : ∀ e ∈ es, e.1.length = n)
    (hnew : (es.map Prod.fst).Nodup) (hdisj : ∀ e ∈ es, ∀ e' ∈ t.entries, e'.1 ≠ e.1)
    (hroom : ∀ e ∈ es ++ t.entries, Room n (enc e.2)) :
    ∃ c, es.foldlM (fun root e => set .set n root e.1 (enc e.2)) (some (t.cell enc n)) =
      .ok (some c) := by
  induction es generalizing t with
  | nil => exact ⟨_, rfl⟩
  | cons e es ih =>
    rw [List.forall_mem_cons] at hes hdisj
    rw [List.map_cons, List.nodup_cons] at hnew
    -- the tree with this key in it is where the other keys start
    have hinsert := HmEdge.inserts_insert ht hes.1 e.2
    have hentries := hinsert.entries hdisj.1
    have hroom' : ∀ e' ∈ es ++ (t.insert e.1 e.2).entries, Room n (enc e'.2) := fun e' he' =>
      hroom e' (((hentries.append_left es).trans List.perm_middle).mem_iff.1 he')
    have hfits : t.AllCells CellFits enc n := (allCells_of_room (Nat.le_refl n) ht fun e' he' =>
      hroom e' (List.mem_append_right _ he')).1
    have hfits' : (t.insert e.1 e.2).AllCells CellFits enc n :=
      (allCells_of_room (Nat.le_refl n) hinsert.hasKeyLength fun e' he' =>
        hroom' e' (List.mem_append_right _ he')).1
    rw [List.foldlM_cons, (set_some_ok_iff ht hfits hes.1 hn e.2).2 ⟨rfl, hfits'⟩]
    refine ih hinsert.hasKeyLength hes.2 hnew.2 (fun x hx y hy => ?_) hroom'
    rcases List.mem_cons.1 (hentries.mem_iff.1 hy) with rfl | hy
    · exact fun heq => hnew.1 (heq ▸ List.mem_map_of_mem hx)
    · exact hdisj.2 x hx y hy

/-- Values that leave room can be put into a dictionary under any keys and in any order. -/
theorem dictionary_of_room {n : Nat} (hn : n ≤ 64) {es : List (List Bool × α)} (hne : es ≠ [])
    (hes : ∀ e ∈ es, e.1.length = n) (hnodup : (es.map Prod.fst).Nodup)
    (hroom : ∀ e ∈ es, Room n (enc e.2)) :
    ∃ c, dictionary n (es.map fun e => (e.1, enc e.2)) = .ok (some c) := by
  cases es with
  | nil => exact absurd rfl hne
  | cons e es =>
    rw [List.forall_mem_cons] at hes hroom
    rw [List.map_cons, List.nodup_cons] at hnodup
    have hleaf : (HmEdge.leaf e.1 e.2).HasKeyLength n := hes.1
    have hleafRoom : ∀ e' ∈ (HmEdge.leaf e.1 e.2).entries, Room n (enc e'.2) := fun e' he' => by
      rw [List.mem_singleton.1 he']
      exact hroom.1
    have hfits := (allCells_of_room (Nat.le_refl n) hleaf hleafRoom).1
    have hn : n ≤ maxKeyBits := hn.trans (by decide)
    rw [dictionary_cons, (set_none_ok_iff hes.1 hn e.2).2 ⟨rfl, hfits⟩]
    refine foldlM_set_of_room hn hleaf hes.2 hnodup.2 (fun x hx y hy => ?_) ?_
    · obtain rfl := List.mem_singleton.1 hy
      exact fun heq => hnodup.1 (heq ▸ List.mem_map_of_mem hx)
    · exact List.forall_mem_append.2 ⟨hroom.2, hleafRoom⟩

end Dict

end Vm
