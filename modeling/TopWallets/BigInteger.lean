import TopWallets.Lib.BitField

/- The native big integer as the managed code uses it: `BigInteger.GetData` turns a
   number into bytes through `BigInt256::bit_size` and `export_bytes`. The decimal
   text the number crosses the boundary in is exact and is not modelled. -/
namespace BigInt256

/-- `bit_size(true)` of a number that is not negative: a sign bit is counted, except for 0. -/
def bitSize (v : Nat) : Nat := if v = 0 then 0 else Nat.size v + 1

/-- `export_bytes`: the low `size` bytes, most significant first. -/
def exportBytes : Nat → Nat → List UInt8
  | 0, _ => []
  | n + 1, v => UInt8.ofNat (v / 256 ^ n) :: exportBytes n v

@[simp] theorem length_exportBytes (size v : Nat) : (exportBytes size v).length = size := by
  induction size with
  | zero => rfl
  | succ n ih => rw [exportBytes, List.length_cons, ih]

end BigInt256

namespace Ton.BigInteger

/-- The number of bytes `BigIntegerGetDataFromString` exports: the bit size, rounded up. -/
def dataLength (v : Nat) : Nat := (BigInt256.bitSize v + 7) / 8

def getData (v : Nat) : List UInt8 := BigInt256.exportBytes (dataLength v) v

@[simp] theorem length_getData (v : Nat) : (getData v).length = dataLength v :=
  BigInt256.length_exportBytes _ _

/-- A number needs at most `n` bytes exactly when it is below `2 ^ (8 * n - 1)`. -/
theorem dataLength_le_iff {v n : Nat} (hn : 0 < n) : dataLength v ≤ n ↔ v < 2 ^ (8 * n - 1) := by
  rw [← Nat.size_le, dataLength, BigInt256.bitSize]
  split
  · rename_i hv
    subst hv
    simp
  · omega

theorem dataLength_pos {v : Nat} (hv : v ≠ 0) : 0 < dataLength v := by
  rw [dataLength, BigInt256.bitSize, if_neg hv]
  omega

end Ton.BigInteger
