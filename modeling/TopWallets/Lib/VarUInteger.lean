import TopWallets.Lib.BitField

/- Numbers of varying length: the number of bytes in a field of fixed width, and
   the bytes, most significant first (`VarUInteger n` of TL-B, with a length field
   of the bits of `#< n`).

   Any number of bytes that holds the value spells it; the canonical spelling has
   the least one. -/
namespace VarUInteger

/-- The least number of bytes that holds a number. -/
def byteLength (v : Nat) : Nat := (v.size + 7) / 8

theorem byteLength_le_iff {v n : Nat} : byteLength v ≤ n ↔ v < 2 ^ (8 * n) := by
  rw [← Nat.size_le, byteLength]
  omega

theorem isLeast_byteLength (v : Nat) : IsLeast {n | v < 2 ^ (8 * n)} (byteLength v) :=
  ⟨byteLength_le_iff.1 (Nat.le_refl _), fun _ hn => byteLength_le_iff.2 hn⟩

/-- The spelling of a number with `n` bytes and a length field of `w` bits. -/
def spell (w n v : Nat) : List Bool := BitField.ofNat w n ++ BitField.ofNat (8 * n) v

@[simp] theorem length_spell (w n v : Nat) : (spell w n v).length = w + 8 * n := by
  rw [spell, List.length_append, BitField.length_ofNat, BitField.length_ofNat]

/-- `Spells w bits v`: the bits are a length field of `w` bits, and as many bytes, which are `v`. -/
def Spells (w : Nat) (bits : List Bool) (v : Nat) : Prop :=
  ∃ n payload, n < 2 ^ w ∧ payload.length = 8 * n ∧ bits = BitField.ofNat w n ++ payload ∧
    BitField.toNat payload = v

theorem spells_spell {w n v : Nat} (hn : n < 2 ^ w) (hv : v < 2 ^ (8 * n)) :
    Spells w (spell w n v) v :=
  ⟨n, _, hn, BitField.length_ofNat _ _, rfl, BitField.toNat_ofNat_of_lt hv⟩

/-- What spells a number has the length that its length field says. -/
theorem Spells.length_eq {w n v : Nat} {rest : List Bool}
    (h : Spells w (BitField.ofNat w n ++ rest) v) : rest.length = 8 * (n % 2 ^ w) := by
  obtain ⟨m, payload, hm, hlen, heq, -⟩ := h
  obtain ⟨hfield, rfl⟩ := List.append_inj heq (by simp)
  have hmod : n % 2 ^ w = m := by
    have hnum := congrArg BitField.toNat hfield
    rwa [BitField.toNat_ofNat, BitField.toNat_ofNat_of_lt hm] at hnum
  rw [hlen, hmod]

end VarUInteger
