import TopWallets.Exceptions

/- The NaCl box as the managed code uses it: `Nacl`.

   The native functions and the slices of byte arrays are the parameter `Box`. The native
   functions work on padded arrays: 32 zero bytes in front of a message, 16 in front of a
   box. A `Nacl` object draws its nonce when it is made, and `EncryptConcat` puts that
   nonce in front of every box. -/
namespace Ton

/-- The native functions, and `byte[].Slice(offset)`. `openAfternm` gives nothing for a box that is
not authentic; the output array then stays as it was. -/
structure Box where
  beforenm : (publicKey privateKey : List UInt8) → List UInt8
  afternm : (paddedInput nonce precomputed : List UInt8) → List UInt8
  openAfternm : (paddedInput nonce precomputed : List UInt8) → Option (List UInt8)
  slice : (bytes : List UInt8) → (offset : Nat) → Except Exception (List UInt8)

/-- A slice is what stands from its offset on; one that begins behind the array raises. -/
structure SliceLaws (slice : List UInt8 → Nat → Except Exception (List UInt8)) : Prop where
  in_range : ∀ {bytes offset}, offset ≤ bytes.length →
    slice bytes offset = .ok (bytes.drop offset)
  out_of_range : ∀ {bytes : List UInt8} {offset}, bytes.length < offset →
    ∃ e, slice bytes offset = .error e

def sliceFrom (bytes : List UInt8) (offset : Nat) : Except Exception (List UInt8) :=
  if offset ≤ bytes.length then .ok (bytes.drop offset) else .error .argumentOutOfRange

theorem sliceFrom_laws : SliceLaws sliceFrom where
  in_range h := if_pos h
  out_of_range h := ⟨_, if_neg (Nat.not_le.2 h)⟩

structure Nacl where
  publicKey : List UInt8
  privateKey : List UInt8
  precomputed : List UInt8
  nonce : Vector UInt8 24

namespace Nacl

def zeroBytes : Nat := 32

def boxZeroBytes : Nat := 16

variable (B : Box)

/-- The constructor, with the nonce `GenNonce` returns in it. -/
def new (publicKey privateKey : List UInt8) (nonce : Vector UInt8 24) : Nacl :=
  ⟨publicKey, privateKey, B.beforenm publicKey privateKey, nonce⟩

/-- `Encrypt(precomputed, input, nonce)`. The output array is longer than the zero bytes of a box,
so that the slice is in range. -/
def encrypt (precomputed input nonce : List UInt8) : List UInt8 :=
  (B.afternm (List.replicate zeroBytes 0 ++ input) nonce precomputed).drop boxZeroBytes

/-- `Decrypt(precomputed, input, nonce)`. Whether the box is authentic is not looked at. -/
def decrypt (precomputed input nonce : List UInt8) : Except Exception (List UInt8) :=
  let paddedOutput := List.replicate boxZeroBytes 0 ++ input
  let output := (B.openAfternm paddedOutput nonce precomputed).getD
    (List.replicate paddedOutput.length 0)
  B.slice output zeroBytes

def encryptConcat (nacl : Nacl) (input : List UInt8) : List UInt8 :=
  nacl.nonce.toList ++ encrypt B nacl.precomputed input nacl.nonce.toList

/-- Every message of one object begins with the same nonce. -/
@[simp] theorem take_encryptConcat (nacl : Nacl) (input : List UInt8) :
    (nacl.encryptConcat B input).take 24 = nacl.nonce.toList := by
  rw [encryptConcat, List.take_left' nacl.nonce.length_toList]

end Nacl

end Ton
