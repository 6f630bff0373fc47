import TopWallets.KeyExport
import TopWallets.SimpleEncryption
import TopWallets.Lib.Utf8

/- A text encrypted for a public key: `TonLib.EncryptData`, `TonLib.DecryptData` and the native
   functions under them.

   Data and salt are arrays, which cross the boundary without their lengths: the native functions
   read them up to the first zero byte, in the array or after it. What comes back has its
   length. The bytes that are encrypted begin with the xor of the public key and that of the
   private key, which of a matching pair is 32 zero bytes, so that they read as nothing when they
   are to be decrypted. The encoding of texts is a parameter.

   Main result: with a matching key pair no text comes back (`not_comesBack`), though the
   encryption inverts (`Tonlib.V2.parties_decrypt`).

   Correspondence (C++ / C# ↔ Lean):
     `std::string(const char*)`                 ↔ `cString`
     native `EncryptData`, `DecryptData`        ↔ `Native.encryptData`, `Native.decryptData`
     `TonLib.EncryptData`, `TonLib.DecryptData` ↔ `encryptData`, `decryptData`
     `Util.GetBytes`, `byte[].GetString`        ↔ `TextEncoding` -/
namespace TonLib
open Ton (Exception cString)
open Tonlib (Primitives Ed25519)

/-- The keys of an encryption. -/
structure KeyPair (E : Ed25519) where
  public_key : Vector UInt8 32
  private_key : Vector UInt8 32
  matching : E.get_public_key private_key = .ok public_key

structure TextEncoding where
  getBytes : List Char → List UInt8
  getString : List UInt8 → List Char

/-- What follows the arrays of the data and of the salt in memory. -/
structure Memory where
  data : List UInt8
  salt : List UInt8

section
variable (T : TextEncoding) (P : Primitives) (E : Ed25519)

namespace Native

/-- A native function, on the two strings that it makes of its arrays. -/
def call (memory : Memory) (run : (data salt : List UInt8) → Option (List UInt8))
    (data salt : List UInt8) : Except Exception (Option (List UInt8)) :=
  match cString (data ++ memory.data), cString (salt ++ memory.salt) with
  | some data, some salt => .ok (run data salt)
  | _, _ => .error .accessViolation

/-- The prefix is a random one. -/
def encryptData (memory : Memory) (random : (n : Nat) → Vector UInt8 n) (data : List UInt8)
    (public_key private_key : Vector UInt8 32) (salt : List UInt8) :
    Except Exception (Option (List UInt8)) :=
  call memory (fun data salt =>
    (Tonlib.V2.encryptFor P E random data public_key private_key salt).toOption) data salt

def decryptData (memory : Memory) (data : List UInt8) (public_key private_key : Vector UInt8 32)
    (salt : List UInt8) : Except Exception (Option (List UInt8)) :=
  call memory (fun data salt =>
    ((Tonlib.V2.decryptFor P E data public_key private_key salt).map
      Tonlib.V2.Decrypted.data).toOption) data salt

end Native

/-- Null when the native function fails. -/
def encryptData (memory : Memory) (random : (n : Nat) → Vector UInt8 n) (data : List Char)
    (public_key private_key : Vector UInt8 32) (salt : List UInt8) :
    Except Exception (Option (List UInt8)) :=
  Native.encryptData P E memory random (T.getBytes data) public_key private_key salt

/-- The null of a failed call has no string. -/
def decryptData (memory : Memory) (data : List UInt8) (public_key private_key : Vector UInt8 32)
    (salt : List UInt8) : Except Exception (Option (List Char)) :=
  (Native.decryptData P E memory data public_key private_key salt).map (Option.map T.getString)

/-- The text is encrypted, and the bytes decrypt to it. -/
def ComesBack (memory memory' : Memory) (random : (n : Nat) → Vector UInt8 n) (keys : KeyPair E)
    (text : List Char) (salt : List UInt8) : Prop :=
  ∃ encrypted,
    encryptData T P E memory random text keys.public_key keys.private_key salt =
      .ok (some encrypted) ∧
    decryptData T P E memory' encrypted keys.public_key keys.private_key salt = .ok (some text)

end

section
variable {T : TextEncoding} {P : Primitives} {E : Ed25519}

/-- What a native function returns, when the strings of its arrays are read. -/
theorem Native.call_ok {memory : Memory} {run : List UInt8 → List UInt8 → Option (List UInt8)}
    {data salt : List UInt8} {res : Option (List UInt8)} :
    Native.call memory run data salt = .ok res ↔
      ∃ data' salt', cString (data ++ memory.data) = some data' ∧
        cString (salt ++ memory.salt) = some salt' ∧ run data' salt' = res := by
  rw [Native.call]
  cases cString (data ++ memory.data) with
  | none => simp
  | some _ =>
    cases cString (salt ++ memory.salt) with
    | none => simp
    | some _ => simp

/-- What is encrypted for the own public key begins with a zero byte. -/
theorem encryptFor_own (keys : KeyPair E) {random : (n : Nat) → Vector UInt8 n}
    {data salt encrypted : List UInt8}
    (h : Tonlib.V2.encryptFor P E random data keys.public_key keys.private_key salt =
      .ok encrypted) : ∃ rest, encrypted = 0 :: rest := by
  obtain ⟨secret, -, h⟩ := Ton.bind_ok_iff.1 h
  obtain ⟨own, hown, h⟩ := Ton.bind_ok_iff.1 h
  obtain rfl := Except.ok.inj (keys.matching.symm.trans hown)
  rw [← Except.ok.inj h, Tonlib.secureXor_self]
  exact ⟨_, rfl⟩

/-- An array that begins with a zero byte is read as no bytes, and these are too few. -/
theorem decryptData_zero (memory : Memory) (rest : List UInt8)
    (public_key private_key : Vector UInt8 32) (salt : List UInt8) (text : List Char) :
    decryptData T P E memory (0 :: rest) public_key private_key salt ≠ .ok (some text) := by
  intro h
  rw [decryptData] at h
  cases hcall : Native.decryptData P E memory (0 :: rest) public_key private_key salt with
  | error e =>
    rw [hcall] at h
    cases h
  | ok res =>
    obtain ⟨data', salt', hdata, -, hrun⟩ := Native.call_ok.1 hcall
    obtain rfl : [] = data' := Option.some.inj hdata
    have hres : res = none := hrun.symm
    rw [hcall, hres] at h
    cases h

/-- The call for a text gave bytes, so the native encryption did. -/
theorem encryptData_ok {memory : Memory} {random : (n : Nat) → Vector UInt8 n}
    {text : List Char} {public_key private_key : Vector UInt8 32} {salt encrypted : List UInt8}
    (h : encryptData T P E memory random text public_key private_key salt = .ok (some encrypted)) :
    ∃ data' salt',
      Tonlib.V2.encryptFor P E random data' public_key private_key salt' = .ok encrypted := by
  obtain ⟨data', salt', -, -, hrun⟩ := Native.call_ok.1 h
  refine ⟨data', salt', ?_⟩
  cases hencrypt : Tonlib.V2.encryptFor P E random data' public_key private_key salt' with
  | error e =>
    rw [hencrypt] at hrun
    cases hrun
  | ok bytes =>
    rw [hencrypt] at hrun
    exact congrArg Except.ok (Option.some.inj hrun)

/-- What comes out of the encryption for the own public key does not decrypt. -/
theorem decryptData_encryptData_own {memory : Memory} (memory' : Memory)
    {random : (n : Nat) → Vector UInt8 n} (keys : KeyPair E) {text : List Char}
    {salt encrypted : List UInt8}
    (h : encryptData T P E memory random text keys.public_key keys.private_key salt =
      .ok (some encrypted)) (text' : List Char) :
    decryptData T P E memory' encrypted keys.public_key keys.private_key salt ≠
      .ok (some text') := by
  obtain ⟨data', salt', hencrypt⟩ := encryptData_ok h
  obtain ⟨rest, rfl⟩ := encryptFor_own keys hencrypt
  exact decryptData_zero memory' rest keys.public_key keys.private_key salt text'

/-- With a matching key pair no text comes back, whatever the salt, the prefix and the memory
behind the arrays. -/
theorem not_comesBack (memory memory' : Memory) (random : (n : Nat) → Vector UInt8 n)
    (keys : KeyPair E) (text : List Char) (salt : List UInt8) :
    ¬ ComesBack T P E memory memory' random keys text salt := by
  intro h
  obtain ⟨encrypted, hencrypt, hdecrypt⟩ := h
  exact decryptData_encryptData_own memory' keys hencrypt text hdecrypt

end

/-! ## One letter

    The private key is 32 ones and the prefix is of zeros. The primitives have the values of the
    real ones that come up when the letter `a` is encrypted. -/

namespace OneLetter
open Tonlib.TwoParties (privateKey publicKey ownSecret curve)

/-- UTF-8. -/
def utf8 : TextEncoding := ⟨Utf8.encode, Utf8.decode⟩

def keys : KeyPair curve := ⟨publicKey, privateKey, rfl⟩

def salt : List UInt8 := [4]

/-- The letter behind its prefix. -/
def plain : List UInt8 := 31 :: List.replicate 30 0 ++ [97]

/-- HMAC of the salt with it, and of the secret with the first bytes of that. -/
def hash : Vector UInt8 64 := #v[
    0x27, 0x6f, 0x23, 0x98, 0x83, 0x4f, 0xc6, 0xa3, 0x7d, 0x4b, 0x41, 0x2c, 0xde, 0x74, 0xf9, 0xa7,
    0x76, 0xe4, 0x7f, 0x63, 0x39, 0xf7, 0x52, 0x78, 0x25, 0x29, 0xb8, 0x72, 0x21, 0x8b, 0xf6, 0x27,
    0x63, 0xe5, 0x19, 0xb7, 0xc3, 0x27, 0x8a, 0xbe, 0xb3, 0xe1, 0xa9, 0xcf, 0xab, 0xbc, 0x59, 0xde,
    0x31, 0x81, 0xb3, 0x9b, 0x73, 0x37, 0x1e, 0x31, 0xa5, 0x78, 0x59, 0x1a, 0xe1, 0x14, 0x9e, 0x03]

def state : Vector UInt8 64 := #v[
    0x32, 0xb5, 0x16, 0xb8, 0xc8, 0xf5, 0xf5, 0x39, 0x52, 0x68, 0xcf, 0xd8, 0xc7, 0x1a, 0x91, 0x79,
    0x87, 0xba, 0x9b, 0x26, 0xf4, 0x09, 0x51, 0x01, 0x45, 0x66, 0xc1, 0xd9, 0xad, 0xba, 0xed, 0x40,
    0xf5, 0xaf, 0xb7, 0xb1, 0xdd, 0x16, 0x9c, 0x3b, 0xff, 0x10, 0xcc, 0x83, 0x67, 0x67, 0x89, 0xb5,
    0x73, 0x85, 0xe4, 0xff, 0x81, 0xfc, 0xbd, 0xae, 0x51, 0x24, 0x6d, 0x6c, 0x1b, 0xae, 0x33, 0xa8]

def blocks : List UInt8 := [
    0xbe, 0xdd, 0x45, 0x09, 0xab, 0x27, 0x87, 0x04, 0x58, 0x4a, 0x7f, 0x5e, 0x0f, 0x09, 0x32, 0xf4,
    0x50, 0x92, 0x46, 0xf9, 0xd9, 0xb6, 0x39, 0xf0, 0x34, 0xe7, 0x02, 0x95, 0x72, 0x0c, 0x06, 0xa6]

def primitives : Primitives where
  sha256 _ := Tonlib.TwoParties.zeros 32
  hmac_sha512 key message :=
    if key = salt ∧ message = plain then hash
    else if key = ownSecret.toList ∧ message = hash.toList.take 16 then state
    else Tonlib.TwoParties.zeros 64
  pbkdf2_sha512 _ _ _ := Tonlib.TwoParties.zeros 64
  aes_cbc_encrypt _ _ data := if data = plain then blocks else data
  aes_cbc_decrypt _ _ data := if data = blocks then plain else data

/-- What the letter is encrypted to. -/
def encrypted : List UInt8 := List.replicate 32 0 ++ hash.toList.take 16 ++ blocks

end OneLetter

open OneLetter

/-- The letter is encrypted, and its bytes decrypt, but not behind the boundary. -/
theorem not_comesBack_letter :
    Tonlib.V2.encryptFor primitives Tonlib.TwoParties.curve Tonlib.TwoParties.zeros
        (utf8.getBytes ['a']) keys.public_key keys.private_key salt = .ok encrypted ∧
      Tonlib.V2.decryptFor primitives Tonlib.TwoParties.curve encrypted keys.public_key
        keys.private_key salt = .ok ⟨state.toList.take 48, utf8.getBytes ['a']⟩ ∧
      ¬ ComesBack utf8 primitives Tonlib.TwoParties.curve ⟨[0], [0]⟩ ⟨[0], [0]⟩
        Tonlib.TwoParties.zeros keys ['a'] salt := by
  refine ⟨by decide +kernel, by decide +kernel, ?_⟩
  intro h
  obtain ⟨encrypted, hencrypt, hdecrypt⟩ := h
  exact decryptData_encryptData_own ⟨[0], [0]⟩ keys hencrypt ['a'] hdecrypt

end TonLib
