import TopWallets.Crypto

/- A wrong passcode: `Crypto.Decrypt` and those who call it.

   Under a wrong passcode the container decrypts to any bytes of its length. This file

   1. says what `unpack` makes of any bytes in terms of the two mark bytes and of the
      padding byte (`unpack_eq`);
   2. defines what a clean answer is (`Clean`), and the answers of `TonWallet.Sign`,
      `GetPrivateKey` and `GetSeed`, which hand what they get to the native client;
   3. proves when the answer is clean, and when the three methods report that there
      was no key (`clean_decrypt_iff`, `reports_iff`, put together in
      `decrypt_clean_iff`).

   The native client stops the process when it is given no password: `Slice` checks
   its pointer. -/
namespace Ton

namespace Crypto

/-- The byte that says how long the padding is. -/
def paddingByte (decrypted : List UInt8) : Nat := (decrypted.headD 0).toNat

/-- The bytes `'o'` and `'k'` are where `Encrypt` puts them. -/
def Marked (decrypted : List UInt8) : Prop :=
  decrypted[1]? = some 111 ∧ decrypted[2]? = some 107

/-- The secret has no negative length. -/
def Fits (decrypted : List UInt8) : Prop := 67 + paddingByte decrypted ≤ decrypted.length

instance (decrypted : List UInt8) : Decidable (Marked decrypted) :=
  inferInstanceAs (Decidable (_ ∧ _))

instance (decrypted : List UInt8) : Decidable (Fits decrypted) :=
  inferInstanceAs (Decidable (_ ≤ _))

/-- The bytes between the mark and the password's end, and those up to the padding. -/
def passwordOf (decrypted : List UInt8) : List UInt8 := (decrypted.drop 3).take 64

def secretOf (decrypted : List UInt8) : List UInt8 :=
  (decrypted.drop 67).take (decrypted.length - 67 - paddingByte decrypted)

/-- The decrypted bytes of a container. -/
def decrypted (C : Cipher) (passcode : List Char) (encryption passcodeSalt : List UInt8) :
    List UInt8 :=
  let hash := C.pbkdf2 passcode passcodeSalt
  C.decrypt (key hash) (iv hash) encryption

theorem decrypt_eq (C : Cipher) (passcode : List Char) (encryption passcodeSalt : List UInt8) :
    decrypt C passcode encryption passcodeSalt =
      unpack (decrypted C passcode encryption passcodeSalt) := rfl

/-- There is no key, or there is a password of 64 bytes and a secret that fills the container
together with a padding below 16. -/
def Clean (padding length : Nat) (result : Except Exception (Option (List UInt8 × List UInt8))) :
    Prop :=
  result = .ok none ∨ ∃ password secret, result = .ok (some (password, secret)) ∧
    password.length = 64 ∧ padding < 16 ∧ 3 + 64 + secret.length + padding = length

/-- What becomes of any bytes that are long enough to be looked at. -/
theorem unpack_eq {decrypted : List UInt8} (hlen : 3 ≤ decrypted.length) :
    unpack decrypted =
      if Marked decrypted then
        if Fits decrypted then .ok (some (passwordOf decrypted, secretOf decrypted))
        else .error .overflow
      else .ok none := by
  obtain ⟨padding, o, k, rest, rfl⟩ : ∃ padding o k rest,
      decrypted = padding :: o :: k :: rest := by
    obtain _ | ⟨padding, _ | ⟨o, _ | ⟨k, rest⟩⟩⟩ := decrypted
    · cases hlen
    · simp at hlen
    · simp at hlen
    · exact ⟨padding, o, k, rest, rfl⟩
  have hmark : Marked (padding :: o :: k :: rest) ↔ o = 111 ∧ k = 107 := by simp [Marked]
  have hfits : Fits (padding :: o :: k :: rest) ↔ ¬ rest.length < 64 + padding.toNat := by
    simp only [Fits, paddingByte, List.headD_cons, List.length_cons]
    omega
  have hsecret : secretOf (padding :: o :: k :: rest) =
      (rest.drop 64).take (rest.length - 64 - padding.toNat) := by
    simp only [secretOf, paddingByte, List.headD_cons, List.length_cons, List.drop_succ_cons]
    congr 1
  simp only [unpack]
  rw [hsecret]
  by_cases hok : o = 111 ∧ k = 107
  · rw [if_pos hok, if_pos (hmark.2 hok)]
    by_cases hshort : rest.length < 64 + padding.toNat
    · rw [if_pos hshort, if_neg (fun h => hfits.1 h hshort)]
    · rw [if_neg hshort, if_pos (hfits.2 hshort)]
      rfl
  · rw [if_neg hok, if_neg (fun h => hok (hmark.1 h))]

theorem length_passwordOf {decrypted : List UInt8} (hfits : Fits decrypted) :
    (passwordOf decrypted).length = 64 := by
  unfold Fits at hfits
  rw [passwordOf, List.length_take, List.length_drop]
  omega

/-- The password, the secret and the padding fill bytes that fit. -/
theorem length_secretOf {decrypted : List UInt8} (hfits : Fits decrypted) :
    3 + 64 + (secretOf decrypted).length + paddingByte decrypted = decrypted.length := by
  unfold Fits at hfits
  rw [secretOf, List.length_take, List.length_drop]
  omega

/-- Bytes that are marked must have a padding below 16 that leaves room for the password. -/
theorem clean_unpack_iff {decrypted : List UInt8} (hlen : 3 ≤ decrypted.length) :
    Clean (paddingByte decrypted) decrypted.length (unpack decrypted) ↔
      (Marked decrypted → paddingByte decrypted < 16 ∧ Fits decrypted) := by
  rw [unpack_eq hlen]
  by_cases hmark : Marked decrypted
  · rw [if_pos hmark]
    by_cases hfits : Fits decrypted
    · rw [if_pos hfits]
      constructor
      · intro hclean _
        obtain hnone | ⟨_, _, _, _, hpadding, _⟩ := hclean
        · cases hnone
        · exact ⟨hpadding, hfits⟩
      · intro h
        exact .inr ⟨_, _, rfl, length_passwordOf hfits, (h hmark).1, length_secretOf hfits⟩
    · rw [if_neg hfits]
      refine iff_of_false ?_ (fun h => hfits (h hmark).2)
      intro hclean
      obtain hnone | ⟨_, _, hsome, _⟩ := hclean
      · cases hnone
      · cases hsome
  · rw [if_neg hmark]
    exact iff_of_true (.inl rfl) (fun h => absurd h hmark)

end Crypto

/-! ## The callers -/

/-- How a call of a method ends: it returns, it throws, or the process stops. -/
inductive Outcome where
  | returned (result : Option (List UInt8))
  | thrown (e : Exception)
  | aborted
  deriving DecidableEq

/-- The state of the client that `Send` looks at, and the native functions with the public key of
the wallet. -/
structure KeyClient where
  isHandleCreated : Bool
  isDisposed : Bool
  sign : (message password secret : List UInt8) → Option (List UInt8)
  getPrivateKey : (password secret : List UInt8) → Option (List UInt8)
  getSeed : (password secret : List UInt8) → Option (List UInt8)

namespace KeyClient

/-- `LiteClient.Send` of a query of the password and the secret. A client without a handle sends
nothing, a disposed one answers with an error. -/
def send (client : KeyClient) (native : (password secret : List UInt8) → Option (List UInt8))
    (keys : Option (List UInt8 × List UInt8)) : Outcome :=
  if client.isHandleCreated = true ∧ client.isDisposed = false then
    match keys with
    | some (password, secret) => .returned (native password secret)
    -- the null pointers reach `SecureString`, whose `Slice` checks them
    | none => .aborted
  else .returned none

end KeyClient

/-- The methods of `TonWallet` that use the key and do not go through `TonAdapter.Decrypt`. -/
inductive KeyMethod where
  | sign (message : List UInt8)
  | getPrivateKey
  | getSeed

namespace KeyMethod

def native (client : KeyClient) : KeyMethod → (password secret : List UInt8) → Option (List UInt8)
  | sign message => client.sign message
  | getPrivateKey => client.getPrivateKey
  | getSeed => client.getSeed

/-- The method on the stored container. -/
def run (C : Cipher) (client : KeyClient) (method : KeyMethod) (passcode : List Char)
    (encryption passcodeSalt : List UInt8) : Outcome :=
  match Crypto.decrypt C passcode encryption passcodeSalt with
  | .error e => .thrown e
  | .ok keys => client.send (method.native client) keys

end KeyMethod

/-- AES-IGE works in the array. -/
def Cipher.KeepsLength (C : Cipher) : Prop :=
  ∀ key iv data, (C.decrypt key iv data).length = data.length

/-- A passcode under which the container gives no key makes the method return nothing. -/
def Reports (C : Cipher) (client : KeyClient) (method : KeyMethod) (passcode : List Char)
    (encryption passcodeSalt : List UInt8) : Prop :=
  (∀ keys, Crypto.decrypt C passcode encryption passcodeSalt ≠ .ok (some keys)) →
    method.run C client passcode encryption passcodeSalt = .returned none

section
variable {C : Cipher} (hC : C.KeepsLength)
variable {encryption : List UInt8}
variable (hpos : 0 < encryption.length) (hblocks : encryption.length % 16 = 0)
include hC

theorem length_decrypted (passcode : List Char) (passcodeSalt : List UInt8) :
    (Crypto.decrypted C passcode encryption passcodeSalt).length = encryption.length :=
  hC _ _ _

include hpos hblocks

theorem three_le_length_decrypted (passcode : List Char) (passcodeSalt : List UInt8) :
    3 ≤ (Crypto.decrypted C passcode encryption passcodeSalt).length := by
  rw [length_decrypted hC]
  omega

/-- The answer of a container is clean exactly when bytes that are marked have a padding below 16
that fits. -/
theorem clean_decrypt_iff (passcode : List Char) (passcodeSalt : List UInt8) :
    Crypto.Clean (Crypto.paddingByte (Crypto.decrypted C passcode encryption passcodeSalt))
        encryption.length (Crypto.decrypt C passcode encryption passcodeSalt) ↔
      (Crypto.Marked (Crypto.decrypted C passcode encryption passcodeSalt) →
        Crypto.paddingByte (Crypto.decrypted C passcode encryption passcodeSalt) < 16 ∧
          Crypto.Fits (Crypto.decrypted C passcode encryption passcodeSalt)) := by
  have hiff :=
    Crypto.clean_unpack_iff (three_le_length_decrypted hC hpos hblocks passcode passcodeSalt)
  rw [length_decrypted hC] at hiff
  exact hiff

/-- A method reports the lack of a key exactly when the bytes are marked and fit, so that there is
one, or are not marked and the client does not run. -/
theorem reports_iff (client : KeyClient) (method : KeyMethod) (passcode : List Char)
    (passcodeSalt : List UInt8) :
    Reports C client method passcode encryption passcodeSalt ↔
      if Crypto.Marked (Crypto.decrypted C passcode encryption passcodeSalt) then
        Crypto.Fits (Crypto.decrypted C passcode encryption passcodeSalt)
      else ¬ (client.isHandleCreated = true ∧ client.isDisposed = false) := by
  have hlen := three_le_length_decrypted hC hpos hblocks passcode passcodeSalt
  unfold Reports KeyMethod.run
  rw [Crypto.decrypt_eq, Crypto.unpack_eq hlen]
  by_cases hmark : Crypto.Marked (Crypto.decrypted C passcode encryption passcodeSalt)
  · rw [if_pos hmark, if_pos hmark]
    by_cases hfits : Crypto.Fits (Crypto.decrypted C passcode encryption passcodeSalt)
    · -- there is a key, and nothing to report
      rw [if_pos hfits]
      exact iff_of_true (fun hnone => absurd rfl (hnone _)) hfits
    · rw [if_neg hfits]
      refine iff_of_false ?_ hfits
      intro hreports
      cases hreports nofun
  · rw [if_neg hmark, if_neg hmark]
    simp only [KeyClient.send]
    split_ifs with hruns
    · refine iff_of_false ?_ (not_not_intro hruns)
      intro hreports
      cases hreports nofun
    · exact iff_of_true (fun _ => rfl) hruns

/-- When a container is rejected cleanly under a passcode, and when the methods of the wallet
report it. -/
theorem decrypt_clean_iff (client : KeyClient) (passcode : List Char) (passcodeSalt : List UInt8) :
    (Crypto.Clean (Crypto.paddingByte (Crypto.decrypted C passcode encryption passcodeSalt))
        encryption.length (Crypto.decrypt C passcode encryption passcodeSalt) ↔
      (Crypto.Marked (Crypto.decrypted C passcode encryption passcodeSalt) →
        Crypto.paddingByte (Crypto.decrypted C passcode encryption passcodeSalt) < 16 ∧
          Crypto.Fits (Crypto.decrypted C passcode encryption passcodeSalt))) ∧
    ∀ method : KeyMethod, Reports C client method passcode encryption passcodeSalt ↔
      if Crypto.Marked (Crypto.decrypted C passcode encryption passcodeSalt) then
        Crypto.Fits (Crypto.decrypted C passcode encryption passcodeSalt)
      else ¬ (client.isHandleCreated = true ∧ client.isDisposed = false) :=
  ⟨clean_decrypt_iff hC hpos hblocks passcode passcodeSalt,
    fun method => reports_iff hC hpos hblocks client method passcode passcodeSalt⟩

end

/-! ## A wrong passcode whose bytes are marked

    The container was made under the passcode 111, of a password of 64 bytes and a secret
    of 32. Under 112 its padding byte is 234. -/

namespace WrongPasscode

def salt : List UInt8 := List.replicate 32 0

/-- PBKDF2 of 112 and the salt. -/
def hash : Vector UInt8 64 := #v[
    0x59, 0x2d, 0x63, 0x8c, 0x82, 0x18, 0xc7, 0x7c, 0x8c, 0x7b, 0x8d, 0x4f, 0x3f, 0xdf, 0x70, 0xb6,
    0x8c, 0x27, 0x06, 0x4b, 0x1b, 0x97, 0xc8, 0x62, 0x36, 0x89, 0xa0, 0x33, 0x40, 0x22, 0x4e, 0x97,
    0x9a, 0x8e, 0x12, 0x86, 0x1f, 0x89, 0x78, 0xac, 0xf1, 0xc0, 0xc4, 0xda, 0x8b, 0x63, 0x13, 0x4d,
    0xda, 0x5d, 0x12, 0xfd, 0x24, 0x90, 0x91, 0xe5, 0xc4, 0xa0, 0xeb, 0x2d, 0xd5, 0x65, 0x28, 0xc4]

/-- The container. -/
def stored : List UInt8 := [
    0xf3, 0x23, 0x33, 0xc3, 0xca, 0xbf, 0x63, 0x56, 0xb7, 0x0c, 0x4e, 0x81, 0x81, 0x06, 0x3a, 0xee,
    0x77, 0x73, 0xb8, 0x95, 0xf8, 0x07, 0x9e, 0xb9, 0xc8, 0x2f, 0x8e, 0x88, 0x5f, 0x4d, 0x30, 0x86,
    0x42, 0xa1, 0xc6, 0x05, 0xbc, 0xf8, 0xa0, 0xe3, 0xa0, 0xf0, 0x3c, 0xc3, 0x04, 0xf7, 0x39, 0x63,
    0x85, 0x51, 0x06, 0xc4, 0x99, 0xdb, 0x42, 0x62, 0x88, 0x00, 0xbb, 0x6b, 0xa8, 0xaa, 0x43, 0x11,
    0xa7, 0x81, 0xa8, 0x06, 0x3c, 0x90, 0x6d, 0x88, 0x2c, 0xf4, 0x50, 0xfe, 0xd4, 0x64, 0xcd, 0xa2,
    0x36, 0xcb, 0x00, 0x1e, 0xf0, 0xb3, 0xc3, 0x91, 0x1a, 0x9b, 0x80, 0xf3, 0x90, 0xfa, 0x9b, 0x87,
    0x33, 0x5d, 0x79, 0x24, 0xd4, 0xc9, 0x9c, 0x24, 0xd9, 0xcb, 0x01, 0x3e, 0x9b, 0xfc, 0x5e, 0x51]

/-- What it decrypts to under 112. -/
def other : List UInt8 := [
    0xea, 0x6f, 0x6b, 0x69, 0x90, 0xce, 0x0a, 0x4a, 0xe8, 0xcb, 0x38, 0xb1, 0xef, 0x15, 0x70, 0x55,
    0xa5, 0xc0, 0xa1, 0xd3, 0xa3, 0x18, 0xac, 0x8b, 0xcf, 0xc7, 0x5b, 0x55, 0x10, 0xb2, 0xb7, 0xf5,
    0xf6, 0x67, 0x43, 0xdc, 0x5b, 0xdb, 0x20, 0x38, 0x4b, 0x84, 0x72, 0x59, 0xf5, 0x4e, 0xc4, 0x29,
    0x91, 0x73, 0x4b, 0xa8, 0x3b, 0xb6, 0x3d, 0xfa, 0x15, 0x99, 0x80, 0xfa, 0xd1, 0xcb, 0x32, 0x1f,
    0xba, 0xa2, 0x44, 0x70, 0xe6, 0xff, 0x1d, 0x63, 0xf4, 0x42, 0x1a, 0x5a, 0xcc, 0x3c, 0x34, 0x22,
    0xb3, 0xea, 0xa7, 0x3d, 0xbe, 0x53, 0x48, 0xba, 0xc3, 0xb9, 0x26, 0x79, 0x71, 0x80, 0xc9, 0x77,
    0x1b, 0xc8, 0x60, 0x47, 0x38, 0x8f, 0xae, 0x92, 0x9e, 0xdf, 0x9c, 0x32, 0x2a, 0x7b, 0x24, 0xd6]

/-- The pair of the container and its decryption, taken both ways. -/
def cipher : Cipher where
  encrypt _ _ data := Equiv.swap stored other data
  decrypt _ _ data := Equiv.swap stored other data
  pbkdf2 _ _ := hash

def passcode : List Char := "112".toList

theorem cipher_keepsLength : cipher.KeepsLength := by
  intro key iv data
  have hlen : stored.length = other.length := rfl
  simp only [cipher, Equiv.swap_apply_def]
  split_ifs with hstored hother
  · rw [hstored, hlen]
  · rw [hother, hlen]
  · rfl

/-- A client that runs. -/
def client : KeyClient where
  isHandleCreated := true
  isDisposed := false
  sign _ _ _ := none
  getPrivateKey _ _ := none
  getSeed _ _ := none

theorem decrypted_stored : Crypto.decrypted cipher passcode stored salt = other := by
  simp only [Crypto.decrypted, cipher, Equiv.swap_apply_left]

theorem decrypt_stored : Crypto.decrypt cipher passcode stored salt = .error .overflow := by
  rw [Crypto.decrypt_eq, decrypted_stored]
  decide

end WrongPasscode

/-- The container and the passcode meet the conditions. -/
theorem decrypt_clean_112 :
    (Crypto.Clean (Crypto.paddingByte (Crypto.decrypted WrongPasscode.cipher
          WrongPasscode.passcode WrongPasscode.stored WrongPasscode.salt))
        WrongPasscode.stored.length (Crypto.decrypt WrongPasscode.cipher WrongPasscode.passcode
          WrongPasscode.stored WrongPasscode.salt) ↔
      (Crypto.Marked (Crypto.decrypted WrongPasscode.cipher WrongPasscode.passcode
          WrongPasscode.stored WrongPasscode.salt) →
        Crypto.paddingByte (Crypto.decrypted WrongPasscode.cipher WrongPasscode.passcode
            WrongPasscode.stored WrongPasscode.salt) < 16 ∧
          Crypto.Fits (Crypto.decrypted WrongPasscode.cipher WrongPasscode.passcode
            WrongPasscode.stored WrongPasscode.salt))) ∧
    ∀ method : KeyMethod, Reports WrongPasscode.cipher WrongPasscode.client method
        WrongPasscode.passcode WrongPasscode.stored WrongPasscode.salt ↔
      if Crypto.Marked (Crypto.decrypted WrongPasscode.cipher WrongPasscode.passcode
          WrongPasscode.stored WrongPasscode.salt) then
        Crypto.Fits (Crypto.decrypted WrongPasscode.cipher WrongPasscode.passcode
          WrongPasscode.stored WrongPasscode.salt)
      else ¬ (WrongPasscode.client.isHandleCreated = true ∧
        WrongPasscode.client.isDisposed = false) :=
  decrypt_clean_iff WrongPasscode.cipher_keepsLength (by decide) (by decide) _ _ _

/-- The container is not rejected cleanly, and `Sign` throws. -/
theorem not_clean_112 :
    ¬ (Crypto.Clean (Crypto.paddingByte (Crypto.decrypted WrongPasscode.cipher
          WrongPasscode.passcode WrongPasscode.stored WrongPasscode.salt))
        WrongPasscode.stored.length (Crypto.decrypt WrongPasscode.cipher WrongPasscode.passcode
          WrongPasscode.stored WrongPasscode.salt)) ∧
    ¬ Reports WrongPasscode.cipher WrongPasscode.client (.sign []) WrongPasscode.passcode
        WrongPasscode.stored WrongPasscode.salt := by
  unfold Reports KeyMethod.run
  rw [WrongPasscode.decrypt_stored]
  constructor
  · intro hclean
    obtain hnone | ⟨_, _, hsome, _⟩ := hclean
    · cases hnone
    · cases hsome
  · intro hreports
    cases hreports nofun

end Ton
