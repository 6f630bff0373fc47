import TopWallets.BigInteger
import TopWallets.Exceptions
import TopWallets.Lib.Runs
import Mathlib.Logic.Equiv.Basic

/- The secret of a wallet under its passcode: `Crypto`, `KeyData` and
   `TonAdapter.GetWallet`.

   `Crypto.Encrypt` puts the local password and the secret into one padded buffer,
   `SetPasscode` encrypts that buffer and `Decrypt` takes it apart again. AES-IGE and
   PBKDF2 are parameters; assumed is that decryption inverts encryption. The
   encrypted bytes leave and come back as base64 text, which is exact and left out.

   `SetPasscode` encrypts in the caller's array. What is proved:
     1. `decrypt_setPasscode_encrypt` — the pair of one call decrypts to the password
        and the secret, when the buffer was the one `Encrypt` made.
     2. `forall_intact_iff` — over any calls on one `KeyData`, each pair decrypts to
        the original and the buffer stays as it was exactly when the cipher maps the
        buffer to itself in every call that encrypts. -/
namespace Ton

open Runs

/-- AES-IGE of a whole buffer, in the key and the initial vector, and PBKDF2 with 100000 rounds. -/
structure Cipher where
  encrypt : List UInt8 → List UInt8 → List UInt8 → List UInt8
  decrypt : List UInt8 → List UInt8 → List UInt8 → List UInt8
  pbkdf2 : List Char → List UInt8 → Vector UInt8 64

/-- Decryption inverts encryption of whole blocks. -/
structure Cipher.Lawful (C : Cipher) : Prop where
  decrypt_encrypt : ∀ key iv data, data.length % 16 = 0 →
    C.decrypt key iv (C.encrypt key iv data) = data

namespace Crypto

def key (hash : Vector UInt8 64) : List UInt8 := hash.toList.take 32

def iv (hash : Vector UInt8 64) : List UInt8 := (hash.toList.drop 32).take 32

/-- The length of the padding to whole blocks. -/
def padding (len : Nat) : Nat := if len % 16 ≠ 0 then 16 - len % 16 else 0

/-- `Crypto.Encrypt`: the buffer of a password and a secret. -/
def encrypt (random : (n : Nat) → Vector UInt8 n) (password secret : List UInt8) : List UInt8 :=
  let padding := padding (1 + 2 + password.length + secret.length)
  UInt8.ofNat padding :: 111 :: 107 :: (password ++ secret ++ (random padding).toList)

/-- The password, the secret and the padding of a buffer. -/
def unpack : List UInt8 → Except Exception (Option (List UInt8 × List UInt8))
  | padding :: o :: k :: rest =>
    if o = 111 ∧ k = 107 then
      if rest.length < 64 + padding.toNat then .error .overflow
      else .ok (some (rest.take 64, (rest.drop 64).take (rest.length - 64 - padding.toNat)))
    else .ok none
  | [_, o] => if o = 111 then .error .indexOutOfRange else .ok none
  | _ => .error .indexOutOfRange

variable (C : Cipher)

/-- What `SetPasscode` leaves in the caller's buffer, and returns with the salt. -/
def setPasscode (passcode : List Char) (passcodeSalt dataToEncrypt : List UInt8) : List UInt8 :=
  let hash := C.pbkdf2 passcode passcodeSalt
  C.encrypt (key hash) (iv hash) dataToEncrypt

def decrypt (passcode : List Char) (encryption passcodeSalt : List UInt8) :
    Except Exception (Option (List UInt8 × List UInt8)) :=
  let hash := C.pbkdf2 passcode passcodeSalt
  unpack (C.decrypt (key hash) (iv hash) encryption)

/-! ## One buffer -/

theorem padding_lt (len : Nat) : padding len < 16 := by
  rw [padding]
  split <;> omega

theorem padding_fills (len : Nat) : (len + padding len) % 16 = 0 := by
  rw [padding]
  split <;> omega

theorem length_encrypt_mod (random : (n : Nat) → Vector UInt8 n) (password secret : List UInt8) :
    (encrypt random password secret).length % 16 = 0 := by
  have h := padding_fills (1 + 2 + password.length + secret.length)
  simp only [encrypt, List.length_cons, List.length_append, Vector.length_toList]
  rw [← h]
  congr 1
  omega

/-- The buffer of a password of 64 bytes comes apart again. -/
theorem unpack_encrypt (random : (n : Nat) → Vector UInt8 n) {password : List UInt8}
    (hpassword : password.length = 64) (secret : List UInt8) :
    unpack (encrypt random password secret) = .ok (some (password, secret)) := by
  have hlt := padding_lt (1 + 2 + password.length + secret.length)
  rw [encrypt]
  generalize padding (1 + 2 + password.length + secret.length) = n at hlt
  have hn : (UInt8.ofNat n).toNat = n := by
    rw [UInt8.toNat_ofNat']
    omega
  have hlen : (password ++ secret ++ (random n).toList).length = 64 + secret.length + n := by
    simp [hpassword, Nat.add_assoc]
  have hsecret : 64 + secret.length + n - 64 - n = secret.length := by omega
  simp only [unpack, and_self, ↓reduceIte, hlen, hn]
  rw [if_neg (by omega), hsecret, List.append_assoc, ← hpassword, List.take_left, List.drop_left,
    List.take_left]

variable {C}

/-- What `SetPasscode` makes of a buffer decrypts to what the buffer holds. -/
theorem decrypt_setPasscode (hC : C.Lawful) (passcode : List Char) (passcodeSalt : List UInt8)
    {dataToEncrypt : List UInt8} (hdata : dataToEncrypt.length % 16 = 0) :
    decrypt C passcode (setPasscode C passcode passcodeSalt dataToEncrypt) passcodeSalt =
      unpack dataToEncrypt := by
  rw [decrypt, setPasscode, hC.decrypt_encrypt _ _ _ hdata]

/-- The buffer has whole blocks, and its encryption decrypts to the password and the secret,
whatever the length of the secret and the padding. -/
theorem decrypt_setPasscode_encrypt (hC : C.Lawful) (random : (n : Nat) → Vector UInt8 n)
    {password : List UInt8} (hpassword : password.length = 64) (secret : List UInt8)
    (passcode : List Char) (passcodeSalt : List UInt8) :
    (encrypt random password secret).length % 16 = 0 ∧
      decrypt C passcode (setPasscode C passcode passcodeSalt (encrypt random password secret))
        passcodeSalt = .ok (some (password, secret)) := by
  have hblocks := length_encrypt_mod random password secret
  refine ⟨hblocks, ?_⟩
  rw [decrypt_setPasscode hC _ _ hblocks, unpack_encrypt random hpassword]

end Crypto

/-! ## Calls on one key -/

/-- The fields of `KeyData` that the calls use. `dataToEncrypt` is one array, which every call is
given. -/
structure KeyData where
  password : List UInt8
  secret : List UInt8
  dataToEncrypt : List UInt8

/-- The constructor. -/
def KeyData.new (random : (n : Nat) → Vector UInt8 n) (password secret : List UInt8) : KeyData :=
  ⟨password, secret, Crypto.encrypt random password secret⟩

/-- A call, with the salt the generator returns in it. `GetWallet` encrypts only when the state of
the account is there. -/
inductive KeyCall where
  | setPasscode (passcode : List Char) (passcodeSalt : List UInt8)
  | getWallet (passcode : List Char) (passcodeSalt : List UInt8) (found : Bool)

/-- What a call returned: the passcode it was given, the encryption and the salt. -/
structure Encryption where
  passcode : List Char
  encryption : List UInt8
  passcodeSalt : List UInt8

/-- The array and what the calls returned so far. -/
structure KeyState where
  dataToEncrypt : List UInt8
  encryptions : List Encryption

/-- The passcode and the salt of a call that encrypts. -/
def KeyCall.encrypts : KeyCall → Option (List Char × List UInt8)
  | .setPasscode passcode salt => some (passcode, salt)
  | .getWallet passcode salt found => if found then some (passcode, salt) else none

namespace KeyState

variable (C : Cipher)

/-- `SetPasscode` on the array. -/
def setPasscode (s : KeyState) (passcode : List Char) (passcodeSalt : List UInt8) : KeyState :=
  let dataToEncrypt := Crypto.setPasscode C passcode passcodeSalt s.dataToEncrypt
  ⟨dataToEncrypt, s.encryptions ++ [⟨passcode, dataToEncrypt, passcodeSalt⟩]⟩

def call (s : KeyState) : KeyCall → KeyState
  | .setPasscode passcode passcodeSalt => s.setPasscode C passcode passcodeSalt
  | .getWallet passcode passcodeSalt found =>
    if found then s.setPasscode C passcode passcodeSalt else s

def Step (s : KeyState) (c : KeyCall) (s' : KeyState) : Prop := s' = s.call C c

def ofKey (key : KeyData) : KeyState := ⟨key.dataToEncrypt, []⟩

/-- Every pair decrypts under its own passcode to the password and the secret of the key, and the
array is as the key has it. -/
structure Intact (key : KeyData) (s : KeyState) : Prop where
  buffer : s.dataToEncrypt = key.dataToEncrypt
  decrypts : ∀ e ∈ s.encryptions,
    Crypto.decrypt C e.passcode e.encryption e.passcodeSalt = .ok (some (key.password, key.secret))

/-- The cipher maps the array of the key to itself, if the call encrypts it. -/
def FixedBy (key : KeyData) (c : KeyCall) : Prop :=
  ∀ p ∈ c.encrypts, Crypto.setPasscode C p.1 p.2 key.dataToEncrypt = key.dataToEncrypt

end KeyState

variable {C : Cipher}

theorem KeyState.call_eq (s : KeyState) (c : KeyCall) :
    s.call C c = match c.encrypts with
      | some (passcode, passcodeSalt) => s.setPasscode C passcode passcodeSalt
      | none => s := by
  cases c with
  | setPasscode passcode passcodeSalt => rfl
  | getWallet passcode passcodeSalt found => cases found <;> rfl

/-- A call keeps a key intact exactly when the cipher fixes its array. -/
theorem KeyState.intact_call_iff (hC : C.Lawful) {random : (n : Nat) → Vector UInt8 n}
    {password : List UInt8} (hpassword : password.length = 64) {secret : List UInt8}
    {s : KeyState} (hs : Intact C (.new random password secret) s) (c : KeyCall) :
    Intact C (.new random password secret) (s.call C c) ↔
      FixedBy C (.new random password secret) c := by
  rw [call_eq, FixedBy]
  cases c.encrypts with
  | none => exact iff_of_true hs nofun
  | some p =>
    obtain ⟨passcode, passcodeSalt⟩ := p
    simp only [Option.mem_some_iff, forall_eq']
    rw [← hs.buffer]
    constructor
    · exact fun h => h.buffer.trans hs.buffer.symm
    · intro hfix
      refine ⟨hfix.trans hs.buffer, fun e he => ?_⟩
      rcases List.mem_append.1 he with he | he
      · exact hs.decrypts e he
      · obtain rfl := List.mem_singleton.1 he
        -- the new pair was made of the array as it was
        have hunpack := Crypto.unpack_encrypt random hpassword secret
        have hlen := Crypto.length_encrypt_mod random password secret
        have hbuffer : s.dataToEncrypt = Crypto.encrypt random password secret := hs.buffer
        rw [← hbuffer] at hunpack hlen
        exact (Crypto.decrypt_setPasscode hC passcode passcodeSalt hlen).trans hunpack

/-- Over any calls on one key, its pairs and its array stay intact exactly when the cipher fixes
the array in every call that encrypts. -/
theorem forall_intact_iff (hC : C.Lawful) (random : (n : Nat) → Vector UInt8 n)
    {password : List UInt8} (hpassword : password.length = 64) (secret : List UInt8)
    {trace : List (KeyState × KeyCall)} {s : KeyState}
    (hrun : Run (KeyState.Step C) (.ofKey (.new random password secret)) trace s) :
    (∀ t ∈ states trace s, KeyState.Intact C (.new random password secret) t) ↔
      ∀ p ∈ trace, KeyState.FixedBy C (.new random password secret) p.2 := by
  have hinit : KeyState.Intact C (.new random password secret)
      (.ofKey (.new random password secret)) := ⟨rfl, by simp [KeyState.ofKey]⟩
  have hcall : ∀ {t : KeyState} {c : KeyCall} {t' : KeyState},
      KeyState.Intact C (.new random password secret) t → KeyState.Step C t c t' →
      (KeyState.Intact C (.new random password secret) t' ↔
        KeyState.FixedBy C (.new random password secret) c) := by
    rintro t c _ ht rfl
    exact KeyState.intact_call_iff hC hpassword ht c
  have hiff := hrun.forall_states_iff_step hinit hcall
  exact hiff

/-! ## Two calls

    The create form is completed twice, with the passcodes 111 and 222. The cipher has
    the values of AES-IGE and PBKDF2 that come up. -/

namespace TwoPasscodes

def salt : List UInt8 := List.replicate 32 0

def salt' : List UInt8 := List.replicate 32 1

/-- PBKDF2 of 111 and the first salt. -/
def hash : Vector UInt8 64 := #v[
    0x16, 0x63, 0xcc, 0x93, 0x9b, 0x65, 0x91, 0x1b, 0x61, 0x40, 0x16, 0x25, 0x12, 0x9e, 0xd3, 0x4d,
    0xa9, 0x64, 0x25, 0xd7, 0xc9, 0xfb, 0x17, 0x02, 0xdc, 0x67, 0xbd, 0xb2, 0x0a, 0xe3, 0xe5, 0x0e,
    0x1f, 0x53, 0xf0, 0x22, 0x93, 0x32, 0x23, 0x53, 0x8a, 0x87, 0xb6, 0x18, 0x5e, 0x4b, 0x98, 0x0c,
    0xb0, 0xc2, 0x2d, 0x40, 0x60, 0x35, 0xb8, 0x80, 0x94, 0x49, 0xba, 0x2a, 0x38, 0xb9, 0x4d, 0xd9]

/-- PBKDF2 of 222 and the second salt. -/
def hash' : Vector UInt8 64 := #v[
    0xa8, 0x24, 0xa6, 0x19, 0x82, 0xc7, 0xb7, 0xc3, 0xde, 0x21, 0x3e, 0x1a, 0x36, 0x2f, 0x29, 0x8b,
    0x07, 0x1b, 0x56, 0x2b, 0x81, 0x6b, 0xd0, 0xd8, 0x24, 0x01, 0x2b, 0xd3, 0x65, 0xf0, 0x1f, 0xcc,
    0xbc, 0x8e, 0xa6, 0x38, 0x42, 0x1e, 0x1c, 0xa5, 0x73, 0x92, 0xa1, 0x66, 0x40, 0xa5, 0x72, 0x8f,
    0x00, 0xd2, 0x07, 0x7b, 0x81, 0x59, 0x3a, 0xd9, 0x2e, 0xbb, 0xc5, 0xb2, 0xfb, 0x4f, 0x04, 0x67]

def random (n : Nat) : Vector UInt8 n := Vector.replicate n 0

/-- The password is the bytes 0 to 63, the secret the bytes 64 to 95. -/
def keyData : KeyData :=
  .new random ((List.range 64).map UInt8.ofNat) ((List.range' 64 32).map UInt8.ofNat)

/-- The array after the first call. -/
def once : List UInt8 := [
    0x0b, 0xd0, 0xa6, 0x65, 0x67, 0x44, 0x4c, 0xd5, 0x51, 0x80, 0xf9, 0x2a, 0x71, 0x35, 0xd9, 0xfe,
    0x01, 0x1e, 0xf6, 0x07, 0x47, 0xee, 0xcc, 0x34, 0xf1, 0x57, 0x01, 0x8b, 0x90, 0xc5, 0xd8, 0xa8,
    0xcc, 0xb7, 0x51, 0xec, 0x7e, 0x52, 0xe0, 0xbe, 0x43, 0x78, 0x70, 0x35, 0xe7, 0x3a, 0x74, 0xcd,
    0x92, 0xc4, 0x05, 0xf5, 0x51, 0xdb, 0x4c, 0xec, 0x63, 0x86, 0xe7, 0x6a, 0x81, 0x51, 0x8e, 0xef,
    0x8e, 0xe3, 0x37, 0xf7, 0x82, 0x20, 0x69, 0x60, 0x64, 0x57, 0x46, 0xba, 0x8b, 0x2f, 0xa9, 0xba,
    0x3b, 0x38, 0x64, 0xf3, 0x47, 0x55, 0x1f, 0x8b, 0x20, 0x34, 0xfe, 0xbb, 0x2c, 0x9c, 0x15, 0xa8,
    0xb7, 0x84, 0x01, 0x0f, 0xa5, 0x02, 0xdd, 0x92, 0xd1, 0x00, 0x8c, 0xad, 0x05, 0xd9, 0x5e, 0x07]

/-- The array after the second. -/
def twice : List UInt8 := [
    0x51, 0xfb, 0xbe, 0x11, 0x2f, 0xca, 0x69, 0x90, 0x5b, 0x2b, 0x77, 0x94, 0xa9, 0x65, 0xd2, 0x78,
    0x36, 0xf6, 0x53, 0x14, 0xf3, 0x67, 0xaa, 0x61, 0x1c, 0xac, 0xce, 0xc8, 0x61, 0xff, 0xc2, 0x51,
    0xb6, 0x56, 0x81, 0xbd, 0xe2, 0xa2, 0x71, 0x94, 0x33, 0x5c, 0x12, 0x00, 0xed, 0xd0, 0xbb, 0xbf,
    0x80, 0x4d, 0x32, 0xad, 0xe4, 0x6f, 0x44, 0xc9, 0x2c, 0x40, 0x33, 0x6d, 0x78, 0x18, 0x2f, 0xde,
    0x4e, 0x1f, 0x55, 0x1c, 0xd5, 0xbf, 0x5c, 0x77, 0x86, 0x28, 0xb2, 0xf7, 0x52, 0x6d, 0x95, 0x4f,
    0xb2, 0x46, 0x64, 0x81, 0x05, 0x90, 0x48, 0x12, 0x6a, 0xa8, 0xb0, 0x8d, 0x83, 0x1b, 0x4a, 0xd1,
    0x26, 0x8b, 0x4d, 0x5d, 0x63, 0x7a, 0x15, 0xf8, 0xf7, 0x27, 0x10, 0xa0, 0xc2, 0xa9, 0xa8, 0x17]

/-- Each pair of a buffer and its encryption, taken both ways. -/
def cipher : Cipher where
  encrypt key iv data :=
    if key = Crypto.key hash ∧ iv = Crypto.iv hash then
      Equiv.swap keyData.dataToEncrypt once data
    else Equiv.swap once twice data
  decrypt key iv data :=
    if key = Crypto.key hash ∧ iv = Crypto.iv hash then
      Equiv.swap keyData.dataToEncrypt once data
    else Equiv.swap once twice data
  pbkdf2 passcode passcodeSalt :=
    if passcode = "111".toList ∧ passcodeSalt = salt then hash else hash'

theorem cipher_lawful : cipher.Lawful where
  decrypt_encrypt key iv data _ := by
    simp only [cipher]
    split <;> exact Equiv.swap_apply_self _ _ _

def passcode : List Char := "111".toList

def passcode' : List Char := "222".toList

theorem setPasscode_first :
    Crypto.setPasscode cipher passcode salt keyData.dataToEncrypt = once := by
  have hhash : cipher.pbkdf2 passcode salt = hash := by
    simp only [cipher, passcode, and_self, ↓reduceIte]
  rw [Crypto.setPasscode, hhash]
  simp only [cipher, and_self, ↓reduceIte, Equiv.swap_apply_left]

theorem setPasscode_second : Crypto.setPasscode cipher passcode' salt' once = twice := by
  have hhash : cipher.pbkdf2 passcode' salt' = hash' := by
    simp only [cipher]
    exact if_neg (by decide)
  rw [Crypto.setPasscode, hhash]
  simp only [cipher]
  rw [if_neg (by decide), Equiv.swap_apply_left]

def first : KeyState := (KeyState.ofKey keyData).setPasscode cipher passcode salt

def second : KeyState := first.setPasscode cipher passcode' salt'

theorem run : ∃ trace, Run (KeyState.Step cipher) (.ofKey keyData) trace second := by
  have hfirst : KeyState.Step cipher (.ofKey keyData) (.setPasscode passcode salt) first := rfl
  have hsecond : KeyState.Step cipher first (.setPasscode passcode' salt') second := rfl
  exact ⟨_, (Run.nil.snoc hfirst).snoc hsecond⟩

/-- The pair of the second call holds the first one's encryption, which is no buffer. -/
theorem decrypt_second : Crypto.decrypt cipher passcode' twice salt' = .ok none := by
  have hlen : once.length % 16 = 0 := rfl
  rw [← setPasscode_second, Crypto.decrypt_setPasscode cipher_lawful _ _ hlen]
  rfl

theorem not_intact : ¬ KeyState.Intact cipher keyData second := by
  intro hintact
  have hmem : (⟨passcode', twice, salt'⟩ : Encryption) ∈ second.encryptions := by
    have hbuffer : first.dataToEncrypt = once := setPasscode_first
    rw [second, KeyState.setPasscode, hbuffer, setPasscode_second]
    exact List.mem_append_right _ List.mem_cons_self
  have hdecrypt := hintact.decrypts _ hmem
  rw [decrypt_second] at hdecrypt
  cases hdecrypt

end TwoPasscodes

/-- A password of 64 bytes and a secret of 32, padded with 13. -/
theorem decrypt_setPasscode_encrypt_111 :
    (Crypto.encrypt TwoPasscodes.random ((List.range 64).map UInt8.ofNat)
        ((List.range' 64 32).map UInt8.ofNat)).length % 16 = 0 ∧
      Crypto.decrypt TwoPasscodes.cipher TwoPasscodes.passcode
        (Crypto.setPasscode TwoPasscodes.cipher TwoPasscodes.passcode TwoPasscodes.salt
          (Crypto.encrypt TwoPasscodes.random ((List.range 64).map UInt8.ofNat)
            ((List.range' 64 32).map UInt8.ofNat))) TwoPasscodes.salt =
        .ok (some ((List.range 64).map UInt8.ofNat, (List.range' 64 32).map UInt8.ofNat)) :=
  Crypto.decrypt_setPasscode_encrypt TwoPasscodes.cipher_lawful TwoPasscodes.random (by decide) _
    TwoPasscodes.passcode TwoPasscodes.salt

/-- AES-IGE does not fix the array in both calls. -/
theorem not_fixed_two_passcodes : ∃ trace,
    Run (KeyState.Step TwoPasscodes.cipher) (.ofKey TwoPasscodes.keyData) trace
      TwoPasscodes.second ∧
      ¬ ∀ p ∈ trace, KeyState.FixedBy TwoPasscodes.cipher TwoPasscodes.keyData p.2 := by
  obtain ⟨trace, hrun⟩ := TwoPasscodes.run
  refine ⟨trace, hrun, fun hall => TwoPasscodes.not_intact ?_⟩
  exact (forall_intact_iff TwoPasscodes.cipher_lawful _ (by decide) _ hrun).2 hall _
    (mem_states_last _ _)

/-- A key does not stay intact over every sequence of calls. -/
theorem not_intact_two_passcodes :
    ¬ ∀ (trace : List (KeyState × KeyCall)) (s : KeyState),
      Run (KeyState.Step TwoPasscodes.cipher) (.ofKey TwoPasscodes.keyData) trace s →
        KeyState.Intact TwoPasscodes.cipher TwoPasscodes.keyData s := by
  intro hall
  obtain ⟨trace, hrun⟩ := TwoPasscodes.run
  exact TwoPasscodes.not_intact (hall trace _ hrun)

end Ton
