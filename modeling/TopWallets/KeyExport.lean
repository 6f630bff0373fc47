import TopWallets.Crypto
import Mathlib.Logic.Function.Basic

/- Export and import of the key of a wallet: `TonWallet.ExportData`,
   `TonWallet.ImportData` and the native functions under them.

   The native key storage is `KeyStorage`; `KeyStorage.Lawful` says of it that what was
   exported imports again under the same data password, and that the secret of
   an import opens with exactly the local password it was imported under. The local
   password is an array of 64 bytes. Every native function reads those 64 bytes, except
   `LiteClientImportKey`, which reads up to the first zero byte, in the array or after it.

   Main result: the key of an export is there again after its import exactly when the
   local password has no zero byte and the byte after the array is zero
   (`recovers_iff`).

   Correspondence (C++ / C# ↔ Lean):
     `KeyStorage`                      ↔ `KeyStorage`
     `Slice(const char*)`              ↔ `cString`
     `LiteClientExportKey`             ↔ `liteClientExportKey`
     `LiteClientImportKey`             ↔ `liteClientImportKey`
     `LiteClientGetPrivateKey`         ↔ `liteClientGetPrivateKey`
     `TonWallet.ExportData`, `.ImportData` ↔ `TonWallet.exportData`, `TonWallet.importData`
   A data password crosses the boundary as a C string, in the same way each time:
   `marshal` is that string. -/
namespace Ton

/-- `KeyStorage::Key`. -/
structure StoredKey where
  publicKey : List UInt8
  secret : List UInt8

/-- The key storage. A key that is found at a deprecated place is moved while it is read, which
does not change what is read. -/
structure KeyStorage where
  Store : Type
  exportEncryptedKey : Store → StoredKey → (localPassword keyPassword : List UInt8) →
    Except String (List UInt8)
  importEncryptedKey : Store → (localPassword keyPassword data : List UInt8) →
    Except String (Vector UInt8 32 × Store)
  loadPrivateKey : Store → StoredKey → (localPassword : List UInt8) → Except String (List UInt8)

/-- An exported key imports under the same key password, and the new secret opens with exactly the
local password of the import. -/
structure KeyStorage.Lawful (K : KeyStorage) : Prop where
  import_exported : ∀ {store key localPassword keyPassword data privateKey},
    K.loadPrivateKey store key localPassword = .ok privateKey →
    K.exportEncryptedKey store key localPassword keyPassword = .ok data →
    ∀ store' localPassword', ∃ secret store'',
      K.importEncryptedKey store' localPassword' keyPassword data = .ok (secret, store'') ∧
      ∀ password, K.loadPrivateKey store'' ⟨key.publicKey, secret.toList⟩ password =
        .ok privateKey ↔ password = localPassword'

/-- The bytes up to the first zero. Without one the read leaves the memory. -/
def cString : List UInt8 → Option (List UInt8)
  | [] => none
  | b :: memory => if b = 0 then some [] else (cString memory).map (b :: ·)

/-- Why an export or import did not go through. -/
inductive KeyError where
  | invalidPassword
  | exception (e : Exception)
  | native (error : String)

section
variable (K : KeyStorage) (C : Cipher) (marshal : List Char → List UInt8)

def liteClientExportKey (store : K.Store) (dataPassword : List Char)
    (publicKey password secret : List UInt8) : Except String (List UInt8) :=
  K.exportEncryptedKey store ⟨publicKey.take 32, secret.take 32⟩ (password.take 64)
    (marshal dataPassword)

/-- `after` is what follows the array of the password in memory. -/
def liteClientImportKey (store : K.Store) (dataPassword : List Char)
    (password after keyData : List UInt8) :
    Except Exception (Except String (Vector UInt8 32 × K.Store)) :=
  match cString (password ++ after) with
  | some localPassword =>
    .ok (K.importEncryptedKey store localPassword (marshal dataPassword) keyData)
  | none => .error .accessViolation

def liteClientGetPrivateKey (store : K.Store) (publicKey password secret : List UInt8) :
    Except String (List UInt8) :=
  K.loadPrivateKey store ⟨publicKey.take 32, secret.take 32⟩ (password.take 64)

structure TonWallet where
  publicKey : List UInt8
  encryption : List UInt8
  passcodeSalt : List UInt8

namespace TonWallet

/-- `TonAdapter.Decrypt`: exceptions arrive as an error. -/
def adapterDecrypt (w : TonWallet) (passcode : List Char) :
    Except KeyError (List UInt8 × List UInt8) :=
  match Crypto.decrypt C passcode w.encryption w.passcodeSalt with
  | .ok (some key) => .ok key
  | .ok none => .error .invalidPassword
  | .error e => .error (.exception e)

def exportData (store : K.Store) (w : TonWallet) (passcode dataPassword : List Char) :
    Except KeyError (List UInt8) :=
  match w.adapterDecrypt C passcode with
  | .ok (password, secret) =>
    (liteClientExportKey K marshal store dataPassword w.publicKey password secret).mapError .native
  | .error e => .error e

/-- The error that is reported, the wallet and the store after an import. The new salt and the
padding come from the random generator. -/
def importData (random : (n : Nat) → Vector UInt8 n) (passcodeSalt after : List UInt8)
    (store : K.Store) (w : TonWallet) (passcode dataPassword : List Char)
    (exportData : List UInt8) : Except Exception (Option KeyError × TonWallet × K.Store) :=
  match w.adapterDecrypt C passcode with
  | .ok (password, _) => do
    match ← liteClientImportKey K marshal store dataPassword password after exportData with
    | .ok (sec, store') =>
      let dataToEncrypt := Crypto.encrypt random password sec.toList
      let encryption := Crypto.setPasscode C passcode passcodeSalt dataToEncrypt
      return (none, { w with encryption, passcodeSalt }, store')
    | .error error => return (some (.native error), w, store)
  | .error e => .ok (some e, w, store)

end TonWallet

end

/-! ## The local password as a C string -/

/-- An array reads as itself when it has no zero byte and is followed by one. -/
theorem cString_append_iff {password after : List UInt8} :
    cString (password ++ after) = some password ↔ 0 ∉ password ∧ after.head? = some 0 := by
  induction password with
  | nil =>
    cases after with
    | nil => simp [cString]
    | cons b after =>
      by_cases hb : b = 0
      · simp [cString, hb]
      · simp [cString, hb]
  | cons b password ih =>
    rw [List.cons_append, cString, List.mem_cons, not_or, and_assoc, ← ih]
    by_cases hb : b = 0
    · simp [hb]
    · simp [hb, Ne.symm hb]

/-! ## Import of what was exported -/

section
variable {K : KeyStorage} {C : Cipher} {marshal : List Char → List UInt8}

theorem Crypto.length_of_unpack {data password secret : List UInt8}
    (h : Crypto.unpack data = .ok (some (password, secret))) : password.length = 64 := by
  unfold Crypto.unpack at h
  split at h
  · split at h
    · split at h
      · cases h
      · rename_i hlen
        obtain ⟨rfl, -⟩ := Prod.mk.inj (Option.some.inj (Except.ok.inj h))
        rw [List.length_take]
        omega
    · cases h
  · split at h <;> cases h
  · cases h

namespace TonWallet

theorem adapterDecrypt_ok {w : TonWallet} {passcode : List Char} {password secret : List UInt8}
    (h : w.adapterDecrypt C passcode = .ok (password, secret)) : password.length = 64 := by
  rw [adapterDecrypt] at h
  split at h
  · rename_i key hkey
    obtain rfl := Except.ok.inj h
    exact Crypto.length_of_unpack hkey
  · cases h
  · cases h

/-- A wallet that was just encrypted decrypts to the password and the secret. -/
theorem adapterDecrypt_setPasscode (hC : C.Lawful) (random : (n : Nat) → Vector UInt8 n)
    (publicKey : List UInt8) (passcode : List Char) (passcodeSalt : List UInt8)
    {password : List UInt8} (hpassword : password.length = 64) (secret : List UInt8) :
    adapterDecrypt C ⟨publicKey, Crypto.setPasscode C passcode passcodeSalt
      (Crypto.encrypt random password secret), passcodeSalt⟩ passcode = .ok (password, secret) := by
  rw [adapterDecrypt, Crypto.decrypt_setPasscode hC passcode passcodeSalt
    (Crypto.length_encrypt_mod random password secret), Crypto.unpack_encrypt random hpassword]

variable (K C marshal) in
/-- After the import of `exportData` the wallet decrypts to a password and a secret that give the
private key. -/
def Recovers (random : (n : Nat) → Vector UInt8 n) (passcodeSalt after : List UInt8)
    (store : K.Store) (w : TonWallet) (passcode dataPassword : List Char)
    (exportData privateKey : List UInt8) : Prop :=
  ∃ w' store', importData K C marshal random passcodeSalt after store w passcode dataPassword
      exportData = .ok (none, w', store') ∧
    ∃ password secret, w'.adapterDecrypt C passcode = .ok (password, secret) ∧
      liteClientGetPrivateKey K store' w'.publicKey password secret = .ok privateKey

variable (K C marshal) in
/-- An import that reports an error leaves the encryption and the salt. -/
def KeepsOnError (random : (n : Nat) → Vector UInt8 n) (passcodeSalt after : List UInt8)
    (store : K.Store) (w : TonWallet) (passcode dataPassword : List Char) : Prop :=
  ∀ exportData e w' store', importData K C marshal random passcodeSalt after store w passcode
    dataPassword exportData = .ok (some e, w', store') → w' = w

theorem keepsOnError (random : (n : Nat) → Vector UInt8 n) (passcodeSalt after : List UInt8)
    (store : K.Store) (w : TonWallet) (passcode dataPassword : List Char) :
    KeepsOnError K C marshal random passcodeSalt after store w passcode dataPassword := by
  intro exportData e w' store' h
  rw [importData] at h
  split at h
  · rw [liteClientImportKey] at h
    split at h
    · simp only [bind, Except.bind] at h
      split at h
      · cases h
      · cases h
        rfl
    · cases h
  · cases h
    rfl

theorem exportData_ok {store : K.Store} {w : TonWallet} {passcode dataPassword : List Char}
    {password secret data : List UInt8}
    (hdecrypt : w.adapterDecrypt C passcode = .ok (password, secret))
    (hexport : exportData K C marshal store w passcode dataPassword = .ok data) :
    liteClientExportKey K marshal store dataPassword w.publicKey password secret = .ok data := by
  rw [exportData, hdecrypt] at hexport
  dsimp only at hexport
  cases h : liteClientExportKey K marshal store dataPassword w.publicKey password secret with
  | ok data' =>
    rw [h] at hexport
    exact congrArg _ (Except.ok.inj hexport)
  | error e =>
    rw [h] at hexport
    cases hexport

/-- An export is recovered exactly when the import reads the local password as it is. -/
theorem recovers_iff_cString (hK : K.Lawful) (hC : C.Lawful)
    (random : (n : Nat) → Vector UInt8 n) (passcodeSalt after : List UInt8)
    {store : K.Store} (store' : K.Store) {w : TonWallet} {passcode dataPassword : List Char}
    {password secret privateKey data : List UInt8}
    (hdecrypt : w.adapterDecrypt C passcode = .ok (password, secret))
    (hload : liteClientGetPrivateKey K store w.publicKey password secret = .ok privateKey)
    (hexport : exportData K C marshal store w passcode dataPassword = .ok data) :
    Recovers K C marshal random passcodeSalt after store' w passcode dataPassword data privateKey ↔
      cString (password ++ after) = some password := by
  have hlen := adapterDecrypt_ok hdecrypt
  rw [Recovers, importData, hdecrypt]
  simp only [liteClientImportKey]
  cases hlocal : cString (password ++ after) with
  | none => simp [bind, Except.bind]
  | some localPassword =>
    obtain ⟨sec, store'', himport, hopens⟩ :=
      hK.import_exported hload (exportData_ok hdecrypt hexport) store' localPassword
    have hnew := adapterDecrypt_setPasscode hC random w.publicKey passcode passcodeSalt hlen
      sec.toList
    simp only [himport, bind, Except.bind, pure, Except.pure, Except.ok.injEq, Prod.mk.injEq,
      true_and, Option.some.injEq]
    have hload' : liteClientGetPrivateKey K store'' w.publicKey password sec.toList =
        K.loadPrivateKey store'' ⟨w.publicKey.take 32, sec.toList⟩ password := by
      have hsec : sec.toList.take 32 = sec.toList := List.take_of_length_le (by simp)
      have hpassword : password.take 64 = password := List.take_of_length_le (by omega)
      rw [liteClientGetPrivateKey, hsec, hpassword]
    constructor
    · rintro ⟨_, _, ⟨rfl, rfl⟩, password', secret', hdecrypt', hprivate⟩
      obtain ⟨rfl, rfl⟩ := Prod.mk.inj (Except.ok.inj (hnew.symm.trans hdecrypt'))
      exact ((hopens password).1 (hload' ▸ hprivate)).symm
    · rintro rfl
      exact ⟨_, _, ⟨rfl, rfl⟩, _, _, hnew, hload'.trans ((hopens _).2 rfl)⟩

/-- The key of an export is there after its import, and an import that fails changes nothing,
exactly when the local password has no zero byte and a zero byte follows it in memory. -/
theorem recovers_iff (hK : K.Lawful) (hC : C.Lawful) (random : (n : Nat) → Vector UInt8 n)
    (passcodeSalt after : List UInt8) {store : K.Store} (store' : K.Store) {w : TonWallet}
    {passcode dataPassword : List Char} {password secret privateKey data : List UInt8}
    (hdecrypt : w.adapterDecrypt C passcode = .ok (password, secret))
    (hload : liteClientGetPrivateKey K store w.publicKey password secret = .ok privateKey)
    (hexport : exportData K C marshal store w passcode dataPassword = .ok data) :
    Recovers K C marshal random passcodeSalt after store' w passcode dataPassword data privateKey ∧
      KeepsOnError K C marshal random passcodeSalt after store' w passcode dataPassword ↔
    0 ∉ password ∧ after.head? = some 0 := by
  rw [and_iff_left (keepsOnError random passcodeSalt after store' w passcode dataPassword),
    recovers_iff_cString hK hC random passcodeSalt after store' hdecrypt hload hexport,
    cString_append_iff]

end TonWallet

end

/-! ## Two wallets

    Both have the passcode 111. The local password of one is the bytes 1 to 64, of the
    other the bytes 0 to 63. The cipher has the values of AES-IGE and PBKDF2 that come
    up. The storage is a simpler one than the native: an export is the private key as it
    is, with the data password behind it, and an import draws a fixed secret. -/

namespace TwoWallets
open TwoPasscodes (salt salt' hash passcode random)

/-- PBKDF2 of 111 and the second salt. -/
def hash' : Vector UInt8 64 := #v[
    0xf2, 0x17, 0x8f, 0xf6, 0xb8, 0xe9, 0xed, 0x2d, 0x6f, 0x74, 0xe3, 0xd5, 0x9f, 0xb0, 0x34, 0x6b,
    0xea, 0x73, 0x7e, 0x05, 0x45, 0xca, 0x46, 0xf0, 0xd3, 0x62, 0x22, 0x7e, 0x65, 0x9d, 0x70, 0x4e,
    0x7a, 0x21, 0xf9, 0xab, 0x84, 0xe5, 0xc2, 0x9a, 0x85, 0xdb, 0x7e, 0xaf, 0x05, 0xaf, 0x69, 0x6e,
    0xe1, 0x31, 0xae, 0x14, 0x8f, 0xcd, 0xf8, 0xe7, 0x68, 0xbe, 0x53, 0x1e, 0xd9, 0x0c, 0x06, 0xdc]

def password : List UInt8 := (List.range' 1 64).map UInt8.ofNat

def secret : List UInt8 := (List.range' 65 32).map UInt8.ofNat

/-- The secret an import draws. -/
def secret' : Vector UInt8 32 := Vector.ofFn fun i => UInt8.ofNat (97 + i)

def encrypted : List UInt8 := [
    0x1e, 0x90, 0x07, 0x9b, 0xcf, 0xf4, 0xb4, 0x59, 0x9c, 0x90, 0xf7, 0x75, 0x9d, 0x69, 0x44, 0xea,
    0xb9, 0x4d, 0x2e, 0xf5, 0x87, 0xa6, 0x9e, 0x32, 0x01, 0x6d, 0xd2, 0x8f, 0x64, 0x31, 0x1c, 0x79,
    0x62, 0x34, 0x54, 0x83, 0x27, 0x59, 0x3b, 0x4e, 0x21, 0x1a, 0x9c, 0x8e, 0xa1, 0xc4, 0xd3, 0xff,
    0x86, 0xe8, 0xbc, 0xb4, 0x0e, 0x86, 0xe3, 0x91, 0x86, 0x74, 0xc2, 0xac, 0xfd, 0x4c, 0xc6, 0x09,
    0xa0, 0x41, 0x05, 0x69, 0x24, 0x13, 0x71, 0xb6, 0x36, 0xef, 0xa0, 0x68, 0xe8, 0x00, 0xc5, 0x9d,
    0x24, 0xa2, 0x7b, 0x2a, 0xc6, 0x16, 0xeb, 0xc9, 0x25, 0x9e, 0x0e, 0xdb, 0x7a, 0xc6, 0x82, 0x23,
    0x72, 0xc0, 0x41, 0x42, 0xfc, 0x5f, 0xe1, 0x81, 0xaf, 0x25, 0xc8, 0x32, 0xa3, 0xa1, 0xd4, 0xa9]

def encrypted' : List UInt8 := [
    0xb3, 0xe1, 0x41, 0x32, 0x4f, 0x4c, 0x64, 0xd1, 0xe5, 0xd3, 0x5b, 0x35, 0xc8, 0x93, 0xf3, 0x4d,
    0x69, 0x71, 0x3d, 0x09, 0xb3, 0xa3, 0x52, 0x3e, 0xf9, 0x05, 0x1c, 0x32, 0xee, 0x79, 0xfe, 0xdd,
    0x09, 0x63, 0x84, 0x57, 0xfe, 0x3b, 0xa2, 0x51, 0x17, 0xd0, 0x11, 0x5b, 0x32, 0x50, 0x2c, 0x34,
    0xab, 0x55, 0x42, 0xe5, 0xd2, 0x02, 0xec, 0xe7, 0x35, 0xcb, 0xaa, 0xdc, 0x70, 0xab, 0xa4, 0x6d,
    0x90, 0xa5, 0x14, 0x89, 0x73, 0x23, 0xf4, 0x57, 0x67, 0x3d, 0x74, 0xfa, 0xa2, 0x34, 0x3e, 0x22,
    0xcb, 0x8e, 0x1a, 0xe3, 0x38, 0xff, 0x1b, 0x96, 0xb9, 0x1a, 0xa8, 0xc4, 0xad, 0x6f, 0xbb, 0x4a,
    0x93, 0x04, 0x13, 0xd3, 0x6f, 0x4f, 0x0d, 0xf7, 0x2e, 0x6a, 0x7e, 0x3b, 0xe4, 0xf6, 0xe9, 0x2c]

/-- The encryption of the other wallet after its import. -/
def otherEncrypted' : List UInt8 := [
    0xd2, 0xbd, 0x94, 0x7e, 0xbc, 0xbd, 0x50, 0xbf, 0xd0, 0x0a, 0x9a, 0xe9, 0xc7, 0x6d, 0x50, 0xd8,
    0xac, 0x03, 0x25, 0xba, 0xc4, 0x8d, 0xe5, 0xc9, 0x78, 0x2b, 0xb7, 0x6b, 0x4c, 0x74, 0x26, 0xe4,
    0x29, 0xb4, 0xca, 0xc7, 0xf8, 0x07, 0xf0, 0xe6, 0x46, 0x19, 0xb6, 0x9b, 0x98, 0xfb, 0xb7, 0x15,
    0xcb, 0x4a, 0x9f, 0x14, 0x28, 0x27, 0x7a, 0x3f, 0x66, 0x9a, 0xc4, 0x7e, 0xbb, 0xf4, 0x1b, 0x91,
    0x9e, 0x01, 0x65, 0xee, 0x0d, 0xca, 0xe5, 0x24, 0x0a, 0x37, 0x17, 0x74, 0x1d, 0x39, 0xb3, 0x7a,
    0x4d, 0x90, 0xb1, 0xd6, 0xcd, 0x79, 0x13, 0x03, 0x45, 0xcc, 0xc9, 0x6f, 0xee, 0x57, 0x93, 0x33,
    0xf3, 0x89, 0x66, 0x0b, 0x06, 0xd8, 0x91, 0xe0, 0x9d, 0xad, 0x2b, 0x89, 0x7b, 0x49, 0xd7, 0x00]

/-- Both wallets before the import. -/
def before : Equiv.Perm (List UInt8) :=
  (Equiv.swap (Crypto.encrypt random password secret) encrypted).trans
    (Equiv.swap TwoPasscodes.keyData.dataToEncrypt TwoPasscodes.once)

/-- Both wallets after it. -/
def imported : Equiv.Perm (List UInt8) :=
  (Equiv.swap (Crypto.encrypt random password secret'.toList) encrypted').trans
    (Equiv.swap (Crypto.encrypt random TwoPasscodes.keyData.password secret'.toList)
      otherEncrypted')

def perm (key iv : List UInt8) : Equiv.Perm (List UInt8) :=
  if key = Crypto.key hash ∧ iv = Crypto.iv hash then before else imported

def cipher : Cipher where
  encrypt key iv data := perm key iv data
  decrypt key iv data := (perm key iv).symm data
  pbkdf2 passcode' passcodeSalt :=
    if passcode' = passcode ∧ passcodeSalt = salt then hash else hash'

theorem cipher_lawful : cipher.Lawful where
  decrypt_encrypt key iv data _ := (perm key iv).symm_apply_apply data

/-- A storage of local passwords and private keys by secret. -/
def storage : KeyStorage where
  Store := List UInt8 → Option (List UInt8 × List UInt8)
  exportEncryptedKey store key localPassword keyPassword :=
    match store key.secret with
    | some (password, privateKey) =>
      if localPassword = password then .ok (privateKey ++ keyPassword)
      else .error "[Error : 500 : KEY_DECRYPT]"
    | none => .error "[Error : 500 : KEY_UNKNOWN]"
  importEncryptedKey store localPassword keyPassword data :=
    let len := data.length - keyPassword.length
    if data.drop len = keyPassword then
      .ok (secret', Function.update store secret'.toList (some (localPassword, data.take len)))
    else .error "[Error : 500 : KEY_DECRYPT]"
  loadPrivateKey store key localPassword :=
    match store key.secret with
    | some (password, privateKey) =>
      if localPassword = password then .ok privateKey else .error "[Error : 500 : KEY_DECRYPT]"
    | none => .error "[Error : 500 : KEY_UNKNOWN]"

theorem storage_lawful : storage.Lawful where
  import_exported := by
    intro store key localPassword keyPassword data privateKey hload hexport store' localPassword'
    simp only [storage] at hload hexport
    split at hload
    · rename_i password stored hstore
      split at hload
      · rename_i hpassword
        obtain rfl := Except.ok.inj hload
        simp only [hstore, hpassword, ↓reduceIte, Except.ok.injEq] at hexport
        subst hexport
        refine ⟨secret', Function.update store' secret'.toList (some (localPassword', stored)), ?_,
          fun password' => ?_⟩
        · simp [storage]
        · have hfound : Function.update store' secret'.toList (some (localPassword', stored))
              secret'.toList = some (localPassword', stored) := Function.update_self _ _ _
          simp only [storage, hfound]
          split
          · rename_i h
            exact iff_of_true rfl h
          · rename_i h
            exact iff_of_false nofun h
      · cases hload
    · cases hload

/-- A wallet of the passcode 111. -/
def wallet (password secret : List UInt8) : TonWallet :=
  ⟨[], Crypto.setPasscode cipher passcode salt (Crypto.encrypt random password secret), salt⟩

theorem wallet_decrypts {password : List UInt8} (h : password.length = 64) (secret : List UInt8) :
    (wallet password secret).adapterDecrypt cipher passcode = .ok (password, secret) :=
  TonWallet.adapterDecrypt_setPasscode cipher_lawful random [] passcode salt h secret

/-- The storage with the private key of one wallet. -/
def store (password secret : List UInt8) : storage.Store :=
  Function.update (fun _ => none) (secret.take 32) (some (password.take 64, [1]))

theorem store_loads (password secret : List UInt8) :
    liteClientGetPrivateKey storage (store password secret) [] password secret = .ok [1] := by
  have hfound : store password secret (secret.take 32) = some (password.take 64, [1]) :=
    Function.update_self _ _ _
  simp only [liteClientGetPrivateKey, storage, hfound, ↓reduceIte]

/-- An export under the data password 1, and what it gives. -/
theorem store_exports {password : List UInt8} (h : password.length = 64) (secret : List UInt8) :
    TonWallet.exportData storage cipher (fun _ => [49]) (store password secret)
      (wallet password secret) passcode ['1'] = .ok [1, 49] := by
  have hfound : store password secret (secret.take 32) = some (password.take 64, [1]) :=
    Function.update_self _ _ _
  rw [TonWallet.exportData, wallet_decrypts h]
  simp only [liteClientExportKey, storage, hfound, ↓reduceIte]
  rfl

theorem length_other : TwoPasscodes.keyData.password.length = 64 := by decide

end TwoWallets

open TwoWallets

/-- A password without a zero byte, followed by one, survives. -/
theorem recovers_password_without_zero :
    TonWallet.Recovers storage cipher (fun _ => [49]) TwoPasscodes.random TwoPasscodes.salt' [0]
        (store password secret) (wallet password secret) TwoPasscodes.passcode ['1'] [1, 49] [1] ∧
      TonWallet.KeepsOnError storage cipher (fun _ => [49]) TwoPasscodes.random TwoPasscodes.salt'
        [0] (store password secret) (wallet password secret) TwoPasscodes.passcode ['1'] :=
  (TonWallet.recovers_iff storage_lawful cipher_lawful _ _ _ _ (wallet_decrypts (by decide) secret)
    (store_loads password secret) (store_exports (by decide) secret)).2 (by decide)

/-- A password that begins with a zero byte does not. -/
theorem not_recovers_password_with_zero :
    ¬ TonWallet.Recovers storage cipher (fun _ => [49]) TwoPasscodes.random TwoPasscodes.salt' [0]
        (store TwoPasscodes.keyData.password TwoPasscodes.keyData.secret)
        (wallet TwoPasscodes.keyData.password TwoPasscodes.keyData.secret)
        TwoPasscodes.passcode ['1'] [1, 49] [1] := by
  rw [TonWallet.recovers_iff_cString storage_lawful cipher_lawful _ _ _ _
    (wallet_decrypts length_other _) (store_loads _ _) (store_exports length_other _)]
  decide

end Ton
