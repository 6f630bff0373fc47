import TopWallets.Nacl
import Mathlib.Data.List.Basic

/- The frames of a NaCl box: what `Nacl.Decrypt` makes of what `Nacl.Encrypt` wrote, and of
   everything else.

   This file

   1. embeds `crypto_secretbox` and its opening in a key stream and a one-time
      authenticator (`Tweetnacl`), and proves the laws the managed code relies on
      (`Tweetnacl.lawful`);
   2. proves from these laws alone that the offsets line up: 32 zero bytes in front of the
      message, 16 in front of the box, 24 of nonce in front of a sent box;
   3. proves when `Decrypt` is honest about an input (`honest_iff`, `honestSplit_iff`).

   `Decrypt` does not look at the result of the native call, so that a box that is not
   authentic leaves the zero bytes of the fresh array, less the 32 of the padding. -/
namespace Ton

namespace Nacl

def zeros (n : Nat) : List UInt8 := List.replicate n 0

@[simp] theorem length_zeros (n : Nat) : (zeros n).length = n := List.length_replicate

end Nacl

open Nacl (zeros)

/-- What the managed code relies on. The arrays it passes have the length of the padded input, and
it looks at a box behind its zero bytes. -/
structure Box.Lawful (B : Box) : Prop where
  length_afternm : ∀ paddedInput nonce precomputed,
    (B.afternm paddedInput nonce precomputed).length = paddedInput.length
  boxZeros : ∀ m nonce precomputed,
    (B.afternm (zeros 32 ++ m) nonce precomputed).take 16 = zeros 16
  opens : ∀ m nonce precomputed,
    B.openAfternm (B.afternm (zeros 32 ++ m) nonce precomputed) nonce precomputed =
      some (zeros 32 ++ m)
  opens_only : ∀ box nonce precomputed output,
    B.openAfternm (zeros 16 ++ box) nonce precomputed = some output →
      ∃ m, B.afternm (zeros 32 ++ m) nonce precomputed = zeros 16 ++ box
  slices : SliceLaws B.slice

/-! ## The native box -/

/-- The parts of the native library: Curve25519, the core that makes a key of a shared point, the
key stream and Poly1305. -/
structure Tweetnacl where
  scalarmult : (n p : List UInt8) → List UInt8
  hsalsa20 : List UInt8 → List UInt8
  stream : (nonce key : List UInt8) → Nat → UInt8
  onetimeauth : (m key : List UInt8) → Vector UInt8 16

namespace Tweetnacl

variable (T : Tweetnacl)

def streamXor (m nonce key : List UInt8) : List UInt8 :=
  m.mapIdx fun i b => b ^^^ T.stream nonce key i

/-- The first bytes of the stream, which are the key of the authenticator. -/
def authKey (nonce key : List UInt8) : List UInt8 := T.streamXor (zeros 32) nonce key

/-- `crypto_secretbox`. The output of a short input stays zero. -/
def secretbox (m nonce key : List UInt8) : List UInt8 :=
  if m.length < 32 then zeros m.length
  else
    let c := T.streamXor m nonce key
    zeros 16 ++ (T.onetimeauth (c.drop 32) (c.take 32)).toList ++ c.drop 32

/-- `crypto_secretbox_open`. -/
def secretboxOpen (c nonce key : List UInt8) : Option (List UInt8) :=
  if c.length < 32 then none
  else if (c.drop 16).take 16 =
      (T.onetimeauth (c.drop 32) (T.authKey nonce key)).toList then
    some (zeros 32 ++ (T.streamXor c nonce key).drop 32)
  else none

def box (slice : List UInt8 → Nat → Except Exception (List UInt8)) : Box where
  beforenm publicKey privateKey := T.hsalsa20 (T.scalarmult privateKey publicKey)
  afternm := T.secretbox
  openAfternm := T.secretboxOpen
  slice := slice

@[simp] theorem length_streamXor (m nonce key : List UInt8) :
    (T.streamXor m nonce key).length = m.length := List.length_mapIdx

/-- The stream taken twice is gone. -/
theorem streamXor_streamXor (m nonce key : List UInt8) :
    T.streamXor (T.streamXor m nonce key) nonce key = m := by
  unfold streamXor
  apply List.ext_getElem?
  intro i
  rw [List.getElem?_mapIdx, List.getElem?_mapIdx, Option.map_map]
  cases m[i]? with
  | none => rfl
  | some b =>
    show some (b ^^^ T.stream nonce key i ^^^ T.stream nonce key i) = some b
    rw [UInt8.xor_assoc, UInt8.xor_self, UInt8.xor_zero]

theorem streamXor_append (m₁ m₂ nonce key : List UInt8) :
    T.streamXor (m₁ ++ m₂) nonce key =
      T.streamXor m₁ nonce key ++ m₂.mapIdx fun i b => b ^^^ T.stream nonce key (i + m₁.length) :=
  List.mapIdx_append

/-- The stream behind the padding does not depend on the padding. -/
theorem drop_streamXor {p q : List UInt8} (hpq : p.length = q.length) (m nonce key : List UInt8) :
    (T.streamXor (p ++ m) nonce key).drop p.length =
      (T.streamXor (q ++ m) nonce key).drop q.length := by
  rw [streamXor_append, streamXor_append, List.drop_left' (T.length_streamXor ..),
    List.drop_left' (T.length_streamXor ..), hpq]

/-- A text under the stream behind its first 32 bytes. -/
def textXor (text nonce key : List UInt8) : List UInt8 :=
  (T.streamXor (zeros 32 ++ text) nonce key).drop 32

theorem textXor_textXor (text nonce key : List UInt8) :
    T.textXor (T.textXor text nonce key) nonce key = text := by
  -- the text is padded with the first 32 bytes of the stream, and not with zeros
  have hlen : (zeros 32).length = ((T.streamXor (zeros 32 ++ text) nonce key).take 32).length := by
    simp
  have hdrop := T.drop_streamXor hlen (T.textXor text nonce key) nonce key
  rw [textXor, List.take_append_drop, streamXor_streamXor, ← hlen, Nacl.length_zeros] at hdrop
  rw [textXor, textXor, hdrop, List.drop_left' (Nacl.length_zeros 32)]

/-- A box of a padded message: zeros, the tag and the text under the stream. -/
theorem secretbox_padded (m nonce key : List UInt8) :
    T.secretbox (zeros 32 ++ m) nonce key =
      zeros 16 ++ ((T.onetimeauth (T.textXor m nonce key) (T.authKey nonce key)).toList ++
        T.textXor m nonce key) := by
  have hlen : ¬ (zeros 32 ++ m).length < 32 := by simp
  have hkey : (T.streamXor (zeros 32 ++ m) nonce key).take 32 = T.authKey nonce key := by
    rw [streamXor_append, List.take_left' (by simp), authKey]
  unfold secretbox
  simp only [if_neg hlen, hkey, List.append_assoc]
  rfl

/-- A box opens exactly when its tag is the one of its text. -/
theorem secretboxOpen_tag {tag : List UInt8} (htag : tag.length = 16)
    (text nonce key : List UInt8) :
    T.secretboxOpen (zeros 16 ++ (tag ++ text)) nonce key =
      if tag = (T.onetimeauth text (T.authKey nonce key)).toList then
        some (zeros 32 ++ T.textXor text nonce key)
      else none := by
  have hlen : (zeros 16 ++ tag).length = (zeros 32).length := by simp [htag]
  have hdrop := T.drop_streamXor hlen text nonce key
  have hshort : ¬ (zeros 16 ++ tag ++ text).length < 32 := by
    simp [htag]
    omega
  have htext : (zeros 16 ++ tag ++ text).drop 32 = text := List.drop_left' (by simp [htag])
  unfold secretboxOpen
  rw [← List.append_assoc, if_neg hshort, htext]
  rw [List.append_assoc, List.drop_left' (Nacl.length_zeros 16), List.take_left' htag,
    ← List.append_assoc]
  rw [Nacl.length_zeros, hlen, Nacl.length_zeros] at hdrop
  rw [hdrop]
  rfl

/-- The managed code may rely on the native box. -/
theorem lawful {slice : List UInt8 → Nat → Except Exception (List UInt8)}
    (hslice : SliceLaws slice) : (T.box slice).Lawful where
  length_afternm m nonce key := by
    show (T.secretbox m nonce key).length = m.length
    unfold secretbox
    split_ifs with hlen
    · exact Nacl.length_zeros _
    · simp
      omega
  boxZeros m nonce key := by
    show (T.secretbox (zeros 32 ++ m) nonce key).take 16 = zeros 16
    rw [secretbox_padded, List.take_left' (Nacl.length_zeros 16)]
  opens m nonce key := by
    show T.secretboxOpen (T.secretbox (zeros 32 ++ m) nonce key) nonce key = some (zeros 32 ++ m)
    rw [secretbox_padded, secretboxOpen_tag T Vector.length_toList, if_pos rfl,
      textXor_textXor]
  opens_only box nonce key output := by
    show T.secretboxOpen (zeros 16 ++ box) nonce key = some output →
      ∃ m, T.secretbox (zeros 32 ++ m) nonce key = zeros 16 ++ box
    intro hopen
    have hlen : 16 ≤ box.length := by
      by_contra hshort
      unfold secretboxOpen at hopen
      rw [if_pos (by simp; omega)] at hopen
      cases hopen
    have htag : (box.take 16).length = 16 := by simp [hlen]
    rw [← List.take_append_drop 16 box, secretboxOpen_tag T htag] at hopen
    split_ifs at hopen with heq
    refine ⟨T.textXor (box.drop 16) nonce key, ?_⟩
    rw [secretbox_padded, textXor_textXor, ← heq, List.take_append_drop]
  slices := hslice

end Tweetnacl

/-! ## The managed frames -/

/-- The peers compute one key. -/
structure Box.Matching (B : Box) (publicKey privateKey peerPublicKey peerPrivateKey : List UInt8) :
    Prop where
  agrees : B.beforenm peerPublicKey privateKey = B.beforenm publicKey peerPrivateKey

namespace Nacl

variable (B : Box)

/-- What `EventSource_Message` decrypts: the nonce is the first 24 bytes. -/
def decryptSplit (precomputed d : List UInt8) : Except Exception (List UInt8) := do
  decrypt B precomputed (← B.slice d 24) (d.take 24)

/-- Someone who has the key made the box. -/
def Authentic (precomputed nonce input : List UInt8) : Prop :=
  ∃ m, input = encrypt B precomputed m nonce

def AuthenticSplit (precomputed d : List UInt8) : Prop :=
  24 ≤ d.length ∧ Authentic B precomputed (d.take 24) (d.drop 24)

/-- An authentic input gives its message, every other one a failure. -/
structure Honest (authentic : Prop) (encrypts : List UInt8 → Prop)
    (result : Except Exception (List UInt8)) : Prop where
  returns : ∀ m, encrypts m → result = .ok m
  fails : ¬ authentic → ∃ e, result = .error e

variable {B}

/-- A box with its zero bytes back is what the native function wrote. -/
theorem boxZeros_encrypt (hB : B.Lawful) (precomputed m nonce : List UInt8) :
    zeros 16 ++ encrypt B precomputed m nonce =
      B.afternm (zeros 32 ++ m) nonce precomputed := by
  calc zeros 16 ++ encrypt B precomputed m nonce
      = (B.afternm (zeros 32 ++ m) nonce precomputed).take 16 ++
          (B.afternm (zeros 32 ++ m) nonce precomputed).drop 16 := by
        rw [hB.boxZeros]
        rfl
    _ = _ := List.take_append_drop 16 _

/-- Under one key a message comes back. -/
theorem decrypt_encrypt (hB : B.Lawful) (precomputed m nonce : List UInt8) :
    decrypt B precomputed (encrypt B precomputed m nonce) nonce = .ok m := by
  have hopen : B.openAfternm (zeros 16 ++ encrypt B precomputed m nonce) nonce precomputed =
      some (zeros 32 ++ m) := by
    rw [boxZeros_encrypt hB, hB.opens]
  unfold zeros at hopen
  unfold decrypt
  simp only [boxZeroBytes, hopen, Option.getD_some]
  rw [hB.slices.in_range (by simp [zeroBytes]), List.drop_left' (by simp [zeroBytes])]

/-- A box that is not authentic does not open. -/
theorem openAfternm_eq_none (hB : B.Lawful) {precomputed nonce input : List UInt8}
    (hinput : ¬ Authentic B precomputed nonce input) :
    B.openAfternm (zeros 16 ++ input) nonce precomputed = none := by
  rw [Option.eq_none_iff_forall_ne_some]
  intro output hopen
  obtain ⟨m, hm⟩ := hB.opens_only input nonce precomputed output hopen
  apply hinput
  refine ⟨m, ?_⟩
  rw [← boxZeros_encrypt hB] at hm
  exact (List.append_cancel_left hm).symm

/-- The output array stays as it was where the box is not authentic. -/
theorem decrypt_eq_slice (hB : B.Lawful) {precomputed nonce input : List UInt8}
    (hinput : ¬ Authentic B precomputed nonce input) :
    decrypt B precomputed input nonce = B.slice (zeros (16 + input.length)) 32 := by
  have hopen := openAfternm_eq_none hB hinput
  unfold zeros at hopen
  unfold decrypt zeros
  simp only [boxZeroBytes, hopen, Option.getD_none, zeroBytes, List.length_append,
    List.length_replicate]

/-- What is not authentic gives zero bytes, when there is room for them. -/
theorem decrypt_forged (hB : B.Lawful) {precomputed nonce input : List UInt8}
    (hinput : ¬ Authentic B precomputed nonce input) (hlen : 16 ≤ input.length) :
    decrypt B precomputed input nonce = .ok (zeros (input.length - 16)) := by
  rw [decrypt_eq_slice hB hinput, hB.slices.in_range (by rw [length_zeros]; omega), zeros,
    List.drop_replicate, zeros]
  congr 2
  omega

theorem authentic_iff (hB : B.Lawful) (precomputed nonce input : List UInt8) :
    Authentic B precomputed nonce input ↔
      (B.openAfternm (zeros 16 ++ input) nonce precomputed).isSome := by
  constructor
  · intro h
    obtain ⟨m, rfl⟩ := h
    rw [boxZeros_encrypt hB, hB.opens]
    rfl
  · intro hopen
    by_contra hinput
    rw [openAfternm_eq_none hB hinput] at hopen
    cases hopen

theorem exists_error_iff (hB : B.Lawful) {precomputed nonce input : List UInt8}
    (hinput : ¬ Authentic B precomputed nonce input) :
    (∃ e, decrypt B precomputed input nonce = .error e) ↔ input.length < 16 := by
  by_cases hlen : 16 ≤ input.length
  · rw [decrypt_forged hB hinput hlen]
    exact iff_of_false nofun (by omega)
  · rw [decrypt_eq_slice hB hinput]
    exact iff_of_true (hB.slices.out_of_range (by rw [length_zeros]; omega)) (by omega)

/-- `Decrypt` is honest about an input that is authentic or too short, and about no other. -/
theorem honest_iff (hB : B.Lawful) (precomputed nonce input : List UInt8) :
    Honest (Authentic B precomputed nonce input) (fun m => input = encrypt B precomputed m nonce)
        (decrypt B precomputed input nonce) ↔
      Authentic B precomputed nonce input ∨ input.length < 16 := by
  have hreturns : ∀ m, input = encrypt B precomputed m nonce →
      decrypt B precomputed input nonce = .ok m := by
    intro m hm
    rw [hm, decrypt_encrypt hB]
  by_cases hinput : Authentic B precomputed nonce input
  · exact iff_of_true ⟨hreturns, fun h => absurd hinput h⟩ (.inl hinput)
  · constructor
    · intro hhonest
      exact .inr ((exists_error_iff hB hinput).1 (hhonest.fails hinput))
    · intro h
      have hshort := h.resolve_left hinput
      exact ⟨hreturns, fun _ => (exists_error_iff hB hinput).2 hshort⟩

theorem decryptSplit_eq (hB : B.Lawful) {precomputed d : List UInt8} (hd : 24 ≤ d.length) :
    decryptSplit B precomputed d = decrypt B precomputed (d.drop 24) (d.take 24) := by
  unfold decryptSplit
  rw [hB.slices.in_range hd]
  rfl

/-- The same of a sent box, whose nonce comes with it. -/
theorem honestSplit_iff (hB : B.Lawful) (precomputed d : List UInt8) :
    Honest (AuthenticSplit B precomputed d)
        (fun m => 24 ≤ d.length ∧ d.drop 24 = encrypt B precomputed m (d.take 24))
        (decryptSplit B precomputed d) ↔
      AuthenticSplit B precomputed d ∨ d.length < 40 := by
  by_cases hd : 24 ≤ d.length
  · have hiff := honest_iff hB precomputed (d.take 24) (d.drop 24)
    rw [decryptSplit_eq hB hd, AuthenticSplit, and_iff_right hd]
    simp only [and_iff_right hd]
    rw [hiff, List.length_drop]
    exact or_congr_right (by omega)
  · obtain ⟨e, he⟩ := hB.slices.out_of_range (Nat.not_le.1 hd)
    have herror : decryptSplit B precomputed d = .error e := by
      unfold decryptSplit
      rw [he]
      rfl
    rw [herror]
    exact iff_of_true ⟨fun m h => absurd h.1 hd, fun _ => ⟨_, rfl⟩⟩ (.inr (by omega))

theorem decryptSplit_encryptConcat (hB : B.Lawful) (nacl : Nacl) (m : List UInt8) :
    decryptSplit B nacl.precomputed (nacl.encryptConcat B m) = .ok m := by
  have htake := take_encryptConcat B nacl m
  have hdrop : (nacl.encryptConcat B m).drop 24 =
      encrypt B nacl.precomputed m nacl.nonce.toList := by
    rw [encryptConcat, List.drop_left' nacl.nonce.length_toList]
  have hlen : 24 ≤ (nacl.encryptConcat B m).length := by
    rw [encryptConcat, List.length_append, nacl.nonce.length_toList]
    omega
  rw [decryptSplit_eq hB hlen, htake, hdrop, decrypt_encrypt hB]

/-- Between matching keys every message comes back, in both forms. An input is dealt with honestly
exactly when it is authentic or too short to hold a tag. -/
theorem decrypt_framing (hB : B.Lawful)
    {publicKey privateKey peerPublicKey peerPrivateKey : List UInt8}
    (hkeys : B.Matching publicKey privateKey peerPublicKey peerPrivateKey)
    (own peer : Vector UInt8 24) :
    let sender := Nacl.new B peerPublicKey privateKey own
    let receiver := Nacl.new B publicKey peerPrivateKey peer
    (∀ m nonce, decrypt B receiver.precomputed (encrypt B sender.precomputed m nonce) nonce =
      .ok m) ∧
    (∀ m, decryptSplit B receiver.precomputed (sender.encryptConcat B m) = .ok m) ∧
    (∀ nonce input, Honest (Authentic B receiver.precomputed nonce input)
        (fun m => input = encrypt B receiver.precomputed m nonce)
        (decrypt B receiver.precomputed input nonce) ↔
      Authentic B receiver.precomputed nonce input ∨ input.length < 16) ∧
    (∀ d, Honest (AuthenticSplit B receiver.precomputed d)
        (fun m => 24 ≤ d.length ∧ d.drop 24 = encrypt B receiver.precomputed m (d.take 24))
        (decryptSplit B receiver.precomputed d) ↔
      AuthenticSplit B receiver.precomputed d ∨ d.length < 40) := by
  intro sender receiver
  have hkey : sender.precomputed = receiver.precomputed := hkeys.agrees
  refine ⟨fun m nonce => ?_, fun m => ?_, honest_iff hB _, honestSplit_iff hB _⟩
  · rw [hkey, decrypt_encrypt hB]
  · rw [← hkey, decryptSplit_encryptConcat hB]

end Nacl

/-! ## Two peers

    The secrets are the bytes 1 to 32 and 33 to 64, the nonce is 0 to 23, and the native
    functions have the values that come up. -/

namespace TwoPeers

def privateKey : List UInt8 := (List.range' 1 32).map UInt8.ofNat

def peerPrivateKey : List UInt8 := (List.range' 33 32).map UInt8.ofNat

def publicKey : List UInt8 := [
    0x07, 0xa3, 0x7c, 0xbc, 0x14, 0x20, 0x93, 0xc8, 0xb7, 0x55, 0xdc, 0x1b, 0x10, 0xe8, 0x6c, 0xb4,
    0x26, 0x37, 0x4a, 0xd1, 0x6a, 0xa8, 0x53, 0xed, 0x0b, 0xdf, 0xc0, 0xb2, 0xb8, 0x6d, 0x1c, 0x7c]

def peerPublicKey : List UInt8 := [
    0x58, 0x69, 0xaf, 0xf4, 0x50, 0x54, 0x97, 0x32, 0xcb, 0xaa, 0xed, 0x5e, 0x5d, 0xf9, 0xb3, 0x0a,
    0x6d, 0xa3, 0x1c, 0xb0, 0xe5, 0x74, 0x2b, 0xad, 0x5a, 0xd4, 0xa1, 0xa7, 0x68, 0xf1, 0xa6, 0x7b]

/-- The point both compute. -/
def shared : List UInt8 := [
    0xa8, 0x4d, 0xc7, 0xc3, 0xc8, 0xf0, 0x58, 0xb1, 0xb2, 0xdc, 0x4c, 0xd1, 0xe9, 0xb5, 0xdc, 0x0a,
    0x79, 0x87, 0xf8, 0x8b, 0x6a, 0x95, 0x64, 0xcd, 0xe3, 0x39, 0x1f, 0xc4, 0x21, 0x15, 0x9e, 0x77]

def precomputed : List UInt8 := [
    0xec, 0x88, 0xf6, 0xe1, 0x3b, 0x22, 0xbf, 0x9f, 0x04, 0xd4, 0x80, 0xe0, 0xd8, 0x52, 0x5c, 0x08,
    0xac, 0x7e, 0x2f, 0x48, 0xe2, 0x12, 0x74, 0x2b, 0xcb, 0xca, 0xfa, 0x10, 0x4a, 0x74, 0xb0, 0x8d]

def nonce : Vector UInt8 24 := Vector.ofFn fun i => UInt8.ofNat i

def stream : List UInt8 := [
    0x60, 0x83, 0x35, 0x4f, 0x61, 0x64, 0x5e, 0x11, 0x8d, 0x0c, 0xe3, 0x48, 0x6d, 0xe9, 0x82, 0x96,
    0xbd, 0xc4, 0xc4, 0x81, 0x34, 0xfd, 0x88, 0x41, 0x8f, 0x81, 0x16, 0xec, 0x3e, 0x76, 0x0f, 0xc1,
    0x12, 0xf5]

/-- Poly1305 of the text of `hi`. -/
def tag : Vector UInt8 16 := #v[
    0x98, 0xed, 0xb3, 0xe0, 0x75, 0x6b, 0x0f, 0xd2, 0x7b, 0xce, 0x7b, 0x90, 0x08, 0x92, 0x1c, 0x8b]

/-- Poly1305 of no text. -/
def tagNone : Vector UInt8 16 := #v[
    0xbd, 0xc4, 0xc4, 0x81, 0x34, 0xfd, 0x88, 0x41, 0x8f, 0x81, 0x16, 0xec, 0x3e, 0x76, 0x0f, 0xc1]

def tweetnacl : Tweetnacl where
  scalarmult n p :=
    if n = privateKey ∧ p = peerPublicKey ∨ n = peerPrivateKey ∧ p = publicKey then shared else []
  hsalsa20 s := if s = shared then precomputed else []
  stream n key i := if n = nonce.toList ∧ key = precomputed then stream.getD i 0 else 0
  onetimeauth m _ := if m = [] then tagNone else tag

/-- The native functions, and slices that are checked. -/
def native : Box := tweetnacl.box sliceFrom

theorem lawful : native.Lawful := tweetnacl.lawful sliceFrom_laws

theorem matching : native.Matching publicKey privateKey peerPublicKey peerPrivateKey where
  agrees := by
    have hown : native.beforenm peerPublicKey privateKey = precomputed := by decide
    have hpeer : native.beforenm publicKey peerPrivateKey = precomputed := by decide
    rw [hown, hpeer]

/-- The box of `hi` with another first byte. -/
def forged : List UInt8 := [
    0x99, 0xed, 0xb3, 0xe0, 0x75, 0x6b, 0x0f, 0xd2, 0x7b, 0xce, 0x7b, 0x90, 0x08, 0x92, 0x1c, 0x8b,
    0x7a, 0x9c]

end TwoPeers

/-- The boxes of the two peers. -/
theorem decrypt_framing_two_peers :
    let sender := Nacl.new TwoPeers.native TwoPeers.peerPublicKey TwoPeers.privateKey
      TwoPeers.nonce
    let receiver := Nacl.new TwoPeers.native TwoPeers.publicKey TwoPeers.peerPrivateKey
      TwoPeers.nonce
    Nacl.decryptSplit TwoPeers.native receiver.precomputed
        (sender.encryptConcat TwoPeers.native [104, 105]) = .ok [104, 105] :=
  (Nacl.decrypt_framing TwoPeers.lawful TwoPeers.matching TwoPeers.nonce
    TwoPeers.nonce).2.1 [104, 105]

/-- The forged box is taken for a message of two zero bytes. -/
theorem decrypt_forged_two_peers :
    Nacl.decrypt TwoPeers.native TwoPeers.precomputed TwoPeers.forged TwoPeers.nonce.toList =
      .ok [0, 0] ∧
    ¬ ∀ input, Nacl.Honest
      (Nacl.Authentic TwoPeers.native TwoPeers.precomputed TwoPeers.nonce.toList input)
      (fun m => input =
        Nacl.encrypt TwoPeers.native TwoPeers.precomputed m TwoPeers.nonce.toList)
      (Nacl.decrypt TwoPeers.native TwoPeers.precomputed input TwoPeers.nonce.toList) := by
  have hB := TwoPeers.lawful
  have hforged : ¬ Nacl.Authentic TwoPeers.native TwoPeers.precomputed
      TwoPeers.nonce.toList TwoPeers.forged := by
    rw [Nacl.authentic_iff hB]
    decide
  constructor
  · rw [Nacl.decrypt_forged hB hforged (by decide)]
    rfl
  · intro hall
    have h := (Nacl.honest_iff hB _ _ _).1 (hall TwoPeers.forged)
    obtain hauthentic | hshort := h
    · exact hforged hauthentic
    · exact absurd hshort (by decide)

end Ton
