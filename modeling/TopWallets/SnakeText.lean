import TopWallets.Dict

/- Texts in chains of cells: `CellBuilder.StoreBuffer` writes one, `Slice.LoadString`
   and `JettonController.LoadText` read it back.

   The writer fills every cell with 127 bytes and puts the prefix byte into the
   first one as well. 8 + 127 * 8 bits are one more than a cell holds, so of any
   text of 127 bytes or more the first 127 bytes are refused and left out. The
   reader decodes the cells one by one. Main result: a text is read back exactly
   when it has less than 127 bytes (`loadText_storeBuffer_iff`). That the rest of a
   longer text can never happen to read as the whole of it is `decodeChunks_ne`.

   Correspondence (C# ↔ Lean):
     one round of the loop of `StoreBuffer` ↔ `storeBufferCell`
     `CellBuilder.StoreBuffer`              ↔ `CellBuilder.storeBuffer`
     `Slice.LoadInt`, `.LoadBytes`          ↔ `Slice.loadInt`, `Slice.loadBytes`
     `Slice.LoadString(Slice)`              ↔ `Slice.loadString`
     `JettonController.LoadText`            ↔ `loadText` -/
namespace Ton

namespace CellBuilder
open Vm (CellBuilder)

def cellMaxSizeBytes : Nat := 127

/-- The cell of round `i`: the prefix in the last round, the bytes, the cell of the round before. -/
def storeBufferCell (data : List UInt8) (pre : Int) (size : Nat) (prev : Option CellBuilder)
    (i : Nat) : Except Exception CellBuilder := do
  let current := if i = 0 ∧ 0 ≤ pre then store pre 8 begin else begin
  let current := storeBytes ((data.drop (i * cellMaxSizeBytes)).take size) current
  match prev with
  | some prev => storeRef (some (some (← finish prev))) current
  | none => .ok current

/-- The rounds from `i` down to 0. -/
def storeBufferLoop (data : List UInt8) (pre : Int) :
    Nat → Nat → Option CellBuilder → Except Exception CellBuilder
  | 0, size, prev => storeBufferCell data pre size prev 0
  | i + 1, size, prev => do
    storeBufferLoop data pre i cellMaxSizeBytes
      (some (← storeBufferCell data pre size prev (i + 1)))

def storeBuffer (data : List UInt8) (pre : Int) : Except Exception Cell := do
  finish (← storeBufferLoop data pre (data.length / cellMaxSizeBytes)
    (data.length % cellMaxSizeBytes) none)

end CellBuilder

namespace Slice

/-- `(int)LoadLong(bits)`; a read that the cell refuses gives 0. -/
def loadInt (bits : Nat) (s : Slice) : Int × Slice :=
  match Vm.fetchUlongBool bits s with
  | some (value, s') => ((value : Int).bmod (2 ^ 32), s')
  | none => (0, s)

def loadBytes (len : Nat) (s : Slice) : List UInt8 :=
  match Vm.fetchBytes len s with
  | some (data, _) => data
  | none => List.replicate len 0

/-- The text in the data of one cell, null where there is none. -/
def loadCellString (bits : List Bool) : Option (List Char) :=
  if 0 < bits.length then some (Utf8.decode (loadBytes (bits.length / 8) ⟨bits, []⟩)) else none

/-- What is left of a cell, then the cells it goes on in. Null and null make an empty text. -/
def loadString : Cell → Option (List Char)
  | .mk bits [] => loadCellString bits
  | .mk bits (ref :: _) => some ((loadCellString bits).getD [] ++ (loadString ref).getD [])

end Slice

/-- The value of `DataFormat.SNAKE`. -/
def dataFormatSnake : Int := 0

def loadText (slice : Slice) : Option (List Char) :=
  match Slice.loadInt 8 slice with
  | (format, slice) =>
    if format = dataFormatSnake then Slice.loadString (.mk slice.bits slice.refs) else none

/-! ## What the loss of the first bytes does to a text -/

section Loss
open Utf8

/-- A character that is not U+FFFD. -/
def isProper (c : Char) : Bool := c != replacement

theorem encodeChar_replacement : String.utf8EncodeChar replacement = [0xEF, 0xBF, 0xBD] := by
  decide

theorem length_encode_replacements (k : Nat) :
    (encode (List.replicate k replacement)).length = 3 * k := by
  induction k with
  | zero => rfl
  | succ k ih =>
    rw [List.replicate_succ, encode_cons, encodeChar_replacement, List.length_append, ih]
    simp only [List.length_cons, List.length_nil]
    omega

/-- How many U+FFFD a run of them gains on reading, modulo 3, when the reading starts with `j`
bytes of one that was cut. -/
def Gains (j g : Nat) : Prop := if j = 1 then g % 3 ≠ 2 else g % 3 ≠ 1

/-- A text without a U+FFFD at its start. -/
def StartsProper : List Char → Prop
  | [] => True
  | c :: _ => isProper c

/-- Reading a run of U+FFFD and what follows it: either a proper character is lost, or the run
comes out longer by a number that `j` allows. -/
def RunRead (j r : Nat) (s out : List Char) : Prop :=
  out.countP isProper < s.countP isProper ∨
    ∃ g out', out = List.replicate (r + g) replacement ++ out' ∧ StartsProper out' ∧ Gains j g

theorem runRead_step {j j' r r' k : Nat} {s out : List Char}
    (h : RunRead j' r' s out) (hk : r ≤ k + r') (hg : ∀ g, Gains j' g → Gains j (k + r' - r + g)) :
    RunRead j r s (List.replicate k replacement ++ out) := by
  rcases h with hlost | ⟨g, out', rfl, hout, hgains⟩
  · left
    rw [List.countP_append, List.countP_replicate, if_neg (by decide)]
    omega
  · right
    refine ⟨k + r' - r + g, out', ?_, hout, hg g hgains⟩
    rw [← List.append_assoc, List.replicate_append_replicate]
    congr 2
    omega

theorem isTails_replacement {t u : List UInt8} (h : [0xEF, 0xBF, 0xBD] = t ++ u) (ht : t ≠ [])
    (hu : u ≠ []) : IsTails u :=
  (encodeChar_cut (encodeChar_replacement.trans h) ht hu).2

theorem isTails_nil : IsTails [] := ⟨by simp, by simp⟩

theorem length_run (t : List UInt8) (r : Nat) (s : List Char) :
    (t ++ encode (List.replicate r replacement ++ s)).length =
      t.length + (3 * r + (encode s).length) := by
  rw [List.length_append, encode_append, List.length_append, length_encode_replacements]

/-- A run that is read whole, after what is left of a cut character. -/
theorem runRead_of_run {j r : Nat} {s out : List Char} (hj : j ≤ 2) (hout : StartsProper out) :
    RunRead j r s (List.replicate j replacement ++ (List.replicate r replacement ++ out)) := by
  refine .inr ⟨j, out, ?_, hout, by rw [Gains]; split <;> omega⟩
  rw [← List.append_assoc, List.replicate_append_replicate, Nat.add_comm]

theorem countP_replacements (k : Nat) : (List.replicate k replacement).countP isProper = 0 := by
  rw [List.countP_replicate, if_neg (by decide)]

/-- A run that ends in the first piece, with more behind it than the piece holds. -/
theorem runRead_of_lt {t : List UInt8} {r : Nat} {s : List Char} (ht : IsTails t)
    (hj : t.length ≤ 2) (hs : StartsProper s) (hlt : t.length + 3 * r < 127)
    (hlong : 127 < t.length + (3 * r + (encode s).length)) : RunRead t.length r s
      (decodeChunks 126 (t ++ encode (List.replicate r replacement ++ s))) := by
  have hlen := length_encode_replacements r
  -- what follows the run starts in this piece, and is cut there or between two characters
  obtain ⟨a, b, rfl, ha⟩ | ⟨a, c, b, u, v, rfl, hc, hu, hv, ha⟩ :=
    cut_encode s (n := 127 - t.length - 3 * r) (by omega)
  · rw [← List.append_assoc, decodeChunks_whole ht
      (by rw [encode_append, List.length_append, hlen]; omega), List.append_assoc]
    cases a with
    | nil =>
      rw [encode_nil, List.length_nil] at ha
      omega
    | cons x a => exact runRead_of_run hj hs
  · rw [← List.append_assoc, decodeChunks_split ht hc hu hv
      (by rw [encode_append, List.length_append, hlen]; omega), List.append_assoc]
    cases a with
    | nil =>
      -- the proper character is lost
      left
      have hproper : isProper c := hs
      have hle := countP_decodeChunks_le (n := 126) isProper (by decide) _ rfl
        (encodeChar_cut hc hu hv).2 (by decide) (s := b)
      rw [List.nil_append, List.nil_append, List.countP_append, List.countP_append,
        List.countP_cons, List.countP_cons, countP_replacements, countP_replacements,
        if_pos hproper, if_neg (by decide)]
      omega
    | cons x a => exact runRead_of_run hj hs

/-- A piece that ends between two characters of a run. -/
theorem decodeChunks_run_whole {t : List UInt8} {k : Nat} (ht : IsTails t)
    (h : t.length + 3 * k = 127) (l : List Char) :
    decodeChunks 126 (t ++ encode (List.replicate k replacement ++ l)) =
      List.replicate (t.length + k) replacement ++ decodeChunks 126 (encode l) := by
  rw [decodeChunks_whole ht (by rw [length_encode_replacements]; exact h), ← List.append_assoc,
    List.replicate_append_replicate]

/-- A piece that ends inside a character of a run. -/
theorem decodeChunks_run_split {t u v : List UInt8} {k : Nat} (ht : IsTails t)
    (hcut : [0xEF, 0xBF, 0xBD] = u ++ v) (hu : u ≠ []) (hv : v ≠ [])
    (h : t.length + 3 * k + u.length = 127) (l : List Char) :
    decodeChunks 126 (t ++ encode (List.replicate (k + 1) replacement ++ l)) =
      List.replicate (t.length + (k + 1)) replacement ++ decodeChunks 126 (v ++ encode l) := by
  have hrun : List.replicate (k + 1) replacement ++ l =
      List.replicate k replacement ++ replacement :: l := by
    rw [List.replicate_succ', List.append_assoc, List.singleton_append]
  rw [hrun, decodeChunks_split ht (encodeChar_replacement.trans hcut) hu hv
    (by rw [length_encode_replacements]; exact h), ← Nat.add_assoc, List.replicate_succ',
    ← List.replicate_append_replicate]
  simp only [List.append_assoc, List.singleton_append]

/-- By the length of what is read: a run that reaches the end of its piece goes on in the next
one, after the bytes that are left of its cut character. -/
theorem runRead (N : Nat) : ∀ {t : List UInt8} {r : Nat} {s : List Char},
    (t ++ encode (List.replicate r replacement ++ s)).length = N → IsTails t → t.length ≤ 2 →
    StartsProper s → RunRead t.length r s
      (decodeChunks 126 (t ++ encode (List.replicate r replacement ++ s))) := by
  induction N using Nat.strong_induction_on with
  | _ N ih =>
    intro t r s hN ht hj hs
    rw [length_run] at hN
    by_cases hlast : t.length + (3 * r + (encode s).length) ≤ 127
    · have hwhole : t.length + (encode (List.replicate r replacement ++ s)).length ≤ 126 + 1 := by
        rw [encode_append, List.length_append, length_encode_replacements]
        exact hlast
      rw [decodeChunks_last ht hwhole]
      exact runRead_of_run hj hs
    by_cases hlt : t.length + 3 * r < 127
    · exact runRead_of_lt ht hj hs hlt (by omega)
    -- where the run is cut depends on what the piece started with
    obtain hj0 | hj1 | hj2 : t.length = 0 ∨ t.length = 1 ∨ t.length = 2 := by omega
    · obtain ⟨r', rfl⟩ : ∃ r', r = (42 + 1) + r' := ⟨r - 43, by omega⟩
      have htails := isTails_replacement (t := [0xEF]) (u := [0xBF, 0xBD]) rfl (by simp) (by simp)
      have hrest := ih _ (by rw [length_run]; simp; omega) (r := r') rfl htails (by simp) hs
      rw [List.replicate_add, List.append_assoc,
        decodeChunks_run_split (u := [0xEF]) (v := [0xBF, 0xBD]) ht rfl (by simp) (by simp)
          (by rw [hj0]; rfl)]
      refine runRead_step hrest (by omega) (fun g hg => ?_)
      rw [Gains, List.length_cons, List.length_singleton, if_neg (by decide)] at hg
      rw [Gains, if_neg (by omega)]
      omega
    · obtain ⟨r', rfl⟩ : ∃ r', r = 42 + r' := ⟨r - 42, by omega⟩
      have hrest := ih _ (by rw [length_run]; simp; omega) (r := r') rfl isTails_nil (by simp) hs
      rw [List.replicate_add, List.append_assoc, decodeChunks_run_whole ht (by rw [hj1])]
      refine runRead_step hrest (by omega) (fun g hg => ?_)
      rw [Gains, List.length_nil, if_neg (by decide)] at hg
      rw [Gains, if_pos (by omega)]
      omega
    · obtain ⟨r', rfl⟩ : ∃ r', r = (41 + 1) + r' := ⟨r - 42, by omega⟩
      have htails := isTails_replacement (t := [0xEF, 0xBF]) (u := [0xBD]) rfl (by simp) (by simp)
      have hrest := ih _ (by rw [length_run]; simp; omega) (r := r') rfl htails (by simp) hs
      rw [List.replicate_add, List.append_assoc,
        decodeChunks_run_split (u := [0xEF, 0xBF]) (v := [0xBD]) ht rfl (by simp) (by simp)
          (by rw [hj2]; rfl)]
      refine runRead_step hrest (by omega) (fun g hg => ?_)
      rw [Gains, List.length_singleton, if_pos rfl] at hg
      rw [Gains, if_neg (by omega)]
      omega

theorem exists_run (s : List Char) : ∃ r s', s = List.replicate r replacement ++ s' ∧
    StartsProper s' := by
  induction s with
  | nil => exact ⟨0, [], rfl, trivial⟩
  | cons c s ih =>
    by_cases hc : isProper c
    · exact ⟨0, c :: s, rfl, hc⟩
    · obtain ⟨r, s', rfl, hs'⟩ := ih
      have hrepl : c = replacement := by simpa [isProper] using hc
      exact ⟨r + 1, s', by rw [hrepl, List.replicate_succ, List.cons_append], hs'⟩

/-- A text starts with one number of U+FFFD. -/
theorem run_unique {r r' : Nat} {s s' : List Char} (hs : StartsProper s) (hs' : StartsProper s')
    (h : List.replicate r replacement ++ s = List.replicate r' replacement ++ s') : r = r' := by
  induction r generalizing r' with
  | zero =>
    cases r' with
    | zero => rfl
    | succ r' =>
      rw [List.replicate_zero, List.nil_append, List.replicate_succ, List.cons_append] at h
      rw [h] at hs
      exact absurd hs (by simp [StartsProper, isProper])
  | succ r ih =>
    cases r' with
    | zero =>
      rw [List.replicate_zero, List.nil_append, List.replicate_succ, List.cons_append] at h
      rw [← h] at hs'
      exact absurd hs' (by simp [StartsProper, isProper])
    | succ r' =>
      rw [List.replicate_succ, List.replicate_succ, List.cons_append, List.cons_append,
        List.cons.injEq] at h
      rw [ih h.2]

/-- A start of a text that has no proper character is a run of U+FFFD. -/
theorem run_of_countP {s : List Char} (h : s.countP isProper = 0) :
    s = List.replicate s.length replacement := by
  rw [List.eq_replicate_iff]
  refine ⟨rfl, fun c hc => ?_⟩
  have := List.countP_eq_zero.1 h c hc
  simpa [isProper] using this

/-- What is left of a text when its first 127 bytes are lost never reads as the text. -/
theorem decodeChunks_ne {s : List Char} (h : 127 ≤ (encode s).length) :
    decodeChunks 126 ((encode s).drop 127) ≠ s := by
  intro heq
  have hlost : ∀ {v : List UInt8} {a b : List Char}, (encode s).drop 127 = v ++ encode b →
      IsTails v → s = a ++ b → a.countP isProper = 0 := by
    intro v a b hdrop hv hs
    have hle := countP_decodeChunks_le (n := 126) isProper (by decide) _ rfl hv (by decide) (s := b)
    rw [← hdrop, heq, hs, List.countP_append] at hle
    omega
  rcases cut_encode s h with ⟨a, b, hs, ha⟩ | ⟨a, c, b, u, v, hs, hc, hu, hv, ha⟩
  · -- a run of U+FFFD does not end after 127 bytes
    have hdrop : (encode s).drop 127 = [] ++ encode b := by
      rw [hs, encode_append, List.drop_left' ha]
      rfl
    rw [run_of_countP (hlost hdrop isTails_nil hs), length_encode_replacements] at ha
    omega
  · have hdrop : (encode s).drop 127 = v ++ encode b := by
      rw [hs, encode_append, encode_cons, hc, ← List.append_assoc, ← List.append_assoc,
        List.append_assoc, List.drop_left' (by rwa [List.length_append])]
    have htails := (encodeChar_cut hc hu hv).2
    have hrun := hlost hdrop htails (a := a ++ [c]) (b := b) (by rw [hs]; simp)
    rw [List.countP_append, Nat.add_eq_zero_iff] at hrun
    obtain rfl : c = replacement := by simpa [isProper] using hrun.2
    have hall := run_of_countP hrun.1
    rw [hall, length_encode_replacements] at ha
    have hcut := congrArg List.length hc
    rw [encodeChar_replacement, List.length_append] at hcut
    have hupos := List.length_pos_iff.2 hu
    have hvpos := List.length_pos_iff.2 hv
    simp only [List.length_cons, List.length_nil] at hcut
    have hv2 : v.length = 2 := by omega
    obtain ⟨r, s', rfl, hs'⟩ := exists_run b
    have hread := runRead _ (t := v) (r := r) (s := s') rfl htails (by omega) hs'
    have hwhole : s = List.replicate (43 + r) replacement ++ s' := by
      rw [hs, hall, show a.length = 42 by omega, List.replicate_add 43, List.append_assoc]
      rfl
    rw [← hdrop, heq, hwhole, hv2] at hread
    rcases hread with hless | ⟨g, out', hout, hproper, hgains⟩
    · rw [List.countP_append] at hless
      omega
    · have hg := run_unique hs' hproper hout
      rw [Gains, if_neg (by decide)] at hgains
      omega

end Loss

/-! ## What is written -/

section Written
open Utf8 CellBuilder

@[simp] theorem canExtendBy_begin {bits refs : Nat} :
    CellBuilder.begin.canExtendBy bits refs ↔ bits ≤ 1023 ∧ refs ≤ 4 := Iff.rfl

theorem loadCellString_ofBytes (data : List UInt8) :
    (Slice.loadCellString (BitField.ofBytes data)).getD [] = decode data := by
  rw [Slice.loadCellString, BitField.length_ofBytes]
  split
  · have hbytes := Vm.bytesOfBits_ofBytes data []
    rw [List.append_nil] at hbytes
    rw [Nat.mul_div_cancel_left _ (by decide), Slice.loadBytes, Vm.fetchBytes,
      if_neg (by rw [BitField.length_ofBytes]; omega), hbytes]
    rfl
  · obtain rfl : data = [] := List.eq_nil_of_length_eq_zero (by omega)
    rfl

/-- The builder of a round from the first one on reads as the data from its bytes on. -/
def ReadsFrom (data : List UInt8) (i : Nat) (b : Vm.CellBuilder) : Prop :=
  (Slice.loadString (.mk b.bits b.refs)).getD [] = decodeChunks 126 (data.drop (i * 127))

/-- What round `i` finds: the bytes from its offset on are the last ones, or there are at least
127 of them and the round before has written those that follow. -/
def RoundReady (data : List UInt8) (i size : Nat) : Option Vm.CellBuilder → Prop
  | none => (data.drop (i * 127)).length = size ∧ size < 127
  | some prev => size = 127 ∧ 127 ≤ (data.drop (i * 127)).length ∧ ReadsFrom data (i + 1) prev

theorem storeBytes_begin (data : List UInt8) (h : data.length ≤ 127) :
    ∃ b, storeBytes data CellBuilder.begin = b ∧ b.bits = BitField.ofBytes data ∧ b.refs = [] := by
  have hfit : CellBuilder.begin.canExtendBy (BitField.ofBytes data).length 0 := by
    rw [canExtendBy_begin, BitField.length_ofBytes]
    omega
  rw [(kept_storeBytes data CellBuilder.begin).eq_append trivial hfit]
  exact ⟨_, rfl, rfl, rfl⟩

/-- The end of a round: the cell of the round before becomes the only reference. -/
theorem storeRef_finish {b prev b' : Vm.CellBuilder} (hrefs : b.refs = [])
    (h : (do storeRef (some (some (← finish prev))) b) = .ok b') :
    b'.bits = b.bits ∧ b'.refs = [.mk prev.bits prev.refs] := by
  obtain ⟨cell, hcell, h⟩ := bind_ok_iff.1 h
  rw [finish_eq] at hcell
  split at hcell
  · obtain rfl := Except.ok.inj hcell
    have hroom : b.canExtendBy 0 1 := ⟨Nat.zero_le _, by rw [hrefs]; decide⟩
    rw [storeRef_eq _ _ hroom] at h
    obtain rfl := Except.ok.inj h
    simp only [Vm.CellBuilder.bits_append, Vm.CellBuilder.refs_append, hrefs, List.append_nil,
      List.nil_append, and_self]
  · cases hcell

theorem decodeChunks_drop {data : List UInt8} {i : Nat} (h : 127 ≤ (data.drop (i * 127)).length) :
    decodeChunks 126 (data.drop (i * 127)) =
      decode ((data.drop (i * 127)).take 127) ++ decodeChunks 126 (data.drop ((i + 1) * 127)) := by
  have hsplit : data.drop (i * 127) =
      (data.drop (i * 127)).take 127 ++ data.drop ((i + 1) * 127) := by
    rw [show (i + 1) * 127 = i * 127 + 127 by omega, ← List.drop_drop, List.take_append_drop]
  conv_lhs => rw [hsplit]
  exact decodeChunks_append (by rw [List.length_take]; omega) _

theorem decodeChunks_short {bs : List UInt8} (h : bs.length ≤ 127) :
    decodeChunks 126 bs = decode bs := by
  rw [decodeChunks]
  split
  · rename_i hnil
    rw [hnil, decode_nil]
  · rw [List.take_of_length_le h, List.drop_of_length_le h, decodeChunks_nil, List.append_nil]

/-- A round but the last one. -/
theorem storeBufferCell_readsFrom {data : List UInt8} {pre : Int} {size i : Nat}
    {prev : Option Vm.CellBuilder} {b : Vm.CellBuilder} (hi : 0 < i)
    (hready : RoundReady data i size prev)
    (h : storeBufferCell data pre size prev i = .ok b) : ReadsFrom data i b := by
  have hround : ¬ (i = 0 ∧ 0 ≤ pre) := fun h => by omega
  simp only [storeBufferCell, hround, if_false, cellMaxSizeBytes] at h
  obtain ⟨b₀, hb₀, hbits, hrefs⟩ := storeBytes_begin
    ((data.drop (i * 127)).take size) (by
      rw [List.length_take]
      cases prev with
      | none => have := hready.2; omega
      | some prev => have := hready.1; omega)
  rw [hb₀] at h
  cases prev with
  | none =>
    obtain ⟨hlen, hsize⟩ := hready
    obtain rfl := Except.ok.inj h
    rw [ReadsFrom, hbits, hrefs, ← hlen, List.take_length, decodeChunks_short (by omega)]
    exact loadCellString_ofBytes _
  | some prev =>
    obtain ⟨rfl, hlen, hnext⟩ := hready
    obtain ⟨hbits', hrefs'⟩ := storeRef_finish hrefs h
    rw [ReadsFrom, hbits', hrefs', hbits, Slice.loadString, Option.getD_some,
      loadCellString_ofBytes, decodeChunks_drop hlen, hnext]

/-- The rounds before the last one leave what the last one refers to. -/
theorem storeBufferLoop_last {data : List UInt8} {pre : Int} {i : Nat} :
    ∀ {size : Nat} {prev : Option Vm.CellBuilder} {b : Vm.CellBuilder},
      (i + 1) * 127 ≤ data.length → RoundReady data (i + 1) size prev →
      storeBufferLoop data pre (i + 1) size prev = .ok b →
      ∃ p, ReadsFrom data 1 p ∧ storeBufferCell data pre cellMaxSizeBytes (some p) 0 = .ok b := by
  induction i with
  | zero =>
    intro size prev b _ hready h
    rw [storeBufferLoop] at h
    obtain ⟨p, hp, h⟩ := bind_ok_iff.1 h
    rw [storeBufferLoop] at h
    have hp' := storeBufferCell_readsFrom (i := 0 + 1) (by decide) hready hp
    exact ⟨p, hp', h⟩
  | succ i ih =>
    intro size prev b hlen
    rw [Nat.succ_mul (i + 1)] at hlen
    have hfull : 127 ≤ (data.drop ((i + 1) * 127)).length := by
      rw [List.length_drop]
      omega
    intro hready h
    rw [storeBufferLoop] at h
    obtain ⟨p, hp, h⟩ := bind_ok_iff.1 h
    have hp' := storeBufferCell_readsFrom (i := i + 1 + 1) (Nat.succ_pos _) hready hp
    have hready' : RoundReady data (i + 1) cellMaxSizeBytes (some p) :=
      ⟨rfl, hfull, hp'⟩
    exact ih (Nat.le_of_add_right_le hlen) hready' h

/-- The last round writes the prefix, and refuses the first 127 bytes after it. -/
theorem storeBufferCell_lost {data : List UInt8} {p b : Vm.CellBuilder} (hlen : 127 ≤ data.length)
    (h : storeBufferCell data 0 cellMaxSizeBytes (some p) 0 = .ok b) :
    b.bits = BitField.ofBytes [0] ∧ b.refs = [.mk p.bits p.refs] := by
  have hpre : ∃ b₀, store 0 8 CellBuilder.begin = b₀ ∧ b₀.bits = BitField.ofBytes [0] ∧
      b₀.refs = [] :=
    ⟨_, Appends.store 0 8 (by decide) CellBuilder.begin ⟨by decide, by decide⟩, rfl, rfl⟩
  obtain ⟨b₀, hb₀, hbits, hrefs⟩ := hpre
  have hrefused : storeBytes (data.take 127) b₀ = b₀ := by
    have hbytes : (data.take 127).length = 127 := by rw [List.length_take]; omega
    rw [storeBytes, TonLib.cellBuilderStoreBytes, Vm.CellBuilder.storeBytesBool,
      if_pos (by rw [hbytes]; decide), Vm.CellBuilder.storeBitsBool,
      Vm.CellBuilder.storeAll_refused]
    rintro ⟨hroom, -⟩
    rw [BitField.length_ofBytes, hbytes, hbits] at hroom
    exact absurd hroom (by decide)
  have h0 : (0 : Int) ≤ 0 := le_rfl
  simp only [storeBufferCell, true_and, h0, if_true, hb₀, Nat.zero_mul, List.drop_zero,
    cellMaxSizeBytes, hrefused] at h
  obtain ⟨hb, hr⟩ := storeRef_finish hrefs h
  exact ⟨hb.trans hbits, hr⟩

/-- A text of less than 127 bytes is one cell. -/
theorem storeBuffer_short {data : List UInt8} (h : data.length < 127) :
    storeBuffer data dataFormatSnake = .ok (.mk (BitField.ofBytes (0 :: data)) []) := by
  have hall : Appends (fun b => storeBytes data (store 0 8 b)) (BitField.ofBytes (0 :: data)) :=
    (Appends.store 0 8 (by decide)).comp (Appends.storeBytes data)
  have hfit : CellBuilder.begin.canExtendBy (BitField.ofBytes (0 :: data)).length 0 := by
    rw [canExtendBy_begin, BitField.length_ofBytes, List.length_cons]
    omega
  have hstore := hall _ hfit
  have hpre : (0 : Nat) = 0 ∧ 0 ≤ dataFormatSnake := ⟨rfl, le_rfl⟩
  rw [storeBuffer, cellMaxSizeBytes, Nat.div_eq_of_lt h, Nat.mod_eq_of_lt h, storeBufferLoop,
    storeBufferCell, if_pos hpre, Nat.zero_mul, List.drop_zero, List.take_length,
    dataFormatSnake]
  simp only [hstore, bind, Except.bind]
  rw [finish_eq, if_pos (by simp [CellBuilder.begin])]
  simp [CellBuilder.begin]

/-- Without a prefix the cell holds the bytes alone. -/
theorem storeBuffer_plain {data : List UInt8} {pre : Int} (hpre : pre < 0)
    (h : data.length < 127) : storeBuffer data pre = .ok (.mk (BitField.ofBytes data) []) := by
  have hround : ¬ (0 = 0 ∧ 0 ≤ pre) := fun h => by omega
  have hbits : (BitField.ofBytes data).length ≤ Vm.maxBits := by
    rw [BitField.length_ofBytes, Vm.maxBits]
    omega
  rw [storeBuffer, cellMaxSizeBytes, Nat.div_eq_of_lt h, Nat.mod_eq_of_lt h, storeBufferLoop,
    storeBufferCell, if_neg hround, Nat.zero_mul, List.drop_zero, List.take_length]
  exact finish_begin (Appends.storeBytes data) hbits

/-- Of a longer one the first cell refers to a second one. -/
theorem refs_storeBuffer {data : List UInt8} {pre : Int} (hpre : pre < 0) {cell : Cell}
    (h : 127 ≤ data.length) (hcell : storeBuffer data pre = .ok cell) :
    ∃ next, cell.refs = [next] := by
  obtain ⟨b, hb, hfinish⟩ := bind_ok_iff.1 hcell
  obtain ⟨i, hi⟩ : ∃ i, data.length / 127 = i + 1 := ⟨data.length / 127 - 1, by omega⟩
  rw [cellMaxSizeBytes, hi] at hb
  have hready : RoundReady data (i + 1) (data.length % 127) none :=
    ⟨by rw [List.length_drop]; omega, by omega⟩
  obtain ⟨p, -, hlast⟩ := storeBufferLoop_last (by omega) hready hb
  have hround : ¬ (0 = 0 ∧ 0 ≤ pre) := fun h => by omega
  obtain ⟨b₀, hb₀, -, hrefs₀⟩ := storeBytes_begin ((data.drop 0).take cellMaxSizeBytes)
    (by rw [List.length_take, cellMaxSizeBytes]; omega)
  rw [storeBufferCell, if_neg hround, Nat.zero_mul, hb₀] at hlast
  obtain ⟨-, hrefs⟩ := storeRef_finish hrefs₀ hlast
  rw [finish_eq] at hfinish
  split at hfinish
  · obtain rfl := Except.ok.inj hfinish
    exact ⟨_, hrefs⟩
  · cases hfinish

/-- Of a longer one the first cell holds the prefix alone, and the rest reads from there on. -/
theorem storeBuffer_long {data : List UInt8} {cell : Cell} (h : 127 ≤ data.length)
    (hcell : storeBuffer data dataFormatSnake = .ok cell) :
    ∃ next, cell = .mk (BitField.ofBytes [0]) [next] ∧
      (Slice.loadString next).getD [] = decodeChunks 126 (data.drop 127) := by
  obtain ⟨b, hb, hfinish⟩ := bind_ok_iff.1 hcell
  obtain ⟨i, hi⟩ : ∃ i, data.length / 127 = i + 1 := ⟨data.length / 127 - 1, by omega⟩
  rw [cellMaxSizeBytes, hi] at hb
  have hready : RoundReady data (i + 1) (data.length % 127) none :=
    ⟨by rw [List.length_drop]; omega, by omega⟩
  obtain ⟨p, hp, hlast⟩ := storeBufferLoop_last (by omega) hready hb
  obtain ⟨hbits, hrefs⟩ := storeBufferCell_lost h hlast
  rw [finish_eq] at hfinish
  split at hfinish
  · obtain rfl := Except.ok.inj hfinish
    exact ⟨.mk p.bits p.refs, by rw [hbits, hrefs], hp⟩
  · cases hfinish

/-! ## What is read back -/

/-- A number of less than 32 bits comes back. -/
theorem loadInt_ofNat {w n : Nat} (hw : w < 32) (hn : n < 2 ^ w) (rest : List Bool)
    (refs : List Cell) :
    Slice.loadInt w ⟨BitField.ofNat w n ++ rest, refs⟩ = ((n : Int), ⟨rest, refs⟩) := by
  have hlt : 2 ^ w ≤ 2 ^ 31 := Nat.pow_le_pow_right (by decide) (by omega)
  have hload : Slice.loadInt w ⟨BitField.ofNat w n ++ rest, refs⟩ =
      ((n : Int).bmod (2 ^ 32), ⟨rest, refs⟩) := by
    rw [Slice.loadInt, Vm.fetchUlongBool_ofNat (by omega) hn]
  rw [hload, Int.bmod_eq_of_le (by omega) (by omega)]

/-- Reading a zero byte off a slice. -/
theorem loadInt_zero (bits : List Bool) (refs : List Cell) :
    Slice.loadInt 8 ⟨BitField.ofNat 8 0 ++ bits, refs⟩ = (0, ⟨bits, refs⟩) :=
  loadInt_ofNat (by decide) (by decide) bits refs

/-- The prefix byte comes off, and says that a text follows. -/
theorem loadText_snake (data : List UInt8) (refs : List Cell) :
    loadText ⟨BitField.ofBytes (0 :: data), refs⟩ =
      Slice.loadString (.mk (BitField.ofBytes data) refs) := by
  rw [loadText, show BitField.ofBytes (0 :: data) = BitField.ofNat 8 0 ++ BitField.ofBytes data
    from rfl, loadInt_zero]
  rfl

/-- The text of one cell. -/
theorem loadString_encode {s : List Char} (hs : s ≠ []) :
    Slice.loadString (.mk (BitField.ofBytes (encode s)) []) = some s := by
  have hne : encode s ≠ [] := by
    obtain ⟨c, s, rfl⟩ := List.exists_cons_of_ne_nil hs
    simp [String.utf8EncodeChar_ne_nil]
  have hpos := List.length_pos_iff.2 hne
  have htext := loadCellString_ofBytes (encode s)
  rw [decode_encode, Slice.loadCellString, if_pos (by rw [BitField.length_ofBytes]; omega),
    Option.getD_some] at htext
  rw [Slice.loadString, Slice.loadCellString, if_pos (by rw [BitField.length_ofBytes]; omega),
    htext]

theorem loadText_storeBuffer_short {s : List Char} (hs : s ≠ []) (h : (encode s).length < 127) :
    ∃ cell, storeBuffer (encode s) dataFormatSnake = .ok cell ∧ cell.depth = 0 ∧
      loadText cell.toSlice = some s := by
  refine ⟨_, storeBuffer_short h, by simp, ?_⟩
  rw [Cell.toSlice_mk, loadText_snake, loadString_encode hs]

theorem loadText_storeBuffer_long {s : List Char} {cell : Cell} (h : 127 ≤ (encode s).length)
    (hcell : storeBuffer (encode s) dataFormatSnake = .ok cell) :
    ∃ s', loadText cell.toSlice = some s' ∧ s' ≠ s := by
  obtain ⟨next, rfl, hnext⟩ := storeBuffer_long h hcell
  refine ⟨_, (loadText_snake [] [next]).trans rfl, ?_⟩
  change [] ++ (Slice.loadString next).getD [] ≠ s
  rw [List.nil_append, hnext]
  exact decodeChunks_ne h

/-- A text reads back from its cell exactly when it has less than 127 bytes. -/
theorem loadText_storeBuffer_iff {s : List Char} {cell : Cell} (hs : s ≠ [])
    (hcell : storeBuffer (encode s) dataFormatSnake = .ok cell) :
    loadText cell.toSlice = some s ↔ (encode s).length < 127 := by
  by_cases h : (encode s).length < 127
  · obtain ⟨cell', hcell', -, htext⟩ := loadText_storeBuffer_short hs h
    obtain rfl := Except.ok.inj (hcell.symm.trans hcell')
    exact iff_of_true htext h
  · obtain ⟨s', htext, hne⟩ := loadText_storeBuffer_long (by omega) hcell
    refine iff_of_false (fun heq => hne ?_) h
    exact Option.some.inj (htext.symm.trans heq)

end Written

end Ton
