import TopWallets.SnakeText

/- Texts in chains of cells without a prefix: `CellBuilder.StoreBuffer(string)` and
   `Slice.LoadString`.

   Without a prefix every cell has room for its 127 bytes, so the chain holds all bytes of
   the text (`storeBuffer_eq`): `length / 127` full cells and the rest in a last one. It is
   built unless it is deeper than a cell may be.

   The reader decodes the cells one by one. So it gets the text back exactly when no
   character is cut by the end of a cell; a character that is cut reads as two or more
   U+FFFD (`textReadsBack_iff`). -/
namespace Ton

open Utf8 CellBuilder

/-- The chain of `n` full cells and the rest. -/
def snake : Nat → List UInt8 → Cell
  | 0, data => .mk (BitField.ofBytes data) []
  | n + 1, data => .mk (BitField.ofBytes (data.take 127)) [snake n (data.drop 127)]

/-- Every cell of the chain holds at most 127 bytes and one reference. -/
def Narrow : Cell → Prop
  | .mk bits [] => bits.length ≤ 127 * 8
  | .mk bits [next] => bits.length ≤ 127 * 8 ∧ Narrow next
  | .mk _ (_ :: _ :: _) => False

/-- The text is stored in a chain of such cells, and is what the reader gets. An empty text is null
to it. -/
def TextReadsBack (s : List Char) : Prop :=
  ∃ cell, storeBuffer (encode s) (-1) = .ok cell ∧ Narrow cell ∧
    (Slice.loadString cell).getD [] = s

/-! ## The chain -/

theorem depth_snake (n : Nat) (data : List UInt8) : (snake n data).depth = n := by
  induction n generalizing data with
  | zero => simp [snake]
  | succ n ih => simp [snake, ih]

theorem narrow_snake (n : Nat) {data : List UInt8} (h : data.length ≤ 127 * n + 127) :
    Narrow (snake n data) := by
  induction n generalizing data with
  | zero =>
    rw [snake, Narrow, BitField.length_ofBytes]
    omega
  | succ n ih =>
    rw [snake, Narrow, BitField.length_ofBytes, List.length_take]
    refine ⟨by omega, ih ?_⟩
    rw [List.length_drop]
    omega

/-- The chain reads as its pieces, decoded one by one. -/
theorem loadString_snake (n : Nat) {data : List UInt8} (hlo : 127 * n ≤ data.length)
    (hhi : data.length < 127 * n + 127) :
    (Slice.loadString (snake n data)).getD [] = decodeChunks 126 data := by
  induction n generalizing data with
  | zero =>
    rw [snake, Slice.loadString, loadCellString_ofBytes, decodeChunks_short (by omega)]
  | succ n ih =>
    have hfirst : (data.take 127).length = 126 + 1 := by
      rw [List.length_take]
      omega
    have hlo' : 127 * n ≤ (data.drop 127).length := by
      rw [List.length_drop]
      omega
    have hrest := ih hlo' (by rw [List.length_drop]; omega)
    rw [snake, Slice.loadString, Option.getD_some, loadCellString_ofBytes, hrest]
    rw [← decodeChunks_append hfirst, List.take_append_drop]

/-! ## The loop -/

/-- What the rounds have built: the chain of the bytes from some round on. -/
def Built (n : Nat) (data : List UInt8) (b : Vm.CellBuilder) : Prop :=
  Cell.mk b.bits b.refs = snake n data

theorem Built.finish {n : Nat} {data : List UInt8} {b : Vm.CellBuilder} (h : Built n data b) :
    finish b = if n ≤ Vm.maxDepth then .ok (snake n data) else .error .cellWrite := by
  have hdepth : Cell.depthRefs b.refs = n := by
    rw [← depth_snake n data, ← h, Cell.depth_mk]
  rw [finish_eq, hdepth, h]

/-- The first round stores what is left over. -/
theorem storeBufferCell_none {data : List UInt8} {pre : Int} (hpre : pre < 0) {i : Nat}
    (hlen : data.length < 127 * i + 127) :
    ∃ b, storeBufferCell data pre (data.length - 127 * i) none i = .ok b ∧
      Built 0 (data.drop (127 * i)) b := by
  have hround : ¬ (i = 0 ∧ 0 ≤ pre) := fun h => by omega
  have htake : (data.drop (i * 127)).take (data.length - 127 * i) = data.drop (127 * i) := by
    rw [Nat.mul_comm, List.take_of_length_le (by rw [List.length_drop])]
  obtain ⟨b, hb, hbits, hrefs⟩ := storeBytes_begin (data.drop (127 * i))
    (by rw [List.length_drop]; omega)
  refine ⟨b, ?_, ?_⟩
  · rw [storeBufferCell, if_neg hround, cellMaxSizeBytes, htake, hb]
  · rw [Built, hbits, hrefs, snake]

/-- Every other round stores 127 bytes and refers to what there is. -/
theorem storeBufferCell_some {data : List UInt8} {pre : Int} (hpre : pre < 0) {i n : Nat}
    {prev : Vm.CellBuilder} (hprev : Built n (data.drop (127 * (i + 1))) prev) :
    if n ≤ Vm.maxDepth then
      ∃ b, storeBufferCell data pre cellMaxSizeBytes (some prev) i = .ok b ∧
        Built (n + 1) (data.drop (127 * i)) b
    else storeBufferCell data pre cellMaxSizeBytes (some prev) i = .error .cellWrite := by
  have hround : ¬ (i = 0 ∧ 0 ≤ pre) := fun h => by omega
  obtain ⟨b₀, hb₀, hbits, hrefs⟩ := storeBytes_begin ((data.drop (127 * i)).take 127)
    (by rw [List.length_take]; omega)
  have hcell : storeBufferCell data pre cellMaxSizeBytes (some prev) i =
      (do storeRef (some (some (← CellBuilder.finish prev))) b₀) := by
    rw [storeBufferCell, if_neg hround, cellMaxSizeBytes, Nat.mul_comm i, hb₀]
  rw [hcell, hprev.finish]
  split
  · have hroom : b₀.canExtendBy 0 1 := ⟨Nat.zero_le _, by rw [hrefs]; decide⟩
    rw [ok_bind, storeRef_eq _ _ hroom]
    refine ⟨_, rfl, ?_⟩
    rw [Built, Vm.CellBuilder.bits_append, Vm.CellBuilder.refs_append, hbits, hrefs,
      List.append_nil, List.nil_append, snake, List.drop_drop, Nat.mul_succ]
  · rfl

/-- The rounds before the first cell lengthen the chain one by one, as long as it can be
referred to. -/
theorem storeBufferLoop_some {data : List UInt8} {pre : Int} (hpre : pre < 0) (i : Nat) :
    ∀ {n : Nat} {prev : Vm.CellBuilder}, Built n (data.drop (127 * (i + 1))) prev →
      if n + i ≤ Vm.maxDepth then
        ∃ b, storeBufferLoop data pre i cellMaxSizeBytes (some prev) = .ok b ∧
          Built (n + i + 1) data b
      else storeBufferLoop data pre i cellMaxSizeBytes (some prev) = .error .cellWrite := by
  induction i with
  | zero =>
    intro n prev hprev
    have hcell := storeBufferCell_some hpre hprev
    rw [Nat.mul_zero, List.drop_zero] at hcell
    exact hcell
  | succ i ih =>
    intro n prev hprev
    have hcell := storeBufferCell_some hpre hprev
    rw [storeBufferLoop]
    by_cases hn : n ≤ Vm.maxDepth
    · rw [if_pos hn] at hcell
      obtain ⟨b, hb, hbuilt⟩ := hcell
      have hrest := ih hbuilt
      rw [show n + 1 + i = n + (i + 1) by omega] at hrest
      rw [hb]
      exact hrest
    · rw [if_neg hn] at hcell
      rw [hcell, if_neg (by omega)]
      rfl

/-- The cell of any bytes is their chain, unless that is too deep. -/
theorem storeBuffer_eq (data : List UInt8) {pre : Int} (hpre : pre < 0) :
    storeBuffer data pre =
      if data.length / 127 ≤ Vm.maxDepth then .ok (snake (data.length / 127) data)
      else .error .cellWrite := by
  have hcells : data.length < 127 * (data.length / 127) + 127 := by omega
  obtain ⟨b₀, hb₀, hbuilt₀⟩ := storeBufferCell_none hpre hcells
  have hsize : data.length - 127 * (data.length / 127) = data.length % 127 := by omega
  rw [hsize] at hb₀
  rw [storeBuffer, cellMaxSizeBytes]
  obtain hzero | ⟨i, hi⟩ : data.length / 127 = 0 ∨ ∃ i, data.length / 127 = i + 1 := by
    cases data.length / 127 with
    | zero => exact .inl rfl
    | succ i => exact .inr ⟨i, rfl⟩
  · rw [hzero] at hb₀ hbuilt₀
    rw [hzero, storeBufferLoop, hb₀, ok_bind]
    exact hbuilt₀.finish
  · rw [hi] at hb₀ hbuilt₀
    have hloop := storeBufferLoop_some hpre i hbuilt₀
    rw [hi, storeBufferLoop, hb₀, ok_bind]
    rw [Nat.zero_add] at hloop
    by_cases hdeep : i ≤ Vm.maxDepth
    · rw [if_pos hdeep] at hloop
      obtain ⟨b, hb, hbuilt⟩ := hloop
      rw [hb, ok_bind]
      exact hbuilt.finish
    · rw [if_neg hdeep] at hloop
      rw [hloop, if_neg (by omega)]
      rfl

/-- A text is read back when its chain is built and its pieces decode to it. -/
theorem textReadsBack_iff_decodeChunks (s : List Char) :
    TextReadsBack s ↔
      (encode s).length / 127 ≤ Vm.maxDepth ∧ decodeChunks 126 (encode s) = s := by
  have hpre : (-1 : Int) < 0 := by decide
  have hcells : 127 * ((encode s).length / 127) ≤ (encode s).length := by omega
  have hread := loadString_snake _ hcells (by omega)
  rw [← hread, TextReadsBack, storeBuffer_eq _ hpre]
  by_cases hdeep : (encode s).length / 127 ≤ Vm.maxDepth
  · rw [if_pos hdeep, and_iff_right hdeep]
    constructor
    · intro h
      obtain ⟨cell, hcell, -, htext⟩ := h
      obtain rfl := Except.ok.inj hcell
      exact htext
    · intro htext
      exact ⟨_, rfl, narrow_snake _ (by omega), htext⟩
  · rw [if_neg hdeep]
    refine iff_of_false ?_ (fun h => hdeep h.1)
    intro h
    obtain ⟨cell, hcell, -⟩ := h
    cases hcell

/-- A text is read back exactly when the chain is not too deep and no character is cut. -/
theorem textReadsBack_iff (s : List Char) :
    TextReadsBack s ↔ (encode s).length < 127 * 1025 ∧ OnBoundaries 127 s := by
  have hdepth : (encode s).length / 127 ≤ Vm.maxDepth ↔ (encode s).length < 127 * 1025 := by
    rw [Vm.maxDepth]
    omega
  have hiff := decodeChunks_encode_iff (n := 126) (by decide) _ (s := s) rfl
  rw [textReadsBack_iff_decodeChunks, hdepth, hiff]

/-- After 126 letters a character of two bytes is cut by the end of the first cell. -/
def cutText : List Char := List.replicate 126 'a' ++ ['\u00e9']

theorem length_encode_letters (n : Nat) : (encode (List.replicate n 'a')).length = n := by
  induction n with
  | zero => rfl
  | succ n ih =>
    have hletter : (String.utf8EncodeChar 'a').length = 1 := by decide
    rw [List.replicate_succ, encode_cons, List.length_append, ih, hletter, Nat.add_comm]

theorem not_readsBack_cutText : ¬ ∀ s, TextReadsBack s := by
  intro hall
  have htext := ((textReadsBack_iff_decodeChunks cutText).1 (hall cutText)).2
  have hbounds := (decodeChunks_encode_iff (n := 126) (by decide) _ (s := cutText) rfl).1 htext
  have hlen : (String.utf8EncodeChar '\u00e9').length = 2 := by decide
  have hlong : 127 * 1 ≤ (encode cutText).length := by
    rw [cutText, encode_append, List.length_append, length_encode_letters, encode_cons,
      List.length_append, hlen]
    omega
  have hcut : IsBoundary ((encode (List.replicate 126 'a')).length + 1) cutText := by
    rw [length_encode_letters]
    exact hbounds 1 hlong
  obtain hzero | ⟨m, hm, -⟩ := isBoundary_cons.1 (isBoundary_append.1 hcut)
  · cases hzero
  · omega

end Ton