import Mathlib

/- UTF-8: the encoding of a text, and a decoder that replaces what it cannot decode.

   The decoder reads byte by byte. Between characters it is in state `none`;
   inside one it is in a `Pending` state, which says how many bytes follow the next
   one and what the next one may be. A byte that cannot go on ends the character
   as one U+FFFD and is read again as a first byte; so does the end of the text.

   Two facts matter where an encoded text is cut into pieces and each piece is
   decoded alone: whole characters decode to themselves (`decode_encode_append`),
   and a cut inside a character leaves one U+FFFD before it and one for every byte
   after it (`encodeChar_cut`, `decode_tails`). `decodeChunks` is that reading, for
   pieces of one size. It gives the text back exactly when no piece ends inside a
   character (`decodeChunks_encode_iff`).

   A text has at least as many bytes as UTF-16 units, and as many exactly when it is
   ASCII (`utf16Length_eq_iff`). -/
namespace Utf8

/-- The bytes of a text. -/
def encode (s : List Char) : List UInt8 := s.flatMap String.utf8EncodeChar

@[simp] theorem encode_nil : encode [] = [] := rfl

@[simp] theorem encode_cons (c : Char) (s : List Char) :
    encode (c :: s) = String.utf8EncodeChar c ++ encode s := rfl

theorem encode_append (s t : List Char) : encode (s ++ t) = encode s ++ encode t := by
  simp [encode]

theorem length_encode_le (s : List Char) : (encode s).length ≤ 4 * s.length := by
  induction s with
  | nil => simp
  | cons c s ih =>
    have hc : (String.utf8EncodeChar c).length ≤ 4 := by
      rw [String.length_utf8EncodeChar]
      exact c.utf8Size_le_four
    rw [encode_cons, List.length_append, List.length_cons]
    omega

/-- U+FFFD. -/
def replacement : Char := Char.ofNat 0xFFFD

/-- A character begun: the bytes that follow the next one, the bounds of the next one, and the
value of those read. -/
structure Pending where
  more : Nat
  low : Nat
  high : Nat
  value : Nat
  deriving DecidableEq, Repr

/-- What a first byte completes, and what it begins. -/
def first (b : Nat) : List Char × Option Pending :=
  if b < 0x80 then ([Char.ofNat b], none)
  else if b < 0xC2 then ([replacement], none)
  else if b < 0xE0 then ([], some ⟨0, 0x80, 0xBF, b - 0xC0⟩)
  else if b < 0xF0 then
    ([], some ⟨1, if b = 0xE0 then 0xA0 else 0x80, if b = 0xED then 0x9F else 0xBF, b - 0xE0⟩)
  else if b < 0xF5 then
    ([], some ⟨2, if b = 0xF0 then 0x90 else 0x80, if b = 0xF4 then 0x8F else 0xBF, b - 0xF0⟩)
  else ([replacement], none)

def step (q : Option Pending) (b : Nat) : List Char × Option Pending :=
  match q with
  | none => first b
  | some p =>
    if p.low ≤ b ∧ b ≤ p.high then
      match p.more with
      | 0 => ([Char.ofNat (p.value * 64 + (b - 0x80))], none)
      | n + 1 => ([], some ⟨n, 0x80, 0xBF, p.value * 64 + (b - 0x80)⟩)
    else (replacement :: (first b).1, (first b).2)

def decodeFrom : Option Pending → List UInt8 → List Char
  | none, [] => []
  | some _, [] => [replacement]
  | q, b :: bs => (step q b.toNat).1 ++ decodeFrom (step q b.toNat).2 bs

/-- The text of a byte string, with U+FFFD for what is not UTF-8. -/
def decode (bs : List UInt8) : List Char := decodeFrom none bs

@[simp] theorem decode_nil : decode [] = [] := rfl

/-- The bytes that stand inside a character and never at the start of one. -/
def IsTail (b : UInt8) : Prop := 0x80 ≤ b.toNat ∧ b.toNat ≤ 0xBF

theorem toNat_ofNat {n : Nat} (h : n < 256) : (UInt8.ofNat n).toNat = n := by
  rw [UInt8.toNat_ofNat', Nat.mod_eq_of_lt h]

/-- Where the scalar value of a character lies. -/
theorem scalar_bounds (c : Char) :
    c.toNat < 0xD800 ∨ 0xDFFF < c.toNat ∧ c.toNat < 0x110000 := c.valid

theorem decode_tail {b : UInt8} (h : IsTail b) (bs : List UInt8) :
    decode (b :: bs) = replacement :: decode bs := by
  have hfirst : first b.toNat = ([replacement], none) := by
    rw [first, if_neg (by have := h.1; omega), if_pos (by have := h.2; omega)]
  rw [decode, decodeFrom, step, hfirst]
  rfl

theorem isTail_ofNat (n : Nat) : IsTail (UInt8.ofNat (n % 0x40 + 0x80)) := by
  rw [IsTail, toNat_ofNat (by omega)]
  omega

theorem step_last {p : Pending} {b : Nat} (hmore : p.more = 0) (hb : p.low ≤ b ∧ b ≤ p.high) :
    step (some p) b = ([Char.ofNat (p.value * 64 + (b - 0x80))], none) := by
  rw [step, if_pos hb, hmore]

theorem step_more {p : Pending} {b n : Nat} (hmore : p.more = n + 1)
    (hb : p.low ≤ b ∧ b ≤ p.high) :
    step (some p) b = ([], some ⟨n, 0x80, 0xBF, p.value * 64 + (b - 0x80)⟩) := by
  rw [step, if_pos hb, hmore]

/-- `Completes q bs c`: from inside a character, the bytes `bs` and no proper prefix of them
complete it, as `c`. -/
inductive Completes : Pending → List UInt8 → Char → Prop where
  | last {p : Pending} {b : UInt8} : p.more = 0 → p.low ≤ b.toNat ∧ b.toNat ≤ p.high →
      Completes p [b] (Char.ofNat (p.value * 64 + (b.toNat - 0x80)))
  | more {p : Pending} {b : UInt8} {bs : List UInt8} {c : Char} {n : Nat} :
      p.more = n + 1 → p.low ≤ b.toNat ∧ b.toNat ≤ p.high →
      Completes ⟨n, 0x80, 0xBF, p.value * 64 + (b.toNat - 0x80)⟩ bs c → Completes p (b :: bs) c

theorem Completes.decode {p : Pending} {bs : List UInt8} {c : Char} (h : Completes p bs c)
    (rest : List UInt8) : decodeFrom (some p) (bs ++ rest) = c :: decode rest := by
  induction h with
  | last hmore hb => rw [List.singleton_append, decodeFrom, step_last hmore hb]; rfl
  | more hmore hb _ ih => rw [List.cons_append, decodeFrom, step_more hmore hb]; exact ih

theorem Completes.decode_truncated {p : Pending} {bs : List UInt8} {c : Char}
    (h : Completes p bs c) :
    ∀ t u, bs = t ++ u → u ≠ [] → decodeFrom (some p) t = [replacement] := by
  induction h with
  | last hmore hb =>
    intro t u heq hu
    cases t with
    | nil => rfl
    | cons x t =>
      simp only [List.cons_append, List.cons.injEq] at heq
      exact absurd (List.append_eq_nil_iff.1 heq.2.symm).2 hu
  | more hmore hb _ ih =>
    intro t u heq hu
    cases t with
    | nil => rfl
    | cons x t =>
      simp only [List.cons_append, List.cons.injEq] at heq
      obtain ⟨rfl, heq⟩ := heq
      rw [decodeFrom, step_more hmore hb]
      exact ih t u heq hu

/-- The last byte of a character gives its low six bits. -/
theorem Completes.lastOfNat {low high value v : Nat} (hv : v / 64 = value)
    (hb : low ≤ v % 0x40 + 0x80 ∧ v % 0x40 + 0x80 ≤ high) :
    Completes ⟨0, low, high, value⟩ [UInt8.ofNat (v % 0x40 + 0x80)] (Char.ofNat v) := by
  have hbyte : (UInt8.ofNat (v % 0x40 + 0x80)).toNat = v % 0x40 + 0x80 := toNat_ofNat (by omega)
  have h := Completes.last (p := ⟨0, low, high, value⟩) rfl (by rw [hbyte]; exact hb)
  have hval : value * 64 + (v % 0x40 + 0x80 - 0x80) = v := by omega
  rwa [hbyte, hval] at h

/-- A byte before it gives the six bits above those still to come. -/
theorem Completes.moreOfNat {low high value v n : Nat} {bs : List UInt8} {c : Char}
    (hv : v / 64 = value) (hb : low ≤ v % 0x40 + 0x80 ∧ v % 0x40 + 0x80 ≤ high)
    (h : Completes ⟨n, 0x80, 0xBF, v⟩ bs c) :
    Completes ⟨n + 1, low, high, value⟩ (UInt8.ofNat (v % 0x40 + 0x80) :: bs) c := by
  have hbyte : (UInt8.ofNat (v % 0x40 + 0x80)).toNat = v % 0x40 + 0x80 := toNat_ofNat (by omega)
  refine Completes.more (n := n) rfl (by rw [hbyte]; exact hb) ?_
  rwa [hbyte, show value * 64 + (v % 0x40 + 0x80 - 0x80) = v by omega]

/-- A character is one ASCII byte, or a first byte and what completes it. -/
theorem encodeChar_cases (c : Char) :
    (∃ b, String.utf8EncodeChar c = [b] ∧ first b.toNat = ([c], none)) ∨
      ∃ b p bs, String.utf8EncodeChar c = b :: bs ∧ first b.toNat = ([], some p) ∧
        Completes p bs c ∧ (∀ x ∈ bs, IsTail x) ∧ bs.length ≤ 3 := by
  have hv := scalar_bounds c
  have hc : Char.ofNat c.toNat = c := Char.ofNat_toNat c
  have hval : c.val.toNat = c.toNat := rfl
  simp only [String.utf8EncodeChar, hval]
  generalize c.toNat = v at hv hc
  subst hc
  split
  · refine .inl ⟨_, rfl, ?_⟩
    rw [toNat_ofNat (by omega), first, if_pos (by omega)]
  split
  · refine .inr ⟨_, ⟨0, 0x80, 0xBF, v / 64⟩, _, rfl, ?_, .lastOfNat rfl (by omega), ?_, by simp⟩
    -- the first byte holds what is left of the number above six bits
    · rw [toNat_ofNat (by omega), first, if_neg (by omega), if_neg (by omega), if_pos (by omega)]
      simp only [Prod.mk.injEq, Option.some.injEq, Pending.mk.injEq, true_and]
      omega
    · simpa using isTail_ofNat v
  split
  · refine .inr ⟨_, ⟨1, if v / 4096 = 0 then 0xA0 else 0x80, if v / 4096 = 13 then 0x9F else 0xBF,
      v / 4096⟩, _, rfl, ?_, .moreOfNat (v := v / 64) (by omega) ?_ (.lastOfNat rfl (by omega)),
      ?_, by simp⟩
    · rw [toNat_ofNat (by omega), first, if_neg (by omega), if_neg (by omega), if_neg (by omega),
        if_pos (by omega)]
      simp only [Prod.mk.injEq, Option.some.injEq, Pending.mk.injEq, true_and]
      refine ⟨if_congr (by omega) rfl rfl, if_congr (by omega) rfl rfl, by omega⟩
    · constructor <;> split <;> omega
    · simp only [List.mem_cons, List.not_mem_nil, or_false]
      rintro x (rfl | rfl) <;> exact isTail_ofNat _
  · refine .inr ⟨_, ⟨2, if v / 262144 = 0 then 0x90 else 0x80,
      if v / 262144 = 4 then 0x8F else 0xBF, v / 262144⟩, _, rfl, ?_,
      .moreOfNat (v := v / 4096) (by omega) ?_ (.moreOfNat (v := v / 64) (by omega) (by omega)
        (.lastOfNat rfl (by omega))), ?_, by simp⟩
    · rw [toNat_ofNat (by omega), first, if_neg (by omega), if_neg (by omega), if_neg (by omega),
        if_neg (by omega), if_pos (by omega)]
      simp only [Prod.mk.injEq, Option.some.injEq, Pending.mk.injEq, true_and]
      refine ⟨if_congr (by omega) rfl rfl, if_congr (by omega) rfl rfl, by omega⟩
    · constructor <;> split <;> omega
    · simp only [List.mem_cons, List.not_mem_nil, or_false]
      rintro x (rfl | rfl | rfl) <;> exact isTail_ofNat _

theorem decode_encodeChar (c : Char) (rest : List UInt8) :
    decode (String.utf8EncodeChar c ++ rest) = c :: decode rest := by
  rcases encodeChar_cases c with ⟨b, hb, hfirst⟩ | ⟨b, p, bs, hb, hfirst, hcompl, -, -⟩
  · rw [hb, decode, List.singleton_append, decodeFrom, step, hfirst]
    rfl
  · rw [hb, decode, List.cons_append, decodeFrom, step, hfirst]
    exact hcompl.decode rest

/-- Whole characters decode to themselves. -/
theorem decode_encode_append (s : List Char) (rest : List UInt8) :
    decode (encode s ++ rest) = s ++ decode rest := by
  induction s with
  | nil => rfl
  | cons c s ih => rw [encode_cons, List.append_assoc, decode_encodeChar, ih, List.cons_append]

theorem decode_encode (s : List Char) : decode (encode s) = s := by
  have h := decode_encode_append s []
  simpa using h

theorem encode_injective : Function.Injective encode := Function.LeftInverse.injective decode_encode

/-- The end of a character cut in two. -/
def IsTails (t : List UInt8) : Prop := (∀ b ∈ t, IsTail b) ∧ t.length ≤ 3

theorem decode_tails {t : List UInt8} (h : ∀ b ∈ t, IsTail b) (bs : List UInt8) :
    decode (t ++ bs) = List.replicate t.length replacement ++ decode bs := by
  induction t with
  | nil => rfl
  | cons b t ih =>
    rw [List.cons_append, decode_tail (h b (by simp)), ih (fun x hx => h x (by simp [hx])),
      List.length_cons, List.replicate_succ, List.cons_append]

/-- A character cut in two: its first part decodes to U+FFFD, and its second part is bytes that
no character starts with. -/
theorem encodeChar_cut {c : Char} {t u : List UInt8} (h : String.utf8EncodeChar c = t ++ u)
    (ht : t ≠ []) (hu : u ≠ []) : decode t = [replacement] ∧ IsTails u := by
  rcases encodeChar_cases c with ⟨b, hb, -⟩ | ⟨b, p, bs, hb, hfirst, hcompl, htail, hlen⟩
  · have hlen := congrArg List.length (hb.symm.trans h)
    rw [List.length_append, List.length_singleton] at hlen
    have := List.length_pos_iff.2 ht
    have := List.length_pos_iff.2 hu
    omega
  · cases t with
    | nil => exact absurd rfl ht
    | cons x t =>
      rw [hb, List.cons_append, List.cons.injEq] at h
      obtain ⟨rfl, rfl⟩ := h
      refine ⟨?_, fun y hy => htail y (by simp [hy]), ?_⟩
      · rw [decode, decodeFrom, step, hfirst]
        exact hcompl.decode_truncated t u rfl hu
      · rw [List.length_append] at hlen
        omega

theorem length_encodeChar_pos (c : Char) : 0 < (String.utf8EncodeChar c).length :=
  List.length_pos_iff.2 String.utf8EncodeChar_ne_nil

/-- Where a cut falls in an encoded text: between two characters, or inside one. -/
theorem cut_encode (s : List Char) {n : Nat} (hn : n ≤ (encode s).length) :
    (∃ s₁ s₂, s = s₁ ++ s₂ ∧ (encode s₁).length = n) ∨
      ∃ s₁ c s₂ t u, s = s₁ ++ c :: s₂ ∧ String.utf8EncodeChar c = t ++ u ∧ t ≠ [] ∧ u ≠ [] ∧
        (encode s₁).length + t.length = n := by
  induction s generalizing n with
  | nil => exact .inl ⟨[], [], rfl, (Nat.le_zero.1 hn).symm⟩
  | cons c s ih =>
    rcases Nat.eq_zero_or_pos n with rfl | hpos
    · exact .inl ⟨[], c :: s, rfl, rfl⟩
    by_cases hc : n < (String.utf8EncodeChar c).length
    · refine .inr ⟨[], c, s, _, _, rfl, (List.take_append_drop n _).symm, ?_, ?_, ?_⟩
      · exact List.ne_nil_of_length_pos (by rw [List.length_take]; omega)
      · exact List.ne_nil_of_length_pos (by rw [List.length_drop]; omega)
      · simp only [encode_nil, List.length_nil, List.length_take]
        omega
    · rw [encode_cons, List.length_append] at hn
      rcases ih (n := n - (String.utf8EncodeChar c).length) (by omega) with
        ⟨s₁, s₂, rfl, hlen⟩ | ⟨s₁, d, s₂, t, u, rfl, hd, ht, hu, hlen⟩
      · exact .inl ⟨c :: s₁, s₂, rfl, by rw [encode_cons, List.length_append]; omega⟩
      · exact .inr ⟨c :: s₁, d, s₂, t, u, rfl, hd, ht, hu, by
          rw [encode_cons, List.length_append]; omega⟩

/-- The text of a byte string whose pieces of `n + 1` bytes are decoded one by one. -/
def decodeChunks (n : Nat) (bs : List UInt8) : List Char :=
  if bs = [] then [] else decode (bs.take (n + 1)) ++ decodeChunks n (bs.drop (n + 1))
termination_by bs.length
decreasing_by
  rename_i h
  have := List.length_pos_iff.2 h
  rw [List.length_drop]
  omega

section Chunks
variable {n : Nat} {t u v : List UInt8} {s s₁ s₂ : List Char} {c : Char}

@[simp] theorem decodeChunks_nil : decodeChunks n [] = [] := by
  rw [decodeChunks, if_pos rfl]

theorem decodeChunks_append (h : t.length = n + 1) (bs : List UInt8) :
    decodeChunks n (t ++ bs) = decode t ++ decodeChunks n bs := by
  have hne : t ++ bs ≠ [] := List.ne_nil_of_length_pos (by rw [List.length_append]; omega)
  rw [decodeChunks, if_neg hne, List.take_left' h, List.drop_left' h]

/-- The last piece, after the rest `t` of a character cut before it. -/
theorem decodeChunks_last (ht : IsTails t) (h : t.length + (encode s).length ≤ n + 1) :
    decodeChunks n (t ++ encode s) = List.replicate t.length replacement ++ s := by
  have hdecode : decode (t ++ encode s) = List.replicate t.length replacement ++ s := by
    rw [decode_tails ht.1, decode_encode]
  have hlen : (t ++ encode s).length ≤ n + 1 := by rwa [List.length_append]
  rw [decodeChunks]
  split
  · rename_i hnil
    rw [hnil] at hdecode
    exact hdecode
  · rw [List.take_of_length_le hlen, List.drop_of_length_le hlen, hdecode, decodeChunks_nil,
      List.append_nil]

/-- A piece that ends between two characters. -/
theorem decodeChunks_whole (ht : IsTails t) (h : t.length + (encode s₁).length = n + 1) :
    decodeChunks n (t ++ encode (s₁ ++ s₂)) =
      List.replicate t.length replacement ++ (s₁ ++ decodeChunks n (encode s₂)) := by
  rw [encode_append, ← List.append_assoc, decodeChunks_append (by rwa [List.length_append]),
    decode_tails ht.1, decode_encode, List.append_assoc]

/-- A piece that ends inside a character. -/
theorem decodeChunks_split (ht : IsTails t) (hc : String.utf8EncodeChar c = u ++ v) (hu : u ≠ [])
    (hv : v ≠ []) (h : t.length + (encode s₁).length + u.length = n + 1) :
    decodeChunks n (t ++ encode (s₁ ++ c :: s₂)) =
      List.replicate t.length replacement ++
        (s₁ ++ replacement :: decodeChunks n (v ++ encode s₂)) := by
  have hbytes : t ++ encode (s₁ ++ c :: s₂) = (t ++ (encode s₁ ++ u)) ++ (v ++ encode s₂) := by
    rw [encode_append, encode_cons, hc]
    simp
  rw [hbytes, decodeChunks_append (by simp only [List.length_append]; omega), decode_tails ht.1,
    decode_encode_append, (encodeChar_cut hc hu hv).1]
  simp

/-- Decoding in pieces makes no character up. -/
theorem countP_decodeChunks_le (p : Char → Bool) (hp : p replacement = false) :
    ∀ (N : Nat) {t : List UInt8} {s : List Char}, (t ++ encode s).length = N → IsTails t →
      3 ≤ n → (decodeChunks n (t ++ encode s)).countP p ≤ s.countP p := by
  intro N
  induction N using Nat.strong_induction_on with
  | _ N ih =>
    intro t s hN ht hn
    have htail : (List.replicate t.length replacement).countP p = 0 := by
      rw [List.countP_replicate, if_neg (by simp [hp])]
    have htlen := ht.2
    by_cases hlast : t.length + (encode s).length ≤ n + 1
    · rw [decodeChunks_last ht hlast, List.countP_append, htail, Nat.zero_add]
    rw [List.length_append] at hN
    -- a cut character is read as U+FFFD, which `p` does not count
    rcases cut_encode s (n := n + 1 - t.length) (by omega) with
      ⟨s₁, s₂, rfl, hlen⟩ | ⟨s₁, c, s₂, u, v, rfl, hc, hu, hv, hlen⟩
    · rw [decodeChunks_whole ht (by omega), List.countP_append, List.countP_append,
        List.countP_append, htail]
      rw [encode_append, List.length_append] at hN
      have := ih _ (by simp only [List.nil_append]; omega) (t := []) (s := s₂) rfl
        ⟨by simp, by simp⟩ hn
      rw [List.nil_append] at this
      omega
    · have hcut := encodeChar_cut hc hu hv
      rw [decodeChunks_split ht hc hu hv (by omega), List.countP_append, List.countP_append,
        List.countP_append, List.countP_cons, List.countP_cons, htail, hp]
      rw [encode_append, encode_cons, hc, List.length_append, List.length_append,
        List.length_append] at hN
      have := List.length_pos_iff.2 hu
      have := ih _ (by rw [List.length_append]; omega) (t := v) (s := s₂) rfl hcut.2 hn
      simp only [Bool.false_eq_true, if_false]
      omega

/-- A piece read after the rest of a character gives no fewer characters than were written. -/
theorem length_decodeChunks_le :
    ∀ (N : Nat) {t : List UInt8} {s : List Char}, (t ++ encode s).length = N → IsTails t →
      3 ≤ n → t.length + s.length ≤ (decodeChunks n (t ++ encode s)).length := by
  intro N
  induction N using Nat.strong_induction_on with
  | _ N ih =>
    intro t s hN ht hn
    have htlen := ht.2
    by_cases hlast : t.length + (encode s).length ≤ n + 1
    · rw [decodeChunks_last ht hlast, List.length_append, List.length_replicate]
    rw [List.length_append] at hN
    obtain ⟨s₁, s₂, rfl, hlen⟩ | ⟨s₁, c, s₂, u, v, rfl, hc, hu, hv, hlen⟩ :=
      cut_encode s (n := n + 1 - t.length) (by omega)
    · rw [encode_append, List.length_append] at hN
      have hrest := ih _ (by simp only [List.nil_append]; omega) (t := []) (s := s₂) rfl
        ⟨by simp, by simp⟩ hn
      rw [List.nil_append, List.length_nil] at hrest
      rw [decodeChunks_whole ht (by omega)]
      simp only [List.length_append, List.length_replicate]
      omega
    · -- the character cut counts once before the cut, and its rest is counted again
      have hcut := encodeChar_cut hc hu hv
      rw [encode_append, encode_cons, hc, List.length_append, List.length_append,
        List.length_append] at hN
      have hupos := List.length_pos_iff.2 hu
      have hrest := ih _ (by rw [List.length_append]; omega) (t := v) (s := s₂) rfl hcut.2 hn
      rw [decodeChunks_split ht hc hu hv (by omega)]
      simp only [List.length_append, List.length_replicate, List.length_cons]
      omega

/-- A character ends after the first `m` bytes. -/
def IsBoundary (m : Nat) (s : List Char) : Prop :=
  ∃ s₁ s₂, s = s₁ ++ s₂ ∧ (encode s₁).length = m

/-- Every piece of `m` bytes of an encoded text ends between two characters. -/
def OnBoundaries (m : Nat) (s : List Char) : Prop :=
  ∀ k, m * k ≤ (encode s).length → IsBoundary (m * k) s

theorem isBoundary_zero (s : List Char) : IsBoundary 0 s := ⟨[], s, rfl, rfl⟩

theorem isBoundary_length (s : List Char) : IsBoundary (encode s).length s :=
  ⟨s, [], (List.append_nil s).symm, rfl⟩

/-- Only the start of the text lies before the first character's end. -/
theorem isBoundary_cons {m : Nat} :
    IsBoundary m (c :: s) ↔ m = 0 ∨ ∃ m', m = (String.utf8EncodeChar c).length + m' ∧
      IsBoundary m' s := by
  constructor
  · intro h
    obtain ⟨s₁, s₂, heq, hlen⟩ := h
    cases s₁ with
    | nil => exact .inl hlen.symm
    | cons d s₁ =>
      rw [List.cons_append, List.cons.injEq] at heq
      obtain ⟨rfl, rfl⟩ := heq
      rw [encode_cons, List.length_append] at hlen
      exact .inr ⟨_, hlen.symm, s₁, s₂, rfl, rfl⟩
  · intro h
    obtain rfl | ⟨m', rfl, s₁, s₂, rfl, rfl⟩ := h
    · exact isBoundary_zero _
    · exact ⟨c :: s₁, s₂, rfl, by rw [encode_cons, List.length_append]⟩

theorem isBoundary_append {m : Nat} :
    IsBoundary ((encode s₁).length + m) (s₁ ++ s₂) ↔ IsBoundary m s₂ := by
  induction s₁ with
  | nil => rw [encode_nil, List.length_nil, Nat.zero_add, List.nil_append]
  | cons c s₁ ih =>
    have hpos := length_encodeChar_pos c
    rw [List.cons_append, isBoundary_cons, encode_cons, List.length_append]
    constructor
    · intro h
      obtain hzero | ⟨m', hm', h⟩ := h
      · omega
      · have hrest : m' = (encode s₁).length + m := by omega
        rw [hrest] at h
        exact ih.1 h
    · intro h
      exact .inr ⟨(encode s₁).length + m, by omega, ih.2 h⟩

theorem onBoundaries_append {m : Nat} (h : (encode s₁).length = m) :
    OnBoundaries m (s₁ ++ s₂) ↔ OnBoundaries m s₂ := by
  have hlen : (encode (s₁ ++ s₂)).length = m + (encode s₂).length := by
    rw [encode_append, List.length_append, h]
  have hsucc : ∀ k, IsBoundary (m * (k + 1)) (s₁ ++ s₂) ↔ IsBoundary (m * k) s₂ := by
    intro k
    have hmul : m * (k + 1) = (encode s₁).length + m * k := by rw [h, Nat.mul_succ, Nat.add_comm]
    rw [hmul, isBoundary_append]
  constructor
  · intro hs k hk
    apply (hsucc k).1
    apply hs
    rw [hlen, Nat.mul_succ]
    omega
  · intro hs k hk
    cases k with
    | zero => exact isBoundary_zero _
    | succ k =>
      apply (hsucc k).2
      apply hs
      rw [hlen, Nat.mul_succ] at hk
      omega

/-- A text read piece by piece is what was written exactly when every piece ends between two
characters. -/
theorem decodeChunks_encode_iff (hn : 3 ≤ n) :
    ∀ (N : Nat) {s : List Char}, (encode s).length = N →
      (decodeChunks n (encode s) = s ↔ OnBoundaries (n + 1) s) := by
  intro N
  induction N using Nat.strong_induction_on with
  | _ N ih =>
    intro s hN
    have hnil : IsTails [] := ⟨by simp, by simp⟩
    by_cases hlast : (encode s).length ≤ n + 1
    · have hread := decodeChunks_last hnil (s := s) (n := n) (by simpa using hlast)
      refine iff_of_true hread ?_
      intro k hk
      obtain rfl | rfl | hk2 : k = 0 ∨ k = 1 ∨ 2 ≤ k := by omega
      · exact isBoundary_zero s
      · have hfull : (n + 1) * 1 = (encode s).length := by omega
        rw [hfull]
        exact isBoundary_length s
      · have := Nat.mul_le_mul_left (n + 1) hk2
        omega
    obtain ⟨s₁, s₂, rfl, hlen⟩ | ⟨s₁, c, s₂, u, v, rfl, hc, hu, hv, hlen⟩ :=
      cut_encode s (n := n + 1) (by omega)
    · have hread : decodeChunks n (encode (s₁ ++ s₂)) = s₁ ++ decodeChunks n (encode s₂) :=
        decodeChunks_whole hnil (by simpa using hlen)
      have hshort : (encode s₂).length < N := by
        rw [encode_append, List.length_append] at hN
        omega
      rw [hread, List.append_cancel_left_eq, ih _ hshort rfl, onBoundaries_append hlen]
    · have hread : decodeChunks n (encode (s₁ ++ c :: s₂)) =
          s₁ ++ replacement :: decodeChunks n (v ++ encode s₂) :=
        decodeChunks_split hnil hc hu hv (by simpa using hlen)
      have hupos := List.length_pos_iff.2 hu
      have hvpos := List.length_pos_iff.2 hv
      apply iff_of_false
      · -- the text read is longer than the one written
        intro heq
        have hcount :=
          length_decodeChunks_le _ (t := v) (s := s₂) rfl (encodeChar_cut hc hu hv).2 hn
        have hlength := congrArg List.length (hread.symm.trans heq)
        simp only [List.length_append, List.length_cons] at hlength
        omega
      · intro hbounds
        have hcut : IsBoundary ((encode s₁).length + u.length) (s₁ ++ c :: s₂) := by
          have hone : (n + 1) * 1 ≤ (encode (s₁ ++ c :: s₂)).length := by omega
          rw [hlen, ← Nat.mul_one (n + 1)]
          exact hbounds 1 hone
        obtain hzero | ⟨m', hm', -⟩ := isBoundary_cons.1 (isBoundary_append.1 hcut)
        · omega
        · rw [hc, List.length_append] at hm'
          omega

end Chunks

/-! ## Texts in UTF-16 -/

section Utf16

/-- The UTF-16 units of a character. -/
def units (c : Char) : Nat := if c.toNat < 0x10000 then 1 else 2

/-- The length of a text in UTF-16 units. -/
def utf16Length (s : List Char) : Nat := (s.map units).sum

def Ascii (s : List Char) : Prop := ∀ c ∈ s, c.toNat < 0x80

theorem utf16Length_cons (c : Char) (s : List Char) :
    utf16Length (c :: s) = units c + utf16Length s := by
  rw [utf16Length, List.map_cons, List.sum_cons]
  rfl

theorem utf16Length_append (s t : List Char) :
    utf16Length (s ++ t) = utf16Length s + utf16Length t := by
  rw [utf16Length, List.map_append, List.sum_append]
  rfl

theorem units_pos (c : Char) : 0 < units c := by
  unfold units
  split <;> omega

theorem eq_nil_of_utf16Length {s : List Char} (h : utf16Length s = 0) : s = [] := by
  cases s with
  | nil => rfl
  | cons c s =>
    rw [utf16Length_cons] at h
    have := units_pos c
    omega

/-- A character has at least as many bytes as units. -/
theorem units_le (c : Char) : units c ≤ (String.utf8EncodeChar c).length := by
  have hval : c.val.toNat = c.toNat := rfl
  unfold units
  simp only [String.utf8EncodeChar, hval]
  split_ifs
  all_goals simp
  omega

/-- The numbers are equal exactly for the characters of ASCII. -/
theorem units_eq_iff (c : Char) :
    units c = (String.utf8EncodeChar c).length ↔ c.toNat < 0x80 := by
  have hval : c.val.toNat = c.toNat := rfl
  unfold units
  simp only [String.utf8EncodeChar, hval]
  split_ifs <;> (simp; omega)

theorem utf16Length_le (s : List Char) : utf16Length s ≤ (encode s).length := by
  induction s with
  | nil => exact Nat.le_refl 0
  | cons c s ih =>
    have := units_le c
    rw [utf16Length_cons, encode_cons, List.length_append]
    omega

/-- A text has as many bytes as units exactly when it is ASCII. -/
theorem utf16Length_eq_iff (s : List Char) : utf16Length s = (encode s).length ↔ Ascii s := by
  induction s with
  | nil => exact iff_of_true rfl (by simp [Ascii])
  | cons c s ih =>
    have hc := units_le c
    have hs := utf16Length_le s
    have hsplit : units c + utf16Length s = (String.utf8EncodeChar c).length + (encode s).length ↔
        units c = (String.utf8EncodeChar c).length ∧ utf16Length s = (encode s).length := by
      omega
    rw [utf16Length_cons, encode_cons, List.length_append, hsplit, units_eq_iff, ih]
    simp [Ascii]

/-- Texts of one length are equal when the bytes of one begin the other's. -/
theorem eq_of_encode_append {s t : List Char} {x y : List UInt8}
    (hlen : utf16Length s = utf16Length t) (h : encode s ++ x = encode t ++ y) :
    s = t ∧ x = y := by
  -- one of them is longer in bytes, and then begins with the other in characters
  have hbytes : ∀ {s t : List Char} {z : List UInt8}, utf16Length s = utf16Length t →
      encode t = encode s ++ z → s = t := by
    intro s t z hlen heq
    have hdecode : t = s ++ decode z := by
      rw [← decode_encode t, heq, decode_encode_append]
    have hrest : utf16Length (decode z) = 0 := by
      rw [hdecode, utf16Length_append] at hlen
      omega
    rw [hdecode, eq_nil_of_utf16Length hrest, List.append_nil]
  have hst : s = t := by
    obtain ⟨z, hz⟩ | ⟨z, hz⟩ := List.append_eq_append_iff.1 h
    · exact hbytes hlen hz.1
    · exact (hbytes hlen.symm hz.1).symm
  subst hst
  exact ⟨rfl, List.append_cancel_left h⟩

end Utf16

end Utf8
