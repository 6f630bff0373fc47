import TopWallets.Lib.Cell

/- The TL-B grammar of binary prefix dictionaries (`Hashmap n X`) over cells.

   An edge carries a label, written in one of three forms, and ends in a leaf
   value once the label has used up every remaining key bit, or else in a fork
   whose two references hold the subtrees of the keys going on with 0 and with 1:

     hm_edge    label:(HmLabel ~l n) {n = (~m) + l} node:(HashmapNode m X) = Hashmap n X
     hml_short  $0  len:(Unary ~n) s:(n * Bit)
     hml_long   $10 n:(#<= m) s:(n * Bit)
     hml_same   $11 v:Bit n:(#<= m)

   The grammar is a relation. Its two uses here are that a label form can be
   read in only one way in front of any continuation (`HmLabel.unique`), and so
   that a cell decodes to at most one tree (`Hashmap.unique`). -/

/-- The number of bits of a field `#<= m`. -/
def lenBits (m : Nat) : Nat := Nat.clog 2 (m + 1)

theorem lt_two_pow_lenBits {m n : Nat} (h : n ≤ m) : n < 2 ^ lenBits m :=
  lt_of_lt_of_le (Nat.lt_succ_of_le h) (Nat.le_pow_clog (by decide) _)

/-- `HmLabel m s code`: `code` writes the label `s` where at most `m` key bits remain. -/
inductive HmLabel (m : Nat) : List Bool → List Bool → Prop where
  | short {s : List Bool} : s.length ≤ m →
      HmLabel m s (false :: (List.replicate s.length true ++ false :: s))
  | long {s : List Bool} : s.length ≤ m →
      HmLabel m s (true :: false :: (BitField.ofNat (lenBits m) s.length ++ s))
  | same {v : Bool} {n : Nat} : n ≤ m →
      HmLabel m (List.replicate n v) (true :: true :: v :: BitField.ofNat (lenBits m) n)

/-- A decoded edge: its label, and a leaf value or the two subtrees of a fork. -/
inductive HmEdge (α : Type) where
  | leaf (label : List Bool) (value : α)
  | fork (label : List Bool) (left right : HmEdge α)

/-- `Hashmap X n c t`: the slice `c` is an edge of type `Hashmap n X` that spells the tree `t`. -/
inductive Hashmap {α : Type} (X : Slice → α → Prop) : Nat → Slice → HmEdge α → Prop where
  | leaf {n : Nat} {s code rest : List Bool} {refs : List Cell} {v : α} :
      HmLabel n s code → s.length = n → X ⟨rest, refs⟩ v →
      Hashmap X n ⟨code ++ rest, refs⟩ (.leaf s v)
  | fork {n m : Nat} {s code : List Bool} {left right : Cell} {l r : HmEdge α} :
      HmLabel n s code → n = s.length + (m + 1) →
      Hashmap X m left.toSlice l → Hashmap X m right.toSlice r →
      Hashmap X n ⟨code, [left, right]⟩ (.fork s l r)

namespace HmEdge
variable {α : Type}

def label : HmEdge α → List Bool
  | leaf s _ => s
  | fork s _ _ => s

/-- The keys of the tree with their values, in key order. -/
def entries : HmEdge α → List (List Bool × α)
  | leaf s v => [(s, v)]
  | fork s l r =>
    l.entries.map (fun e => (s ++ false :: e.1, e.2)) ++
      r.entries.map (fun e => (s ++ true :: e.1, e.2))

/-- Every fork of the tree has a key on its left and a key on its right. -/
def ForksInhabited : HmEdge α → Prop
  | leaf _ _ => True
  | fork _ l r => l.entries ≠ [] ∧ r.entries ≠ [] ∧ l.ForksInhabited ∧ r.ForksInhabited

/-- The tree has all its keys of length `n`. -/
def HasKeyLength : Nat → HmEdge α → Prop
  | n, leaf s _ => s.length = n
  | n, fork s l r => ∃ m, n = s.length + (m + 1) ∧ l.HasKeyLength m ∧ r.HasKeyLength m

/-- The tree with every value replaced. -/
def map {β : Type} (f : α → β) : HmEdge α → HmEdge β
  | leaf s v => leaf s (f v)
  | fork s l r => fork s (l.map f) (r.map f)

theorem entries_map {β : Type} (f : α → β) (t : HmEdge α) :
    (t.map f).entries = t.entries.map (fun e => (e.1, f e.2)) := by
  induction t with
  | leaf s v => rfl
  | fork s l r ihl ihr =>
    rw [map, entries, entries, ihl, ihr]
    simp only [List.map_append, List.map_map, Function.comp_def]

theorem entries_ne_nil (t : HmEdge α) : t.entries ≠ [] := by
  induction t with
  | leaf s v => simp [entries]
  | fork s l r ihl ihr => simp [entries, ihl]

theorem forksInhabited (t : HmEdge α) : t.ForksInhabited := by
  induction t with
  | leaf s v => trivial
  | fork s l r ihl ihr => exact ⟨l.entries_ne_nil, r.entries_ne_nil, ihl, ihr⟩

/-- No key occurs twice in a tree. -/
theorem nodup_keys (t : HmEdge α) : (t.entries.map Prod.fst).Nodup := by
  induction t with
  | leaf s v => simp [entries]
  | fork s l r ihl ihr =>
    have hside : ∀ (b : Bool) (es : List (List Bool × α)), (es.map Prod.fst).Nodup →
        ((es.map (fun e => (s ++ b :: e.1, e.2))).map Prod.fst).Nodup := by
      intro b es hes
      rw [List.map_map, show Prod.fst ∘ (fun e : List Bool × α => (s ++ b :: e.1, e.2))
        = (fun k => s ++ b :: k) ∘ Prod.fst from rfl, ← List.map_map]
      refine hes.map (fun x y hxy => ?_)
      simpa using hxy
    rw [entries, List.map_append]
    refine List.Nodup.append (hside false _ ihl) (hside true _ ihr) ?_
    intro k hl hr
    simp only [List.map_map, List.mem_map, Function.comp] at hl hr
    obtain ⟨x, -, rfl⟩ := hl
    obtain ⟨y, -, hy⟩ := hr
    simp at hy

end HmEdge

namespace HmLabel
variable {m : Nat} {s s' code code' rest rest' : List Bool}

theorem length_le (h : HmLabel m s code) : s.length ≤ m := by
  cases h with
  | short h => exact h
  | long h => exact h
  | same h => simpa using h

/-- The unary length in front of a short label ends at its first zero. -/
theorem unary_unique {a b : Nat} {xs ys : List Bool}
    (h : List.replicate a true ++ false :: xs = List.replicate b true ++ false :: ys) :
    a = b ∧ xs = ys := by
  induction a generalizing b with
  | zero =>
    cases b with
    | zero => simpa using h
    | succ b => simp [List.replicate_succ] at h
  | succ a ih =>
    cases b with
    | zero => simp [List.replicate_succ] at h
    | succ b =>
      simp only [List.replicate_succ, List.cons_append, List.cons.injEq, true_and] at h
      obtain ⟨hab, hxy⟩ := ih h
      exact ⟨by omega, hxy⟩

/-- Two label codes in front of the same bits are the same label. -/
theorem unique (h : HmLabel m s code) (h' : HmLabel m s' code')
    (heq : code ++ rest = code' ++ rest') : s = s' ∧ rest = rest' := by
  cases h with
  | short hs =>
    cases h' with
    | short hs' =>
      simp only [List.cons_append, List.append_assoc, List.cons.injEq, true_and] at heq
      obtain ⟨hlen, heq⟩ := unary_unique heq
      exact List.append_inj heq hlen
    | long _ => simp at heq
    | same _ => simp at heq
  | long hs =>
    cases h' with
    | short _ => simp at heq
    | long hs' =>
      simp only [List.cons_append, List.append_assoc, List.cons.injEq, true_and] at heq
      obtain ⟨hnum, heq⟩ := List.append_inj heq (by simp)
      have hlen := BitField.ofNat_inj (lt_two_pow_lenBits hs) (lt_two_pow_lenBits hs') hnum
      exact List.append_inj heq hlen
    | same _ => simp at heq
  | same hn =>
    cases h' with
    | short _ => simp at heq
    | long _ => simp at heq
    | same hn' =>
      simp only [List.cons_append, List.cons.injEq, true_and] at heq
      obtain ⟨rfl, heq⟩ := heq
      obtain ⟨hnum, heq⟩ := List.append_inj heq (by simp)
      have hlen := BitField.ofNat_inj (lt_two_pow_lenBits hn) (lt_two_pow_lenBits hn') hnum
      exact ⟨by rw [hlen], heq⟩

end HmLabel

namespace Hashmap
variable {α : Type} {X : Slice → α → Prop}

theorem map {β : Type} {Y : Slice → β → Prop} {f : α → β} (hf : ∀ s v, X s v → Y s (f v)) {n : Nat}
    {c : Slice} {t : HmEdge α} (h : Hashmap X n c t) : Hashmap Y n c (t.map f) := by
  induction h with
  | leaf hlabel hlen hv => exact .leaf hlabel hlen (hf _ _ hv)
  | fork hlabel hn _ _ ihl ihr => exact .fork hlabel hn ihl ihr

/-- A slice decodes to at most one tree, if its leaf values do. -/
theorem unique (hX : ∀ s v v', X s v → X s v' → v = v') {n : Nat} {c : Slice} {t t' : HmEdge α}
    (h : Hashmap X n c t) (h' : Hashmap X n c t') : t = t' := by
  induction h generalizing t' with
  | @leaf n s code rest refs v hlabel hlen hv =>
    generalize hc : (⟨code ++ rest, refs⟩ : Slice) = c at h'
    cases h' with
    | leaf hlabel' hlen' hv' =>
      simp only [Slice.mk.injEq] at hc
      obtain ⟨hbits, rfl⟩ := hc
      obtain ⟨rfl, rfl⟩ := HmLabel.unique hlabel hlabel' hbits
      rw [hX _ _ _ hv hv']
    | @fork _ m s' code' _ _ _ _ hlabel' hn' _ _ =>
      simp only [Slice.mk.injEq] at hc
      have hbits : code ++ rest = code' ++ [] := by rw [hc.1, List.append_nil]
      obtain ⟨rfl, -⟩ := HmLabel.unique hlabel hlabel' hbits
      omega
  | @fork n m s code left right l r hlabel hn hl hr ihl ihr =>
    generalize hc : (⟨code, [left, right]⟩ : Slice) = c at h'
    cases h' with
    | @leaf _ s' code' rest' _ _ hlabel' hlen' _ =>
      simp only [Slice.mk.injEq] at hc
      have hbits : code ++ [] = code' ++ rest' := by rw [hc.1.symm, List.append_nil]
      obtain ⟨rfl, -⟩ := HmLabel.unique hlabel hlabel' hbits
      omega
    | @fork _ m' s' code' _ _ _ _ hlabel' hn' hl' hr' =>
      simp only [Slice.mk.injEq, List.cons.injEq, and_true] at hc
      obtain ⟨rfl, rfl, rfl⟩ := hc
      obtain ⟨rfl, -⟩ := HmLabel.unique hlabel hlabel' (rfl : code ++ [] = code ++ [])
      obtain rfl : m = m' := by omega
      rw [ihl hl', ihr hr']

end Hashmap
