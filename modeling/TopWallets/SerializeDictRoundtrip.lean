import TopWallets.SerializeDict
import TopWallets.Lib.HashmapTree

/- What `SerializeDict` writes decodes to the map it was given.

   The proof follows the two passes of the code. The first one builds a tree
   whose entries are the entries of the map (`buildEdge_entries`): the common
   prefix of the keys, found from the first and the last key in order, is a prefix
   of every key between them, and where two keys are left they part right after
   it. The second one writes the tree as its cell (`write_cell`), with every label
   in the shortest of its forms (`writeLabel_spec`), and that cell decodes to the
   tree. -/
namespace Ton.SerializeDict

open Vm (CellBuilder)
open scoped List
open CellBuilder (store storeBool)

variable {α : Type}

/-- The bits a binary text spells. -/
def bitsOf (k : List Char) : List Bool := k.map (fun c => c == '1')

@[simp] theorem length_bitsOf (k : List Char) : (bitsOf k).length = k.length := List.length_map _

mutual
/-- The tree of the grammar that an edge stands for. -/
def Edge.toHm : Edge α → HmEdge α
  | .mk label node => node.toHm label

def Node.toHm : Node α → List Char → HmEdge α
  | .leaf value, label => .leaf (bitsOf label) value
  | .fork left right, label => .fork (bitsOf label) left.toHm right.toHm
end

def IsBinary (k : List Char) : Prop := ∀ c ∈ k, c = '0' ∨ c = '1'

mutual
/-- All labels of an edge are binary texts. -/
def Edge.Binary : Edge α → Prop
  | .mk label node => IsBinary label ∧ node.Binary

def Node.Binary : Node α → Prop
  | .leaf _ => True
  | .fork left right => left.Binary ∧ right.Binary
end

/-- A map all of whose keys are binary texts of length `m`, no two of them equal. -/
structure KeyMap (m : Nat) (src : Dict α) : Prop where
  binary : ∀ e ∈ src, ∀ c ∈ e.1, c = '0' ∨ c = '1'
  length : ∀ e ∈ src, e.1.length = m
  nodup : src.keys.Nodup

/-! ## The common prefix -/

theorem cons_le_cons_iff {x y : Char} {a b : List Char} :
    x :: a ≤ y :: b ↔ x < y ∨ x = y ∧ a ≤ b := by
  rw [le_iff_lt_or_eq, le_iff_lt_or_eq, List.cons_lt_cons_iff, List.cons.injEq]
  tauto

/-- What lies between two texts starts with what they have in common. -/
theorem take_commonSize_prefix {a b k : List Char} (hak : a ≤ k) (hkb : k ≤ b)
    (hlen : a.length ≤ k.length) : a.take (commonSize a b) <+: k := by
  induction a generalizing b k with
  | nil => simp
  | cons x a ih =>
    cases b with
    | nil => simp [commonSize]
    | cons y b =>
      rw [commonSize]
      split
      · rename_i hxy
        subst hxy
        cases k with
        | nil => simp at hlen
        | cons z k =>
          rcases cons_le_cons_iff.1 hak with hlt | ⟨rfl, hak'⟩
          · rcases cons_le_cons_iff.1 hkb with hgt | ⟨rfl, -⟩
            · exact absurd (hlt.trans hgt) (lt_irrefl _)
            · exact absurd hlt (lt_irrefl _)
          · rcases cons_le_cons_iff.1 hkb with hgt | ⟨-, hkb'⟩
            · exact absurd hgt (lt_irrefl _)
            · rw [List.take_succ_cons, List.cons_prefix_cons]
              exact ⟨rfl, ih hak' hkb' (by simpa using hlen)⟩
      · simp

/-- Two texts in order part after what they have in common, the first one going on lower. -/
theorem commonSize_parts {a b : List Char} (hab : a < b) (hlen : a.length = b.length) :
    ∃ p x y a' b', a = p ++ x :: a' ∧ b = p ++ y :: b' ∧ x < y ∧ p.length = commonSize a b := by
  induction a generalizing b with
  | nil =>
    obtain rfl := List.eq_nil_of_length_eq_zero hlen.symm
    exact absurd hab (lt_irrefl _)
  | cons x a ih =>
    cases b with
    | nil => simp at hlen
    | cons y b =>
      rcases List.cons_lt_cons_iff.1 hab with hlt | ⟨rfl, hlt⟩
      · exact ⟨[], x, y, a, b, rfl, rfl, hlt, by rw [commonSize, if_neg (ne_of_lt hlt)]; rfl⟩
      · obtain ⟨p, u, v, a', b', rfl, rfl, huv, hp⟩ := ih hlt (by simpa using hlen)
        exact ⟨x :: p, u, v, a', b', rfl, rfl, huv, by
          rw [commonSize, if_pos rfl, List.length_cons, hp]⟩

/-- The first and the last of two or more different texts in order. -/
theorem sorted_ends (src : List (List Char)) (hlen : 2 ≤ src.length) (hnd : src.Nodup) :
    ∃ a ∈ src, ∃ b ∈ src, a < b ∧ (∀ k ∈ src, a ≤ k ∧ k ≤ b) ∧
      findCommonPrefix src = a.take (commonSize a b) := by
  have hperm := List.mergeSort_perm src (fun a b => decide (a ≤ b))
  have hsorted : (src.mergeSort (fun a b => decide (a ≤ b))).Pairwise (· ≤ ·) := by
    refine (List.pairwise_mergeSort ?_ ?_ src).imp (by simp)
    · intro a b c hab hbc
      simp only [decide_eq_true_eq] at hab hbc ⊢
      exact hab.trans hbc
    · intro a b
      simpa using le_total a b
  have hfind : findCommonPrefix src =
      ((src.mergeSort (fun a b => decide (a ≤ b))).headD []).take
        (commonSize ((src.mergeSort (fun a b => decide (a ≤ b))).headD [])
          ((src.mergeSort (fun a b => decide (a ≤ b))).getLastD [])) := by
    match src, hlen with
    | _ :: _ :: _, _ => rfl
  rw [hfind]
  -- only the first and the last of the sorted keys are compared
  generalize src.mergeSort (fun a b => decide (a ≤ b)) = sorted at hperm hsorted ⊢
  have hlen' := hperm.length_eq
  have hnd' := hperm.nodup_iff.2 hnd
  match sorted with
  | [] => simp at hlen'; omega
  | [_] => simp at hlen'; omega
  | a :: c :: rest =>
    obtain ⟨init, b, hb⟩ : ∃ init b, c :: rest = init ++ [b] :=
      ⟨_, _, (List.dropLast_append_getLast (List.cons_ne_nil c rest)).symm⟩
    rw [hb] at hperm hsorted hnd' ⊢
    rw [List.pairwise_cons] at hsorted
    have hle : ∀ k ∈ init ++ [b], k ≤ b := by
      intro k hk
      rcases List.mem_append.1 hk with hk | hk
      · exact (List.pairwise_append.1 hsorted.2).2.2 k hk b (by simp)
      · rw [List.mem_singleton.1 hk]
    have hab : a ≤ b := hsorted.1 b (by simp)
    have hne : a ≠ b := by
      rintro rfl
      simp at hnd'
    refine ⟨a, hperm.mem_iff.1 (by simp), b, hperm.mem_iff.1 (by simp), lt_of_le_of_ne hab hne,
      fun k hk => ?_, by simp [List.getLastD]⟩
    rcases List.mem_cons.1 (hperm.mem_iff.2 hk) with rfl | hk
    · exact ⟨le_rfl, hab⟩
    · exact ⟨hsorted.1 k hk, hle k hk⟩

/-- The common prefix of the keys of a map: it is one, and where there are two keys it is the
longest. -/
theorem findCommonPrefix_spec {m : Nat} {src : Dict α} (hk : KeyMap m src) (hne : src ≠ []) :
    (∀ e ∈ src, findCommonPrefix src.keys <+: e.1) ∧
      ((∃ e, src = [e] ∧ findCommonPrefix src.keys = e.1) ∨
        (∃ e ∈ src, findCommonPrefix src.keys ++ ['0'] <+: e.1) ∧
          ∃ e ∈ src, findCommonPrefix src.keys ++ ['1'] <+: e.1) := by
  match src, hne with
  | [e], _ => exact ⟨by simp [Dict.keys, findCommonPrefix], .inl ⟨e, rfl, rfl⟩⟩
  | e₁ :: e₂ :: es, _ =>
    obtain ⟨a, ha, b, hb, hlt, hbetween, hfind⟩ :=
      sorted_ends (Dict.keys (e₁ :: e₂ :: es)) (by simp [Dict.keys]) hk.nodup
    rw [hfind]
    obtain ⟨ea, hea, rfl⟩ := List.mem_map.1 ha
    obtain ⟨eb, heb, rfl⟩ := List.mem_map.1 hb
    refine ⟨fun e he => ?_, .inr ?_⟩
    · obtain ⟨hl, hr⟩ := hbetween e.1 (List.mem_map_of_mem he)
      exact take_commonSize_prefix hl hr (by rw [hk.length _ hea, hk.length _ he])
    · -- where the least and the greatest key part, they go on with 0 and 1
      obtain ⟨p, x, y, a', b', hpa, hpb, hxy, hp⟩ :=
        commonSize_parts hlt (by rw [hk.length _ hea, hk.length _ heb])
      have hx : x = '0' := by
        have hbinx := hk.binary _ hea x (by simp [hpa])
        have hbiny := hk.binary _ heb y (by simp [hpb])
        rcases hbinx with rfl | rfl
        · rfl
        · rcases hbiny with rfl | rfl <;> exact absurd hxy (by decide)
      have hy : y = '1' := by
        rcases hk.binary _ heb y (by simp [hpb]) with rfl | rfl
        · exact absurd hxy (by rw [hx]; decide)
        · rfl
      have htake : ea.1.take (commonSize ea.1 eb.1) = p := by
        rw [← hp, hpa, List.take_left]
      rw [htake]
      exact ⟨⟨ea, hea, a', by rw [hpa, hx]; simp⟩, ⟨eb, heb, b', by rw [hpb, hy]; simp⟩⟩

/-! ## The tree of a map -/

/-- Keys with a common start of `n` characters are told apart by what follows it. -/
theorem nodup_drop {m n : Nat} {src : Dict α} (hk : KeyMap m src) {p : List Char}
    (hp : ∀ e ∈ src, p <+: e.1) (hn : n = p.length) :
    (src.map (fun e => e.1.drop n)).Nodup := by
  have hdrop : (src.map (fun e => e.1.drop n)).map (p ++ ·) = src.keys := by
    rw [List.map_map, Dict.keys]
    refine List.map_congr_left (fun e he => ?_)
    obtain ⟨rest, hrest⟩ := hp e he
    simp [← hrest, hn]
  exact List.Nodup.of_map _ (hdrop ▸ hk.nodup)

theorem removePrefixMap_eq {m : Nat} {src : Dict α} (hk : KeyMap m src) {p : List Char}
    (hp : ∀ e ∈ src, p <+: e.1) :
    removePrefixMap src p.length = .ok (src.map (fun e => (e.1.drop p.length, e.2))) := by
  rw [removePrefixMap]
  split
  · rename_i h0
    simp [h0]
  · have hstep : ∀ (res : Dict α), ∀ e ∈ src,
        (do res.add (← Dict.substring e.1 p.length) e.2) = res.add (e.1.drop p.length) e.2 := by
      intro res e he
      rw [Dict.substring, if_pos (hp e he).length_le]
      rfl
    exact Dict.foldlM_add hstep [] (nodup_drop hk hp rfl) (by simp [Dict.keys])

theorem KeyMap.drop {m : Nat} {src : Dict α} (hk : KeyMap m src) {p : List Char}
    (hp : ∀ e ∈ src, p <+: e.1) :
    KeyMap (m - p.length) (src.map (fun e => (e.1.drop p.length, e.2))) where
  binary := by
    intro e he c hc
    obtain ⟨e', he', rfl⟩ := List.mem_map.1 he
    exact hk.binary e' he' c (List.mem_of_mem_drop hc)
  length := by
    intro e he
    obtain ⟨e', he', rfl⟩ := List.mem_map.1 he
    rw [List.length_drop, hk.length e' he']
  nodup := by
    rw [Dict.keys, List.map_map]
    exact nodup_drop hk hp rfl

/-- The entries whose keys go on with one digit, the digit taken off. -/
def side (d : Char) (src : Dict α) : Dict α :=
  (src.filter (fun e => e.1.head? == some d)).map (fun e => (e.1.drop 1, e.2))

theorem mem_side {d : Char} {src : Dict α} {e : List Char × α} :
    e ∈ side d src ↔ (d :: e.1, e.2) ∈ src := by
  rw [side, List.mem_map]
  constructor
  · rintro ⟨e', he', rfl⟩
    obtain ⟨hmem, hhead⟩ := List.mem_filter.1 he'
    obtain ⟨k, v⟩ := e'
    cases k with
    | nil => simp at hhead
    | cons c k =>
      obtain rfl : c = d := by simpa using hhead
      exact hmem
  · intro h
    exact ⟨_, List.mem_filter.2 ⟨h, by simp⟩, rfl⟩

theorem KeyMap.side {m : Nat} {src : Dict α} (hk : KeyMap (m + 1) src) (d : Char) :
    KeyMap m (side d src) where
  binary := fun e he c hc => hk.binary _ (mem_side.1 he) c (by simp [hc])
  length := fun e he => by simpa using hk.length _ (mem_side.1 he)
  nodup := by
    have hsub : ((SerializeDict.side d src).keys.map (d :: ·)).Sublist src.keys := by
      have hmap : (SerializeDict.side d src).keys.map (d :: ·) =
          (src.filter (fun e => e.1.head? == some d)).map Prod.fst := by
        rw [Dict.keys, SerializeDict.side, List.map_map, List.map_map]
        refine List.map_congr_left (fun e he => ?_)
        have hhead := (List.mem_filter.1 he).2
        obtain ⟨k, v⟩ := e
        cases k with
        | nil => simp at hhead
        | cons c k =>
          obtain rfl : c = d := by simpa using hhead
          rfl
      rw [hmap, Dict.keys]
      exact List.filter_sublist.map _
    exact List.Nodup.of_map _ (hsub.nodup hk.nodup)

theorem KeyMap.of_sublist {m : Nat} {src src' : Dict α} (hk : KeyMap m src)
    (h : src'.Sublist src) : KeyMap m src' :=
  ⟨fun e he => hk.binary e (h.mem he), fun e he => hk.length e (h.mem he),
    (h.map _).nodup hk.nodup⟩

theorem foldlM_forkStep {m : Nat} {src : Dict α} (hk : KeyMap (m + 1) src) :
    src.foldlM forkStep ([], []) = .ok (side '0' src, side '1' src) := by
  induction src using List.reverseRecOn with
  | nil => rfl
  | append_singleton src e ih =>
    have hsub : src.Sublist (src ++ [e]) := List.sublist_append_left src [e]
    rw [List.foldlM_append, ih (hk.of_sublist hsub)]
    obtain ⟨k, v⟩ := e
    have hlen := hk.length (k, v) (by simp)
    cases k with
    | nil => simp at hlen
    | cons c k =>
      -- the rest of the key is new to its side, so `Add` takes it
      have hfresh : k ∉ (side c src).keys := by
        intro hmem
        obtain ⟨e', he', rfl⟩ := List.mem_map.1 hmem
        have hnd := hk.nodup
        rw [Dict.keys, List.map_append, List.nodup_append] at hnd
        exact hnd.2.2 _ (List.mem_map_of_mem (mem_side.1 he')) _ (by simp) rfl
      have hsides : ∀ d, side d (src ++ [(c :: k, v)]) =
          side d src ++ if c = d then [(k, v)] else [] := by
        intro d
        by_cases hd : c = d <;> simp [side, List.filter_append, hd]
      rcases hk.binary (c :: k, v) (by simp) c (by simp) with rfl | rfl
      all_goals
        simp only [List.foldlM_cons, List.foldlM_nil, hsides]
        simp [forkStep, Dict.substring, Dict.add_eq hfresh, bind, Except.bind, pure, Except.pure]

/-- A map of keys of at least one digit is its two sides. -/
theorem perm_sides {m : Nat} {src : Dict α} (hk : KeyMap (m + 1) src) :
    src.Perm ((side '0' src).map (fun e => ('0' :: e.1, e.2)) ++
      (side '1' src).map (fun e => ('1' :: e.1, e.2))) := by
  have hside : ∀ d, (side d src).map (fun e => (d :: e.1, e.2)) =
      src.filter (fun e => e.1.head? == some d) := by
    intro d
    rw [side, List.map_map, List.map_congr_left (g := id), List.map_id]
    intro e he
    have hhead := (List.mem_filter.1 he).2
    obtain ⟨k, v⟩ := e
    cases k with
    | nil => simp at hhead
    | cons c k =>
      obtain rfl : c = d := by simpa using hhead
      rfl
  have hother : src.filter (fun e => e.1.head? == some '1') =
      src.filter (fun e => !(e.1.head? == some '0')) := by
    refine List.filter_congr (fun e he => ?_)
    obtain ⟨k, v⟩ := e
    have hlen := hk.length _ he
    cases k with
    | nil => simp at hlen
    | cons c k => rcases hk.binary _ he c (by simp) with rfl | rfl <;> simp
  rw [hside, hside, hother]
  exact (List.filter_append_perm _ _).symm

/-- The entries of a tree, as the map of their texts' bits. -/
def bitEntries (src : Dict α) : List (List Bool × α) := src.map (fun e => (bitsOf e.1, e.2))

/-- The tree spells a map of keys of length `m`. -/
def Edge.Spells (e : Edge α) (m : Nat) (src : Dict α) : Prop :=
  e.toHm.HasKeyLength m ∧ e.toHm.entries.Perm (bitEntries src)

/-- Keys put back behind their common start. -/
theorem bitEntries_drop {src : Dict α} {p : List Char} (hp : ∀ e ∈ src, p <+: e.1) :
    (bitEntries (src.map (fun e => (e.1.drop p.length, e.2)))).map
      (fun e => (bitsOf p ++ e.1, e.2)) = bitEntries src := by
  simp only [bitEntries, List.map_map]
  refine List.map_congr_left (fun e he => ?_)
  obtain ⟨rest, hrest⟩ := hp e he
  simp [← hrest, bitsOf]

theorem bitEntries_cons (c : Char) (src : Dict α) :
    bitEntries (src.map (fun e => (c :: e.1, e.2))) =
      (bitEntries src).map (fun e => ((c == '1') :: e.1, e.2)) := by
  simp [bitEntries, bitsOf, Function.comp_def]

theorem buildNode_fork {src left right : Dict α} {l r : Edge α}
    (hfork : forkMap src = .ok (left, right)) (hl : buildEdge left = .ok l)
    (hr : buildEdge right = .ok r) : buildNode src = .ok (.fork l r) := by
  have hsize := length_forkMap hfork
  match src with
  | [] | [_] => simp only [List.length_nil, List.length_singleton] at hsize; omega
  | e :: e' :: es =>
    rw [buildNode]
    split
    · rename_i heq
      rw [hfork] at heq
      cases heq
    · rename_i heq
      rw [hfork] at heq
      cases heq
      rw [hl, hr]
      rfl

/-- A map with keys on both sides is split into them. -/
theorem forkMap_eq {k : Nat} {src : Dict α} (hk : KeyMap (k + 1) src) (hleft : side '0' src ≠ [])
    (hright : side '1' src ≠ []) : forkMap src = .ok (side '0' src, side '1' src) := by
  have hnil : src.length ≠ 0 := by
    intro h0
    rw [List.length_eq_zero_iff] at h0
    exact hleft (by rw [h0]; rfl)
  rw [forkMap, if_neg hnil, foldlM_forkStep hk]
  simp [hleft, hright]

/-- A side is inhabited when a key goes on to it after the label. -/
theorem side_ne_nil {src : Dict α} {p : List Char} {d : Char} {e : List Char × α} (he : e ∈ src)
    (hd : p ++ [d] <+: e.1) : side d (src.map fun e => (e.1.drop p.length, e.2)) ≠ [] := by
  obtain ⟨tail, htail⟩ := hd
  refine List.ne_nil_of_mem (a := (tail, e.2)) (mem_side.2 ?_)
  rw [List.mem_map]
  exact ⟨e, he, by simp [← htail]⟩

/-- A fork whose sides spell the sides of a map spells the map behind its label. -/
theorem entries_fork {k : Nat} {src : Dict α} (hk : KeyMap (k + 1) src) (p : List Char)
    {l r : Edge α} (hl : l.toHm.entries.Perm (bitEntries (side '0' src)))
    (hr : r.toHm.entries.Perm (bitEntries (side '1' src))) :
    ((Edge.mk p (.fork l r)).toHm).entries.Perm
      ((bitEntries src).map fun e => (bitsOf p ++ e.1, e.2)) := by
  have hput : ∀ {d : Char} {es : List (List Bool × α)}, es.Perm (bitEntries (side d src)) →
      (es.map (fun e => (bitsOf p ++ (d == '1') :: e.1, e.2))).Perm
        ((bitEntries ((side d src).map (fun e => (d :: e.1, e.2)))).map
          (fun e => (bitsOf p ++ e.1, e.2))) := by
    intro d es hes
    rw [bitEntries_cons, List.map_map]
    exact hes.map _
  calc ((Edge.mk p (.fork l r)).toHm).entries
    _ = l.toHm.entries.map (fun e => (bitsOf p ++ ('0' == '1') :: e.1, e.2)) ++
        r.toHm.entries.map (fun e => (bitsOf p ++ ('1' == '1') :: e.1, e.2)) := rfl
    _ ~ ((bitEntries ((side '0' src).map (fun e => ('0' :: e.1, e.2)))).map
          (fun e => (bitsOf p ++ e.1, e.2))) ++
        ((bitEntries ((side '1' src).map (fun e => ('1' :: e.1, e.2)))).map
          (fun e => (bitsOf p ++ e.1, e.2))) := (hput hl).append (hput hr)
    _ ~ (bitEntries src).map (fun e => (bitsOf p ++ e.1, e.2)) := by
      rw [← List.map_append, bitEntries, bitEntries, ← List.map_append]
      exact (((perm_sides hk).map _).map _).symm

/-- The tree of a nonempty map spells the map. -/
theorem buildEdge_spells (N : Nat) : ∀ {m : Nat} {src : Dict α}, src.length = N → KeyMap m src →
    src ≠ [] → ∃ e, buildEdge src = .ok e ∧ e.Binary ∧ e.Spells m src := by
  induction N using Nat.strong_induction_on with
  | _ N ih =>
    intro m src hN hk hne
    obtain ⟨hp, hcase⟩ := findCommonPrefix_spec hk hne
    have hremove := removePrefixMap_eq hk hp
    have hrest := hk.drop hp
    have hput := bitEntries_drop hp
    rw [buildEdge]
    generalize findCommonPrefix src.keys = p at *
    rw [hremove]
    generalize hr : src.map (fun e => (e.1.drop p.length, e.2)) = rest at *
    rcases hcase with ⟨e, rfl, rfl⟩ | ⟨⟨e₀, he₀, hp₀⟩, ⟨e₁, he₁, hp₁⟩⟩
    · -- one key: all of it is the label
      subst hr
      refine ⟨.mk e.1 (.leaf e.2), by rw [List.map_singleton]; simp [buildNode, bind, Except.bind,
        pure, Except.pure], ⟨hk.binary e (by simp), trivial⟩, ?_, ?_⟩
      · simpa [Edge.toHm, Node.toHm, HmEdge.HasKeyLength] using hk.length e (by simp)
      · simp [Edge.toHm, Node.toHm, HmEdge.entries, bitEntries]
    · -- two keys part after the label, so both sides of the fork are inhabited
      have hlong : p.length + 1 ≤ m := by
        have := hp₀.length_le
        rw [hk.length _ he₀, List.length_append] at this
        exact this
      obtain ⟨k, hkm⟩ : ∃ k, m = p.length + (k + 1) := ⟨m - p.length - 1, by omega⟩
      have hrest' : KeyMap (k + 1) rest := by
        rw [show m - p.length = k + 1 by omega] at hrest
        exact hrest
      have hleft : side '0' rest ≠ [] := by
        rw [← hr]
        exact side_ne_nil he₀ hp₀
      have hright : side '1' rest ≠ [] := by
        rw [← hr]
        exact side_ne_nil he₁ hp₁
      have hfork := forkMap_eq hrest' hleft hright
      have hsides := length_forkMap hfork
      have hsize : rest.length = N := by rw [← hr, List.length_map, hN]
      obtain ⟨l, hl, hlb, hlk, hle⟩ := ih _ (by omega) rfl (hrest'.side '0') hleft
      obtain ⟨r, hrt, hrb, hrk, hre⟩ := ih _ (by omega) rfl (hrest'.side '1') hright
      have hbinary : IsBinary p := fun c hc =>
        hk.binary e₀ he₀ c (hp₀.subset (List.mem_append_left _ hc))
      have hentries := entries_fork hrest' p hle hre
      rw [hput] at hentries
      exact ⟨.mk p (.fork l r), by simp [buildNode_fork hfork hl hrt], ⟨hbinary, hlb, hrb⟩,
        ⟨k, by simpa using hkm, hlk, hrk⟩, hentries⟩

/-! ## Labels -/

/-- The number of bits that `writeLabel` writes. -/
def labelLength (src : List Char) (keyLength : Nat) : Nat :=
  match detectLabelType src keyLength with
  | .short => labelShortLength src
  | .long => labelLongLength src keyLength
  | .same => labelSameLength keyLength

theorem ceilLog_le {n : Nat} (h : n ≤ 64) : ceilLog n ≤ 7 := by
  rw [ceilLog, Nat.clog_le_iff_le_pow (by decide)]
  omega

/-- The form of a label, by the same bounds as in the grammar's shortest one. -/
theorem detectLabelType_eq (src : List Char) (n : Nat) : detectLabelType src n =
    if 1 < src.length ∧ lenBits n < 2 * src.length - 1 ∧ isSame src then .same
    else if lenBits n < src.length then .long else .short := by
  have hlen : ceilLog n = lenBits n := rfl
  have hlong : 1 + 1 + lenBits n + src.length < 1 + src.length + 1 + src.length ↔
      lenBits n < src.length := by omega
  simp only [detectLabelType, labelLongLength, labelShortLength, labelSameLength, hlen, hlong]
  by_cases hle : lenBits n < src.length
  · simp only [if_pos hle]
    refine if_congr ⟨fun h => ⟨?_, ?_, h.1⟩, fun h => ⟨h.2.2, ?_⟩⟩ rfl rfl <;> omega
  · simp only [if_neg hle]
    refine if_congr ⟨fun h => ⟨?_, ?_, h.1⟩, fun h => ⟨h.2.2, ?_⟩⟩ rfl rfl <;> omega

/-- No label is written longer than in its long form. -/
theorem labelLength_le_long (src : List Char) (n : Nat) :
    labelLength src n ≤ labelLongLength src n := by
  have hlen : ceilLog n = lenBits n := rfl
  rw [labelLength, detectLabelType_eq]
  simp only [labelShortLength, labelLongLength, labelSameLength, hlen]
  split
  · next h =>
    split at h
    · cases h
    · split at h
      · cases h
      · omega
  · exact le_rfl
  · next h =>
    split at h
    · omega
    · split at h <;> cases h

theorem labelLength_le {src : List Char} {n : Nat} (hlen : src.length ≤ n) (hn : n ≤ 64) :
    labelLength src n ≤ 73 := by
  have hceil := ceilLog_le hn
  have hlong := labelLength_le_long src n
  rw [labelLongLength] at hlong
  omega

theorem appends_storeDigits (src : List Char) : Appends (storeDigits src) (bitsOf src) := by
  have h := Appends.foldl (fun c : Char => Appends.storeBool (c == '1')) src
  rwa [← List.map_eq_flatMap] at h

theorem ofNat_ceilLog {l n : Nat} :
    BitField.ofNat (ceilLog n) ((l : Int) % 2 ^ ceilLog n).toNat =
      BitField.ofNat (lenBits n) l := by
  rw [show ((l : Int) % 2 ^ ceilLog n).toNat = l % 2 ^ ceilLog n by norm_cast, BitField.ofNat_mod]
  rfl

theorem appends_writeLabelShort (src : List Char) : Appends (writeLabelShort src)
    (false :: (List.replicate src.length true ++ false :: bitsOf src)) := by
  have hone : Appends (store 1 1) [true] := Appends.store 1 1 (by decide)
  have hones := Appends.foldl (fun _ : Char => hone) src
  rw [← List.map_eq_flatMap, List.map_const'] at hones
  have h := (Appends.store 0 1 (by decide)).comp (hones.comp
    ((Appends.store 0 1 (by decide)).comp (appends_storeDigits src)))
  exact h

theorem appends_writeLabelLong {n : Nat} (hn : n ≤ 64) (src : List Char) :
    Appends (writeLabelLong src n)
      (true :: false :: (BitField.ofNat (lenBits n) src.length ++ bitsOf src)) := by
  have hceil := ceilLog_le hn
  have h := (Appends.store 1 1 (by decide)).comp
    ((Appends.store 0 1 (by decide)).comp
      ((Appends.store src.length (ceilLog n) (by omega)).comp (appends_storeDigits src)))
  rwa [ofNat_ceilLog] at h

theorem appends_writeLabelSame {n : Nat} (hn : n ≤ 64) (value : Bool) (length : Nat) :
    Appends (writeLabelSame value length n)
      (true :: true :: value :: BitField.ofNat (lenBits n) length) := by
  have hceil := ceilLog_le hn
  have h := (Appends.store 1 1 (by decide)).comp
    ((Appends.store 1 1 (by decide)).comp
      ((Appends.storeBool value).comp (Appends.store length (ceilLog n) (by omega))))
  rwa [ofNat_ceilLog] at h

/-- The digits of a binary text are all the same when its bits are. -/
theorem isSame_iff {src : List Char} (h : IsBinary src) :
    isSame src ↔ bitsOf src = List.replicate src.length ((bitsOf src).headD false) := by
  cases src with
  | nil => simp [isSame, bitsOf]
  | cons c src =>
    rw [isSame, List.all_eq_true, List.eq_replicate_iff, and_iff_right (length_bitsOf _), bitsOf,
      List.forall_mem_map]
    refine forall₂_congr fun d hmem => ?_
    have hc := h c List.mem_cons_self
    have hd := h d hmem
    clear hmem
    rcases hc with rfl | rfl <;> rcases hd with rfl | rfl <;> simp

/-- A label is written in its shortest form. -/
theorem writeLabel_spec {src : List Char} {n : Nat} (hbin : IsBinary src) (hn : n ≤ 64) :
    ∃ f, Appends f (HmLabel.shortest n (bitsOf src)) ∧ ∀ b, writeLabel src n b = .ok (f b) := by
  simp only [HmLabel.shortest, length_bitsOf, ← isSame_iff hbin, writeLabel, detectLabelType_eq]
  split
  · next hsame =>
    cases src with
    | nil => exact absurd hsame.1 (by simp)
    | cons c src => exact ⟨_, appends_writeLabelSame hn (c == '1') (c :: src).length, fun _ => rfl⟩
  · split
    · exact ⟨_, appends_writeLabelLong hn src, fun _ => rfl⟩
    · exact ⟨_, appends_writeLabelShort src, fun _ => rfl⟩

theorem length_shortest_bitsOf {src : List Char} (n : Nat) (hbin : IsBinary src) :
    (HmLabel.shortest n (bitsOf src)).length = labelLength src n := by
  have hlen : ceilLog n = lenBits n := rfl
  simp only [HmLabel.length_shortest, length_bitsOf, ← isSame_iff hbin, labelLength,
    detectLabelType_eq]
  split
  · simp only [labelSameLength, hlen]
  · split
    · simp only [labelLongLength, hlen]
    · simp only [labelShortLength]
      omega

/-! ## Writing the tree -/

/-- The serializer of the caller: it appends the encoding of the value where it fits. -/
def Serializes (serializer : α → CellBuilder → Except Exception CellBuilder)
    (enc : α → List Bool × List Cell) : Prop :=
  ∀ v b (h : b.canExtendBy (enc v).1.length (enc v).2.length),
    serializer v b = .ok (b.append (enc v).1 (enc v).2 h)

mutual
/-- Every value fits in its leaf cell after the label, and what it refers to nests at most `d`
deep, less the number of forks above it. -/
def Edge.LeavesFit (enc : α → List Bool × List Cell) : Edge α → Nat → Nat → Prop
  | .mk label node, n, d => node.LeavesFit enc (labelLength label n) (n - label.length) d

def Node.LeavesFit (enc : α → List Bool × List Cell) : Node α → Nat → Nat → Nat → Prop
  | .leaf value, used, _, d => used + (enc value).1.length ≤ Vm.maxBits ∧
      (enc value).2.length ≤ Vm.maxRefs ∧ Cell.depthRefs (enc value).2 ≤ d
  | .fork left right, _, n, d => left.LeavesFit enc (n - 1) (d - 1) ∧
      right.LeavesFit enc (n - 1) (d - 1)
end

/-- The label of an edge, written in an empty cell. -/
theorem writeLabel_begin {label : List Char} {n : Nat} (hbin : IsBinary label)
    (hlen : label.length ≤ n) (hn : n ≤ 64) :
    ∃ b, writeLabel label n CellBuilder.begin = .ok b ∧
      b.bits = HmLabel.shortest n (bitsOf label) ∧ b.refs = [] := by
  obtain ⟨f, happ, hwrite⟩ := writeLabel_spec hbin hn
  have hfit : CellBuilder.begin.canExtendBy (HmLabel.shortest n (bitsOf label)).length 0 := by
    rw [length_shortest_bitsOf n hbin]
    exact ⟨(labelLength_le hlen hn).trans (by decide), Nat.zero_le _⟩
  refine ⟨_, hwrite _, ?_, ?_⟩ <;> rw [happ _ hfit] <;> rfl

/-- What a value is written as. -/
def valueSlice (enc : α → List Bool × List Cell) (v : α) : Slice := ⟨(enc v).1, (enc v).2⟩

/-- What is written of a tree is its cell, where all of it fits. -/
theorem Edge.write_cell {serializer : α → CellBuilder → Except Exception CellBuilder}
    {enc : α → List Bool × List Cell} (hser : Serializes serializer enc) :
    ∀ (e : Edge α) {n : Nat}, e.Binary → e.toHm.HasKeyLength n → n ≤ 64 →
      e.toHm.AllCells Vm.CellFits (valueSlice enc) n →
      ∃ b, e.write serializer n CellBuilder.begin = .ok b ∧
        CellBuilder.finish b = .ok (e.toHm.cell (valueSlice enc) n)
  | .mk label (.leaf value), n, hbin, hk, hn, hfit => by
    obtain rfl : label.length = n := (length_bitsOf label).symm.trans hk
    obtain ⟨b, hwrite, hbits, hrefs⟩ := writeLabel_begin hbin.1 (le_refl label.length) hn
    obtain ⟨hroom, hroomRefs, hdepth⟩ := hfit
    simp only [HmEdge.cell, Cell.bits_mk, Cell.refs_mk, List.length_append]
      at hroom hroomRefs hdepth
    have hcan : b.canExtendBy (enc value).1.length (enc value).2.length := by
      rw [CellBuilder.canExtendBy, hbits, hrefs]
      exact ⟨Nat.le_sub_of_add_le' hroom, hroomRefs⟩
    refine ⟨b.append (enc value).1 (enc value).2 hcan, ?_, ?_⟩
    · simp only [Edge.write, Node.write, hwrite]
      exact hser value b hcan
    · rw [finish_eq, CellBuilder.bits_append, CellBuilder.refs_append, hbits, hrefs]
      exact if_pos hdepth
  | .mk label (.fork left right), n, hbin, hk, hn, hfit => by
    obtain ⟨hlabel, hlbin, hrbin⟩ := hbin
    obtain ⟨m, hm, hlk, hrk⟩ := hk
    have htree : Edge.toHm (.mk label (.fork left right)) =
        .fork (bitsOf label) left.toHm right.toHm := rfl
    rw [htree, HmEdge.allCells_fork hm] at hfit
    obtain ⟨⟨-, -, hdepth⟩, hlfit, hrfit⟩ := hfit
    rw [HmEdge.cell_fork hm] at hdepth
    rw [length_bitsOf] at hm
    obtain ⟨b, hwrite, hbits, hrefs⟩ := writeLabel_begin hlabel (show label.length ≤ n by omega) hn
    -- both sides are written with what is left of the key length
    have hsub : n - label.length - 1 = m := by omega
    obtain ⟨bl, hl, hfl⟩ := left.write_cell hser hlbin hlk (by omega) hlfit
    obtain ⟨br, hr, hfr⟩ := right.write_cell hser hrbin hrk (by omega) hrfit
    have hroom : b.canExtendBy 0 1 := by
      rw [CellBuilder.canExtendBy, hrefs]
      exact ⟨Nat.zero_le _, by decide⟩
    have hroom' : (b.append [] [left.toHm.cell (valueSlice enc) m] hroom).canExtendBy 0 1 := by
      rw [CellBuilder.canExtendBy, CellBuilder.refs_append, hrefs]
      exact ⟨Nat.zero_le _, show 1 ≤ Vm.maxRefs - 1 by decide⟩
    refine ⟨(b.append [] [left.toHm.cell (valueSlice enc) m] hroom).append []
      [right.toHm.cell (valueSlice enc) m] hroom', ?_, ?_⟩
    · simp only [Edge.write, Node.write, hwrite, hsub, hl, hr, hfl, hfr, bind, Except.bind,
        storeRef_eq _ _ hroom, storeRef_eq _ _ hroom']
    · rw [htree, HmEdge.cell_fork (by rw [length_bitsOf]; exact hm), finish_eq]
      simp only [CellBuilder.bits_append, CellBuilder.refs_append, hbits, hrefs, List.append_nil,
        List.nil_append, List.cons_append]
      exact if_pos hdepth

/-- A tree whose values fit after their labels is within the limits. -/
theorem Edge.allCells_of_leavesFit {enc : α → List Bool × List Cell} :
    ∀ (e : Edge α) {n d : Nat}, e.Binary → e.toHm.HasKeyLength n → n ≤ 64 → n ≤ d →
      d ≤ Vm.maxDepth → e.LeavesFit enc n d →
      e.toHm.AllCells Vm.CellFits (valueSlice enc) n ∧
        (e.toHm.cell (valueSlice enc) n).depth ≤ d
  | .mk label (.leaf value), n, d, hbin, hk, hn, _, hd, hfit => by
    obtain ⟨hbits, hrefs, hdepth⟩ := hfit
    rw [← length_shortest_bitsOf n hbin.1] at hbits
    refine ⟨⟨?_, hrefs, hdepth.trans hd⟩, ?_⟩
    · rw [HmEdge.cell, Cell.bits_mk, List.length_append]
      exact hbits
    · rw [HmEdge.cell_eq, Cell.depth_mk]
      exact hdepth
  | .mk label (.fork left right), n, d, hbin, hk, hn, hnd, hd, hfit => by
    obtain ⟨hlabel, hlbin, hrbin⟩ := hbin
    obtain ⟨m, hm, hlk, hrk⟩ := hk
    have htree : Edge.toHm (.mk label (.fork left right)) =
        .fork (bitsOf label) left.toHm right.toHm := rfl
    have hm' := hm
    rw [length_bitsOf] at hm'
    obtain ⟨hlfit, hrfit⟩ := hfit
    rw [show n - label.length - 1 = m by omega] at hlfit hrfit
    obtain ⟨hl, hldepth⟩ := left.allCells_of_leavesFit (d := d - 1) hlbin hlk (by omega) (by omega)
      (by omega) hlfit
    obtain ⟨hr, hrdepth⟩ := right.allCells_of_leavesFit (d := d - 1) hrbin hrk (by omega) (by omega)
      (by omega) hrfit
    have hbits := labelLength_le (show label.length ≤ n by omega) hn
    rw [← length_shortest_bitsOf n hlabel] at hbits
    rw [htree, HmEdge.allCells_fork hm, HmEdge.cell_fork hm, Cell.depth_mk]
    -- `d` is not 0, since the key is longer than the label
    have hdepth : Cell.depthRefs [left.toHm.cell (valueSlice enc) m,
        right.toHm.cell (valueSlice enc) m] ≤ d := by
      rw [Cell.depthRefs_cons, Cell.depthRefs_cons, Cell.depthRefs_nil]
      omega
    exact ⟨⟨⟨hbits.trans (by decide), show 2 ≤ Vm.maxRefs by decide, hdepth.trans hd⟩, hl, hr⟩,
      hdepth⟩

/-! ## The keys -/

/-- The key a number is written under: its two's complement in `n` bits. -/
def keyBits (n : Nat) (k : Int) : List Bool := BitField.ofNat n (k % 2 ^ n).toNat

/-- The numbers that may be keys of `n` bits: those below `2 ^ n`, and every `long` for 64. -/
def IsKey (n : Nat) (k : Int) : Prop :=
  if n < 64 then 0 ≤ k ∧ k < 2 ^ n else -2 ^ 63 ≤ k ∧ k < 2 ^ 63

theorem IsKey.int64 {n : Nat} {k : Int} (h : IsKey n k) : -2 ^ 63 ≤ k ∧ k < 2 ^ 63 := by
  rw [IsKey] at h
  split at h
  · rename_i hn
    have hpow : (2 : Int) ^ n ≤ 2 ^ 63 := pow_le_pow_right₀ (by decide) (by omega)
    omega
  · exact h

theorem IsKey.emod {n : Nat} {k : Int} (hn : n ≤ 64) (h : IsKey n k) :
    k % 2 ^ 64 = k % 2 ^ n := by
  rw [IsKey] at h
  split at h
  · rename_i hlt
    have hpow : (2 : Int) ^ n ≤ 2 ^ 64 := pow_le_pow_right₀ (by decide) (by omega)
    rw [Int.emod_eq_of_lt h.1 (by omega), Int.emod_eq_of_lt h.1 h.2]
  · rw [show n = 64 by omega]

/-- Two numbers with the same key are the same. -/
theorem keyBits_inj {n : Nat} {k l : Int} (hn : n ≤ 64) (hk : IsKey n k) (hl : IsKey n l)
    (h : keyBits n k = keyBits n l) : k = l := by
  have hmod : (k % 2 ^ n).toNat = (l % 2 ^ n).toNat := by
    refine BitField.ofNat_inj ?_ ?_ h
    all_goals
      rw [Int.toNat_lt (Int.emod_nonneg _ (by positivity))]
      exact_mod_cast Int.emod_lt_of_pos _ (by positivity)
  have hmod' : k % 2 ^ n = l % 2 ^ n := by
    have hk0 : 0 ≤ k % 2 ^ n := Int.emod_nonneg _ (by positivity)
    have hl0 : 0 ≤ l % 2 ^ n := Int.emod_nonneg _ (by positivity)
    omega
  rw [← hk.emod hn, ← hl.emod hn] at hmod'
  have hk64 := hk.int64
  have hl64 := hl.int64
  omega

theorem bitsOf_binaryDigit (bs : List Bool) : bitsOf (bs.map binaryDigit) = bs := by
  induction bs with
  | nil => rfl
  | cons b bs ih =>
    rw [List.map_cons, bitsOf, List.map_cons, ← bitsOf, ih]
    cases b <;> rfl

/-- The padded text of a key is the key, digit by digit. -/
theorem pad_toBinaryString {n : Nat} {k : Int} (h0 : 0 < n) (hn : n ≤ 64) (hk : IsKey n k) :
    pad (toBinaryString k) n = (keyBits n k).map binaryDigit := by
  simp only [pad, toBinaryString, keyBits]
  rw [hk.emod hn]
  have hlt : (k % 2 ^ n).toNat < 2 ^ n := by
    rw [Int.toNat_lt (Int.emod_nonneg _ (by positivity))]
    exact_mod_cast Int.emod_lt_of_pos _ (by positivity)
  generalize (k % 2 ^ n).toNat = u at hlt
  have hsize : u.size ≤ n := Nat.size_le.2 hlt
  have hlt' : u < 2 ^ max 1 u.size :=
    lt_of_lt_of_le (Nat.lt_size_self u) (Nat.pow_le_pow_right (by decide) (le_max_right _ _))
  have hzeros := BitField.ofNat_add_of_lt (n - max 1 u.size) hlt'
  rw [show n - max 1 u.size + max 1 u.size = n by omega] at hzeros
  rw [hzeros, List.map_append, List.map_replicate, List.length_map, BitField.length_ofNat]
  rfl

/-- The number a key text denotes. -/
def keyOf (k : List Char) : Int := (Decimal.toInt? k).getD 0

/-- The keys of a map are decimal texts of different numbers that may be keys of `n` bits. -/
structure HasKeys (n : Nat) (src : Dict α) : Prop where
  decimal : ∀ e ∈ src, ∃ k, Decimal.toInt? e.1 = some k ∧ IsKey n k
  distinct : (src.map (fun e => Decimal.toInt? e.1)).Nodup

/-- The map under the bits of its keys. -/
def keyed (n : Nat) (src : Dict α) : List (List Bool × α) :=
  src.map (fun e => (keyBits n (keyOf e.1), e.2))

theorem HasKeys.nodup_keyBits {n : Nat} {src : Dict α} (hn : n ≤ 64) (h : HasKeys n src) :
    (src.map (fun e => keyBits n (keyOf e.1))).Nodup := by
  refine List.Nodup.map_on (fun e he e' he' heq => ?_) (List.Nodup.of_map _ h.distinct)
  obtain ⟨k, hk, hkey⟩ := h.decimal e he
  obtain ⟨k', hk', hkey'⟩ := h.decimal e' he'
  rw [keyOf, keyOf, hk, hk'] at heq
  obtain rfl := keyBits_inj hn hkey hkey' heq
  exact List.inj_on_of_nodup_map h.distinct he he' (by rw [hk, hk'])

/-- The tree of the whole map spells the map. -/
theorem buildTree_spells {n : Nat} {src : Dict α} (h0 : 0 < n) (hn : n ≤ 64) (hne : src ≠ [])
    (h : HasKeys n src) :
    ∃ e, buildTree src n = .ok e ∧ e.Binary ∧ e.toHm.HasKeyLength n ∧
      e.toHm.entries.Perm (keyed n src) := by
  have hstep : ∀ (res : Dict α), ∀ e ∈ src,
      (do Dict.add res (pad (toBinaryString (← parseLong e.1)) n) e.2) =
        Dict.add res ((keyBits n (keyOf e.1)).map binaryDigit) e.2 := by
    intro res e he
    obtain ⟨k, hk, hkey⟩ := h.decimal e he
    rw [parseLong, hk]
    simp only [if_pos hkey.int64, keyOf, hk, Option.getD_some]
    exact congrArg (fun t => Dict.add res t e.2) (pad_toBinaryString h0 hn hkey)
  -- distinct numbers have distinct digits
  have hnd : (src.map (fun e => (keyBits n (keyOf e.1)).map binaryDigit)).Nodup := by
    refine List.Nodup.of_map bitsOf ?_
    simpa only [List.map_map, Function.comp_def, bitsOf_binaryDigit] using h.nodup_keyBits hn
  have hconv := Dict.foldlM_add hstep [] hnd (by simp [Dict.keys])
  have hmap : KeyMap n (src.map (fun e => ((keyBits n (keyOf e.1)).map binaryDigit, e.2))) := by
    refine ⟨?_, ?_, by simpa [Dict.keys, Function.comp_def] using hnd⟩
    · intro e he c hc
      obtain ⟨e', -, rfl⟩ := List.mem_map.1 he
      obtain ⟨b, -, rfl⟩ := List.mem_map.1 hc
      cases b <;> simp [binaryDigit]
    · intro e he
      obtain ⟨e', -, rfl⟩ := List.mem_map.1 he
      simp [keyBits]
  obtain ⟨e, he, hbinary, hlen, hperm⟩ := buildEdge_spells _ rfl hmap (by simpa using hne)
  refine ⟨e, ?_, hbinary, hlen, ?_⟩
  · rw [buildTree, hconv]
    exact he
  · simpa [bitEntries, keyed, Function.comp_def, bitsOf_binaryDigit] using hperm

/-- Values that need at most 950 bits always fit, whatever the keys. -/
theorem Edge.leavesFit_of_small {enc : α → List Bool × List Cell} {k : Nat}
    (hbits : ∀ v, (enc v).1.length ≤ 950) (hrefs : ∀ v, (enc v).2.length ≤ Vm.maxRefs)
    (hdepth : ∀ v, Cell.depthRefs (enc v).2 ≤ k) :
    ∀ (e : Edge α) {n d : Nat}, e.toHm.HasKeyLength n → n ≤ 64 → k + n ≤ d → e.LeavesFit enc n d
  | .mk label (.leaf value), n, d, hk, hn, hd => by
    have hlen : label.length = n := (length_bitsOf label).symm.trans hk
    have hlabel := labelLength_le (le_of_eq hlen) hn
    have hb := hbits value
    have hv := hdepth value
    exact ⟨by rw [Vm.maxBits]; omega, hrefs value, by omega⟩
  | .mk label (.fork left right), n, d, hk, hn, hd => by
    obtain ⟨m, hm, hlk, hrk⟩ := hk
    rw [length_bitsOf] at hm
    have hsub : n - label.length - 1 = m := by omega
    refine ⟨?_, ?_⟩ <;> rw [hsub]
    · exact left.leavesFit_of_small hbits hrefs hdepth hlk (by omega) (by omega)
    · exact right.leavesFit_of_small hbits hrefs hdepth hrk (by omega) (by omega)

/-- Serialization returns the cell of the tree with the entries of the map. -/
theorem serialize_cell {n d : Nat} {src : Dict α}
    {serializer : α → CellBuilder → Except Exception CellBuilder} {enc : α → List Bool × List Cell}
    (h0 : 0 < n) (hn : n ≤ 64) (hne : src ≠ []) (hkeys : HasKeys n src)
    (hser : Serializes serializer enc) (hnd : n ≤ d) (hd : d ≤ Vm.maxDepth)
    (hfit : ∀ e, buildTree src n = .ok e → e.LeavesFit enc n d) :
    ∃ t : HmEdge α, serialize src n serializer = .ok (t.cell (valueSlice enc) n) ∧
      t.HasKeyLength n ∧ t.entries.Perm (keyed n src) ∧ (t.cell (valueSlice enc) n).depth ≤ d := by
  obtain ⟨e, he, hbinary, hlen, hperm⟩ := buildTree_spells h0 hn hne hkeys
  obtain ⟨hall, hdepth⟩ := e.allCells_of_leavesFit hbinary hlen hn hnd hd (hfit e he)
  obtain ⟨b, hb, hfinish⟩ := e.write_cell hser hbinary hlen hn hall
  refine ⟨e.toHm, ?_, hlen, hperm, hdepth⟩
  simp only [serialize, he, bind, Except.bind, hb, hfinish]

/-- Serialization returns a cell that decodes to exactly the input map: every key once with its
own value, and no other tree. -/
theorem serialize_hashmap {n : Nat} {src : Dict α}
    {serializer : α → CellBuilder → Except Exception CellBuilder}
    {enc : α → List Bool × List Cell} {X : Slice → α → Prop}
    (h0 : 0 < n) (hn : n ≤ 64) (hne : src ≠ []) (hkeys : HasKeys n src)
    (hser : Serializes serializer enc) (hX : ∀ v, X ⟨(enc v).1, (enc v).2⟩ v)
    (hfit : ∀ e, buildTree src n = .ok e → e.LeavesFit enc n Vm.maxDepth) :
    ∃ cell t, serialize src n serializer = .ok cell ∧ Hashmap X n cell.toSlice t ∧
      t.entries.Perm (keyed n src) ∧ (t.entries.map Prod.fst).Nodup ∧ t.ForksInhabited ∧
      ((∀ s v v', X s v → X s v' → v = v') → ∀ t', Hashmap X n cell.toSlice t' → t' = t) := by
  obtain ⟨t, ht, hlen, hperm, -⟩ :=
    serialize_cell h0 hn hne hkeys hser (hn.trans (by decide)) le_rfl hfit
  have hhm := (HmEdge.shortHashmap_cell (valueSlice enc) hX hlen).hashmap
  exact ⟨_, t, ht, hhm, hperm, t.nodup_keys, t.forksInhabited,
    fun hfun t' ht' => Hashmap.unique hfun ht' hhm⟩

theorem hasKeys_one_two : HasKeys 2 [(['1'], false), (['2'], true)] := by
  refine ⟨fun e he => ?_, by decide⟩
  simp only [List.mem_cons, List.not_mem_nil, or_false] at he
  rcases he with rfl | rfl
  · exact ⟨1, by decide, by simp [IsKey]⟩
  · exact ⟨2, by decide, by simp [IsKey]⟩

theorem serializes_storeBool :
    Serializes (fun v b => .ok (storeBool v b)) (fun v => ([v], [])) :=
  fun v b h => congrArg Except.ok (Appends.storeBool v b h)

/-- Two keys of two bits, whose values are single bits. -/
theorem serialize_hashmap_two_keys : ∃ cell t,
    serialize [(['1'], false), (['2'], true)] 2 (fun v b => .ok (storeBool v b)) = .ok cell ∧
      Hashmap (fun s v => s = ⟨[v], []⟩) 2 cell.toSlice t ∧
      t.entries.Perm [([false, true], false), ([true, false], true)] := by
  have hkeys := hasKeys_one_two
  have hfit : ∀ e, buildTree [(['1'], false), (['2'], true)] 2 = .ok e →
      e.LeavesFit (fun v => ([v], [])) 2 Vm.maxDepth := by
    intro e he
    obtain ⟨e', he', -, hlen, -⟩ := buildTree_spells (by decide) (by decide) (by simp) hkeys
    obtain rfl := Except.ok.inj (he.symm.trans he')
    exact e.leavesFit_of_small (k := 0) (by simp) (by simp) (by simp) hlen (by decide) (by decide)
  have hser : Serializes (fun v b => .ok (storeBool v b)) fun v => ([v], []) := serializes_storeBool
  obtain ⟨cell, t, hcell, hhm, hperm, -⟩ := serialize_hashmap (X := fun s v => s = ⟨[v], []⟩)
    (by decide) (by decide) (by simp) hkeys hser (fun _ => rfl) hfit
  exact ⟨cell, t, hcell, hhm, hperm⟩

end Ton.SerializeDict
