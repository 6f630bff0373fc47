import Mathlib

/- Finite graphs without cycles, as tables. A row has a node and the indices of the rows of its
   children, all of them before it. In such a table what is reachable from a node of it is in
   it too, and rows may be added at the end. -/
namespace DagTable

variable {ρ α : Type*} (node : ρ → α) (refs : ρ → List Nat) (children : α → List α)

/-- The rows `rs` are those of the nodes `cs`. -/
def RowsOf (t : List ρ) (rs : List Nat) (cs : List α) : Prop :=
  List.Forall₂ (fun r c => t[r]?.map node = some c) rs cs

/-- Every row refers to the rows of its node's children, and those stand before it. -/
def Sound (t : List ρ) : Prop :=
  ∀ (i : Nat) (row : ρ), t[i]? = some row →
    RowsOf node t (refs row) (children (node row)) ∧ ∀ r ∈ refs row, r < i

/-- A node at the end of a chain of children. -/
abbrev Reach (a b : α) : Prop := Relation.ReflTransGen (fun a b => b ∈ children a) a b

/-- No chain of children has more than `n` steps. -/
def DepthLe : Nat → α → Prop
  | 0, a => children a = []
  | n + 1, a => ∀ b ∈ children a, DepthLe n b

variable {node refs children}

/-! ## Chains -/

/-- A node is not below itself. -/
theorem not_reach_of_depthLe {n : Nat} {a b : α} (h : DepthLe children n a)
    (hb : b ∈ children a) : ¬ Reach children b a := by
  induction n generalizing a b with
  | zero =>
    rw [DepthLe] at h
    rw [h] at hb
    cases hb
  | succ n ih =>
    intro hreach
    have hdepth : DepthLe children n b := h b hb
    rcases Relation.ReflTransGen.cases_head hreach with rfl | ⟨b', hb', hreach'⟩
    · exact ih hdepth hb .refl
    · exact ih hdepth hb' (hreach'.tail hb)

/-! ## Rows -/

theorem rowsOf_congr {t t' : List ρ} (h : t.map node <+: t'.map node) {rs : List Nat}
    {cs : List α} (hrows : RowsOf node t rs cs) : RowsOf node t' rs cs := by
  refine hrows.imp fun r c hr => ?_
  rw [← List.getElem?_map] at hr ⊢
  obtain ⟨rest, hrest⟩ := h
  obtain ⟨hlt, -⟩ := List.getElem?_eq_some_iff.1 hr
  rw [← hrest, List.getElem?_append_left hlt, hr]

theorem rowsOf_length {t : List ρ} {rs : List Nat} {cs : List α} (hrows : RowsOf node t rs cs) :
    ∀ r ∈ rs, r < t.length := by
  induction hrows with
  | nil =>
    intro r hr
    cases hr
  | cons hrow _ ih =>
    intro r hr
    rcases List.mem_cons.1 hr with rfl | hr
    · by_contra hge
      rw [List.getElem?_eq_none (by omega)] at hrow
      cases hrow
    · exact ih r hr

theorem rowsOf_append {t : List ρ} {rs rs' : List Nat} {cs cs' : List α}
    (h : RowsOf node t rs cs) (h' : RowsOf node t rs' cs') :
    RowsOf node t (rs ++ rs') (cs ++ cs') :=
  List.rel_append h h'

/-! ## Tables -/

theorem sound_nil : Sound node refs children ([] : List ρ) := by
  intro i row h
  cases h

/-- The nodes and the references alone make a table sound. -/
theorem Sound.congr {t t' : List ρ} (hnode : t.map node = t'.map node)
    (hrefs : t.map refs = t'.map refs) (h : Sound node refs children t) :
    Sound node refs children t' := by
  intro i row' hrow'
  have hlen : t.length = t'.length := by simpa using congrArg List.length hnode
  obtain ⟨hlt, rfl⟩ := List.getElem?_eq_some_iff.1 hrow'
  have hn : node t[i] = node t'[i] := by
    have := congrArg (fun l => l[i]?) hnode
    simpa [hlt, hlen] using this
  have hr : refs t[i] = refs t'[i] := by
    have := congrArg (fun l => l[i]?) hrefs
    simpa [hlt, hlen] using this
  obtain ⟨hrows, hbefore⟩ := h i t[i] (List.getElem?_eq_getElem (by omega))
  rw [hr, hn] at hrows
  rw [hr] at hbefore
  exact ⟨rowsOf_congr (hnode ▸ List.prefix_rfl) hrows, hbefore⟩

theorem Sound.concat {t : List ρ} (h : Sound node refs children t) {row : ρ}
    (hrow : RowsOf node t (refs row) (children (node row))) :
    Sound node refs children (t ++ [row]) := by
  have hprefix : t.map node <+: (t ++ [row]).map node := by
    rw [List.map_append]
    exact List.prefix_append _ _
  intro i row' hrow'
  by_cases hi : i < t.length
  · rw [List.getElem?_append_left hi] at hrow'
    obtain ⟨hrows, hbefore⟩ := h i row' hrow'
    exact ⟨rowsOf_congr hprefix hrows, hbefore⟩
  · have hend : i = t.length := by
      have hlt := (List.getElem?_eq_some_iff.1 hrow').1
      rw [List.length_append, List.length_singleton] at hlt
      omega
    subst hend
    rw [List.getElem?_concat_length] at hrow'
    obtain rfl := Option.some.inj hrow'
    exact ⟨rowsOf_congr hprefix hrow, rowsOf_length hrow⟩

/-- What is reachable from a node of the table is in the table. -/
theorem Sound.mem_of_reach {t : List ρ} (h : Sound node refs children t) {a b : α}
    (ha : a ∈ t.map node) (hreach : Reach children a b) : b ∈ t.map node := by
  induction hreach with
  | refl => exact ha
  | tail _ hstep ih =>
    obtain ⟨row, hrow, rfl⟩ := List.mem_map.1 ih
    obtain ⟨i, hi, rfl⟩ := List.mem_iff_getElem.1 hrow
    obtain ⟨hrows, -⟩ := h i t[i] (List.getElem?_eq_getElem hi)
    obtain ⟨j, hj, rfl⟩ := List.mem_iff_getElem.1 hstep
    have hjrow := (List.forall₂_iff_get.1 hrows).2 j (by rw [hrows.length_eq]; exact hj) hj
    obtain ⟨row', hrow', heq⟩ := Option.map_eq_some_iff.1 hjrow
    rw [List.get_eq_getElem] at heq
    exact List.mem_map.2 ⟨row', List.mem_of_getElem? hrow', heq⟩

end DagTable
