import Mathlib.Data.List.Perm.Subperm
import Mathlib.Data.Set.Basic
import Mathlib.Order.Defs.LinearOrder

/- The `n` greatest of a set by a rank, in descending order, kept in a list while the set grows.

   Elements of one rank may stand in any order, and any of them may be left out. Main result: what
   is kept of the list and some of the new elements are the greatest of all, when what was not
   considered is outranked by `n` that were (`IsTop.absorb`). -/
namespace Greatest

variable {α R : Type*} [LinearOrder R] {rank : α → R} {n : Nat}

/-- `l` is `n` greatest elements of `Q`, or all of them when there are fewer. -/
structure IsTop (rank : α → R) (n : Nat) (Q : Set α) (l : List α) : Prop where
  nodup : l.Nodup
  subset : ∀ a ∈ l, a ∈ Q
  sorted : l.Pairwise fun a b => rank b ≤ rank a
  length_le : l.length ≤ n
  outranked : ∀ a ∈ Q, a ∉ l → l.length = n ∧ ∀ b ∈ l, rank a ≤ rank b

/-- There are `n` elements in `l` of rank `r` or higher. -/
def HasAbove (rank : α → R) (n : Nat) (l : List α) (r : R) : Prop :=
  ∃ above : List α, above.Nodup ∧ above.length = n ∧ ∀ a ∈ above, a ∈ l ∧ r ≤ rank a

theorem isTop_empty : IsTop rank n ∅ [] :=
  ⟨List.nodup_nil, by simp, List.Pairwise.nil, Nat.zero_le n, by simp⟩

theorem length_le_of_subset {above l : List α} (hnodup : above.Nodup) (h : ∀ a ∈ above, a ∈ l) :
    above.length ≤ l.length :=
  (hnodup.subperm h).length_le

theorem HasAbove.mono {l l' : List α} {r : R} (h : HasAbove rank n l r) (hsub : ∀ a ∈ l, a ∈ l') :
    HasAbove rank n l' r := by
  obtain ⟨above, hnodup, hlength, habove⟩ := h
  refine ⟨above, hnodup, hlength, ?_⟩
  intro a ha
  exact ⟨hsub a (habove a ha).1, (habove a ha).2⟩

/-- What a full list leaves out is outranked by the whole list. -/
theorem IsTop.hasAbove {Q : Set α} {l : List α} (h : IsTop rank n Q l) {a : α} (ha : a ∈ Q)
    (hl : a ∉ l) : HasAbove rank n l (rank a) := by
  obtain ⟨hlength, hle⟩ := h.outranked a ha hl
  exact ⟨l, h.nodup, hlength, fun b hb => ⟨hb, hle b hb⟩⟩

section Take
variable {S : List α} (hsorted : S.Pairwise fun a b => rank b ≤ rank a)
include hsorted

theorem rank_le_of_not_mem_take {a b : α} (ha : a ∈ S) (hnot : a ∉ S.take n) (hb : b ∈ S.take n) :
    rank a ≤ rank b := by
  have hsplit := hsorted
  rw [← List.take_append_drop n S, List.pairwise_append] at hsplit
  rw [← List.take_append_drop n S, List.mem_append] at ha
  exact hsplit.2.2 b hb a (ha.resolve_left hnot)

/-- Nothing outside that `n` elements outrank is above what is taken. -/
theorem take_outranks {r : R} (h : HasAbove rank n S r) :
    (S.take n).length = n ∧ ∀ b ∈ S.take n, r ≤ rank b := by
  obtain ⟨above, hnodup, hlength, habove⟩ := h
  have hin : ∀ a ∈ above, a ∈ S := fun a ha => (habove a ha).1
  have hfull : n ≤ S.length := hlength ▸ length_le_of_subset hnodup hin
  have htake : (S.take n).length = n := List.length_take_of_le hfull
  refine ⟨htake, ?_⟩
  intro b hb
  by_contra hlt
  have hlt := lt_of_not_ge hlt
  -- then all `n` of them are taken, and `b` besides
  have hbin : b ∉ above := fun h => absurd (habove b h).2 (not_le_of_gt hlt)
  have hsub : ∀ a ∈ b :: above, a ∈ S.take n := by
    intro a ha
    cases List.mem_cons.mp ha with
    | inl ha => exact ha ▸ hb
    | inr ha =>
      by_contra hnot
      have hle := rank_le_of_not_mem_take hsorted (hin a ha) hnot hb
      exact absurd (le_trans (habove a ha).2 hle) (not_le_of_gt hlt)
  have hcount := length_le_of_subset (List.nodup_cons.mpr ⟨hbin, hnodup⟩) hsub
  rw [List.length_cons, htake, hlength] at hcount
  omega

theorem IsTop.absorb (hS : S.Nodup) {Q L : Set α} {T : List α} (h : IsTop rank n Q T)
    (hT : ∀ a ∈ T, a ∈ S) (hsub : ∀ a ∈ S, a ∈ T ∨ a ∈ L)
    (hrest : ∀ a ∈ L, a ∈ S ∨ HasAbove rank n S (rank a)) :
    IsTop rank n (Q ∪ L) (S.take n) where
  nodup := hS.sublist (List.take_sublist n S)
  subset := by
    intro a ha
    cases hsub a (List.mem_of_mem_take ha) with
    | inl hmem => exact Or.inl (h.subset a hmem)
    | inr hmem => exact Or.inr hmem
  sorted := hsorted.sublist (List.take_sublist n S)
  length_le := List.length_take_le n S
  outranked := by
    intro a ha hnot
    by_cases hmem : a ∈ S
    · refine ⟨?_, fun b hb => rank_le_of_not_mem_take hsorted hmem hnot hb⟩
      have hlt : n < S.length := by
        by_contra hle
        rw [List.take_of_length_le (not_lt.mp hle)] at hnot
        exact hnot hmem
      exact List.length_take_of_le (Nat.le_of_lt hlt)
    · apply take_outranks hsorted
      cases ha with
      | inl ha => exact (h.hasAbove ha (fun hmemT => hmem (hT a hmemT))).mono hT
      | inr ha => exact (hrest a ha).resolve_left hmem

end Take
end Greatest
