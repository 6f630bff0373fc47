import TopWallets.CellBuilder

/- `Dict` of Complex.Collections, a finite map with text keys, as the list of its
   entries in the order they were added. `Add` refuses a key that is there. -/
namespace Ton

abbrev Dict (α : Type) := List (List Char × α)

namespace Dict
variable {α : Type}

def keys (d : Dict α) : List (List Char) := d.map Prod.fst

instance (d : Dict α) (k : List Char) : Decidable (k ∈ d.keys) :=
  inferInstanceAs (Decidable (k ∈ d.map Prod.fst))

def add (d : Dict α) (k : List Char) (v : α) : Except Exception (Dict α) :=
  if k ∈ d.keys then .error .duplicateKey else .ok (d ++ [(k, v)])

/-- `d[k] = v`. -/
def set (d : Dict α) (k : List Char) (v : α) : Dict α :=
  if k ∈ d.keys then d.map (fun e => if e.1 = k then (k, v) else e) else d ++ [(k, v)]

theorem lookup_cons_of_ne {κ : Type} [BEq κ] [LawfulBEq κ] {k k' : κ} (h : k' ≠ k) (v : α)
    (d : List (κ × α)) : List.lookup k' ((k, v) :: d) = d.lookup k' := by
  rw [List.lookup_cons, beq_false_of_ne h]

theorem lookup_map_set (d : Dict α) (k : List Char) (v : α) (k' : List Char) :
    (d.map (fun e => if e.1 = k then (k, v) else e)).lookup k' =
      if k' = k ∧ k ∈ d.keys then some v else d.lookup k' := by
  induction d with
  | nil => simp [keys]
  | cons e d ih =>
    obtain ⟨ke, ve⟩ := e
    rw [List.map_cons]
    by_cases he : ke = k
    · subst he
      rw [if_pos rfl]
      by_cases hk : k' = ke
      · simp [hk, keys]
      · rw [lookup_cons_of_ne hk, lookup_cons_of_ne hk, ih, if_neg (fun h => hk h.1),
          if_neg (fun h => hk h.1)]
    · rw [if_neg he]
      by_cases hk : k' = ke
      · subst hk
        simp [he]
      · rw [lookup_cons_of_ne hk, lookup_cons_of_ne hk, ih]
        have hkeys : k ∈ keys ((ke, ve) :: d) ↔ k ∈ keys d := by
          rw [keys, List.map_cons, List.mem_cons]
          exact or_iff_right (Ne.symm he)
        exact if_congr (and_congr_right fun _ => hkeys.symm) rfl rfl

theorem lookup_set (d : Dict α) (k : List Char) (v : α) (k' : List Char) :
    (d.set k v).lookup k' = if k' = k then some v else d.lookup k' := by
  rw [set]
  split
  · rename_i hmem
    rw [lookup_map_set]
    simp [hmem]
  · rename_i hmem
    have hnone : d.lookup k = none := by
      rw [List.lookup_eq_none_iff]
      intro e he
      simp only [bne_iff_ne, ne_eq]
      rintro rfl
      exact hmem (List.mem_map_of_mem he)
    rw [List.lookup_append]
    by_cases hk : k' = k
    · simp [hk, hnone]
    · rw [if_neg hk, lookup_cons_of_ne hk, List.lookup_nil, Option.or_none]

theorem add_eq {d : Dict α} {k : List Char} (h : k ∉ d.keys) (v : α) :
    d.add k v = .ok (d ++ [(k, v)]) := by
  rw [add, if_neg h]

theorem length_add {d d' : Dict α} {k : List Char} {v : α} (h : d.add k v = .ok d') :
    d'.length = d.length + 1 := by
  rw [add] at h
  split at h
  · cases h
  · obtain rfl := Except.ok.inj h
    simp

/-- `Substring`, which raises on a text too short for it. -/
def substring (k : List Char) (start : Nat) : Except Exception (List Char) :=
  if start ≤ k.length then .ok (k.drop start) else .error .argumentOutOfRange

/-- A loop whose every round makes its result larger by one. -/
theorem foldlM_size {β γ : Type} (size : β → Nat) {step : β → γ → Except Exception β}
    (hstep : ∀ b x b', step b x = .ok b' → size b' = size b + 1) {xs : List γ} {b b' : β}
    (h : xs.foldlM step b = .ok b') : size b' = size b + xs.length := by
  induction xs generalizing b with
  | nil =>
    obtain rfl := Except.ok.inj h
    rfl
  | cons x xs ih =>
    rw [List.foldlM_cons] at h
    obtain ⟨b₁, h₁, h⟩ := bind_ok_iff.1 h
    rw [ih h, hstep _ _ _ h₁, List.length_cons]
    omega

/-- A loop that adds every entry of a map under a new key, the new keys distinct. -/
theorem foldlM_add {f : List Char × α → List Char}
    {step : Dict α → List Char × α → Except Exception (Dict α)} {src : Dict α}
    (hstep : ∀ res, ∀ e ∈ src, step res e = res.add (f e) e.2) (res : Dict α)
    (hnew : ((src.map f)).Nodup) (hres : ∀ e ∈ src, f e ∉ res.keys) :
    src.foldlM step res = .ok (res ++ src.map (fun e => (f e, e.2))) := by
  induction src generalizing res with
  | nil => simp [pure, Except.pure]
  | cons e src ih =>
    rw [List.map_cons, List.nodup_cons] at hnew
    have hadd := hstep res e (by simp)
    rw [add_eq (hres e (by simp))] at hadd
    rw [List.foldlM_cons, hadd]
    have hrest :=
      ih (fun res e' he' => hstep res e' (by simp [he'])) (res ++ [(f e, e.2)]) hnew.2 ?_
    · rw [List.append_assoc] at hrest
      exact hrest
    · intro e' he'
      rw [keys, List.map_append, List.mem_append, not_or]
      refine ⟨hres e' (by simp [he']), ?_⟩
      simp only [List.map_cons, List.map_nil, List.mem_singleton]
      rintro heq
      exact hnew.1 (List.mem_map.2 ⟨e', he', heq⟩)

end Dict

end Ton
