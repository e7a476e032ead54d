import Mathlib

/-! Natural merge sort: a list as its runs, in which no element is less than the one before it, and the sorted list that
keeps the order of elements of the same rank. -/
namespace RunSort
variable {α : Type} {less : α → α → Bool} {a b : α} {l : List α}

/-- Some element is not less than the one before it. -/
def notLess (less : α → α → Bool) (a b : α) : Bool := !less b a

/-- How often an element is less than the one before it. -/
def descents (less : α → α → Bool) : List α → ℕ
  | a::b::l => (if less b a then 1 else 0) + descents less (b::l)
  | _ => 0

theorem descents_eq_zero (hl : l.IsChain (notLess less · ·)) : descents less l = 0 := by
  induction l with
  | nil => rfl
  | cons a l ih =>
    cases l with
    | nil => rfl
    | cons b l =>
      obtain ⟨hab,hl⟩ := List.isChain_cons_cons.mp hl
      have hlt : less b a = false := by simpa [notLess] using hab
      rw [descents,hlt,ih hl]
      rfl

theorem isChain_of_descents (hl : descents less l = 0) : l.IsChain (notLess less · ·) := by
  induction l with
  | nil => exact .nil
  | cons a l ih =>
    cases l with
    | nil => exact .singleton a
    | cons b l =>
      rw [descents] at hl
      refine List.isChain_cons_cons.mpr ⟨?_,ih (by omega)⟩
      cases hlt : less b a with
      | true => simp [hlt] at hl
      | false => simp [notLess,hlt]

/-- Where two lists are put together there is one more descent at most. -/
theorem descents_append_le (less : α → α → Bool) (l r : List α) : descents less (l ++ r) ≤ descents less l + descents less r + 1 := by
  induction l with
  | nil =>
    rw [List.nil_append]
    omega
  | cons a l ih =>
    cases l with
    | nil =>
      have hone : descents less [a] = 0 := rfl
      cases r with
      | nil => simp [hone]
      | cons b r =>
        rw [List.singleton_append,descents,hone]
        split <;> omega
    | cons b l =>
      rw [List.cons_append,List.cons_append,descents,descents]
      rw [List.cons_append] at ih
      omega

theorem descents_le (less : α → α → Bool) (l : List α) : descents less l ≤ l.length := by
  induction l with
  | nil => simp [descents]
  | cons a l ih =>
    cases l with
    | nil => simp [descents]
    | cons b l =>
      rw [descents,List.length_cons]
      split <;> omega

/-- Elements that are not less than an earlier one have kept their order. -/
def InOrder (less : α → α → Bool) (i : α → ℕ) (l : List α) : Prop := l.Pairwise fun a b => notLess less b a → i a ≤ i b

/-- `less` is a strict weak order. -/
structure Weak (less : α → α → Bool) : Prop where
  trans : ∀ a b c, notLess less a b → notLess less b c → notLess less a c
  total : ∀ a b, notLess less a b || notLess less b a

/-- The order of a stable sort: elements of the same rank by their place. -/
def placed (less : α → α → Bool) (i : α → ℕ) (a b : α) : Bool := notLess less a b && (!notLess less b a || decide (i a ≤ i b))

theorem placed_iff {i : α → ℕ} : placed less i a b = true ↔ notLess less a b ∧ (notLess less b a → i a ≤ i b) := by
  rw [placed,Bool.and_eq_true,Bool.or_eq_true,Bool.not_eq_true',decide_eq_true_iff]
  cases notLess less b a <;> simp

theorem Weak.pairwise (hw : Weak less) (hl : l.IsChain (notLess less · ·)) : l.Pairwise (notLess less · ·) := by
  have : IsTrans α (notLess less · ·) := ⟨hw.trans⟩
  exact List.isChain_iff_pairwise.mp hl

theorem Weak.placed_trans (hw : Weak less) (i : α → ℕ) (a b c : α) (hab : placed less i a b) (hbc : placed less i b c) :
    placed less i a c := by
  obtain ⟨h₁,h₂⟩ := placed_iff.mp hab
  obtain ⟨h₃,h₄⟩ := placed_iff.mp hbc
  refine placed_iff.mpr ⟨hw.trans a b c h₁ h₃,fun hca => ?_⟩
  exact (h₂ (hw.trans b c a h₃ hca)).trans (h₄ (hw.trans c a b hca h₁))

theorem Weak.placed_total (hw : Weak less) (i : α → ℕ) (a b : α) : placed less i a b || placed less i b a := by
  rw [Bool.or_eq_true,placed_iff,placed_iff]
  have ht := hw.total a b
  rw [Bool.or_eq_true] at ht
  rcases le_total (i a) (i b) with hi | hi
  · by_cases hab : notLess less a b = true
    · exact .inl ⟨hab,fun _ => hi⟩
    · exact .inr ⟨ht.resolve_left hab,fun hc => absurd hc hab⟩
  · by_cases hba : notLess less b a = true
    · exact .inr ⟨hba,fun _ => hi⟩
    · exact .inl ⟨ht.resolve_right hba,fun hc => absurd hc hba⟩

theorem merge_congr {le le' : α → α → Bool} {A B : List α} (hc : ∀ a ∈ A, ∀ b ∈ B, le a b = le' a b) : A.merge B le = A.merge B le' := by
  induction A generalizing B with
  | nil => simp
  | cons a A ihA =>
    induction B with
    | nil => simp
    | cons b B ihB =>
      have hab := hc a List.mem_cons_self b List.mem_cons_self
      rw [List.cons_merge_cons,List.cons_merge_cons,hab]
      split
      · rw [ihA fun x hx y hy => hc x (List.mem_cons_of_mem a hx) y hy]
      · rw [ihB fun x hx y hy => hc x hx y (List.mem_cons_of_mem b hy)]

/-- Merging two sorted parts sorts them, and keeps the order of elements of the same rank. -/
theorem Weak.merge (hw : Weak less) {i : α → ℕ} {A B : List α} (hA : A.IsChain (notLess less · ·)) (hB : B.IsChain (notLess less · ·))
    (hi : InOrder less i (A ++ B)) : (A.merge B (notLess less)).Pairwise (placed less i · ·) := by
  obtain ⟨hiA,hiB,hiAB⟩ := List.pairwise_append.mp hi
  have hagree : ∀ a ∈ A, ∀ b ∈ B, notLess less a b = placed less i a b := fun a ha b hb => by
    rw [Bool.eq_iff_iff,placed_iff]
    exact ⟨fun h => ⟨h,hiAB a ha b hb⟩,And.left⟩
  rw [merge_congr hagree]
  refine List.pairwise_merge (hw.placed_trans i) (hw.placed_total i) A B ?_ ?_
  · exact (List.Pairwise.and (hw.pairwise hA) hiA).imp fun h => placed_iff.mpr h
  · exact (List.Pairwise.and (hw.pairwise hB) hiB).imp fun h => placed_iff.mpr h

theorem idxOf_pairwise [DecidableEq α] (hl : l.Nodup) : l.Pairwise fun a b => l.idxOf a < l.idxOf b := by
  refine List.pairwise_iff_getElem.mpr fun i j hi hj hij => ?_
  rw [hl.idxOf_getElem i hi,hl.idxOf_getElem j hj]
  exact hij

theorem inOrder_idxOf [DecidableEq α] (hl : l.Nodup) : InOrder less l.idxOf l :=
  (idxOf_pairwise hl).imp fun h _ => h.le

theorem pair_sublist [DecidableEq α] (ha : a ∈ l) (hb : b ∈ l) (hlt : l.idxOf a < l.idxOf b) : [a,b].Sublist l := by
  induction l with
  | nil => simp at ha
  | cons c l ih =>
    have hbc : b ≠ c := fun hc => by simp [hc] at hlt
    have hbl := (List.mem_cons.mp hb).resolve_left hbc
    by_cases hac : a = c
    · rw [hac]
      exact (List.singleton_sublist.mpr hbl).cons_cons c
    · have hal := (List.mem_cons.mp ha).resolve_left hac
      rw [List.idxOf_cons_ne _ (Ne.symm hac),List.idxOf_cons_ne _ (Ne.symm hbc)] at hlt
      exact (ih hal hbl (by omega)).cons c

/-- The list sorted so that elements of the same rank stay in order is unique. -/
theorem Weak.eq_mergeSort [DecidableEq α] {s : List α} (hw : Weak less) (hl : l.Nodup) (hperm : s.Perm l)
    (hs : s.Pairwise (placed less l.idxOf · ·)) : s = l.mergeSort (notLess less) := by
  have hsorted := List.mergeSort_perm l (notLess less)
  have hnd : (l.mergeSort (notLess less)).Nodup := hsorted.nodup_iff.mpr hl
  have hplaced : (l.mergeSort (notLess less)).Pairwise (placed less l.idxOf · ·) := by
    refine List.pairwise_iff_forall_sublist.mpr fun {a b} hab => placed_iff.mpr ⟨?_,fun hba => ?_⟩
    · exact List.pairwise_iff_forall_sublist.mp (List.pairwise_mergeSort hw.trans hw.total l) hab
    · by_contra hlt
      have ha := hsorted.mem_iff.mp (hab.subset List.mem_cons_self)
      have hb := hsorted.mem_iff.mp (hab.subset (List.mem_cons_of_mem a List.mem_cons_self))
      have hback := List.pair_sublist_mergeSort hw.trans hw.total hba (pair_sublist hb ha (not_le.mp hlt))
      have h₁ := List.pairwise_iff_forall_sublist.mp (idxOf_pairwise hnd) hab
      have h₂ := List.pairwise_iff_forall_sublist.mp (idxOf_pairwise hnd) hback
      omega
  refine (hperm.trans hsorted.symm).eq_of_pairwise (fun a b ha hb hab hba => ?_) hs hplaced
  obtain ⟨h₁,h₂⟩ := placed_iff.mp hab
  obtain ⟨h₃,h₄⟩ := placed_iff.mp hba
  exact (List.idxOf_inj (hperm.mem_iff.mp ha)).mp (le_antisymm (h₂ h₃) (h₄ h₁))

end RunSort
