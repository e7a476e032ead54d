import Mathlib

/-! Lists of records searched by a key: tables, open-object lists and heaps of C programs. The
lemmas are for lists in which no key occurs twice. -/
namespace Keyed
variable {α κ : Type} [DecidableEq κ] (key : α → κ)

/-- The first record with the key. -/
def lookup (k : κ) (l : List α) : Option α := l.find? fun a => key a = k

/-- Every record with the key of `a` is replaced by `a`. -/
def update (a : α) (l : List α) : List α := l.map fun b => if key b = key a then a else b

def remove (k : κ) (l : List α) : List α := l.filter fun a => key a ≠ k

variable {key} {k : κ} {a b : α} {l : List α}

theorem lookup_mem (h : lookup key k l = some a) : a ∈ l ∧ key a = k :=
  ⟨List.mem_of_find?_eq_some h,by simpa using List.find?_some h⟩

theorem lookup_eq_none : lookup key k l = none ↔ ∀ a ∈ l, key a ≠ k := by
  simp [lookup,List.find?_eq_none]

omit [DecidableEq κ] in
theorem key_injective (hl : (l.map key).Nodup) (ha : a ∈ l) (hb : b ∈ l) (h : key a = key b) : a = b :=
  List.inj_on_of_nodup_map hl ha hb h

theorem lookup_eq_some (hl : (l.map key).Nodup) : lookup key k l = some a ↔ a ∈ l ∧ key a = k := by
  refine ⟨lookup_mem,fun h => ?_⟩
  obtain ⟨ha,rfl⟩ := h
  cases hf : lookup key (key a) l with
  | none => exact absurd rfl (lookup_eq_none.mp hf a ha)
  | some b =>
    obtain ⟨hb,he⟩ := lookup_mem hf
    rw [key_injective hl hb ha he]

@[simp] theorem map_update (a : α) (l : List α) : (update key a l).map key = l.map key := by
  simp only [update,List.map_map]
  refine List.map_congr_left fun b _ => ?_
  simp only [Function.comp_apply]
  split <;> simp_all

theorem mem_update : b ∈ update key a l ↔ b ∈ l ∧ key b ≠ key a ∨ b = a ∧ ∃ c ∈ l, key c = key a := by
  simp only [update,List.mem_map]
  constructor
  · intro h
    obtain ⟨c,hc,he⟩ := h
    split at he
    · exact .inr ⟨he.symm,c,hc,‹_›⟩
    · exact .inl (he ▸ ⟨hc,‹_›⟩)
  · intro h
    cases h with
    | inl h => exact ⟨b,h.1,if_neg h.2⟩
    | inr h =>
      obtain ⟨rfl,c,hc,he⟩ := h
      exact ⟨c,hc,if_pos he⟩

theorem update_update (h : key a = key b) : update key b (update key a l) = update key b l := by
  simp only [update,List.map_map]
  refine List.map_congr_left fun c _ => ?_
  simp only [Function.comp_apply]
  by_cases hc : key c = key a
  · rw [if_pos hc,if_pos h,if_pos (hc.trans h)]
  · rw [if_neg hc]

theorem update_self (hl : (l.map key).Nodup) (ha : a ∈ l) : update key a l = l := by
  unfold update
  conv_rhs => rw [← List.map_id l]
  refine List.map_congr_left fun b hb => ?_
  split
  · exact (key_injective hl hb ha ‹_›).symm
  · rfl

/-- Replacing a record keeps another key distinct if the new record has the old one's. -/
theorem map_update_of_eq {β : Type} (f : α → β) (h : ∀ b ∈ l, key b = key a → f b = f a) :
    (update key a l).map f = l.map f := by
  simp only [update,List.map_map]
  refine List.map_congr_left fun b hb => ?_
  simp only [Function.comp_apply]
  split
  · exact (h b hb ‹_›).symm
  · rfl

@[simp] theorem mem_remove : a ∈ remove key k l ↔ a ∈ l ∧ key a ≠ k := by simp [remove]

theorem nodup_remove {β : Type} {f : α → β} (h : (l.map f).Nodup) : ((remove key k l).map f).Nodup :=
  h.sublist (List.filter_sublist.map f)

theorem lookup_remove_self : lookup key k (remove key k l) = none :=
  lookup_eq_none.mpr fun _ ha => (mem_remove.mp ha).2

theorem lookup_remove_ne {k' : κ} (h : k' ≠ k) : lookup key k' (remove key k l) = lookup key k' l := by
  induction l with
  | nil => rfl
  | cons a l ih =>
    unfold lookup remove at ih ⊢
    rw [List.filter_cons]
    split
    · rw [List.find?_cons,List.find?_cons,ih]
    · rename_i hk
      have ha : key a = k := by simpa using hk
      have hne : decide (key a = k') = false := decide_eq_false fun he => h (he.symm.trans ha)
      rw [ih,List.find?_cons,hne]

theorem lookup_update_self (h : ∃ c ∈ l, key c = key a) : lookup key (key a) (update key a l) = some a := by
  induction l with
  | nil => simp at h
  | cons b l ih =>
    unfold lookup update at ih ⊢
    rw [List.map_cons,List.find?_cons]
    by_cases hb : key b = key a
    · rw [if_pos hb,decide_eq_true rfl]
    · rw [if_neg hb,decide_eq_false hb]
      exact ih (by simpa [hb] using h)

theorem lookup_update_ne (h : k ≠ key a) : lookup key k (update key a l) = lookup key k l := by
  induction l with
  | nil => rfl
  | cons b l ih =>
    unfold lookup update at ih ⊢
    rw [List.map_cons,List.find?_cons,List.find?_cons,ih]
    by_cases hb : key b = key a
    · rw [if_pos hb,decide_eq_false (Ne.symm h),decide_eq_false fun he => h (he.symm.trans hb)]
    · rw [if_neg hb]

end Keyed
