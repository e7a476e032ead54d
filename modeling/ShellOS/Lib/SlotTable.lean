import Mathlib

/-! Tables of reusable slots: a list in which an element is either in use, and then has a key, or
leaves a hole. -/
namespace SlotTable

variable {α κ : Type}

/-- The first place from `i` on whose element has the property, or the end of the list. -/
def scan (p : α → Bool) (l : List α) (i : ℕ) : ℕ := i + (l.drop i).findIdx p

/-- An element put into a slot, or behind the last one. -/
def put (l : List α) (i : ℕ) (a : α) : List α := if i < l.length then l.set i a else l ++ [a]

section
variable {p : α → Bool} {l : List α} {i j : ℕ} {a b : α}

theorem scan_of_ge (h : l.length ≤ i) : scan p l i = i := by
  rw [scan,List.drop_eq_nil_of_le h]
  rfl

theorem scan_of_true (h : l[i]? = some a) (ha : p a = true) : scan p l i = i := by
  obtain ⟨hi,rfl⟩ := List.getElem?_eq_some_iff.mp h
  rw [scan,List.drop_eq_getElem_cons hi,List.findIdx_cons,ha]
  rfl

theorem scan_of_false (h : l[i]? = some a) (ha : p a = false) : scan p l i = scan p l (i+1) := by
  obtain ⟨hi,rfl⟩ := List.getElem?_eq_some_iff.mp h
  rw [scan,scan,List.drop_eq_getElem_cons hi,List.findIdx_cons,ha]
  simp only [cond_false]
  omega

theorem le_scan : i ≤ scan p l i := Nat.le_add_right i _

theorem scan_le (h : i ≤ l.length) : scan p l i ≤ l.length := by
  have hle : (l.drop i).findIdx p ≤ (l.drop i).length := List.findIdx_le_length
  rw [List.length_drop] at hle
  unfold scan
  omega

theorem scan_hit (h : l[scan p l i]? = some a) : p a = true := by
  rw [scan,← List.getElem?_drop] at h
  obtain ⟨hlt,rfl⟩ := List.getElem?_eq_some_iff.mp h
  exact List.findIdx_getElem

theorem scan_skip (hij : i ≤ j) (hj : j < scan p l i) (h : l[j]? = some a) : p a = false := by
  have hlt : j - i < (l.drop i).findIdx p := by
    unfold scan at hj
    omega
  have hget : (l.drop i)[j - i]? = some a := by
    rw [List.getElem?_drop,Nat.add_sub_cancel' hij]
    exact h
  obtain ⟨hlt',rfl⟩ := List.getElem?_eq_some_iff.mp hget
  exact Bool.not_eq_true _ ▸ List.not_of_lt_findIdx hlt

theorem getElem?_put (hi : i ≤ l.length) (a : α) (j : ℕ) : (put l i a)[j]? = if j = i then some a else l[j]? := by
  unfold put
  split
  · rw [List.getElem?_set]
    by_cases hj : i = j
    · subst hj
      simp [*]
    · rw [if_neg hj,if_neg (Ne.symm hj)]
  · have hie : i = l.length := by omega
    subst hie
    rw [List.getElem?_append]
    by_cases hj : j < l.length
    · rw [if_pos hj,if_neg (by omega)]
    · rw [if_neg hj]
      by_cases he : j = l.length
      · subst he
        simp
      · rw [if_neg he,List.getElem?_eq_none (by simp; omega),List.getElem?_eq_none (by omega)]

theorem length_le_put (l : List α) (i : ℕ) (a : α) : l.length ≤ (put l i a).length := by
  unfold put
  split
  · rw [List.length_set]
  · rw [List.length_append]
    exact Nat.le_add_right _ _

end

/-! ### Elements in use -/

section
variable (used : α → Bool) (key : α → κ)

/-- No two slots in use have one key. -/
def Distinct (l : List α) : Prop :=
  ∀ (i j : ℕ) a b, l[i]? = some a → l[j]? = some b → used a = true → used b = true → key a = key b → i = j

/-- The keys in use from a slot on, in order. -/
def keys (l : List α) (i : ℕ) : List κ := ((l.drop i).filter used).map key

variable {used key} {l : List α} {i j : ℕ} {a b : α}

theorem mem_keys {k : κ} : k ∈ keys used key l i ↔ ∃ (j : ℕ) (a : α), i ≤ j ∧ l[j]? = some a ∧ used a = true ∧ key a = k := by
  constructor
  · intro h
    obtain ⟨a,ha,rfl⟩ := List.mem_map.mp h
    obtain ⟨hm,hu⟩ := List.mem_filter.mp ha
    obtain ⟨j,hj⟩ := List.mem_iff_getElem?.mp hm
    rw [List.getElem?_drop] at hj
    exact ⟨i + j,a,Nat.le_add_right i j,hj,hu,rfl⟩
  · rintro ⟨j,a,hij,hj,hu,rfl⟩
    refine List.mem_map_of_mem (List.mem_filter.mpr ⟨List.mem_iff_getElem?.mpr ⟨j - i,?_⟩,hu⟩)
    rw [List.getElem?_drop,Nat.add_sub_cancel' hij]
    exact hj

/-- The keys from a slot on, by the scan for the next element in use. -/
theorem keys_scan (used : α → Bool) (key : α → κ) (l : List α) (i : ℕ) : keys used key l i =
    match l[scan used l i]? with
    | none => []
    | some a => key a::keys used key l (scan used l i + 1) := by
  induction hn : l.length - i generalizing i with
  | zero =>
    have hle : l.length ≤ i := by omega
    rw [scan_of_ge hle,List.getElem?_eq_none hle,keys,List.drop_eq_nil_of_le hle]
    rfl
  | succ n ih =>
    have hi : i < l.length := by omega
    have hget := List.getElem?_eq_getElem hi
    have hdrop := List.drop_eq_getElem_cons hi
    cases hu : used l[i] with
    | true =>
      rw [scan_of_true hget hu,hget]
      unfold keys
      rw [hdrop,List.filter_cons_of_pos hu,List.map_cons]
    | false =>
      have hkeys : keys used key l i = keys used key l (i + 1) := by
        unfold keys
        rw [hdrop,List.filter_cons_of_neg (by rw [hu]; exact Bool.false_ne_true)]
      rw [scan_of_false hget hu,hkeys]
      exact ih (i + 1) (by omega)

theorem Distinct.nodup_keys (h : Distinct used key l) (i : ℕ) : (keys used key l i).Nodup := by
  have hp : (l.filter used).Pairwise fun a b => key a ≠ key b := by
    refine (List.pairwise_filter ..).mpr (List.pairwise_iff_getElem.mpr fun m n hm hn hmn ha hb he => ?_)
    have := h m n _ _ (List.getElem?_eq_getElem hm) (List.getElem?_eq_getElem hn) ha hb he
    omega
  exact List.pairwise_map.mpr (hp.sublist ((List.drop_sublist i l).filter used))

/-- A new key goes into a hole. -/
theorem Distinct.put (h : Distinct used key l) (hi : i ≤ l.length)
    (hfresh : ∀ j b, j ≠ i → l[j]? = some b → used b = true → key b ≠ key a) : Distinct used key (put l i a) := by
  intro m n b c hm hn hb hc he
  rw [getElem?_put hi] at hm hn
  split_ifs at hm hn with h1 h2 h2
  · exact h1.trans h2.symm
  · obtain rfl := Option.some.inj hm
    exact absurd he.symm (hfresh n c h2 hn hc)
  · obtain rfl := Option.some.inj hn
    exact absurd he (hfresh m b h1 hm hb)
  · exact h m n b c hm hn hb hc he

/-- An element taken out of use. -/
theorem Distinct.clear (h : Distinct used key l) (hi : i ≤ l.length) (ha : used a = false) :
    Distinct used key (SlotTable.put l i a) := by
  intro m n b c hm hn hb hc he
  rw [getElem?_put hi] at hm hn
  split_ifs at hm hn with h1 h2 h2
  · exact h1.trans h2.symm
  · obtain rfl := Option.some.inj hm
    simp [ha] at hb
  · obtain rfl := Option.some.inj hn
    simp [ha] at hc
  · exact h m n b c hm hn hb hc he

end

/-! ### Searching by key -/

section
variable [DecidableEq κ] {used : α → Bool} {key : α → κ} {l : List α} {i j : ℕ} {a : α} {k : κ}

/-- What the search for a key from a slot on returns: the slot and its element. -/
theorem scan_key_iff (h : Distinct used key l) :
    (scan (fun a => used a && decide (k = key a)) l i = j ∧ l[j]? = some a) ↔
      i ≤ j ∧ l[j]? = some a ∧ used a = true ∧ key a = k := by
  constructor
  · rintro ⟨rfl,ha⟩
    have hp := scan_hit ha
    rw [Bool.and_eq_true,decide_eq_true_eq] at hp
    exact ⟨le_scan,ha,hp.1,hp.2.symm⟩
  · rintro ⟨hij,ha,hu,hk⟩
    have hp : (used a && decide (k = key a)) = true := by
      rw [Bool.and_eq_true,decide_eq_true_eq]
      exact ⟨hu,hk.symm⟩
    refine ⟨?_,ha⟩
    have hle : scan (fun a => used a && decide (k = key a)) l i ≤ j := by
      by_contra hlt
      have := scan_skip hij (Nat.lt_of_not_le hlt) ha
      rw [hp] at this
      exact absurd this (by decide)
    have hlen : scan (fun a => used a && decide (k = key a)) l i < l.length :=
      hle.trans_lt (List.getElem?_eq_some_iff.mp ha).1
    have hget := List.getElem?_eq_getElem hlen
    have hq := scan_hit hget
    rw [Bool.and_eq_true,decide_eq_true_eq] at hq
    exact h _ _ _ _ hget ha hq.1 hu (hq.2.symm.trans hk.symm)

end
end SlotTable
