import Mathlib

/-! Ages that a clock gives to things when they are used, and the order in which they were used last. -/
namespace Recency

/-- A use of `i`. -/
inductive Use (ι : Type)
  | load (i : ι)
  | fetch (i : ι)
  deriving DecidableEq

variable {ι : Type}

def Use.item : Use ι → ι
  | load i => i
  | fetch i => i

def Use.isLoad : Use ι → Bool
  | load _ => true
  | fetch _ => false

structure Clock (ι : Type) where
  age : ι → ℤ
  now : ℤ

/-! ### Histories, with the latest use first -/

variable {H : List (Use ι)} {u : Use ι} {i j : ι}

def Used (H : List (Use ι)) (i : ι) : Prop := ∃ u ∈ H, u.item = i

theorem not_used_nil : ¬ Used ([] : List (Use ι)) i := by
  rintro ⟨u,hu,-⟩
  cases hu

theorem used_cons_iff : Used (u::H) i ↔ u.item = i ∨ Used H i := by simp [Used]

variable [DecidableEq ι]

/-- The uses after the last one of `i`. -/
def since (i : ι) (H : List (Use ι)) : List (Use ι) := H.takeWhile fun u => decide (u.item ≠ i)

/-- The uses up to the last one of `i`. -/
def upTo (i : ι) (H : List (Use ι)) : List (Use ι) := H.dropWhile fun u => decide (u.item ≠ i)

/-- `i` was used last before `j` was. -/
def Before (H : List (Use ι)) (i j : ι) : Prop := Used (since i H) j

/-- `i` was loaded last, and from then to the last use of `j` there were only loads. -/
def Tied (H : List (Use ι)) (i j : ι) : Prop :=
  Before H i j ∧ (upTo i H).head? = some (.load i) ∧ ∀ u ∈ upTo j (since i H), u.isLoad = true

@[simp] theorem since_cons_self (h : u.item = i) : since i (u::H) = [] := by simp [since,h]

@[simp] theorem since_cons_of_ne (h : u.item ≠ i) : since i (u::H) = u::since i H := by simp [since,h]

@[simp] theorem upTo_cons_self (h : u.item = i) : upTo i (u::H) = u::H := by simp [upTo,h]

@[simp] theorem upTo_cons_of_ne (h : u.item ≠ i) : upTo i (u::H) = upTo i H := by simp [upTo,h]

theorem not_before_self : ¬ Before H i i := by
  rintro ⟨u,hu,hi⟩
  unfold since at hu
  simpa [hi] using List.mem_takeWhile_imp hu

theorem Before.length_lt (h : Before H i j) : (since j H).length < (since i H).length := by
  induction H with
  | nil => exact absurd h not_used_nil
  | cons u H ih =>
    by_cases hi : u.item = i
    · rw [Before,since_cons_self hi] at h
      exact absurd h not_used_nil
    · rw [Before,since_cons_of_ne hi,used_cons_iff] at h
      rw [since_cons_of_ne hi]
      by_cases hj : u.item = j
      · rw [since_cons_self hj]
        exact Nat.succ_pos _
      · rw [since_cons_of_ne hj]
        exact Nat.succ_lt_succ (ih (h.resolve_left hj))

theorem before_or (hi : Used H i) (hj : Used H j) (hne : i ≠ j) : Before H i j ∨ Before H j i := by
  induction H with
  | nil => exact absurd hi not_used_nil
  | cons u H ih =>
    rw [used_cons_iff] at hi hj
    by_cases hui : u.item = i
    · right
      rw [Before,since_cons_of_ne (hui ▸ hne),used_cons_iff]
      exact .inl hui
    · by_cases huj : u.item = j
      · left
        rw [Before,since_cons_of_ne hui,used_cons_iff]
        exact .inl huj
      · rw [Before,Before,since_cons_of_ne hui,since_cons_of_ne huj,used_cons_iff,used_cons_iff]
        exact (ih (hi.resolve_left hui) (hj.resolve_left huj)).imp .inr .inr

/-- Of finitely many things, all of them used, there is one used last before the others. -/
theorem exists_leastRecent {s : Finset ι} (hs : s.Nonempty) (hused : ∀ i ∈ s, Used H i) :
    ∃ i ∈ s, ∀ j ∈ s, j ≠ i → Before H i j := by
  obtain ⟨i,hi,hmax⟩ := s.exists_max_image (fun i => (since i H).length) hs
  refine ⟨i,hi,fun j hj hne => ?_⟩
  rcases before_or (hused i hi) (hused j hj) hne.symm with h | h
  · exact h
  · exact absurd h.length_lt (hmax j hj).not_gt

/-! ### The clock -/

section
variable (first step : ℤ)

/-- A load takes the time as it is; a fetch lets time pass. -/
def Clock.use (C : Clock ι) : Use ι → Clock ι
  | .load i => ⟨Function.update C.age i C.now,C.now⟩
  | .fetch i => ⟨Function.update C.age i (C.now + first),C.now + step⟩

def Clock.after (C : Clock ι) (H : List (Use ι)) : Clock ι := H.foldr (fun u C => C.use first step u) C

end

variable {first step : ℤ} {C : Clock ι}

theorem Clock.age_use_of_ne (h : u.item ≠ i) : (C.use first step u).age i = C.age i := by
  cases u with
  | load j => exact Function.update_of_ne (Ne.symm h) _ _
  | fetch j => exact Function.update_of_ne (Ne.symm h) _ _

theorem Clock.age_load (C : Clock ι) (i : ι) : (C.use first step (.load i)).age i = C.now := Function.update_self _ _ _

theorem Clock.age_fetch (C : Clock ι) (i : ι) : (C.use first step (.fetch i)).age i = C.now + first :=
  Function.update_self _ _ _

theorem Clock.now_le_use (hstep : 0 ≤ step) (C : Clock ι) (u : Use ι) : C.now ≤ (C.use first step u).now := by
  cases u with
  | load i => exact le_rfl
  | fetch i => exact le_add_of_nonneg_right hstep

theorem age_le_now (hfirst : 0 < first) (hstep : first < step) (hi : Used H i) :
    (C.after first step H).age i ≤ (C.after first step H).now := by
  induction H with
  | nil => exact absurd hi not_used_nil
  | cons u H ih =>
    change ((C.after first step H).use first step u).age i ≤ ((C.after first step H).use first step u).now
    by_cases hui : u.item = i
    · subst hui
      cases u with
      | load i => exact (Clock.age_load _ i).le
      | fetch i =>
        rw [Use.item,Clock.age_fetch]
        exact Int.add_le_add_left hstep.le _
    · rw [Clock.age_use_of_ne hui]
      have hle := ih ((used_cons_iff.mp hi).resolve_left hui)
      exact hle.trans (Clock.now_le_use (hfirst.trans hstep).le _ u)

/-- No time has passed since a load until there is a fetch. -/
theorem age_eq_now_iff (hfirst : 0 < first) (hstep : first < step) (hi : Used H i) :
    (C.after first step H).age i = (C.after first step H).now ↔
      (upTo i H).head? = some (.load i) ∧ ∀ u ∈ since i H, u.isLoad = true := by
  induction H with
  | nil => exact absurd hi not_used_nil
  | cons u H ih =>
    change ((C.after first step H).use first step u).age i = ((C.after first step H).use first step u).now ↔ _
    by_cases hui : u.item = i
    · rw [since_cons_self hui,upTo_cons_self hui]
      subst hui
      cases u with
      | load i => exact iff_of_true (Clock.age_load _ i) ⟨rfl,nofun⟩
      | fetch i =>
        rw [Use.item,Clock.age_fetch]
        refine iff_of_false (fun he => ?_) fun h => by cases h.1
        exact hstep.ne (Int.add_left_cancel he)
    · have hused := (used_cons_iff.mp hi).resolve_left hui
      rw [Clock.age_use_of_ne hui,since_cons_of_ne hui,upTo_cons_of_ne hui,List.forall_mem_cons]
      cases u with
      | load k =>
        exact (ih hused).trans (and_congr_right fun _ => (and_iff_right rfl).symm)
      | fetch k =>
        refine iff_of_false (fun he => ?_) fun h => Bool.noConfusion h.2.1
        have hle := age_le_now (C := C) hfirst hstep hused
        rw [he] at hle
        have hlt : (C.after first step H).now < (C.after first step H).now + step :=
          lt_add_of_pos_right _ (hfirst.trans hstep)
        exact absurd hle hlt.not_ge

/-- What was used last before something else is older, but for loads with no fetch between them. -/
theorem Before.age_le (hfirst : 0 < first) (hstep : first < step) (hi : Used H i) (h : Before H i j) :
    (C.after first step H).age i ≤ (C.after first step H).age j ∧
      ((C.after first step H).age i = (C.after first step H).age j ↔ Tied H i j) := by
  induction H with
  | nil => exact absurd hi not_used_nil
  | cons u H ih =>
    have hui : u.item ≠ i := by
      intro hui
      rw [Before,since_cons_self hui] at h
      exact not_used_nil h
    have hused := (used_cons_iff.mp hi).resolve_left hui
    have htied : Tied (u::H) i j ↔ (upTo i H).head? = some (.load i) ∧ ∀ v ∈ upTo j (u::since i H), v.isLoad = true := by
      rw [Tied,and_iff_right h,since_cons_of_ne hui,upTo_cons_of_ne hui]
    change ((C.after first step H).use first step u).age i ≤ ((C.after first step H).use first step u).age j ∧ (_ ↔ _)
    rw [htied]
    change _ ∧ (((C.after first step H).use first step u).age i = ((C.after first step H).use first step u).age j ↔ _)
    rw [Clock.age_use_of_ne hui]
    by_cases huj : u.item = j
    · have hle := age_le_now (C := C) hfirst hstep hused
      rw [upTo_cons_self huj,List.forall_mem_cons]
      subst huj
      cases u with
      | load j =>
        rw [Use.item,Clock.age_load]
        refine ⟨hle,(age_eq_now_iff hfirst hstep hused).trans ?_⟩
        exact and_congr_right fun _ => (and_iff_right rfl).symm
      | fetch j =>
        rw [Use.item,Clock.age_fetch]
        have hlt := hle.trans_lt (lt_add_of_pos_right _ hfirst)
        exact ⟨hlt.le,iff_of_false hlt.ne fun h => Bool.noConfusion h.2.1⟩
    · have hbefore : Before H i j := by
        rw [Before,since_cons_of_ne hui,used_cons_iff] at h
        exact h.resolve_left huj
      rw [Clock.age_use_of_ne huj,upTo_cons_of_ne huj]
      obtain ⟨hle,heq⟩ := ih hused hbefore
      exact ⟨hle,heq.trans (and_iff_right hbefore)⟩

/-! ### The first of the oldest -/

/-- A scan that keeps the first of the least. -/
theorem foldl_least {κ : Type} [LinearOrder κ] (age : κ → ℤ) : ∀ (l : List κ) (a : κ), (∀ b ∈ l, a ≤ b) → l.Pairwise (· ≤ ·) →
    l.foldl (fun a b => if age b < age a then b else a) a ∈ a::l ∧
      ∀ b ∈ a::l, age (l.foldl (fun a b => if age b < age a then b else a) a) ≤ age b ∧
        (age (l.foldl (fun a b => if age b < age a then b else a) a) = age b →
          l.foldl (fun a b => if age b < age a then b else a) a ≤ b) := by
  intro l
  induction l with
  | nil => simp
  | cons c l ih =>
    intro a ha hl
    obtain ⟨hc,hl⟩ := List.pairwise_cons.mp hl
    rw [List.foldl_cons]
    by_cases hlt : age c < age a
    · rw [if_pos hlt]
      obtain ⟨hmem,hleast⟩ := ih c hc hl
      refine ⟨List.mem_cons_of_mem a hmem,fun b hb => ?_⟩
      rcases List.mem_cons.mp hb with rfl | hb
      · have hlt' := (hleast c List.mem_cons_self).1.trans_lt hlt
        exact ⟨hlt'.le,fun he => absurd he hlt'.ne⟩
      · exact hleast b hb
    · rw [if_neg hlt]
      obtain ⟨hmem,hleast⟩ := ih a (fun b hb => ha b (List.mem_cons_of_mem c hb)) hl
      have hac : age a ≤ age c := not_lt.mp hlt
      refine ⟨?_,fun b hb => ?_⟩
      · rcases List.mem_cons.mp hmem with h | h
        · exact List.mem_cons.mpr (.inl h)
        · exact List.mem_cons_of_mem a (List.mem_cons_of_mem c h)
      · obtain ⟨hle,heq⟩ := hleast a List.mem_cons_self
        rcases List.mem_cons.mp hb with rfl | hb
        · exact ⟨hle,heq⟩
        · rcases List.mem_cons.mp hb with rfl | hb
          · exact ⟨hle.trans hac,fun he => (heq (le_antisymm hle (he ▸ hac))).trans (ha b List.mem_cons_self)⟩
          · exact hleast b (List.mem_cons_of_mem a hb)

/-- The first of the oldest is the least recently used one just when what is tied with that one comes
behind it. -/
theorem leastRecent_iff {κ : Type} [LinearOrder κ] {H : List (Use κ)} {C : Clock κ} {s : Finset κ} {r : κ}
    (hfirst : 0 < first) (hstep : first < step) (hused : ∀ i ∈ s, Used H i) (hr : r ∈ s)
    (hleast : ∀ j ∈ s, (C.after first step H).age r ≤ (C.after first step H).age j ∧
      ((C.after first step H).age r = (C.after first step H).age j → r ≤ j)) :
    (∀ j ∈ s, j ≠ r → Before H r j) ↔
      ∀ i ∈ s, ∀ j ∈ s, (∀ k ∈ s, k ≠ i → Before H i k) → Tied H i j → i < j := by
  constructor
  · intro h i hi j hj hrecent htied
    have hir : i = r := by
      by_contra hne
      exact absurd (h i hi hne).length_lt (hrecent r hr (Ne.symm hne)).length_lt.not_gt
    subst hir
    have heq := (htied.1.age_le (C := C) hfirst hstep (hused i hi)).2.mpr htied
    refine lt_of_le_of_ne ((hleast j hj).2 heq) ?_
    rintro rfl
    exact not_before_self htied.1
  · intro h
    obtain ⟨i,hi,hrecent⟩ := exists_leastRecent ⟨r,hr⟩ hused
    have hir : i = r := by
      by_contra hne
      obtain ⟨hle,htied⟩ := (hrecent r hr (Ne.symm hne)).age_le (C := C) hfirst hstep (hused i hi)
      have heq := le_antisymm hle (hleast i hi).1
      exact absurd (h i hi r hr hrecent (htied.mp heq)) ((hleast i hi).2 heq.symm).not_gt
    exact hir ▸ hrecent

end Recency
