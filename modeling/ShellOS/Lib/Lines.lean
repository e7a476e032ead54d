import Mathlib

/-! The lines of a text, each with the end of line behind it. -/
namespace Lines

variable {α : Type} [DecidableEq α]

/-- The text is cut behind each `eol`; the last line may have none. -/
def linesOf (eol : α) : List α → List (List α)
  | [] => []
  | c::s => if c = eol then [c]::linesOf eol s else
    match linesOf eol s with
    | [] => [[c]]
    | l::ls => (c::l)::ls

variable {eol c : α} {s l : List α} {ls : List (List α)}

@[simp] theorem linesOf_nil (eol : α) : linesOf eol [] = [] := rfl

theorem linesOf_cons_eol (s : List α) : linesOf eol (eol::s) = [eol]::linesOf eol s := by simp [linesOf]

theorem linesOf_cons_of_nil (h : c ≠ eol) (hs : linesOf eol s = []) : linesOf eol (c::s) = [[c]] := by
  simp [linesOf,h,hs]

theorem linesOf_cons_of_cons (h : c ≠ eol) (hs : linesOf eol s = l::ls) : linesOf eol (c::s) = (c::l)::ls := by
  simp [linesOf,h,hs]

theorem flatten_linesOf (eol : α) (s : List α) : (linesOf eol s).flatten = s := by
  induction s with
  | nil => rfl
  | cons c s ih =>
    by_cases hc : c = eol
    · rw [hc,linesOf_cons_eol,List.flatten_cons,ih]
      rfl
    · cases hs : linesOf eol s with
      | nil =>
        rw [hs] at ih
        rw [linesOf_cons_of_nil hc hs,← ih]
        rfl
      | cons l ls =>
        rw [hs] at ih
        rw [linesOf_cons_of_cons hc hs,← ih]
        rfl

theorem linesOf_eq_nil_iff : linesOf eol s = [] ↔ s = [] := by
  constructor
  · intro h
    rw [← flatten_linesOf eol s,h]
    rfl
  · rintro rfl
    rfl

theorem ne_nil_of_mem_linesOf (h : l ∈ linesOf eol s) : l ≠ [] := by
  induction s generalizing l with
  | nil => cases h
  | cons c s ih =>
    by_cases hc : c = eol
    · rw [hc,linesOf_cons_eol] at h
      obtain rfl | h := List.mem_cons.mp h
      · exact List.cons_ne_nil eol []
      · exact ih h
    · cases hs : linesOf eol s with
      | nil =>
        rw [linesOf_cons_of_nil hc hs] at h
        rw [List.mem_singleton.mp h]
        exact List.cons_ne_nil c []
      | cons l' ls =>
        rw [linesOf_cons_of_cons hc hs] at h
        obtain rfl | h := List.mem_cons.mp h
        · exact List.cons_ne_nil c l'
        · exact ih (hs ▸ List.mem_cons_of_mem l' h)

/-- There is one line for each `eol`, and one more if something follows the last of them. -/
theorem length_linesOf (eol : α) (s : List α) :
    (linesOf eol s).length = s.count eol + if s = [] ∨ s.getLast? = some eol then 0 else 1 := by
  induction s with
  | nil => simp
  | cons c s ih =>
    by_cases hc : c = eol
    · subst hc
      rw [linesOf_cons_eol,List.length_cons,ih,List.count_cons_self]
      by_cases hs : s = []
      · simp [hs]
      · obtain ⟨d,t,rfl⟩ := List.exists_cons_of_ne_nil hs
        rw [List.getLast?_cons_cons]
        simp only [reduceCtorEq,false_or]
        omega
    · have hcount : (c::s).count eol = s.count eol := List.count_cons_of_ne hc
      cases hs : linesOf eol s with
      | nil =>
        obtain rfl := linesOf_eq_nil_iff.mp hs
        simp [linesOf_cons_of_nil hc hs,hc]
      | cons l ls =>
        rw [hs] at ih
        have hne : s ≠ [] := fun h => by rw [h] at hs; cases hs
        obtain ⟨d,t,rfl⟩ := List.exists_cons_of_ne_nil hne
        rw [linesOf_cons_of_cons hc hs,hcount,List.getLast?_cons_cons]
        simp only [reduceCtorEq,false_or] at ih ⊢
        exact ih

end Lines
