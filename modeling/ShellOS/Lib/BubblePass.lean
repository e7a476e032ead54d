import Mathlib

/-! One pass of bubble sort: the larger of two neighbours is carried on. -/
namespace BubblePass
variable {α κ : Type*} [LinearOrder κ] (f : α → κ)

/-- The list behind the carried element `a`, after the pass. -/
def onePass : α → List α → List α
  | a,[] => [a]
  | a,b::l => if f b < f a then b::onePass a l else a::onePass b l

/-- No element has two larger ones in front of it. -/
def OneAhead (l : List α) : Prop := ∀ x y z, [x,y,z].Sublist l → f x ≤ f z ∨ f y ≤ f z

/-- The pass over a whole list. -/
def sweep : List α → List α
  | [] => []
  | a::l => onePass f a l

variable {f} {a b : α} {l : List α}

theorem onePass_perm (a : α) (l : List α) : (onePass f a l).Perm (a::l) := by
  induction l generalizing a with
  | nil => exact .refl _
  | cons b l ih =>
    rw [onePass]
    split
    · exact ((ih a).cons b).trans (.swap a b l)
    · exact (ih b).cons a

theorem mem_onePass {x : α} : x ∈ onePass f a l ↔ x = a ∨ x ∈ l := by
  rw [(onePass_perm a l).mem_iff,List.mem_cons]

theorem oneAhead_of_short (h : l.length ≤ 2) : OneAhead f l := by
  intro x y z hs
  have hlen := hs.length_le
  simp only [List.length_cons,List.length_nil] at hlen
  omega

theorem OneAhead.tail (h : OneAhead f (a::l)) : OneAhead f l :=
  fun x y z hs => h x y z (hs.cons a)

/-- The smaller of the first two elements can be left out if nothing behind them is smaller. -/
theorem oneAhead_cons_iff (hab : f a ≤ f b) :
    OneAhead f (a::b::l) ↔ OneAhead f (b::l) ∧ ∀ x ∈ l, f a ≤ f x := by
  constructor
  · intro h
    refine ⟨h.tail,fun x hx => ?_⟩
    have hs : [a,b,x].Sublist (a::b::l) := ((List.singleton_sublist.mpr hx).cons_cons b).cons_cons a
    cases h a b x hs with
    | inl ha => exact ha
    | inr hb => exact hab.trans hb
  · rintro ⟨h,ha⟩ x y z hs
    cases hs with
    | cons _ hs => exact h x y z hs
    | cons_cons _ hs =>
      left
      have hz : z ∈ b::l := hs.subset (by simp)
      cases List.mem_cons.mp hz with
      | inl hb => exact hb ▸ hab
      | inr hl => exact ha z hl

theorem OneAhead.swap (h : OneAhead f (a::b::l)) : OneAhead f (b::a::l) := by
  intro x y z hs
  cases hs with
  | cons _ hs =>
    cases hs with
    | cons _ hs => exact h x y z ((hs.cons b).cons a)
    | cons_cons _ hs => exact h a y z ((hs.cons b).cons_cons a)
  | cons_cons _ hs =>
    cases hs with
    | cons _ hs => exact h b y z ((hs.cons_cons b).cons a)
    | cons_cons _ hs => exact (h a b z ((hs.cons_cons b).cons_cons a)).symm

/-- One pass sorts just the lists in which every element has at most one larger one in front of it. -/
theorem onePass_sorted_iff (a : α) (l : List α) :
    (onePass f a l).Pairwise (fun x y => f x ≤ f y) ↔ OneAhead f (a::l) := by
  induction l generalizing a with
  | nil =>
    have hshort : OneAhead f [a] := oneAhead_of_short (by simp)
    simpa [onePass] using hshort
  | cons b l ih =>
    by_cases hab : f b < f a
    · have hsplit := oneAhead_cons_iff (l := l) hab.le
      rw [onePass,if_pos hab,List.pairwise_cons,ih]
      constructor
      · rintro ⟨hb,ho⟩
        exact (hsplit.mpr ⟨ho,fun x hx => hb x (mem_onePass.mpr (.inr hx))⟩).swap
      · intro ho
        obtain ⟨ho,hb⟩ := hsplit.mp ho.swap
        refine ⟨fun x hx => ?_,ho⟩
        cases mem_onePass.mp hx with
        | inl hx => exact hx ▸ hab.le
        | inr hx => exact hb x hx
    · have hab := not_lt.mp hab
      rw [onePass,if_neg (not_lt.mpr hab),List.pairwise_cons,ih,oneAhead_cons_iff hab]
      constructor
      · rintro ⟨ha,ho⟩
        exact ⟨ho,fun x hx => ha x (mem_onePass.mpr (.inr hx))⟩
      · rintro ⟨ho,ha⟩
        refine ⟨fun x hx => ?_,ho⟩
        cases mem_onePass.mp hx with
        | inl hx => exact hx ▸ hab
        | inr hx => exact ha x hx

theorem sweep_perm (l : List α) : (sweep f l).Perm l := by
  cases l with
  | nil => exact .refl _
  | cons a l => exact onePass_perm a l

theorem sweep_sorted_iff (l : List α) : (sweep f l).Pairwise (fun x y => f x ≤ f y) ↔ OneAhead f l := by
  cases l with
  | nil => exact iff_of_true List.Pairwise.nil (oneAhead_of_short (by simp))
  | cons a l => exact onePass_sorted_iff a l

end BubblePass
