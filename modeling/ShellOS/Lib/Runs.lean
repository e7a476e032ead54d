import Mathlib

/-! The maximal runs of elements that are not separators. -/
namespace Runs
variable {α : Type} {p : α → Bool} {s w : List α} {ws : List (List α)} {sep c : α}

def runs (p : α → Bool) (s : List α) : List (List α) := (s.splitOnP p).filter (· ≠ [])

@[simp] theorem runs_nil : runs p [] = [] := by simp [runs]

theorem runs_append (hsep : p sep = true) (s t : List α) : runs p (s ++ sep::t) = runs p s ++ runs p t := by
  rw [runs,List.splitOnP_append_cons s t hsep,List.filter_append]
  rfl

theorem runs_sep (hsep : p sep = true) (s : List α) : runs p (sep::s) = runs p s := runs_append hsep [] s

theorem runs_run (h : ∀ c ∈ w, p c = false) (hne : w ≠ []) : runs p w = [w] := by
  rw [runs,List.splitOnP_eq_singleton h]
  simp [hne]

/-- Separators in front do not matter, nor do those of some kind only. -/
theorem runs_dropWhile {q : α → Bool} (h : ∀ c, q c = true → p c = true) (s : List α) :
    runs p (s.dropWhile q) = runs p s := by
  induction s with
  | nil => rfl
  | cons c s ih =>
    cases hc : q c with
    | true => rw [List.dropWhile_cons_of_pos hc,ih,runs_sep (h c hc)]
    | false => rw [List.dropWhile_cons_of_neg (by simp [hc])]

/-- What is in front of the first separator, and the separator with the rest. -/
theorem span_cases (p : α → Bool) (s : List α) : ∃ w rest, (∀ c ∈ w, p c = false) ∧ s = w ++ rest ∧
    s.takeWhile (fun c => !p c) = w ∧ s.dropWhile (fun c => !p c) = rest ∧
    (rest = [] ∨ ∃ c t, p c = true ∧ rest = c::t) := by
  refine ⟨_,_,fun c hc => ?_,List.takeWhile_append_dropWhile.symm,rfl,rfl,?_⟩
  · have := List.mem_takeWhile_imp hc
    simpa using this
  · cases hd : s.dropWhile fun c => !p c with
    | nil => exact .inl rfl
    | cons c t =>
      have hhead := List.head?_dropWhile_not (fun c => !p c) s
      rw [hd] at hhead
      exact .inr ⟨c,t,by simpa using hhead,rfl⟩

/-- A list is nothing, or it starts with a separator, or with a run that is all of it or that ends
at a separator. -/
theorem runs_induction {motive : List α → Prop} (nil : motive [])
    (sep : ∀ c s, p c = true → motive s → motive (c::s))
    (last : ∀ w, w ≠ [] → (∀ c ∈ w, p c = false) → motive w)
    (run : ∀ w c s, w ≠ [] → (∀ c ∈ w, p c = false) → p c = true → motive s → motive (w ++ c::s))
    (s : List α) : motive s := by
  induction hn : s.length using Nat.strong_induction_on generalizing s with
  | _ n ih =>
    cases s with
    | nil => exact nil
    | cons c s =>
      rw [List.length_cons] at hn
      cases hc : p c with
      | true => exact sep c s hc (ih s.length (by omega) s rfl)
      | false =>
        obtain ⟨w,rest,hw,hs,htake,-,hrest⟩ := span_cases p (c::s)
        have hne : w ≠ [] := by
          rw [← htake,List.takeWhile_cons_of_pos (by simp [hc])]
          exact List.cons_ne_nil c _
        have hlen := congrArg List.length hs
        rw [List.length_append,List.length_cons] at hlen
        have hpos := List.length_pos_of_ne_nil hne
        obtain rfl | ⟨d,t,hd,rfl⟩ := hrest
        · rw [hs,List.append_nil]
          exact last w hne hw
        · rw [hs]
          rw [List.length_cons] at hlen
          exact run w d t hne hw hd (ih t.length (by omega) t rfl)

/-- The first run is cut off at the separator behind it. -/
theorem runs_cons (hc : p c = false) (s : List α) : runs p (c::s) =
    (c::s).takeWhile (fun a => !p a)::runs p ((c::s).dropWhile fun a => !p a).tail := by
  obtain ⟨w,rest,hw,hs,htake,hdrop,hrest⟩ := span_cases p (c::s)
  have hne : w ≠ [] := by
    rw [← htake,List.takeWhile_cons_of_pos (by simp [hc])]
    exact List.cons_ne_nil c _
  rw [htake,hdrop,hs]
  obtain rfl | ⟨d,t,hd,rfl⟩ := hrest
  · rw [List.append_nil,runs_run hw hne,List.tail_nil,runs_nil]
  · rw [runs_append hd,runs_run hw hne,List.tail_cons]
    rfl

theorem mem_runs (h : w ∈ runs p s) : w ≠ [] ∧ ∀ c ∈ w, p c = false := by
  induction s using runs_induction (p := p) with
  | nil => simp at h
  | sep c s hc ih => exact ih (runs_sep hc s ▸ h)
  | last u hne hu =>
    rw [runs_run hu hne] at h
    obtain rfl := List.mem_singleton.mp h
    exact ⟨hne,hu⟩
  | run u c s hne hu hc ih =>
    rw [runs_append hc,runs_run hu hne] at h
    cases List.mem_cons.mp h with
    | inl he =>
      rw [he]
      exact ⟨hne,hu⟩
    | inr hm => exact ih hm

/-- Runs with a separator behind each are cut apart again. -/
theorem runs_flatMap_append (hsep : p sep = true) (h : ∀ w ∈ ws, w ≠ [] ∧ ∀ c ∈ w, p c = false) (t : List α) :
    runs p (ws.flatMap (· ++ [sep]) ++ t) = ws ++ runs p t := by
  induction ws with
  | nil => rfl
  | cons w ws ih =>
    obtain ⟨⟨hne,hw⟩,hws⟩ := List.forall_mem_cons.mp h
    rw [List.flatMap_cons,List.append_assoc,List.append_assoc,List.singleton_append,runs_append hsep,
      runs_run hw hne,ih hws]
    rfl

theorem runs_flatMap (hsep : p sep = true) (h : ∀ w ∈ ws, w ≠ [] ∧ ∀ c ∈ w, p c = false) :
    runs p (ws.flatMap (· ++ [sep])) = ws := by
  have := runs_flatMap_append hsep h []
  rwa [List.append_nil,runs_nil,List.append_nil] at this

/-- Nothing but separators is left out. -/
theorem flatten_runs (p : α → Bool) (s : List α) : (runs p s).flatten = s.filter fun c => !p c := by
  have hrun : ∀ w : List α, (∀ c ∈ w, p c = false) → w.filter (fun c => !p c) = w := fun w hw =>
    List.filter_eq_self.mpr fun c hc => by rw [hw c hc]; rfl
  induction s using runs_induction (p := p) with
  | nil => simp
  | sep c s hc ih => rw [runs_sep hc,ih,List.filter_cons_of_neg (by simp [hc])]
  | last w hne hw => rw [runs_run hw hne,List.flatten_singleton,hrun w hw]
  | run w c s hne hw hc ih =>
    rw [runs_append hc,runs_run hw hne,List.flatten_append,List.flatten_singleton,ih,List.filter_append,hrun w hw,
      List.filter_cons_of_neg (by simp [hc])]

theorem mem_flatten_runs : c ∈ (runs p s).flatten ↔ c ∈ s ∧ p c = false := by
  rw [flatten_runs,List.mem_filter,Bool.not_eq_true']

/-- There is a separator between one run and the next. -/
theorem length_runs_le (p : α → Bool) (s : List α) : (runs p s).flatten.length + (runs p s).length ≤ s.length + 1 := by
  induction s using runs_induction (p := p) with
  | nil => simp
  | sep c s hc ih =>
    rw [runs_sep hc,List.length_cons]
    omega
  | last w hne hw =>
    rw [runs_run hw hne,List.flatten_singleton]
    exact Nat.le_refl _
  | run w c s hne hw hc ih =>
    rw [runs_append hc,runs_run hw hne,List.singleton_append,List.flatten_cons,List.length_append,List.length_append,
      List.length_cons,List.length_cons]
    omega

end Runs
