import Mathlib

/-! Trees of pointers kept in a store: a pointer leads to a block of further pointers, the null
pointer to nothing. A path is the list of positions taken on the way down from a root. -/
namespace BlockTree
variable {α : Type*}

/-- The pointer reached from `p` along a path. -/
def follow (child : α → ℕ → α) : α → List ℕ → α
  | p,[] => p
  | p,i::π => follow child (child p i) π

@[simp] theorem follow_nil (child : α → ℕ → α) (p : α) : follow child p [] = p := rfl
@[simp] theorem follow_cons (child : α → ℕ → α) (p : α) (i : ℕ) (π : List ℕ) :
    follow child p (i::π) = follow child (child p i) π := rfl

/-- Nothing lies below the null pointer. -/
def NullLeaf (null : α) (child : α → ℕ → α) : Prop := ∀ i, child null i = null

theorem follow_null {null : α} {child : α → ℕ → α} (h : NullLeaf null child) (π : List ℕ) :
    follow child null π = null := by
  induction π with
  | nil => rfl
  | cons i π ih => rw [follow_cons,h i,ih]

/-- A path depends only on the blocks it passes through. -/
theorem follow_congr {child child' : α → ℕ → α} (p : α) (π : List ℕ)
    (h : ∀ ρ i τ, π = ρ ++ i::τ → child' (follow child p ρ) i = child (follow child p ρ) i) :
    follow child' p π = follow child p π := by
  induction π generalizing p with
  | nil => rfl
  | cons i π ih =>
    have h0 : child' p i = child p i := h [] i π rfl
    rw [follow_cons,follow_cons,h0]
    exact ih (child p i) fun ρ k τ hπ => h (i::ρ) k τ (by rw [hπ]; rfl)

/-- The paths visited for the first `m` leaves of a tree with `level` levels of blocks, each
block before its entries; an entry of a block at level `k` covers `unit k` leaves. -/
def walk (unit : ℕ → ℕ) : ℕ → ℕ → List (List ℕ)
  | 0,_ => [[]]
  | level+1,m => [] :: (List.range ((m + unit (level+1) - 1) / unit (level+1))).flatMap fun i =>
      (walk unit level (min (m - i * unit (level+1)) (unit (level+1)))).map (i :: ·)

theorem nil_mem_walk (unit : ℕ → ℕ) (level m : ℕ) : [] ∈ walk unit level m := by
  cases level <;> simp [walk]

theorem length_le_of_mem_walk {unit : ℕ → ℕ} {level m : ℕ} {π : List ℕ}
    (h : π ∈ walk unit level m) : π.length ≤ level := by
  induction level generalizing m π with
  | zero => simp_all [walk]
  | succ level ih =>
    simp only [walk,List.mem_cons,List.mem_flatMap,List.mem_map] at h
    rcases h with rfl | ⟨i,_,ρ,hρ,rfl⟩
    · simp
    · simpa using ih hρ

theorem walk_nodup (unit : ℕ → ℕ) (level m : ℕ) : (walk unit level m).Nodup := by
  induction level generalizing m with
  | zero => simp [walk]
  | succ level ih =>
    simp only [walk,List.nodup_cons]
    refine ⟨by simp,?_⟩
    rw [List.nodup_flatMap]
    refine ⟨fun i _ => (ih _).map fun a b h => (List.cons.inj h).2,?_⟩
    apply List.nodup_range.imp
    intro i j hij π hi hj
    obtain ⟨ρ,_,rfl⟩ := List.mem_map.mp hi
    obtain ⟨τ,_,h⟩ := List.mem_map.mp hj
    exact hij (List.cons.inj h).1.symm

section Forest
variable (null : α) (lev : ℕ → ℕ) (child : α → ℕ → α) (roots : ℕ → α)

/-- The pointer at the end of a path from root `j`. -/
def node (j : ℕ) (π : List ℕ) : α := follow child (roots j) π

/-- A block of the forest: a non-null pointer above the leaves. -/
def Interior (s : α) : Prop := s ≠ null ∧ ∃ j π, π.length < lev j ∧ node child roots j π = s

/-- No pointer occurs at two places of the forest. -/
def Separated : Prop := ∀ j π j' π', π.length ≤ lev j → π'.length ≤ lev j' →
  node child roots j π = node child roots j' π' → node child roots j π ≠ null → j = j' ∧ π = π'

variable {null lev child roots}

/-- The forest stays as it is when none of its blocks changes. -/
theorem node_congr {child' : α → ℕ → α} (hn : NullLeaf null child) (hn' : NullLeaf null child')
    (h : ∀ s, Interior null lev child roots s → ∀ i, child' s i = child s i) {j : ℕ} {π : List ℕ}
    (hπ : π.length ≤ lev j) : node child' roots j π = node child roots j π := by
  apply follow_congr
  intro ρ i τ he
  by_cases hs : follow child (roots j) ρ = null
  · rw [hs,hn i,hn' i]
  · apply h
    refine ⟨hs,j,ρ,?_,rfl⟩
    have := congrArg List.length he
    simp only [List.length_append,List.length_cons] at this
    omega

/-- A leaf of a separated forest is not a block. -/
theorem Separated.leaf_not_interior (h : Separated null lev child roots) {j : ℕ} {π : List ℕ}
    (hπ : π.length = lev j) : ¬ Interior null lev child roots (node child roots j π) := by
  rintro ⟨hs,k,ρ,hρ,he⟩
  obtain ⟨rfl,rfl⟩ := h k ρ j π hρ.le hπ.le he (he ▸ hs)
  omega

end Forest
end BlockTree
