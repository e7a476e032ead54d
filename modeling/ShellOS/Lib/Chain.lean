import Mathlib

/-! Singly linked lists in a heap. -/
namespace Chain
variable {α : Type}

/-- From `p` on the pointers run through the cells `l` and end there; every cell is allocated. -/
def Linked (next : α → Option (Option α)) : Option α → List α → Prop
  | p,[] => p = none
  | p,a::l => p = some a ∧ ∃ q, next a = some q ∧ Linked next q l

/-- The cells that a loop of at most so many rounds visits, `none` if it does not come to the end
or meets a cell that is not allocated. -/
def walk (next : α → Option (Option α)) : ℕ → Option α → Option (List α)
  | _,none => some []
  | 0,some _ => none
  | n+1,some a => (next a).bind fun q => (walk next n q).map (a::·)

/-- The loop that runs from `p` to the cell before `a`, or off the end of the list. -/
def seek [DecidableEq α] (next : α → Option (Option α)) (a : α) : ℕ → Option α → Option (Option α)
  | _,none => some none
  | 0,some _ => none
  | n+1,some c => (next c).bind fun q => if q = some a then some (some c) else seek next a n q

variable {next next' : α → Option (Option α)} {p : Option α} {a b : α} {l l' : List α}

theorem walk_eq {n : ℕ} (h : Linked next p l) (hn : l.length ≤ n) : walk next n p = some l := by
  induction l generalizing n p with
  | nil =>
    obtain rfl : p = none := h
    cases n <;> rfl
  | cons a l ih =>
    obtain ⟨rfl,q,hq,hl⟩ := h
    cases n with
    | zero => simp at hn
    | succ n =>
      have hrest := ih hl (by simpa using hn)
      rw [walk,hq,Option.bind_some,hrest,Option.map_some]

theorem linked_of_walk {n : ℕ} (h : walk next n p = some l) : Linked next p l := by
  induction n generalizing p l with
  | zero =>
    cases p with
    | none => exact Option.some.inj h ▸ rfl
    | some a => simp [walk] at h
  | succ n ih =>
    cases p with
    | none => exact Option.some.inj h ▸ rfl
    | some a =>
      obtain ⟨q,hq,h⟩ := Option.bind_eq_some_iff.mp h
      obtain ⟨l',hl',rfl⟩ := Option.map_eq_some_iff.mp h
      exact ⟨rfl,q,hq,ih hl'⟩

/-- A pointer determines the list. -/
theorem Linked.unique (h : Linked next p l) (h' : Linked next p l') : l = l' := by
  induction l generalizing p l' with
  | nil =>
    obtain rfl : p = none := h
    cases l' with
    | nil => rfl
    | cons b l' => simp [Linked] at h'
  | cons a l ih =>
    obtain ⟨rfl,q,hq,hl⟩ := h
    cases l' with
    | nil => simp [Linked] at h'
    | cons b l' =>
      obtain ⟨hb,q',hq',hl'⟩ := h'
      obtain rfl := Option.some.inj hb
      obtain rfl := Option.some.inj (hq.symm.trans hq')
      rw [ih hl hl']

theorem Linked.head_eq (h : Linked next p l) : p = l.head? := by
  cases l with
  | nil => exact h
  | cons a l => exact h.1

theorem Linked.allocated (h : Linked next p l) (ha : a ∈ l) : ∃ q, next a = some q := by
  induction l generalizing p with
  | nil => simp at ha
  | cons b l ih =>
    obtain ⟨-,q,hq,hl⟩ := h
    cases List.mem_cons.mp ha with
    | inl he => exact ⟨q,he ▸ hq⟩
    | inr hm => exact ih hl hm

/-- The rest of the list from one of its cells on. -/
theorem Linked.suffix (h : Linked next p (l ++ a::l')) : Linked next (some a) (a::l') := by
  induction l generalizing p with
  | nil =>
    obtain ⟨rfl,hq⟩ := h
    exact ⟨rfl,hq⟩
  | cons b l ih =>
    obtain ⟨-,q,-,hl⟩ := h
    exact ih hl

/-- A list that ends has no cycle. -/
theorem Linked.nodup (h : Linked next p l) : l.Nodup := by
  induction l generalizing p with
  | nil => exact List.nodup_nil
  | cons a l ih =>
    obtain ⟨rfl,q,hq,hl⟩ := h
    refine List.nodup_cons.mpr ⟨fun ha => ?_,ih hl⟩
    obtain ⟨l₁,l₂,rfl⟩ := List.append_of_mem ha
    have hself : Linked next (some a) (a::(l₁ ++ a::l₂)) := ⟨rfl,q,hq,hl⟩
    have hlen := congrArg List.length (hl.suffix.unique hself)
    simp at hlen
    omega

theorem Linked.congr (h : Linked next p l) (hn : ∀ a ∈ l, next' a = next a) : Linked next' p l := by
  induction l generalizing p with
  | nil => exact h
  | cons a l ih =>
    obtain ⟨rfl,q,hq,hl⟩ := h
    exact ⟨rfl,q,(hn a List.mem_cons_self).trans hq,ih hl fun b hb => hn b (List.mem_cons_of_mem a hb)⟩

/-- A cell appended at the end. -/
theorem Linked.snoc (h : Linked next p (l ++ [b])) (hb : next' b = some (some a)) (ha : next' a = some none)
    (hn : ∀ c ∈ l, next' c = next c) : Linked next' p (l ++ [b] ++ [a]) := by
  induction l generalizing p with
  | nil =>
    obtain ⟨rfl,-⟩ := h
    exact ⟨rfl,_,hb,rfl,_,ha,rfl⟩
  | cons c l ih =>
    obtain ⟨rfl,q,hq,hl⟩ := h
    exact ⟨rfl,q,(hn c List.mem_cons_self).trans hq,ih hl fun d hd => hn d (List.mem_cons_of_mem c hd)⟩

/-- Two neighbours relinked in the other order. -/
theorem Linked.swap {c : α} (h : Linked next p (l ++ c::a::b::l')) (hc : next' c = some (some b))
    (hb : next' b = some (some a)) (ha : next' a = next b) (hn : ∀ d ∈ l ++ l', next' d = next d) :
    Linked next' p (l ++ c::b::a::l') := by
  induction l generalizing p with
  | nil =>
    obtain ⟨rfl,q,hq,rfl,r,hr,rfl,s,hs,hl⟩ := h
    refine ⟨rfl,_,hc,?_⟩
    exact ⟨rfl,_,hb,rfl,s,ha.trans hs,hl.congr fun d hd => hn d hd⟩
  | cons d l ih =>
    obtain ⟨rfl,q,hq,hl⟩ := h
    exact ⟨rfl,q,(hn d List.mem_cons_self).trans hq,ih hl fun e he => hn e (List.mem_cons_of_mem d he)⟩

section
variable [DecidableEq α]

/-- The loop finds the cell before `a`. -/
theorem seek_before {n : ℕ} {c : α} (h : Linked next p (l ++ c::a::l')) (ha : a ∉ l ++ [c]) (hn : l.length < n) :
    seek next a n p = some (some c) := by
  induction l generalizing n p with
  | nil =>
    obtain ⟨rfl,q,hq,rfl,-⟩ := h
    cases n with
    | zero => simp at hn
    | succ n => simp [seek,hq]
  | cons d l ih =>
    obtain ⟨rfl,q,hq,hl⟩ := h
    cases n with
    | zero => simp at hn
    | succ n =>
      have hqa : q ≠ some a := by
        rintro rfl
        apply ha
        cases l with
        | nil => exact List.mem_append_right _ (by simpa using hl.head_eq)
        | cons e l => simp [Option.some.inj hl.head_eq]
      rw [seek,hq,Option.bind_some,if_neg hqa]
      exact ih hl (fun h => ha (List.mem_cons_of_mem d h)) (by simpa using hn)

/-- It runs off the end if `a` comes after no cell. -/
theorem seek_off {n : ℕ} (h : Linked next p l) (ha : a ∉ l.tail) (hn : l.length ≤ n) :
    seek next a n p = some none := by
  induction l generalizing n p with
  | nil =>
    obtain rfl : p = none := h
    cases n <;> rfl
  | cons c l ih =>
    obtain ⟨rfl,q,hq,hl⟩ := h
    cases n with
    | zero => simp at hn
    | succ n =>
      have hqa : q ≠ some a := by
        rintro rfl
        exact ha (List.mem_of_mem_head? hl.head_eq.symm)
      rw [seek,hq,Option.bind_some,if_neg hqa]
      exact ih hl (fun h => ha (List.mem_of_mem_tail h)) (by simpa using hn)

end

end Chain
