import Mathlib

/-! Doubly linked lists: every cell has a pointer to the cell before it and one to the cell after it, and a list runs
between two cells of its own. -/
namespace Thread

/-- The pointers of the cells. -/
structure Links (α : Type) where
  next : α → Option α
  prev : α → Option α

section
variable {α ι : Type}

/-- Each of two neighbours leads to the other. -/
def Joined (m : Links α) (a b : α) : Prop := m.next a = some b ∧ m.prev b = some a

/-- Every cell leads to the one after it, and back. -/
def Threaded (m : Links α) (l : List α) : Prop := l.IsChain (Joined m)

/-- Pointers are the same outside some cells. -/
def SameOutside (s : List α) (m m' : Links α) : Prop := ∀ c ∉ s, m'.next c = m.next c ∧ m'.prev c = m.prev c

/-- Between its two end cells the list runs through the cells `l`. -/
structure Spans (m : Links α) (h t : α) (l : List α) : Prop where
  threaded : Threaded m (h::(l ++ [t]))
  nodup : (h::(l ++ [t])).Nodup
  prev_head : m.prev h = none
  next_tail : m.next t = none

/-- The two cells that a list runs between. -/
structure Ends (α : Type) where
  head : α
  tail : α

/-- All the cells of a list, its ends too. -/
def cells (L : Ends α) (l : List α) : List α := L.head::(l ++ [L.tail])

/-- The lists have no cell in common. -/
structure Lists (L : ι → Ends α) (m : Links α) (ls : ι → List α) : Prop where
  holds : ∀ i, Spans m (L i).head (L i).tail (ls i)
  apart : ∀ i j c, c ∈ cells (L i) (ls i) → c ∈ cells (L j) (ls j) → i = j

/-- A cell that is in no list. -/
def Outside (L : ι → Ends α) (ls : ι → List α) (e : α) : Prop := ∀ i, e ∉ cells (L i) (ls i)

variable {m m' m'' : Links α} {a b c e n p h t : α} {q : Option α} {l l' r s u v : List α} {H : ι → Ends α} {ls : ι → List α} {i j : ι}

theorem threaded_cons_cons : Threaded m (a::b::l) ↔ Joined m a b ∧ Threaded m (b::l) := List.isChain_cons_cons

/-- A list is cut at one of its cells, which belongs to both pieces. -/
theorem threaded_split : Threaded m (l ++ a::r) ↔ Threaded m (l ++ [a]) ∧ Threaded m (a::r) := List.isChain_split

theorem Threaded.joined (hm : Threaded m (l ++ a::b::r)) : Joined m a b :=
  (threaded_cons_cons.mp (threaded_split.mp hm).2).1

theorem Threaded.congr (hm : Threaded m l) (hsame : ∀ c ∈ l, m'.next c = m.next c ∧ m'.prev c = m.prev c) : Threaded m' l :=
  List.IsChain.imp_of_mem_imp (fun a b ha hb hj => ⟨(hsame a ha).1.trans hj.1,(hsame b hb).2.trans hj.2⟩) hm

theorem SameOutside.refl : SameOutside s m m := fun _ _ => ⟨rfl,rfl⟩

theorem SameOutside.trans (h₁ : SameOutside s m m') (h₂ : SameOutside s m' m'') : SameOutside s m m'' := fun c hc =>
  ⟨(h₂ c hc).1.trans (h₁ c hc).1,(h₂ c hc).2.trans (h₁ c hc).2⟩

theorem SameOutside.mono (hm : SameOutside s m m') (hsub : s ⊆ u) : SameOutside u m m' := fun c hc => hm c fun hs => hc (hsub hs)

theorem Spans.congr (hm : Spans m h t l) (hsame : SameOutside s m m') (hapart : ∀ c ∈ h::(l ++ [t]), c ∉ s) : Spans m' h t l where
  threaded := hm.threaded.congr fun c hc => hsame c (hapart c hc)
  nodup := hm.nodup
  prev_head := (hsame h (hapart h List.mem_cons_self)).2.trans hm.prev_head
  next_tail := (hsame t (hapart t (by simp))).1.trans hm.next_tail

theorem exists_last (h : α) (l : List α) : ∃ u p, h::l = u ++ [p] :=
  ⟨(h::l).dropLast,(h::l).getLast (List.cons_ne_nil h l),(List.dropLast_append_getLast _).symm⟩

theorem exists_first (r : List α) (t : α) : ∃ n v, r ++ [t] = n::v :=
  List.exists_cons_of_ne_nil (by simp)

/-- Two cells that follow each other lead to each other. -/
theorem Spans.joined (hm : Spans m h t l) (hl : h::(l ++ [t]) = u ++ a::b::v) : Joined m a b :=
  Threaded.joined (hl ▸ hm.threaded)

theorem Spans.ne_tail (hm : Spans m h t l) (hc : c ∈ h::l) : c ≠ t := fun he =>
  (List.nodup_append.mp (List.cons_append ▸ hm.nodup : (h::l ++ [t]).Nodup)).2.2 c hc t List.mem_cons_self he

theorem Spans.ne_head (hm : Spans m h t l) (hc : c ∈ l ++ [t]) : c ≠ h := fun he =>
  (List.nodup_cons.mp hm.nodup).1 (he ▸ hc)

theorem Spans.tail_not_mem (hm : Spans m h t l) : t ∉ l := fun hc => hm.ne_tail (List.mem_cons_of_mem h hc) rfl

theorem Spans.next_head (hm : Spans m h t l) : m.next h = (l ++ [t]).head? := by
  obtain ⟨n,v,hv⟩ := exists_first l t
  have hj := hm.joined (u := []) (congrArg (h::·) hv)
  rw [hv,List.head?_cons,hj.1]

theorem Spans.prev_tail (hm : Spans m h t l) : m.prev t = (h::l).getLast? := by
  obtain ⟨u,p,hu⟩ := exists_last h l
  have hcells : h::(l ++ [t]) = u ++ p::t::[] := by rw [← List.cons_append,hu,List.append_assoc,List.singleton_append]
  rw [hu,List.getLast?_concat,(hm.joined hcells).2]

section
theorem Lists.length_lt [Fintype α] (hls : Lists H m ls) (i : ι) : (ls i).length + 1 < Fintype.card α := by
  have hle := (hls.holds i).nodup.length_le_card
  simp at hle
  omega

variable [DecidableEq ι]

theorem mem_cells_update {c : α} (hc : c ∈ cells (H j) (Function.update ls i l j)) (hl : ∀ c ∈ l, c ∈ ls i ∨ Outside H ls c) :
    c ∈ cells (H j) (ls j) ∨ j = i ∧ Outside H ls c := by
  by_cases hji : j = i
  · subst hji
    rw [Function.update_self,cells,List.mem_cons,List.mem_append] at hc
    rcases hc with hc | hc | hc
    · exact .inl (by rw [hc]; exact List.mem_cons_self)
    · exact (hl c hc).imp (fun hm => List.mem_cons_of_mem _ (List.mem_append_left _ hm)) fun hf => ⟨rfl,hf⟩
    · exact .inl (List.mem_cons_of_mem _ (List.mem_append_right _ hc))
  · rw [Function.update_of_ne hji] at hc
    exact .inl hc

/-- A call on one list leaves the others as they are. -/
theorem Lists.update (hls : Lists H m ls) (hm' : Spans m' (H i).head (H i).tail l) (hs : SameOutside s m m')
    (hcells : ∀ c ∈ s, c ∈ cells (H i) (ls i) ∨ Outside H ls c) (hl : ∀ c ∈ l, c ∈ ls i ∨ Outside H ls c) :
    Lists H m' (Function.update ls i l) where
  holds j := by
    by_cases hji : j = i
    · subst hji
      rwa [Function.update_self]
    · rw [Function.update_of_ne hji]
      refine (hls.holds j).congr hs fun c hc hcs => ?_
      rcases hcells c hcs with hci | hf
      · exact hji (hls.apart j i c hc hci)
      · exact hf j hc
  apart j k c hj hk := by
    rcases mem_cells_update hj hl with hj | ⟨hj,hf⟩
    · rcases mem_cells_update hk hl with hk | ⟨-,hf⟩
      · exact hls.apart j k c hj hk
      · exact absurd hj (hf j)
    · rcases mem_cells_update hk hl with hk | ⟨hk,-⟩
      · exact absurd hk (hf k)
      · exact hj.trans hk.symm

theorem Lists.outside_of_removed (hls : Lists H m' (Function.update ls i (u ++ r))) (hold : Lists H m ls) (hi : ls i = u ++ a::r) :
    Outside H (Function.update ls i (u ++ r)) a := fun j hj => by
  have hnd := (hold.holds i).nodup
  have hai : a ∈ cells (H i) (ls i) := by simp [cells,hi]
  rw [hi] at hnd
  by_cases hji : j = i
  · subst hji
    rw [Function.update_self] at hj
    have hperm : ((H j).head::(u ++ a::r ++ [(H j).tail])).Perm (a::(H j).head::(u ++ r ++ [(H j).tail])) := by
      have h₁ : ((H j).head::(u ++ a::r ++ [(H j).tail])).Perm ((H j).head::a::(u ++ r ++ [(H j).tail])) := by
        simp
      exact h₁.trans (.swap a _ _)
    exact (List.nodup_cons.mp (hperm.nodup_iff.mp hnd)).1 hj
  · rw [Function.update_of_ne hji] at hj
    exact hji (hold.apart j i a hj hai)

/-- A call that leaves the other lists as they are, and permutes its own. -/
theorem Lists.update_perm (hls : Lists H m ls) (hm' : Spans m' (H i).head (H i).tail l) (hs : SameOutside ((H i).head::(ls i ++ [(H i).tail])) m m')
    (hl : l ⊆ ls i) : Lists H m' (Function.update ls i l) :=
  hls.update hm' hs (fun _ hc => .inl hc) fun _ hc => .inl (hl hc)

end

variable [DecidableEq α]

def Links.setNext (a : α) (p : Option α) (m : Links α) : Links α := { m with next := Function.update m.next a p }

def Links.setPrev (a : α) (p : Option α) (m : Links α) : Links α := { m with prev := Function.update m.prev a p }

/-- Two cells become neighbours. -/
def Links.link (a b : α) (m : Links α) : Links α := (m.setNext a (some b)).setPrev b (some a)

@[simp] theorem setNext_next : (m.setNext a q).next c = if c = a then q else m.next c := Function.update_apply ..

@[simp] theorem setNext_prev : (m.setNext a q).prev = m.prev := rfl

@[simp] theorem setPrev_next : (m.setPrev a q).next = m.next := rfl

@[simp] theorem setPrev_prev : (m.setPrev a q).prev c = if c = a then q else m.prev c := Function.update_apply ..

@[simp] theorem link_next : (m.link a b).next c = if c = a then some b else m.next c := Function.update_apply ..

@[simp] theorem link_prev : (m.link a b).prev c = if c = b then some a else m.prev c := Function.update_apply ..

theorem link_idem : (m.link a b).link a b = m.link a b := by
  simp [Links.link,Links.setNext,Links.setPrev]

/-! ### Pieces of a list -/

/-- New neighbours are not seen by a list whose cells lead elsewhere. -/
theorem Threaded.link_frame (hm : Threaded m l) (ha : a ∉ l.dropLast) (hb : b ∉ l.tail) : Threaded (m.link a b) l := by
  induction l with
  | nil => exact .nil
  | cons c l ih =>
    cases l with
    | nil => exact .singleton c
    | cons d l =>
      obtain ⟨hj,hl⟩ := threaded_cons_cons.mp hm
      rw [List.dropLast_cons_cons,List.mem_cons,not_or] at ha
      rw [List.tail_cons,List.mem_cons,not_or] at hb
      refine threaded_cons_cons.mpr ⟨⟨?_,?_⟩,ih hl ha.2 hb.2⟩
      · rw [link_next,if_neg (Ne.symm ha.1)]
        exact hj.1
      · rw [link_prev,if_neg (Ne.symm hb.1)]
        exact hj.2

/-- Two pieces are put together. -/
theorem Threaded.link (hl : Threaded m (l ++ [a])) (hr : Threaded m (b::r)) (hn : (l ++ a::b::r).Nodup) :
    Threaded (m.link a b) (l ++ a::b::r) := by
  obtain ⟨-,hright,hapart⟩ := List.nodup_append.mp hn
  obtain ⟨ha,hb⟩ := List.nodup_cons.mp hright
  have hal : a ∉ l := fun hm => hapart a hm a List.mem_cons_self rfl
  have hbl : b ∉ l := fun hm => hapart b hm b (List.mem_cons_of_mem a List.mem_cons_self) rfl
  have hab : b ≠ a := fun hc => ha (hc ▸ List.mem_cons_self)
  refine threaded_split.mpr ⟨hl.link_frame (by rwa [List.dropLast_concat]) fun hm => ?_,threaded_cons_cons.mpr ⟨⟨?_,?_⟩,?_⟩⟩
  · rcases List.mem_append.mp (List.mem_of_mem_tail hm) with hm | hm
    · exact hbl hm
    · exact hab (List.mem_singleton.mp hm)
  · rw [link_next,if_pos rfl]
  · rw [link_prev,if_pos rfl]
  · exact hr.link_frame (fun hm => ha (List.dropLast_subset _ hm)) (List.nodup_cons.mp hb).1

/-- A cell is left out. -/
theorem Threaded.cut (hm : Threaded m (u ++ p::a::n::v)) (hn : (u ++ p::a::n::v).Nodup) : Threaded (m.link p n) (u ++ p::n::v) := by
  obtain ⟨hu,hrest⟩ := threaded_split.mp hm
  obtain ⟨-,hrest⟩ := threaded_cons_cons.mp hrest
  obtain ⟨-,hv⟩ := threaded_cons_cons.mp hrest
  exact hu.link hv (hn.sublist ((List.Sublist.refl u).append ((List.sublist_cons_self a _).cons_cons p)))

/-- A cell comes between two neighbours. -/
theorem Threaded.paste (hm : Threaded m (u ++ p::n::v)) (hn : (u ++ p::e::n::v).Nodup) :
    Threaded ((m.link p e).link e n) (u ++ p::e::n::v) := by
  obtain ⟨hu,hrest⟩ := threaded_split.mp hm
  obtain ⟨-,hv⟩ := threaded_cons_cons.mp hrest
  have hright : (e::n::v).Nodup := (List.nodup_append.mp hn).2.1.of_cons
  have hleft : (u ++ [p,e]).Nodup := hn.sublist ((List.Sublist.refl u).append (by simp))
  have hapart : p ∉ e::n::v := (List.nodup_cons.mp (List.nodup_append.mp hn).2.1).1
  have hfirst : Threaded (m.link p e) (u ++ [p,e]) := hu.link (.singleton e) hleft
  have hlast : Threaded (m.link p e) (n::v) := hv.link_frame
    (fun hc => hapart (List.mem_cons_of_mem e (List.dropLast_subset _ hc)))
    (fun hc => (List.nodup_cons.mp hright).1 (List.mem_cons_of_mem n hc))
  rw [show u ++ p::e::n::v = (u ++ [p]) ++ e::n::v by simp] at hn ⊢
  exact Threaded.link (by simpa using hfirst) hlast hn

/-! ### Lists between two ends -/

theorem SameOutside.link (ha : a ∈ s) (hb : b ∈ s) : SameOutside s m (m.link a b) := fun c hc => by
  have hca : c ≠ a := fun he => hc (by rwa [he])
  have hcb : c ≠ b := fun he => hc (by rwa [he])
  rw [link_next,if_neg hca,link_prev,if_neg hcb]
  exact ⟨rfl,rfl⟩

/-- A cell is unlinked by making its neighbours lead to each other. -/
theorem Spans.unlink (hm : Spans m h t (l ++ a::r)) : ∃ p n, m.prev a = some p ∧ m.next a = some n ∧
    p ≠ a ∧ n ≠ a ∧ (r ++ [t]).head? = some n ∧ SameOutside (h::(l ++ r ++ [t])) m (m.link p n) ∧ Spans (m.link p n) h t (l ++ r) := by
  obtain ⟨u,p,hu⟩ := exists_last h l
  obtain ⟨n,v,hv⟩ := exists_first r t
  have hcells : h::(l ++ a::r ++ [t]) = u ++ p::a::n::v := by
    rw [List.append_assoc,← List.cons_append,hu,List.cons_append,hv]
    simp
  have hcells' : h::(l ++ r ++ [t]) = u ++ p::n::v := by
    rw [List.append_assoc,← List.cons_append,hu,hv]
    simp
  have hpa := hm.joined hcells
  have hafter : h::(l ++ a::r ++ [t]) = (u ++ [p]) ++ a::n::v := hcells.trans (by simp)
  have han := hm.joined hafter
  have hn := hcells ▸ hm.nodup
  have hsub : (u ++ p::n::v).Sublist (u ++ p::a::n::v) := (List.Sublist.refl u).append ((List.sublist_cons_self a _).cons_cons p)
  have hnot : a ∉ u ++ p::n::v := by
    have hperm : (u ++ p::a::n::v).Perm (a::(u ++ p::n::v)) := by
      simpa using @List.perm_middle _ a (u ++ [p]) (n::v)
    exact (List.nodup_cons.mp (hperm.nodup_iff.mp hn)).1
  refine ⟨p,n,hpa.2,han.1,fun hc => hnot (hc ▸ by simp),fun hc => hnot (hc ▸ by simp),by rw [hv,List.head?_cons],
    hcells' ▸ SameOutside.link (by simp) (by simp),⟨?_,hcells' ▸ hn.sublist hsub,?_,?_⟩⟩
  · rw [hcells']
    exact Threaded.cut (hcells ▸ hm.threaded) hn
  · rw [link_prev,if_neg]
    · exact hm.prev_head
    · have hmem : n ∈ r ++ [t] := hv ▸ List.mem_cons_self
      exact (hm.ne_head (by simp at hmem ⊢; tauto)).symm
  · rw [link_next,if_neg]
    · exact hm.next_tail
    · have hmem : p ∈ h::l := hu ▸ by simp
      exact (hm.ne_tail (by simp at hmem ⊢; tauto)).symm

/-- A new cell is linked in by making it lead to its neighbours. -/
theorem Spans.link (hm : Spans m h t (l ++ r)) (he : e ∉ h::(l ++ r ++ [t])) : ∃ p n, m.prev n = some p ∧ m.next p = some n ∧
    p ≠ e ∧ n ≠ e ∧ (h::l).getLast? = some p ∧ (r ++ [t]).head? = some n ∧ SameOutside (e::h::(l ++ r ++ [t])) m ((m.link p e).link e n) ∧
    Spans ((m.link p e).link e n) h t (l ++ e::r) := by
  obtain ⟨u,p,hu⟩ := exists_last h l
  obtain ⟨n,v,hv⟩ := exists_first r t
  have hcells : h::(l ++ r ++ [t]) = u ++ p::n::v := by
    rw [List.append_assoc,← List.cons_append,hu,hv]
    simp
  have hcells' : h::(l ++ e::r ++ [t]) = u ++ p::e::n::v := by
    rw [List.append_assoc,← List.cons_append,hu,List.cons_append,hv]
    simp
  have hpn := hm.joined hcells
  have hperm : (u ++ p::e::n::v).Perm (e::(u ++ p::n::v)) := by
    simpa using @List.perm_middle _ e (u ++ [p]) (n::v)
  have hn : (u ++ p::e::n::v).Nodup := hperm.nodup_iff.mpr (List.nodup_cons.mpr ⟨hcells ▸ he,hcells ▸ hm.nodup⟩)
  have hne : ∀ c ∈ h::(l ++ r ++ [t]), c ≠ e := fun c hc hce => he (hce ▸ hc)
  refine ⟨p,n,hpn.2,hpn.1,hne p (hcells ▸ by simp),hne n (hcells ▸ by simp),by rw [hu,List.getLast?_concat],by rw [hv,List.head?_cons],
    hcells ▸ (SameOutside.link (by simp) (by simp)).trans (SameOutside.link (by simp) (by simp)),⟨?_,hcells' ▸ hn,?_,?_⟩⟩
  · rw [hcells']
    exact Threaded.paste (hcells ▸ hm.threaded) hn
  · rw [link_prev,if_neg,link_prev,if_neg (hne h List.mem_cons_self)]
    · exact hm.prev_head
    · have hmem : n ∈ r ++ [t] := hv ▸ List.mem_cons_self
      exact (hm.ne_head (by simp at hmem ⊢; tauto)).symm
  · rw [link_next,if_neg (hne t (by simp)),link_next,if_neg]
    · exact hm.next_tail
    · have hmem : p ∈ h::l := hu ▸ by simp
      exact (hm.ne_tail (by simp at hmem ⊢; tauto)).symm

/-! ### Several lists -/

variable [DecidableEq ι]

/-- A cell is unlinked from its list, and can be linked in elsewhere. -/
theorem Lists.unlink (hls : Lists H m ls) (hi : ls i = u ++ a::r) : ∃ p n, m.prev a = some p ∧ m.next a = some n ∧ p ≠ a ∧ n ≠ a ∧
    (r ++ [(H i).tail]).head? = some n ∧ Lists H (m.link p n) (Function.update ls i (u ++ r)) ∧
    Outside H (Function.update ls i (u ++ r)) a := by
  obtain ⟨p,n,hp,hn,hpa,hna,hhead,hsame,hm'⟩ := (hi ▸ hls.holds i).unlink
  have hls' : Lists H (m.link p n) (Function.update ls i (u ++ r)) := by
    refine hls.update hm' hsame (fun c hc => .inl ?_) fun c hc => .inl ?_
    · rw [hi]
      simp [cells] at hc ⊢
      tauto
    · rw [hi]
      simp at hc ⊢
      tauto
  exact ⟨p,n,hp,hn,hpa,hna,hhead,hls',hls'.outside_of_removed hls hi⟩

/-- A cell that is in no list is linked into one. -/
theorem Lists.link (hls : Lists H m ls) (hi : ls i = u ++ r) (he : Outside H ls e) : ∃ p n, m.prev n = some p ∧ m.next p = some n ∧
    p ≠ e ∧ n ≠ e ∧ ((H i).head::u).getLast? = some p ∧ (r ++ [(H i).tail]).head? = some n ∧
    Lists H ((m.link p e).link e n) (Function.update ls i (u ++ e::r)) := by
  obtain ⟨p,n,hp,hn,hpe,hne,hlast,hhead,hsame,hm'⟩ := (hi ▸ hls.holds i).link (hi ▸ he i)
  refine ⟨p,n,hp,hn,hpe,hne,hlast,hhead,hls.update hm' hsame (fun c hc => ?_) fun c hc => ?_⟩
  · rcases List.mem_cons.mp hc with rfl | hc
    · exact .inr he
    · exact .inl (hi ▸ hc)
  · rw [hi]
    rcases List.mem_append.mp hc with hc | hc
    · exact .inl (List.mem_append_left _ hc)
    · rcases List.mem_cons.mp hc with rfl | hc
      · exact .inr he
      · exact .inl (List.mem_append_right _ hc)

/-- A list is emptied by making its ends neighbours. -/
theorem Lists.clear (hls : Lists H m ls) : Lists H (m.link (H i).head (H i).tail) (Function.update ls i []) := by
  have hm := hls.holds i
  have hne : (H i).head ≠ (H i).tail := hm.ne_tail List.mem_cons_self
  have hempty : Spans (m.link (H i).head (H i).tail) (H i).head (H i).tail [] := by
    refine ⟨threaded_cons_cons.mpr ⟨⟨by rw [link_next,if_pos rfl],by rw [link_prev,if_pos rfl]⟩,.singleton _⟩,by simpa using hne,?_,?_⟩
    · rw [link_prev,if_neg hne,hm.prev_head]
    · rw [link_next,if_neg hne.symm,hm.next_tail]
  refine hls.update (s := [(H i).head,(H i).tail]) hempty (.link (by simp) (by simp)) (fun c hc => .inl ?_) (by simp)
  simp [cells] at hc ⊢
  tauto

end
end Thread
