import Mathlib

/-! A map kept in an array of slots: every slot has a key, and one reserved key marks those that are
free. -/
namespace MarkedSlots

/-- How the slots of a memory hold keys and values. -/
structure Layout (σ K V : Type) where
  slots : List ℕ
  nodup : slots.Nodup
  key : σ → K
  value : σ → V
  cell : K → V → σ
  /-- the key of a free slot -/
  marker : K
  empty : σ
  key_cell : ∀ k v, key (cell k v) = k
  value_cell : ∀ k v, value (cell k v) = v
  key_empty : key empty = marker

inductive Op (K V : Type)
  | set (k : K) (v : V)
  | get (k : K)
  | reset

variable {σ K V : Type} [DecidableEq K]

namespace Layout
variable (L : Layout σ K V)

/-- The first slot with the key. -/
def find (m : ℕ → σ) (k : K) : Option ℕ := L.slots.find? fun i => decide (L.key (m i) = k)

def get (m : ℕ → σ) (k : K) : Option V := (L.find m k).map fun i => L.value (m i)

/-- The slot of the key, or else a free one, is written. -/
def set (k : K) (v : V) (m : ℕ → σ) : ℕ → σ :=
  match L.find m k with
  | some i => Function.update m i (L.cell k v)
  | none => match L.find m L.marker with
    | some i => Function.update m i (L.cell k v)
    | none => m

def reset (m : ℕ → σ) : ℕ → σ := fun i => if i ∈ L.slots then L.empty else m i

def apply (m : ℕ → σ) : Op K V → ℕ → σ
  | .set k v => L.set k v m
  | .get _ => m
  | .reset => L.reset m

def run (ops : List (Op K V)) (m : ℕ → σ) : ℕ → σ := ops.foldl L.apply m

end Layout

/-- What an operation makes of the value last set under a key. -/
def latestStep (k : K) (last : Option V) : Op K V → Option V
  | .set k' v => if k' = k then some v else last
  | .get _ => last
  | .reset => none

/-- The value of the last set of the key since the last reset. -/
def latest (ops : List (Op K V)) (k : K) : Option V := ops.foldl (latestStep k) none

def namesStep (names : Finset K) : Op K V → Finset K
  | .set k _ => insert k names
  | .get _ => names
  | .reset => ∅

/-- The keys set since the last reset. -/
def names (ops : List (Op K V)) : Finset K := ops.foldl namesStep ∅

/-- There is always room for the keys set since the last reset. -/
def Fits (capacity : ℕ) (ops : List (Op K V)) : Prop := ∀ p, p <+: ops → (names p).card ≤ capacity

theorem card_names_le (ops : List (Op K V)) : (names ops).card ≤ ops.length := by
  induction ops using List.reverseRecOn with
  | nil => exact le_rfl
  | append_singleton ops op ih =>
    simp only [names,List.foldl_append,List.foldl_cons,List.foldl_nil,List.length_append,List.length_singleton] at ih ⊢
    cases op with
    | set k v => exact (Finset.card_insert_le _ _).trans (by omega)
    | get _ => exact ih.trans (by omega)
    | reset => simp [namesStep]

theorem fits_of_length_le {capacity : ℕ} {ops : List (Op K V)} (h : ops.length ≤ capacity) : Fits capacity ops :=
  fun p hp => (card_names_le p).trans (hp.length_le.trans h)

namespace Layout
variable {L : Layout σ K V} {m : ℕ → σ} {k k' : K} {v : V} {i : ℕ}

/-- The keys that occupy a slot are those of the set, each one slot. -/
structure Holds (L : Layout σ K V) (m : ℕ → σ) (ks : Finset K) : Prop where
  inj : ∀ i ∈ L.slots, ∀ j ∈ L.slots, L.key (m i) = L.key (m j) → L.key (m i) ≠ L.marker → i = j
  mem_iff : ∀ k ≠ L.marker, k ∈ ks ↔ ∃ i ∈ L.slots, L.key (m i) = k

theorem mem_of_find (h : L.find m k = some i) : i ∈ L.slots ∧ L.key (m i) = k :=
  ⟨List.mem_of_find?_eq_some h,by simpa using List.find?_some h⟩

theorem find_eq_none_iff : L.find m k = none ↔ ∀ i ∈ L.slots, L.key (m i) ≠ k := by
  simp [find,List.find?_eq_none]

theorem find_isSome_iff : (∃ i, L.find m k = some i) ↔ ∃ i ∈ L.slots, L.key (m i) = k := by
  rw [← Option.ne_none_iff_exists',Ne,find_eq_none_iff]
  push Not
  rfl

variable {ks : Finset K}

theorem Holds.find_eq_some_iff (h : L.Holds m ks) (hk : k ≠ L.marker) :
    L.find m k = some i ↔ i ∈ L.slots ∧ L.key (m i) = k := by
  refine ⟨mem_of_find,fun ⟨hi,hkey⟩ => ?_⟩
  obtain ⟨j,hj⟩ := find_isSome_iff.mpr ⟨i,hi,hkey⟩
  obtain ⟨hj',hkey'⟩ := mem_of_find hj
  rw [hj,h.inj i hi j hj' (hkey.trans hkey'.symm) (hkey ▸ hk)]

/-- A slot is free unless the keys fill them all. -/
theorem Holds.exists_free (h : L.Holds m ks) (hlt : (ks.erase L.marker).card < L.slots.length) :
    ∃ i, L.find m L.marker = some i := by
  by_contra hnone
  rw [← Option.ne_none_iff_exists',not_not,find_eq_none_iff] at hnone
  have hsub : L.slots.toFinset.image (fun i => L.key (m i)) ⊆ ks.erase L.marker := by
    intro k hk
    obtain ⟨i,hi,rfl⟩ := Finset.mem_image.mp hk
    have hi := List.mem_toFinset.mp hi
    exact Finset.mem_erase.mpr ⟨hnone i hi,(h.mem_iff _ (hnone i hi)).mpr ⟨i,hi,rfl⟩⟩
  have hcard := Finset.card_le_card hsub
  rw [Finset.card_image_of_injOn,List.toFinset_card_of_nodup L.nodup] at hcard
  · omega
  · intro i hi j hj hij
    have hi := List.mem_toFinset.mp hi
    exact h.inj i hi j (List.mem_toFinset.mp hj) hij (hnone i hi)

/-- A write puts the key in one slot, its own or a free one. -/
theorem Holds.set_spec (h : L.Holds m ks) (hk : k ≠ L.marker) (hroom : (insert k ks).card ≤ L.slots.length) (v : V) :
    ∃ i ∈ L.slots, (L.key (m i) = k ∨ L.key (m i) = L.marker ∧ k ∉ ks) ∧
      L.set k v m = Function.update m i (L.cell k v) := by
  unfold set
  cases hf : L.find m k with
  | some i =>
    obtain ⟨hi,hkey⟩ := mem_of_find hf
    exact ⟨i,hi,.inl hkey,rfl⟩
  | none =>
    have hnew : k ∉ ks := fun hmem => by
      obtain ⟨i,hi,hkey⟩ := (h.mem_iff k hk).mp hmem
      exact find_eq_none_iff.mp hf i hi hkey
    have hlt : (ks.erase L.marker).card < L.slots.length := by
      have hle := Finset.card_le_card (Finset.erase_subset L.marker ks)
      rw [Finset.card_insert_of_notMem hnew] at hroom
      omega
    obtain ⟨i,hi⟩ := h.exists_free hlt
    obtain ⟨hmem,hkey⟩ := mem_of_find hi
    exact ⟨i,hmem,.inr ⟨hkey,hnew⟩,by simp [hi]⟩

omit [DecidableEq K] in
theorem key_update (i j : ℕ) : L.key (Function.update m i (L.cell k v) j) = if j = i then k else L.key (m j) := by
  by_cases h : j = i
  · rw [h,Function.update_self,if_pos rfl,L.key_cell]
  · rw [Function.update_of_ne h,if_neg h]

/-- The slot written keeps the key or takes it over from no other. -/
theorem Holds.update (h : L.Holds m ks) (hk : k ≠ L.marker) (hi : i ∈ L.slots)
    (hslot : L.key (m i) = k ∨ L.key (m i) = L.marker ∧ k ∉ ks) (v : V) :
    L.Holds (Function.update m i (L.cell k v)) (insert k ks) := by
  have hother : ∀ j ∈ L.slots, L.key (m j) = k → j = i := by
    intro j hj hkey
    cases hslot with
    | inl hown => exact h.inj j hj i hi (hkey.trans hown.symm) (hkey ▸ hk)
    | inr hfree => exact absurd ((h.mem_iff k hk).mpr ⟨j,hj,hkey⟩) hfree.2
  constructor
  · intro a ha b hb hab hmark
    rw [key_update] at hab hmark
    rw [key_update] at hab
    by_cases hai : a = i <;> by_cases hbi : b = i
    · exact hai.trans hbi.symm
    · rw [if_pos hai,if_neg hbi] at hab
      exact absurd (hother b hb hab.symm) hbi
    · rw [if_neg hai,if_pos hbi] at hab
      exact absurd (hother a ha hab) hai
    · rw [if_neg hai,if_neg hbi] at hab
      rw [if_neg hai] at hmark
      exact h.inj a ha b hb hab hmark
  · intro k' hk'
    rw [Finset.mem_insert]
    constructor
    · rintro (rfl | hmem)
      · exact ⟨i,hi,by rw [key_update,if_pos rfl]⟩
      · obtain ⟨j,hj,hkey⟩ := (h.mem_iff k' hk').mp hmem
        by_cases hji : j = i
        · subst hji
          have hkk : k = k' := by
            cases hslot with
            | inl hown => exact hown.symm.trans hkey
            | inr hfree => exact absurd (hkey.symm.trans hfree.1) hk'
          exact ⟨j,hj,by rw [key_update,if_pos rfl,hkk]⟩
        · exact ⟨j,hj,by rw [key_update,if_neg hji,hkey]⟩
    · rintro ⟨j,hj,hkey⟩
      rw [key_update] at hkey
      by_cases hji : j = i
      · rw [if_pos hji] at hkey
        exact .inl hkey.symm
      · rw [if_neg hji] at hkey
        exact .inr ((h.mem_iff k' hk').mpr ⟨j,hj,hkey⟩)

/-- What a write at the slot of `k`, or at a free one, does to the reads of a key. -/
theorem Holds.get_update (h : L.Holds m ks) (hk : k ≠ L.marker) (hi : i ∈ L.slots)
    (hslot : L.key (m i) = k ∨ L.key (m i) = L.marker ∧ k ∉ ks) (v : V) (hk' : k' ≠ L.marker) :
    L.get (Function.update m i (L.cell k v)) k' = if k = k' then some v else L.get m k' := by
  have hnew := h.update hk hi hslot v
  by_cases hkk : k = k'
  · subst hkk
    have hfind : L.find (Function.update m i (L.cell k v)) k = some i :=
      (hnew.find_eq_some_iff hk).mpr ⟨hi,by rw [key_update,if_pos rfl]⟩
    rw [get,hfind,Option.map_some,Function.update_self,L.value_cell,if_pos rfl]
  · have hne : L.key (m i) ≠ k' := by
      cases hslot with
      | inl hown => exact hown ▸ hkk
      | inr hfree => exact hfree.1 ▸ hk'.symm
    have hfind : L.find (Function.update m i (L.cell k v)) k' = L.find m k' := by
      ext j
      rw [hnew.find_eq_some_iff hk',h.find_eq_some_iff hk',key_update]
      by_cases hji : j = i
      · simp [hji,hkk,hne]
      · rw [if_neg hji]
    rw [get,hfind,if_neg hkk,get]
    refine Option.map_congr fun j hj => ?_
    have hji : j ≠ i := fun he => hne (he ▸ (mem_of_find hj).2)
    rw [Function.update_of_ne hji]

/-- A write under the marker changes no key. -/
theorem Holds.set_marker (h : L.Holds m ks) (v : V) :
    L.Holds (L.set L.marker v m) (insert L.marker ks) ∧ ∀ k ≠ L.marker, L.get (L.set L.marker v m) k = L.get m k := by
  have hmem : ∀ k ≠ L.marker, (k ∈ insert L.marker ks ↔ k ∈ ks) := fun k hk => by simp [hk]
  cases hf : L.find m L.marker with
  | none =>
    have hset : L.set L.marker v m = m := by simp [set,hf]
    rw [hset]
    exact ⟨⟨h.inj,fun k hk => (hmem k hk).trans (h.mem_iff k hk)⟩,fun _ _ => rfl⟩
  | some i =>
    obtain ⟨hi,hkey⟩ := mem_of_find hf
    have hset : L.set L.marker v m = Function.update m i (L.cell L.marker v) := by simp [set,hf]
    rw [hset]
    have hkeys : ∀ j, L.key (Function.update m i (L.cell L.marker v) j) = L.key (m j) := fun j => by
      rw [key_update]
      split
      · rename_i hji
        rw [hji,hkey]
      · rfl
    refine ⟨⟨fun a ha b hb => ?_,fun k hk => (hmem k hk).trans ?_⟩,fun k hk => ?_⟩
    · rw [hkeys,hkeys]
      exact h.inj a ha b hb
    · simp only [hkeys]
      exact h.mem_iff k hk
    · have hfind : L.find (Function.update m i (L.cell L.marker v)) k = L.find m k := by
        simp only [find,hkeys]
      rw [get,hfind,get]
      refine Option.map_congr fun j hj => ?_
      have hji : j ≠ i := by
        rintro rfl
        exact hk ((mem_of_find hj).2.symm.trans hkey)
      rw [Function.update_of_ne hji]

omit [DecidableEq K] in
theorem holds_reset (L : Layout σ K V) (m : ℕ → σ) : L.Holds (L.reset m) ∅ := by
  have hkey : ∀ i ∈ L.slots, L.key (L.reset m i) = L.marker := fun i hi => by rw [reset,if_pos hi,L.key_empty]
  refine ⟨fun i hi _ _ _ hmark => absurd (hkey i hi) hmark,fun k hk => ?_⟩
  refine iff_of_false (Finset.notMem_empty k) ?_
  rintro ⟨i,hi,he⟩
  exact hk (he.symm.trans (hkey i hi))

theorem get_reset (m : ℕ → σ) (hk : k ≠ L.marker) : L.get (L.reset m) k = none := by
  have hnone : L.find (L.reset m) k = none := find_eq_none_iff.mpr fun i hi => by
    rw [reset,if_pos hi,L.key_empty]
    exact hk.symm
  rw [get,hnone,Option.map_none]

/-- One operation. -/
theorem Holds.apply (h : L.Holds m ks) (op : Op K V) (hroom : (namesStep ks op).card ≤ L.slots.length) :
    L.Holds (L.apply m op) (namesStep ks op) ∧
      ∀ k ≠ L.marker, L.get (L.apply m op) k = latestStep k (L.get m k) op := by
  cases op with
  | get k => exact ⟨h,fun _ _ => rfl⟩
  | reset => exact ⟨holds_reset L m,fun k hk => get_reset m hk⟩
  | set k v =>
    by_cases hk : k = L.marker
    · subst hk
      obtain ⟨hholds,hget⟩ := h.set_marker v
      refine ⟨hholds,fun k' hk' => (hget k' hk').trans ?_⟩
      rw [latestStep,if_neg hk'.symm]
    · obtain ⟨i,hi,hslot,he⟩ := h.set_spec hk hroom v
      rw [Layout.apply,he]
      exact ⟨h.update hk hi hslot v,fun k' hk' => h.get_update hk hi hslot v hk'⟩

/-- From a reset on, every key but the marker reads the value it was set to last. -/
theorem get_run (L : Layout σ K V) (ops : List (Op K V)) (m : ℕ → σ) (hfits : Fits L.slots.length ops) :
    L.Holds (L.run ops (L.reset m)) (names ops) ∧
      ∀ k ≠ L.marker, L.get (L.run ops (L.reset m)) k = latest ops k := by
  induction ops using List.reverseRecOn with
  | nil => exact ⟨holds_reset L m,fun k hk => get_reset m hk⟩
  | append_singleton ops op ih =>
    obtain ⟨hholds,hget⟩ := ih fun p hp => hfits p (hp.trans (List.prefix_append ops [op]))
    have hroom := hfits (ops ++ [op]) (List.prefix_refl _)
    simp only [names,List.foldl_append,List.foldl_cons,List.foldl_nil] at hroom
    obtain ⟨hholds',hget'⟩ := hholds.apply op hroom
    simp only [run,names,latest,List.foldl_append,List.foldl_cons,List.foldl_nil]
    refine ⟨hholds',fun k hk => (hget' k hk).trans ?_⟩
    exact congrArg (latestStep k · op) (hget k hk)

end Layout
end MarkedSlots
