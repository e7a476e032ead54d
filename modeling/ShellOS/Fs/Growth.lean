import ShellOS.Fs.FreeMap

/-! What growing a tree of blocks does to it, and how such steps combine.

A tree or forest is given by the sector it has at each place, 0 for none. Growth fills empty
places with fresh sectors and leaves the others alone. -/
namespace ShellOS.Fs
open BlockTree

/-- What a place of a tree can hold. -/
inductive Kind
  | block
  | leaf
  | absent
  deriving DecidableEq

def treeShape (level : ℕ) (π : List ℕ) : Kind :=
  if π.length < level then .block else if π.length = level then .leaf else .absent

def forestShape (lev : ℕ → ℕ) (s : Slot) : Kind := treeShape (lev s.1) s.2

@[simp] theorem treeShape_cons (level i : ℕ) (π : List ℕ) :
    treeShape (level+1) (i::π) = treeShape level π := by
  simp [treeShape]

theorem treeShape_block {level : ℕ} {π : List ℕ} : treeShape level π = .block ↔ π.length < level := by
  unfold treeShape
  split_ifs <;> simp_all

theorem treeShape_leaf {level : ℕ} {π : List ℕ} : treeShape level π = .leaf ↔ π.length = level := by
  unfold treeShape
  split_ifs <;> simp_all
  omega

theorem treeShape_ne_absent {level : ℕ} {π : List ℕ} :
    treeShape level π ≠ .absent ↔ π.length ≤ level := by
  unfold treeShape
  split_ifs <;> simp <;> omega

section
variable {ι κ : Type} {σ : ι → Kind} {τ : κ → Kind} {u v w : Volume} {T T' T'' : ι → BlockSector}

/-- The places hold different allocated sectors, none of them in the free-map file. -/
structure Owns (v : Volume) (σ : ι → Kind) (T : ι → BlockSector) : Prop where
  used : ∀ s, σ s ≠ .absent → T s ≠ 0 → Used v (T s)
  apart : ∀ s, σ s ≠ .absent → ¬ FmNode v (T s)
  inj : ∀ s t, σ s ≠ .absent → σ t ≠ .absent → T s = T t → T s ≠ 0 → s = t

/-- Sector `s` was allocated in between. -/
def Fresh (v w : Volume) (s : BlockSector) : Prop := Free v s ∧ Used w s

/-- The sectors growth may write. -/
def Touched (σ : ι → Kind) (v w : Volume) (T : ι → BlockSector) (s : BlockSector) : Prop :=
  s = 0 ∨ Fresh v w s ∨ ∃ t, σ t = .block ∧ T t = s

/-- Growth from `v` to `w` of a forest that had the sectors `T` and has `T'` now. -/
structure Grows (σ : ι → Kind) (v w : Volume) (T T' : ι → BlockSector) : Prop where
  keeps : Keeps v w (Touched σ v w T)
  used : ∀ s, Used v s → Used w s
  releases : w.releases = v.releases
  keep : ∀ s, σ s ≠ .absent → T s ≠ 0 → T' s = T s
  fresh : ∀ s, σ s ≠ .absent → T s = 0 → T' s ≠ 0 → Fresh v w (T' s)
  inj : ∀ s t, σ s ≠ .absent → σ t ≠ .absent → T' s = T' t → T' s ≠ 0 → s = t
  zero : ∀ s, σ s = .leaf → T s = 0 → T' s ≠ 0 → w.sectors (T' s) = Sector.zeros

theorem Used.of_not_free (hb : w.freeMap.bitCnt = v.freeMap.bitCnt) {s : BlockSector} (h : Used w s)
    (hs : ¬ Free v s) : Used v s := by
  refine ⟨hb ▸ h.1,?_⟩
  by_contra hc
  exact hs ⟨hb ▸ h.1,by simpa using hc⟩

theorem Free.of_grows (g : Grows σ v w T T') {s : BlockSector} (h : Free w s) : Free v s := by
  have hb := g.keeps.bitCnt
  refine ⟨hb ▸ h.1,?_⟩
  by_contra hc
  exact (g.used s ⟨hb ▸ h.1,by simpa using hc⟩).not_free h

theorem Grows.refl (h : v.Ok) (ho : Owns v σ T) : Grows σ v v T T where
  keeps := Keeps.refl h _
  used _ hs := hs
  releases := rfl
  keep _ _ _ := rfl
  fresh _ _ h0 hn := absurd h0 hn
  inj := ho.inj
  zero _ _ h0 hn := absurd h0 hn

theorem Grows.owns (g : Grows σ v w T T') (ho : Owns v σ T) (hv : v.Ok) : Owns w σ T' where
  used s hs h0 := by
    by_cases ht : T s = 0
    · exact (g.fresh s hs ht h0).2
    · rw [g.keep s hs ht]
      exact g.used _ (ho.used s hs ht)
  apart s hs hn := by
    rw [g.keeps.fmNode_iff] at hn
    by_cases ht : T s = 0
    · exact (hn.used hv.ready).not_free (g.fresh s hs ht hn.1).1
    · rw [g.keep s hs ht] at hn
      exact ho.apart s hs hn
  inj := g.inj

/-- A sector in use that growth has no reason to write stays as it is. -/
theorem Grows.same (g : Grows σ v w T T') {s : BlockSector} (h0 : s ≠ 0) (hs : Used v s)
    (hT : ∀ t, σ t = .block → T t ≠ s) (hfm : ¬ FmLeaf v s) : Same v w s := by
  apply g.keeps.frame s _ hfm
  rintro (h | h | ⟨t,ht,he⟩)
  · exact h0 h
  · exact hs.not_free h.1
  · exact hT t ht he

theorem Grows.trans (hu : u.Ok) (g : Grows σ u v T T') (h : Grows σ v w T' T'') :
    Grows σ u w T T'' := by
  have hfresh : ∀ s, Fresh u v s → Fresh u w s := fun s hs => ⟨hs.1,h.used s hs.2⟩
  have hfresh' : ∀ s, Fresh v w s → Fresh u w s := fun s hs => ⟨hs.1.of_grows g,hs.2⟩
  have hinner : ∀ s, (∃ t, σ t = .block ∧ T' t = s) → Touched σ u w T s := by
    rintro s ⟨t,ht,rfl⟩
    have hp : σ t ≠ .absent := by rw [ht]; decide
    by_cases h0 : T' t = 0
    · exact Or.inl h0
    by_cases hT : T t = 0
    · exact Or.inr (Or.inl (hfresh _ (g.fresh t hp hT h0)))
    · exact Or.inr (Or.inr ⟨t,ht,(g.keep t hp hT).symm⟩)
  refine ⟨?_,fun s hs => h.used s (g.used s hs),h.releases.trans g.releases,?_,?_,h.inj,?_⟩
  · refine Keeps.trans (g.keeps.mono ?_) (h.keeps.mono ?_)
    · rintro s (hs | hs | hs)
      · exact Or.inl hs
      · exact Or.inr (Or.inl (hfresh s hs))
      · exact Or.inr (Or.inr hs)
    · rintro s (hs | hs | hs)
      · exact Or.inl hs
      · exact Or.inr (Or.inl (hfresh' s hs))
      · exact hinner s hs
  · intro s hs h0
    have h1 := g.keep s hs h0
    exact (h.keep s hs (h1 ▸ h0)).trans h1
  · intro s hs h0 h2
    by_cases h1 : T' s = 0
    · exact hfresh' _ (h.fresh s hs h1 h2)
    · rw [h.keep s hs h1]
      exact hfresh _ (g.fresh s hs h0 h1)
  · intro s hs h0 h2
    have hp : σ s ≠ .absent := by rw [hs]; decide
    by_cases h1 : T' s = 0
    · exact h.zero s hs h1 h2
    rw [h.keep s hp h1]
    -- a fresh data sector is no block, so the second part does not write it
    have hf := g.fresh s hp h0 h1
    rw [(h.same h1 hf.2 ?_ ?_).1]
    · exact g.zero s hs h0 h1
    · intro t ht he
      have htp : σ t ≠ .absent := by rw [ht]; decide
      obtain rfl := g.inj s t hp htp he.symm h1
      rw [hs] at ht
      simp at ht
    · rw [g.keeps.fmLeaf_iff]
      exact fun hl => ((hl.node hu.ready).used hu.ready).not_free hf.1

theorem Grows.congr (g : Grows σ v w T T') (h : ∀ s, σ s ≠ .absent → T'' s = T' s) :
    Grows σ v w T T'' := by
  have hl : ∀ s, σ s = .leaf → T'' s = T' s := fun s hs => h s (by rw [hs]; decide)
  refine { g with keep := ?_, fresh := ?_, inj := ?_, zero := ?_ }
  · intro s hs h0
    rw [h s hs]
    exact g.keep s hs h0
  · intro s hs h0 h1
    rw [h s hs] at h1 ⊢
    exact g.fresh s hs h0 h1
  · intro s t hs ht he h0
    rw [h s hs] at he h0
    rw [h t ht] at he
    exact g.inj s t hs ht he h0
  · intro s hs h0 h1
    rw [hl s hs] at h1 ⊢
    exact g.zero s hs h0 h1

/-- New sectors that are not recorded are lost. -/
theorem Grows.forget (g : Grows σ v w T T')
    (h : ∀ s, σ s ≠ .absent → T'' s = T' s ∨ (T s = 0 ∧ T'' s = 0)) : Grows σ v w T T'' := by
  have hne : ∀ s, σ s ≠ .absent → T'' s ≠ 0 → T'' s = T' s :=
    fun s hs h0 => (h s hs).resolve_right fun hc => h0 hc.2
  refine { g with keep := ?_, fresh := ?_, inj := ?_, zero := ?_ }
  · intro s hs h0
    rw [(h s hs).resolve_right fun hc => h0 hc.1]
    exact g.keep s hs h0
  · intro s hs h0 h1
    have he := hne s hs h1
    rw [he] at h1 ⊢
    exact g.fresh s hs h0 h1
  · intro s t hs ht he h0
    have h1 := hne s hs h0
    have h2 := hne t ht (he ▸ h0)
    exact g.inj s t hs ht (by rw [← h1,← h2,he]) (h1 ▸ h0)
  · intro s hs h0 h1
    have he := hne s (by rw [hs]; decide) h1
    rw [he] at h1 ⊢
    exact g.zero s hs h0 h1

/-- Growth of a part, embedded in the whole by `e`. -/
theorem Grows.lift {S S' : κ → BlockSector} (e : κ → ι) (hσ : ∀ k, σ (e k) = τ k)
    (hT : ∀ k, τ k ≠ .absent → T (e k) = S k) (hT' : ∀ k, τ k ≠ .absent → T' (e k) = S' k)
    (hout : ∀ s, (∀ k, s ≠ e k) → σ s ≠ .absent → T' s = T s) (ho : Owns v σ T)
    (g : Grows τ v w S S') : Grows σ v w T T' := by
  have hin : ∀ s, (∃ k, s = e k) ∨ ∀ k, s ≠ e k := fun s => by
    by_cases h : ∃ k, s = e k
    · exact Or.inl h
    · exact Or.inr fun k hk => h ⟨k,hk⟩
  have hp : ∀ k, σ (e k) ≠ .absent → τ k ≠ .absent := fun k hk => by rwa [hσ] at hk
  -- a place outside the part never gets the sector of a place inside
  have hmix : ∀ k t, σ (e k) ≠ .absent → σ t ≠ .absent → (∀ j, t ≠ e j) → T' (e k) = T' t →
      T' (e k) = 0 := by
    intro k t hk ht hj he
    by_contra h0
    rw [hout t hj ht] at he
    have hu := ho.used t ht (he ▸ h0)
    rw [hT' k (hp k hk)] at he h0
    by_cases hS : S k = 0
    · exact hu.not_free (he ▸ (g.fresh k (hp k hk) hS h0).1)
    · rw [g.keep k (hp k hk) hS,← hT k (hp k hk)] at he
      rw [← hT k (hp k hk)] at hS
      exact hj k (ho.inj _ _ hk ht he hS).symm
  refine ⟨g.keeps.mono ?_,g.used,g.releases,?_,?_,?_,?_⟩
  · rintro s (h | h | ⟨k,hk,rfl⟩)
    · exact Or.inl h
    · exact Or.inr (Or.inl h)
    · exact Or.inr (Or.inr ⟨e k,by rw [hσ,hk],hT k (by rw [hk]; decide)⟩)
  · intro s hs h0
    rcases hin s with ⟨k,rfl⟩ | h
    · rw [hT k (hp k hs)] at h0 ⊢
      rw [hT' k (hp k hs)]
      exact g.keep k (hp k hs) h0
    · exact hout s h hs
  · intro s hs h0 h1
    rcases hin s with ⟨k,rfl⟩ | h
    · rw [hT k (hp k hs)] at h0
      rw [hT' k (hp k hs)] at h1 ⊢
      exact g.fresh k (hp k hs) h0 h1
    · exact absurd ((hout s h hs).trans h0) h1
  · intro s t hs ht he h0
    rcases hin s with ⟨k,rfl⟩ | h <;> rcases hin t with ⟨j,rfl⟩ | h'
    · rw [hT' k (hp k hs)] at he h0
      rw [hT' j (hp j ht)] at he
      rw [g.inj k j (hp k hs) (hp j ht) he h0]
    · exact absurd (hmix k t hs ht h' he) h0
    · exact absurd (he.trans (hmix j s ht hs h he.symm)) h0
    · rw [hout s h hs] at he h0
      rw [hout t h' ht] at he
      exact ho.inj s t hs ht he h0
  · intro s hs h0 h1
    have hs' : σ s ≠ .absent := by rw [hs]; decide
    rcases hin s with ⟨k,rfl⟩ | h
    · rw [hT k (hp k hs')] at h0
      rw [hT' k (hp k hs')] at h1 ⊢
      exact g.zero k (by rw [← hσ,hs]) h0 h1
    · exact absurd ((hout s h hs').trans h0) h1

/-- Writing a block back. -/
theorem Grows.write (h : v.Ok) (ho : Owns v σ T) {t : ι} (ht : σ t = .block) (data : Sector) :
    Grows σ v (bufferCacheWrite (T t) data v) T T where
  keeps := (keeps_write h data (ho.apart t (by rw [ht]; decide))).mono
    fun _ hs => Or.inr (Or.inr ⟨t,ht,hs.symm⟩)
  used _ hs := hs
  releases := rfl
  keep _ _ _ := rfl
  fresh _ _ h0 hn := absurd h0 hn
  inj := ho.inj
  zero _ _ h0 hn := absurd h0 hn

end
end ShellOS.Fs
