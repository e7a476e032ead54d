import ShellOS.Fs.InodeReserve

/-! `inode_deallocate`: the sectors it gives back. -/
namespace ShellOS.Fs
open BlockTree

/-- The sectors `P` were given back, one release for each occurrence, and nothing else changed. -/
structure Released (P : List BlockSector) (v w : Volume) : Prop where
  keeps : Keeps v w (fun _ => False)
  test : ∀ s : BlockSector, w.freeMap.bitmapTest s.toNat = (v.freeMap.bitmapTest s.toNat && !decide (s ∈ P))
  releases : ∀ s, w.releases s = v.releases s + P.count s

/-- Every sector released was in use, so each of them is one free sector more. -/
theorem Released.count {v w : Volume} {P : List BlockSector} (h : Released P v w) (hu : ∀ s ∈ P, Used v s) (hn : P.Nodup) :
    numFreeSectors w = numFreeSectors v + P.length := by
  have hnodup : (P.map UInt32.toNat).Nodup := hn.map fun a b hab => UInt32.toNat_inj.mp hab
  have hmem : ∀ i, i ∈ (P.map UInt32.toNat).toFinset ↔ ∃ s ∈ P, s.toNat = i := fun i => by
    rw [List.mem_toFinset,List.mem_map]
  have hbits : w.freeMap.clearBits = v.freeMap.clearBits ∪ (P.map UInt32.toNat).toFinset := by
    ext i
    rw [Finset.mem_union,Bitmap.mem_clearBits,Bitmap.mem_clearBits,hmem,h.keeps.bitCnt]
    by_cases hi : i < v.freeMap.bitCnt
    · have hlt := h.keeps.ok.bitCnt_lt
      rw [h.keeps.bitCnt] at hlt
      have hs : (UInt32.ofNat i).toNat = i := UInt32.toNat_ofNat_of_lt' (by rw [UInt32.size]; omega)
      have ht := h.test (UInt32.ofNat i)
      rw [hs] at ht
      rw [ht]
      have hin : UInt32.ofNat i ∈ P ↔ ∃ s ∈ P, s.toNat = i :=
        ⟨fun hm => ⟨_,hm,hs⟩,fun ⟨s,hm,he⟩ => by rwa [← he,UInt32.ofNat_toNat]⟩
      rw [← hin]
      by_cases hm : UInt32.ofNat i ∈ P
      · simp [hm,hi]
      · simp [hm,hi]
    · refine ⟨fun hc => absurd hc.1 hi,fun hc => ?_⟩
      rcases hc with hc | ⟨s,hm,rfl⟩
      · exact absurd hc.1 hi
      · exact absurd (hu s hm).1 hi
  have hdisj : Disjoint v.freeMap.clearBits (P.map UInt32.toNat).toFinset := by
    rw [Finset.disjoint_left]
    intro i hi hm
    obtain ⟨s,hs,rfl⟩ := (hmem i).mp hm
    exact (hu s hs).not_free ((Bitmap.mem_clearBits _ _).mp hi)
  rw [numFreeSectors,numFreeSectors,Bitmap.count_clear,Bitmap.count_clear,hbits,Finset.card_union_of_disjoint hdisj,
    List.toFinset_card_of_nodup hnodup,List.length_map]

theorem Released.nil {v : Volume} (hv : v.Ok) : Released [] v v :=
  ⟨Keeps.refl hv _,fun s => by simp,fun s => by simp⟩

theorem Released.append {u v w : Volume} {P Q : List BlockSector} (h : Released P u v)
    (g : Released Q v w) : Released (P ++ Q) u w := by
  refine ⟨h.keeps.trans g.keeps,fun s => ?_,fun s => ?_⟩
  · rw [g.test,h.test]
    simp only [List.mem_append,Bool.decide_or,Bool.not_or,Bool.and_assoc]
  · rw [g.releases,h.releases,List.count_append,Nat.add_assoc]

theorem Released.perm {v w : Volume} {P Q : List BlockSector} (h : Released P v w) (hp : P.Perm Q) :
    Released Q v w := by
  refine ⟨h.keeps,fun s => ?_,fun s => ?_⟩
  · rw [h.test]
    simp only [hp.mem_iff]
  · rw [h.releases,hp.count_eq]

theorem Released.one {v : Volume} (hv : v.Ok) {p : BlockSector} (hp : Used v p) (h0 : p ≠ 0)
    (hfm : ¬ FmNode v p) : Released [p] v (freeMapRelease p 1 v) := by
  obtain ⟨hmap,hrel,hk⟩ := freeMapRelease_spec hv hp h0 hfm
  refine ⟨hk,fun s => ?_,fun s => ?_⟩
  · rw [hmap,Bitmap.test_setMultiple _ _ _ _ (by have := hp.1; omega)]
    have hs : (p.toNat ≤ s.toNat ∧ s.toNat < p.toNat + 1) ↔ s ∈ [p] := by
      rw [List.mem_singleton]
      refine ⟨fun h => UInt32.toNat_inj.mp (by omega),?_⟩
      rintro rfl
      omega
    simp only [hs]
    split <;> simp_all
  · rw [hrel]
    by_cases hs : s = p
    · subst hs
      simp
    · rw [Function.update_of_ne hs,List.count_cons_of_ne (Ne.symm hs),List.count_nil,Nat.add_zero]

theorem Released.used {v w : Volume} {P : List BlockSector} (h : Released P v w) {s : BlockSector}
    (hs : Used v s) (hP : s ∉ P) : Used w s := by
  refine ⟨h.keeps.bitCnt ▸ hs.1,?_⟩
  rw [h.test,hs.2]
  simp [hP]

/-- Sectors the free map does not own keep their contents when the map changes. -/
theorem follow_keeps {v w : Volume} {p : BlockSector} (hv : v.Ok) (h : Keeps v w (fun _ => False)) {π : List ℕ}
    (hfm : ∀ ρ, ρ.length < π.length → ¬ FmNode v (follow (childOf v) p ρ)) :
    follow (childOf w) p π = follow (childOf v) p π := by
  apply follow_congr
  intro ρ i τ he
  have hρ : ρ.length < π.length := by
    rw [he]
    simp only [List.length_append,List.length_cons]
    omega
  by_cases h0 : follow (childOf v) p ρ = 0
  · rw [h0,childOf_null,childOf_null]
  · rw [childOf_of_ne w h0,childOf_of_ne v h0,
      (h.frame _ (fun hc => hc) fun hl => hfm ρ hρ (hl.node hv.ready)).1]

/-- The places `σ'` that keep their sectors when other places of `σ` are given back. -/
theorem Released.owns {ι : Type} {σ σ' : ι → Kind} {T T' : ι → BlockSector} {v w : Volume}
    {P : List BlockSector} (h : Released P v w) (ho : Owns v σ T)
    (hsub : ∀ s, σ' s ≠ .absent → σ s ≠ .absent) (hT : ∀ s, σ' s ≠ .absent → T' s = T s)
    (hP : ∀ q ∈ P, q ≠ 0 ∧ ∃ t, σ t ≠ .absent ∧ σ' t = .absent ∧ T t = q) : Owns w σ' T' := by
  refine ⟨fun s hs h0 => ?_,fun s hs => ?_,fun s t hs ht he h0 => ?_⟩
  · rw [hT s hs] at h0 ⊢
    refine h.used (ho.used s (hsub s hs) h0) fun hmem => ?_
    obtain ⟨-,t,ht,ht',he⟩ := hP _ hmem
    obtain rfl := ho.inj t s ht (hsub s hs) he (fun hc => h0 (he.symm.trans hc))
    exact hs ht'
  · rw [hT s hs,h.keeps.fmNode_iff]
    exact ho.apart s (hsub s hs)
  · rw [hT s hs] at he h0
    rw [hT t ht] at he
    exact ho.inj s t (hsub s hs) (hsub t ht) he h0

/-- The trees of a forest at the roots from `i` to `n`. -/
def someRoots (i n level : ℕ) (s : Slot) : Kind :=
  if i ≤ s.1 ∧ s.1 < n then treeShape level s.2 else .absent

theorem someRoots_ne_absent {i n level : ℕ} {s : Slot} :
    someRoots i n level s ≠ .absent ↔ (i ≤ s.1 ∧ s.1 < n) ∧ s.2.length ≤ level := by
  unfold someRoots
  split_ifs with h
  · rw [treeShape_ne_absent]
    exact ⟨fun hs => ⟨h,hs⟩,fun hs => hs.2⟩
  · simp [h]

theorem deallocateEntries_spec {n level unit : ℕ} (blocks : Sector)
    (hentry : ∀ v p m, 0 < m → m ≤ unit → v.Ok → Owns v (treeShape level) (follow (childOf v) p) →
      (∀ π ∈ walk unitOf level m, follow (childOf v) p π ≠ 0) →
      Released ((walk unitOf level m).map (follow (childOf v) p)) v (inodeDeallocateIndirect level p m v))
    (hu : 0 < unit) (k i m : ℕ) (v : Volume) (hi : i + k ≤ n) (hm : unit * k < m + unit) (hv : v.Ok)
    (ho : Owns v (someRoots i n level) (forestPtr v (Sector.word blocks)))
    (hmap : ∀ s ∈ entryPlaces level unit k i m, forestPtr v (Sector.word blocks) s ≠ 0) :
    Released ((entryPlaces level unit k i m).map (forestPtr v (Sector.word blocks))) v
      (deallocateEntries (inodeDeallocateIndirect level) unit blocks k i m v) := by
  induction k generalizing i m v with
  | zero => exact Released.nil hv
  | succ k ih =>
    rw [Nat.mul_succ] at hm
    have hplace : ∀ π, treeShape level π ≠ .absent → someRoots i n level (i,π) ≠ .absent :=
      fun π hπ => someRoots_ne_absent.mpr ⟨⟨le_rfl,(show i < n by omega)⟩,treeShape_ne_absent.mp hπ⟩
    have htree : Owns v (treeShape level) (follow (childOf v) (Sector.word blocks i)) :=
      ⟨fun π hπ h0 => ho.used (i,π) (hplace π hπ) h0,fun π hπ => ho.apart (i,π) (hplace π hπ),
        fun π ρ hπ hρ he h0 => (Prod.mk.inj (ho.inj (i,π) (i,ρ) (hplace π hπ) (hplace ρ hρ) he h0)).2⟩
    have hne : ∀ π ∈ walk unitOf level (min m unit), follow (childOf v) (Sector.word blocks i) π ≠ 0 :=
      fun π hπ => hmap (i,π) (List.mem_append_left _ (List.mem_map.mpr ⟨π,hπ,rfl⟩))
    have hfirst := hentry v (Sector.word blocks i) (min m unit) (by omega) (by omega) hv htree hne
    rw [deallocateEntries,entryPlaces,List.map_append,List.map_map]
    set w := inodeDeallocateIndirect level (Sector.word blocks i) (min m unit) v with hw
    have hsub : ∀ s, someRoots (i+1) n level s ≠ .absent → someRoots i n level s ≠ .absent := by
      intro s hs
      obtain ⟨h1,h2⟩ := someRoots_ne_absent.mp hs
      exact someRoots_ne_absent.mpr ⟨⟨by omega,h1.2⟩,h2⟩
    -- the later trees are as before
    have hptr : ∀ s, someRoots (i+1) n level s ≠ .absent →
        forestPtr w (Sector.word blocks) s = forestPtr v (Sector.word blocks) s := by
      intro s hs
      obtain ⟨h1,h2⟩ := someRoots_ne_absent.mp hs
      refine follow_keeps hv hfirst.keeps fun ρ hρ => ho.apart (s.1,ρ) ?_
      exact someRoots_ne_absent.mpr ⟨⟨(show i ≤ s.1 by omega),h1.2⟩,(show ρ.length ≤ level by omega)⟩
    have how : Owns w (someRoots (i+1) n level) (forestPtr w (Sector.word blocks)) := by
      refine hfirst.owns ho hsub hptr fun q hq => ?_
      obtain ⟨π,hπ,rfl⟩ := List.mem_map.mp hq
      exact ⟨hne π hπ,(i,π),hplace π (walk_place hπ),if_neg (fun hc => absurd hc.1 (Nat.not_succ_le_self i)),rfl⟩
    have hrest : ∀ s ∈ entryPlaces level unit k (i+1) (m - min m unit),
        someRoots (i+1) n level s ≠ .absent := by
      intro s hs
      obtain ⟨h1,h2,h3⟩ := mem_entryPlaces hs
      exact someRoots_ne_absent.mpr ⟨⟨h1,by omega⟩,h3⟩
    have hlast := ih (i+1) (m - min m unit) w (by omega) (by omega) hfirst.keeps.ok how fun s hs => by
      rw [hptr s (hrest s hs)]
      exact hmap s (List.mem_append_right _ hs)
    rw [List.map_congr_left fun s hs => hptr s (hrest s hs)] at hlast
    exact hfirst.append hlast

theorem Owns.mono {ι : Type} {σ σ' : ι → Kind} {T : ι → BlockSector} {v : Volume} (h : Owns v σ T)
    (hsub : ∀ s, σ' s ≠ .absent → σ s ≠ .absent) : Owns v σ' T :=
  ⟨fun s hs => h.used s (hsub s hs),fun s hs => h.apart s (hsub s hs),
    fun s t hs ht => h.inj s t (hsub s hs) (hsub t ht)⟩

/-- `inode_deallocate_indirect` gives back the blocks and data sectors below an entry. -/
theorem inodeDeallocateIndirect_spec (level : ℕ) : ∀ (m : ℕ) (v : Volume) (p : BlockSector),
    (level ≠ 0 → 0 < m ∧ divRoundUp m (unitOf level) ≤ 128) → v.Ok →
    Owns v (treeShape level) (follow (childOf v) p) →
    (∀ π ∈ walk unitOf level m, follow (childOf v) p π ≠ 0) →
    Released ((walk unitOf level m).map (follow (childOf v) p)) v (inodeDeallocateIndirect level p m v) := by
  induction level with
  | zero =>
    intro m v p _ hv ho hmap
    have hp : treeShape 0 ([] : List ℕ) ≠ .absent := treeShape_ne_absent.mpr le_rfl
    have h0 := hmap [] (nil_mem_walk _ _ _)
    exact Released.one hv (ho.used [] hp h0) h0 (ho.apart [] hp)
  | succ level ih =>
    intro m v p hm hv ho hmap
    obtain ⟨hm0,hk⟩ := hm (Nat.succ_ne_zero _)
    have hu : 0 < unitOf (level+1) := by unfold unitOf; split <;> decide
    have h0 : p ≠ 0 := hmap [] (nil_mem_walk _ _ _)
    have hp : treeShape (level+1) ([] : List ℕ) ≠ .absent := treeShape_ne_absent.mpr (Nat.zero_le _)
    have hT : ∀ s : Slot, forestPtr v (Sector.word (v.sectors p)) s = follow (childOf v) p (s.1 :: s.2) := by
      intro s
      rw [follow_cons,childOf_of_ne v h0]
      rfl
    have hshape : Owns v (someRoots 0 (divRoundUp m (unitOf (level+1))) level)
        (forestPtr v (Sector.word (v.sectors p))) :=
      (ho.entries h0).mono fun s hs => treeShape_ne_absent.mpr (someRoots_ne_absent.mp hs).2
    have hentry : ∀ v p m, 0 < m → m ≤ unitOf (level+1) → v.Ok →
        Owns v (treeShape level) (follow (childOf v) p) →
        (∀ π ∈ walk unitOf level m, follow (childOf v) p π ≠ 0) →
        Released ((walk unitOf level m).map (follow (childOf v) p)) v
          (inodeDeallocateIndirect level p m v) :=
      fun v p m hm hle hv ho hmap => ih m v p (fun _ => entry_capacity hm hle) hv ho hmap
    have hwalk := walk_succ level m
    have hmul := Nat.div_mul_le_self (m + unitOf (level+1) - 1) (unitOf (level+1))
    have hloop := deallocateEntries_spec (v.sectors p) hentry hu (divRoundUp m (unitOf (level+1))) 0 m v
      (Nat.zero_add _).le (by rw [Nat.mul_comm]; unfold divRoundUp; omega) hv hshape
      fun s hs => by
        rw [hT]
        exact hmap _ (by rw [hwalk]; exact List.mem_cons_of_mem _ (List.mem_map.mpr ⟨s,hs,rfl⟩))
    rw [List.map_congr_left fun s _ => hT s] at hloop
    unfold inodeDeallocateIndirect bufferCacheRead
    -- the block itself is given back last
    have hlast := Released.one hloop.keeps.ok (p := p) (hloop.used (ho.used [] hp h0) fun hmem => by
        obtain ⟨s,hs,he⟩ := List.mem_map.mp hmem
        have hs' : treeShape (level+1) (s.1 :: s.2) ≠ .absent := by
          rw [treeShape_cons]
          exact treeShape_ne_absent.mpr (mem_entryPlaces hs).2.2
        have := ho.inj _ [] hs' hp he (fun hc => h0 (he.symm.trans hc))
        simp at this) h0 (by rw [hloop.keeps.fmNode_iff]; exact ho.apart [] hp)
    refine (hloop.append hlast).perm ?_
    rw [hwalk,List.map_cons,List.map_map]
    exact List.perm_append_singleton _ _

theorem inodeDeallocateDirect_eq (d : InodeDisk) (k i m : ℕ) (v : Volume) :
    inodeDeallocateDirect d k i v = deallocateEntries (inodeDeallocateIndirect 0) 1 d k i m v := by
  induction k generalizing i m v with
  | zero => rfl
  | succ k ih => exact ih (i+1) (m - min m 1) _

/-- The places of an inode from root `i` on. -/
def rootsFrom (i : ℕ) (s : Slot) : Kind := if i ≤ s.1 then inodeShape s else .absent

theorem rootsFrom_ne_absent {i : ℕ} {s : Slot} :
    rootsFrom i s ≠ .absent ↔ i ≤ s.1 ∧ s.2.length ≤ inodeLevel s.1 := by
  unfold rootsFrom
  split_ifs with h
  · exact treeShape_ne_absent.trans ⟨fun hs => ⟨h,hs⟩,fun hs => hs.2⟩
  · simp [h]

theorem ptr_keeps {v w : Volume} {d : InodeDisk} {i : ℕ} (hv : v.Ok) (h : Keeps v w (fun _ => False))
    (ho : Owns v (rootsFrom i) (ptr v d)) {s : Slot} (hs : rootsFrom i s ≠ .absent) :
    ptr w d s = ptr v d s := by
  obtain ⟨h1,h2⟩ := rootsFrom_ne_absent.mp hs
  exact follow_keeps hv h fun ρ hρ => ho.apart (s.1,ρ) (rootsFrom_ne_absent.mpr ⟨h1,by dsimp only; omega⟩)

/-- Giving back one of the two trees below an inode. -/
theorem deallocate_tree {v : Volume} {d : InodeDisk} {i m : ℕ} (hi : i < 125)
    (hm : 0 < m ∧ divRoundUp m (unitOf (inodeLevel i)) ≤ 128) (hv : v.Ok)
    (ho : Owns v (rootsFrom i) (ptr v d)) (hmap : ∀ π ∈ walk unitOf (inodeLevel i) m, ptr v d (i,π) ≠ 0) :
    let w := inodeDeallocateIndirect (inodeLevel i) (Sector.word d i) m v
    Released (((walk unitOf (inodeLevel i) m).map fun π => (i,π)).map (ptr v d)) v w ∧
      Owns w (rootsFrom (i+1)) (ptr w d) := by
  have hroot := inodeRoots_eq hi d
  have hplace : ∀ π, treeShape (inodeLevel i) π ≠ .absent → rootsFrom i (i,π) ≠ .absent :=
    fun π hπ => rootsFrom_ne_absent.mpr ⟨le_rfl,treeShape_ne_absent.mp hπ⟩
  have htree : Owns v (treeShape (inodeLevel i)) (follow (childOf v) (Sector.word d i)) := by
    rw [← hroot]
    exact ⟨fun π hπ h0 => ho.used (i,π) (hplace π hπ) h0,fun π hπ => ho.apart (i,π) (hplace π hπ),
      fun π ρ hπ hρ he h0 => (Prod.mk.inj (ho.inj (i,π) (i,ρ) (hplace π hπ) (hplace ρ hρ) he h0)).2⟩
  have hptr : ∀ π, ptr v d (i,π) = follow (childOf v) (Sector.word d i) π := fun π => by rw [← hroot]; rfl
  have hrel := inodeDeallocateIndirect_spec (inodeLevel i) m v (Sector.word d i) (fun _ => hm) hv htree
    fun π hπ => by rw [← hptr]; exact hmap π hπ
  have hsub : ∀ s, rootsFrom (i+1) s ≠ .absent → rootsFrom i s ≠ .absent := fun s hs => by
    obtain ⟨h1,h2⟩ := rootsFrom_ne_absent.mp hs
    exact rootsFrom_ne_absent.mpr ⟨by omega,h2⟩
  refine ⟨by rw [List.map_map]; exact hrel.perm (by simp only [Function.comp_def,hptr]; rfl),
    hrel.owns ho hsub (fun s hs => ptr_keeps hv hrel.keeps ho (hsub s hs)) fun q hq => ?_⟩
  obtain ⟨π,hπ,rfl⟩ := List.mem_map.mp hq
  refine ⟨by rw [← hptr]; exact hmap π hπ,(i,π),hplace π (walk_place hπ),?_,hptr π⟩
  exact if_neg (fun hc : i + 1 ≤ i => absurd hc (Nat.not_succ_le_self i))

/-- Giving back direct blocks. -/
theorem deallocate_direct {v : Volume} {d : InodeDisk} {k : ℕ} (hk : k ≤ 123) (hv : v.Ok)
    (ho : Owns v inodeShape (ptr v d)) (hmap : ∀ j < k, ptr v d (j,[]) ≠ 0) :
    let w := inodeDeallocateDirect d k 0 v
    Released (((List.range k).map fun j => ((j,[]) : Slot)).map (ptr v d)) v w ∧
      Owns w (rootsFrom 123) (ptr w d) ∧ ∀ s, rootsFrom 123 s ≠ .absent → ptr w d s = ptr v d s := by
  have hroots : ∀ s : Slot, s.1 < 125 → forestPtr v (Sector.word d) s = ptr v d s := by
    intro s hs
    unfold ptr forestPtr node
    rw [inodeRoots_eq hs]
  have hsome : ∀ s, someRoots 0 123 0 s ≠ .absent → inodeShape s ≠ .absent ∧ s.1 < 123 := by
    intro s hs
    obtain ⟨h1,h2⟩ := someRoots_ne_absent.mp hs
    exact ⟨treeShape_ne_absent.mpr (by omega),h1.2⟩
  have hodirect : Owns v (someRoots 0 123 0) (forestPtr v (Sector.word d)) := by
    refine ⟨fun s hs h => ?_,fun s hs => ?_,fun s t hs ht he h => ?_⟩
    · obtain ⟨h1,h2⟩ := hsome s hs
      rw [hroots s (by omega)] at h ⊢
      exact ho.used s h1 h
    · obtain ⟨h1,h2⟩ := hsome s hs
      rw [hroots s (by omega)]
      exact ho.apart s h1
    · obtain ⟨h1,h2⟩ := hsome s hs
      obtain ⟨h3,h4⟩ := hsome t ht
      rw [hroots s (by omega)] at he h
      rw [hroots t (by omega)] at he
      exact ho.inj s t h1 h3 he h
  have hdirect := deallocateEntries_spec (n := 123) d
    (fun v p m _ _ => inodeDeallocateIndirect_spec 0 m v p (fun h => absurd rfl h)) Nat.one_pos k 0 k v
    (by omega) (by omega) hv hodirect (by
      intro s hs
      rw [entryPlaces_zero] at hs
      obtain ⟨j,hj,rfl⟩ := List.mem_map.mp hs
      have hj := List.mem_range.mp hj
      rw [hroots _ (show 0 + j < 125 by omega)]
      exact hmap (0 + j) (by omega))
  rw [← inodeDeallocateDirect_eq,entryPlaces_zero] at hdirect
  simp only [Nat.zero_add] at hdirect
  have hrel : Released (((List.range k).map fun j => ((j,[]) : Slot)).map (ptr v d)) v
      (inodeDeallocateDirect d k 0 v) := by
    refine hdirect.perm (List.Perm.of_eq (List.map_congr_left fun s hs => ?_))
    obtain ⟨j,hj,rfl⟩ := List.mem_map.mp hs
    have hj := List.mem_range.mp hj
    exact hroots (j,[]) (show j < 125 by omega)
  have hsub : ∀ s, rootsFrom 123 s ≠ .absent → inodeShape s ≠ .absent :=
    fun s hs => treeShape_ne_absent.mpr (rootsFrom_ne_absent.mp hs).2
  have hptr : ∀ s, rootsFrom 123 s ≠ .absent →
      ptr (inodeDeallocateDirect d k 0 v) d s = ptr v d s := by
    intro s hs
    refine follow_keeps hv hrel.keeps fun ρ hρ => ho.apart (s.1,ρ) ?_
    have := (rootsFrom_ne_absent.mp hs).2
    exact treeShape_ne_absent.mpr (by dsimp only; omega)
  refine ⟨hrel,hrel.owns ho hsub hptr fun q hq => ?_,hptr⟩
  obtain ⟨s,hs,rfl⟩ := List.mem_map.mp hq
  obtain ⟨j,hj,rfl⟩ := List.mem_map.mp hs
  have hj := List.mem_range.mp hj
  exact ⟨hmap j hj,(j,[]),treeShape_ne_absent.mpr (Nat.zero_le _),if_neg (show ¬ 123 ≤ j by omega),rfl⟩

/-- `inode_deallocate` gives back what the inode uses for its length, each sector once. -/
theorem inodeDeallocate_spec {v : Volume} {d : InodeDisk} (h0 : 0 ≤ d.length)
    (hn : bytesToSectors d.length ≤ maxSectors) (hv : v.Ok) (ho : Owns v inodeShape (ptr v d))
    (hmap : Mapped v d (bytesToSectors d.length)) :
    (inodeDeallocate d v).1 = true ∧
      Released ((inodeWalk (bytesToSectors d.length)).map (ptr v d)) v (inodeDeallocate d v).2 := by
  unfold inodeDeallocate directBlocksCount indirectBlocksPerSector
  rw [if_neg (by omega)]
  refine ⟨rfl,?_⟩
  dsimp only
  unfold Mapped at hmap
  generalize bytesToSectors d.length = n at hn hmap ⊢
  unfold maxSectors at hn
  have hmem : ∀ j π, (j,π) ∈ inodeWalk n → ptr v d (j,π) ≠ 0 := fun j π h => hmap _ h
  unfold inodeWalk
  rw [List.map_append,List.map_append]
  -- (1) direct blocks
  obtain ⟨hr1,ho1,hp1⟩ := deallocate_direct (k := min n 123) (by omega) hv ho fun j hj =>
    hmem j [] (mem_inodeWalk.mpr (Or.inl ⟨by omega,by omega,rfl⟩))
  generalize inodeDeallocateDirect d (min n 123) 0 v = v1 at hr1 ho1 hp1 ⊢
  have hplace : ∀ {i : ℕ} {π : List ℕ}, 123 ≤ i → π.length ≤ inodeLevel i → rootsFrom 123 (i,π) ≠ .absent :=
    fun hi hπ => rootsFrom_ne_absent.mpr ⟨hi,hπ⟩
  by_cases hn1 : 0 < n - 123
  swap
  · rw [if_neg (by omega),if_neg (by omega),if_neg (by omega),if_neg (by omega)]
    simpa using hr1
  rw [if_pos hn1,show n - min n 123 = n - 123 by omega,if_pos (show min (n-123) 128 > 0 by omega)]
  -- (2) the indirect block
  have hmap2 : ∀ π ∈ walk unitOf (inodeLevel 123) (min (n-123) 128), ptr v1 d (123,π) ≠ 0 := by
    intro π hπ
    rw [hp1 _ (hplace le_rfl (length_le_of_mem_walk hπ))]
    refine hmem 123 π (List.mem_append_left _ (List.mem_append_right _ ?_))
    rw [if_pos hn1]
    exact List.mem_map.mpr ⟨π,hπ,rfl⟩
  obtain ⟨hr2,ho2⟩ := deallocate_tree (i := 123) (by decide)
    ⟨by omega,by rw [show unitOf (inodeLevel 123) = 1 from rfl,divRoundUp_one]; omega⟩
    hr1.keeps.ok ho1 hmap2
  have hp2 := fun s (hs : rootsFrom 123 s ≠ .absent) => ptr_keeps hr1.keeps.ok hr2.keeps ho1 hs
  rw [show inodeLevel 123 = 1 from rfl] at hr2 ho2 hp2 hmap2
  rw [show d.indirectBlock = Sector.word d 123 from rfl]
  generalize inodeDeallocateIndirect 1 (Sector.word d 123) (min (n-123) 128) v1 = v2 at hr2 ho2 hp2 ⊢
  have hl2 : ((walk unitOf 1 (min (n-123) 128)).map fun π => ((123,π) : Slot)).map (ptr v1 d) =
      ((walk unitOf 1 (min (n-123) 128)).map fun π => ((123,π) : Slot)).map (ptr v d) := by
    refine List.map_congr_left fun s hs => ?_
    obtain ⟨π,hπ,rfl⟩ := List.mem_map.mp hs
    exact hp1 _ (hplace le_rfl (length_le_of_mem_walk hπ))
  rw [hl2] at hr2
  by_cases hn2 : 0 < n - 251
  swap
  · rw [if_neg hn2,if_neg (by omega),List.map_nil,List.append_nil]
    exact hr1.append hr2
  rw [if_pos hn2,show min (n - 123 - min (n-123) 128) (128*128) = min (n-251) 16384 by omega,
    if_pos (show min (n-251) 16384 > 0 by omega)]
  -- (3) the doubly indirect block
  have hptr3 : ∀ π ∈ walk unitOf (inodeLevel 124) (min (n-251) 16384), ptr v2 d (124,π) = ptr v d (124,π) := by
    intro π hπ
    have hp := hplace (i := 124) (by decide) (length_le_of_mem_walk hπ)
    rw [hp2 _ hp,hp1 _ hp]
  have hmap3 : ∀ π ∈ walk unitOf (inodeLevel 124) (min (n-251) 16384), ptr v2 d (124,π) ≠ 0 := by
    intro π hπ
    rw [hptr3 π hπ]
    refine hmem 124 π (List.mem_append_right _ ?_)
    rw [if_pos hn2]
    exact List.mem_map.mpr ⟨π,hπ,rfl⟩
  obtain ⟨hr3,-⟩ := deallocate_tree (i := 124) (by decide)
    ⟨by omega,by rw [show unitOf (inodeLevel 124) = 128 from rfl]; unfold divRoundUp; omega⟩
    hr2.keeps.ok ho2 hmap3
  have hl3 : ((walk unitOf 2 (min (n-251) 16384)).map fun π => ((124,π) : Slot)).map (ptr v2 d) =
      ((walk unitOf 2 (min (n-251) 16384)).map fun π => ((124,π) : Slot)).map (ptr v d) := by
    refine List.map_congr_left fun s hs => ?_
    obtain ⟨π,hπ,rfl⟩ := List.mem_map.mp hs
    exact hptr3 π hπ
  rw [show inodeLevel 124 = 2 from rfl,hl3] at hr3
  exact (hr1.append hr2).append hr3

end ShellOS.Fs
