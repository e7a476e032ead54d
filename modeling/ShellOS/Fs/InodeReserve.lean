import ShellOS.Fs.Reserve

/-! `inode_reserve_indirect` at every level, and `inode_reserve` on the whole record. -/
namespace ShellOS.Fs
open BlockTree

/-- No sector for a missing data sector. -/
theorem Reserves.full {ι : Type} {σ : ι → Kind} {v : Volume} {T : ι → BlockSector} (hv : v.Ok)
    (ho : Owns v σ T) {s : ι} (hs : σ s = .leaf) (h0 : T s = 0) (hn : numFreeSectors v = 0) :
    Reserves σ [s] v v T T false := by
  refine ⟨Grows.refl hv ho,?_,fun hc => absurd hc (by decide)⟩
  have hd : demand σ [s] T = [false] := by simp [demand,h0,hs]
  rw [hd,Takes,List.length_singleton,if_neg (by omega),hn]
  exact ⟨rfl,rfl,Same.refl v 0⟩

/-- The loop over the entries of the block `blocks`, read from sector `p`. -/
theorem reserveEntries_block {level m : ℕ} {v : Volume} {blocks : Sector}
    (hentry : ∀ v p m, 0 < m → m ≤ unitOf (level+1) → v.Ok →
      Owns v (treeShape level) (follow (childOf v) p) →
      ReservesTree level m v p (inodeReserveIndirect (freeMapAllocate 1) level m p v))
    (hm : 0 < m) (hk : divRoundUp m (unitOf (level+1)) ≤ 128) (hv : v.Ok)
    (ho : Owns v (forestShape fun _ => level) (forestPtr v (Sector.word blocks))) :
    let r := reserveEntries (inodeReserveIndirect (freeMapAllocate 1) level) (unitOf (level+1))
      (divRoundUp m (unitOf (level+1))) 0 m blocks v
    Reserves (forestShape fun _ => level)
      (entryPlaces level (unitOf (level+1)) (divRoundUp m (unitOf (level+1))) 0 m) v r.2.2
      (forestPtr v (Sector.word blocks)) (forestPtr r.2.2 (Sector.word r.2.1)) r.1 := by
  have hu : 0 < unitOf (level+1) := by unfold unitOf; split <;> decide
  refine (reserveEntries_spec Sector.word _ le_rfl hu (fun _ _ _ => rfl)
    (fun i _ b p j hj => Sector.word_setWord_ne b p hj) hentry _ 0 m blocks v (by omega)
    (fun _ _ _ => rfl) ?_ hv ho).1
  have := Nat.div_mul_le_self (m + unitOf (level+1) - 1) (unitOf (level+1))
  rw [Nat.mul_comm]
  unfold divRoundUp
  omega

theorem mem_entryPlaces_ne_absent {level unit k i m : ℕ} :
    ∀ s ∈ entryPlaces level unit k i m, forestShape (fun _ => level) s ≠ .absent :=
  fun _ hs => treeShape_ne_absent.mpr (mem_entryPlaces hs).2.2

/-- The first entry of a block is always visited. -/
theorem entryPlaces_ne_nil (level unit i m : ℕ) {k : ℕ} (hk : 0 < k) : (i,[]) ∈ entryPlaces level unit k i m := by
  obtain ⟨k,rfl⟩ := Nat.exists_eq_succ_of_ne_zero hk.ne'
  exact List.mem_append_left _ (List.mem_map.mpr ⟨[],nil_mem_walk _ _ _,rfl⟩)

theorem divRoundUp_pos {m u : ℕ} (hm : 0 < m) (hu : 0 < u) : 0 < divRoundUp m u := by
  unfold divRoundUp
  exact Nat.div_pos (by omega) hu

theorem childOf_zeros {v : Volume} {p : BlockSector} (h : v.sectors p = Sector.zeros) (i : ℕ) :
    childOf v p i = 0 := by
  unfold childOf
  split
  · rfl
  · rw [h,Sector.word_zeros]

/-- One entry never asks for more than the 128 words of the block below it. -/
theorem entry_capacity {level m : ℕ} (h0 : 0 < m) (hle : m ≤ unitOf (level+1)) :
    0 < m ∧ divRoundUp m (unitOf level) ≤ 128 := by
  have h128 : unitOf (level+1) ≤ 128 := by unfold unitOf; split <;> decide
  have h1 : 0 < unitOf level := by unfold unitOf; split <;> decide
  have hd : divRoundUp m (unitOf level) ≤ m := by
    unfold divRoundUp
    rw [Nat.div_le_iff_le_mul_add_pred h1]
    have := Nat.le_mul_of_pos_left m h1
    omega
  exact ⟨h0,by omega⟩

/-- The entries of an existing indirect block. -/
theorem reserve_existing {level m : ℕ} {v : Volume} {p : BlockSector}
    (hentry : ∀ v p m, 0 < m → m ≤ unitOf (level+1) → v.Ok →
      Owns v (treeShape level) (follow (childOf v) p) →
      ReservesTree level m v p (inodeReserveIndirect (freeMapAllocate 1) level m p v))
    (hm : 0 < m) (hk : divRoundUp m (unitOf (level+1)) ≤ 128) (hv : v.Ok) (hp : p ≠ 0)
    (ho : Owns v (treeShape (level+1)) (follow (childOf v) p)) :
    let r := reserveEntries (inodeReserveIndirect (freeMapAllocate 1) level) (unitOf (level+1))
      (divRoundUp m (unitOf (level+1))) 0 m (v.sectors p) v
    let w := if r.1 then bufferCacheWrite p r.2.1 r.2.2 else r.2.2
    Reserves (treeShape (level+1))
      ((entryPlaces level (unitOf (level+1)) (divRoundUp m (unitOf (level+1))) 0 m).map
        fun s => s.1 :: s.2) v w (follow (childOf v) p) (follow (childOf w) p) r.1 :=
  Reserves.block hv hp ho mem_entryPlaces_ne_absent
    (reserveEntries_block hentry hm hk hv (ho.entries hp))

/-- What the recursion of `inode_reserve_indirect` achieves. -/
theorem inodeReserveIndirect_spec (level : ℕ) : ∀ (m : ℕ) (v : Volume) (p : BlockSector),
    (level ≠ 0 → 0 < m ∧ divRoundUp m (unitOf level) ≤ 128) → v.Ok →
    Owns v (treeShape level) (follow (childOf v) p) →
    ReservesTree level m v p (inodeReserveIndirect (freeMapAllocate 1) level m p v) := by
  induction level with
  | zero =>
    intro m v p _ hv ho
    unfold inodeReserveIndirect ReservesTree
    have hplace : ∀ π, treeShape 0 π ≠ .absent → π = [] :=
      fun π hπ => List.length_eq_zero_iff.mp (Nat.le_zero.mp (treeShape_ne_absent.mp hπ))
    have hleaf : treeShape 0 ([] : List ℕ) = .leaf := treeShape_leaf.mpr rfl
    by_cases hp : p = 0
    · subst hp
      rw [if_pos rfl]
      rcases alloc_reserves hv ho (s := []) (by rw [hleaf]; decide) rfl with ⟨ha,hn⟩ | ⟨p,w,ha,-,-,hr⟩
      · rw [ha]
        exact Reserves.full hv ho hleaf rfl hn
      · rw [ha]
        refine hr.congr (fun s hs => ?_) fun π hπ => ?_
        · rw [List.mem_singleton.mp hs,hleaf]
          decide
        · rw [hplace π hπ,Function.update_self]
          rfl
    · rw [if_neg hp]
      refine Reserves.done hv ho fun s hs => ?_
      rw [List.mem_singleton.mp hs]
      exact hp
  | succ level ih =>
    intro m v p hm hv ho
    obtain ⟨hm0,hk⟩ := hm (Nat.succ_ne_zero _)
    have hu : 0 < unitOf (level+1) := by unfold unitOf; split <;> decide
    have hentry : ∀ v p m, 0 < m → m ≤ unitOf (level+1) → v.Ok →
        Owns v (treeShape level) (follow (childOf v) p) →
        ReservesTree level m v p (inodeReserveIndirect (freeMapAllocate 1) level m p v) :=
      fun v p m h0 hle hv ho => ih m v p (fun _ => entry_capacity h0 hle) hv ho
    have hroot : treeShape (level+1) ([] : List ℕ) = .block := treeShape_block.mpr (Nat.succ_pos _)
    have hroot' : treeShape (level+1) ([] : List ℕ) ≠ .absent := by rw [hroot]; decide
    unfold inodeReserveIndirect ReservesTree bufferCacheRead
    rw [walk_succ]
    by_cases hp : p = 0
    · subst hp
      simp only [if_true]
      have hnull : ∀ w, follow (childOf w) 0 = fun _ => (0 : BlockSector) :=
        fun w => funext fun π => follow_null (childOf_null w) π
      rcases alloc_reserves hv ho (s := []) hroot' rfl with ⟨ha,hn⟩ | ⟨p,w,ha,hp,hz,hr⟩
      · -- no free sector: the loop runs on zeros read back from sector 0 and fails
        rw [ha]
        dsimp only [Option.getD_none]
        have hread := sectors_write v 0 Sector.zeros
        have hwr := writes_write v 0 Sector.zeros
        have hn' : numFreeSectors (bufferCacheWrite 0 Sector.zeros v) = 0 := hn
        have hkeep := keeps_write hv Sector.zeros (fun hc : FmNode v 0 => hc.1 rfl)
        have hmap : ∀ s, (Used v s → Used (bufferCacheWrite 0 Sector.zeros v) s) ∧
          (Free (bufferCacheWrite 0 Sector.zeros v) s → Free v s) := fun _ => ⟨id,id⟩
        have hrel : (bufferCacheWrite 0 Sector.zeros v).releases = v.releases := rfl
        generalize bufferCacheWrite 0 Sector.zeros v = w at hread hwr hn' hkeep hmap hrel ⊢
        have hzero : ∀ s, forestPtr w (Sector.word Sector.zeros) s = 0 := by
          intro s
          rw [forestPtr,node,Sector.word_zeros]
          exact follow_null (childOf_null w) _
        have how : Owns w (forestShape fun _ => level) (forestPtr w (Sector.word Sector.zeros)) :=
          ⟨fun s _ h0 => absurd (hzero s) h0,fun s _ hn => hn.1 (hzero s),
            fun s _ _ _ _ h0 => absurd (hzero s) h0⟩
        have hloop := reserveEntries_block hentry hm0 hk hkeep.ok how
        rw [hread]
        dsimp only at hloop ⊢
        generalize reserveEntries _ _ _ _ _ _ _ = r at hloop ⊢
        obtain ⟨ok,b,w'⟩ := r
        dsimp only at hloop
        have hd : 0 < (demand (forestShape fun _ => level) (entryPlaces level (unitOf (level+1))
            (divRoundUp m (unitOf (level+1))) 0 m) (forestPtr w (Sector.word Sector.zeros))).length := by
          have hmem := entryPlaces_ne_nil level (unitOf (level+1)) 0 m (divRoundUp_pos hm0 hu)
          unfold demand
          rw [List.length_map]
          exact List.length_pos_of_mem (List.mem_filter.mpr ⟨hmem,by simpa using hzero _⟩)
        obtain ⟨rfl,hfree⟩ : ok = false ∧ numFreeSectors w' = 0 := by
          have ht := hloop.takes
          unfold Takes at ht
          rw [if_neg (by omega)] at ht
          exact ⟨ht.1,ht.2.1⟩
        have hle := hloop.takes.writes_le
        simp only
        rw [hnull,hnull] at *
        refine ⟨⟨?_,fun s hs => hloop.grows.used s ((hmap s).1 hs),hloop.grows.releases.trans hrel,fun _ _ _ => rfl,
          fun _ _ _ h0 => absurd rfl h0,fun _ _ _ _ _ h0 => absurd rfl h0,
          fun _ _ _ h0 => absurd rfl h0⟩,?_,fun hc => absurd hc (by decide)⟩
        · refine Keeps.trans (hkeep.mono fun s hs => Or.inl hs) (hloop.grows.keeps.mono ?_)
          rintro s (hs | hs | ⟨t,_,hs⟩)
          · exact Or.inl hs
          · exact Or.inr (Or.inl ⟨(hmap s).2 hs.1,hs.2⟩)
          · exact Or.inl (hs.symm.trans (hzero t))
        · unfold Takes
          have hcons : ∀ L, demand (treeShape (level+1)) ([]::L) (fun _ => 0) =
              true :: demand (treeShape (level+1)) L (fun _ => 0) := by
            intro L
            simp [demand,hroot]
          rw [hcons,List.length_cons,if_neg (by omega),hn,List.getElem?_cons_zero,if_pos rfl]
          exact ⟨rfl,hfree,by omega⟩
      · rw [ha]
        dsimp only [Option.getD_some]
        set w1 := bufferCacheWrite p Sector.zeros w with hw1
        -- the new block is empty
        have hT : ∀ π, treeShape (level+1) π ≠ .absent →
            follow (childOf w1) p π = Function.update (follow (childOf v) 0) [] p π := by
          refine tree_congr ?_ fun i ρ _ => ?_
          · rw [Function.update_self]
            rfl
          · rw [Function.update_of_ne (by simp),hnull,follow_cons,childOf_zeros hz,hnull]
        have hsub : ∀ s ∈ [([] : List ℕ)], treeShape (level+1) s ≠ .absent := by
          intro s hs
          rw [List.mem_singleton.mp hs]
          exact hroot'
        have h1 := hr.congr hsub hT
        have h2 := reserve_existing hentry hm0 hk h1.grows.keeps.ok hp (h1.grows.owns ho hv)
        dsimp only at h2
        generalize reserveEntries _ _ _ _ _ _ _ = r at h2 ⊢
        obtain ⟨ok,b,w'⟩ := r
        have hM : ∀ s ∈ (entryPlaces level (unitOf (level+1)) (divRoundUp m (unitOf (level+1))) 0 m).map
            (fun s => s.1 :: s.2), follow (childOf w1) p s = follow (childOf v) 0 s := by
          intro s hs
          obtain ⟨t,ht,rfl⟩ := List.mem_map.mp hs
          rw [hT _ (by rw [treeShape_cons]; exact mem_entryPlaces_ne_absent t ht),
            Function.update_of_ne (by simp)]
        cases ok with
        | true => exact h1.append hv hsub hM h2
        | false => exact h1.append hv hsub hM h2
    · rw [if_neg hp]
      dsimp only
      have h2 := reserve_existing hentry hm0 hk hv hp ho
      dsimp only at h2
      generalize reserveEntries _ _ _ _ _ _ _ = r at h2 ⊢
      obtain ⟨ok,b,w'⟩ := r
      have h1 : Reserves (treeShape (level+1)) [[]] v v (follow (childOf v) p) (follow (childOf v) p)
          true := by
        refine Reserves.done hv ho fun s hs => ?_
        rw [List.mem_singleton.mp hs]
        exact hp
      have hsub : ∀ s ∈ [([] : List ℕ)], treeShape (level+1) s ≠ .absent := by
        intro s hs
        rw [List.mem_singleton.mp hs]
        exact hroot'
      cases ok with
      | true => exact h1.append hv hsub (fun _ _ => rfl) h2
      | false => exact h1.append hv hsub (fun _ _ => rfl) h2

/-! ### The record -/

theorem setWord_word_self (d : Sector) {i : ℕ} (hi : i < 128) : Sector.setWord d i (Sector.word d i) = d := by
  apply Sector.ext_word
  intro k _
  rw [Sector.word_setWord _ _ _ _ hi]
  split
  · rename_i h
    rw [h]
  · rfl

/-- The loop over the direct blocks is the loop over the entries of a block of data sectors. -/
theorem inodeReserveDirect_eq (alloc : Allocator) (k i m : ℕ) (d : InodeDisk) (v : Volume)
    (hi : i + k ≤ 128) :
    inodeReserveDirect alloc k i d v = reserveEntries (inodeReserveIndirect alloc 0) 1 k i m d v := by
  induction k generalizing i m d v with
  | zero => rfl
  | succ k ih =>
    unfold inodeReserveDirect reserveEntries inodeReserveIndirect InodeDisk.directBlock
    by_cases hp : Sector.word d i = 0
    · rw [if_pos hp,if_pos hp]
      rcases alloc v with ⟨_ | p,w⟩
      · simp only
        rw [setWord_word_self d (by omega)]
      · exact ih (i+1) (m - min m 1) _ _ (by omega)
    · rw [if_neg hp,if_neg hp]
      simp only
      rw [setWord_word_self d (by omega)]
      exact ih (i+1) (m - min m 1) _ _ (by omega)

theorem entryPlaces_zero (unit k i m : ℕ) :
    entryPlaces 0 unit k i m = (List.range k).map fun j => (i + j,[]) := by
  induction k generalizing i m with
  | zero => rfl
  | succ k ih =>
    rw [entryPlaces,ih,List.range_succ_eq_map,List.map_cons,List.map_map]
    simp only [walk,List.map_cons,List.map_nil,List.singleton_append,Nat.add_zero,Function.comp_def]
    refine congrArg _ (List.map_congr_left fun j _ => ?_)
    rw [show i + 1 + j = i + j.succ by omega]

theorem inodeRoots_eq {j : ℕ} (h : j < 125) (d : InodeDisk) : inodeRoots d j = Sector.word d j := if_pos h

theorem inodeRoots_setWord {i : ℕ} (d : InodeDisk) (p : BlockSector) {j : ℕ} (h : j ≠ i) :
    inodeRoots (Sector.setWord d i p) j = inodeRoots d j := by
  unfold inodeRoots
  rw [Sector.word_setWord_ne _ _ h]

/-- The places of an inode. -/
abbrev inodeShape : Slot → Kind := forestShape inodeLevel

/-- One of the two trees below an inode, as a step of the whole inode. -/
theorem Reserves.inode {v w : Volume} {d : InodeDisk} {i m : ℕ} {p : BlockSector} {ok : Bool} (hi : i < 125)
    (hv : v.Ok) (ho : Owns v inodeShape (ptr v d))
    (g : ReservesTree (inodeLevel i) m v (Sector.word d i) (ok,p,w)) :
    Reserves inodeShape ((walk unitOf (inodeLevel i) m).map fun π => (i,π)) v w (ptr v d)
        (ptr w (Sector.setWord d i p)) ok ∧
      ∀ s, inodeShape s ≠ .absent → s.1 ≠ i → ptr w (Sector.setWord d i p) s = ptr v d s := by
  refine Reserves.forest (inodeRoots (Sector.setWord d i p)) hv ho (fun π hπ => walk_place hπ) ?_
    fun j hj => inodeRoots_setWord d p hj
  rw [inodeRoots_eq hi,inodeRoots_eq hi,Sector.word_setWord_self _ _ (by omega)]
  exact g

theorem inodeWalk_place {n : ℕ} {s : Slot} (h : s ∈ inodeWalk n) : inodeShape s ≠ .absent :=
  treeShape_ne_absent.mpr (mem_inodeWalk_level h).2

/-- `inode_reserve` fills the places for `length` bytes, in order, until the disk is full. It
reports success when all of them are filled and they hold `length` bytes. -/
theorem inodeReserve_spec {v : Volume} {d : InodeDisk} {length : ℤ} (h0 : 0 ≤ length) (hv : v.Ok)
    (ho : Owns v inodeShape (ptr v d)) :
    let r := inodeReserve (freeMapAllocate 1) d length v
    ∃ ok, Reserves inodeShape (inodeWalk (bytesToSectors length)) v r.2.2 (ptr v d) (ptr r.2.2 r.2.1) ok ∧
      r.1 = (ok && decide (bytesToSectors length ≤ maxSectors)) ∧ InodeDisk.SameInfo d r.2.1 := by
  unfold inodeReserve inodeWalk directBlocksCount indirectBlocksPerSector
  rw [if_neg (by omega)]
  dsimp only
  generalize bytesToSectors length = n
  -- (1) direct blocks
  have hdirect := reserveEntries_spec inodeRoots inodeLevel (N := 123) (by decide)
    Nat.one_pos (fun j hj b => inodeRoots_eq (by omega) b) (fun i _ b p j hj => inodeRoots_setWord b p hj)
    (fun v p m _ _ => inodeReserveIndirect_spec 0 m v p (fun h => absurd rfl h)) (min n 123) 0 (min n 123) d v
    (by omega) (fun j _ hj => by unfold inodeLevel; rw [if_neg (by omega),if_neg (by omega)]) (by omega) hv ho
  rw [← inodeReserveDirect_eq _ _ _ _ _ _ (by omega),entryPlaces_zero] at hdirect
  dsimp only at hdirect
  simp only [Nat.zero_add] at hdirect
  have hL1 : ∀ s ∈ (List.range (min n 123)).map (fun i => ((i,[]) : Slot)), inodeShape s ≠ .absent := by
    intro s hs
    obtain ⟨j,_,rfl⟩ := List.mem_map.mp hs
    exact treeShape_ne_absent.mpr (Nat.zero_le _)
  generalize inodeReserveDirect (freeMapAllocate 1) (min n 123) 0 d v = r1 at hdirect ⊢
  obtain ⟨ok1,d1,v1⟩ := r1
  obtain ⟨hr1,hout1,hword1⟩ := hdirect
  dsimp only at hr1 hout1 hword1
  have hinfo1 : InodeDisk.SameInfo d d1 := fun k hk => hword1 k (by omega)
  cases ok1 with
  | false =>
    rw [List.append_assoc]
    exact ⟨false,hr1.append_fail _,rfl,hinfo1⟩
  | true =>
  dsimp only
  by_cases hn1 : n - min n 123 = 0
  · rw [if_pos hn1,if_neg (by omega),if_neg (by omega),List.append_nil,List.append_nil]
    exact ⟨true,hr1,(decide_eq_true (by unfold maxSectors; omega)).symm,hinfo1⟩
  rw [if_neg hn1,if_pos (by omega),show min n 123 = 123 by omega]
  rw [show min n 123 = 123 by omega] at hr1 hL1 hout1 hword1
  -- (2) a single indirect block
  have ho1 := hr1.grows.owns ho hv
  have hv1 := hr1.grows.keeps.ok
  have hind := inodeReserveIndirect_spec 1 (min (n-123) 128) v1 d1.indirectBlock
    (fun _ => ⟨by omega,by rw [show unitOf 1 = 1 from rfl,divRoundUp_one]; omega⟩) hv1
    (by have := ho1.tree 123; rwa [inodeRoots_eq (by decide)] at this)
  generalize inodeReserveIndirect (freeMapAllocate 1) 1 (min (n-123) 128) d1.indirectBlock v1 = r2 at hind ⊢
  obtain ⟨ok2,p2,v2⟩ := r2
  obtain ⟨hr2,hout2⟩ := Reserves.inode (i := 123) (by decide) hv1 ho1 hind
  have hinfo2 : InodeDisk.SameInfo d (d1.setIndirectBlock p2) :=
    hinfo1.trans (InodeDisk.sameInfo_setWord _ _ (by decide))
  have hr12 := hr1.append hv hL1 (fun s hs => by
    obtain ⟨π,hπ,rfl⟩ := List.mem_map.mp hs
    exact hout1 _ (walk_place hπ) (Or.inr le_rfl)) hr2
  have hL12 : ∀ s ∈ (List.range 123).map (fun i => ((i,[]) : Slot)) ++
      (walk unitOf (inodeLevel 123) (min (n-123) 128)).map (fun π => ((123,π) : Slot)),
      inodeShape s ≠ .absent := by
    intro s hs
    rcases List.mem_append.mp hs with hs | hs
    · exact hL1 s hs
    · obtain ⟨π,hπ,rfl⟩ := List.mem_map.mp hs
      exact walk_place hπ
  cases ok2 with
  | false => exact ⟨false,hr12.append_fail _,rfl,hinfo2⟩
  | true =>
  dsimp only
  by_cases hn2 : n - 123 - min (n-123) 128 = 0
  · rw [if_pos hn2,if_neg (by omega),List.append_nil]
    exact ⟨true,hr12,(decide_eq_true (by unfold maxSectors; omega)).symm,hinfo2⟩
  rw [if_neg hn2,if_pos (by omega),show n - 123 - min (n-123) 128 = n - 251 by omega]
  -- (3) a single doubly indirect block
  have ho2 := hr12.grows.owns ho hv
  have hv2 := hr12.grows.keeps.ok
  have hdbl := inodeReserveIndirect_spec 2 (min (n-251) 16384) v2 (d1.setIndirectBlock p2).doublyIndirectBlock
    (fun _ => ⟨by omega,by rw [show unitOf 2 = 128 from rfl]; unfold divRoundUp; omega⟩) hv2
    (by have := ho2.tree 124; rwa [inodeRoots_eq (by decide)] at this)
  rw [show (128*128 : ℕ) = 16384 from rfl]
  generalize inodeReserveIndirect (freeMapAllocate 1) 2 (min (n-251) 16384)
    (d1.setIndirectBlock p2).doublyIndirectBlock v2 = r3 at hdbl ⊢
  obtain ⟨ok3,p3,v3⟩ := r3
  obtain ⟨hr3,-⟩ := Reserves.inode (i := 124) (by decide) hv2 ho2 hdbl
  have hinfo3 : InodeDisk.SameInfo d ((d1.setIndirectBlock p2).setDoublyIndirectBlock p3) :=
    hinfo2.trans (InodeDisk.sameInfo_setWord _ _ (by decide))
  have hr123 := hr12.append hv hL12 (fun s hs => by
    obtain ⟨π,hπ,rfl⟩ := List.mem_map.mp hs
    have hp : inodeShape (124,π) ≠ .absent := walk_place hπ
    rw [hout2 _ hp (show 124 ≠ 123 by decide)]
    exact hout1 _ hp (Or.inr (show 123 ≤ 124 by decide))) hr3
  cases ok3 with
  | false => exact ⟨false,hr123,rfl,hinfo3⟩
  | true =>
    refine ⟨true,hr123,?_,hinfo3⟩
    have hfit : n - 251 - min (n-251) 16384 = 0 ↔ n ≤ maxSectors := by unfold maxSectors; omega
    rw [Bool.true_and]
    simp only [hfit]

end ShellOS.Fs
