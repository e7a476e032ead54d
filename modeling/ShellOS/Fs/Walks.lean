import ShellOS.Fs.Release

/-! The four traversals of an inode agree: looking a sector up, listing the data sectors,
reserving and giving back all follow the same places. -/
namespace ShellOS.Fs
open BlockTree

theorem range_flatMap_chunks {α : Type} (g : ℕ → ℕ → α) (k l : ℕ) {u : ℕ} (hu : 0 < u) :
    ((List.range k).flatMap fun i => (List.range (min (l - i * u) u)).map (g i)) =
      (List.range (min l (k * u))).map fun j => g (j / u) (j % u) := by
  induction k with
  | zero => simp
  | succ k ih =>
    have hsplit : min l ((k + 1) * u) = min l (k * u) + min (l - k * u) u := by
      rw [Nat.succ_mul]
      omega
    rw [List.range_succ,List.flatMap_append,ih,List.flatMap_singleton,hsplit,List.range_add,
      List.map_append,List.map_map]
    refine congrArg _ (List.map_congr_left fun j hj => ?_)
    have hj := List.mem_range.mp hj
    have hmin : min l (k * u) = k * u := by omega
    rw [Function.comp_apply,hmin,Nat.mul_comm k u,Nat.mul_add_div hu,Nat.mul_add_mod,
      Nat.div_eq_of_lt (by omega),Nat.mod_eq_of_lt (by omega),Nat.add_zero]

/-- The sectors of an inode with `n` data sectors, in the order of the file. -/
def dataSectors (v : Volume) (d : InodeDisk) (n : ℕ) : List BlockSector :=
  (List.range n).map fun i => ptr v d (dataSlot i)

theorem dataSectors_eq {v : Volume} {d : InodeDisk} {n : ℕ} (hm : Mapped v d n) (hn : n ≤ maxSectors) :
    dataSectors v d n = (List.range n).map (indexToSector v d) := by
  refine List.map_congr_left fun i hi => ?_
  have hi := List.mem_range.mp hi
  exact (indexToSector_eq (by omega) (hm _ (dataSlot_mem hi (by omega)))).symm

/-- The list made by `get_inode_data_sectors` is the sequence of lookups. -/
theorem getInodeDataSectors_eq (v : Volume) {d : InodeDisk} (h0 : 0 ≤ d.length)
    (hn : bytesToSectors d.length ≤ maxSectors) :
    getInodeDataSectors v d = some ((List.range (bytesToSectors d.length)).map (indexToSector v d)) := by
  unfold getInodeDataSectors directBlocksCount indirectBlocksPerSector
  rw [if_neg (by omega)]
  dsimp only
  generalize bytesToSectors d.length = n at hn ⊢
  unfold maxSectors at hn
  congr 1
  have hdirect : (List.range (min n 123)).map d.directBlock =
      (List.range (min n 123)).map (indexToSector v d) := by
    refine List.map_congr_left fun i hi => ?_
    have hi := List.mem_range.mp hi
    rw [indexToSector,if_pos (by unfold directBlocksCount; omega)]
  have hindirect : (if min (n - min n 123) 128 > 0 then
        (List.range (min (n - min n 123) 128)).map (Sector.word (bufferCacheRead d.indirectBlock v)) else []) =
      (List.range (min (n - min n 123) 128)).map (indexToSector v d ∘ (123 + ·)) := by
    have hmap : ∀ i ∈ List.range (min (n - min n 123) 128),
        Sector.word (bufferCacheRead d.indirectBlock v) i = indexToSector v d (123 + i) := by
      intro i hi
      have hi := List.mem_range.mp hi
      rw [indexToSector,if_neg (by unfold directBlocksCount; omega),
        if_pos (by unfold directBlocksCount indirectBlocksPerSector; omega)]
      rw [show 123 + i - directBlocksCount = i by unfold directBlocksCount; omega]
    split
    · exact List.map_congr_left hmap
    · rw [show min (n - min n 123) 128 = 0 by omega]
      rfl
  have hdoubly : ∀ l, l = min (n - min n 123 - min (n - min n 123) 128) (128*128) → (if l > 0 then
        (List.range (divRoundUp l 128)).flatMap fun i =>
          (List.range (min (l - i * 128) 128)).map
            (Sector.word (bufferCacheRead (Sector.word (bufferCacheRead d.doublyIndirectBlock v) i) v))
        else []) = (List.range l).map (indexToSector v d ∘ (251 + ·)) := by
    intro l hl
    split
    · rw [range_flatMap_chunks _ _ _ (by decide),
        show min l (divRoundUp l 128 * 128) = l by unfold divRoundUp; omega]
      refine List.map_congr_left fun j hj => ?_
      have hj := List.mem_range.mp hj
      rw [Function.comp_apply,indexToSector,if_neg (by unfold directBlocksCount; omega),
        if_neg (by unfold directBlocksCount indirectBlocksPerSector; omega),
        if_pos (by unfold directBlocksCount indirectBlocksPerSector; omega)]
      dsimp only [directBlocksCount,indirectBlocksPerSector]
      rw [show 251 + j - (123 + 128) = j by omega]
    · rw [show l = 0 by omega]
      rfl
  rw [hdirect,hindirect,hdoubly _ rfl]
  -- the three ranges follow each other
  by_cases h1 : n ≤ 123
  · rw [show n - min n 123 = 0 by omega,show min n 123 = n by omega]
    simp
  rw [show min n 123 = 123 by omega]
  by_cases h2 : n ≤ 251
  · rw [show n - 123 - min (n-123) 128 = 0 by omega,show min (n-123) 128 = n - 123 by omega,
      show List.range n = List.range (123 + (n-123)) by rw [show 123 + (n-123) = n by omega],
      List.range_add,List.map_append,List.map_map]
    simp
  rw [show min (n-123) 128 = 128 by omega,show min (n - 123 - 128) (128*128) = n - 251 by omega,
    show List.range n = List.range (123 + 128 + (n-251)) by rw [show 123 + 128 + (n-251) = n by omega],
    List.range_add,List.range_add,List.map_append,List.map_append,List.map_map,List.map_map]

theorem inodeWalk_nodup (n : ℕ) : (inodeWalk n).Nodup := by
  have hroot : ∀ {i : ℕ} {L : List (List ℕ)} {s : Slot}, s ∈ L.map (fun π => (i,π)) → s.1 = i := by
    intro i L s hs
    obtain ⟨π,_,rfl⟩ := List.mem_map.mp hs
    rfl
  have htree : ∀ i level m, ((walk unitOf level m).map fun π => ((i,π) : Slot)).Nodup :=
    fun i level m => (walk_nodup unitOf level m).map fun _ _ h => (Prod.mk.inj h).2
  have hdirect : ((List.range (min n 123)).map fun i => ((i,[]) : Slot)).Nodup :=
    List.nodup_range.map fun _ _ h => (Prod.mk.inj h).1
  unfold inodeWalk
  refine List.nodup_append.mpr ⟨List.nodup_append.mpr ⟨hdirect,?_,?_⟩,?_,?_⟩
  · split
    · exact htree _ _ _
    · exact List.nodup_nil
  · intro s hs t ht he
    obtain ⟨j,hj,rfl⟩ := List.mem_map.mp hs
    have hj := List.mem_range.mp hj
    split at ht
    · have := hroot ht
      rw [← he] at this
      dsimp only at this
      omega
    · simp at ht
  · split
    · exact htree _ _ _
    · exact List.nodup_nil
  · intro s hs t ht he
    split at ht
    · have h124 := hroot ht
      rw [← he] at h124
      rcases List.mem_append.mp hs with hs | hs
      · obtain ⟨j,hj,rfl⟩ := List.mem_map.mp hs
        have hj := List.mem_range.mp hj
        dsimp only at h124
        omega
      · split at hs
        · rw [hroot hs] at h124
          omega
        · simp at hs
    · simp at ht

/-- The indirect block, the doubly indirect block and the second-level blocks that `n` data
sectors need. -/
def indirectSectors (v : Volume) (d : InodeDisk) (n : ℕ) : List BlockSector :=
  (if 123 < n then [d.indirectBlock] else []) ++
  (if 251 < n then d.doublyIndirectBlock ::
      (List.range (divRoundUp (n - 251) 128)).map (Sector.word (bufferCacheRead d.doublyIndirectBlock v))
    else [])

/-- The places of the indirect blocks. -/
def indirectSlots (n : ℕ) : List Slot :=
  (if 123 < n then [(123,[])] else []) ++
  (if 251 < n then (124,[]) :: (List.range (divRoundUp (n - 251) 128)).map fun i => (124,[i]) else [])

theorem indirectSlots_nodup (n : ℕ) : (indirectSlots n).Nodup := by
  unfold indirectSlots
  refine List.nodup_append.mpr ⟨?_,?_,?_⟩
  · split <;> simp
  · split
    · refine List.nodup_cons.mpr ⟨by simp,List.nodup_range.map fun i j h => ?_⟩
      exact (List.cons.inj (Prod.mk.inj h).2).1
    · exact List.nodup_nil
  · intro s hs t ht he
    subst he
    split at hs
    · rw [List.mem_singleton.mp hs] at ht
      split at ht <;> simp at ht
    · simp at hs

theorem mem_indirectSlots {n : ℕ} (hn : n ≤ maxSectors) (s : Slot) :
    s ∈ indirectSlots n ↔ s ∈ inodeWalk n ∧ s.2.length < inodeLevel s.1 := by
  unfold maxSectors at hn
  obtain ⟨j,π⟩ := s
  rw [mem_inodeWalk]
  unfold indirectSlots
  rw [List.mem_append]
  constructor
  · rintro (h | h) <;> split at h
    · obtain ⟨rfl,rfl⟩ := Prod.mk.inj (List.mem_singleton.mp h)
      exact ⟨Or.inr (Or.inl ⟨rfl,by omega,Or.inl rfl⟩),by simp [inodeLevel]⟩
    · simp at h
    · rcases List.mem_cons.mp h with h | h
      · obtain ⟨rfl,rfl⟩ := Prod.mk.inj h
        exact ⟨Or.inr (Or.inr ⟨rfl,by omega,Or.inl rfl⟩),by simp [inodeLevel]⟩
      · obtain ⟨i,hi,h⟩ := List.mem_map.mp h
        obtain ⟨rfl,rfl⟩ := Prod.mk.inj h
        have hi := List.mem_range.mp hi
        unfold divRoundUp at hi
        exact ⟨Or.inr (Or.inr ⟨rfl,by omega,Or.inr (Or.inl ⟨i,by omega,by omega,rfl⟩)⟩),by simp [inodeLevel]⟩
    · simp at h
  · rintro ⟨⟨h1,_,rfl⟩ | ⟨rfl,hn1,h⟩ | ⟨rfl,hn2,h⟩,hl⟩
    · unfold inodeLevel at hl
      dsimp only at hl
      rw [if_neg (by omega),if_neg (by omega)] at hl
      simp at hl
    · rcases h with rfl | ⟨i,_,_,rfl⟩
      · rw [if_pos hn1]
        exact Or.inl (List.mem_singleton.mpr rfl)
      · simp [inodeLevel] at hl
    · rw [if_pos hn2]
      right
      rcases h with rfl | ⟨i,hi,hm,rfl⟩ | ⟨i,k,_,_,_,rfl⟩
      · exact List.mem_cons_self
      · refine List.mem_cons_of_mem _ (List.mem_map.mpr ⟨i,List.mem_range.mpr ?_,rfl⟩)
        unfold divRoundUp
        omega
      · simp [inodeLevel] at hl

theorem indirectSectors_eq {v : Volume} {d : InodeDisk} {n : ℕ} (hm : Mapped v d n) :
    (indirectSlots n).map (ptr v d) = indirectSectors v d n := by
  unfold indirectSlots indirectSectors
  rw [List.map_append]
  congr 1
  · split
    · rfl
    · rfl
  · split
    · rename_i h
      have h0 : ptr v d (124,[]) ≠ 0 :=
        hm _ (mem_inodeWalk.mpr (Or.inr (Or.inr ⟨rfl,h,Or.inl rfl⟩)))
      rw [List.map_cons,List.map_map]
      refine congrArg _ (List.map_congr_left fun i _ => ?_)
      exact childOf_of_ne v h0 i
    · rfl

/-- The places used for `n` data sectors are those of the data and of the indirect blocks. -/
theorem inodeWalk_perm {n : ℕ} (hn : n ≤ maxSectors) :
    (inodeWalk n).Perm ((List.range n).map dataSlot ++ indirectSlots n) := by
  have hdata : ((List.range n).map dataSlot).Nodup :=
    List.nodup_range.map fun _ _ h => dataSlot_injective h
  refine (List.perm_ext_iff_of_nodup (inodeWalk_nodup n) (List.nodup_append.mpr
    ⟨hdata,indirectSlots_nodup n,?_⟩)).mpr fun s => ?_
  · rintro s hs t ht rfl
    obtain ⟨i,_,rfl⟩ := List.mem_map.mp hs
    have := ((mem_indirectSlots hn _).mp ht).2
    rw [dataSlot_level] at this
    omega
  · rw [List.mem_append,mem_indirectSlots hn]
    constructor
    · intro hs
      rcases (mem_inodeWalk_level hs).2.lt_or_eq with h | h
      · exact Or.inr ⟨hs,h⟩
      · obtain ⟨i,hi,-,rfl⟩ := exists_dataSlot hs h
        exact Or.inl (List.mem_map.mpr ⟨i,List.mem_range.mpr hi,rfl⟩)
    · rintro (hs | hs)
      · obtain ⟨i,hi,rfl⟩ := List.mem_map.mp hs
        have hi := List.mem_range.mp hi
        exact dataSlot_mem hi (by omega)
      · exact hs.1

/-! ### Histories of an inode -/

/-- What the rest of the system may do meanwhile: anything that leaves the sectors of this inode
allocated and its indirect blocks as they are. -/
structure Elsewhere (d : InodeDisk) (v w : Volume) : Prop where
  ok : w.Ok
  blocks : ∀ s, IsBlock v d s → w.sectors s = v.sectors s
  used : ∀ s, inodeShape s ≠ .absent → ptr v d s ≠ 0 → Used w (ptr v d s)
  apart : ∀ s, inodeShape s ≠ .absent → ¬ FmNode w (ptr v d s)

/-- `Reserving v d length`: a record that started without blocks was grown by successful calls of
`inode_reserve` for increasing lengths, the last one `length`. -/
inductive Reserving : Volume → InodeDisk → ℤ → Prop
  | create {v : Volume} {d : InodeDisk} (hv : v.Ok) (hd : ∀ k < 125, Sector.word d k = 0) : Reserving v d 0
  | reserve {v w : Volume} {d e : InodeDisk} {l length : ℤ} (h : Reserving v d l) (hl : l ≤ length)
      (hmax : length < 2147483648) (hr : inodeReserve (freeMapAllocate 1) d length v = (true,e,w)) :
      Reserving w e length
  | info {v : Volume} {d e : InodeDisk} {l : ℤ} (h : Reserving v d l)
      (hd : ∀ k < 125, Sector.word e k = Sector.word d k) : Reserving v e l
  | elsewhere {v w : Volume} {d : InodeDisk} {l : ℤ} (h : Reserving v d l) (hw : Elsewhere d v w) :
      Reserving w d l

/-- What holds of a record along such a history. -/
structure Grown (v : Volume) (d : InodeDisk) (l : ℤ) : Prop where
  ok : v.Ok
  owns : Owns v inodeShape (ptr v d)
  nonneg : 0 ≤ l
  fits : bytesToSectors l ≤ maxSectors
  mapped : Mapped v d (bytesToSectors l)

theorem Mapped.zero (v : Volume) (d : InodeDisk) : Mapped v d 0 := by
  rintro ⟨j,π⟩ hs
  rcases mem_inodeWalk.mp hs with ⟨_,h,_⟩ | ⟨_,h,_⟩ | ⟨_,h,_⟩ <;> simp at h

theorem ptr_of_no_blocks {v : Volume} {d : InodeDisk} (hd : ∀ k < 125, Sector.word d k = 0) (s : Slot) :
    ptr v d s = 0 := by
  have hr : inodeRoots d s.1 = 0 := by
    unfold inodeRoots
    split
    · exact hd _ ‹_›
    · rfl
  rw [ptr,node,hr]
  exact follow_null (childOf_null v) _

theorem owns_of_no_blocks {v : Volume} {d : InodeDisk} (hd : ∀ k < 125, Sector.word d k = 0) :
    Owns v inodeShape (ptr v d) :=
  ⟨fun s _ h0 => absurd (ptr_of_no_blocks hd s) h0,fun s _ hn => hn.1 (ptr_of_no_blocks hd s),
    fun s _ _ _ _ h0 => absurd (ptr_of_no_blocks hd s) h0⟩

theorem ptr_info {v : Volume} {d e : InodeDisk} (hd : ∀ k < 125, Sector.word e k = Sector.word d k) :
    ptr v e = ptr v d := by
  have hr : inodeRoots e = inodeRoots d := by
    funext j
    unfold inodeRoots
    split
    · exact hd j ‹_›
    · rfl
  funext s
  rw [ptr,ptr,hr]

theorem Elsewhere.ptr_eq {v w : Volume} {d : InodeDisk} (h : Elsewhere d v w) {s : Slot}
    (hs : inodeShape s ≠ .absent) : ptr w d s = ptr v d s :=
  ptr_congr h.blocks (treeShape_ne_absent.mp hs)

theorem Elsewhere.owns {v w : Volume} {d : InodeDisk} (h : Elsewhere d v w)
    (ho : Owns v inodeShape (ptr v d)) : Owns w inodeShape (ptr w d) where
  used s hs h0 := by
    rw [h.ptr_eq hs] at h0 ⊢
    exact h.used s hs h0
  apart s hs := by
    rw [h.ptr_eq hs]
    exact h.apart s hs
  inj s t hs ht he h0 := by
    rw [h.ptr_eq hs] at he h0
    rw [h.ptr_eq ht] at he
    exact ho.inj s t hs ht he h0

theorem Reserving.grown {v : Volume} {d : InodeDisk} {l : ℤ} (h : Reserving v d l) : Grown v d l := by
  induction h with
  | create hv hd =>
    have h0 : bytesToSectors 0 = 0 := by decide +kernel
    exact ⟨hv,owns_of_no_blocks hd,le_rfl,by rw [h0]; exact Nat.zero_le _,by rw [h0]; exact Mapped.zero _ _⟩
  | @reserve v w d e l length _ hl hmax hr ih =>
    have h0 : 0 ≤ length := ih.nonneg.trans hl
    obtain ⟨ok,hres,hok,-⟩ := inodeReserve_spec h0 ih.ok ih.owns
    rw [hr] at hres hok
    obtain ⟨rfl,hfit⟩ : ok = true ∧ bytesToSectors length ≤ maxSectors := by
      have := hok.symm
      rwa [Bool.and_eq_true,decide_eq_true_eq] at this
    exact ⟨hres.grows.keeps.ok,hres.grows.owns ih.owns ih.ok,h0,hfit,hres.mapped rfl⟩
  | info _ hd ih =>
    exact ⟨ih.ok,by rw [ptr_info hd]; exact ih.owns,ih.nonneg,ih.fits,
      fun s hs => by rw [ptr_info hd]; exact ih.mapped s hs⟩
  | elsewhere _ hw ih =>
    exact ⟨hw.ok,hw.owns ih.owns,ih.nonneg,ih.fits,
      fun s hs => by rw [hw.ptr_eq (inodeWalk_place hs)]; exact ih.mapped s hs⟩

theorem Reserving.next {v : Volume} {d : InodeDisk} {l length : ℤ} (h : Reserving v d l) (hl : l ≤ length)
    (hmax : length < 2147483648) (hr : (inodeReserve (freeMapAllocate 1) d length v).1 = true) :
    Reserving (inodeReserve (freeMapAllocate 1) d length v).2.2
      (inodeReserve (freeMapAllocate 1) d length v).2.1 length :=
  h.reserve hl hmax (Prod.ext hr rfl)

section
variable {v : Volume} {d : InodeDisk} {l : ℤ}

theorem Grown.index_eq (h : Grown v d l) {i : ℕ} (hi : i < bytesToSectors l) :
    indexToSector v d i = ptr v d (dataSlot i) ∧ ptr v d (dataSlot i) ≠ 0 := by
  have hm := hi.trans_le h.fits
  have h0 := h.mapped _ (dataSlot_mem hi hm)
  exact ⟨indexToSector_eq hm h0,h0⟩

theorem dataSlot_place (i : ℕ) : inodeShape (dataSlot i) ≠ .absent :=
  treeShape_ne_absent.mpr (dataSlot_level i).le

/-- The sectors in use, data sectors first. -/
theorem Grown.sectors_perm (h : Grown v d l) : ((inodeWalk (bytesToSectors l)).map (ptr v d)).Perm
    ((List.range (bytesToSectors l)).map (indexToSector v d) ++ indirectSectors v d (bytesToSectors l)) := by
  rw [← indirectSectors_eq h.mapped,← dataSectors_eq h.mapped h.fits]
  have := (inodeWalk_perm h.fits).map (ptr v d)
  rwa [List.map_append,List.map_map] at this

theorem Grown.sectors_nodup (h : Grown v d l) : ((inodeWalk (bytesToSectors l)).map (ptr v d)).Nodup := by
  refine List.Nodup.map_on (fun s hs t ht he => ?_) (inodeWalk_nodup _)
  exact h.owns.inj s t (inodeWalk_place hs) (inodeWalk_place ht) he (h.mapped s hs)

/-- Growth, successful or not, keeps every block and data sector where it is. -/
theorem Grown.reserve_keeps (h : Grown v d l) (length : ℤ) {s : Slot} (hs : inodeShape s ≠ .absent)
    (h0 : ptr v d s ≠ 0) : ptr (inodeReserve (freeMapAllocate 1) d length v).2.2
      (inodeReserve (freeMapAllocate 1) d length v).2.1 s = ptr v d s := by
  by_cases hl : length < 0
  · rw [inodeReserve,if_pos hl]
  · obtain ⟨ok,hr,-⟩ := inodeReserve_spec (not_lt.mp hl) h.ok h.owns
    exact hr.grows.keep s hs h0

end

/-- The four traversals agree on an inode grown by successful reservations up to its length. -/
theorem index_walks_agree {v : Volume} {d : InodeDisk} {l : ℤ} (h : Reserving v d l) (hl : d.length = l) :
    getInodeDataSectors v d = some ((List.range (bytesToSectors l)).map (indexToSector v d)) ∧
    (∀ i < bytesToSectors l, indexToSector v d i ≠ 0 ∧
      indexToSector v d i ∉ indirectSectors v d (bytesToSectors l) ∧
      ∀ j < bytesToSectors l, indexToSector v d i = indexToSector v d j → i = j) ∧
    (∀ length e w, ∀ ok, inodeReserve (freeMapAllocate 1) d length v = (ok,e,w) →
      (∀ i < bytesToSectors l, indexToSector w e i = indexToSector v d i) ∧
      ∀ s : Slot, s.2.length ≤ inodeLevel s.1 → ptr v d s ≠ 0 → ptr w e s = ptr v d s) ∧
    (inodeDeallocate d v).1 = true ∧
    ((List.range (bytesToSectors l)).map (indexToSector v d) ++
      indirectSectors v d (bytesToSectors l)).Nodup ∧
    ∀ s, (inodeDeallocate d v).2.releases s = v.releases s +
      ((List.range (bytesToSectors l)).map (indexToSector v d) ++
        indirectSectors v d (bytesToSectors l)).count s := by
  have hg := h.grown
  have hnodup := hg.sectors_perm.nodup_iff.mp hg.sectors_nodup
  refine ⟨?_,fun i hi => ⟨?_,?_,fun j hj he => ?_⟩,fun length e w ok hr => ?_,?_⟩
  · rw [getInodeDataSectors_eq v (by rw [hl]; exact hg.nonneg) (by rw [hl]; exact hg.fits),hl]
  · rw [(hg.index_eq hi).1]
    exact (hg.index_eq hi).2
  · exact List.disjoint_of_nodup_append hnodup (List.mem_map.mpr ⟨i,List.mem_range.mpr hi,rfl⟩)
  · rw [(hg.index_eq hi).1,(hg.index_eq hj).1] at he
    exact dataSlot_injective (hg.owns.inj _ _ (dataSlot_place i) (dataSlot_place j) he (hg.index_eq hi).2)
  · have hkeep := fun s hs h0 => hg.reserve_keeps length (s := s) hs h0
    rw [hr] at hkeep
    refine ⟨fun i hi => ?_,fun s hs h0 => hkeep s (treeShape_ne_absent.mpr hs) h0⟩
    obtain ⟨h1,h2⟩ := hg.index_eq hi
    have h3 := hkeep _ (dataSlot_place i) h2
    rw [h1,← h3]
    exact indexToSector_eq (hi.trans_le hg.fits) (h3 ▸ h2)
  · obtain ⟨hok,hrel⟩ := inodeDeallocate_spec (by rw [hl]; exact hg.nonneg) (by rw [hl]; exact hg.fits)
      hg.ok hg.owns (by rw [hl]; exact hg.mapped)
    rw [hl] at hrel
    exact ⟨hok,hnodup,(hrel.perm hg.sectors_perm).releases⟩

/-- A file of 600 bytes on a new volume of eight sectors. -/
theorem index_walks_agree_two_sectors :
    let r := inodeReserve (freeMapAllocate 1) (InodeDisk.create 600 false) 600
      (freeMapInit (fun _ => Sector.zeros) 8)
    getInodeDataSectors r.2.2 r.2.1 = some ((List.range 2).map (indexToSector r.2.2 r.2.1)) := by
  have hstart : Reserving (freeMapInit (fun _ => Sector.zeros) 8) (InodeDisk.create 600 false) 0 :=
    Reserving.create (freeMapInit_ok _ (by decide) (by decide)) fun k hk => InodeDisk.word_create 600 false hk
  have hok : (inodeReserve (freeMapAllocate 1) (InodeDisk.create 600 false) 600
      (freeMapInit (fun _ => Sector.zeros) 8)).1 = true := by decide +kernel
  have hlen : (inodeReserve (freeMapAllocate 1) (InodeDisk.create 600 false) 600
      (freeMapInit (fun _ => Sector.zeros) 8)).2.1.length = 600 := by decide +kernel
  have hn : bytesToSectors 600 = 2 := by decide +kernel
  have hwalk := (index_walks_agree (hstart.next (by norm_num) (by norm_num) hok) hlen).1
  rwa [hn] at hwalk

end ShellOS.Fs
