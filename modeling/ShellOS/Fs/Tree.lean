import ShellOS.Fs.Arithmetic
import ShellOS.Lib.BlockTree

/-! The blocks of an inode as a forest of pointers: 123 direct blocks, one tree of depth one and
one of depth two. A place in it is a root together with a path below. -/
namespace ShellOS.Fs
open BlockTree

/-- The pointers stored in a block; 0 is the null pointer and has no entries. -/
def childOf (v : Volume) (p : BlockSector) (i : ℕ) : BlockSector :=
  if p = 0 then 0 else Sector.word (v.sectors p) i

theorem childOf_null (v : Volume) : NullLeaf 0 (childOf v) := fun _ => if_pos rfl

theorem childOf_of_ne (v : Volume) {p : BlockSector} (h : p ≠ 0) (i : ℕ) :
    childOf v p i = Sector.word (v.sectors p) i := if_neg h

/-- The words of the record that are block pointers. -/
def inodeRoots (d : InodeDisk) (j : ℕ) : BlockSector := if j < 125 then Sector.word d j else 0

def inodeLevel (j : ℕ) : ℕ := if j = 123 then 1 else if j = 124 then 2 else 0

/-- A place among the blocks of an inode. -/
abbrev Slot := ℕ × List ℕ

/-- The sector an inode has at a place, 0 for none. -/
def ptr (v : Volume) (d : InodeDisk) (s : Slot) : BlockSector :=
  node (childOf v) (inodeRoots d) s.1 s.2

/-- The place of data sector `i`. -/
def dataSlot (i : ℕ) : Slot :=
  if i < 123 then (i,[]) else if i < 251 then (123,[i-123])
  else (124,[(i-251)/128,(i-251)%128])

/-- The places an inode with `n` data sectors uses, in the order they are allocated. -/
def inodeWalk (n : ℕ) : List Slot :=
  (List.range (min n 123)).map (fun i => (i,[])) ++
  (if 0 < n - 123 then (walk unitOf 1 (min (n-123) 128)).map (fun π => (123,π)) else []) ++
  (if 0 < n - 251 then (walk unitOf 2 (min (n-251) 16384)).map (fun π => (124,π)) else [])

/-- Every place used for `n` data sectors holds a sector. -/
def Mapped (v : Volume) (d : InodeDisk) (n : ℕ) : Prop := ∀ s ∈ inodeWalk n, ptr v d s ≠ 0

theorem mem_walk_one {m : ℕ} {π : List ℕ} :
    π ∈ walk unitOf 1 m ↔ π = [] ∨ ∃ i < m, π = [i] := by
  have h1 : unitOf (0+1) = 1 := rfl
  simp only [walk,h1,Nat.add_sub_cancel,Nat.div_one,List.map_cons,List.map_nil,List.mem_cons,
    List.mem_flatMap,List.mem_range,List.not_mem_nil,or_false]

theorem mem_walk_two {m : ℕ} {π : List ℕ} :
    π ∈ walk unitOf 2 m ↔ π = [] ∨ (∃ i, 128*i < m ∧ π = [i]) ∨
      ∃ i k, k < 128 ∧ 128*i+k < m ∧ π = [i,k] := by
  have h2 : unitOf (1+1) = 128 := rfl
  rw [show (2 : ℕ) = 1+1 from rfl,walk]
  simp only [h2,List.mem_cons,List.mem_flatMap,List.mem_map,List.mem_range,mem_walk_one]
  constructor
  · rintro (rfl | ⟨i,hi,ρ,rfl | ⟨k,hk,rfl⟩,rfl⟩)
    · exact Or.inl rfl
    · exact Or.inr (Or.inl ⟨i,by omega,rfl⟩)
    · exact Or.inr (Or.inr ⟨i,k,by omega,by omega,rfl⟩)
  · rintro (rfl | ⟨i,hi,rfl⟩ | ⟨i,k,hk,hm,rfl⟩)
    · exact Or.inl rfl
    · exact Or.inr ⟨i,by omega,[],Or.inl rfl,rfl⟩
    · exact Or.inr ⟨i,by omega,[k],Or.inr ⟨k,by omega,rfl⟩,rfl⟩

/-- The places used for `n` data sectors, one kind after the other. -/
theorem mem_inodeWalk {n j : ℕ} {π : List ℕ} :
    (j,π) ∈ inodeWalk n ↔ (j < 123 ∧ j < n ∧ π = []) ∨
      (j = 123 ∧ 123 < n ∧ (π = [] ∨ ∃ i, i < 128 ∧ 123+i < n ∧ π = [i])) ∨
      (j = 124 ∧ 251 < n ∧ (π = [] ∨ (∃ i, i < 128 ∧ 251+128*i < n ∧ π = [i]) ∨
        ∃ i k, i < 128 ∧ k < 128 ∧ 251+128*i+k < n ∧ π = [i,k])) := by
  simp only [inodeWalk,List.mem_append,List.mem_map,List.mem_range,Prod.mk.injEq]
  constructor
  · rintro ((⟨i,hi,rfl,rfl⟩ | h) | h)
    · exact Or.inl ⟨by omega,by omega,rfl⟩
    · split at h
      · obtain ⟨ρ,hρ,hj⟩ := List.mem_map.mp h
        obtain ⟨rfl,rfl⟩ := Prod.mk.inj hj
        refine Or.inr (Or.inl ⟨rfl,by omega,?_⟩)
        rcases mem_walk_one.mp hρ with rfl | ⟨i,hi,rfl⟩
        · exact Or.inl rfl
        · exact Or.inr ⟨i,by omega,by omega,rfl⟩
      · simp at h
    · split at h
      · obtain ⟨ρ,hρ,hj⟩ := List.mem_map.mp h
        obtain ⟨rfl,rfl⟩ := Prod.mk.inj hj
        refine Or.inr (Or.inr ⟨rfl,by omega,?_⟩)
        rcases mem_walk_two.mp hρ with rfl | ⟨i,hi,rfl⟩ | ⟨i,k,hk,hi,rfl⟩
        · exact Or.inl rfl
        · exact Or.inr (Or.inl ⟨i,by omega,by omega,rfl⟩)
        · exact Or.inr (Or.inr ⟨i,k,by omega,by omega,by omega,rfl⟩)
      · simp at h
  · rintro (⟨h1,h2,rfl⟩ | ⟨rfl,hn,h⟩ | ⟨rfl,hn,h⟩)
    · exact Or.inl (Or.inl ⟨j,by omega,rfl,rfl⟩)
    · refine Or.inl (Or.inr ?_)
      rw [if_pos (by omega)]
      refine List.mem_map.mpr ⟨π,mem_walk_one.mpr ?_,rfl⟩
      rcases h with rfl | ⟨i,hi,h,rfl⟩
      · exact Or.inl rfl
      · exact Or.inr ⟨i,by omega,rfl⟩
    · refine Or.inr ?_
      rw [if_pos (by omega)]
      refine List.mem_map.mpr ⟨π,mem_walk_two.mpr ?_,rfl⟩
      rcases h with rfl | ⟨i,hi,h,rfl⟩ | ⟨i,k,hi,hk,h,rfl⟩
      · exact Or.inl rfl
      · exact Or.inr (Or.inl ⟨i,by omega,rfl⟩)
      · exact Or.inr (Or.inr ⟨i,k,hk,by omega,rfl⟩)

theorem inodeWalk_subset {m n : ℕ} (h : m ≤ n) {s : Slot} (hs : s ∈ inodeWalk m) :
    s ∈ inodeWalk n := by
  obtain ⟨j,π⟩ := s
  rw [mem_inodeWalk] at hs ⊢
  rcases hs with ⟨h1,h2,rfl⟩ | ⟨rfl,hn,h'⟩ | ⟨rfl,hn,h'⟩
  · exact Or.inl ⟨h1,by omega,rfl⟩
  · refine Or.inr (Or.inl ⟨rfl,by omega,?_⟩)
    rcases h' with rfl | ⟨i,hi,hm,rfl⟩
    · exact Or.inl rfl
    · exact Or.inr ⟨i,hi,by omega,rfl⟩
  · refine Or.inr (Or.inr ⟨rfl,by omega,?_⟩)
    rcases h' with rfl | ⟨i,hi,hm,rfl⟩ | ⟨i,k,hi,hk,hm,rfl⟩
    · exact Or.inl rfl
    · exact Or.inr (Or.inl ⟨i,hi,by omega,rfl⟩)
    · exact Or.inr (Or.inr ⟨i,k,hi,hk,by omega,rfl⟩)

theorem Mapped.mono {v : Volume} {d : InodeDisk} {m n : ℕ} (h : Mapped v d n) (hmn : m ≤ n) :
    Mapped v d m := fun s hs => h s (inodeWalk_subset hmn hs)

theorem dataSlot_mem {i n : ℕ} (hi : i < n) (hm : i < maxSectors) : dataSlot i ∈ inodeWalk n := by
  unfold maxSectors at hm
  unfold dataSlot
  split_ifs with h1 h2
  · exact mem_inodeWalk.mpr (Or.inl ⟨h1,hi,rfl⟩)
  · exact mem_inodeWalk.mpr (Or.inr (Or.inl ⟨rfl,by omega,Or.inr ⟨i-123,by omega,by omega,rfl⟩⟩))
  · exact mem_inodeWalk.mpr (Or.inr (Or.inr ⟨rfl,by omega,
      Or.inr (Or.inr ⟨(i-251)/128,(i-251)%128,by omega,by omega,by omega,rfl⟩)⟩))

theorem dataSlot_injective {i j : ℕ} (h : dataSlot i = dataSlot j) : i = j := by
  unfold dataSlot at h
  split_ifs at h <;> simp only [Prod.mk.injEq,List.cons.injEq,and_true,reduceCtorEq,and_false] at h <;>
    omega

/-- Data sectors are the leaves of the forest. -/
theorem dataSlot_level (i : ℕ) : (dataSlot i).2.length = inodeLevel (dataSlot i).1 := by
  unfold dataSlot inodeLevel
  split_ifs <;> simp_all

theorem mem_inodeWalk_level {n : ℕ} {s : Slot} (h : s ∈ inodeWalk n) :
    s.1 < 125 ∧ s.2.length ≤ inodeLevel s.1 := by
  obtain ⟨j,π⟩ := s
  rcases mem_inodeWalk.mp h with ⟨h1,_,rfl⟩ | ⟨rfl,_,h'⟩ | ⟨rfl,_,h'⟩
  · exact ⟨by omega,Nat.zero_le _⟩
  · refine ⟨by omega,?_⟩
    rcases h' with rfl | ⟨i,_,_,rfl⟩ <;> simp [inodeLevel]
  · refine ⟨by omega,?_⟩
    rcases h' with rfl | ⟨i,_,_,rfl⟩ | ⟨i,k,_,_,_,rfl⟩ <;> simp [inodeLevel]

/-- A leaf used for `n` data sectors is the place of one of them. -/
theorem exists_dataSlot {n : ℕ} {s : Slot} (h : s ∈ inodeWalk n)
    (hl : s.2.length = inodeLevel s.1) : ∃ i < n, i < maxSectors ∧ s = dataSlot i := by
  obtain ⟨j,π⟩ := s
  rcases mem_inodeWalk.mp h with ⟨h1,hn,rfl⟩ | ⟨rfl,hn,h'⟩ | ⟨rfl,hn,h'⟩
  · exact ⟨j,hn,by unfold maxSectors; omega,by simp [dataSlot,h1]⟩
  · rcases h' with rfl | ⟨i,hi,hm,rfl⟩
    · simp [inodeLevel] at hl
    · refine ⟨123+i,hm,by unfold maxSectors; omega,?_⟩
      rw [dataSlot,if_neg (by omega),if_pos (by omega),Nat.add_sub_cancel_left]
  · rcases h' with rfl | ⟨i,hi,hm,rfl⟩ | ⟨i,k,hi,hk,hm,rfl⟩
    · simp [inodeLevel] at hl
    · simp [inodeLevel] at hl
    · refine ⟨251+128*i+k,hm,by unfold maxSectors; omega,?_⟩
      rw [dataSlot,if_neg (by omega),if_neg (by omega),show (251+128*i+k-251)/128 = i by omega,
        show (251+128*i+k-251)%128 = k by omega]

/-- The lookup of the source follows the path to the data sector. -/
theorem indexToSector_eq {v : Volume} {d : InodeDisk} {i : ℕ} (hi : i < maxSectors)
    (h : ptr v d (dataSlot i) ≠ 0) : indexToSector v d i = ptr v d (dataSlot i) := by
  unfold maxSectors at hi
  have hroot : ∀ j < 125, inodeRoots d j = Sector.word d j := fun j hj => if_pos hj
  have hnull : ∀ j π, inodeRoots d j = 0 → node (childOf v) (inodeRoots d) j π = 0 :=
    fun j π hj => by rw [node,hj,follow_null (childOf_null v)]
  unfold indexToSector directBlocksCount indirectBlocksPerSector bufferCacheRead
  rcases lt_or_ge i 123 with h1 | h1
  · rw [if_pos h1,dataSlot,if_pos h1]
    exact (hroot i (by omega)).symm
  rcases lt_or_ge i 251 with h2 | h2
  · rw [if_neg (by omega),if_pos (by omega)]
    rw [dataSlot,if_neg (by omega),if_pos h2] at h ⊢
    have hb : inodeRoots d 123 ≠ 0 := fun hb => h (hnull _ _ hb)
    simp only [ptr,node,follow_cons,follow_nil]
    rw [childOf_of_ne v hb,hroot 123 (by decide)]
    rfl
  · rw [if_neg (by omega),if_neg (by omega),if_pos (by omega)]
    rw [dataSlot,if_neg (by omega),if_neg (by omega)] at h ⊢
    have hb : inodeRoots d 124 ≠ 0 := fun hb => h (hnull _ _ hb)
    simp only [ptr,node,follow_cons,follow_nil] at h ⊢
    have hc : childOf v (inodeRoots d 124) ((i-251)/128) ≠ 0 := by
      intro hc
      rw [hc] at h
      exact h (childOf_null v _)
    rw [childOf_of_ne v hc,childOf_of_ne v hb,hroot 124 (by decide)]
    rfl

end ShellOS.Fs
