import ShellOS.Fs.InodeReserve

/-! Growth with an allocator that gives no sector: it ends where the first sector is missing, and changes
nothing but sector 0. -/
namespace ShellOS.Fs
open BlockTree

/-- From `u` to `w` the map, its file and every sector but sector 0 are as they were. -/
structure Retained (u w : Volume) : Prop where
  file : w.freeMapFile = u.freeMapFile
  map : w.freeMap = u.freeMap
  sectors : ∀ s, s ≠ 0 → w.sectors s = u.sectors s

/-- From `u` on the allocator gives nothing. -/
def Refuses (alloc : Allocator) (u : Volume) : Prop :=
  ∀ v, Retained u v → ∃ w, alloc v = (none,w) ∧ Retained u w

section
variable {u v w : Volume} {d : InodeDisk} {p : BlockSector} {data : Sector} (alloc : Allocator)

theorem Retained.refl (u : Volume) : Retained u u := ⟨rfl,rfl,fun _ _ => rfl⟩

theorem Retained.trans (h : Retained u v) (g : Retained v w) : Retained u w :=
  ⟨g.file.trans h.file,g.map.trans h.map,fun s hs => (g.sectors s hs).trans (h.sectors s hs)⟩

/-- A block written back as it was, or anything written to sector 0. -/
theorem Retained.write (h : Retained u w) (hp : p ≠ 0 → data = u.sectors p) : Retained u (bufferCacheWrite p data w) := by
  refine ⟨h.file,h.map,fun s hs => ?_⟩
  by_cases hc : s = p
  · subst hc
    rw [sectors_write,hp hs]
  · rw [(same_write w data hc).1,h.sectors s hs]

/-! ### The recursion -/

/-- No sector is missing below `p`. -/
def Full (u : Volume) (level m : ℕ) (p : BlockSector) : Prop := ∀ π ∈ walk unitOf level m, follow (childOf u) p π ≠ 0

/-- No sector is missing below the entries of a block. -/
def EntriesFull (u : Volume) (level unit k i m : ℕ) (blocks : Sector) : Prop :=
  ∀ s ∈ entryPlaces level unit k i m, forestPtr u (Sector.word blocks) s ≠ 0

/-- A step that took nothing: it succeeds where nothing is missing. -/
def Refused (u : Volume) (alloc : Allocator) (full : Prop) {α : Type} (a : α) (r : Bool × α × Volume) : Prop :=
  (¬ full → Refuses alloc u) → ∃ ok w, r = (ok,a,w) ∧ Retained u w ∧ (ok = true ↔ full)

theorem reserveEntries_refused {level unit : ℕ} (hu : 0 < unit) (hentry : ∀ m p v, 0 < m → m ≤ unit → Retained u v →
      Refused u alloc (Full u level m p) p (inodeReserveIndirect alloc level m p v))
    (k i m : ℕ) (blocks : Sector) (v : Volume) (hi : i + k ≤ 128) (hm : unit * k < m + unit) (hv : Retained u v) :
    Refused u alloc (EntriesFull u level unit k i m blocks) blocks
      (reserveEntries (inodeReserveIndirect alloc level) unit k i m blocks v) := by
  induction k generalizing i m v with
  | zero => exact fun _ => ⟨true,v,rfl,hv,iff_of_true rfl fun s hs => absurd hs List.not_mem_nil⟩
  | succ k ih =>
    intro hal
    rw [Nat.mul_succ] at hm
    -- what is missing below an entry is missing below the block
    have hsplit : EntriesFull u level unit (k + 1) i m blocks ↔ Full u level (min m unit) (Sector.word blocks i) ∧
        EntriesFull u level unit k (i + 1) (m - min m unit) blocks := by
      rw [EntriesFull,entryPlaces,List.forall_mem_append,List.forall_mem_map]
      exact Iff.rfl
    obtain ⟨ok,w,he,hw,hok⟩ := hentry (min m unit) (Sector.word blocks i) v (by omega) (by omega) hv
      fun hno => hal fun hc => hno (hsplit.mp hc).1
    rw [reserveEntries,he]
    have hsame : Sector.setWord blocks i (Sector.word blocks i) = blocks := setWord_word_self blocks (by omega)
    cases ok with
    | false =>
      dsimp only
      rw [hsame]
      exact ⟨false,w,rfl,hw,iff_of_false Bool.false_ne_true fun hc => Bool.false_ne_true (hok.mpr (hsplit.mp hc).1)⟩
    | true =>
      dsimp only
      rw [hsame]
      have hmin : unit * k < m - min m unit + unit := by
        rcases Nat.eq_zero_or_pos k with rfl | hk
        · omega
        · have := Nat.le_mul_of_pos_right unit hk
          omega
      obtain ⟨ok',w',he',hw',hok'⟩ := ih (i + 1) (m - min m unit) w (by omega) hmin hw
        fun hno => hal fun hc => hno (hsplit.mp hc).2
      exact ⟨ok',w',he',hw',by rw [hok',hsplit,and_iff_right (hok.mp rfl)]⟩

/-- A block has its sectors if it is there itself and its entries have theirs. -/
theorem full_succ {level m : ℕ} (hp : p ≠ 0) : Full u (level + 1) m p ↔
    EntriesFull u level (unitOf (level + 1)) (divRoundUp m (unitOf (level + 1))) 0 m (u.sectors p) := by
  unfold Full EntriesFull
  rw [walk_succ,List.forall_mem_cons,List.forall_mem_map,follow_nil,and_iff_right hp]
  refine forall₂_congr fun s _ => ?_
  rw [follow_cons,childOf_of_ne u hp,forestPtr,node]

theorem inodeReserveIndirect_refused (level : ℕ) : ∀ (m : ℕ) (p : BlockSector) (v : Volume),
    (level ≠ 0 → 0 < m ∧ divRoundUp m (unitOf level) ≤ 128) → Retained u v →
    Refused u alloc (Full u level m p) p (inodeReserveIndirect alloc level m p v) := by
  induction level with
  | zero =>
    intro m p v _ hv hal
    have hfull : Full u 0 m p ↔ p ≠ 0 := by
      unfold Full walk
      rw [List.forall_mem_singleton,follow_nil]
    unfold inodeReserveIndirect
    by_cases hp : p = 0
    · obtain ⟨w,ha,hw⟩ := hal (fun hc => hfull.mp hc hp) v hv
      rw [if_pos hp,ha]
      exact ⟨false,w,rfl,hw,iff_of_false Bool.false_ne_true fun hc => hfull.mp hc hp⟩
    · rw [if_neg hp]
      exact ⟨true,v,rfl,hv,iff_of_true rfl (hfull.mpr hp)⟩
  | succ level ih =>
    intro m p v hm hv hal
    obtain ⟨hm0,hk⟩ := hm (Nat.succ_ne_zero _)
    have hu : 0 < unitOf (level + 1) := by unfold unitOf; split <;> decide
    have hmul : unitOf (level + 1) * divRoundUp m (unitOf (level + 1)) < m + unitOf (level + 1) := by
      have := Nat.div_mul_le_self (m + unitOf (level + 1) - 1) (unitOf (level + 1))
      rw [Nat.mul_comm]
      unfold divRoundUp
      omega
    have hloop := fun blocks v hv => reserveEntries_refused (u := u) alloc hu
      (fun m p v h0 hle hv => ih m p v (fun _ => entry_capacity h0 hle) hv) (divRoundUp m (unitOf (level + 1))) 0 m blocks v
      (by omega) hmul hv
    unfold inodeReserveIndirect bufferCacheRead
    by_cases hp : p = 0
    · -- the block cannot be had either: the loop runs on zeros read back from sector 0
      subst hp
      have hno : ¬ Full u (level + 1) m 0 := fun hc => hc [] (nil_mem_walk _ _ _) rfl
      obtain ⟨w,ha,hw⟩ := hal hno v hv
      have hzero : ¬ EntriesFull u level (unitOf (level + 1)) (divRoundUp m (unitOf (level + 1))) 0 m Sector.zeros := by
        intro hc
        refine hc (0,[]) (entryPlaces_ne_nil _ _ _ _ (divRoundUp_pos hm0 hu)) ?_
        rw [forestPtr,node,Sector.word_zeros]
        exact follow_null (childOf_null u) _
      obtain ⟨ok,w',he,hw',hok⟩ := hloop Sector.zeros (bufferCacheWrite 0 Sector.zeros w)
        (hw.write fun h0 => absurd rfl h0) fun _ => hal hno
      rw [if_pos rfl,ha]
      dsimp only [Option.getD_none]
      rw [sectors_write,he]
      cases ok with
      | true => exact absurd (hok.mp rfl) hzero
      | false => exact ⟨false,w',rfl,hw',iff_of_false Bool.false_ne_true hno⟩
    · obtain ⟨ok,w,he,hw,hok⟩ := hloop (u.sectors p) v hv fun hno => hal fun hc => hno ((full_succ hp).mp hc)
      rw [if_neg hp]
      dsimp only
      rw [hv.sectors p hp,he]
      cases ok with
      | true => exact ⟨true,_,rfl,hw.write fun _ => rfl,iff_of_true rfl ((full_succ hp).mpr (hok.mp rfl))⟩
      | false => exact ⟨false,w,rfl,hw,iff_of_false Bool.false_ne_true fun hc => Bool.false_ne_true (hok.mpr ((full_succ hp).mp hc))⟩

/-- The sectors of a file: the direct blocks and the two trees. -/
theorem mapped_iff {n : ℕ} : Mapped u d n ↔ EntriesFull u 0 1 (min n 123) 0 (min n 123) d ∧
    (0 < n - 123 → Full u 1 (min (n - 123) 128) d.indirectBlock) ∧
      (0 < n - 251 → Full u 2 (min (n - 251) 16384) d.doublyIndirectBlock) := by
  have htree : ∀ (j level m : ℕ) (c : Prop) [Decidable c], j < 125 →
      ((∀ s ∈ (if c then (walk unitOf level m).map (fun π => ((j,π) : Slot)) else []), ptr u d s ≠ 0) ↔
        (c → Full u level m (Sector.word d j))) := by
    intro j level m c _ hj
    by_cases hc : c
    · rw [if_pos hc,List.forall_mem_map,forall_prop_of_true hc,Full]
      exact forall₂_congr fun π _ => by rw [Fs.ptr,node,inodeRoots_eq hj]
    · rw [if_neg hc,forall_prop_of_false hc]
      exact iff_of_true (List.forall_mem_nil _) trivial
  unfold Mapped inodeWalk
  rw [List.forall_mem_append,List.forall_mem_append,htree 123 1 _ _ (by decide),htree 124 2 _ _ (by decide),and_assoc,EntriesFull,
    entryPlaces_zero,List.forall_mem_map,List.forall_mem_map]
  refine and_congr_left fun _ => forall₂_congr fun j hj => ?_
  have hj := List.mem_range.mp hj
  rw [Nat.zero_add,Fs.ptr,forestPtr,node,node,inodeRoots_eq (by omega)]

/-- `inode_reserve` of the whole record. It succeeds where nothing is missing and the length is not too
large, and leaves the record as it is. -/
theorem inodeReserve_refused {length : ℤ} (h0 : 0 ≤ length)
    (hal : ¬ Mapped u d (bytesToSectors length) → Refuses alloc u) :
    ∃ ok w, inodeReserve alloc d length u = (ok,d,w) ∧ Retained u w ∧
      (ok = true ↔ Mapped u d (bytesToSectors length) ∧ bytesToSectors length ≤ maxSectors) := by
  unfold inodeReserve directBlocksCount indirectBlocksPerSector
  rw [if_neg (by omega)]
  dsimp only
  generalize bytesToSectors length = n at hal ⊢
  have hmax : maxSectors = 16635 := rfl
  -- (1) direct blocks
  obtain ⟨ok1,w1,he1,hw1,hok1⟩ := reserveEntries_refused (u := u) alloc Nat.one_pos
    (fun m p v _ _ hv => inodeReserveIndirect_refused alloc 0 m p v (fun h => absurd rfl h) hv) (min n 123) 0 (min n 123) d u
    (by omega) (by omega) (Retained.refl u) fun hno => hal fun hc => hno (mapped_iff.mp hc).1
  rw [inodeReserveDirect_eq alloc _ _ (min n 123) _ _ (by omega),he1]
  cases ok1 with
  | false => exact ⟨false,w1,rfl,hw1,iff_of_false Bool.false_ne_true fun hc => Bool.false_ne_true (hok1.mpr (mapped_iff.mp hc.1).1)⟩
  | true =>
  dsimp only
  by_cases hn1 : n - min n 123 = 0
  · rw [if_pos hn1]
    refine ⟨true,w1,rfl,hw1,iff_of_true rfl ⟨mapped_iff.mpr ⟨hok1.mp rfl,fun h => ?_,fun h => ?_⟩,by omega⟩⟩
    · omega
    · omega
  rw [if_neg hn1,show n - min n 123 = n - 123 by omega]
  -- (2) a single indirect block
  obtain ⟨ok2,w2,he2,hw2,hok2⟩ := inodeReserveIndirect_refused (u := u) alloc 1 (min (n - 123) 128) d.indirectBlock w1
    (fun _ => ⟨by omega,by rw [show unitOf 1 = 1 from rfl,divRoundUp_one]; omega⟩) hw1
    fun hno => hal fun hc => hno ((mapped_iff.mp hc).2.1 (by omega))
  have hsame2 : d.setIndirectBlock d.indirectBlock = d := setWord_word_self d (by decide)
  rw [he2]
  cases ok2 with
  | false =>
    refine ⟨false,w2,by dsimp only; rw [hsame2],hw2,iff_of_false Bool.false_ne_true fun hc => ?_⟩
    exact Bool.false_ne_true (hok2.mpr ((mapped_iff.mp hc.1).2.1 (by omega)))
  | true =>
  dsimp only
  rw [hsame2]
  by_cases hn2 : n - 123 - min (n - 123) 128 = 0
  · rw [if_pos hn2]
    refine ⟨true,w2,rfl,hw2,iff_of_true rfl ⟨mapped_iff.mpr ⟨hok1.mp rfl,fun _ => hok2.mp rfl,fun h => ?_⟩,by omega⟩⟩
    omega
  rw [if_neg hn2,show n - 123 - min (n - 123) 128 = n - 251 by omega,show (128 * 128 : ℕ) = 16384 from rfl]
  -- (3) a single doubly indirect block
  obtain ⟨ok3,w3,he3,hw3,hok3⟩ := inodeReserveIndirect_refused (u := u) alloc 2 (min (n - 251) 16384) d.doublyIndirectBlock w2
    (fun _ => ⟨by omega,by rw [show unitOf 2 = 128 from rfl]; unfold divRoundUp; omega⟩) hw2
    fun hno => hal fun hc => hno ((mapped_iff.mp hc).2.2 (by omega))
  have hsame3 : d.setDoublyIndirectBlock d.doublyIndirectBlock = d := setWord_word_self d (by decide)
  rw [he3]
  cases ok3 with
  | false =>
    refine ⟨false,w3,by dsimp only; rw [hsame3],hw3,iff_of_false Bool.false_ne_true fun hc => ?_⟩
    exact Bool.false_ne_true (hok3.mpr ((mapped_iff.mp hc.1).2.2 (by omega)))
  | true =>
    dsimp only
    rw [hsame3]
    have hfull : Mapped u d n := mapped_iff.mpr ⟨hok1.mp rfl,fun _ => hok2.mp rfl,fun _ => hok3.mp rfl⟩
    refine ⟨_,w3,rfl,hw3,?_⟩
    rw [decide_eq_true_iff,and_iff_right hfull]
    omega

end
end ShellOS.Fs
