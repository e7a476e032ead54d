import ShellOS.Fs.Store

/-! The operations on inodes keep the files in order. -/
namespace ShellOS.Fs
open BlockTree CLib

section
variable {S : System} {live : Set BlockSector} {s : BlockSector} {w : Volume} {X : BlockSector → Prop}

theorem System.record_vol (hs : w.sectors s = S.vol.sectors s) :
    System.record { S with vol := w } s = S.record s := by
  unfold System.record
  dsimp only
  split
  · rfl
  · exact hs

/-- A step of the volume that keeps the sectors of every file. -/
theorem Intact.volume (h : Intact S live) (k : Keeps S.vol w X)
    (hX : ∀ s ∈ live, ∀ p, S.Owned s p → Used w p ∧ ¬ X p) :
    Intact { S with vol := w } live ∧ (∀ s ∈ live, System.record { S with vol := w } s = S.record s) ∧
      ∀ s ∈ live, System.bytes { S with vol := w } s = S.bytes s := by
  have hunt : ∀ s ∈ live, Untouched S.vol w s (S.record s) := fun s hs => h.untouched hs k (hX s hs)
  have hrec : ∀ s ∈ live, System.record { S with vol := w } s = S.record s :=
    fun s hs => System.record_vol (hunt s hs).sector
  have hfm : w.freeMapFile = S.vol.freeMapFile := k.file
  have hinodes : System.inodes { S with vol := w } = S.inodes := by
    unfold System.inodes
    dsimp only
    rw [hfm]
  refine ⟨h.rebuild (T := { S with vol := w }) 0 k (fun s hs _ => ⟨hs,hrec s hs,hX s hs⟩)
    (fun h0 => absurd rfl (h.alloc 0 h0).1) (fun i hi => ?_) h.sectors (by rw [hinodes]; exact h.addrs)
    (by rw [hinodes]; exact h.past),hrec,fun s hs => h.bytes_eq hs k (hrec s hs) (hX s hs)⟩
  obtain ⟨hl,hd,hc,hb⟩ := h.inode i hi
  have hu := hunt _ hl
  rw [System.record_open h.sectors hi] at hu
  refine ⟨hl,hd,hc,?_⟩
  dsimp only
  rw [hu.sector]
  exact hb.step (InodeDisk.SameInfo.refl _) fun t ht _ => hu.ptr_eq t ht

/-! ### Opening -/

theorem Intact.fm_sector_ne (h : Intact S live) (hs : s ∈ live) {i : Inode}
    (hi : i ∈ S.vol.freeMapFile.toList) : i.sector ≠ s := by
  obtain ⟨fm,hf,h0⟩ := h.fm
  rw [hf,Option.mem_toList] at hi
  obtain rfl := Option.some.inj hi
  rw [h0]
  exact (h.alloc s hs).1.symm

theorem Intact.inodeOpen_old (h : Intact S live) {i : Inode} (hi : i ∈ S.openInodes) :
    S.inodeOpen i.sector = (i.addr,S) := by
  have hf : Keyed.lookup Inode.sector i.sector S.inodes = some i := by
    have := (Keyed.lookup_eq_some h.sectors).mpr ⟨hi,rfl⟩
    unfold Keyed.lookup System.inodes at *
    rw [List.find?_append,this,Option.some_or]
  rw [System.inodeOpen,hf]

/-- The state after opening an inode that was closed. -/
def System.opened (S : System) (s : BlockSector) : System :=
  { S with
    openInodes := ⟨S.nextAddr,s,1,false,0,S.vol.sectors s⟩::S.openInodes
    nextAddr := S.nextAddr + 1 }

theorem Intact.inodeOpen_new (h : Intact S live) (hs : s ∈ live) (hn : ∀ i ∈ S.openInodes, i.sector ≠ s) :
    S.inodeOpen s = (S.nextAddr,S.opened s) ∧ Intact (S.opened s) live ∧
      ∀ p, (S.opened s).record p = S.record p := by
  have hf : Keyed.lookup Inode.sector s S.inodes = none := by
    refine Keyed.lookup_eq_none.mpr fun i hi => ?_
    cases List.mem_append.mp hi with
    | inl hi => exact hn i hi
    | inr hi => exact h.fm_sector_ne hs hi
  have hrec : ∀ p, (S.opened s).record p = S.record p := by
    intro p
    by_cases hp : p = s
    · subst hp
      rw [System.record_closed hn]
      unfold System.record System.opened Keyed.lookup
      simp
    · unfold System.record System.opened Keyed.lookup
      have hd : decide (s = p) = false := decide_eq_false (Ne.symm hp)
      simp only [List.find?_cons,hd]
  have hk : Keeps S.vol (S.opened s).vol (fun _ => False) := Keeps.refl h.ok _
  refine ⟨by rw [System.inodeOpen,hf]; rfl,?_,hrec⟩
  refine h.rebuild 0 hk (fun p hp _ => ⟨hp,hrec p,fun q hq => ⟨(h.owned hp hq).2.1,fun hc => hc⟩⟩)
    (fun h0 => absurd rfl (h.alloc 0 h0).1) (fun i hi => ?_) ?_ ?_ fun i hi => ?_
  · cases List.mem_cons.mp hi with
    | inl hi =>
      subst hi
      refine ⟨hs,rfl,rfl,?_⟩
      have hfile := h.file s hs
      rw [System.record_closed hn] at hfile
      exact Backed.refl hfile
    | inr hi => exact h.inode i hi
  · refine List.nodup_cons.mpr ⟨fun hm => ?_,h.sectors⟩
    obtain ⟨i,hi,he⟩ := List.mem_map.mp hm
    exact hn i hi he
  · refine List.nodup_cons.mpr ⟨fun hm => ?_,h.addrs⟩
    obtain ⟨i,hi,he⟩ := List.mem_map.mp hm
    have := h.past i hi
    dsimp only at he
    omega
  · cases List.mem_cons.mp hi with
    | inl hi =>
      subst hi
      exact Nat.lt_succ_self _
    | inr hi => exact (h.past i hi).trans (Nat.lt_succ_self _)

/-! ### Writing -/

/-- The state after an open inode changed and the volume with it. -/
def System.changed (S : System) (inode : Inode) (w : Volume) : System :=
  { S with vol := w, openInodes := Keyed.update Inode.addr inode S.openInodes }

theorem Intact.fm_addr_ne (h : Intact S live) {i fm : Inode} (hi : i ∈ S.openInodes)
    (hf : S.vol.freeMapFile = some fm) : fm.addr ≠ i.addr := by
  have ha := h.addrs
  unfold System.inodes at ha
  rw [hf,List.map_append] at ha
  have hd := List.disjoint_of_nodup_append ha
  exact fun he => hd (List.mem_map_of_mem hi) (by simp [he])

theorem Intact.setInode_eq (h : Intact S live) {i inode : Inode} (hi : i ∈ S.openInodes)
    (ha : inode.addr = i.addr) (hw : w.freeMapFile = S.vol.freeMapFile) :
    System.setInode inode { S with vol := w } = S.changed inode w := by
  have hmap : w.freeMapFile.map (fun j => if j.addr = inode.addr then inode else j) = w.freeMapFile := by
    rw [hw]
    cases hf : S.vol.freeMapFile with
    | none => rfl
    | some fm => rw [Option.map_some,if_neg (ha ▸ h.fm_addr_ne hi hf)]
  unfold System.setInode System.changed
  dsimp only
  rw [hmap]

theorem Intact.mem_changed (h : Intact S live) {i inode j : Inode} (hi : i ∈ S.openInodes)
    (ha : inode.addr = i.addr) :
    j ∈ (S.changed inode w).openInodes ↔ j = inode ∨ j ∈ S.openInodes ∧ j.sector ≠ i.sector := by
  have haddr : (S.openInodes.map Inode.addr).Nodup := by
    have := h.addrs
    unfold System.inodes at this
    rw [List.map_append] at this
    exact (List.nodup_append.mp this).1
  refine Keyed.mem_update.trans ?_
  constructor
  · intro hj
    cases hj with
    | inl hj =>
      refine .inr ⟨hj.1,fun he => hj.2 ?_⟩
      rw [Keyed.key_injective h.sectors hj.1 hi he,ha]
    | inr hj => exact .inl hj.1
  · intro hj
    cases hj with
    | inl hj => exact .inr ⟨hj,i,hi,ha.symm⟩
    | inr hj =>
      refine .inl ⟨hj.1,fun he => hj.2 ?_⟩
      rw [Keyed.key_injective haddr hj.1 hi (he.trans ha)]

/-- The lists and records after an inode changed in place. -/
theorem Intact.changed (h : Intact S live) {i inode : Inode} (hi : i ∈ S.openInodes)
    (hin : inode = { i with data := inode.data, removed := inode.removed }) (hw : w.freeMapFile = S.vol.freeMapFile)
    (hsec : ∀ p ∈ live, p ≠ i.sector → w.sectors p = S.vol.sectors p) :
    ((S.changed inode w).openInodes.map Inode.sector).Nodup ∧
      ((S.changed inode w).inodes.map Inode.addr).Nodup ∧
      (∀ j ∈ (S.changed inode w).inodes, j.addr < (S.changed inode w).nextAddr) ∧
      (S.changed inode w).record i.sector = inode.data ∧
      ∀ p ∈ live, p ≠ i.sector → (S.changed inode w).record p = S.record p := by
  have ha : inode.addr = i.addr := by rw [hin]
  have hs : inode.sector = i.sector := by rw [hin]
  have hmaps : (S.changed inode w).openInodes.map Inode.sector = S.openInodes.map Inode.sector := by
    refine Keyed.map_update_of_eq _ fun b hb he => ?_
    have hb' : S.inodeAt b.addr = some b := h.inodeAt_eq hb
    rw [he,ha,h.inodeAt_eq hi] at hb'
    rw [← Option.some.inj hb',hs]
  have hmapa : (S.changed inode w).inodes.map Inode.addr = S.inodes.map Inode.addr := by
    unfold System.inodes System.changed
    dsimp only
    rw [List.map_append,Keyed.map_update,hw,List.map_append]
  have hnod : ((S.changed inode w).openInodes.map Inode.sector).Nodup := by
    rw [hmaps]
    exact h.sectors
  refine ⟨hnod,by rw [hmapa]; exact h.addrs,fun j hj => ?_,?_,fun p hp hne => ?_⟩
  · have hm : j.addr ∈ S.inodes.map Inode.addr := hmapa ▸ List.mem_map_of_mem hj
    obtain ⟨b,hb,he⟩ := List.mem_map.mp hm
    rw [← he]
    exact h.past b hb
  · have hm : inode ∈ (S.changed inode w).openInodes := (h.mem_changed hi ha).mpr (.inl rfl)
    rw [← hs,System.record_open hnod hm]
  · by_cases hop : ∃ j ∈ S.openInodes, j.sector = p
    · obtain ⟨j,hj,rfl⟩ := hop
      have hm : j ∈ (S.changed inode w).openInodes := (h.mem_changed hi ha).mpr (.inr ⟨hj,hne⟩)
      rw [System.record_open hnod hm,System.record_open h.sectors hj]
    · have hc : ∀ j ∈ S.openInodes, j.sector ≠ p := fun j hj he => hop ⟨j,hj,he⟩
      rw [System.record_closed hc,System.record_closed fun j hj => ?_]
      · exact hsec p hp hne
      · cases (h.mem_changed hi ha).mp hj with
        | inl he => rw [he,hs]; exact hne.symm
        | inr hj => exact hc j hj.1

theorem Intact.openOk (h : Intact S live) {i : Inode} (hi : i ∈ S.openInodes) : OpenOk S.vol i := by
  obtain ⟨hl,hd,-,-⟩ := h.inode i hi
  have hrec := System.record_open h.sectors hi
  obtain ⟨h0,hu,hn⟩ := h.alloc _ hl
  exact ⟨h.ok,hrec ▸ h.file _ hl,hd,hu,hn,h0,hrec ▸ h.self _ hl⟩

theorem Intact.mine_iff (h : Intact S live) {i : Inode} (hi : i ∈ S.openInodes) (p : BlockSector) :
    Mine S.vol i p ↔ S.Owned i.sector p := by
  unfold Mine System.Owned
  rw [System.record_open h.sectors hi]

/-- `inode_write_at` in general. -/
theorem OpenOk.write {v : Volume} {i : Inode} (h : OpenOk v i) (buffer : List UInt8) {size offset : ℤ}
    (h0 : 0 ≤ offset) (h1 : 1 ≤ size) (ho : offset < 2147483648) (hs : size < 2147483648)
    (hb : size ≤ buffer.length) :
    ∃ ok, (inodeWriteAt i buffer size offset v).1 = (if ok then size else 0) ∧
      Writes v i buffer size offset ok (inodeWriteAt i buffer size offset v).2.1
        (inodeWriteAt i buffer size offset v).2.2 := by
  by_cases hle : offset + size ≤ i.data.length
  · obtain ⟨hn,hw⟩ := h.write_inside buffer h0 h1 hb hle
    exact ⟨true,hn,hw⟩
  · exact h.write_extend buffer h0 h1 ho hs hb (by omega)

/-- The sectors of a file after a write: old ones, and new ones that nobody had. -/
theorem Writes.owned {v w : Volume} {i inode : Inode} {buffer : List UInt8} {size offset : ℤ} {ok : Bool}
    (hw : Writes v i buffer size offset ok inode w) {t : Slot} (ht : inodeShape t ≠ .absent)
    (h0 : ptr w inode.data t ≠ 0) : ptr v i.data t = ptr w inode.data t ∨ Fresh v w (ptr w inode.data t) := by
  by_cases hz : ptr v i.data t = 0
  · exact .inr (hw.fresh t ht hz h0)
  · exact .inl (hw.keep t ht hz).symm

theorem Intact.writes (h : Intact S live) {i inode : Inode} (hi : i ∈ S.openInodes) {buffer : List UInt8}
    {size offset : ℤ} {ok : Bool} (hw : Writes S.vol i buffer size offset ok inode w) :
    Intact (S.changed inode w) live ∧ (S.changed inode w).record i.sector = inode.data ∧
      ∀ p ∈ live, p ≠ i.sector → (S.changed inode w).record p = S.record p ∧
        (S.changed inode w).bytes p = S.bytes p := by
  obtain ⟨hl,hd,hc,hb⟩ := h.inode i hi
  have hopen := System.record_open h.sectors hi
  have hX : ∀ p ∈ live, p ≠ i.sector → ∀ q, S.Owned p q →
      Used w q ∧ ¬ (q = 0 ∨ Fresh S.vol w q ∨ Mine S.vol i q) := by
    intro p hp hne q hq
    obtain ⟨hq0,hqu,-⟩ := h.owned hp hq
    refine ⟨hw.used q hqu,fun hX => ?_⟩
    rcases hX with hX | hX | hX
    · exact hq0 hX
    · exact hqu.not_free hX.1
    · exact hne (h.apart p hp _ hl q hq ((h.mine_iff hi q).mp hX))
  have hin : inode = { i with data := inode.data, removed := inode.removed } := by
    have := hw.inode_eq
    rw [this]
  obtain ⟨hsectors,haddrs,hpast,hrec,hother⟩ := h.changed hi hin hw.keeps.file fun p hp hne =>
    (h.untouched hp hw.keeps (hX p hp hne)).sector
  have ha : inode.addr = i.addr := by rw [hin]
  have hsec : inode.sector = i.sector := by rw [hin]
  have hold := h.alloc _ hl
  refine ⟨h.rebuild (T := S.changed inode w) i.sector hw.keeps
    (fun p hp hne => ⟨hp,hother p hp hne,hX p hp hne⟩) (fun _ => ?_) (fun j hj => ?_) hsectors haddrs hpast,hrec,
    fun p hp hne => ⟨hother p hp hne,h.bytes_eq (T := S.changed inode w) hp hw.keeps (hother p hp hne)
      (hX p hp hne)⟩⟩
  · rw [hrec]
    refine ⟨hw.file,fun t ht he => ?_,fun q hq => ?_⟩
    · have h0 : ptr w inode.data t ≠ 0 := fun hz => hold.1 (he.symm.trans hz)
      cases hw.owned ht h0 with
      | inl hk => exact h.self _ hl t ht (by rw [hopen,hk]; exact he)
      | inr hf => exact hold.2.1.not_free (he ▸ hf.1)
    · have hq' : S.Owned i.sector q ∨ q ≠ 0 ∧ Fresh S.vol w q := by
        cases hq with
        | inl he => exact .inl (.inl he)
        | inr hq =>
          obtain ⟨h0,t,ht,he⟩ := hq
          rw [hrec] at he
          subst he
          cases hw.owned ht h0 with
          | inl hk => exact .inl (.inr ⟨h0,t,ht,by rw [hopen]; exact hk⟩)
          | inr hf => exact .inr ⟨h0,hf⟩
      cases hq' with
      | inl hq =>
        obtain ⟨hq0,hqu,hqn⟩ := h.owned hl hq
        refine ⟨hq0,hw.used q hqu,fun hn => hqn ((hw.keeps.fmNode_iff q).mp hn),fun p hp hne hp' => ?_⟩
        exact hne (h.apart p hp _ hl q hp' hq)
      | inr hq =>
        refine ⟨hq.1,hq.2.2,fun hn => ?_,fun p hp hne hp' => ?_⟩
        · exact (((hw.keeps.fmNode_iff q).mp hn).used h.ok.ready).not_free hq.2.1
        · exact (h.owned hp hp').2.1.not_free hq.2.1
  · cases (h.mem_changed hi ha).mp hj with
    | inl he =>
      subst he
      rw [hsec]
      refine ⟨hl,by rw [hin]; exact hd,by rw [hin]; exact hc,?_⟩
      cases hw.record with
      | inl hr =>
        change Backed w (w.sectors i.sector) j.data
        rw [hr]
        exact Backed.refl hw.file
      | inr hr =>
        change Backed w (w.sectors i.sector) j.data
        rw [hr.1]
        exact hb.step hr.2 hw.keep
    | inr hj =>
      obtain ⟨hjl,hjd,hjc,hjb⟩ := h.inode j hj.1
      have hu := h.untouched hjl hw.keeps (hX _ hjl hj.2)
      rw [System.record_open h.sectors hj.1] at hu
      refine ⟨hjl,hjd,hjc,?_⟩
      change Backed w (w.sectors j.sector) j.data
      rw [hu.sector]
      exact hjb.step (InodeDisk.SameInfo.refl _) fun t ht _ => hu.ptr_eq t ht

/-- `inode_write_at` on an open inode: it writes everything or nothing, and no other file changes. -/
theorem Intact.writeAt (h : Intact S live) {i : Inode} (hi : i ∈ S.openInodes) (buffer : List UInt8)
    {size offset : ℤ} (h0 : 0 ≤ offset) (h1 : 1 ≤ size) (ho : offset < 2147483648) (hs : size < 2147483648)
    (hb : size ≤ buffer.length) :
    ∃ ok inode w, S.writeAt i.addr buffer size offset = some (if ok then size else 0,S.changed inode w) ∧
      Writes S.vol i buffer size offset ok inode w ∧ Intact (S.changed inode w) live ∧
      (S.changed inode w).record i.sector = inode.data ∧
      ∀ p ∈ live, p ≠ i.sector → (S.changed inode w).record p = S.record p ∧
        (S.changed inode w).bytes p = S.bytes p := by
  obtain ⟨ok,hn,hw⟩ := (h.openOk hi).write buffer h0 h1 ho hs hb
  refine ⟨ok,_,_,?_,hw,h.writes hi hw⟩
  have ha : (inodeWriteAt i buffer size offset S.vol).2.1.addr = i.addr := by rw [hw.inode_eq]
  rw [System.writeAt,h.inodeAt_eq hi,Option.map_some]
  dsimp only
  rw [h.setInode_eq hi ha hw.keeps.file,hn]

/-- `inode_read_at` on an open inode. -/
theorem Intact.readAt (h : Intact S live) {i : Inode} (hi : i ∈ S.openInodes) {size offset : ℤ}
    (h0 : 0 ≤ offset) (ho : offset < 2147483648) :
    S.readAt i.addr size offset = some (((S.bytes i.sector).drop offset.toNat).take size.toNat) := by
  have hfile := h.file _ (h.inode i hi).1
  rw [System.readAt,h.inodeAt_eq hi,Option.map_some,System.bytes]
  rw [System.record_open h.sectors hi] at hfile ⊢
  rw [inodeReadAt_eq hfile.sized h0 ho]

/-! ### Removing and closing -/

/-- `inode_remove`. -/
theorem Intact.inodeRemove (h : Intact S live) {i : Inode} (hi : i ∈ S.openInodes) :
    S.inodeRemove i.addr = some (S.changed { i with removed := true } S.vol) ∧
      Intact (S.changed { i with removed := true } S.vol) live ∧
      ∀ p ∈ live, (S.changed { i with removed := true } S.vol).record p = S.record p := by
  have hrm : S.inodeRemove i.addr = some (S.changed { i with removed := true } S.vol) := by
    rw [System.inodeRemove,h.inodeAt_eq hi,Option.map_some]
    exact congrArg some (@h.setInode_eq S live S.vol i { i with removed := true } hi rfl rfl)
  obtain ⟨hsectors,haddrs,hpast,hrec,hother⟩ :=
    @h.changed S live S.vol i { i with removed := true } hi rfl rfl fun _ _ _ => rfl
  have hsame : ∀ p ∈ live, (S.changed { i with removed := true } S.vol).record p = S.record p := by
    intro p hp
    by_cases hne : p = i.sector
    · rw [hne,hrec,System.record_open h.sectors hi]
    · exact hother p hp hne
  have hk : Keeps S.vol (S.changed { i with removed := true } S.vol).vol (fun _ => False) := Keeps.refl h.ok _
  refine ⟨hrm,h.rebuild 0 hk (fun p hp _ => ⟨hp,hsame p hp,fun q hq => ⟨(h.owned hp hq).2.1,fun hc => hc⟩⟩)
    (fun h0 => absurd rfl (h.alloc 0 h0).1) (fun j hj => ?_) hsectors haddrs hpast,hsame⟩
  cases (@h.mem_changed S live S.vol i { i with removed := true } j hi rfl).mp hj with
  | inl he =>
    subst he
    exact h.inode i hi
  | inr hj => exact h.inode j hj.1

/-- The state after an inode was taken off the list. -/
def System.closed (S : System) (addr : ℕ) : System :=
  { S with openInodes := Keyed.remove Inode.addr addr S.openInodes }

theorem Intact.freeInode_eq (h : Intact S live) {i : Inode} (hi : i ∈ S.openInodes) :
    S.freeInode i.addr = S.closed i.addr := by
  have hf : S.vol.freeMapFile.filter (fun j => j.addr ≠ i.addr) = S.vol.freeMapFile := by
    cases hf : S.vol.freeMapFile with
    | none => rfl
    | some fm => rw [Option.filter_some,if_pos (by simpa using h.fm_addr_ne hi hf)]
  unfold System.freeInode System.closed
  rw [hf]

theorem Intact.mem_closed (h : Intact S live) {i j : Inode} (hi : i ∈ S.openInodes) :
    j ∈ (S.closed i.addr).openInodes ↔ j ∈ S.openInodes ∧ j.sector ≠ i.sector := by
  refine Keyed.mem_remove.trans (and_congr_right fun hj => not_congr ?_)
  constructor
  · intro he
    have hj' := h.inodeAt_eq hj
    rw [he,h.inodeAt_eq hi] at hj'
    rw [Option.some.inj hj']
  · exact fun he => by rw [Keyed.key_injective h.sectors hj hi he]

theorem Intact.record_closed (h : Intact S live) {i : Inode} (hi : i ∈ S.openInodes) :
    (S.closed i.addr).record i.sector = S.vol.sectors i.sector ∧
      ∀ p, p ≠ i.sector → (S.closed i.addr).record p = S.record p := by
  have hnod : ((S.closed i.addr).openInodes.map Inode.sector).Nodup := Keyed.nodup_remove h.sectors
  refine ⟨System.record_closed fun j hj => ((h.mem_closed hi).mp hj).2,fun p hne => ?_⟩
  by_cases hop : ∃ j ∈ S.openInodes, j.sector = p
  · obtain ⟨j,hj,rfl⟩ := hop
    rw [System.record_open hnod ((h.mem_closed hi).mpr ⟨hj,hne⟩),System.record_open h.sectors hj]
  · have hc : ∀ j ∈ S.openInodes, j.sector ≠ p := fun j hj he => hop ⟨j,hj,he⟩
    rw [System.record_closed hc,System.record_closed fun j hj => hc j ((h.mem_closed hi).mp hj).1]
    rfl

theorem Intact.closed_lists (h : Intact S live) (addr : ℕ) :
    ((S.closed addr).openInodes.map Inode.sector).Nodup ∧ ((S.closed addr).inodes.map Inode.addr).Nodup ∧
      ∀ j ∈ (S.closed addr).inodes, j.addr < (S.closed addr).nextAddr := by
  have hsub : (S.closed addr).inodes.Sublist S.inodes :=
    List.Sublist.append List.filter_sublist (List.Sublist.refl _)
  exact ⟨Keyed.nodup_remove h.sectors,h.addrs.sublist (hsub.map _),fun j hj => h.past j (hsub.subset hj)⟩

/-- `inode_close` of an inode that was not removed: the record on disk takes over. -/
theorem Intact.inodeClose (h : Intact S live) {i : Inode} (hi : i ∈ S.openInodes) (hr : i.removed = false) :
    S.inodeClose i.addr = some (S.closed i.addr) ∧ Intact (S.closed i.addr) live ∧
      (∀ p, (S.closed i.addr).bytes p = S.bytes p) ∧
      ∀ p, InodeDisk.SameInfo (S.record p) ((S.closed i.addr).record p) := by
  obtain ⟨hl,hd,hc,hb⟩ := h.inode i hi
  have hopen := System.record_open h.sectors hi
  obtain ⟨hrec,hother⟩ := h.record_closed hi
  obtain ⟨hsectors,haddrs,hpast⟩ := h.closed_lists i.addr
  have hfile := hopen ▸ h.file _ hl
  obtain ⟨hdisk,hcont⟩ := hb.file hfile
  have hk : Keeps S.vol (S.closed i.addr).vol (fun _ => False) := Keeps.refl h.ok _
  refine ⟨?_,h.rebuild i.sector hk
    (fun p hp hne => ⟨hp,hother p hne,fun q hq => ⟨(h.owned hp hq).2.1,fun hc => hc⟩⟩) (fun _ => ?_)
    (fun j hj => h.inode j ((h.mem_closed hi).mp hj).1) hsectors haddrs hpast,fun p => ?_,fun p => ?_⟩
  · rw [System.inodeClose,h.inodeAt_eq hi,Option.map_some,if_pos (by omega),h.freeInode_eq hi]
    simp [hr]
  · -- the record on disk owns a part of what the one in memory did
    rw [hrec]
    have hsub : ∀ q, (S.closed i.addr).Owned i.sector q → S.Owned i.sector q := by
      intro q hq
      cases hq with
      | inl he => exact .inl he
      | inr hq =>
        obtain ⟨h0,t,ht,he⟩ := hq
        rw [hrec] at he
        have he' : ptr S.vol (S.vol.sectors i.sector) t = q := he
        refine .inr ⟨h0,t,ht,?_⟩
        rw [hopen,← (hb.ptr_eq S.vol t).resolve_left (he'.symm ▸ h0)]
        exact he
    refine ⟨hdisk,fun t ht he => ?_,fun q hq => ?_⟩
    · have he' : ptr S.vol (S.vol.sectors i.sector) t = i.sector := he
      have h0 := (h.alloc _ hl).1
      have hm := (hb.ptr_eq S.vol t).resolve_left (he'.symm ▸ h0)
      exact h.self _ hl t ht (by rw [hopen,← hm]; exact he')
    · obtain ⟨hq0,hqu,hqn⟩ := h.owned hl (hsub q hq)
      exact ⟨hq0,hqu,hqn,fun p hp hne hp' => hne (h.apart p hp _ hl q hp' (hsub q hq))⟩
  · unfold System.bytes
    by_cases hne : p = i.sector
    · rw [hne,hrec,hopen]
      exact hcont
    · rw [hother p hne]
      rfl
  · by_cases hne : p = i.sector
    · rw [hne,hrec,hopen]
      exact fun k hk => (hb.info k hk).symm
    · rw [hother p hne]
      exact InodeDisk.SameInfo.refl _

/-- What a removed inode gives back. -/
theorem Intact.released (h : Intact S live) {i : Inode} (hi : i ∈ S.openInodes) :
    Released ([i.sector] ++ (inodeWalk (bytesToSectors i.data.length)).map (ptr S.vol i.data)) S.vol
      (System.releaseInode i S.vol) := by
  have ho := h.openOk hi
  have h1 := Released.one h.ok ho.used ho.ne_zero ho.apart
  obtain ⟨hfile,hptr,-⟩ := ho.file.of_same (w := freeMapRelease i.sector 1 S.vol)
    (fun t ht h0 => h1.used (ho.file.owns.used t ht h0) fun hm => ho.not_mapped t ht (List.mem_singleton.mp hm))
    (fun p => (h1.keeps.fmNode_iff p).mp) fun t ht h0 =>
      (h1.keeps.frame _ (fun hc => hc) fun hl => ho.file.owns.apart t ht (hl.node h.ok.ready)).1
  have hle := hfile.sized.le
  have hn := bytesToSectors_eq hfile.sized.nonneg hle
  have h2 := (inodeDeallocate_spec hfile.sized.nonneg (by unfold maxSectors; omega) h1.keeps.ok hfile.owns
    hfile.sized.mapped).2
  have hmap : (inodeWalk (bytesToSectors i.data.length)).map (ptr (freeMapRelease i.sector 1 S.vol) i.data) =
      (inodeWalk (bytesToSectors i.data.length)).map (ptr S.vol i.data) :=
    List.map_congr_left fun t ht => hptr t (inodeWalk_place ht)
  rw [hmap] at h2
  rw [System.releaseInode,System.ignoreResult_eq]
  exact h1.append h2

/-- `inode_close` of a removed inode. -/
theorem Intact.inodeClose_removed (h : Intact S live) {i : Inode} (hi : i ∈ S.openInodes) (hr : i.removed = true) :
    S.inodeClose i.addr = some { S.closed i.addr with vol := System.releaseInode i S.vol } ∧
      Intact { S.closed i.addr with vol := System.releaseInode i S.vol } (live \ {i.sector}) ∧
      ∀ p ∈ live, p ≠ i.sector →
        System.record { S.closed i.addr with vol := System.releaseInode i S.vol } p = S.record p ∧
        System.bytes { S.closed i.addr with vol := System.releaseInode i S.vol } p = S.bytes p := by
  obtain ⟨hl,hd,hc,hb⟩ := h.inode i hi
  have hopen := System.record_open h.sectors hi
  have hrel := h.released hi
  have hclose : S.inodeClose i.addr = some { S.closed i.addr with vol := System.releaseInode i S.vol } := by
    rw [System.inodeClose,h.inodeAt_eq hi,Option.map_some,if_pos (by omega),h.freeInode_eq hi]
    dsimp only
    rw [if_pos hr]
    rfl
  rw [hclose]
  generalize System.releaseInode i S.vol = w at hrel ⊢
  obtain ⟨-,hother⟩ := h.record_closed hi
  obtain ⟨hsectors,haddrs,hpast⟩ := h.closed_lists i.addr
  have hP : ∀ q ∈ [i.sector] ++ (inodeWalk (bytesToSectors i.data.length)).map (ptr S.vol i.data),
      S.Owned i.sector q := by
    intro q hq
    cases List.mem_append.mp hq with
    | inl he => exact .inl (List.mem_singleton.mp he)
    | inr hq =>
      obtain ⟨t,ht,rfl⟩ := List.mem_map.mp hq
      exact .inr ⟨(h.openOk hi).file.sized.mapped t ht,t,inodeWalk_place ht,by rw [hopen]⟩
  have hX : ∀ p ∈ live, p ≠ i.sector → ∀ q, S.Owned p q → Used w q ∧ ¬ False :=
    fun p hp hne q hq => ⟨hrel.used (h.owned hp hq).2.1 fun hm => hne (h.apart p hp _ hl q hq (hP q hm)),
      fun hc => hc⟩
  have hunt : ∀ p ∈ live, p ≠ i.sector → Untouched S.vol w p (S.record p) :=
    fun p hp hne => h.untouched hp hrel.keeps (hX p hp hne)
  have hrec : ∀ p ∈ live, p ≠ i.sector →
      System.record { S.closed i.addr with vol := w } p = S.record p :=
    fun p hp hne => (System.record_vol (S := S.closed i.addr) (hunt p hp hne).sector).trans (hother p hne)
  have hinodes : System.inodes { S.closed i.addr with vol := w } =
      (S.closed i.addr).inodes := by
    unfold System.inodes
    dsimp only
    rw [hrel.keeps.file]
    rfl
  refine ⟨rfl,h.rebuild (T := { S.closed i.addr with vol := w }) i.sector hrel.keeps
    (fun p hp hne => ⟨hp.1,hrec p hp.1 hne,hX p hp.1 hne⟩) (fun hf => absurd rfl hf.2) (fun j hj => ?_)
    hsectors (by rw [hinodes]; exact haddrs) (by rw [hinodes]; exact hpast),
    fun p hp hne => ⟨hrec p hp hne,h.bytes_eq
      (T := { S.closed i.addr with vol := w }) hp hrel.keeps (hrec p hp hne)
      (hX p hp hne)⟩⟩
  obtain ⟨hj,hne⟩ := (h.mem_closed hi).mp hj
  obtain ⟨hjl,hjd,hjc,hjb⟩ := h.inode j hj
  have hu := hunt _ hjl hne
  rw [System.record_open h.sectors hj] at hu
  refine ⟨⟨hjl,hne⟩,hjd,hjc,?_⟩
  change Backed w (w.sectors j.sector) j.data
  rw [hu.sector]
  exact hjb.step (InodeDisk.SameInfo.refl _) fun t ht _ => hu.ptr_eq t ht

/-! ### Creating -/

/-- A sector fresh from `free_map_allocate` belongs to no file. -/
structure Allocated (S : System) (live : Set BlockSector) (p : BlockSector) (v : Volume) : Prop where
  free : Free S.vol p
  map : v.freeMap = S.vol.freeMap.bitmapSetMultiple p.toNat 1 true
  releases : v.releases = S.vol.releases
  keeps : Keeps S.vol v (fun _ => False)
  used : ∀ q, Used v q ↔ Used S.vol q ∨ q = p
  ne_zero : p ≠ 0
  fm : ¬ FmNode v p
  owned : ∀ s ∈ live, ¬ S.Owned s p

theorem Intact.allocate (h : Intact S live) {p : BlockSector} {v : Volume}
    (ha : freeMapAllocate 1 S.vol = (some p,v)) : Allocated S live p v := by
  rcases freeMapAllocate_spec h.ok with ⟨hn,-⟩ | ⟨p',v',hs,hfree,-,hmap,hrel,hk⟩
  · rw [hn] at ha
    simp at ha
  rw [hs] at ha
  obtain ⟨hp,rfl⟩ := Prod.mk.inj ha
  obtain rfl := Option.some.inj hp
  have htest := Bitmap.test_setMultiple S.vol.freeMap p'.toNat 1 true (by have := hfree.1; omega)
  refine ⟨hfree,hmap,hrel,hk,fun q => ?_,?_,fun hn => ?_,fun s hs ho => ?_⟩
  · unfold Used
    rw [hk.bitCnt,hmap,htest]
    by_cases hq : q = p'
    · subst hq
      have := hfree.1
      simp [this]
    · have hne : ¬ (p'.toNat ≤ q.toNat ∧ q.toNat < p'.toNat + 1) := fun hc =>
        hq (UInt32.toNat_inj.mp (by omega))
      rw [if_neg hne]
      simp [hq]
  · rintro rfl
    exact h.ok.zero_used.not_free hfree
  · exact (((hk.fmNode_iff p').mp hn).used h.ok.ready).not_free hfree
  · exact (h.owned hs ho).2.1.not_free hfree

/-- A sector marked in the free map that belongs to no file. -/
structure Spare (S : System) (live : Set BlockSector) (p : BlockSector) (v : Volume) : Prop where
  keeps : Keeps S.vol v (fun _ => False)
  used : ∀ q, Used S.vol q → Used v q
  marked : Used v p
  ne_zero : p ≠ 0
  fm : ¬ FmNode v p
  owned : ∀ s ∈ live, ¬ S.Owned s p

theorem Allocated.spare {p : BlockSector} {v : Volume} (h : Allocated S live p v) : Spare S live p v :=
  ⟨h.keeps,fun q hq => (h.used q).mpr (.inl hq),(h.used p).mpr (.inr rfl),h.ne_zero,h.fm,h.owned⟩

theorem Intact.create_keeps (h : Intact S live) {p : BlockSector} {v : Volume} (ha : Spare S live p v)
    {length : ℤ} {isDir ok : Bool} {d : InodeDisk} (hc : Creates v p length isDir ok d w) :
    Keeps S.vol w (fun s => s = 0 ∨ Fresh v w s ∨ s = p) ∧
      ∀ s ∈ live, ∀ q, S.Owned s q → Used w q ∧ ¬ (q = 0 ∨ Fresh v w q ∨ q = p) := by
  refine ⟨(ha.keeps.mono fun _ hf => hf.elim).trans hc.keeps,fun s hs q hq => ?_⟩
  obtain ⟨hq0,hqu,-⟩ := h.owned hs hq
  have hqv := ha.used q hqu
  refine ⟨hc.used q hqv,fun hX => ?_⟩
  rcases hX with hX | hX | hX
  · exact hq0 hX
  · exact hqv.not_free hX.1
  · exact ha.owned s hs (hX ▸ hq)

/-- `inode_create` on such a sector. -/
theorem Intact.inodeCreate (h : Intact S live) {p : BlockSector} {v : Volume} (ha : Spare S live p v)
    {length : ℤ} (isDir : Bool) (h0 : 0 ≤ length) (hmax : length < 2147483648) :
    ∃ d, Creates v p length isDir (inodeCreate p length isDir v).1 d (inodeCreate p length isDir v).2 ∧
      Intact { S with vol := (inodeCreate p length isDir v).2 } live ∧
      (∀ s ∈ live, System.record { S with vol := (inodeCreate p length isDir v).2 } s = S.record s) ∧
      (∀ s ∈ live, System.bytes { S with vol := (inodeCreate p length isDir v).2 } s = S.bytes s) ∧
      ((inodeCreate p length isDir v).1 = true →
        Intact { S with vol := (inodeCreate p length isDir v).2 } (insert p live) ∧
        System.record { S with vol := (inodeCreate p length isDir v).2 } p = d ∧
        System.bytes { S with vol := (inodeCreate p length isDir v).2 } p = List.replicate length.toNat 0) := by
  obtain ⟨d,hc⟩ := @inodeCreate_spec v p length isDir ha.keeps.ok ha.fm h0 hmax
  generalize Fs.inodeCreate p length isDir v = r at hc ⊢
  obtain ⟨ok,w⟩ := r
  dsimp only at hc ⊢
  obtain ⟨hk,hX⟩ := h.create_keeps ha hc
  obtain ⟨hint,hrec,hbytes⟩ := h.volume hk hX
  refine ⟨d,hc,hint,hrec,hbytes,fun hok => ?_⟩
  have hpu := ha.marked
  have hnot : p ∉ live := fun hp => ha.owned p hp (.inl rfl)
  have hclosed : ∀ i ∈ S.openInodes, i.sector ≠ p := fun i hi he => hnot (he ▸ (h.inode i hi).1)
  have hrecp : System.record { S with vol := w } p = d :=
    (System.record_closed (S := { S with vol := w }) hclosed).trans (hc.record hok)
  have hself : Keeps w w (fun _ => False) := Keeps.refl hc.keeps.ok _
  refine ⟨hint.rebuild (T := { S with vol := w }) p hself (fun s hs hne => ?_) (fun _ => ?_) (fun i hi => ?_)
    hint.sectors hint.addrs hint.past,hrecp,?_⟩
  · have hl := Set.mem_of_mem_insert_of_ne hs hne
    exact ⟨hl,rfl,fun q hq => ⟨(hint.owned hl hq).2.1,fun hf => hf⟩⟩
  · rw [hrecp]
    refine ⟨hc.file hok hpu,fun t ht he => ?_,fun q hq => ?_⟩
    · have hz : ptr w d t ≠ 0 := fun hz => ha.ne_zero (he.symm.trans hz)
      exact hpu.not_free (he ▸ (hc.fresh hok hpu t ht hz).1)
    · have hown : ∀ s ∈ insert p live, s ≠ p → System.Owned { S with vol := w } s q → Used v q ∧ q ≠ p := by
        intro s hs hne ho
        have hl := Set.mem_of_mem_insert_of_ne hs hne
        have ho' := ((h.untouched hl hk (hX s hl)).owned_iff (T := { S with vol := w }) (hrec s hl) q).mp ho
        exact ⟨ha.used q (h.owned hl ho').2.1,fun he => ha.owned s hl (he ▸ ho')⟩
      cases hq with
      | inl he =>
        subst he
        exact ⟨ha.ne_zero,hc.used _ hpu,fun hn => ha.fm ((hc.keeps.fmNode_iff _).mp hn),
          fun s hs hne ho => (hown s hs hne ho).2 rfl⟩
      | inr hq =>
        obtain ⟨hz,t,ht,he⟩ := hq
        rw [hrecp] at he
        subst he
        have hf := hc.fresh hok hpu t ht hz
        refine ⟨hz,hf.2,fun hn => ?_,fun s hs hne ho => (hown s hs hne ho).1.not_free hf.1⟩
        exact (((hc.keeps.fmNode_iff _).mp hn).used ha.keeps.ok.ready).not_free hf.1
  · obtain ⟨hl,hrest⟩ := hint.inode i hi
    exact ⟨Set.mem_insert_of_mem p hl,hrest⟩
  · unfold System.bytes
    rw [hrecp]
    exact hc.content_eq hok hpu

/-- A sector that was allocated in vain goes back. -/
theorem Intact.release (h : Intact S live) {p : BlockSector} (h0 : p ≠ 0) (hu : Used S.vol p)
    (hfm : ¬ FmNode S.vol p) (ho : ∀ s ∈ live, ¬ S.Owned s p) :
    Intact { S with vol := freeMapRelease p 1 S.vol } live ∧
      (∀ s ∈ live, System.record { S with vol := freeMapRelease p 1 S.vol } s = S.record s) ∧
      ∀ s ∈ live, System.bytes { S with vol := freeMapRelease p 1 S.vol } s = S.bytes s := by
  have hrel := Released.one h.ok hu h0 hfm
  refine h.volume hrel.keeps fun s hs q hq => ⟨hrel.used (h.owned hs hq).2.1 fun hm => ?_,fun hc => hc⟩
  exact ho s hs (List.mem_singleton.mp hm ▸ hq)

end
end ShellOS.Fs
