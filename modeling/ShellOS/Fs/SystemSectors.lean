import ShellOS.Fs.Owners

/-! Which sectors the operations on an inode write. When the disk fills up at an indirect block, sector 0
is one of them. -/
namespace ShellOS.Fs
open CLib BlockTree

/-- From `v` to `w` only sectors were written that are the inode's own, or were newly allocated, or hold the
free map; the two system sectors were not. -/
structure Contained (own : BlockSector → Prop) (v w : Volume) : Prop where
  written : ∀ s, w.writes s ≠ v.writes s → own s ∨ Fresh v w s ∨ FmLeaf v s
  freeMap : w.writes freeMapSector = v.writes freeMapSector
  rootDir : w.writes rootDirSector = v.writes rootDirSector

/-- Of the allocations `D`, where `true` stands for an indirect block, the first that fails is for an
indirect block. -/
def FillsAtBlock (D : List Bool) (v : Volume) : Prop := D[numFreeSectors v]? = some true

section
variable {v w : Volume} {D : List Bool} {ok : Bool} {S : System} {live : Set BlockSector} {p : BlockSector}
  {X own : BlockSector → Prop}

theorem Takes.writes_zero_iff (h : Takes D v w ok) : w.writes 0 = v.writes 0 ↔ ¬ FillsAtBlock D v := by
  unfold Takes at h
  unfold FillsAtBlock
  split_ifs at h with hD hb
  · rw [List.getElem?_eq_none hD]
    exact iff_of_true h.2.2.2 (by simp)
  · exact iff_of_false (Nat.ne_of_gt h.2.2) (not_not.mpr hb)
  · exact iff_of_true h.2.2.2 hb

/-- Only sector 0 can be written without being allowed to. -/
theorem Keeps.contained_iff (k : Keeps v w X) (hX : ∀ s, X s → s = 0 ∨ own s ∨ Fresh v w s) (hv : v.Ok)
    (hroot : Used v rootDirSector) (hrootfm : ¬ FmNode v rootDirSector) (hrootown : ¬ own rootDirSector)
    (ht : Takes D v w ok) : Contained own v w ↔ ¬ FillsAtBlock D v := by
  rw [← ht.writes_zero_iff]
  refine ⟨fun h => h.freeMap,fun h => ⟨fun s hs => ?_,h,?_⟩⟩
  · by_contra hno
    simp only [not_or] at hno
    have hz : s ≠ 0 := fun he => hs (he ▸ h)
    refine hs (k.frame s (fun hx => ?_) hno.2.2).2
    rcases hX s hx with he | ho | hf
    · exact hz he
    · exact hno.1 ho
    · exact hno.2.1 hf
  · refine (k.frame _ (fun hx => ?_) fun hl => hrootfm (hl.node hv.ready)).2
    rcases hX _ hx with he | ho | hf
    · exact absurd he (by decide)
    · exact hrootown ho
    · exact hroot.not_free hf.1

theorem Intact.create_contained (h : Intact S live) (hr : rootDirSector ∈ live) (ha : freeMapAllocate 1 S.vol = (some p,v))
    {length : ℤ} (hl : IsInt length) (isDir : Bool) :
    Contained (· = p) v (Fs.inodeCreate p length isDir v).2 ↔ length < 0 ∨ ¬ FillsAtBlock (createDemand length) v := by
  have hall := h.allocate ha
  obtain ⟨-,hroot,hrootfm⟩ := h.alloc _ hr
  by_cases h0 : 0 ≤ length
  · obtain ⟨d,hc⟩ := @inodeCreate_spec v p length isDir hall.keeps.ok hall.fm h0 hl.2
    rw [or_iff_right (by omega)]
    refine hc.keeps.contained_iff (fun s hs => ?_) hall.keeps.ok ((hall.used _).mpr (.inl hroot))
      (fun hn => hrootfm ((hall.keeps.fmNode_iff _).mp hn)) (fun he : rootDirSector = p => hall.owned _ hr (.inl he.symm)) (hc.takes hall.ne_zero)
    rcases hs with hs | hs | hs
    · exact .inl hs
    · exact .inr (.inr hs)
    · exact .inr (.inl hs)
  · rw [inodeCreate_neg p isDir v (by omega) hl.1]
    exact iff_of_true ⟨fun s hs => absurd rfl hs,rfl,rfl⟩ (.inl (by omega))

theorem Intact.write_contained (h : Intact S live) (hr : rootDirSector ∈ live) {i : Inode} (hi : i ∈ S.openInodes)
    (hne : i.sector ≠ rootDirSector) {buffer : List UInt8} {size offset n : ℤ} {S' : System} (h0 : 0 ≤ offset)
    (h1 : 1 ≤ size) (ho : IsInt offset) (hs : IsInt size) (hb : size ≤ buffer.length)
    (hw : S.writeAt i.addr buffer size offset = some (n,S')) :
    Contained (Mine S.vol i) S.vol S'.vol ↔ ¬ FillsAtBlock (writeDemand S.vol i.data size offset) S.vol := by
  obtain ⟨ok,inode,w,hw',hws,-⟩ := h.write_frame hi buffer h0 h1 ho.2 hs.2 hb
  rw [hw] at hw'
  obtain ⟨-,rfl⟩ := Prod.mk.inj (Option.some.inj hw')
  obtain ⟨-,hroot,hrootfm⟩ := h.alloc _ hr
  have hl := (h.inode i hi).1
  refine hws.keeps.contained_iff (fun s hs => ?_) h.ok hroot hrootfm (fun hm => ?_) hws.takes
  · rcases hs with hs | hs | hs
    · exact .inl hs
    · exact .inr (.inr hs)
    · exact .inr (.inl hs)
  · exact hne (h.apart _ hl _ hr rootDirSector ((h.mine_iff hi _).mp hm) (.inl rfl))

/-- Creating a file or writing to one leaves the system sectors and those of other files alone exactly when the
disk does not fill up at an indirect block. -/
theorem fileData_contained_iff (h : Intact S live) (hr : rootDirSector ∈ live) :
    (∀ p v length isDir, freeMapAllocate 1 S.vol = (some p,v) → IsInt length →
      (Contained (· = p) v (Fs.inodeCreate p length isDir v).2 ↔ length < 0 ∨ ¬ FillsAtBlock (createDemand length) v)) ∧
    ∀ i ∈ S.openInodes, i.sector ≠ rootDirSector → ∀ (buffer : List UInt8) (size offset n : ℤ) (S' : System), 0 ≤ offset →
      1 ≤ size → IsInt offset → IsInt size → size ≤ buffer.length → S.writeAt i.addr buffer size offset = some (n,S') →
      (Contained (Mine S.vol i) S.vol S'.vol ↔ ¬ FillsAtBlock (writeDemand S.vol i.data size offset) S.vol) :=
  ⟨fun _ _ _ isDir ha hl => h.create_contained hr ha hl isDir,
    fun _ hi hne _ _ _ _ _ h0 h1 ho hs hb hw => h.write_contained hr hi hne h0 h1 ho hs hb hw⟩

end

/-- On a new device of 199 sectors there are 124 free sectors. -/
theorem formatted_199 : ∃ S, Formatted S ∧ numFreeSectors S.vol = 124 := by
  have hd1 : (createDemand (byteCnt (199 - 1))).length = 1 := by decide +kernel
  have hd2 : (createDemand 36000).length = 71 := by decide +kernel
  obtain ⟨S,hF,hcount⟩ := @formatted_of_room 199 (fun _ => Sector.zeros) (by decide) (by decide) (by decide)
    (by rw [hd1,hd2]; decide)
  rw [hd1,hd2] at hcount
  exact ⟨S,hF,by omega⟩

/-- A file of 130 sectors on a new device of 300 sectors: 123 of them are direct, and one more is the indirect block. -/
theorem fileData_contained_iff_indirect : ∃ S p v, Formatted S ∧ freeMapAllocate 1 S.vol = (some p,v) ∧
    (createDemand 66560).length = 131 ∧ Contained (· = p) v (Fs.inodeCreate p 66560 false v).2 := by
  have hd1 : (createDemand (byteCnt (300 - 1))).length = 1 := by decide +kernel
  have hd2 : (createDemand 36000).length = 71 := by decide +kernel
  have hdemand : (createDemand 66560).length = 131 := by decide +kernel
  obtain ⟨S,hF,hcount⟩ := @formatted_of_room 300 (fun _ => Sector.zeros) (by decide) (by decide) (by decide)
    (by rw [hd1,hd2]; decide)
  rw [hd1,hd2] at hcount
  obtain ⟨-,-,-,hint,-⟩ := hF.atRest
  rcases freeMapAllocate_count hint.ok with ⟨-,h0⟩ | ⟨p,v,ha,-,-,hc⟩
  · omega
  have hno : ¬ FillsAtBlock (createDemand 66560) v := by
    rw [FillsAtBlock,List.getElem?_eq_none (by omega)]
    simp
  exact ⟨S,p,v,hF,ha,hdemand,
    ((fileData_contained_iff hint (Set.mem_singleton _)).1 p v 66560 false ha ⟨by decide,by decide⟩).mpr (.inr hno)⟩

/-- A file of 124 sectors on that device: its indirect block is the first sector that cannot be had, and
sector 0 is overwritten instead. -/
theorem create_overwrites_free_map : ∃ S p v, Formatted S ∧ freeMapAllocate 1 S.vol = (some p,v) ∧
    ¬ Contained (· = p) v (Fs.inodeCreate p 63488 false v).2 := by
  obtain ⟨S,hF,hn⟩ := formatted_199
  obtain ⟨-,-,-,hint,-⟩ := hF.atRest
  rcases freeMapAllocate_count hint.ok with ⟨-,h0⟩ | ⟨p,v,ha,-,-,hc⟩
  · omega
  have hfree : numFreeSectors v = 123 := by omega
  have hfill : FillsAtBlock (createDemand 63488) v := by
    rw [FillsAtBlock,hfree]
    decide +kernel
  refine ⟨S,p,v,hF,ha,fun hcon => ?_⟩
  rcases (hint.create_contained (Set.mem_singleton _) ha ⟨by decide,by decide⟩ false).mp hcon with hneg | hno
  · exact absurd hneg (by decide)
  · exact hno hfill

end ShellOS.Fs
