import ShellOS.Fs.Operations

/-! What the operations on an inode leave alone: the files at other sectors, and the tables of open
directories and files. -/
namespace ShellOS.Fs
open BlockTree CLib

/-- From `S` to `S'` nothing happened to the files at the sectors `P`, nor to any table. -/
structure Frame (P : Set BlockSector) (S S' : System) : Prop where
  record : ∀ p ∈ P, S'.record p = S.record p
  bytes : ∀ p ∈ P, S'.bytes p = S.bytes p
  disk : ∀ p ∈ P, S'.vol.sectors p = S.vol.sectors p
  opens : ∀ j : Inode, j.sector ∈ P → (j ∈ S'.openInodes ↔ j ∈ S.openInodes)
  dirs : S'.dirs = S.dirs
  cwd : S'.cwd = S.cwd
  fileTable : S'.fileTable = S.fileTable
  nextAddr : S.nextAddr ≤ S'.nextAddr

/-- The free map kept its file, its size and, in sector 0, the record of its file. -/
structure MapKept (v w : Volume) : Prop where
  file : w.freeMapFile = v.freeMapFile
  bitCnt : w.freeMap.bitCnt = v.freeMap.bitCnt
  high : ∀ i, v.freeMap.bitCnt ≤ i → w.freeMap.bitmapTest i = v.freeMap.bitmapTest i
  record : w.sectors freeMapSector = v.sectors freeMapSector

theorem MapKept.refl (v : Volume) : MapKept v v := ⟨rfl,rfl,fun _ _ => rfl,rfl⟩

theorem MapKept.trans {u v w : Volume} (h : MapKept u v) (g : MapKept v w) : MapKept u w :=
  ⟨g.file.trans h.file,g.bitCnt.trans h.bitCnt,fun i hi => (g.high i (h.bitCnt.le.trans hi)).trans (h.high i hi),g.record.trans h.record⟩

theorem Keeps.mapKept {v w : Volume} {X : BlockSector → Prop} (h : Keeps v w X) (h0 : Same v w 0) : MapKept v w :=
  ⟨h.file,h.bitCnt,h.high,h0.1⟩

/-- Sector 0 holds no part of the free map itself. -/
theorem Keeps.same_zero {v w : Volume} {X : BlockSector → Prop} (h : Keeps v w X) (hv : v.Ok) (hX : ¬ X 0) : Same v w 0 :=
  h.frame 0 hX fun ⟨fm,hf,_,hi,hp⟩ => (hv.ready fm hf).leaf_ne_zero hi hp

/-- What was asked for could be had. -/
theorem Takes.same_zero {D : List Bool} {v w : Volume} {ok : Bool} (h : Takes D v w ok) (hroom : D.length ≤ numFreeSectors v) :
    Same v w 0 := by
  rw [Takes,if_pos hroom] at h
  exact h.2.2

section
variable {S S' S'' : System} {P Q live : Set BlockSector} {s : BlockSector} {w : Volume} {i inode : Inode}

theorem Frame.refl (P : Set BlockSector) (S : System) : Frame P S S :=
  ⟨fun _ _ => rfl,fun _ _ => rfl,fun _ _ => rfl,fun _ _ => Iff.rfl,rfl,rfl,rfl,le_refl _⟩

theorem Frame.mono (h : Frame P S S') (hQ : Q ⊆ P) : Frame Q S S' :=
  { h with
    record := fun p hp => h.record p (hQ hp)
    bytes := fun p hp => h.bytes p (hQ hp)
    disk := fun p hp => h.disk p (hQ hp)
    opens := fun j hj => h.opens j (hQ hj) }

theorem Frame.trans (h : Frame P S S') (g : Frame P S' S'') : Frame P S S'' where
  record p hp := (g.record p hp).trans (h.record p hp)
  bytes p hp := (g.bytes p hp).trans (h.bytes p hp)
  disk p hp := (g.disk p hp).trans (h.disk p hp)
  opens j hj := (g.opens j hj).trans (h.opens j hj)
  dirs := g.dirs.trans h.dirs
  cwd := g.cwd.trans h.cwd
  fileTable := g.fileTable.trans h.fileTable
  nextAddr := h.nextAddr.trans g.nextAddr

/-- A step of the volume alone. -/
theorem Intact.volume_frame (h : Intact S live) {X : BlockSector → Prop} (k : Keeps S.vol w X)
    (hX : ∀ p ∈ live, ∀ q, S.Owned p q → Used w q ∧ ¬ X q) :
    Intact { S with vol := w } live ∧ Frame live S { S with vol := w } := by
  obtain ⟨hint,hrec,hbytes⟩ := h.volume k hX
  exact ⟨hint,hrec,hbytes,fun p hp => (h.untouched hp k (hX p hp)).sector,fun _ _ => Iff.rfl,rfl,rfl,rfl,le_refl _⟩

/-- `inode_create`, and the file it made. -/
theorem Intact.create_frame (h : Intact S live) {v : Volume} (ha : Spare S live s v) {length : ℤ} (isDir : Bool)
    (h0 : 0 ≤ length) (hmax : length < 2147483648) : ∃ ok d w, Fs.inodeCreate s length isDir v = (ok,w) ∧
      Creates v s length isDir ok d w ∧ Intact { S with vol := w } live ∧ Frame live S { S with vol := w } ∧
      (ok = true → Intact { S with vol := w } (insert s live) ∧ System.record { S with vol := w } s = d ∧
        System.bytes { S with vol := w } s = List.replicate length.toNat 0) := by
  obtain ⟨d,hc,-,-,-,hnew⟩ := h.inodeCreate ha isDir h0 hmax
  obtain ⟨hk,hX⟩ := h.create_keeps ha hc
  obtain ⟨hint,hf⟩ := h.volume_frame hk hX
  exact ⟨_,d,_,Prod.mk.eta.symm,hc,hint,hf,hnew⟩

/-- `inode_open` gives the inode that was open, or a new one read from disk. -/
theorem Intact.open_frame (h : Intact S live) (hs : s ∈ live) : ∃ i S', S.inodeOpen s = (i.addr,S') ∧
    Intact S' live ∧ i ∈ S'.openInodes ∧ i.sector = s ∧ (i ∈ S.openInodes ∨ i.removed = false ∧ i.data = S.vol.sectors s) ∧
    (∀ p, S'.record p = S.record p) ∧ S'.vol = S.vol ∧ Frame (Set.compl {s}) S S' := by
  by_cases hop : ∃ i ∈ S.openInodes, i.sector = s
  · obtain ⟨i,hi,rfl⟩ := hop
    exact ⟨i,S,h.inodeOpen_old hi,h,hi,rfl,.inl hi,fun _ => rfl,rfl,Frame.refl _ _⟩
  · have hn : ∀ i ∈ S.openInodes, i.sector ≠ s := fun i hi he => hop ⟨i,hi,he⟩
    obtain ⟨ho,hint,hrec⟩ := h.inodeOpen_new hs hn
    refine ⟨⟨S.nextAddr,s,1,false,0,S.vol.sectors s⟩,S.opened s,ho,hint,List.mem_cons_self,rfl,.inr ⟨rfl,rfl⟩,hrec,rfl,
      fun p _ => hrec p,fun p _ => ?_,fun _ _ => rfl,fun j hj => ?_,rfl,rfl,rfl,Nat.le_succ _⟩
    · unfold System.bytes
      rw [hrec]
      rfl
    · refine List.mem_cons.trans (or_iff_right fun he => hj ?_)
      rw [he]
      rfl

theorem Intact.open_bytes (hrec : ∀ p, S'.record p = S.record p) (hvol : S'.vol = S.vol) (p : BlockSector) :
    S'.bytes p = S.bytes p := by
  unfold System.bytes
  rw [hrec,hvol]

/-- The sectors of the other files are not touched by a write. -/
theorem Intact.writes_untouched (h : Intact S live) (hi : i ∈ S.openInodes) {buffer : List UInt8}
    {size offset : ℤ} {ok : Bool} (hw : Writes S.vol i buffer size offset ok inode w) (hs : s ∈ live)
    (hne : s ≠ i.sector) : Untouched S.vol w s (S.record s) := by
  refine h.untouched hs hw.keeps fun q hq => ?_
  obtain ⟨hq0,hqu,-⟩ := h.owned hs hq
  refine ⟨hw.used q hqu,fun hX => ?_⟩
  rcases hX with hX | hX | hX
  · exact hq0 hX
  · exact hqu.not_free hX.1
  · exact hne (h.apart s hs _ (h.inode i hi).1 q hq ((h.mine_iff hi q).mp hX))

/-- `inode_write_at`. -/
theorem Intact.write_frame (h : Intact S live) (hi : i ∈ S.openInodes) (buffer : List UInt8)
    {size offset : ℤ} (h0 : 0 ≤ offset) (h1 : 1 ≤ size) (ho : offset < 2147483648) (hs : size < 2147483648)
    (hb : size ≤ buffer.length) :
    ∃ ok inode w, S.writeAt i.addr buffer size offset = some (if ok then size else 0,S.changed inode w) ∧
      Writes S.vol i buffer size offset ok inode w ∧ Intact (S.changed inode w) live ∧
      inode ∈ (S.changed inode w).openInodes ∧ (S.changed inode w).bytes i.sector = (if ok then
        overwrite (S.bytes i.sector) offset.toNat (buffer.take size.toNat) else S.bytes i.sector) ∧
      Frame (live \ {i.sector}) S (S.changed inode w) := by
  obtain ⟨ok,inode,w,hw,hwr,hint,hrec,hother⟩ := h.writeAt hi buffer h0 h1 ho hs hb
  have ha : inode.addr = i.addr := by rw [hwr.inode_eq]
  have hsec : inode.sector = i.sector := by rw [hwr.inode_eq]
  have hcont := hwr.content_eq
  refine ⟨ok,inode,w,hw,hwr,hint,(h.mem_changed hi ha).mpr (.inl rfl),?_,fun p hp => (hother p hp.1 hp.2).1,
    fun p hp => (hother p hp.1 hp.2).2,fun p hp => (h.writes_untouched hi hwr hp.1 hp.2).sector,fun j hj => ?_,
    rfl,rfl,rfl,le_refl _⟩
  · unfold System.bytes
    rw [hrec,System.record_open h.sectors hi]
    exact hcont
  · refine (h.mem_changed hi ha).trans ⟨fun hj' => ?_,fun hj' => .inr ⟨hj',hj.2⟩⟩
    cases hj' with
    | inl he => exact absurd (he ▸ hsec) hj.2
    | inr hj' => exact hj'.1

/-- `inode_close` of an inode that was not removed. -/
theorem Intact.close_frame (h : Intact S live) (hi : i ∈ S.openInodes) (hr : i.removed = false) :
    S.inodeClose i.addr = some (S.closed i.addr) ∧ Intact (S.closed i.addr) live ∧
      (∀ p, (S.closed i.addr).bytes p = S.bytes p) ∧
      (∀ p, InodeDisk.SameInfo (S.record p) ((S.closed i.addr).record p)) ∧
      Frame (Set.compl {i.sector}) S (S.closed i.addr) := by
  obtain ⟨hc,hint,hbytes,hinfo⟩ := h.inodeClose hi hr
  exact ⟨hc,hint,hbytes,hinfo,fun p hp => (h.record_closed hi).2 p hp,fun p _ => hbytes p,fun _ _ => rfl,
    fun j hj => (h.mem_closed hi).trans (and_iff_left hj),rfl,rfl,rfl,le_refl _⟩

theorem Intact.removed_untouched (h : Intact S live) (hi : i ∈ S.openInodes) (hs : s ∈ live) (hne : s ≠ i.sector) :
    Untouched S.vol (System.releaseInode i S.vol) s (S.record s) := by
  have hrel := h.released hi
  refine h.untouched hs hrel.keeps fun q hq => ⟨hrel.used (h.owned hs hq).2.1 fun hm => ?_,fun hc => hc⟩
  refine hne (h.apart s hs _ (h.inode i hi).1 q hq ?_)
  cases List.mem_append.mp hm with
  | inl he => exact .inl (List.mem_singleton.mp he)
  | inr hm =>
    obtain ⟨t,ht,rfl⟩ := List.mem_map.mp hm
    exact .inr ⟨(h.openOk hi).file.sized.mapped t ht,t,inodeWalk_place ht,by rw [System.record_open h.sectors hi]⟩

theorem Intact.closed_frame (h : Intact S live) (hi : i ∈ S.openInodes)
    (hother : ∀ p ∈ live, p ≠ i.sector → System.record { S.closed i.addr with vol := w } p = S.record p ∧
      System.bytes { S.closed i.addr with vol := w } p = S.bytes p)
    (hdisk : ∀ p ∈ live, p ≠ i.sector → w.sectors p = S.vol.sectors p) :
    (∀ j ∈ System.openInodes { S.closed i.addr with vol := w }, j.sector ≠ i.sector) ∧
      Frame (live \ {i.sector}) S { S.closed i.addr with vol := w } :=
  ⟨fun _ hj => ((h.mem_closed hi).mp hj).2,fun p hp => (hother p hp.1 hp.2).1,fun p hp => (hother p hp.1 hp.2).2,
    fun p hp => hdisk p hp.1 hp.2,fun _ hj => (h.mem_closed hi).trans (and_iff_left hj.2),rfl,rfl,rfl,le_refl _⟩

/-- The sectors of an inode, each released once. -/
theorem Intact.released_count (h : Intact S live) (hi : i ∈ S.openInodes) : numFreeSectors (System.releaseInode i S.vol) =
    numFreeSectors S.vol + fileSectors i.data.length := by
  have ho := h.openOk hi
  have hplace : ∀ t ∈ inodeWalk (bytesToSectors i.data.length), inodeShape t ≠ .absent ∧ ptr S.vol i.data t ≠ 0 :=
    fun t ht => ⟨inodeWalk_place ht,ho.file.sized.mapped t ht⟩
  have hnodup : ((inodeWalk (bytesToSectors i.data.length)).map (ptr S.vol i.data)).Nodup :=
    List.Nodup.map_on (fun s hs t ht he => ho.file.owns.inj s t (hplace s hs).1 (hplace t ht).1 he (hplace s hs).2)
      (inodeWalk_nodup _)
  rw [(h.released hi).count,List.length_append,List.length_singleton,List.length_map,fileSectors,length_createDemand_walk]
  · intro s hs
    rcases List.mem_append.mp hs with hs | hs
    · rw [List.mem_singleton.mp hs]
      exact ho.used
    · obtain ⟨t,ht,rfl⟩ := List.mem_map.mp hs
      exact ho.file.owns.used t (hplace t ht).1 (hplace t ht).2
  · rw [List.singleton_append,List.nodup_cons]
    refine ⟨fun hm => ?_,hnodup⟩
    obtain ⟨t,ht,he⟩ := List.mem_map.mp hm
    exact ho.not_mapped t (hplace t ht).1 he

/-- `inode_close` of an inode that was removed. -/
theorem Intact.release_frame (h : Intact S live) (hi : i ∈ S.openInodes) (hr : i.removed = true) :
    ∃ S', S.inodeClose i.addr = some S' ∧ Intact S' (live \ {i.sector}) ∧
      (∀ j ∈ S'.openInodes, j.sector ≠ i.sector) ∧ Frame (live \ {i.sector}) S S' ∧ Keeps S.vol S'.vol (fun _ => False) ∧
      numFreeSectors S'.vol = numFreeSectors S.vol + fileSectors i.data.length := by
  obtain ⟨hc,hint,hother⟩ := h.inodeClose_removed hi hr
  obtain ⟨ho,hf⟩ := h.closed_frame hi hother fun p hp hne => (h.removed_untouched hi hp hne).sector
  exact ⟨_,hc,hint,ho,hf,(h.released hi).keeps,h.released_count hi⟩

/-- `inode_remove`. -/
theorem Intact.mark_frame (h : Intact S live) (hi : i ∈ S.openInodes) : ∃ r S', S.inodeRemove i.addr = some S' ∧
    r.addr = i.addr ∧ r.sector = i.sector ∧ r.removed = true ∧ Intact S' live ∧ r ∈ S'.openInodes ∧ S'.vol = S.vol ∧
    Frame (live \ {i.sector}) S S' ∧ r.data = i.data := by
  obtain ⟨hrm,hint,hrec⟩ := h.inodeRemove hi
  obtain ⟨r,hr⟩ : ∃ r, r = { i with removed := true } := ⟨_,rfl⟩
  rw [← hr] at hrm hint hrec
  have ha : r.addr = i.addr := by rw [hr]
  have hs : r.sector = i.sector := by rw [hr]
  have hm := fun j => h.mem_changed (w := S.vol) (j := j) hi ha
  refine ⟨r,_,hrm,ha,hs,by rw [hr],hint,(hm r).mpr (.inl rfl),rfl,⟨fun p hp => hrec p hp.1,fun p hp => ?_,fun _ _ => rfl,
    fun j hj => ?_,rfl,rfl,rfl,le_refl _⟩,by rw [hr]⟩
  · unfold System.bytes
    rw [hrec p hp.1]
    rfl
  · refine (hm j).trans ⟨fun hj' => ?_,fun hj' => .inr ⟨hj',hj.2⟩⟩
    cases hj' with
    | inl he => exact absurd (he ▸ hs) hj.2
    | inr hj' => exact hj'.1

/-- `inode_remove` and then `inode_close`. -/
theorem Intact.remove_frame (h : Intact S live) (hi : i ∈ S.openInodes) :
    ∃ S₁ S', S.inodeRemove i.addr = some S₁ ∧ S₁.inodeClose i.addr = some S' ∧ Intact S' (live \ {i.sector}) ∧
      (∀ j ∈ S'.openInodes, j.sector ≠ i.sector) ∧ Frame (live \ {i.sector}) S S' ∧ Keeps S.vol S'.vol (fun _ => False) ∧
      numFreeSectors S'.vol = numFreeSectors S.vol + fileSectors i.data.length := by
  obtain ⟨r,S₁,hrm,ha,hs,hr,hint,hmem,hvol,hf,hd⟩ := h.mark_frame hi
  obtain ⟨S',hc,hint',hopen,hf',hk,hcount⟩ := hint.release_frame hmem hr
  rw [ha] at hc
  rw [hs] at hint' hopen hf'
  rw [hd,hvol] at hcount
  exact ⟨S₁,S',hrm,hc,hint',hopen,hf.trans hf',hvol ▸ hk,hcount⟩

end
end ShellOS.Fs
