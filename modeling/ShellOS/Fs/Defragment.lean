import ShellOS.Fs.NulEnd

/-! `defragment` keeps the files: it reads all of them, removes all of them, and there is then room to create and write
all of them again. -/
namespace ShellOS.Fs
open CLib SlotTable BlockTree

section
variable {S S' : System} {live : Set BlockSector} {root : Option Dir} {d : Dir} {name : CString} {size : ℤ} {q : BlockSector}
  {f : File} {b buffer : List UInt8}

/-! ### The room that a file takes -/

/-- A file created in a free slot of the directory takes its own sectors and no other. -/
theorem Session.createFile_room (h : Session S live (some d)) (hn : Ordinary name) (h0 : 0 ≤ size) (hmax : size < 2147483648)
    (hslot : freeSlot (S.entries rootDirSector) < (S.entries rootDirSector).length)
    (hr : S.createFile d.addr name size = some (true,q,S')) : numFreeSectors S'.vol + fileSectors size = numFreeSectors S.vol ∧
      (S.entries rootDirSector).length ≤ (S'.entries rootDirSector).length ∧ size ≤ 8517120 := by
  rcases freeMapAllocate_count h.intact.ok with ⟨hal,-⟩ | ⟨p,v,hal,-,-,hone⟩
  · have heq : S.createFile d.addr name size = _ := System.createFile_none hal
    exact absurd (Prod.mk.inj (Option.some.inj (hr.symm.trans heq))).1.symm Bool.false_ne_true
  have ha := h.intact.allocate hal
  obtain ⟨ok,e,w,hcr,hc,hint,hf,hnew⟩ := h.intact.create_frame ha.spare false h0 hmax
  have heq : S.createFile d.addr name size = _ := System.createFile_some hal hcr
  obtain ⟨T,hT⟩ : ∃ T : System, T = { S with vol := w } := ⟨_,rfl⟩
  have hTvol : T.vol = w := by rw [hT]
  rw [← hT] at hf hnew heq
  rw [hr] at heq
  cases ok with
  | false =>
    rw [cond_false] at heq
    exact absurd (Prod.mk.inj (Option.some.inj heq)).1.symm Bool.false_ne_true
  | true =>
    rw [cond_true] at heq
    obtain ⟨hint',-⟩ := hnew rfl
    obtain ⟨hroom,hfit⟩ := Bool.and_eq_true_iff.mp hc.ok_eq.symm
    have hroom : (createDemand size).length ≤ numFreeSectors v := of_decide_eq_true hroom
    have htaken := (hc.takes ha.ne_zero).count_eq hroom
    rw [← hTvol] at htaken
    obtain ⟨r,hrd,hrs⟩ := h.openDir
    have hd := hrd.of_frame hf (hrs.symm ▸ h.root_mem)
    have hent : T.entries rootDirSector = S.entries rootDirSector := entries_of_frame hf h.root_mem
    have hlen : 1 ≤ (T.entries r.sector).length := by
      rw [hrs,hent]
      exact h.table.length_pos
    obtain ⟨a,hadd,ha'⟩ := Option.map_eq_some_iff.mp heq.symm
    obtain ⟨haok,ha'⟩ := Prod.mk.inj ha'
    obtain ⟨-,rfl⟩ := Prod.mk.inj ha'
    cases he : (T.entries r.sector)[slotOf name (T.entries r.sector)]? with
    | some g =>
      have hpres : System.dirAdd d.addr name p T = _ := hint'.dirAdd_present hd hlen p he
      obtain rfl := Option.some.inj (hadd.symm.trans hpres)
      exact absurd haok Bool.false_ne_true
    | none =>
      obtain ⟨ok₂,r',S₂,hnewEntry,-,hws,hput,-⟩ := hint'.dirAdd_new hd hlen hn.valid p he
      obtain rfl := Option.some.inj (hadd.symm.trans hnewEntry)
      obtain rfl : ok₂ = true := haok
      rw [hrs,hent,if_pos rfl] at hput
      have hno := hint'.writeDemand_slot hd.mem (by rw [hrs,hent]; exact hslot :
        freeSlot (T.entries r.sector) < (T.entries r.sector).length)
      have hsame := hws.takes.count_eq (by rw [hno]; exact Nat.zero_le _)
      rw [hno,List.length_nil] at hsame
      refine ⟨?_,?_,of_decide_eq_true hfit⟩
      · dsimp only
        rw [fileSectors]
        omega
      · dsimp only
        rw [hput]
        exact length_le_put _ _ _

/-- What `filesys_create` takes when it succeeds with a free slot in the directory. -/
theorem Session.filesysCreate_count (h : Session S live none) (hn : Ordinary name) (h0 : 0 ≤ size) (hmax : size < 2147483648)
    (hslot : freeSlot (S.entries rootDirSector) < (S.entries rootDirSector).length) (hcr : S.filesysCreate name size = some (true,S')) :
    numFreeSectors S'.vol + fileSectors size = numFreeSectors S.vol ∧
      (S.entries rootDirSector).length ≤ (S'.entries rootDirSector).length ∧ size ≤ 8517120 := by
  obtain ⟨d,S₁,hopen,h₁,hre,hidle₁,-⟩ := h.dirOpenRoot
  obtain ⟨ok₁,q,live₁,S₂,hcreate,h₂,-⟩ := h₁.createFile hn.plain (by omega) hmax
  have hname : (splitPathFilename name).2 = name := by rw [split_noSlash hn.no_slash]
  unfold System.filesysCreate at hcr
  rw [hopen,Option.bind_some,hname,hcreate,Option.bind_some] at hcr
  obtain ⟨S₃,hS₃⟩ : ∃ S₃, S₃ = (if !ok₁ && q != 0 then { S₂ with vol := freeMapRelease q 1 S₂.vol } else S₂) := ⟨_,rfl⟩
  dsimp only at hcr
  rw [← hS₃] at hcr
  obtain ⟨S₄,hclose,hpair⟩ := Option.map_eq_some_iff.mp hcr
  obtain ⟨rfl,rfl⟩ := Prod.mk.inj hpair
  rw [Bool.not_true,Bool.false_and,if_neg Bool.false_ne_true] at hS₃
  subst hS₃
  obtain ⟨S₅,hclose',-,hidle₄,-⟩ := h₂.dirClose hre
  obtain rfl := Option.some.inj (hclose.symm.trans hclose')
  obtain ⟨hcount,hlen,hfit⟩ := h₁.createFile_room hn h0 hmax (by rwa [hidle₁.entries]) hcreate
  refine ⟨?_,?_,hfit⟩
  · rw [hidle₄.vol,hcount,hidle₁.vol]
  · rw [hidle₄.entries,← hidle₁.entries]
    exact hlen

/-- `filesys_create` with a free slot in the directory and room for the file. -/
theorem Session.filesysCreate_room (h : Session S live none) (hn : Ordinary name) (h0 : 0 ≤ size) (hmax : size < 2147483648)
    (hnew : S.fileOf name = none) (hfit : Creatable size S.vol)
    (hslot : freeSlot (S.entries rootDirSector) < (S.entries rootDirSector).length) :
    ∃ live' S', S.filesysCreate name size = some (true,S') ∧ Session S' live' none ∧ S'.fileTable = S.fileTable ∧
      (∀ other, S'.fileOf other = if other = name then some (List.replicate size.toNat 0) else S.fileOf other) ∧
      numFreeSectors S'.vol + fileSectors size = numFreeSectors S.vol ∧
      (S.entries rootDirSector).length ≤ (S'.entries rootDirSector).length := by
  obtain ⟨ok,live',S',hcr,hS,htab,hof,-,hroom⟩ := h.filesysCreate hn.plain (by omega) hmax
  obtain rfl := hroom hn hfit hnew hslot
  obtain ⟨hcount,hlen,-⟩ := h.filesysCreate_count hn h0 hmax hslot hcr
  refine ⟨live',S',hcr,hS,htab,fun other => ?_,hcount,hlen⟩
  rw [hof]
  exact if_congr (and_iff_right rfl) rfl rfl

theorem filesysCreate_neg (h : Session S live none) (hn : PlainName name) (hneg : size < 0) (hmin : -2147483648 ≤ size)
    (hr : S.filesysCreate name size = some (true,S')) : False := by
  obtain ⟨d,S₁,hopen,h₁,-⟩ := h.dirOpenRoot
  have hname : (splitPathFilename name).2 = name := by rw [split_noSlash hn.no_slash]
  unfold System.filesysCreate at hr
  rw [hopen,Option.bind_some,hname] at hr
  obtain ⟨r,hcreate,hr⟩ := Option.bind_eq_some_iff.mp hr
  obtain ⟨T,-,hpair⟩ := Option.map_eq_some_iff.mp hr
  have hok : r.1 = true := (Prod.mk.inj hpair).1
  rcases freeMapAllocate_count h₁.intact.ok with ⟨hal,-⟩ | ⟨p,v,hal,-⟩
  · have heq : S₁.createFile d.addr name size = _ := System.createFile_none hal
    obtain rfl := Option.some.inj (hcreate.symm.trans heq)
    cases hok
  · have heq : S₁.createFile d.addr name size = _ := System.createFile_some hal (inodeCreate_neg p false v hneg hmin)
    rw [cond_false] at heq
    obtain rfl := Option.some.inj (hcreate.symm.trans heq)
    cases hok

/-- A file overwritten from its start with as many bytes as it has. -/
theorem Session.fileWrite_over (h : Session S live root) (hf : S.getFileByFname name = some f) (hpos : f.pos = 0)
    (hb : S.fileOf name = some b) (h1 : 1 ≤ b.length) (hlen : b.length ≤ buffer.length) :
    ∃ S', S.fileWrite name buffer b.length = some ((b.length : ℤ),S') ∧ Session S' live root ∧
      (∃ g, S'.getFileByFname name = some g) ∧
      (∀ other, S'.fileOf other = if other = name then some ((System.terminated buffer b.length).take b.length) else S.fileOf other) ∧
      (∀ other, other ≠ name → S'.getFileByFname other = S.getFileByFname other) ∧
      numFreeSectors S'.vol = numFreeSectors S.vol ∧ S'.entries rootDirSector = S.entries rootDirSector := by
  have hmax := h.length_fileOf_le hb
  obtain ⟨T,hT⟩ := h.fileWrite_in_sectors hf hb buffer (by omega) (by omega) (by omega : (1 : ℤ) ≤ b.length) (by omega) (by omega)
    (by omega) (by rw [hpos,zero_add])
  obtain ⟨ok,b',S',hb',hwr,hS,htab,hof,-⟩ := h.fileWrite hf buffer (by omega) (by omega) (by omega : (1 : ℤ) ≤ b.length) (by omega) (by omega)
  obtain rfl := Option.some.inj (hb.symm.trans hb')
  have hcount := (Prod.mk.inj (Option.some.inj (hwr.symm.trans hT))).1
  have hok : ok = true := by
    by_contra hne
    rw [if_neg hne] at hcount
    omega
  subst hok
  rw [if_pos rfl] at hwr
  have hterm : b.length ≤ ((System.terminated buffer b.length).take b.length).length := by
    rw [List.length_take,System.terminated,if_pos (by omega),List.length_set]
    omega
  refine ⟨S',hwr,hS,⟨_,getFile_update hf htab⟩,fun other => ?_,fun other hne => ?_,?_⟩
  · rw [hof,if_pos rfl,hpos,Int.toNat_zero,Int.toNat_natCast,overwrite_all hterm]
  · rw [System.getFileByFname,htab,System.getFileByFname]
    exact congrArg _ (Keyed.lookup_update_ne (a := (⟨name,_⟩ : FileTableEntry)) hne)
  -- the same write once more, for what it does to the volume
  obtain ⟨i,hi,ha,he,hl,hi1⟩ := h.table_file hf
  have hlen' : (b.length : ℤ) ≤ (System.terminated buffer b.length).length := by
    rw [System.terminated,if_pos (by omega),List.length_set]
    omega
  obtain ⟨ok,inode,w,hw,hws,-,-,-,hframe⟩ := h.intact.write_frame hi (System.terminated buffer b.length) (by omega : (0 : ℤ) ≤ f.pos)
    (by omega : (1 : ℤ) ≤ b.length) (by omega) (by omega) hlen'
  have hroot : rootDirSector ∈ live \ {i.sector} := ⟨h.root_mem,Ne.symm hi1⟩
  have hdemand : writeDemand S.vol i.data b.length f.pos = [] := by
    have hbl : (b.length : ℤ) = i.data.length := by
      have hnn := (h.intact.openOk hi).file.sized.nonneg
      rw [System.fileOf,he,Option.map_some] at hb
      rw [← Option.some.inj hb,h.intact.length_bytes hi]
      omega
    rw [hbl,hpos,writeDemand,zero_add]
    split
    · refine List.map_eq_nil_iff.mpr (List.filter_eq_nil_iff.mpr fun t ht hz => ?_)
      exact (h.intact.openOk hi).file.sized.mapped t ht (of_decide_eq_true hz)
    · rfl
  have hsame := hws.takes.count_eq (by rw [hdemand]; exact Nat.zero_le _)
  rw [hdemand,List.length_nil] at hsame
  obtain ⟨g,rfl⟩ : ∃ g, S' = (S.changed inode w).setFile name g := by
    rw [System.fileWrite,hf,Option.bind_some,ha,hw,Option.map_some] at hwr
    exact ⟨_,(Prod.mk.inj (Option.some.inj hwr)).2.symm⟩
  have hent : (S.changed inode w).entries rootDirSector = S.entries rootDirSector := entries_of_frame hframe hroot
  exact ⟨hsame,hent⟩

/-! ### Free slots -/

/-- A directory with fewer names than slots has a free one. -/
theorem freeSlot_lt_of_names {l : List DirEntry} (h : (nameList l).length + 1 < l.length) : freeSlot l < l.length := by
  by_contra hc
  have hall : ∀ e ∈ l.drop 1, e.inUse = true := fun e he => by
    obtain ⟨k,hk⟩ := List.mem_iff_getElem?.mp (List.mem_of_mem_drop he)
    have hlt := (List.getElem?_eq_some_iff.mp hk).1
    have hskip := scan_skip (p := fun e : DirEntry => !e.inUse) (Nat.zero_le k) (by unfold freeSlot at hc; omega) hk
    simpa using hskip
  rw [nameList,keys,List.length_map,List.filter_eq_self.mpr hall,List.length_drop] at h
  omega

theorem length_nameList_lt {l : List DirEntry} (h : 1 ≤ l.length) : (nameList l).length < l.length := by
  have hle := List.length_filter_le DirEntry.inUse (l.drop 1)
  rw [List.length_drop] at hle
  rw [nameList,keys,List.length_map]
  omega

theorem length_le_succ_of_subset {α : Type} {l l' : List α} {a : α} (hn : l'.Nodup) (h : ∀ x ∈ l', x = a ∨ x ∈ l) :
    l'.length ≤ l.length + 1 := by
  have hsub : l' ⊆ a::l := fun x hx => List.mem_cons.mpr (h x hx)
  exact (List.subperm_of_subset hn hsub).length_le

/-- One more file is one more name. -/
theorem Session.names_length_le {live' : Set BlockSector} {root' : Option Dir} (h : Session S live root) (h' : Session S' live' root')
    (hof : ∀ other b, S'.fileOf other = some b → other = name ∨ ∃ b, S.fileOf other = some b) :
    (nameList (S'.entries rootDirSector)).length ≤ (nameList (S.entries rootDirSector)).length + 1 := by
  have hmem := h.names.2
  have hmem' := h'.names.2
  refine @length_le_succ_of_subset _ _ _ name h'.names.1 fun other ho => ?_
  obtain ⟨b,hb⟩ := (hmem' other).mp ho
  exact (hof other b hb).imp_right (hmem other).mpr

/-- An inode of a size that fits can be created. -/
theorem creatable_of_room {v : Volume} (hv : v.Ok) (h0 : 0 ≤ size) (hmax : size ≤ 8517120) (hroom : fileSectors size ≤ numFreeSectors v) :
    Creatable size v := by
  unfold fileSectors at hroom
  rcases freeMapAllocate_count hv with ⟨-,hzero⟩ | ⟨p,w,hp,hw,hfm,hfree⟩
  · omega
  obtain ⟨d,hc⟩ := @inodeCreate_spec _ _ size false hw hfm h0 (by omega)
  refine ⟨p,w,hp,?_⟩
  rw [hc.ok_eq,Bool.and_eq_true,decide_eq_true_eq,decide_eq_true_eq]
  omega

/-! ### The loops -/

/-- The sectors of the files read. -/
def sectorsNeeded (files : List FileElem) : ℕ := (files.map fun f => fileSectors f.size).sum

/-- The second loop removes the files, and gives their sectors back. -/
theorem Session.defragmentRemove {files : List FileElem} (h : Session S live none) (hn : ∀ f ∈ files, (47 : UInt8) ∉ f.fname)
    (hnodup : (files.map FileElem.fname).Nodup) (hb : ∀ f ∈ files, ∃ b, S.fileOf f.fname = some b ∧ f.size = b.length) :
    ∃ live' S', S.defragmentRemove files = some S' ∧ Session S' live' none ∧
      (∀ other, S'.fileOf other = if other ∈ files.map FileElem.fname then none else S.fileOf other) ∧
      numFreeSectors S'.vol = numFreeSectors S.vol + sectorsNeeded files ∧
      (S.entries rootDirSector).length ≤ (S'.entries rootDirSector).length := by
  induction files generalizing S live with
  | nil => exact ⟨live,S,rfl,h,fun other => (if_neg List.not_mem_nil).symm,rfl,le_rfl⟩
  | cons f files ih =>
    obtain ⟨hf,hfiles⟩ := List.forall_mem_cons.mp hn
    obtain ⟨⟨b,hbf,hsize⟩,hbs⟩ := List.forall_mem_cons.mp hb
    obtain ⟨hnot,hnodup⟩ := List.nodup_cons.mp hnodup
    obtain ⟨ok,live₁,S₁,hrm,h₁,-,hof₁,-,-,hback⟩ := h.fsutilRm hf
    have hbs₁ : ∀ g ∈ files, ∃ b, S₁.fileOf g.fname = some b ∧ g.size = b.length := fun g hg => by
      rw [hof₁,if_neg fun hc : g.fname = f.fname => hnot (hc ▸ List.mem_map_of_mem hg)]
      exact hbs g hg
    obtain ⟨live',S',hrun,h',hof,hcount,hlen⟩ := ih h₁ hfiles hnodup hbs₁
    refine ⟨live',S',?_,h',fun other => ?_,?_,hback.length_le.trans hlen⟩
    · have hstep : ((S.removeFromFileTable f.fname).bind fun r => (r.2.filesysRemove f.fname).map Prod.snd) = some S₁ := by
        obtain ⟨r,hr,hrm⟩ := Option.bind_eq_some_iff.mp hrm
        rw [hr,Option.bind_some,hrm,Option.map_some]
      rw [System.defragmentRemove,List.foldlM_cons]
      exact (congrArg (Option.bind · _) hstep).trans hrun
    · rw [hof,hof₁,List.map_cons]
      by_cases hc : other = f.fname
      · rw [if_pos hc,if_pos (List.mem_cons.mpr (.inl hc))]
        exact ite_self _
      · rw [if_neg hc]
        exact if_congr ⟨List.mem_cons_of_mem _,fun hm => (List.mem_cons.mp hm).resolve_left hc⟩ rfl rfl
    · rw [hcount,hback.free b hbf,← hsize,sectorsNeeded,sectorsNeeded,List.map_cons,List.sum_cons,Nat.add_assoc]

/-- A round of the third loop: the file is there again, with a terminator for its last byte. -/
theorem Session.restore {f : FileElem} (h : Session S live none) (hf : Saved f) (hmax : f.size ≤ 8517120)
    (hnew : S.fileOf f.fname = none) (hroom : fileSectors f.size ≤ numFreeSectors S.vol)
    (hslot : freeSlot (S.entries rootDirSector) < (S.entries rootDirSector).length) :
    ∃ live' S', ((S.fsutilCreate f.fname f.size).bind fun c => (c.2.fsutilWrite f.fname f.contents f.size).bind fun w =>
        (w.2.fsutilSeek f.fname 0).map Prod.snd) = some S' ∧ Session S' live' none ∧ S'.position f.fname = 0 ∧
      (∀ other, other ≠ f.fname → S'.getFileByFname other = S.getFileByFname other) ∧
      (∀ other, S'.fileOf other = if other = f.fname then some ((System.terminated f.contents f.size).take f.size.toNat)
        else S.fileOf other) ∧
      numFreeSectors S'.vol + fileSectors f.size = numFreeSectors S.vol ∧
      (S.entries rootDirSector).length ≤ (S'.entries rootDirSector).length := by
  obtain ⟨n,hn⟩ := Int.eq_ofNat_of_zero_le (by have := hf.pos; omega : 0 ≤ f.size)
  have h1 := hf.pos
  have hle := hf.le
  rw [hn] at hmax hroom h1 hle ⊢
  obtain ⟨live₁,S₁,hcr,h₁,htab₁,hof₁,hcount₁,hlen₁⟩ := h.filesysCreate_room hf.name (by omega) (by omega) hnew
    (creatable_of_room h.intact.ok (by omega) hmax hroom) hslot
  have hb₁ : S₁.fileOf f.fname = some (List.replicate n 0) := by
    rw [hof₁,if_pos rfl,Int.toNat_natCast]
  have hclosed : S₁.getFileByFname f.fname = none := by
    rw [System.getFileByFname,htab₁]
    exact h.getFile_none hnew
  cases h₁.tableFile hf.name.plain with
  | inl hno => exact absurd (hb₁.symm.trans hno.1) (Option.some_ne_none _)
  | inr hin =>
    obtain ⟨g,S₂,htf,h₂,hbytes,hvol,hg,hor⟩ := hin
    obtain ⟨hg0,happ⟩ : g.pos = 0 ∧ S₂.fileTable = S₁.fileTable ++ [⟨f.fname,g⟩] := by
      rcases hor with rfl | ⟨hz,-,happ⟩
      · exact absurd (hclosed.symm.trans hg) (Option.some_ne_none g).symm
      · exact ⟨hz,happ⟩
    have hent₂ : S₂.entries rootDirSector = S₁.entries rootDirSector := by rw [System.entries,hbytes,System.entries]
    have hof₂ : ∀ other, S₂.fileOf other = S₁.fileOf other := fun other => h₁.fileOf_congr (by rw [hent₂]) fun p _ _ => hbytes p
    obtain ⟨S₃,hwr,h₃,⟨k,hk⟩,hof₃,htab₃,hcount₃,hent₃⟩ := @Session.fileWrite_over S₂ _ _ _ _ _ f.contents h₂ hg hg0 ((hof₂ _).trans hb₁)
      (by rw [List.length_replicate]; omega) (by rw [List.length_replicate]; omega)
    rw [List.length_replicate] at hwr hof₃
    refine ⟨live₁,S₃.setFile f.fname { k with pos := 0 },?_,h₃.setFile hk rfl,?_,fun other hne => ?_,fun other => ?_,?_,?_⟩
    · rw [hf.name.createName,hcr,Option.bind_some,System.fsutilWrite,htf,Option.bind_some]
      dsimp only
      rw [hwr,Option.bind_some,System.fsutilSeek,System.tableFile_eq hk,Option.bind_some]
      dsimp only
      rw [System.fileSeek,hk]
      rfl
    · rw [System.position,System.getFileByFname_setFile hk]
      rfl
    · have hother : S₂.getFileByFname other = S₁.getFileByFname other := by
        rw [System.getFileByFname,System.getFileByFname,happ,Keyed.lookup,List.find?_append,
          List.find?_cons_of_neg (by simpa using Ne.symm hne),List.find?_nil,Option.or_none]
        rfl
      rw [System.getFileByFname_setFile_ne hne,htab₃ other hne,hother,System.getFileByFname,htab₁,System.getFileByFname]
    · rw [System.fileOf_setFile,hof₃,hof₂,hof₁,Int.toNat_natCast]
      split
      · rfl
      · rfl
    · have hcount : numFreeSectors S₃.vol + fileSectors n = numFreeSectors S.vol := by rw [hcount₃,hvol,hcount₁]
      exact hcount
    · have hlen : (S.entries rootDirSector).length ≤ (S₃.entries rootDirSector).length := by
        rw [hent₃,hent₂]
        exact hlen₁
      exact hlen

/-- The third loop brings the files back. -/
theorem Session.defragmentWrite {files : List FileElem} (h : Session S live none) (hn : ∀ f ∈ files, Saved f)
    (hmax : ∀ f ∈ files, f.size ≤ 8517120) (hnodup : (files.map FileElem.fname).Nodup) (hnew : ∀ f ∈ files, S.fileOf f.fname = none)
    (hroom : sectorsNeeded files ≤ numFreeSectors S.vol)
    (hslots : (nameList (S.entries rootDirSector)).length + files.length < (S.entries rootDirSector).length) :
    ∃ live' S', S.defragmentWrite files = some S' ∧ Session S' live' none ∧
      (∀ f ∈ files, S'.fileOf f.fname = some ((System.terminated f.contents f.size).take f.size.toNat) ∧ S'.position f.fname = 0) ∧
      ∀ other, other ∉ files.map FileElem.fname → S'.fileOf other = S.fileOf other ∧
        S'.getFileByFname other = S.getFileByFname other := by
  induction files generalizing S live with
  | nil => exact ⟨live,S,rfl,h,fun f hf => absurd hf List.not_mem_nil,fun _ _ => ⟨rfl,rfl⟩⟩
  | cons f files ih =>
    obtain ⟨hf,hfiles⟩ := List.forall_mem_cons.mp hn
    obtain ⟨hmaxf,hmaxs⟩ := List.forall_mem_cons.mp hmax
    obtain ⟨hnewf,hnews⟩ := List.forall_mem_cons.mp hnew
    obtain ⟨hnot,hnodup⟩ := List.nodup_cons.mp hnodup
    rw [sectorsNeeded,List.map_cons,List.sum_cons] at hroom
    rw [List.length_cons] at hslots
    obtain ⟨live₁,S₁,hstep,h₁,hpos₁,htab₁,hof₁,hcount₁,hlen₁⟩ := h.restore hf hmaxf hnewf (by omega) (freeSlot_lt_of_names (by omega))
    have hne : ∀ g ∈ files, g.fname ≠ f.fname := fun g hg hc => hnot (hc ▸ List.mem_map_of_mem hg)
    have hnames := @Session.names_length_le S S₁ live none f.fname live₁ none h h₁ fun other b hb => by
      rw [hof₁] at hb
      by_cases hc : other = f.fname
      · exact .inl hc
      · rw [if_neg hc] at hb
        exact .inr ⟨b,hb⟩
    obtain ⟨live',S',hrun,h',hback,hrest⟩ := ih h₁ hfiles hmaxs hnodup (fun g hg => by rw [hof₁,if_neg (hne g hg)]; exact hnews g hg)
      (by rw [sectorsNeeded]; omega) (by omega)
    refine ⟨live',S',?_,h',fun g hg => ?_,fun other ho => ?_⟩
    · rw [System.defragmentWrite,List.foldlM_cons]
      exact (congrArg (Option.bind · _) hstep).trans hrun
    · cases List.mem_cons.mp hg with
      | inl hc =>
        rw [hc]
        obtain ⟨hof',hget⟩ := hrest f.fname hnot
        refine ⟨by rw [hof',hof₁,if_pos rfl],?_⟩
        rw [System.position,hget]
        exact hpos₁
      | inr hg => exact hback g hg
    · rw [List.map_cons,List.mem_cons,not_or] at ho
      obtain ⟨hof',hget⟩ := hrest other ho.2
      exact ⟨by rw [hof',hof₁,if_neg ho.1],by rw [hget,htab₁ other ho.1]⟩

/-! ### The command -/

/-- A file with a terminator for its last byte. -/
def closeText (b : List UInt8) : List UInt8 := b.set (b.length - 1) 0

theorem closeText_eq {b : List UInt8} (h : b.getLast? = some 0) : closeText b = b := by
  rw [List.getLast?_eq_getElem?] at h
  obtain ⟨hlt,hget⟩ := List.getElem?_eq_some_iff.mp h
  have hset := List.set_getElem_self hlt
  rwa [hget] at hset

theorem saved_closeText (b : List UInt8) (h1 : 1 ≤ b.length) :
    (System.terminated (System.filled b.length b) b.length).take (b.length : ℤ).toNat = closeText b := by
  have hi : ((b.length : ℤ) - 1).toNat = b.length - 1 := by omega
  rw [System.terminated,if_pos (by omega),System.filled,hi,Int.toNat_natCast,List.set_append_left _ _ (by omega),
    List.take_append_of_le_length (by rw [List.length_set]),List.take_of_length_le (by rw [List.length_set])]
  rfl

/-- After `defragment` every file is there as it was, but that it ends in a terminator; all positions are 0. -/
theorem Session.defragment (h : Session S live none) (hne : ∀ name, S.fileOf name ≠ some []) :
    ∃ r live' S', S.defragment = some (r,S') ∧ Session S' live' none ∧
      (∀ name, S'.fileOf name = (S.fileOf name).map closeText) ∧ ∀ name, S'.position name = 0 := by
  obtain ⟨S₁,hread,h₁,hu⟩ := h.defragmentRead
  obtain ⟨hnodup,hmem⟩ := h.names
  obtain ⟨names,hnames⟩ : ∃ names, names = nameList (S.entries rootDirSector) := ⟨_,rfl⟩
  obtain ⟨files,hfiles⟩ : ∃ files, files = names.map (savedFile S) := ⟨_,rfl⟩
  rw [← hnames] at hread hnodup hmem
  rw [← hfiles] at hread
  have hfnames : files.map FileElem.fname = names := by
    rw [hfiles,List.map_map]
    exact List.map_id _
  have hfile : ∀ f ∈ files, ∃ b, S.fileOf f.fname = some b ∧ 1 ≤ b.length ∧ f = ⟨f.fname,System.filled b.length b,b.length⟩ := by
    intro f hf
    rw [hfiles] at hf
    obtain ⟨name,hname,rfl⟩ := List.mem_map.mp hf
    obtain ⟨b,hb⟩ := (hmem name).mp hname
    refine ⟨b,hb,List.length_pos_iff.mpr fun hc => hne name (hc ▸ hb),?_⟩
    rw [savedFile,hb,Option.getD_some]
  have hsaved : ∀ f ∈ files, Saved f ∧ f.size ≤ 8517120 := fun f hf => by
    obtain ⟨b,hb,h1,he⟩ := hfile f hf
    have hle := h.length_fileOf_le hb
    obtain ⟨s,hs,-⟩ := Option.map_eq_some_iff.mp hb
    rw [he]
    refine ⟨⟨h.ordinary _ s hs,by dsimp only; omega,by dsimp only; omega,?_⟩,by dsimp only; omega⟩
    dsimp only
    rw [System.filled,List.length_append]
    omega
  have hslash : ∀ f ∈ files, (47 : UInt8) ∉ f.fname := fun f hf => (hsaved f hf).1.name.no_slash
  have hbytes : ∀ f ∈ files, ∃ b, S₁.fileOf f.fname = some b ∧ f.size = b.length := fun f hf => by
    obtain ⟨b,hb,-,he⟩ := hfile f hf
    exact ⟨b,(hu.fileOf _).trans hb,by rw [he]⟩
  obtain ⟨live₂,S₂,hrm,h₂,hof₂,hcount,hlen⟩ := h₁.defragmentRemove hslash (hfnames.symm ▸ hnodup) hbytes
  rw [hfnames] at hof₂
  have hnone : ∀ name, S₂.fileOf name = none := fun name => by
    rw [hof₂]
    by_cases hin : name ∈ names
    · exact if_pos hin
    · rw [if_neg hin,hu.fileOf,Option.eq_none_iff_forall_ne_some]
      exact fun b hb => hin ((hmem name).mpr ⟨b,hb⟩)
  have hslots : (nameList (S₂.entries rootDirSector)).length + files.length < (S₂.entries rootDirSector).length := by
    have hempty : nameList (S₂.entries rootDirSector) = [] := List.eq_nil_iff_forall_not_mem.mpr fun name hm => by
      obtain ⟨b,hb⟩ := (h₂.names.2 name).mp hm
      rw [hnone] at hb
      cases hb
    have hlt := length_nameList_lt h.table.length_pos
    rw [← hnames,← hfnames,List.length_map,← hu.entries] at hlt
    rw [hempty,List.length_nil]
    omega
  obtain ⟨live₃,S₃,hwr,h₃,hback,hrest⟩ := h₂.defragmentWrite (fun f hf => (hsaved f hf).1) (fun f hf => (hsaved f hf).2)
    (hfnames.symm ▸ hnodup) (fun f _ => hnone _) (by omega) hslots
  rw [hfnames] at hrest
  refine ⟨⟨names,true,files⟩,live₃,S₃,?_,h₃,fun name => ?_,fun name => ?_⟩
  · rw [System.defragment,hread,Option.bind_some]
    dsimp only
    rw [if_pos rfl,hrm,Option.bind_some,hwr,Option.map_some]
  · by_cases hin : name ∈ names
    · obtain ⟨b,hb⟩ := (hmem name).mp hin
      have hf : savedFile S name ∈ files := hfiles ▸ List.mem_map_of_mem hin
      obtain ⟨b',hb',h1,he⟩ := hfile _ hf
      obtain ⟨hof,-⟩ := hback _ hf
      rw [he] at hof
      dsimp only at hof
      rw [saved_closeText b' h1] at hof
      have hn : (savedFile S name).fname = name := rfl
      rw [hn] at hof hb'
      rw [hof,hb',Option.map_some]
    · rw [(hrest name hin).1,hnone]
      have hno : S.fileOf name = none := Option.eq_none_iff_forall_ne_some.mpr fun b hb => hin ((hmem name).mpr ⟨b,hb⟩)
      rw [hno,Option.map_none]
  · by_cases hin : name ∈ names
    · have hf : savedFile S name ∈ files := hfiles ▸ List.mem_map_of_mem hin
      exact (hback _ hf).2
    · rw [System.position,(hrest name hin).2,h₂.getFile_none (hnone name)]
      rfl

/-! ### Space used again -/

theorem fileSectors_mono {m n : ℤ} (h0 : 0 ≤ m) (hmn : m ≤ n) (hmax : n ≤ 8517120) : fileSectors m ≤ fileSectors n := by
  have hle := bytesToSectors_mono h0 hmn hmax
  have hind := indirectCount_mono hle
  rw [fileSectors,fileSectors,length_createDemand h0 (by omega),length_createDemand (by omega) hmax]
  omega

theorem succ_length_le_of_subset {α : Type} {l l' : List α} {a : α} (hn : l'.Nodup) (ha : a ∉ l') (h : ∀ x, x = a ∨ x ∈ l' → x ∈ l) :
    l'.length + 1 ≤ l.length := by
  have hsub : a::l' ⊆ l := fun x hx => h x (List.mem_cons.mp hx)
  exact (List.subperm_of_subset (List.nodup_cons.mpr ⟨ha,hn⟩) hsub).length_le

/-- Without a file there is one name less. -/
theorem Session.names_length_lt {live' : Set BlockSector} {root' : Option Dir} (h : Session S live root) (h' : Session S' live' root')
    (hb : S.fileOf name = some b) (hof : ∀ other, S'.fileOf other = if other = name then none else S.fileOf other) :
    (nameList (S'.entries rootDirSector)).length + 1 ≤ (nameList (S.entries rootDirSector)).length := by
  have hmem := h.names.2
  have hmem' := h'.names.2
  have hnot : name ∉ nameList (S'.entries rootDirSector) := fun hm => by
    obtain ⟨c,hc⟩ := (hmem' name).mp hm
    rw [hof,if_pos rfl] at hc
    cases hc
  refine succ_length_le_of_subset h'.names.1 hnot fun other ho => (hmem other).mpr ?_
  rcases ho with hc | ho
  · exact ⟨b,by rw [hc,hb]⟩
  · obtain ⟨c,hc⟩ := (hmem' other).mp ho
    rw [hof] at hc
    split at hc
    · cases hc
    · exact ⟨c,hc⟩

/-- With a free slot in the directory a file is created exactly when its name is ordinary and new and its sectors are free; these
are taken, and no other file changes. -/
theorem create_iff_room (h : Session S live none) (hn : PlainName name) (hmin : -2147483648 ≤ size) (hmax : size < 2147483648)
    (hslot : freeSlot (S.entries rootDirSector) < (S.entries rootDirSector).length) : ∃ ok S', S.fsutilCreate name size = some (ok,S') ∧
      (ok = true ↔ 0 ≤ size ∧ size ≤ 8517120 ∧ Ordinary name ∧ S.fileOf name = none ∧ fileSectors size ≤ numFreeSectors S.vol) ∧
      (∀ other, S'.fileOf other = if ok = true ∧ other = name then some (List.replicate size.toNat 0) else S.fileOf other) ∧
      (ok = true → numFreeSectors S'.vol + fileSectors size = numFreeSectors S.vol) := by
  by_cases hlen : name.length = 0 ∨ 255 ≤ name.length
  · refine ⟨false,S,by rw [System.fsutilCreate,if_pos hlen],⟨fun hc => absurd hc Bool.false_ne_true,fun hc => ?_⟩,fun other => ?_,
      fun hc => absurd hc Bool.false_ne_true⟩
    · have hle := hc.2.2.1.length_le
      have hpos := List.length_pos_of_ne_nil hc.2.2.1.ne_nil
      rw [nameMax] at hle
      omega
    · rw [if_neg fun hc => Bool.false_ne_true hc.1]
  obtain ⟨ok,live',S',hcr,hS',-,hof,hfree,hroom⟩ := h.filesysCreate hn hmin hmax
  have hone : ok = true → 0 ≤ size ∧ Ordinary name := fun hok => by
    subst hok
    have hb : S'.fileOf name = some (List.replicate size.toNat 0) := by rw [hof,if_pos ⟨rfl,rfl⟩]
    obtain ⟨s,hs,-⟩ := Option.map_eq_some_iff.mp hb
    exact ⟨not_lt.mp fun hneg => filesysCreate_neg h hn hneg hmin hcr,hS'.ordinary name s hs⟩
  refine ⟨ok,S',by rw [System.fsutilCreate,if_neg hlen,hcr],⟨fun hok => ?_,fun hok => ?_⟩,hof,fun hok => ?_⟩
  · obtain ⟨h0,hord⟩ := hone hok
    subst hok
    obtain ⟨hcount,-,hfit⟩ := h.filesysCreate_count hord h0 hmax hslot hcr
    exact ⟨h0,hfit,hord,hfree rfl,by omega⟩
  · obtain ⟨h0,hfit,hord,hnone,hfits⟩ := hok
    exact hroom hord (creatable_of_room h.intact.ok h0 hfit hfits) hnone hslot
  · obtain ⟨h0,hord⟩ := hone hok
    subst hok
    exact (h.filesysCreate_count hord h0 hmax hslot hcr).1

theorem create_iff_room_five : ∃ (S S' : System), S.fsutilCreate (cstr "a") 5 = some (true,S') ∧ S'.fileOf (cstr "a") = some [0,0,0,0,0] := by
  obtain ⟨S,hF,hfree⟩ := formatted_199
  obtain ⟨hS,hno,hslot⟩ := hF.session
  obtain ⟨ok,S',hcr,hiff,hof,-⟩ := @create_iff_room S _ (cstr "a") 5 hS ordinary_a.plain (by decide) (by decide) hslot
  have hok : ok = true := hiff.mpr ⟨by decide,by decide,ordinary_a,hno _,by rw [hfree]; decide +kernel⟩
  subst hok
  exact ⟨S,S',hcr,(hof _).trans (if_pos ⟨rfl,rfl⟩)⟩

theorem ordinary_b : Ordinary (cstr "b") := ⟨by decide,by decide,by decide,by decide,by decide,by decide⟩

/-- `create b 2000` and `copy_in` of a byte as `a` on a new device. -/
theorem two_files : ∃ S live, CommandRun S ∧ Session S live none ∧ S.fileOf (cstr "a") = some [7,0] ∧
    S.fileOf (cstr "b") = some (List.replicate 2000 0) ∧ ∀ name, name ≠ cstr "a" → name ≠ cstr "b" → S.fileOf name = none := by
  obtain ⟨S,hF,hfree⟩ := formatted_199
  obtain ⟨hS,hno,hslot⟩ := hF.session
  obtain ⟨v,a,-,-,hent⟩ := hF.atRest
  have hb : fileSectors 2000 = 5 := by decide +kernel
  have ha : fileSectors 1 = 2 := by decide +kernel
  obtain ⟨live₁,S₁,hcr₁,hS₁,-,hof₁,hcount₁,hlen₁⟩ := @Session.filesysCreate_room S _ (cstr "b") 2000 hS ordinary_b (by decide) (by decide)
    (hno _) (creatable_of_room hS.intact.ok (by decide) (by decide) (by omega)) hslot
  have hslot₁ : freeSlot (S₁.entries rootDirSector) < (S₁.entries rootDirSector).length := by
    have hnames : (nameList (S₁.entries rootDirSector)).length ≤ ([] : List CString).length + 1 := by
      refine length_le_succ_of_subset (a := cstr "b") hS₁.names.1 fun x hx => ?_
      obtain ⟨c,hc⟩ := (hS₁.names.2 x).mp hx
      rw [hof₁] at hc
      by_cases he : x = cstr "b"
      · exact .inl he
      · rw [if_neg he,hno] at hc
        cases hc
    rw [hent,length_newTable] at hlen₁
    exact freeSlot_lt_of_names (by rw [List.length_nil] at hnames; omega)
  have hnew : S₁.fileOf (cstr "a") = none := (hof₁ _).trans ((if_neg (by decide)).trans (hno _))
  obtain ⟨live₂,S₂,hcr₂,-⟩ := @Session.filesysCreate_room S₁ _ (cstr "a") 1 hS₁ ordinary_a (by decide) (by decide)
    hnew (creatable_of_room hS₁.intact.ok (by decide) (by decide) (by omega)) hslot₁
  have hfree₁ : numFreeSectors S₁.vol = 119 := by omega
  have hsize : S₁.copySize [(7 : UInt8)].length = 1 := by
    rw [System.copySize_eq,hfree₁]
    decide +kernel
  obtain ⟨live',S',hret,hc⟩ := hS₁.copyIn_created ordinary_a hnew hsize (by decide) hcr₂
  have hint : ∀ contents, some [(7 : UInt8)] = some contents → wrap32 contents.length ≠ 2147483647 := fun contents hcon => by
    obtain rfl := Option.some.inj hcon
    rw [List.length_singleton,wrap32_of_mem (by decide) (by decide)]
    decide
  have hrun₁ : CommandRun S₁ := 
    @CommandRun.create S (cstr "b") 2000 true S₁ (.start hF) ordinary_b (by decide) ⟨by decide,by decide⟩
      ((ordinary_b.createName _).trans hcr₁)
  refine ⟨S',live',hrun₁.copyIn ordinary_a hint hret,hc.session,hc.file.trans rfl,?_,fun name ha hb => ?_⟩
  · rw [hc.frame _ (by decide),hof₁,if_pos rfl]
    rfl
  · rw [hc.frame _ ha,hof₁,if_neg hb,hno]

/-- The space of a removed file can be used again: another file that is no longer can be created, and takes its own
sectors out of those given back. -/
theorem removed_space_reusable {other : CString} (h : Session S live none) (hb : S.fileOf name = some b) (hn : Ordinary other)
    (hnew : other = name ∨ S.fileOf other = none) (h0 : 0 ≤ size) (hle : size ≤ b.length) :
    ∃ S₁ S₂, S.fsutilRm name = some (true,S₁) ∧ S₁.fsutilCreate other size = some (true,S₂) ∧
      (∀ n, S₂.fileOf n = if n = other then some (List.replicate size.toNat 0) else if n = name then none else S.fileOf n) ∧
      numFreeSectors S₂.vol + fileSectors size = numFreeSectors S.vol + fileSectors b.length := by
  obtain ⟨s,hs,-⟩ := Option.map_eq_some_iff.mp hb
  obtain ⟨ok,live₁,S₁,hrm,h₁,-,hof₁,-,hok,hback⟩ := h.fsutilRm (h.ordinary name s hs).no_slash
  obtain rfl : ok = true := by rw [hok,hb]; rfl
  have hmax := h.length_fileOf_le hb
  have hfree := hback.free b hb
  have hmono := fileSectors_mono h0 hle (by exact_mod_cast hmax)
  have hnone : S₁.fileOf other = none := by
    rw [hof₁]
    rcases hnew with hc | hc
    · exact if_pos hc
    · rw [hc]
      exact ite_self _
  have hslot : freeSlot (S₁.entries rootDirSector) < (S₁.entries rootDirSector).length := by
    refine freeSlot_lt_of_names ?_
    have hlt := h.names_length_lt h₁ hb hof₁
    have hall := length_nameList_lt h.table.length_pos
    have hkeep := hback.length_le
    omega
  obtain ⟨live₂,S₂,hcr,-,-,hof₂,hcount,-⟩ := h₁.filesysCreate_room hn h0 (by omega) hnone
    (creatable_of_room h₁.intact.ok h0 (by omega) (by omega)) hslot
  refine ⟨S₁,S₂,hrm,by rw [hn.createName,hcr],fun n => ?_,by omega⟩
  rw [hof₂,hof₁]

theorem removed_space_reusable_copied : ∃ S S₁ S₂ : System, S.fileOf (cstr "a") = some [7,0] ∧
    S.fileOf (cstr "b") = some (List.replicate 2000 0) ∧ S.fsutilRm (cstr "b") = some (true,S₁) ∧
    S₁.fsutilCreate (cstr "c") 1500 = some (true,S₂) ∧ S₂.fileOf (cstr "a") = some [7,0] ∧ S₂.fileOf (cstr "b") = none ∧
    S₂.fileOf (cstr "c") = some (List.replicate 1500 0) ∧ numFreeSectors S₂.vol = numFreeSectors S.vol + 1 := by
  obtain ⟨S,live,-,hS,ha,hb,hnone⟩ := two_files
  have hc : Ordinary (cstr "c") := ⟨by decide,by decide,by decide,by decide,by decide,by decide⟩
  obtain ⟨S₁,S₂,hrm,hcr,hof,hcount⟩ := @removed_space_reusable S live (cstr "b") 1500 _ (cstr "c") hS hb hc
    (.inr (hnone _ (by decide) (by decide))) (by decide) (by rw [List.length_replicate]; decide)
  have h1500 : fileSectors 1500 = 4 := by decide +kernel
  have h2000 : fileSectors 2000 = 5 := by decide +kernel
  rw [List.length_replicate,Nat.cast_ofNat,h1500,h2000] at hcount
  refine ⟨S,S₁,S₂,ha,hb,hrm,hcr,?_,?_,(hof _).trans (if_pos rfl),by omega⟩
  · rw [hof,if_neg (by decide),if_neg (by decide),ha]
  · rw [hof,if_neg (by decide),if_pos rfl]

/-- After any commands `defragment` comes to its end, and every file is byte for byte what it was. -/
theorem defragment_keeps_files (h : CommandRun S) : ∃ r live' S', S.defragment = some (r,S') ∧ Session S' live' none ∧
    (∀ name, S'.fileOf name = S.fileOf name) ∧ ∀ name, S'.position name = 0 := by
  obtain ⟨live,hk⟩ := h.kept
  have hne : ∀ name, S.fileOf name ≠ some [] := fun name hc => by
    have hlast := hk.ended name [] hc
    cases hlast
  obtain ⟨r,live',S',hd,hS',hof,hpos⟩ := hk.session.defragment hne
  refine ⟨r,live',S',hd,hS',fun name => ?_,hpos⟩
  rw [hof]
  cases hb : S.fileOf name with
  | none => rfl
  | some b => rw [Option.map_some,closeText_eq (hk.ended name b hb)]

theorem defragment_keeps_files_copied : ∃ S : System, CommandRun S ∧ S.fileOf (cstr "a") = some [7,0] ∧
    S.fileOf (cstr "b") = some (List.replicate 2000 0) ∧ ∃ r live' S', S.defragment = some (r,S') ∧ Session S' live' none ∧
      (∀ name, S'.fileOf name = S.fileOf name) ∧ ∀ name, S'.position name = 0 := by
  obtain ⟨S,live,hrun,-,ha,hb,-⟩ := two_files
  exact ⟨S,hrun,ha,hb,defragment_keeps_files hrun⟩

end
end ShellOS.Fs
