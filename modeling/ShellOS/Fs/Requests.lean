import ShellOS.Fs.Session

/-! What the operations by name do to the files. -/
namespace ShellOS.Fs
open CLib SlotTable BlockTree

section
variable {S S' S'' : System} {live live' : Set BlockSector} {root : Option Dir} {d : Dir} {i j : Inode} {s : BlockSector}
  {name other : CString} {f g : File} {size : ℤ}

/-! ### Opening by name -/

theorem Session.lookup (h : Session S live (some d)) (name : CString) :
    (entryOf (S.entries rootDirSector) name = none ∧ S.lookup d.addr name = some none) ∨
    ∃ e k, S.lookup d.addr name = some (some (e,k)) ∧ entryOf (S.entries rootDirSector) name = some e.inodeSector := by
  obtain ⟨r,hr,hrs⟩ := h.openDir
  have hl : S.lookup d.addr name = _ := h.intact.lookup hr (hrs ▸ h.table.length_pos)
  rw [hrs] at hl
  rw [hl]
  cases he : (S.entries rootDirSector)[slotOf name (S.entries rootDirSector)]? with
  | none => exact .inl ⟨entryOf_none.mpr he,rfl⟩
  | some e => exact .inr ⟨e,_,rfl,by rw [entryOf,he,Option.map_some]⟩

theorem Session.dirLookup (h : Session S live (some d)) (hn : PlainName name) :
    (entryOf (S.entries rootDirSector) name = none ∧ S.dirLookup d.addr name = some (none,S)) ∨
    ∃ i S', S.dirLookup d.addr name = some (some i.addr,S') ∧ Session S' live (some d) ∧ Idle S S' ∧
      i ∈ S'.openInodes ∧ entryOf (S.entries rootDirSector) name = some i.sector := by
  rw [System.dirLookup,if_neg hn.ne_dot,if_neg hn.ne_dotdot]
  cases h.lookup name with
  | inl hl => exact .inl ⟨hl.1,by rw [hl.2,Option.map_some]⟩
  | inr hl =>
    obtain ⟨e,k,hl,he⟩ := hl
    obtain ⟨hlive,h1⟩ := h.table.entryOf_file he
    obtain ⟨i,S',ho,hS,hi,his,hidle⟩ := h.inodeOpen hlive h1
    refine .inr ⟨i,S',?_,hS,hidle,hi,his ▸ he⟩
    rw [hl,Option.map_some]
    dsimp only
    rw [ho]

/-- `filesys_open`. -/
theorem Session.filesysOpen (h : Session S live root) (hn : PlainName name) :
    (entryOf (S.entries rootDirSector) name = none ∧
      ∃ S', S.filesysOpen name = some (none,S') ∧ Session S' live root ∧ Idle S S') ∨
    ∃ i S', S.filesysOpen name = some (some ⟨i.addr,0⟩,S') ∧ Session S' live root ∧ Idle S S' ∧ i ∈ S'.openInodes ∧
      entryOf (S.entries rootDirSector) name = some i.sector := by
  by_cases hne : name = []
  · have hno : entryOf (S.entries rootDirSector) name = none :=
      Option.eq_none_iff_forall_ne_some.mpr fun s hs => (h.ordinary name s hs).ne_nil hne
    exact .inl ⟨hno,S,by rw [System.filesysOpen,if_pos hne],h,Idle.refl S⟩
  obtain ⟨d,S₁,hopen,h₁,hre,hidle₁,-⟩ := h.dirOpenRoot
  have hent₁ := hidle₁.entries rootDirSector
  unfold System.filesysOpen
  rw [if_neg hne,split_noSlash hn.no_slash]
  dsimp only
  rw [hopen,Option.bind_some,if_neg hne]
  dsimp only
  cases h₁.dirLookup hn with
  | inl hl =>
    obtain ⟨he,hl⟩ := hl
    obtain ⟨S₂,hclose,h₂,hidle₂,-⟩ := h₁.dirClose hre
    refine .inl ⟨hent₁ ▸ he,S₂,?_,h₂,hidle₁.trans hidle₂⟩
    rw [hl,Option.bind_some]
    dsimp only
    rw [hclose]
    rfl
  | inr hl =>
    obtain ⟨i,S₂,hl,h₂,hidle₂,hi,he⟩ := hl
    obtain ⟨S₃,hclose,h₃,hidle₃,hkeep⟩ := h₂.dirClose hre
    have h1 := (h₁.table.entryOf_file he).2
    refine .inr ⟨i,S₃,?_,h₃,(hidle₁.trans hidle₂).trans hidle₃,hkeep i hi h1,hent₁ ▸ he⟩
    rw [hl,Option.bind_some]
    dsimp only
    rw [hclose,Option.map_some,Option.bind_some]
    dsimp only
    rw [h₃.intact.inodeAt_eq (hkeep i hi h1),Option.map_some,h₃.kept i (hkeep i hi h1)]
    rfl

/-- The file of a name, opened at its start if it was not in the table. -/
theorem Session.tableFile (h : Session S live root) (hn : PlainName name) :
    (S.fileOf name = none ∧ S.getFileByFname name = none ∧
      ∃ S', S.tableFile name = some (none,S') ∧ Session S' live root ∧ Idle S S') ∨
    ∃ f S', S.tableFile name = some (some f,S') ∧ Session S' live root ∧ (∀ p, S'.bytes p = S.bytes p) ∧ S'.vol = S.vol ∧
      S'.getFileByFname name = some f ∧ (S' = S ∨ f.pos = 0 ∧ S.getFileByFname name = none ∧ S'.fileTable = S.fileTable ++ [⟨name,f⟩]) := by
  cases hf : S.getFileByFname name with
  | some f => exact .inr ⟨f,S,System.tableFile_eq hf,h,fun _ => rfl,rfl,hf,.inl rfl⟩
  | none =>
    unfold System.tableFile
    rw [hf]
    dsimp only
    cases h.filesysOpen hn with
    | inl ho =>
      obtain ⟨he,S',ho,h',hidle⟩ := ho
      exact .inl ⟨by rw [System.fileOf,he,Option.map_none],rfl,S',by rw [ho]; rfl,h',hidle⟩
    | inr ho =>
      obtain ⟨i,S',ho,h',hidle,hi,he⟩ := ho
      obtain ⟨heq,hadd,hget⟩ := h'.addToFileTable (f := ⟨i.addr,0⟩) ((hidle.getFile name).trans hf) hi rfl
        ((hidle.entries _).symm ▸ he)
      refine .inr ⟨⟨i.addr,0⟩,_,by rw [ho]; rfl,hadd,?_,?_,hget,.inr ⟨rfl,rfl,?_⟩⟩
      · rw [heq]
        exact hidle.bytes
      · rw [heq]
        exact hidle.vol
      · rw [heq,← hidle.fileTable]

/-! ### Changed inodes -/

/-- The session after the open inode `i` became `i'`, and perhaps files went or came. -/
theorem Session.replaced (h : Session S live root) (hcat : Catalog S' live') (hframe : Frame ( live' \ {i.sector}) S S')
    (hi : i ∈ S.openInodes) {i' : Inode} (hi' : i' ∈ S'.openInodes) (heq : i' = { i with data := i'.data })
    (hfiles : ∀ e ∈ S.fileTable, ∀ t, entryOf (S.entries rootDirSector) e.fname = some t →
      entryOf (S'.entries rootDirSector) e.fname = some t ∧ t ∈ live') : Session S' live' root := by
  have ha : i'.addr = i.addr := by rw [heq]
  have hs : i'.sector = i.sector := by rw [heq]
  have hold : ∀ j ∈ S'.openInodes, j = i' ∨ j ∈ S.openInodes ∧ j.sector ≠ i.sector := by
    intro j hj
    by_cases hjs : j.sector = i.sector
    · exact .inl (hcat.intact.sector_inj hj hi' (hjs.trans hs.symm))
    · exact .inr ⟨(hframe.opens j ⟨(hcat.intact.inode j hj).1,hjs⟩).mp hj,hjs⟩
  have hnew : ∀ j ∈ S.openInodes, j.sector ∈ live' → ∃ j' ∈ S'.openInodes, j'.addr = j.addr ∧ j'.sector = j.sector := by
    intro j hj hl
    by_cases hjs : j.sector = i.sector
    · obtain rfl := h.intact.sector_inj hj hi hjs
      exact ⟨i',hi',ha,hs⟩
    · exact ⟨j,(hframe.opens j ⟨hl,hjs⟩).mpr hj,rfl,rfl⟩
  refine ⟨hcat,fun j hj => ?_,hframe.dirs.trans h.dirs,hframe.cwd.trans h.cwd,fun hr j hj => ?_,fun d hd => ?_,h.counted,
    hframe.fileTable ▸ h.fnames,fun e he => ?_⟩
  · cases hold j hj with
    | inl he =>
      rw [he,heq]
      exact h.kept i hi
    | inr hj => exact h.kept j hj.1
  · cases hold j hj with
    | inl he =>
      rw [he,hs]
      exact h.closed hr i hi
    | inr hj => exact h.closed hr j hj.1
  · obtain ⟨j,hj,haj,hjs⟩ := h.opened d hd
    obtain ⟨j',hj',haj',hjs'⟩ := hnew j hj (hjs ▸ hcat.root_mem)
    exact ⟨j',hj',haj.trans haj'.symm,hjs'.trans hjs⟩
  · rw [hframe.fileTable] at he
    obtain ⟨j,hj,haj,hent⟩ := h.files e he
    obtain ⟨hent',hl⟩ := hfiles e he _ hent
    obtain ⟨j',hj',haj',hjs'⟩ := hnew j hj hl
    exact ⟨j',hj',haj.trans haj'.symm,hjs' ▸ hent'⟩

theorem isDir_congr {d e : InodeDisk} (h : Sector.word d 125 = Sector.word e 125) : d.isDir = e.isDir := by
  unfold InodeDisk.isDir Sector.byte
  rw [show 500 / 4 = 125 from rfl,h]

/-- `inode_write_at` to an open file. -/
theorem Session.writeAt (h : Session S live root) (hi : i ∈ S.openInodes) (h1 : i.sector ≠ rootDirSector)
    (buffer : List UInt8) {offset : ℤ} (h0 : 0 ≤ offset) (ho : offset < 2147483648) (hz : 1 ≤ size) (hs : size < 2147483648)
    (hb : size ≤ buffer.length) : ∃ ok S', S.writeAt i.addr buffer size offset = some (if ok then size else 0,S') ∧
      Session S' live root ∧ S'.fileTable = S.fileTable ∧ S'.bytes i.sector = (if ok then
        overwrite (S.bytes i.sector) offset.toNat (buffer.take size.toNat) else S.bytes i.sector) ∧
      (∀ p ∈ live, p ≠ i.sector → S'.bytes p = S.bytes p) ∧ (ok = true → offset + size ≤ 8517120) := by
  obtain ⟨ok,inode,w,hw,hwr,hint,hmem,hbytes,hf⟩ := h.intact.write_frame hi buffer h0 hz ho hs hb
  have hroot : rootDirSector ∈ live \ {i.sector} := ⟨h.root_mem,Ne.symm h1⟩
  have hsec : inode.sector = i.sector := by rw [hwr.inode_eq]
  have hcat : Catalog (S.changed inode w) live := h.toCatalog.of_same hint (hf.bytes _ hroot) fun p hp _ => by
    by_cases hpi : p = i.sector
    · rw [hpi,← hsec,System.record_open hint.sectors hmem,hsec,System.record_open h.intact.sectors hi]
      exact isDir_congr (hwr.kind 125 (le_refl _) (by decide))
    · rw [hf.record p ⟨hp,hpi⟩]
  refine ⟨ok,_,hw,h.replaced hcat hf hi hmem hwr.inode_eq fun e he t ht => ?_,rfl,hbytes,
    fun p hp hne => hf.bytes p ⟨hp,hne⟩,fun hok => ?_⟩
  · rw [entries_of_frame hf hroot]
    exact ⟨ht,(h.table.entryOf_file ht).1⟩
  · have := hwr.ok_eq.symm.trans hok
    rw [Bool.and_eq_true,decide_eq_true_eq,decide_eq_true_eq] at this
    exact this.2

theorem System.fileOf_setFile (S : System) (name other : CString) (g : File) :
    (S.setFile name g).fileOf other = S.fileOf other := rfl

/-- `file_write`: all is written or nothing, and the position moves either way. -/
theorem Session.fileWrite (h : Session S live root) (hf : S.getFileByFname name = some f) (buffer : List UInt8)
    (h0 : 0 ≤ f.pos) (ho : f.pos < 2147483648) (hz : 1 ≤ size) (hs : size < 2147483648) (hb : size ≤ buffer.length) :
    ∃ ok b S', S.fileOf name = some b ∧ S.fileWrite name buffer size = some (if ok then size else 0,S') ∧
      Session S' live root ∧ S'.fileTable = Keyed.update FileTableEntry.fname
        ⟨name,{ f with pos := wrap32 (f.pos + ((if ok then size else 0) - 2)) }⟩ S.fileTable ∧
      (∀ other, S'.fileOf other = if other = name then
        some (if ok then overwrite b f.pos.toNat ((System.terminated buffer size).take size.toNat) else b) else S.fileOf other) ∧
      (ok = true → f.pos + size ≤ 8517120) := by
  obtain ⟨i,hi,ha,he,hl,h1⟩ := h.table_file hf
  have hlen : size ≤ (System.terminated buffer size).length := by
    rw [System.terminated,if_pos hz,List.length_set]
    exact hb
  obtain ⟨ok,S₁,hw,h₁,htab,hbytes,hother,hmax⟩ := h.writeAt hi h1 (System.terminated buffer size) h0 ho hz hs hlen
  have hf₁ : S₁.getFileByFname name = some f := by
    rw [System.getFileByFname,htab]
    exact hf
  have hent : S₁.entries rootDirSector = S.entries rootDirSector := by
    rw [System.entries,hother _ h.root_mem (Ne.symm h1),System.entries]
  obtain ⟨n,hn⟩ : ∃ n, n = if ok then size else 0 := ⟨_,rfl⟩
  rw [← hn] at hw
  refine ⟨ok,S.bytes i.sector,S₁.setFile name { f with pos := wrap32 (f.pos + (n - 2)) },?_,?_,h₁.setFile hf₁ rfl,?_,
    fun other => ?_,hmax⟩
  · rw [System.fileOf,he,Option.map_some]
  · rw [← hn,System.fileWrite,hf,Option.bind_some,ha,hw,Option.map_some]
  · rw [← hn,System.setFile,htab]
  · rw [System.fileOf_setFile,System.fileOf,hent]
    split
    · next heq => rw [heq,he,Option.map_some,hbytes]
    · next hne =>
      rw [System.fileOf]
      cases hoe : entryOf (S.entries rootDirSector) other with
      | none => rw [Option.map_none,Option.map_none]
      | some t =>
        have ht : t ≠ i.sector := fun hc => hne (h.table.entryOf_inj hoe (hc ▸ he))
        rw [Option.map_some,Option.map_some,hother t (h.table.entryOf_file hoe).1 ht]

/-! ### Creating -/

/-- A step of the free map and of sectors of no file. -/
theorem Session.volume (h : Session S live root) {w : Volume} (hint : Intact { S with vol := w } live)
    (hf : Frame live S { S with vol := w }) : Session { S with vol := w } live root :=
  ⟨h.toCatalog.of_same hint (hf.bytes _ h.root_mem) fun p hp _ => by rw [hf.record p hp],h.kept,h.dirs,h.cwd,h.closed,
    h.opened,h.counted,h.fnames,fun e he => by
      obtain ⟨i,hi,ha,hent⟩ := h.files e he
      refine ⟨i,hi,ha,?_⟩
      rw [System.entries,hf.bytes _ h.root_mem]
      exact hent⟩

theorem Intact.subset (h : Intact S live) (hs : live' ⊆ live) (ho : ∀ i ∈ S.openInodes, i.sector ∈ live') :
    Intact S live' :=
  { h with
    alloc := fun s hs' => h.alloc s (hs hs')
    file := fun s hs' => h.file s (hs hs')
    self := fun s hs' => h.self s (hs hs')
    apart := fun s hs' t ht => h.apart s (hs hs') t (hs ht)
    inode := fun i hi => ⟨ho i hi,(h.inode i hi).2⟩ }

/-- A closed file without a name is no part of the session. -/
theorem Session.forget (h : Session S (insert s live) root) (h1 : s ≠ rootDirSector)
    (ho : ∀ i ∈ S.openInodes, i.sector ≠ s) (hn : ∀ name, entryOf (S.entries rootDirSector) name ≠ some s) :
    Session S live root := by
  have hfile : ∀ k e, 1 ≤ k → (S.entries rootDirSector)[k]? = some e → e.inUse = true →
      e.inodeSector ∈ live \ {rootDirSector} := by
    intro k e hk he hu
    obtain ⟨hm,hr⟩ := h.table.file k e hk he hu
    refine ⟨Set.mem_of_mem_insert_of_ne hm fun hc => hn e.cname ?_,hr⟩
    exact h.table.entryOf_some.mpr ⟨k,e,hk,he,hu,rfl,hc⟩
  have hint := h.intact.subset (Set.subset_insert s live) fun i hi =>
    Set.mem_of_mem_insert_of_ne (h.intact.inode i hi).1 (ho i hi)
  exact { h with
    intact := hint
    root_mem := Set.mem_of_mem_insert_of_ne h.root_mem (Ne.symm h1)
    table := { h.table with file := hfile }
    plain := fun t ht => h.plain t (Set.mem_insert_of_mem s ht) }

/-- `free_map_release` of a sector that belongs to no file. -/
theorem Session.release (h : Session S live root) (h0 : s ≠ 0) (hu : Used S.vol s) (hfm : ¬ FmNode S.vol s)
    (ho : ∀ t ∈ live, ¬ S.Owned t s) : Session { S with vol := freeMapRelease s 1 S.vol } live root ∧
      ∀ p ∈ live, System.bytes { S with vol := freeMapRelease s 1 S.vol } p = S.bytes p := by
  have hrel := Released.one h.intact.ok hu h0 hfm
  obtain ⟨hint,hf⟩ := h.intact.volume_frame hrel.keeps fun t ht q hq =>
    ⟨hrel.used (h.intact.owned ht hq).2.1 fun hm => ho t ht (List.mem_singleton.mp hm ▸ hq),fun hc => hc⟩
  exact ⟨h.volume hint hf,hf.bytes⟩

/-- A table with a new name. -/
theorem DirTable.add_name {l : List DirEntry} {files : Set BlockSector} (h : DirTable l files) (hn : Ordinary name)
    (hs : s ∈ files) (hname : entryOf l name = none) (hnew : ∀ other, entryOf l other ≠ some s) :
    DirTable (put l (freeSlot l) ⟨s,strncpyName name,true⟩) files ∧
      ∀ other, entryOf (put l (freeSlot l) ⟨s,strncpyName name,true⟩) other =
        if other = name then some s else entryOf l other := by
  obtain ⟨e,he⟩ : ∃ e : DirEntry, e = ⟨s,strncpyName name,true⟩ := ⟨_,rfl⟩
  have hc : e.cname = name := by
    rw [he]
    exact cname_strncpyName hn.no_nul hn.length_le
  have hes : e.inodeSector = s := by rw [he]
  have hu : e.inUse = true := by rw [he]
  rw [← he]
  have htable : DirTable (put l (freeSlot l) e) files :=
    h.add (by rw [hc]; exact hn.ne_nil) (by rw [hes]; exact hs) (by rw [hc]; exact hname) (by rw [hes]; exact hnew)
  refine ⟨htable,fun other => ?_⟩
  rw [h.entryOf_add htable hu,hc,hes]

/-- `dir_add` of a file that has no name yet. -/
theorem Session.dirAdd (h : Session S live (some d)) (hn : PlainName name) (hs : s ∈ live) (h1 : s ≠ rootDirSector)
    (hnew : ∀ other, entryOf (S.entries rootDirSector) other ≠ some s) :
    ∃ ok S', S.dirAdd d.addr name s = some (ok,S') ∧ Session S' live (some d) ∧ S'.fileTable = S.fileTable ∧
      (∀ p ∈ live, p ≠ rootDirSector → S'.bytes p = S.bytes p) ∧
      (∀ j : Inode, j.sector ∈ live → j.sector ≠ rootDirSector → (j ∈ S'.openInodes ↔ j ∈ S.openInodes)) ∧
      (∀ other, entryOf (S'.entries rootDirSector) other =
        if ok = true ∧ other = name then some s else entryOf (S.entries rootDirSector) other) ∧
      (ok = true → entryOf (S.entries rootDirSector) name = none) ∧
      (Ordinary name → entryOf (S.entries rootDirSector) name = none →
        freeSlot (S.entries rootDirSector) < (S.entries rootDirSector).length → ok = true) := by
  by_cases hinv : name = [] ∨ nameMax < name.length
  · exact ⟨false,S,dirAdd_invalid d.addr s S hinv,h,rfl,fun _ _ _ => rfl,fun _ _ _ => Iff.rfl,
      fun _ => (if_neg fun hc => Bool.false_ne_true hc.1).symm,fun hc => absurd hc Bool.false_ne_true,
      fun hord => absurd hinv hord.valid⟩
  have hord := hn.ordinary hinv
  obtain ⟨r,hr,hrs⟩ := h.openDir
  have hlen : 1 ≤ (S.entries r.sector).length := hrs ▸ h.table.length_pos
  cases he : (S.entries rootDirSector)[slotOf name (S.entries rootDirSector)]? with
  | some e =>
    rw [← hrs] at he
    have hadd := h.intact.dirAdd_present hr hlen s he
    refine ⟨false,S,hadd,h,rfl,fun _ _ _ => rfl,fun _ _ _ => Iff.rfl,fun _ => (if_neg fun hc => Bool.false_ne_true hc.1).symm,
      fun hc => absurd hc Bool.false_ne_true,fun _ hno _ => ?_⟩
    rw [hrs,entryOf_none.mp hno] at he
    cases he
  | none =>
    have hnone : entryOf (S.entries rootDirSector) name = none := entryOf_none.mpr he
    rw [← hrs] at he
    obtain ⟨ok,r',S',hadd,hstep,-,hent,hroom⟩ := h.intact.dirAdd_new hr hlen hinv s he
    have hframe := hstep.frame
    rw [hrs] at hent hframe hroom
    obtain ⟨htable,hput⟩ := h.table.add_name hord ⟨hs,h1⟩ hnone hnew
    have hof : ∀ other, entryOf (S'.entries rootDirSector) other =
        if ok = true ∧ other = name then some s else entryOf (S.entries rootDirSector) other := by
      intro other
      rw [hent]
      cases ok with
      | false => rw [if_neg Bool.false_ne_true,if_neg fun hc => Bool.false_ne_true hc.1]
      | true =>
        rw [if_pos rfl,hput]
        exact if_congr (and_iff_right rfl).symm rfl rfl
    have htable' : DirTable (S'.entries rootDirSector) (live \ {rootDirSector}) := by
      rw [hent]
      cases ok with
      | false =>
        rw [if_neg Bool.false_ne_true]
        exact h.table
      | true =>
        rw [if_pos rfl]
        exact htable
    have hcat : Catalog S' live := by
      refine ⟨hstep.intact,h.root_mem,htable',fun other t ht => ?_,fun p hp hp1 => ?_⟩
      · rw [hof] at ht
        split at ht
        · next hc => exact hc.2 ▸ hord
        · exact h.ordinary other t ht
      · rw [hframe.record p ⟨hp,hp1⟩]
        exact h.plain p hp hp1
    refine ⟨ok,S',hadd,h.replaced hcat (hrs.symm ▸ hframe) hr.mem hstep.dir.mem hstep.inode_eq fun e he t ht => ?_,
      hframe.fileTable,fun p hp hp1 => hframe.bytes p ⟨hp,hp1⟩,fun j hj hj1 => hframe.opens j ⟨hj,hj1⟩,hof,fun _ => hnone,fun _ _ => hroom⟩
    rw [hof,if_neg fun hc => ?_]
    · exact ⟨ht,(h.table.entryOf_file ht).1⟩
    · rw [hc.2,hnone] at ht
      exact absurd ht (Option.some_ne_none t).symm

theorem Session.fileOf_congr (h : Session S live root) (hent : entryOf (S'.entries rootDirSector) other =
    entryOf (S.entries rootDirSector) other) (hb : ∀ p ∈ live, p ≠ rootDirSector → S'.bytes p = S.bytes p) :
    S'.fileOf other = S.fileOf other := by
  rw [System.fileOf,hent,System.fileOf]
  cases he : entryOf (S.entries rootDirSector) other with
  | none => rw [Option.map_none,Option.map_none]
  | some t =>
    have ht := h.table.entryOf_file he
    rw [Option.map_some,Option.map_some,hb t ht.1 ht.2]

/-- A sector in use that no file owns. -/
structure Loose (S : System) (live : Set BlockSector) (s : BlockSector) : Prop where
  ne_zero : s ≠ 0
  used : Used S.vol s
  fm : ¬ FmNode S.vol s
  owned : ∀ t ∈ live, ¬ S.Owned t s

/-- An inode created for a new file. -/
theorem Session.inodeCreate (h : Session S live root) {v : Volume} (ha : Allocated S live s v) (hmin : -2147483648 ≤ size)
    (hmax : size < 2147483648) : ∃ ok w, Fs.inodeCreate s size false v = (ok,w) ∧
      Session { S with vol := w } live root ∧ (∀ p ∈ live, System.bytes { S with vol := w } p = S.bytes p) ∧
      (ok = false → Loose { S with vol := w } live s) ∧
      (ok = true → Session { S with vol := w } (insert s live) root ∧
        System.bytes { S with vol := w } s = List.replicate size.toNat 0) := by
  rcases lt_or_ge size 0 with hneg | h0
  · have hX : ∀ t ∈ live, ∀ q, S.Owned t q → Used v q ∧ ¬ False := fun t ht q hq =>
      ⟨(ha.used q).mpr (.inl (h.intact.owned ht hq).2.1),fun hc => hc⟩
    obtain ⟨hint,hf⟩ := h.intact.volume_frame ha.keeps hX
    refine ⟨false,v,inodeCreate_neg s false v hneg hmin,h.volume hint hf,hf.bytes,fun _ => ⟨ha.ne_zero,ha.spare.marked,ha.fm,
      fun t ht ho => ?_⟩,fun hc => absurd hc Bool.false_ne_true⟩
    exact ha.owned t ht (((h.intact.untouched ht ha.keeps (hX t ht)).owned_iff (T := { S with vol := v }) (hf.record t ht) s).mp ho)
  obtain ⟨ok,d,w,hcr,hc,hint,hf,hnew⟩ := h.intact.create_frame ha.spare false h0 hmax
  have hS := h.volume hint hf
  refine ⟨ok,w,hcr,hS,hf.bytes,fun _ => ⟨ha.ne_zero,hc.used _ ha.spare.marked,?_,fun t ht ho => ?_⟩,fun hok => ?_⟩
  · exact fun hn => ha.fm ((hc.keeps.fmNode_iff s).mp hn)
  · obtain ⟨hk,hX⟩ := h.intact.create_keeps ha.spare hc
    have ho' := ((h.intact.untouched ht hk (hX t ht)).owned_iff (T := { S with vol := w }) (hf.record t ht) s).mp ho
    exact (hX t ht s ho').2 (.inr (.inr rfl))
  · obtain ⟨hint',hrec,hbytes⟩ := hnew hok
    refine ⟨⟨⟨hint',Set.mem_insert_of_mem s h.root_mem,?_,hS.ordinary,fun t ht h1 => ?_⟩,hS.kept,hS.dirs,hS.cwd,hS.closed,
      hS.opened,hS.counted,hS.fnames,hS.files⟩,hbytes⟩
    · exact hS.table.mono fun t ht => ⟨Set.mem_insert_of_mem s ht.1,ht.2⟩
    · cases ht with
      | inl he =>
        rw [he,hrec,hc.info.isDir_eq]
        exact InodeDisk.isDir_create size false
      | inr ht => exact hS.plain t ht h1

-- the functions called are hidden behind names, since unfolding them would make the reduction of the matches hopeless
theorem System.createFile_none {D : ℕ} {v : Volume} (hal : freeMapAllocate 1 S.vol = (none,v)) :
    S.createFile D name size = some (false,0,{ S with vol := v }) := by
  unfold System.createFile
  rw [hal]

theorem System.createFile_some {D : ℕ} {p : BlockSector} {v w : Volume} {ok : Bool}
    (hal : freeMapAllocate 1 S.vol = (some p,v)) (hcr : Fs.inodeCreate p size false v = (ok,w)) :
    S.createFile D name size = bif ok then (System.dirAdd D name p { S with vol := w }).map fun r => (r.1,p,r.2)
      else some (false,p,{ S with vol := w }) := by
  unfold System.createFile
  obtain ⟨create,hcreate⟩ : ∃ create, create = Fs.inodeCreate := ⟨_,rfl⟩
  obtain ⟨add,hadd⟩ : ∃ add, add = System.dirAdd := ⟨_,rfl⟩
  rw [← hcreate] at hcr ⊢
  rw [← hadd,hal]
  dsimp only
  rw [hcr]
  cases ok with
  | false => rfl
  | true => rfl

/-- The steps of `filesys_create` with the root directory open; what a failure leaves is released
afterwards. -/
theorem Session.createFile (h : Session S live (some d)) (hn : PlainName name) (hmin : -2147483648 ≤ size) (hmax : size < 2147483648) :
    ∃ ok p live' S', S.createFile d.addr name size = some (ok,p,S') ∧ Session S' live' (some d) ∧
      S'.fileTable = S.fileTable ∧ (ok = false → live' = live ∧ (p ≠ 0 → Loose S' live p)) ∧
      (∀ other, S'.fileOf other = if ok = true ∧ other = name then some (List.replicate size.toNat 0) else S.fileOf other) ∧
      (ok = true → S.fileOf name = none) ∧
      (∀ q v, freeMapAllocate 1 S.vol = (some q,v) → (Fs.inodeCreate q size false v).1 = true → Ordinary name → S.fileOf name = none →
        freeSlot (S.entries rootDirSector) < (S.entries rootDirSector).length → ok = true) := by
  have hfalse : ∀ {other : CString} {a : Option (List UInt8)}, (if false = true ∧ other = name then some (List.replicate size.toNat 0) else a) = a :=
    if_neg fun hc => Bool.false_ne_true hc.1
  cases hal : freeMapAllocate 1 S.vol with
  | mk r v =>
    cases r with
    | none =>
      have hv : v = S.vol := by
        rcases freeMapAllocate_spec h.intact.ok with ⟨hs,-⟩ | ⟨p,v',hs,-⟩
        · exact (Prod.mk.inj (hal.symm.trans hs)).2
        · exact absurd (Prod.mk.inj (hal.symm.trans hs)).1 (Option.some_ne_none p).symm
      subst hv
      exact ⟨false,0,live,S,System.createFile_none hal,h,rfl,fun _ => ⟨rfl,fun hc => absurd rfl hc⟩,fun other => hfalse.symm,
        fun hc => absurd hc Bool.false_ne_true,fun q v hq => absurd (Prod.mk.inj hq).1.symm (Option.some_ne_none q)⟩
    | some p =>
      have ha := h.intact.allocate hal
      have hp : p ∉ live := fun hp => ha.owned p hp (.inl rfl)
      have h1 : p ≠ rootDirSector := fun hc => hp (hc ▸ h.root_mem)
      have hclosed : ∀ i ∈ S.openInodes, i.sector ≠ p := fun i hi hc => hp (hc ▸ (h.intact.inode i hi).1)
      obtain ⟨ok,w,hcr,hS,hbytes,hloose,hnew⟩ := h.inodeCreate ha hmin hmax
      have heq : S.createFile d.addr name size = _ := System.createFile_some hal hcr
      obtain ⟨T,hT⟩ : ∃ T : System, T = { S with vol := w } := ⟨_,rfl⟩
      have hTtab : T.fileTable = S.fileTable := by rw [hT]
      have hTopen : T.openInodes = S.openInodes := by rw [hT]
      rw [← hT] at hS hbytes hloose hnew heq
      have hent : T.entries rootDirSector = S.entries rootDirSector := by
        rw [System.entries,hbytes _ h.root_mem,System.entries]
      have hsame : ∀ other, T.fileOf other = S.fileOf other := fun other => by
        exact h.fileOf_congr (by rw [hent]) fun t ht _ => hbytes t ht
      cases ok with
      | false =>
        rw [cond_false] at heq
        refine ⟨false,p,live,T,heq,hS,hTtab,fun _ => ⟨rfl,fun _ => hloose rfl⟩,fun other => (hsame other).trans hfalse.symm,
          fun hc => absurd hc Bool.false_ne_true,fun q v' hq hcr' => ?_⟩
        obtain ⟨hpq,rfl⟩ := Prod.mk.inj hq
        obtain rfl := Option.some.inj hpq
        rw [hcr] at hcr'
        cases hcr'
      | true =>
        obtain ⟨hins,hzero⟩ := hnew rfl
        have hnone : ∀ other, entryOf (T.entries rootDirSector) other ≠ some p := fun other he =>
          hp (hS.table.entryOf_file he).1
        obtain ⟨ok,S',hadd,hS',htab,hb,hop,hof,hfree,hroom⟩ := hins.dirAdd hn (Set.mem_insert p live) h1 hnone
        have hb' : ∀ t ∈ live, t ≠ rootDirSector → S'.bytes t = T.bytes t := fun t ht => hb t (Set.mem_insert_of_mem p ht)
        rw [cond_true,hadd,Option.map_some] at heq
        rw [hent] at hroom
        have hroom' : Ordinary name → S.fileOf name = none → freeSlot (S.entries rootDirSector) < (S.entries rootDirSector).length → ok = true :=
          fun hord hno => hroom hord (Option.map_eq_none_iff.mp hno)
        cases ok with
        | false =>
          have hof' : ∀ other, entryOf (S'.entries rootDirSector) other = entryOf (T.entries rootDirSector) other :=
            fun other => (hof other).trans (if_neg fun hc => Bool.false_ne_true hc.1)
          obtain ⟨hp0,hpu,hpf⟩ := hS'.intact.owned (Set.mem_insert p live) (.inl rfl)
          have hback : Session S' live (some d) := by
            refine hS'.forget h1 (fun i hi hc => ?_) fun other he => hnone other ((hof' other).symm.trans he)
            have hi' := (hop i (hc ▸ Set.mem_insert p live) (hc ▸ h1)).mp hi
            rw [hTopen] at hi'
            exact hclosed i hi' hc
          refine ⟨false,p,live,S',heq,hback,htab.trans hTtab,fun _ => ⟨rfl,fun _ => ⟨hp0,hpu,hpf,fun t ht ho => ?_⟩⟩,
            fun other => ?_,fun hc => absurd hc Bool.false_ne_true,fun _ _ _ _ => hroom'⟩
          · refine hp (?_ : p ∈ live)
            rwa [hS'.intact.apart p (Set.mem_insert p live) t (Set.mem_insert_of_mem p ht) p (.inl rfl) ho]
          · rw [hS.fileOf_congr (hof' other) hb',hsame,hfalse]
        | true =>
          have hfresh := hfree rfl
          refine ⟨true,p,insert p live,S',heq,hS',htab.trans hTtab,fun hc => absurd hc Bool.false_ne_true.symm,
            fun other => ?_,fun _ => ?_,fun _ _ _ _ _ _ _ => rfl⟩
          · split
            · next hc =>
              rw [System.fileOf,hof,if_pos hc,Option.map_some,hb p (Set.mem_insert p live) h1,hzero]
            · next hc =>
              rw [hS.fileOf_congr ((hof other).trans (if_neg hc)) hb',hsame]
          · rw [← hsame,System.fileOf,hfresh,Option.map_none]

end
end ShellOS.Fs
