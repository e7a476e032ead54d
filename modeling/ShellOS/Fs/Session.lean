import ShellOS.Fs.DirTable
import ShellOS.Fs.Access

/-! The file system between two commands: the root directory names the files, and the open
directory and the open files belong to them. -/
namespace ShellOS.Fs
open CLib SlotTable BlockTree

/-! ### Names -/

/-- A file name that is not a path and does not stand for a directory. -/
structure Ordinary (name : CString) : Prop where
  ne_nil : name ≠ []
  length_le : name.length ≤ nameMax
  no_slash : (47 : UInt8) ∉ name
  no_nul : (0 : UInt8) ∉ name
  ne_dot : name ≠ cstr "."
  ne_dotdot : name ≠ cstr ".."

/-- A string that is neither a path nor stands for a directory; it may be empty, or too long for an entry. -/
structure PlainName (name : CString) : Prop where
  no_slash : (47 : UInt8) ∉ name
  no_nul : (0 : UInt8) ∉ name
  ne_dot : name ≠ cstr "."
  ne_dotdot : name ≠ cstr ".."

theorem Ordinary.plain {name : CString} (h : Ordinary name) : PlainName name :=
  ⟨h.no_slash,h.no_nul,h.ne_dot,h.ne_dotdot⟩

theorem PlainName.ordinary {name : CString} (h : PlainName name) (hv : ¬ (name = [] ∨ nameMax < name.length)) : Ordinary name :=
  ⟨fun hc => hv (.inl hc),not_lt.mp fun hc => hv (.inr hc),h.no_slash,h.no_nul,h.ne_dot,h.ne_dotdot⟩

theorem Ordinary.valid {name : CString} (h : Ordinary name) : ¬ (name = [] ∨ nameMax < name.length) := fun hc =>
  hc.elim h.ne_nil (Nat.not_lt.mpr h.length_le)

theorem pathTokens_noSlash {name : CString} (hne : name ≠ []) (hs : (47 : UInt8) ∉ name) : pathTokens name = [name] := by
  have hj : joinTokens 47 [name] = name := by simp [joinTokens,List.intercalate]
  have ht : Token 47 name := ⟨hne,hs⟩
  have hstr := strtok_joinTokens ht [] []
  rw [hj] at hstr
  obtain ⟨n,hl⟩ := Nat.exists_eq_succ_of_ne_zero fun he => hne (List.length_eq_zero_iff.mp he)
  rw [Fs.pathTokens,hstr,hl]
  change name::tokenLoop 47 n (none,[]) = [name]
  cases n <;> rfl

theorem split_noSlash {name : CString} (hs : (47 : UInt8) ∉ name) : splitPathFilename name = ([],name) := by
  by_cases hne : name = []
  · rw [hne]
    rfl
  have hh : name.head? ≠ some 47 := fun he => hs (List.mem_of_head? he)
  rw [splitPathFilename,pathTokens_noSlash hne hs,if_neg hh]
  rfl

/-! ### The invariant -/

/-- The root directory lists files among `live`, and all of them are plain files. -/
structure Catalog (S : System) (live : Set BlockSector) : Prop where
  intact : Intact S live
  root_mem : rootDirSector ∈ live
  table : DirTable (S.entries rootDirSector) (live \ {rootDirSector})
  ordinary : ∀ name s, entryOf (S.entries rootDirSector) name = some s → Ordinary name
  plain : ∀ s ∈ live, s ≠ rootDirSector → (S.record s).isDir = false

/-- The catalog, with the open root directory `root` and the file table. -/
structure Session (S : System) (live : Set BlockSector) (root : Option Dir) : Prop extends Catalog S live where
  kept : ∀ i ∈ S.openInodes, i.removed = false
  dirs : S.dirs = root.toList
  cwd : S.cwd = root.map Dir.addr
  closed : root = none → ∀ i ∈ S.openInodes, i.sector ≠ rootDirSector
  opened : ∀ d, root = some d → ∃ i ∈ S.openInodes, d.inode = i.addr ∧ i.sector = rootDirSector
  counted : ∀ d, root = some d → 1 ≤ d.openCnt
  fnames : (S.fileTable.map FileTableEntry.fname).Nodup
  files : ∀ e ∈ S.fileTable, ∃ i ∈ S.openInodes, e.f.inode = i.addr ∧
    entryOf (S.entries rootDirSector) e.fname = some i.sector

/-- What the file system stands for: the bytes of the file with a name. -/
def System.fileOf (S : System) (name : CString) : Option (List UInt8) :=
  (entryOf (S.entries rootDirSector) name).map S.bytes

/-- A step that changes no file and no open file. -/
structure Idle (S S' : System) : Prop where
  bytes : ∀ p, S'.bytes p = S.bytes p
  vol : S'.vol = S.vol
  fileTable : S'.fileTable = S.fileTable

section
variable {S S' S'' : System} {live live' : Set BlockSector} {root : Option Dir} {d : Dir} {i j : Inode} {s : BlockSector}
  {name other : CString} {f g : File}

theorem Idle.refl (S : System) : Idle S S := ⟨fun _ => rfl,rfl,rfl⟩

theorem Idle.trans (h : Idle S S') (h' : Idle S' S'') : Idle S S'' :=
  ⟨fun p => (h'.bytes p).trans (h.bytes p),h'.vol.trans h.vol,h'.fileTable.trans h.fileTable⟩

theorem Idle.entries (h : Idle S S') (s : BlockSector) : S'.entries s = S.entries s := by
  rw [System.entries,h.bytes,System.entries]

theorem Idle.fileOf (h : Idle S S') (name : CString) : S'.fileOf name = S.fileOf name := by
  rw [System.fileOf,h.entries,System.fileOf]
  exact congrArg (Option.map · _) (funext h.bytes)

theorem Idle.getFile (h : Idle S S') (name : CString) : S'.getFileByFname name = S.getFileByFname name := by
  rw [System.getFileByFname,h.fileTable,System.getFileByFname]

theorem Intact.addr_inj (h : Intact S live) (hi : i ∈ S.openInodes) (hj : j ∈ S.openInodes) (he : i.addr = j.addr) :
    i = j := by
  have hi' := h.inodeAt_eq hi
  rw [he,h.inodeAt_eq hj] at hi'
  exact (Option.some.inj hi').symm

theorem Intact.sector_inj (h : Intact S live) (hi : i ∈ S.openInodes) (hj : j ∈ S.openInodes)
    (he : i.sector = j.sector) : i = j := Keyed.key_injective h.sectors hi hj he

/-- The catalog after a step that leaves the bytes and kinds of the files as they are. -/
theorem Catalog.of_same (h : Catalog S live) (hint : Intact S' live)
    (hbytes : S'.bytes rootDirSector = S.bytes rootDirSector)
    (hdir : ∀ s ∈ live, s ≠ rootDirSector → (S'.record s).isDir = (S.record s).isDir) : Catalog S' live := by
  have hent : S'.entries rootDirSector = S.entries rootDirSector := by rw [System.entries,hbytes,System.entries]
  exact ⟨hint,h.root_mem,hent ▸ h.table,fun name s he => h.ordinary name s (hent ▸ he),
    fun s hs hne => (hdir s hs hne).trans (h.plain s hs hne)⟩

theorem Session.dirAt (h : Session S live (some d)) : S.dirAt d.addr = some d := by
  rw [System.dirAt,h.dirs]
  exact List.find?_cons_of_pos (decide_eq_true rfl)

theorem Session.openDir (h : Session S live (some d)) : ∃ i, OpenDir S d.addr i ∧ i.sector = rootDirSector := by
  obtain ⟨i,hi,ha,hs⟩ := h.opened d rfl
  exact ⟨i,⟨⟨d,h.dirAt,ha⟩,hi⟩,hs⟩

/-- The inode sector of a file in the file table. -/
theorem Session.table_file (h : Session S live root) (hf : S.getFileByFname name = some f) : ∃ i ∈ S.openInodes,
    f.inode = i.addr ∧ entryOf (S.entries rootDirSector) name = some i.sector ∧ i.sector ∈ live ∧
      i.sector ≠ rootDirSector := by
  obtain ⟨i,hi,ha,he⟩ := h.files _ (System.getFileByFname_mem hf)
  have hl := h.table.entryOf_file he
  exact ⟨i,hi,ha,he,hl.1,hl.2⟩

/-! ### Opening and closing -/

theorem System.mem_inodeOpen (h : j ∈ S.openInodes) : j ∈ (S.inodeOpen s).2.openInodes := by
  unfold System.inodeOpen
  split
  · exact h
  · exact List.mem_cons_of_mem _ h

/-- `inode_open` of a file. -/
theorem Session.inodeOpen (h : Session S live root) (hs : s ∈ live) (hne : s ≠ rootDirSector) :
    ∃ i S', S.inodeOpen s = (i.addr,S') ∧ Session S' live root ∧ i ∈ S'.openInodes ∧ i.sector = s ∧ Idle S S' := by
  obtain ⟨i,S',ho,hint,hi,his,hnew,hrec,hvol,hf⟩ := h.intact.open_frame hs
  have hidle : Idle S S' := ⟨Intact.open_bytes hrec hvol,hvol,hf.fileTable⟩
  have hold : ∀ j ∈ S.openInodes, j ∈ S'.openInodes := fun j hj => by
    have := System.mem_inodeOpen (s := s) hj
    rwa [ho] at this
  have hcat := h.toCatalog.of_same hint (hidle.bytes _) fun p _ _ => by rw [hrec]
  refine ⟨i,S',ho,⟨hcat,fun j hj => ?_,hf.dirs.trans h.dirs,hf.cwd.trans h.cwd,fun hr j hj hjs => ?_,fun d hd => ?_,
    h.counted,hf.fileTable ▸ h.fnames,fun e he => ?_⟩,hi,his,hidle⟩
  · by_cases hjs : j.sector = s
    · obtain rfl := hint.sector_inj hj hi (hjs.trans his.symm)
      exact hnew.elim (h.kept j) And.left
    · exact h.kept j ((hf.opens j hjs).mp hj)
  · exact h.closed hr j ((hf.opens j (hjs ▸ Ne.symm hne)).mp hj) hjs
  · obtain ⟨j,hj,hrest⟩ := h.opened d hd
    exact ⟨j,hold j hj,hrest⟩
  · obtain ⟨j,hj,ha,hent⟩ := h.files e (hf.fileTable ▸ he)
    exact ⟨j,hold j hj,ha,(hidle.entries _).symm ▸ hent⟩

/-- The open root directory changed in place. -/
theorem Session.setDir (h : Session S live (some d)) {d' : Dir} (ha : d'.addr = d.addr) (hi : d'.inode = d.inode)
    (hc : 1 ≤ d'.openCnt) : Session (S.setDir d') live (some d') := by
  refine ⟨h.toCatalog.of_same { h.intact with } rfl fun _ _ _ => rfl,h.kept,?_,h.cwd.trans (congrArg some ha.symm),
    fun hn => absurd hn (Option.some_ne_none _),fun e he => ?_,fun e he => Option.some.inj he ▸ hc,h.fnames,h.files⟩
  · rw [System.setDir,show S.dirs = [d] from h.dirs]
    exact congrArg (fun x => [x]) (if_pos ha.symm)
  · obtain rfl := Option.some.inj he
    obtain ⟨i,hm,hai,hs⟩ := h.opened d rfl
    exact ⟨i,hm,hi.trans hai,hs⟩

/-- The root directory `d` opened once more than `root`. -/
inductive Reopened : Option Dir → Dir → Prop
  | first (addr inode : ℕ) (pos : ℤ) : Reopened none ⟨addr,inode,pos,1⟩
  | again (d : Dir) (h : 1 ≤ d.openCnt) : Reopened (some d) { d with openCnt := d.openCnt + 1 }

/-- The state after the root directory was opened for the first time. -/
def System.rootOpened (S : System) : System :=
  { S.opened rootDirSector with
    dirs := ⟨S.nextAddr + 1,S.nextAddr,entrySize,1⟩::S.dirs
    cwd := some (S.nextAddr + 1)
    nextAddr := S.nextAddr + 2 }

/-- `dir_open_root`. -/
theorem Session.dirOpenRoot (h : Session S live root) :
    ∃ d S', S.dirOpenRoot = some (d.addr,S') ∧ Session S' live (some d) ∧ Reopened root d ∧ Idle S S' ∧
      d.pos = (root.map Dir.pos).getD entrySize := by
  cases root with
  | none =>
    obtain ⟨hopen,hint,hrec⟩ := h.intact.inodeOpen_new h.root_mem (h.closed rfl)
    have hbytes : ∀ p, S.rootOpened.bytes p = S.bytes p := Intact.open_bytes hrec rfl
    have hint' : Intact S.rootOpened live :=
      { hint with past := fun i hi => (hint.past i hi).trans (Nat.lt_succ_self _) }
    have hidle : Idle S S.rootOpened := ⟨hbytes,rfl,rfl⟩
    refine ⟨⟨S.nextAddr + 1,S.nextAddr,entrySize,1⟩,S.rootOpened,?_,⟨h.toCatalog.of_same hint' (hbytes _)
      fun p _ _ => congrArg InodeDisk.isDir (hrec p),fun i hi => ?_,?_,rfl,fun hc => absurd hc (Option.some_ne_none _),
      fun d hd => ?_,fun d hd => Option.some.inj hd ▸ le_refl _,h.fnames,fun e he => ?_⟩,.first _ _ _,hidle,rfl⟩
    · rw [System.dirOpenRoot,show S.cwd = none from h.cwd]
      dsimp only
      rw [hopen]
      rfl
    · cases List.mem_cons.mp hi with
      | inl he => rw [he]
      | inr hi => exact h.kept i hi
    · rw [System.rootOpened,show S.dirs = [] from h.dirs]
      rfl
    · obtain rfl := Option.some.inj hd
      exact ⟨_,List.mem_cons_self,rfl,rfl⟩
    · obtain ⟨j,hj,ha,hent⟩ := h.files e he
      exact ⟨j,List.mem_cons_of_mem _ hj,ha,(hidle.entries _).symm ▸ hent⟩
  | some d =>
    refine ⟨{ d with openCnt := d.openCnt + 1 },S.setDir { d with openCnt := d.openCnt + 1 },?_,
      h.setDir rfl rfl ?_,.again d (h.counted d rfl),⟨fun _ => rfl,rfl,rfl⟩,rfl⟩
    · rw [System.dirOpenRoot,show S.cwd = some d.addr from h.cwd]
      dsimp only
      rw [h.dirAt,Option.map_some]
    · have := h.counted d rfl
      dsimp only
      omega

/-- `inode_close` of an open inode. -/
theorem Catalog.close (h : Catalog S live) (hi : i ∈ S.openInodes) (hr : i.removed = false) :
    S.inodeClose i.addr = some (S.closed i.addr) ∧ Catalog (S.closed i.addr) live ∧ Idle S (S.closed i.addr) := by
  obtain ⟨hc,hint,hbytes,hinfo,-⟩ := h.intact.close_frame hi hr
  exact ⟨hc,h.of_same hint (hbytes _) fun p _ _ => (hinfo p).isDir_eq,hbytes,rfl,rfl⟩

/-- `dir_close` of the root directory. -/
theorem Session.dirClose (h : Session S live (some d)) (hr : Reopened root d) :
    ∃ S', S.dirClose d.addr = some S' ∧ Session S' live root ∧ Idle S S' ∧
      ∀ j ∈ S.openInodes, j.sector ≠ rootDirSector → j ∈ S'.openInodes := by
  have hdir := h.dirAt
  rw [System.dirClose,hdir,Option.bind_some]
  obtain ⟨i,hi,ha,hs⟩ := h.opened d rfl
  cases hr with
  | first addr inode pos =>
    obtain ⟨hc,hcat,hidle⟩ := h.toCatalog.close hi (h.kept i hi)
    have hdirs : S.dirs = [⟨addr,inode,pos,1⟩] := h.dirs
    dsimp only at ha hdir ⊢
    rw [if_pos (sub_self 1),ha,hc,Option.map_some]
    refine ⟨_,rfl,⟨hcat.of_same { hcat.intact with } rfl fun _ _ _ => rfl,fun j hj => ?_,?_,rfl,fun _ j hj => ?_,
      fun d hd => absurd hd.symm (Option.some_ne_none d),
      fun d hd => absurd hd.symm (Option.some_ne_none d),h.fnames,fun e he => ?_⟩,⟨hidle.bytes,rfl,rfl⟩,
      fun j hj hj1 => (h.intact.mem_closed hi).mpr ⟨hj,hs.symm ▸ hj1⟩⟩
    · exact h.kept j ((h.intact.mem_closed hi).mp hj).1
    · change Keyed.remove Dir.addr addr S.dirs = []
      rw [hdirs]
      exact List.filter_cons_of_neg (by simp)
    · exact fun hj1 => ((h.intact.mem_closed hi).mp hj).2 (hj1.trans hs.symm)
    · obtain ⟨j,hj,haj,hent⟩ := h.files e he
      have hj1 : j.sector ≠ i.sector := fun he1 => (h.table.entryOf_file hent).2 (he1.trans hs)
      exact ⟨j,(h.intact.mem_closed hi).mpr ⟨hj,hj1⟩,haj,(hidle.entries _).symm ▸ hent⟩
  | again e he =>
    have hback : { e with openCnt := e.openCnt + 1 - 1 } = e := by rw [add_sub_cancel_right]
    dsimp only
    rw [if_neg (by omega),hback]
    exact ⟨_,rfl,h.setDir rfl rfl he,⟨fun _ => rfl,rfl,rfl⟩,fun _ hj _ => hj⟩

/-! ### The file table -/

theorem System.getFileByFname_none (h : S.getFileByFname name = none) : ∀ e ∈ S.fileTable, e.fname ≠ name := by
  rw [System.getFileByFname,Option.map_eq_none_iff] at h
  exact Keyed.lookup_eq_none.mp h

/-- The file of a table entry changed in place. -/
theorem Session.setFile (h : Session S live root) (hf : S.getFileByFname name = some f) (hg : g.inode = f.inode) :
    Session (S.setFile name g) live root := by
  refine ⟨h.toCatalog.of_same { h.intact with } rfl fun _ _ _ => rfl,h.kept,h.dirs,h.cwd,h.closed,h.opened,h.counted,?_,
    fun e he => ?_⟩
  · exact (@Keyed.map_update FileTableEntry CString _ FileTableEntry.fname ⟨name,g⟩ S.fileTable).symm ▸ h.fnames
  · cases Keyed.mem_update.mp he with
    | inl he => exact h.files e he.1
    | inr he =>
      obtain ⟨i,hi,ha,hent⟩ := h.files _ (System.getFileByFname_mem hf)
      rw [he.1]
      exact ⟨i,hi,hg.trans ha,hent⟩

/-- A file opened under a new name. -/
theorem Session.addToFileTable (h : Session S live root) (hn : S.getFileByFname name = none) (hi : i ∈ S.openInodes)
    (ha : f.inode = i.addr) (he : entryOf (S.entries rootDirSector) name = some i.sector) :
    S.addToFileTable f name = { S with fileTable := S.fileTable ++ [⟨name,f⟩] } ∧
      Session (S.addToFileTable f name) live root ∧ (S.addToFileTable f name).getFileByFname name = some f := by
  have heq : S.addToFileTable f name = { S with fileTable := S.fileTable ++ [⟨name,f⟩] } := by
    rw [System.addToFileTable,hn]
    rfl
  have hnew := System.getFileByFname_none hn
  have hnodup : ((S.fileTable ++ [(⟨name,f⟩ : FileTableEntry)]).map FileTableEntry.fname).Nodup := by
    rw [List.map_append]
    refine h.fnames.append (List.nodup_singleton _) fun c hc hc' => ?_
    obtain ⟨e,hem,rfl⟩ := List.mem_map.mp hc
    exact hnew e hem (List.mem_singleton.mp hc')
  rw [heq]
  refine ⟨rfl,⟨h.toCatalog.of_same { h.intact with } rfl fun _ _ _ => rfl,h.kept,h.dirs,h.cwd,h.closed,h.opened,h.counted,hnodup,
    fun e hem => ?_⟩,?_⟩
  · cases List.mem_append.mp hem with
    | inl hem => exact h.files e hem
    | inr hem =>
      rw [List.mem_singleton.mp hem]
      exact ⟨i,hi,ha,he⟩
  · have hl : Keyed.lookup FileTableEntry.fname name (S.fileTable ++ [(⟨name,f⟩ : FileTableEntry)]) = some ⟨name,f⟩ :=
      (Keyed.lookup_eq_some hnodup).mpr ⟨List.mem_append_right _ List.mem_cons_self,rfl⟩
    exact congrArg (Option.map FileTableEntry.f) hl

/-- `remove_from_file_table`. -/
theorem Session.removeFromFileTable (h : Session S live root) (name : CString) :
    ∃ b S', S.removeFromFileTable name = some (b,S') ∧ Session S' live root ∧ (∀ p, S'.bytes p = S.bytes p) ∧
      S'.vol = S.vol ∧ S'.fileTable = Keyed.remove FileTableEntry.fname name S.fileTable := by
  cases hf : S.getFileByFname name with
  | none =>
    have hnew := System.getFileByFname_none hf
    refine ⟨false,S,by rw [System.removeFromFileTable,hf],h,fun _ => rfl,rfl,?_⟩
    exact (List.filter_eq_self.mpr fun e he => by simpa using hnew e he).symm
  | some f =>
    obtain ⟨i,hi,ha,hent,hl,h1⟩ := h.table_file hf
    obtain ⟨hc,hcat,hidle⟩ := h.toCatalog.close hi (h.kept i hi)
    refine ⟨true,{ S.closed i.addr with fileTable := Keyed.remove FileTableEntry.fname name S.fileTable },?_,
      ⟨hcat.of_same { hcat.intact with } rfl fun _ _ _ => rfl,fun j hj => ?_,h.dirs,h.cwd,fun hr j hj => ?_,fun d hd => ?_,
      h.counted,Keyed.nodup_remove h.fnames,fun e he => ?_⟩,hidle.bytes,rfl,rfl⟩
    · rw [System.removeFromFileTable,hf]
      dsimp only
      rw [ha,hc,Option.map_some]
      rfl
    · exact h.kept j ((h.intact.mem_closed hi).mp hj).1
    · exact h.closed hr j ((h.intact.mem_closed hi).mp hj).1
    · obtain ⟨j,hj,haj,hj1⟩ := h.opened d hd
      exact ⟨j,(h.intact.mem_closed hi).mpr ⟨hj,fun he => h1 (he.symm.trans hj1)⟩,haj,hj1⟩
    · obtain ⟨hem,hne⟩ := Keyed.mem_remove.mp he
      obtain ⟨j,hj,haj,hej⟩ := h.files e hem
      refine ⟨j,(h.intact.mem_closed hi).mpr ⟨hj,fun hs => hne ?_⟩,haj,(hidle.entries _).symm ▸ hej⟩
      exact h.table.entryOf_inj hej (hs ▸ hent)

end
end ShellOS.Fs
