import ShellOS.Fs.WriteCommand

/-! The loops over the root directory: which names they read, and that looking at a file leaves all
files as they were. -/
namespace ShellOS.Fs
open CLib SlotTable BlockTree

/-- A step that changes no file and no position. -/
structure Unmoved (S S' : System) : Prop where
  bytes : ∀ p, S'.bytes p = S.bytes p
  vol : S'.vol = S.vol
  position : ∀ name, S'.position name = S.position name

section
variable {S S' S'' S₀ : System} {live : Set BlockSector} {root : Option Dir} {d : Dir} {i : Inode} {name other : CString}
  {f g : File} {α : Type}

theorem Unmoved.refl (S : System) : Unmoved S S := ⟨fun _ => rfl,rfl,fun _ => rfl⟩

theorem Unmoved.trans (h : Unmoved S S') (h' : Unmoved S' S'') : Unmoved S S'' :=
  ⟨fun p => (h'.bytes p).trans (h.bytes p),h'.vol.trans h.vol,fun name => (h'.position name).trans (h.position name)⟩

theorem Unmoved.entries (h : Unmoved S S') (s : BlockSector) : S'.entries s = S.entries s := by
  rw [System.entries,h.bytes,System.entries]

theorem Unmoved.fileOf (h : Unmoved S S') (name : CString) : S'.fileOf name = S.fileOf name := by
  rw [System.fileOf,h.entries,System.fileOf]
  exact congrArg (Option.map · _) (funext h.bytes)

theorem Idle.unmoved (h : Idle S S') : Unmoved S S' :=
  ⟨h.bytes,h.vol,fun name => by rw [System.position,h.getFile,System.position]⟩

/-! ### The directory -/

/-- `dir_readdir` of the root directory. -/
theorem Session.dirReaddir (h : Session S live (some d)) {k : ℕ} (hk : k ≤ (S.entries rootDirSector).length) (hp : d.pos = 36 * k) :
    ∃ pos : ℤ, Session (S.setDir { d with pos := pos }) live (some { d with pos := pos }) ∧
      match (S.entries rootDirSector)[scan DirEntry.inUse (S.entries rootDirSector) k]? with
      | none => S.dirReaddir d.addr = some (none,S.setDir { d with pos := pos })
      | some e => S.dirReaddir d.addr = some (some e.cname,S.setDir { d with pos := pos }) ∧
          pos = 36 * (scan DirEntry.inUse (S.entries rootDirSector) k + 1 : ℕ) := by
  obtain ⟨i,hi,ha,hs⟩ := h.opened d rfl
  obtain ⟨pos,hread⟩ := h.intact.dirReaddir hi h.dirAt ha (hs ▸ hk) hp
  rw [hs] at hread
  exact ⟨pos,h.setDir rfl rfl (h.counted d rfl),hread⟩

section
variable {addr n : ℕ} {acc acc' : α} {body : CString → α → System → Option (Bool × α × System)} {l : Listing α}

theorem readdirLoop_none (h : S.dirReaddir addr = some (none,S')) :
    S.readdirLoop addr body (n + 1) acc = some (⟨[],true,acc⟩,S') := by
  rw [System.readdirLoop,h]
  rfl

theorem readdirLoop_some (h : S.dirReaddir addr = some (some name,S')) (hb : body name acc S' = some (true,acc',S''))
    (hloop : S''.readdirLoop addr body n acc' = some (l,S₀)) :
    S.readdirLoop addr body (n + 1) acc = some (⟨name::l.seen,l.complete,l.acc⟩,S₀) := by
  rw [System.readdirLoop,h,Option.bind_some]
  dsimp only
  rw [hb,Option.bind_some,if_pos rfl,hloop]
  rfl

end

/-- The operations of a loop over the root directory do the same to `g S` as to a state `S` of the loop. -/
structure Alike (S₀ : System) (live : Set BlockSector) (g : System → System) : Prop where
  dirOpenRoot : ∀ D S', S₀.dirOpenRoot = some (D,S') → (g S₀).dirOpenRoot = some (D,g S')
  dirAt : ∀ S D, (g S).dirAt D = S.dirAt D
  inodeAt : ∀ S addr, (g S).inodeAt addr = S.inodeAt addr
  dirReaddir : ∀ S d (k : ℕ) r S', Session S live (some d) → Unmoved S₀ S → k ≤ (S.entries rootDirSector).length → d.pos = 36 * k →
    S.dirReaddir d.addr = some (r,S') → (g S).dirReaddir d.addr = some (r,g S')
  dirClose : ∀ S d S', Session S live (some d) → S.dirClose d.addr = some S' → (g S).dirClose d.addr = some (g S')

theorem Alike.id (S₀ : System) (live : Set BlockSector) : Alike S₀ live fun S => S :=
  ⟨fun _ _ h => h,fun _ _ => rfl,fun _ _ => rfl,fun _ _ _ _ _ _ _ _ _ h => h,fun _ _ _ _ h => h⟩

/-- The loop, for a body that looks at a file and computes `f` from it. -/
theorem Session.readdirLoop {g : System → System} {f : CString → α → α} {body : CString → α → System → Option (Bool × α × System)}
    (hg : Alike S₀ live g) (hbody : ∀ name ∈ nameList (S₀.entries rootDirSector), ∀ acc S d, Session S live (some d) → Unmoved S₀ S →
      ∃ S', body name acc (g S) = some (true,f name acc,g S') ∧ Session S' live (some d) ∧ Unmoved S₀ S') :
    ∀ (n k : ℕ) (acc : α) (S : System) (d : Dir), (S₀.entries rootDirSector).length < n + k → 1 ≤ k →
      k ≤ (S₀.entries rootDirSector).length → d.pos = 36 * k → Session S live (some d) → Unmoved S₀ S →
      ∃ pos S', (g S).readdirLoop d.addr body n acc =
          some (⟨keys DirEntry.inUse DirEntry.cname (S₀.entries rootDirSector) k,true,
            (keys DirEntry.inUse DirEntry.cname (S₀.entries rootDirSector) k).foldl (fun acc name => f name acc) acc⟩,g S') ∧
        Session S' live (some { d with pos := pos }) ∧ Unmoved S₀ S' := by
  intro n
  induction n with
  | zero => exact fun k acc S d hn _ hk => absurd hk (by omega)
  | succ n ih =>
    intro k acc S d hn h1 hk hp h hu
    have hent := hu.entries rootDirSector
    have hview := hg.dirReaddir S d k
    obtain ⟨pos,hset,hread⟩ := h.dirReaddir (hent ▸ hk) hp
    have hu' : Unmoved S₀ (S.setDir { d with pos := pos }) := ⟨hu.bytes,hu.vol,hu.position⟩
    have hkeys := keys_scan DirEntry.inUse DirEntry.cname (S₀.entries rootDirSector) k
    rw [hent] at hread
    have hge : k ≤ scan DirEntry.inUse (S₀.entries rootDirSector) k := le_scan
    generalize hm : scan DirEntry.inUse (S₀.entries rootDirSector) k = m at hread hkeys hge
    cases he : (S₀.entries rootDirSector)[m]? with
    | none =>
      rw [he] at hread hkeys
      rw [hkeys]
      exact ⟨pos,_,readdirLoop_none (hview _ _ h hu (hent ▸ hk) hp hread),hset,hu'⟩
    | some e =>
      rw [he] at hread hkeys
      obtain ⟨hread,hpos⟩ := hread
      have hlt := (List.getElem?_eq_some_iff.mp he).1
      have hused : e.inUse = true := scan_hit (hm ▸ he)
      have hname : e.cname ∈ nameList (S₀.entries rootDirSector) := by
        rw [nameList,mem_keys]
        exact ⟨m,e,by omega,he,hused,rfl⟩
      obtain ⟨S₂,hb,h₂,hu₂⟩ := hbody e.cname hname acc _ _ hset hu'
      obtain ⟨pos',S₃,hloop,h₃,hu₃⟩ := ih (m + 1) (f e.cname acc) S₂ _ (by omega) (by omega) hlt hpos h₂ hu₂
      have hstep := readdirLoop_some (hview _ _ h hu (hent ▸ hk) hp hread) hb hloop
      rw [hkeys]
      dsimp only
      rw [List.foldl_cons]
      exact ⟨pos',S₃,hstep,h₃,hu₃⟩

/-- The loop over the root directory reads every name once, in the order of the slots. -/
theorem Session.overRoot_alike {g : System → System} {f : CString → α → α} {body : CString → α → System → Option (Bool × α × System)}
    (h : Session S₀ live none) (hg : Alike S₀ live g) (acc : α) (hbody : ∀ name ∈ nameList (S₀.entries rootDirSector), ∀ acc S d,
      Session S live (some d) → Unmoved S₀ S →
        ∃ S', body name acc (g S) = some (true,f name acc,g S') ∧ Session S' live (some d) ∧ Unmoved S₀ S') :
    ∃ S', (g S₀).overRoot body acc = some (⟨nameList (S₀.entries rootDirSector),true,
        (nameList (S₀.entries rootDirSector)).foldl (fun acc name => f name acc) acc⟩,g S') ∧
      Session S' live none ∧ Unmoved S₀ S' := by
  obtain ⟨d,S₁,hopen,h₁,hre,hidle,hpos⟩ := h.dirOpenRoot
  obtain ⟨i,hi,ha,hs⟩ := h₁.opened d rfl
  have hlen : (S₀.entries rootDirSector).length = i.data.length.toNat / 36 := by
    rw [← hidle.entries,System.entries,length_slots,← hs,h₁.intact.length_bytes hi]
  obtain ⟨pos,S₂,hloop,h₂,hu₂⟩ := Session.readdirLoop hg hbody (entryRounds i.data) 1 acc S₁ d
    (by rw [entryRounds,hlen]; omega) (le_refl _) h.table.length_pos hpos h₁ hidle.unmoved
  have hre' : Reopened none { d with pos := pos } := by
    cases hre
    exact .first _ _ _
  obtain ⟨S₃,hclose,h₃,hidle₃,-⟩ := h₂.dirClose hre'
  refine ⟨S₃,?_,h₃,hu₂.trans hidle₃.unmoved⟩
  have hclose' := hg.dirClose _ _ _ h₂ hclose
  rw [System.overRoot,hg.dirOpenRoot _ _ hopen,Option.bind_some]
  dsimp only
  rw [hg.dirAt,h₁.dirAt,Option.bind_some,ha,hg.inodeAt,h₁.intact.inodeAt_eq hi,Option.bind_some,hloop,Option.bind_some]
  dsimp only at hclose' ⊢
  rw [if_pos rfl,hclose']
  rfl

theorem Session.overRoot {f : CString → α → α} {body : CString → α → System → Option (Bool × α × System)}
    (h : Session S₀ live none) (acc : α) (hbody : ∀ name ∈ nameList (S₀.entries rootDirSector), ∀ acc S d, Session S live (some d) →
      Unmoved S₀ S → ∃ S', body name acc S = some (true,f name acc,S') ∧ Session S' live (some d) ∧ Unmoved S₀ S') :
    ∃ S', S₀.overRoot body acc = some (⟨nameList (S₀.entries rootDirSector),true,
        (nameList (S₀.entries rootDirSector)).foldl (fun acc name => f name acc) acc⟩,S') ∧
      Session S' live none ∧ Unmoved S₀ S' :=
  h.overRoot_alike (Alike.id S₀ live) acc hbody

/-- The names of the files, each once. -/
theorem Session.names (h : Session S live root) : (nameList (S.entries rootDirSector)).Nodup ∧
    ∀ name, name ∈ nameList (S.entries rootDirSector) ↔ ∃ b, S.fileOf name = some b := by
  refine ⟨h.table.nodup_names,fun name => ?_⟩
  rw [h.table.mem_names,← Option.isSome_iff_exists,System.fileOf,Option.isSome_map]

/-! ### Looking at a file -/

theorem Session.setFile_self (h : Session S live root) (hf : S.getFileByFname name = some f) : S.setFile name f = S := by
  have hself : Keyed.update FileTableEntry.fname ⟨name,f⟩ S.fileTable = S.fileTable :=
    Keyed.update_self h.fnames (System.getFileByFname_mem hf)
  rw [System.setFile,hself]

theorem setFile_setFile (S : System) (name : CString) (f g : File) : (S.setFile name f).setFile name g = S.setFile name g := by
  have hupd : Keyed.update FileTableEntry.fname ⟨name,g⟩ (Keyed.update FileTableEntry.fname ⟨name,f⟩ S.fileTable) =
      Keyed.update FileTableEntry.fname ⟨name,g⟩ S.fileTable := Keyed.update_update rfl
  rw [System.setFile,System.setFile,System.setFile]
  dsimp only
  rw [hupd]

/-- The file of a name in the directory. Opening it is not seen. -/
theorem Session.openFile (h : Session S live root) {s : BlockSector} (hs : entryOf (S.entries rootDirSector) name = some s) :
    ∃ f i S', S.tableFile name = some (some f,S') ∧ Session S' live root ∧ Unmoved S S' ∧ S'.getFileByFname name = some f ∧
      i ∈ S'.openInodes ∧ f.inode = i.addr ∧ i.sector = s := by
  cases h.tableFile (h.ordinary name s hs).plain with
  | inl hno =>
    rw [System.fileOf,hs] at hno
    exact absurd hno.1 (Option.some_ne_none _)
  | inr htab =>
    obtain ⟨f,S',htab,h',hbytes,hvol,hf,hor⟩ := htab
    obtain ⟨i,hi,ha,he,-,-⟩ := h'.table_file hf
    have hent : S'.entries rootDirSector = S.entries rootDirSector := by rw [System.entries,hbytes,System.entries]
    refine ⟨f,i,S',htab,h',⟨hbytes,hvol,fun other => ?_⟩,hf,hi,ha,Option.some.inj (he.symm.trans (hent ▸ hs))⟩
    rcases hor with rfl | ⟨hz,hnone,happ⟩
    · rfl
    · by_cases hc : other = name
      · rw [hc,System.position,System.position,hf,hnone,Option.map_some,hz]
        rfl
      · have hother : S'.getFileByFname other = S.getFileByFname other := by
          rw [System.getFileByFname,System.getFileByFname,happ,Keyed.lookup,List.find?_append,
            List.find?_cons_of_neg (by simpa using Ne.symm hc),List.find?_nil,Option.or_none]
          rfl
        rw [System.position,hother,System.position]

/-- `fsutil_size` of a file in the table. -/
theorem Session.fsutilSize (h : Session S live root) {s : BlockSector} (hs : entryOf (S.entries rootDirSector) name = some s) :
    ∃ f i S', S.fsutilSize name = some (((S.bytes s).length : ℤ),S') ∧ Session S' live root ∧ Unmoved S S' ∧
      S'.getFileByFname name = some f ∧ i ∈ S'.openInodes ∧ f.inode = i.addr ∧ i.sector = s := by
  obtain ⟨f,i,S',htab,h',hu,hf,hi,ha,his⟩ := h.openFile hs
  refine ⟨f,i,S',?_,h',hu,hf,hi,ha,his⟩
  have hlen : i.data.length = ((S.bytes s).length : ℤ) := by
    have hnn := (h'.intact.openOk hi).file.sized.nonneg
    rw [← hu.bytes,← his,h'.intact.length_bytes hi]
    omega
  have hseek : S'.fileSeek name f.pos = some S' := by
    rw [System.fileSeek,hf,Option.map_some]
    exact congrArg some (h'.setFile_self hf)
  rw [System.fsutilSize,htab,Option.bind_some]
  dsimp only
  rw [System.fileLength,ha,h'.intact.inodeAt_eq hi,Option.map_some,Option.bind_some,hseek,Option.map_some,hlen]

/-- Looking at a file from its start, with its position set back at the end. -/
theorem Session.visit {use : File → ℤ → α → System → Option (α × System)} {acc acc' : α} (h : Session S live root)
    {s : BlockSector} (hs : entryOf (S.entries rootDirSector) name = some s)
    (huse : ∀ f i S₁, Session S₁ live root → (∀ p, S₁.bytes p = S.bytes p) → S₁.vol = S.vol →
      S₁.getFileByFname name = some { f with pos := 0 } → i ∈ S₁.openInodes → f.inode = i.addr → i.sector = s →
      ∃ pos : ℤ, use f (S.bytes s).length acc S₁ = some (acc',S₁.setFile name { f with pos := pos })) :
    ∃ S', System.visit use name acc S = some (true,acc',S') ∧ Session S' live root ∧ Unmoved S S' := by
  obtain ⟨f,i,S₁,hsize,h₁,hu,hf,hi,ha,his⟩ := h.fsutilSize hs
  have h₂ : Session (S₁.setFile name { f with pos := 0 }) live root := h₁.setFile hf rfl
  have hf₂ : (S₁.setFile name { f with pos := 0 }).getFileByFname name = some { f with pos := 0 } :=
    System.getFileByFname_setFile hf
  obtain ⟨pos,huse⟩ := huse f i _ h₂ hu.bytes hu.vol hf₂ hi ha his
  refine ⟨S₁,?_,h₁,hu⟩
  have hstart : S₁.fileSeek name 0 = some (S₁.setFile name { f with pos := 0 }) := by
    rw [System.fileSeek,hf,Option.map_some]
  have hback : (S₁.setFile name { f with pos := pos }).fileSeek name f.pos = some S₁ := by
    rw [System.fileSeek,System.getFileByFname_setFile hf,Option.map_some,setFile_setFile]
    exact congrArg some (h₁.setFile_self hf)
  rw [setFile_setFile] at huse
  rw [System.visit,hsize,Option.bind_some]
  dsimp only
  rw [if_neg (by omega),hf,Option.bind_some,hstart,Option.bind_some,huse,Option.bind_some]
  dsimp only
  rw [hback,Option.map_some]

/-- `fsutil_read` of a whole file from its start. -/
theorem Session.fsutilRead (h : Session S live root) (hf : S.getFileByFname name = some { f with pos := 0 })
    (hi : i ∈ S.openInodes) (ha : f.inode = i.addr) : ∃ pos : ℤ,
      S.fsutilRead name (S.bytes i.sector).length = some (some (S.bytes i.sector),S.setFile name { f with pos := pos }) := by
  have hread : S.readAt i.addr (S.bytes i.sector).length 0 = _ := h.intact.readAt hi (le_refl 0) (by decide)
  rw [Int.toNat_zero,List.drop_zero,Int.toNat_natCast,List.take_length] at hread
  refine ⟨wrap32 (0 + (S.bytes i.sector).length),?_⟩
  rw [System.fsutilRead,System.tableFile_eq hf,Option.bind_some]
  dsimp only
  rw [System.fileRead,hf,Option.bind_some]
  dsimp only
  rw [ha,hread,Option.map_some,Option.map_some]

end
end ShellOS.Fs
