import ShellOS.Fs.NulEnd
import ShellOS.Fs.Machine

/-! Shutting the file system down, with its buffer cache, and starting it again on the same disk. -/
namespace ShellOS.Fs
open CLib SlotTable BlockTree

/-! ### Runs without failed allocations -/

/-- The free sectors suffice for what `fsutil_create` allocates: the inode's sector, the blocks of `inode_create`, and
for a new name those that the directory needs for the entry. -/
def System.CreateAllocates (name : CString) (size : ℤ) (S : System) : Prop :=
  name ≠ [] → name.length < 255 → ∀ D S₁, S.dirOpenRoot = some (D,S₁) → ∃ p v, freeMapAllocate 1 S₁.vol = (some p,v) ∧
    (0 ≤ size → (createDemand size).length ≤ numFreeSectors v) ∧
    ∀ w, Fs.inodeCreate p size false v = (true,w) → name.length ≤ nameMax → S.fileOf name = none →
      ∀ r ∈ S₁.openInodes, r.sector = rootDirSector →
        (writeDemand w r.data 36 (36 * (freeSlot (S.entries rootDirSector) : ℤ))).length ≤ numFreeSectors w

/-- The free sectors suffice for a write at the position of the file. -/
def System.WriteAllocates (name : CString) (size : ℤ) (S : System) : Prop :=
  ∀ f S₁, S.tableFile name = some (some f,S₁) → ∀ i ∈ S₁.openInodes, i.addr = f.inode →
    (writeDemand S₁.vol i.data size f.pos).length ≤ numFreeSectors S₁.vol

/-- The free sectors suffice for `copy_in`. -/
def System.CopyAllocates (name : CString) (contents : List UInt8) (S : System) : Prop :=
  0 < S.copySize contents.length → S.CreateAllocates name (S.copySize contents.length) ∧
    ∀ ok S₁, S.fsutilCreate name (S.copySize contents.length) = some (ok,S₁) →
      S₁.WriteAllocates name (S.copySize contents.length + 1)

/-- The positions in the file table are `int`s. -/
def PosInt (S : System) : Prop := ∀ e ∈ S.fileTable, IsInt e.f.pos

/-- The write does not start before the file, or is refused because it ends beyond the largest one. Any other write
stops the program, since there is no sector to write to. -/
def System.Writable (name : CString) (size : ℤ) (S : System) : Prop :=
  0 ≤ S.position name ∨ 8517120 < S.position name + size

section
variable {S S' T : System} {live : Set BlockSector} {root : Option Dir} {d : Dir} {name : CString} {size offset : ℤ} {ok : Bool}
  {p q : BlockSector} {v w : Volume} {buffer : List UInt8} {n : ℕ} {i : Inode} {f : File}

/-! ### What stays of the free map -/

theorem Session.createFile_kept (h : Session S live (some d)) (hn : PlainName name) (hmin : -2147483648 ≤ size) (hmax : size < 2147483648)
    (hal : freeMapAllocate 1 S.vol = (some p,v)) (hroom : 0 ≤ size → (createDemand size).length ≤ numFreeSectors v)
    (hgrow : ∀ w, Fs.inodeCreate p size false v = (true,w) → name.length ≤ nameMax → S.fileOf name = none →
      ∀ r ∈ S.openInodes, r.sector = rootDirSector →
        (writeDemand w r.data 36 (36 * (freeSlot (S.entries rootDirSector) : ℤ))).length ≤ numFreeSectors w)
    (hr : S.createFile d.addr name size = some (ok,q,S')) : MapKept S.vol S'.vol := by
  have ha := h.intact.allocate hal
  have k₁ : MapKept S.vol v := ha.keeps.mapKept (ha.keeps.same_zero h.intact.ok id)
  rcases lt_or_ge size 0 with hneg | h0
  · have heq : S.createFile d.addr name size = _ := System.createFile_some hal (inodeCreate_neg p false v hneg hmin)
    rw [hr,cond_false] at heq
    obtain ⟨-,hS⟩ := Prod.mk.inj (Prod.mk.inj (Option.some.inj heq)).2
    rw [hS]
    exact k₁
  obtain ⟨ok₁,e,w,hcr,hc,hint,hf,hnew⟩ := h.intact.create_frame ha.spare false h0 hmax
  have k₂ := k₁.trans (hc.keeps.mapKept ((hc.takes ha.ne_zero).same_zero (hroom h0)))
  have heq : S.createFile d.addr name size = _ := System.createFile_some hal hcr
  obtain ⟨T,hT⟩ : ∃ T : System, T = { S with vol := w } := ⟨_,rfl⟩
  have hTvol : T.vol = w := by rw [hT]
  rw [← hT] at hf hnew heq
  rw [← hTvol] at k₂
  rw [hr] at heq
  cases ok₁ with
  | false =>
    rw [cond_false] at heq
    obtain ⟨-,hS⟩ := Prod.mk.inj (Prod.mk.inj (Option.some.inj heq)).2
    rw [hS]
    exact k₂
  | true =>
    rw [cond_true] at heq
    obtain ⟨hint',-⟩ := hnew rfl
    obtain ⟨r,hrd,hrs⟩ := h.openDir
    have hd := hrd.of_frame hf (hrs.symm ▸ h.root_mem)
    have hent : T.entries rootDirSector = S.entries rootDirSector := entries_of_frame hf h.root_mem
    have hlen : 1 ≤ (T.entries r.sector).length := by
      rw [hrs,hent]
      exact h.table.length_pos
    obtain ⟨b,hadd,hb⟩ := Option.map_eq_some_iff.mp heq.symm
    obtain ⟨-,hb⟩ := Prod.mk.inj hb
    obtain ⟨-,rfl⟩ := Prod.mk.inj hb
    by_cases hinv : name = [] ∨ nameMax < name.length
    · have hpres : System.dirAdd d.addr name p T = _ := dirAdd_invalid d.addr p T hinv
      obtain rfl := Option.some.inj (hadd.symm.trans hpres)
      exact k₂
    cases he : (T.entries r.sector)[slotOf name (T.entries r.sector)]? with
    | some e =>
      have hpres : System.dirAdd d.addr name p T = _ := hint'.dirAdd_present hd hlen p he
      obtain rfl := Option.some.inj (hadd.symm.trans hpres)
      exact k₂
    | none =>
      obtain ⟨ok₂,r',S₂,hnewEntry,-,hws,-⟩ := hint'.dirAdd_new hd hlen hinv p he
      obtain rfl := Option.some.inj (hadd.symm.trans hnewEntry)
      rw [hrs,hent] at he hws
      have hno : S.fileOf name = none := by rw [System.fileOf,entryOf_none.mpr he,Option.map_none]
      have hg := hgrow w hcr (hn.ordinary hinv).length_le hno r hrd.mem hrs
      rw [← hTvol] at hg
      exact k₂.trans (hws.keeps.mapKept (hws.takes.same_zero hg))

theorem Session.filesysCreate_kept (h : Session S live none) (hn : PlainName name) (hne : name ≠ []) (hlt : name.length < 255)
    (hmin : -2147483648 ≤ size) (hmax : size < 2147483648) (halloc : S.CreateAllocates name size)
    (hr : S.filesysCreate name size = some (ok,S')) : MapKept S.vol S'.vol := by
  obtain ⟨d,S₁,hopen,h₁,hre,hidle₁,-⟩ := h.dirOpenRoot
  obtain ⟨p,v,hal,hroom,hgrow⟩ := halloc hne hlt d.addr S₁ hopen
  obtain ⟨ok₁,q,live',S₂,hcreate,h₂,-,hfail,-⟩ := h₁.createFile hn hmin hmax
  rw [← hidle₁.fileOf,← hidle₁.entries] at hgrow
  have k₂ := h₁.createFile_kept hn hmin hmax hal hroom hgrow hcreate
  have hname : (splitPathFilename name).2 = name := by rw [split_noSlash hn.no_slash]
  unfold System.filesysCreate at hr
  rw [hopen,Option.bind_some,hname,hcreate,Option.bind_some] at hr
  obtain ⟨S₃,hS₃,h₃,k₃⟩ : ∃ S₃, S₃ = (if !ok₁ && q != 0 then { S₂ with vol := freeMapRelease q 1 S₂.vol } else S₂) ∧
      Session S₃ live' (some d) ∧ MapKept S₂.vol S₃.vol := by
    refine ⟨_,rfl,?_⟩
    split
    · next hc =>
      obtain ⟨hok,hq⟩ := (Bool.and_eq_true_iff).mp hc
      obtain ⟨rfl,hloose⟩ := hfail (by simpa using hok)
      have hl := hloose (by simpa using hq)
      have hrel := Released.one h₂.intact.ok hl.used hl.ne_zero hl.fm
      exact ⟨(h₂.release hl.ne_zero hl.used hl.fm hl.owned).1,hrel.keeps.mapKept (hrel.keeps.same_zero h₂.intact.ok id)⟩
    · exact ⟨h₂,MapKept.refl _⟩
  dsimp only at hr
  rw [← hS₃] at hr
  obtain ⟨S₄,hclose,-,hidle₄,-⟩ := h₃.dirClose hre
  rw [hclose,Option.map_some] at hr
  obtain ⟨-,rfl⟩ := Prod.mk.inj (Option.some.inj hr)
  rw [hidle₄.vol,← hidle₁.vol]
  exact k₂.trans k₃

/-- A write that ends beyond the largest file is refused wherever it starts. -/
theorem inodeWriteAt_beyond (hv : v.Ok) (hf : FileOk v i.data) (buffer buffer' : List UInt8) (hneg : offset < 0)
    (hs : size < 2147483648) (hmax : 8517120 < offset + size) :
    inodeWriteAt i buffer size offset v = inodeWriteAt i buffer' (offset + size) 0 v := by
  have hw : wrap32 (offset + size) = offset + size := wrap32_of_mem (by omega) (by omega)
  have hout : byteToSector v i.data (wrap32 (wrap32 (offset + size) - 1)) = -1 := by
    have hle := hf.sized.le
    rw [hw,wrap32_of_mem (by omega) (by omega),byteToSector,if_neg (by omega)]
  have hext : (inodeExtend (freeMapAllocate 1) i (offset + size) v).1 = false := by
    obtain ⟨ok,-,hok,-⟩ := @inodeReserve_spec v i.data (offset + size) (by omega) hv hf.owns
    have hbig : ¬ bytesToSectors (offset + size) ≤ maxSectors := fun hc =>
      absurd ((bytesToSectors_le_iff (by omega) (by omega)).mp hc) (by omega)
    rw [decide_eq_false hbig,Bool.and_false] at hok
    unfold inodeExtend
    generalize inodeReserve (freeMapAllocate 1) i.data (offset + size) v = r at hok
    obtain ⟨b,e,u⟩ := r
    obtain rfl : b = false := hok
    rfl
  unfold inodeWriteAt inodeWriteAtWith
  rw [zero_add,if_pos hout,hw]
  generalize inodeExtend (freeMapAllocate 1) i (offset + size) v = r at hext
  obtain ⟨b,i',u⟩ := r
  obtain rfl : b = false := hext
  rfl

/-- `file_write` where nothing stops it. -/
theorem Session.fileWrite_kept (h : Session S live root) (hf : S.getFileByFname name = some f) (hup : PosInt S) (buffer : List UInt8)
    (hpos : 0 ≤ f.pos ∨ 8517120 < f.pos + size) (h1 : 1 ≤ size) (hs : size < 2147483648) (hb : size ≤ buffer.length)
    (halloc : ∀ i ∈ S.openInodes, i.addr = f.inode → (writeDemand S.vol i.data size f.pos).length ≤ numFreeSectors S.vol) :
    ∃ m S', S.fileWrite name buffer size = some (m,S') ∧ Session S' live root ∧ PosInt S' ∧ MapKept S.vol S'.vol := by
  obtain ⟨i,hi,ha,-,-,hroot⟩ := h.table_file hf
  have hroom := halloc i hi ha.symm
  have hint := hup _ (System.getFileByFname_mem hf)
  dsimp only at hint
  -- the same write, or one of as many bytes as would be there from the start
  obtain ⟨b,k,o,hw,h0,ho,hk1,hk,hkb,hroom'⟩ : ∃ (b : List UInt8) (k o : ℤ),
      S.writeAt i.addr (System.terminated buffer size) size f.pos = S.writeAt i.addr b k o ∧ 0 ≤ o ∧ o < 2147483648 ∧
      1 ≤ k ∧ k < 2147483648 ∧ k ≤ b.length ∧ (writeDemand S.vol i.data k o).length ≤ numFreeSectors S.vol := by
    rcases lt_or_ge f.pos 0 with hneg | h0
    · have hmax := hpos.resolve_left (not_le.mpr hneg)
      refine ⟨List.replicate (f.pos + size).toNat 0,f.pos + size,0,?_,le_rfl,by decide,by omega,by omega,
        by rw [List.length_replicate]; omega,?_⟩
      · rw [System.writeAt,System.writeAt,h.intact.inodeAt_eq hi,Option.map_some,Option.map_some,
          inodeWriteAt_beyond h.intact.ok (h.intact.openOk hi).file _ _ hneg hs hmax]
      · have hd : writeDemand S.vol i.data (f.pos + size) 0 = writeDemand S.vol i.data size f.pos := by
          rw [writeDemand,writeDemand,zero_add]
        rwa [hd]
    · refine ⟨_,size,f.pos,rfl,h0,hint.2,h1,hs,?_,hroom⟩
      rw [System.terminated,if_pos h1,List.length_set]
      exact hb
  obtain ⟨ok,inode,w,hw',hws,-⟩ := h.intact.write_frame hi b h0 hk1 ho hk hkb
  obtain ⟨ok',S₁,hw'',h₁,htab,-⟩ := h.writeAt hi hroot b h0 ho hk1 hk hkb
  obtain ⟨m,hm⟩ : ∃ m, m = if ok then k else 0 := ⟨_,rfl⟩
  rw [hw',← hm] at hw hw''
  obtain ⟨-,rfl⟩ := Prod.mk.inj (Option.some.inj hw'')
  have hf₁ : (S.changed inode w).getFileByFname name = some f := by
    rw [System.getFileByFname,htab]
    exact hf
  refine ⟨m,(S.changed inode w).setFile name { f with pos := wrap32 (f.pos + (m - 2)) },?_,h₁.setFile hf₁ rfl,fun e he => ?_,?_⟩
  · rw [System.fileWrite,hf,Option.bind_some,ha,hw,Option.map_some]
  · cases Keyed.mem_update.mp he with
    | inl he => exact hup e (htab ▸ he.1)
    | inr he =>
      rw [he.1]
      exact wrap32_range _
  · exact hws.keeps.mapKept (hws.takes.same_zero hroom')

/-- `fsutil_write` where nothing stops it. -/
theorem Session.fsutilWrite_kept (h : Session S live none) (hn : PlainName name) (hup : PosInt S) (hpos : S.Writable name size)
    (h1 : 1 ≤ size) (hs : size < 2147483648) (hb : size ≤ buffer.length) (halloc : S.WriteAllocates name size) :
    ∃ m S', S.fsutilWrite name buffer size = some (m,S') ∧ Session S' live none ∧ PosInt S' ∧ MapKept S.vol S'.vol := by
  cases h.tableFile hn with
  | inl hno =>
    obtain ⟨-,-,S',ht,hS,hidle⟩ := hno
    refine ⟨-1,S',by rw [System.fsutilWrite,ht]; rfl,hS,fun e he => hup e (hidle.fileTable ▸ he),?_⟩
    rw [hidle.vol]
    exact MapKept.refl _
  | inr hin =>
    obtain ⟨f,S₁,ht,h₁,-,hvol,hf,hor⟩ := hin
    have hup₁ : PosInt S₁ := fun e he => by
      rcases hor with rfl | ⟨hz,-,happ⟩
      · exact hup e he
      · rw [happ] at he
        cases List.mem_append.mp he with
        | inl he => exact hup e he
        | inr he =>
          rw [List.mem_singleton.mp he]
          dsimp only
          rw [hz]
          exact ⟨by decide,by decide⟩
    have hposf : S.position name = f.pos := by
      rcases hor with rfl | ⟨hz,hnone,-⟩
      · rw [System.position,hf,Option.map_some,Option.getD_some]
      · rw [System.position,hnone,Option.map_none,Option.getD_none,hz]
    have hroom := halloc f S₁ ht
    rw [System.Writable,hposf] at hpos
    obtain ⟨m,S',hwr,hS,hup',k⟩ := h₁.fileWrite_kept hf hup₁ buffer hpos h1 hs hb hroom
    exact ⟨m,S',by rw [System.fsutilWrite,ht]; exact hwr,hS,hup',hvol ▸ k⟩

end

/-! ### Runs -/

/-- The state between two commands on a device of `n` sectors. -/
structure Mounted (n : ℕ) (S : System) (live : Set BlockSector) : Prop where
  session : Session S live none
  positions : PosInt S
  made : ∃ a, MapMade S.vol a n

section
variable {S S' T : System} {live live' : Set BlockSector} {name : CString} {v w : Volume} {a n : ℕ} {disk : BlockSector → Sector}
  {size : ℤ} {ok : Bool}

theorem MapMade.kept (h : MapMade v a n) (k : MapKept v w) (hw : w.Ok) : MapMade w a n :=
  ⟨hw,by rw [k.file,h.file,k.record],k.bitCnt.trans h.bitCnt,
    fun i hi => (k.high i (k.bitCnt ▸ hi)).trans (h.trimmed i (k.bitCnt ▸ hi))⟩

theorem Mounted.kept (h : Mounted n S live) (hS : Session S' live' none) (hup : PosInt S') (k : MapKept S.vol S'.vol) :
    Mounted n S' live' := by
  obtain ⟨a,ha⟩ := h.made
  exact ⟨hS,hup,a,ha.kept k hS.intact.ok⟩

theorem Mounted.fsutilCreate (h : Mounted n S live) (hn : PlainName name) (hs : IsInt size)
    (halloc : S.CreateAllocates name size) (hr : S.fsutilCreate name size = some (ok,S')) :
    ∃ live', Mounted n S' live' ∧ S'.fileTable = S.fileTable := by
  unfold System.fsutilCreate at hr
  split at hr
  · obtain ⟨-,rfl⟩ := Prod.mk.inj (Option.some.inj hr)
    exact ⟨live,h,rfl⟩
  · next hlen =>
    have hne : name ≠ [] := fun hc => hlen (.inl (List.length_eq_zero_iff.mpr hc))
    obtain ⟨ok',live',T,hcr,hT,htab,-⟩ := h.session.filesysCreate hn hs.1 hs.2
    have k := h.session.filesysCreate_kept hn hne (by omega) hs.1 hs.2 halloc hr
    obtain ⟨-,rfl⟩ := Prod.mk.inj (Option.some.inj (hr.symm.trans hcr))
    exact ⟨live',h.kept hT (fun e he => h.positions e (htab ▸ he)) k,htab⟩

theorem Mounted.fsutilWrite {buffer : List UInt8} {m : ℤ} (h : Mounted n S live) (hn : PlainName name) (hpos : S.Writable name size)
    (h1 : 1 ≤ size) (hs : size < 2147483648) (hb : size ≤ buffer.length) (halloc : S.WriteAllocates name size)
    (hr : S.fsutilWrite name buffer size = some (m,S')) : Mounted n S' live := by
  obtain ⟨m',T,hwr,hT,hup,k⟩ := h.session.fsutilWrite_kept hn h.positions hpos h1 hs hb halloc
  obtain ⟨-,rfl⟩ := Prod.mk.inj (Option.some.inj (hr.symm.trans hwr))
  exact h.kept hT hup k

theorem Mounted.fsutilRm (h : Mounted n S live) (hn : PlainName name) (hr : S.fsutilRm name = some (ok,S')) :
    ∃ live', Mounted n S' live' := by
  obtain ⟨ok',live',T,hrm,hT,htab,-,k,-⟩ := h.session.fsutilRm hn.no_slash
  obtain ⟨-,rfl⟩ := Prod.mk.inj (Option.some.inj (hr.symm.trans hrm))
  refine ⟨live',h.kept hT (fun e he => ?_) k⟩
  rw [htab] at he
  exact h.positions e (Keyed.mem_remove.mp he).1

theorem Mounted.copyIn {contents : List UInt8} {m : ℕ} (h : Mounted n S live) (hn : PlainName name)
    (hpos : S.Writable name (S.copySize contents.length + 1)) (hsize : wrap32 contents.length ≠ 2147483647)
    (halloc : S.CopyAllocates name contents) (hr : S.copyIn name (some contents) = some (m,S')) : ∃ live', Mounted n S' live' := by
  by_cases hle : S.copySize contents.length ≤ 0
  · unfold System.copyIn at hr
    dsimp only at hr
    rw [if_pos hle] at hr
    obtain ⟨-,rfl⟩ := Prod.mk.inj (Option.some.inj hr)
    exact ⟨live,h⟩
  have hclt := System.copySize_succ_lt S hsize
  obtain ⟨hcreate,hwrite⟩ := halloc (by omega)
  obtain ⟨c,hc⟩ := Int.eq_ofNat_of_zero_le (Int.not_le.mp hle).le
  rw [hc] at hcreate hwrite hclt hpos
  rw [System.copyIn_eq name S contents hc (by omega)] at hr
  obtain ⟨r,hcr,hr⟩ := Option.bind_eq_some_iff.mp hr
  obtain ⟨live₁,h₁,htab⟩ := h.fsutilCreate hn ⟨by omega,by omega⟩ hcreate (hcr.trans rfl : S.fsutilCreate name c = some (r.1,r.2))
  have hpos₁ : r.2.Writable name (c + 1) := by
    rw [System.Writable,System.position,System.getFileByFname,htab]
    exact hpos
  have hlen : ((c : ℤ) + 1) ≤ ((copied c contents ++ [0]).length : ℕ) := by
    rw [List.length_append,length_copied,List.length_singleton]
    omega
  unfold System.fill at hr
  obtain ⟨q,hwr,hr⟩ := Option.bind_eq_some_iff.mp hr
  have h₂ := h₁.fsutilWrite hn hpos₁ (by omega) (by omega) hlen (hwrite r.1 r.2 hcr) (hwr.trans rfl : _ = some (q.1,q.2))
  obtain ⟨S₃,hseek,hr⟩ := Option.map_eq_some_iff.mp hr
  obtain ⟨g,hg,rfl⟩ := Option.map_eq_some_iff.mp hseek
  obtain ⟨-,rfl⟩ := Prod.mk.inj hr
  refine ⟨live₁,h₂.session.setFile hg rfl,fun e he => ?_,h₂.made⟩
  cases Keyed.mem_update.mp he with
  | inl he => exact h₂.positions e he.1
  | inr he =>
    rw [he.1]
    exact (⟨by decide,by decide⟩ : IsInt 0)

end

/-- Runs of `fsutil_create`, `fsutil_write`, `copy_in` and `fsutil_rm` on file names from a newly formatted device of
`n` sectors, through the buffer cache, in which no allocation fails. -/
inductive MountRun (n : ℕ) : Machine → Prop
  | start {c M T} (h2 : 2 < n) (hn : n ≤ 4294967296)
      (hmap : (Fs.inodeCreate freeMapSector (byteCnt (n - 1)) false (freeMapInit (c : BufferCache).device n)).1 = true)
      (hT : System.doFormat (System.start c.device n) = some (true,T)) (hboot : Boots true n c M) : MountRun n M
  | create {M name size ok S c} (h : MountRun n M) (hn : PlainName name) (hs : IsInt size) (halloc : M.fs.CreateAllocates name size)
      (hr : M.fs.fsutilCreate name size = some (ok,S)) (hc : Through M.cache M.fs.vol c S.vol) : MountRun n ⟨S,c⟩
  | write {M name buffer size m S c} (h : MountRun n M) (hn : PlainName name) (hpos : M.fs.Writable name size) (h1 : 1 ≤ size)
      (hs : IsInt size) (hb : size ≤ (buffer : List UInt8).length) (halloc : M.fs.WriteAllocates name size)
      (hr : M.fs.fsutilWrite name buffer size = some (m,S)) (hc : Through M.cache M.fs.vol c S.vol) : MountRun n ⟨S,c⟩
  | copyIn {M name host m S c} (h : MountRun n M) (hn : PlainName name)
      (hhost : ∀ contents, host = some contents → wrap32 contents.length ≠ 2147483647 ∧
        M.fs.Writable name (M.fs.copySize contents.length + 1) ∧ M.fs.CopyAllocates name contents)
      (hr : M.fs.copyIn name host = some (m,S)) (hc : Through M.cache M.fs.vol c S.vol) : MountRun n ⟨S,c⟩
  | rm {M name ok S c} (h : MountRun n M) (hn : PlainName name) (hr : M.fs.fsutilRm name = some (ok,S))
      (hc : Through M.cache M.fs.vol c S.vol) : MountRun n ⟨S,c⟩

section
variable {S S' T : System} {M : Machine} {live live' : Set BlockSector} {name : CString} {v w : Volume} {a n : ℕ}
  {disk : BlockSector → Sector}

/-- The file system and its cache agree in every run. -/
theorem MountRun.sees (h : MountRun n M) : Sees M.cache M.fs.vol := by
  induction h with
  | start _ _ _ _ hboot => exact hboot.sees
  | create _ _ _ _ _ hc ih => exact hc.sees ih
  | write _ _ _ _ _ _ _ _ hc ih => exact hc.sees ih
  | copyIn _ _ _ _ hc ih => exact hc.sees ih
  | rm _ _ _ hc ih => exact hc.sees ih

/-! ### Shutting down -/

/-- Every file can be found again from its record on the disk. -/
theorem Intact.onDisk {s : BlockSector} (h : Intact S live) (hs : s ∈ live) :
    FileOk S.vol (S.vol.sectors s) ∧ content S.vol (S.vol.sectors s) = S.bytes s := by
  by_cases hi : ∃ i ∈ S.openInodes, i.sector = s
  · obtain ⟨i,hi,rfl⟩ := hi
    have hback := (h.inode i hi).2.2.2
    rw [System.bytes,System.record_open h.sectors hi]
    exact hback.file (h.openOk hi).file
  · have hrec : S.record s = S.vol.sectors s := System.record_closed fun i hi' he => hi ⟨i,hi',he⟩
    have hfile := h.file s hs
    rw [hrec] at hfile
    exact ⟨hfile,by rw [System.bytes,hrec]⟩

/-- A file system at rest on the same disk has the same bytes in every file. -/
theorem Intact.bytes_atRest {s : BlockSector} (h : Intact S live) (hs : s ∈ live) (hw : w.sectors = S.vol.sectors) (b : ℕ) :
    (System.atRest w b).bytes s = S.bytes s := by
  obtain ⟨hfile,hbytes⟩ := h.onDisk hs
  have hrec : (System.atRest w b).record s = S.vol.sectors s := congrFun hw s
  have hsame : content w (S.vol.sectors s) = content S.vol (S.vol.sectors s) :=
    content_congr hfile.sized.nonneg hfile.sized.le rfl fun i hi =>
      ⟨ptr_congr (fun t _ => congrFun hw t) (dataSlot_level i).le,congrFun hw _⟩
  rw [← hbytes,← hsame,System.bytes,hrec]
  rfl

/-! ### Starting again -/

/-- The free map, the names and the files of a file system found again on the same sectors. -/
theorem Mounted.init {disk : BlockSector → Sector} (h : Mounted n S live) (hdisk : disk = S.vol.sectors) :
    ∃ T, System.filesysInit false disk n = some T ∧ T.vol.freeMap = S.vol.freeMap ∧
      nameList (T.entries rootDirSector) = nameList (S.entries rootDirSector) ∧ ∀ name, T.fileOf name = S.fileOf name := by
  obtain ⟨a,hmade⟩ := h.made
  have hopen := hmade.readBack (u := freeMapInit disk n) hdisk rfl hmade.bitCnt.symm 0
  obtain ⟨w,hw⟩ : ∃ w, w = { freeMapInit disk n with
    freeMap := S.vol.freeMap, freeMapFile := some (mapInode 0 (S.vol.sectors freeMapSector)) } := ⟨_,rfl⟩
  rw [← hw] at hopen
  have hwsec : w.sectors = S.vol.sectors := by
    rw [hw]
    exact hdisk
  have hwmap : w.freeMap = S.vol.freeMap := by rw [hw]
  have hbytes : ∀ s ∈ live, (System.atRest w 1).bytes s = S.bytes s := fun s hs => h.session.intact.bytes_atRest hs hwsec 1
  have hent : (System.atRest w 1).entries rootDirSector = S.entries rootDirSector := by
    rw [System.entries,hbytes _ h.session.root_mem,System.entries]
  refine ⟨System.atRest w 1,?_,hwmap,by rw [hent],fun name => ?_⟩
  · rw [System.filesysInit,if_neg Bool.false_ne_true]
    exact congrArg some hopen
  · exact h.session.fileOf_congr (by rw [hent]) fun p hp _ => hbytes p hp

end
end ShellOS.Fs
