import ShellOS.Fs.Session
import ShellOS.Fs.Capacity

/-! A formatted device: the free map and the root directory have their files, and nothing else does. -/
namespace ShellOS.Fs
open CLib SlotTable BlockTree

section
variable {disk : BlockSector → Sector} {n : ℕ} {v w : Volume} {d : InodeDisk} {S T : System}

/-- A system in which at most the free-map file is open. -/
def System.atRest (v : Volume) (nextAddr : ℕ) : System where
  vol := v
  openInodes := []
  dirs := []
  cwd := none
  fileTable := []
  nextAddr := nextAddr

/-- The free-map file as it is open in memory. -/
def mapInode (addr : ℕ) (d : InodeDisk) : Inode := ⟨addr,freeMapSector,1,false,0,d⟩

/-- The free map of a new device has the two fixed sectors. -/
theorem test_freeMapInit (h : 2 < n) (i : ℕ) : (freeMapInit disk n).freeMap.bitmapTest i = (decide (i = 1) || decide (i = 0)) := by
  have h0 : (0 : BlockSector).toNat = 0 := rfl
  have h1 : (1 : BlockSector).toNat = 1 := rfl
  have hb : (Bitmap.bitmapCreate (n-1)).bitCnt = n - 1 := rfl
  unfold freeMapInit freeMapSector rootDirSector
  dsimp only
  rw [h0,h1,Bitmap.test_mark _ _ (by rw [Bitmap.mark_bitCnt,hb]; omega),Bitmap.test_mark _ _ (by rw [hb]; omega),
    Bitmap.test_create,Bool.or_false]

theorem freeMapInit_trimmed (h : 2 < n) : (freeMapInit disk n).freeMap.Trimmed := by
  intro i hi
  have hcnt : (freeMapInit disk n).freeMap.bitCnt = n - 1 := rfl
  rw [hcnt] at hi
  rw [test_freeMapInit h,decide_eq_false (by omega),decide_eq_false (by omega)]
  rfl

theorem freeMapInit_used (h : 2 < n) {s : BlockSector} (hs : s = freeMapSector ∨ s = rootDirSector) :
    Used (freeMapInit disk n) s := by
  have hcnt : (freeMapInit disk n).freeMap.bitCnt = n - 1 := rfl
  unfold Used
  rw [hcnt,test_freeMapInit h]
  rcases hs with rfl | rfl
  · exact ⟨show 0 < n - 1 by omega,rfl⟩
  · exact ⟨show 1 < n - 1 by omega,rfl⟩

theorem numFreeSectors_init (h : 2 < n) : numFreeSectors (freeMapInit disk n) = n - 3 := by
  have hclear : (freeMapInit disk n).freeMap.clearBits = Finset.Ico 2 (n - 1) := by
    ext i
    rw [Bitmap.mem_clearBits,test_freeMapInit h,Finset.mem_Ico,show (freeMapInit disk n).freeMap.bitCnt = n - 1 from rfl,
      Bool.or_eq_false_iff,decide_eq_false_iff_not,decide_eq_false_iff_not]
    omega
  rw [numFreeSectors,Bitmap.count_clear,hclear,Nat.card_Ico]
  omega

/-- The sectors that `inode_create` took when there were enough. -/
theorem inodeCreate_count {sector : BlockSector} {length : ℤ} {isDir : Bool} (hv : v.Ok) (h0 : 0 ≤ length)
    (hmax : length < 2147483648) (hroom : (createDemand length).length ≤ numFreeSectors v) :
    numFreeSectors (inodeCreate sector length isDir v).2 + (createDemand length).length = numFreeSectors v := by
  have hno : ∀ k < 125, Sector.word (InodeDisk.create length isDir) k = 0 :=
    fun k hk => InodeDisk.word_create length isDir hk
  have hT : ptr v (InodeDisk.create length isDir) = fun _ => 0 := funext (ptr_of_no_blocks hno)
  obtain ⟨ok,hres,-,-⟩ := inodeReserve_spec (d := InodeDisk.create length isDir) h0 hv (owns_of_no_blocks hno)
  have htakes : Takes (createDemand length) v _ ok := hT ▸ hres.takes
  unfold Takes at htakes
  rw [inodeCreate,inodeAllocate,InodeDisk.length_create isDir (by omega) hmax]
  generalize inodeReserve (freeMapAllocate 1) (InodeDisk.create length isDir) length v = r at htakes ⊢
  rw [if_pos hroom] at htakes
  obtain ⟨b,d,u⟩ := r
  cases b with
  | false => exact htakes.2.1
  | true => exact htakes.2.1

/-- What `free_map_create` made. -/
structure MapMade (v : Volume) (addr n : ℕ) : Prop where
  ok : v.Ok
  file : v.freeMapFile = some (mapInode addr (v.sectors freeMapSector))
  bitCnt : v.freeMap.bitCnt = n - 1
  trimmed : v.freeMap.Trimmed

/-- The free-map file made on a new device can be written once it is open. -/
theorem FileOk.mapReady {fm : Inode} (hf : FileOk v d) (hd : fm.data = d) (hdeny : fm.denyWriteCnt = 0)
    (hl : d.length = byteCnt v.freeMap.bitCnt) (hsec : w.sectors = v.sectors) (hmap : w.freeMap = v.freeMap) :
    FmReady w fm := by
  have hblk : ∀ s, IsBlock v d s → w.sectors s = v.sectors s := fun s _ => by rw [hsec]
  subst hd
  refine ⟨hdeny,by rw [hmap]; exact hl,hf.owns.distinct.congr hblk,hf.sized.congr hblk,fun t ht h0 => ?_⟩
  rw [ptr_congr hblk ht] at h0 ⊢
  unfold Used
  rw [hmap]
  exact hf.owns.used t (treeShape_ne_absent.mpr ht) h0

/-- The free-map file opened when nothing is open. -/
theorem System.adopt_atRest (h : v.freeMapFile = none) (addr : ℕ) :
    ((System.atRest v addr).inodeOpen freeMapSector).2.adoptFreeMapFile ((System.atRest v addr).inodeOpen freeMapSector).1 =
      System.atRest { v with freeMapFile := some (mapInode addr (v.sectors freeMapSector)) } (addr + 1) := by
  have hopen : (System.atRest v addr).inodeOpen freeMapSector = (addr,
      { System.atRest v addr with openInodes := [mapInode addr (v.sectors freeMapSector)], nextAddr := addr + 1 }) := by
    have hnone : Keyed.lookup Inode.sector freeMapSector (System.atRest v addr).inodes = none := by
      rw [System.inodes,show (System.atRest v addr).vol.freeMapFile = none from h]
      rfl
    rw [System.inodeOpen,hnone]
    rfl
  rw [hopen]
  have hat : System.inodeAt addr { System.atRest v addr with openInodes := [mapInode addr (v.sectors freeMapSector)], nextAddr := addr + 1 } =
      some (mapInode addr (v.sectors freeMapSector)) := by
    rw [System.inodeAt,Keyed.lookup]
    exact List.find?_cons_of_pos (decide_eq_true rfl)
  have hrem : Keyed.remove Inode.addr addr [mapInode addr (v.sectors freeMapSector)] = [] :=
    List.filter_cons_of_neg (by simp [mapInode])
  rw [System.adoptFreeMapFile,hat,hrem]
  rfl

theorem byteCnt_lt (h : n ≤ 4294967296) : (byteCnt (n - 1) : ℤ) < 2147483648 := by
  unfold byteCnt elemCnt elemBits
  omega

/-- `free_map_create` on a new device, if its file could be made. -/
theorem freeMapCreate_made (h : 2 < n) (h' : n ≤ 4294967296)
    (hok : (inodeCreate freeMapSector (byteCnt (n - 1)) false (freeMapInit disk n)).1 = true) :
    ∃ v, (System.start disk n).freeMapCreate = System.atRest v 1 ∧ MapMade v 0 n ∧ Used v rootDirSector ∧
      ¬ FmNode v rootDirSector ∧
      v.freeMap = (inodeCreate freeMapSector (byteCnt (n - 1)) false (freeMapInit disk n)).2.freeMap := by
  have hv := @freeMapInit_ok disk n h h'
  have hno : ∀ s, ¬ FmNode (freeMapInit disk n) s := fun s hs => by
    obtain ⟨-,fm,hfm,-⟩ := hs
    cases hfm
  obtain ⟨d,hc⟩ := @inodeCreate_spec _ freeMapSector (byteCnt (n - 1)) false hv (hno _) (by omega) (byteCnt_lt h')
  have hstart : (System.start disk n).vol = freeMapInit disk n := rfl
  have hbit : (freeMapInit disk n).freeMap.bitCnt = n - 1 := rfl
  have htrim := @freeMapInit_trimmed disk n h
  have hu0 := @freeMapInit_used disk n h freeMapSector (.inl rfl)
  have hu1 := @freeMapInit_used disk n h rootDirSector (.inr rfl)
  have hnone : (freeMapInit disk n).freeMapFile = none := rfl
  rw [System.freeMapCreate,hstart,hbit]
  generalize freeMapInit disk n = v₀ at *
  generalize inodeCreate freeMapSector (byteCnt (n - 1)) false v₀ = r at hc hok ⊢
  obtain ⟨ok,v₁⟩ := r
  dsimp only at hok hc ⊢
  subst hok
  have hd : v₁.sectors freeMapSector = d := hc.record rfl
  have hfile := hc.file rfl hu0
  have hnone₁ : v₁.freeMapFile = none := hc.keeps.file.trans hnone
  have hrest : { System.start disk n with vol := System.ignoreResult (true,v₁) } = System.atRest v₁ 0 := rfl
  rw [hrest,System.adopt_atRest hnone₁,hd]
  obtain ⟨v₂,hv₂⟩ : ∃ v₂, v₂ = { v₁ with freeMapFile := some (mapInode 0 d) } := ⟨_,rfl⟩
  have hmap₂ : v₂.freeMap = v₁.freeMap := by rw [hv₂]
  have hsec₂ : v₂.sectors = v₁.sectors := by rw [hv₂]
  have hfm₂ : v₂.freeMapFile = some (mapInode 0 d) := by rw [hv₂]
  have hlen : d.length = byteCnt v₁.freeMap.bitCnt := by
    rw [hc.info.length_eq,InodeDisk.length_create _ (by omega) (byteCnt_lt h'),hc.keeps.bitCnt,hbit]
  have hready := hfile.mapReady (show (mapInode 0 d).data = d from rfl) rfl hlen hsec₂ hmap₂
  have hu0₂ : Used v₂ 0 := by
    unfold Used
    rw [hmap₂]
    exact hc.used _ hu0
  have hbit₂ : v₂.freeMap.bitCnt = n - 1 := by rw [hmap₂,hc.keeps.bitCnt,hbit]
  obtain ⟨w,hw,hwmap,hwfile,-,hwsame,hwptr,hwok⟩ := bitmapWriteWith_ok (freeMapAllocate 1) (by omega) hu0₂ hfm₂ hready
  have hvol : System.ignoreResult (bitmapWrite (System.atRest v₂ 1).vol) = w := by
    rw [System.ignoreResult_eq]
    exact congrArg Prod.snd hw
  have h0leaf : ¬ FmLeaf v₂ freeMapSector := by
    rintro ⟨fm,hf,i,hi,he⟩
    rw [hfm₂] at hf
    obtain rfl := Option.some.inj hf
    exact hready.leaf_ne_zero hi he
  have hw0 : w.sectors freeMapSector = d := by rw [(hwsame _ h0leaf).1,hsec₂,hd]
  rw [← hv₂]
  refine ⟨w,?_,⟨hwok,by rw [hwfile,hfm₂,hw0],by rw [hwmap,hbit₂],fun i hi => ?_⟩,?_,?_,hwmap.trans hmap₂⟩
  · rw [hvol]
    rfl
  · rw [hwmap,hbit₂] at hi
    rw [hwmap,hmap₂,hc.keeps.high i (by omega)]
    exact htrim i (by omega)
  · unfold Used
    rw [hwmap,hmap₂]
    exact hc.used _ hu1
  · rintro ⟨h1,fm,hf,t,ht,he⟩
    rw [hwfile,hfm₂] at hf
    obtain rfl := Option.some.inj hf
    rw [hwptr t ht,ptr_congr (v := v₁) (fun s _ => by rw [hsec₂]) ht] at he
    have hfresh := hc.fresh rfl hu0 t (treeShape_ne_absent.mpr ht) (he ▸ h1)
    exact hu1.not_free (he ▸ hfresh.1)

theorem MapMade.keeps {a : ℕ} {X : BlockSector → Prop} (h : MapMade v a n) (k : Keeps v w X)
    (h0 : w.sectors freeMapSector = v.sectors freeMapSector) : MapMade w a n := by
  refine ⟨k.ok,by rw [k.file,h.file,h0],k.bitCnt.trans h.bitCnt,fun i hi => ?_⟩
  rw [k.bitCnt] at hi
  rw [k.high i hi]
  exact h.trimmed i hi

/-- Nothing but the free map is in use. -/
theorem MapMade.intact {a b : ℕ} (h : MapMade v a n) (hab : a < b) : Intact (System.atRest v b) ∅ := by
  have hin : (System.atRest v b).inodes = [mapInode a (v.sectors freeMapSector)] := by
    rw [System.inodes,show (System.atRest v b).vol.freeMapFile = _ from h.file]
    rfl
  refine ⟨h.ok,⟨_,h.file,rfl⟩,fun s hs => hs.elim,fun s hs => hs.elim,fun s hs => hs.elim,fun s hs => hs.elim,
    fun i hi => absurd hi List.not_mem_nil,List.nodup_nil,?_,fun i hi => ?_⟩
  · rw [hin]
    exact List.nodup_singleton _
  · rw [hin] at hi
    obtain rfl := List.mem_singleton.mp hi
    exact hab

/-- The table of a new root directory. -/
def newTable : List DirEntry := put (slots (List.replicate 36000 0)) 0 ⟨rootDirSector,Vector.replicate 31 0,true⟩

theorem Takes.same {D : List Bool} (h : Takes D v w true) : Same v w 0 := by
  unfold Takes at h
  split_ifs at h
  · exact h.2.2
  · exact absurd h.1 (by decide)
  · exact absurd h.1 (by decide)

theorem Takes.count {D : List Bool} (h : Takes D v w true) : numFreeSectors w + D.length = numFreeSectors v := by
  unfold Takes at h
  split_ifs at h
  · exact h.2.1
  · exact absurd h.1 (by decide)
  · exact absurd h.1 (by decide)

/-- The end of `dir_create`: the entry of the parent is written, and the directory closed. -/
theorem parent_written {a b : ℕ} (hmade : MapMade w b n) (hint : Intact (System.atRest w a) {rootDirSector})
    (hbytes : System.bytes (System.atRest w a) rootDirSector = List.replicate 36000 0) :
    ∃ S₃ u c, (((System.atRest w a).opened rootDirSector).dirOpen a).2.writeEntry (a + 1)
        ⟨rootDirSector,Vector.replicate 31 0,true⟩ 0 = some (true,S₃) ∧ S₃.dirClose (a + 1) = some (System.atRest u c) ∧
      MapMade u b n ∧ Intact (System.atRest u c) {rootDirSector} ∧
      System.entries (System.atRest u c) rootDirSector = newTable ∧ numFreeSectors u = numFreeSectors w := by
  obtain ⟨-,hint₁,hrec₁⟩ := hint.inodeOpen_new (Set.mem_singleton _) fun i hi => absurd hi List.not_mem_nil
  obtain ⟨S₂,hS₂⟩ : ∃ S₂, S₂ = (((System.atRest w a).opened rootDirSector).dirOpen a).2 := ⟨_,rfl⟩
  obtain ⟨i,hi⟩ : ∃ i : Inode, i = ⟨a,rootDirSector,1,false,0,w.sectors rootDirSector⟩ := ⟨_,rfl⟩
  have hvol₂ : S₂.vol = w := by rw [hS₂]; rfl
  have hdirs₂ : S₂.dirs = [⟨a + 1,a,entrySize,1⟩] := by rw [hS₂]; rfl
  have hopens₂ : S₂.openInodes = [i] := by rw [hS₂,hi]; rfl
  have hrec₂ : ∀ p, S₂.record p = System.record (System.atRest w a) p := fun p => by
    rw [hS₂]
    exact hrec₁ p
  have hint₂ : Intact S₂ {rootDirSector} := by
    rw [hS₂]
    exact { hint₁ with past := fun j hj => (hint₁.past j hj).trans (Nat.lt_succ_self _) }
  have hat : S₂.dirAt (a + 1) = some ⟨a + 1,a,entrySize,1⟩ := by
    rw [System.dirAt,hdirs₂]
    exact List.find?_cons_of_pos (decide_eq_true rfl)
  have hai : i.addr = a := by rw [hi]
  have hsec : i.sector = rootDirSector := by rw [hi]
  have hod : OpenDir S₂ (a + 1) i := ⟨⟨_,hat,hai.symm⟩,by rw [hopens₂]; exact List.mem_singleton_self i⟩
  have hbytes₂ : S₂.bytes rootDirSector = List.replicate 36000 0 := by
    rw [← hbytes,System.bytes,hrec₂,hvol₂]
    rfl
  have hent₂ : S₂.entries i.sector = slots (List.replicate 36000 0) := by rw [hsec,System.entries,hbytes₂]
  obtain ⟨ok,i',S₃,hw,hstep,hws,hent,hin⟩ := hint₂.writeEntry hod (k := 0) (Nat.zero_le _) ⟨rootDirSector,Vector.replicate 31 0,true⟩
  have hok := hin (by rw [hent₂,length_slots,List.length_replicate]; decide)
  subst hok
  rw [if_pos rfl,hent₂] at hent
  have hint₃ := hstep.intact
  have hmem₃ := hstep.dir.mem
  have hai' : i'.addr = a := by rw [hstep.inode_eq,hai]
  have hsec' : i'.sector = rootDirSector := hstep.sector.trans hsec
  have hrm : i'.removed = false := by rw [hstep.inode_eq,hi]
  have hdirs₃ : S₃.dirs = [⟨a + 1,a,entrySize,1⟩] := hstep.frame.dirs.trans hdirs₂
  have hat₃ : S₃.dirAt (a + 1) = some ⟨a + 1,a,entrySize,1⟩ := by
    rw [System.dirAt,hdirs₃]
    exact List.find?_cons_of_pos (decide_eq_true rfl)
  obtain ⟨hclose,hint₄,hbytes₄,-⟩ := hint₃.close_frame hmem₃ hrm
  have hopens₄ : (S₃.closed i'.addr).openInodes = [] := by
    refine List.eq_nil_iff_forall_not_mem.mpr fun j hj => ?_
    have hlive := (hint₄.inode j hj).1
    exact ((hint₃.mem_closed hmem₃).mp hj).2 (hlive.trans hsec'.symm)
  have htable₄ : (S₃.closed i'.addr).fileTable = [] := by
    refine hstep.frame.fileTable.trans ?_
    rw [hS₂]
    rfl
  have hrest : { S₃.closed i'.addr with dirs := [], cwd := none } = System.atRest S₃.vol S₃.nextAddr := by
    rw [System.atRest,← hopens₄,← htable₄]
    rfl
  have hint₅ : Intact { S₃.closed i'.addr with dirs := [], cwd := none } {rootDirSector} := { hint₄ with }
  rw [hrest] at hint₅
  have hbytes₅ : System.bytes (System.atRest S₃.vol S₃.nextAddr) rootDirSector = S₃.bytes rootDirSector := by
    rw [← hrest]
    exact hbytes₄ rootDirSector
  have htakes : Takes (writeDemand S₂.vol i.data 36 (36 * (0 : ℕ))) S₂.vol S₃.vol true := by
    have ht := hws.takes
    have ho := hws.ok_eq
    rw [eq_comm,Bool.and_eq_true] at ho
    rwa [ho.1] at ht
  refine ⟨S₃,S₃.vol,S₃.nextAddr,?_,?_,?_,hint₅,?_,?_⟩
  · rw [← hS₂]
    exact hw
  · rw [System.dirClose,hat₃,Option.bind_some,if_pos (sub_self 1)]
    dsimp only
    have hdirs₄ : (S₃.closed i'.addr).dirs = [⟨a + 1,a,entrySize,1⟩] := hdirs₃
    have hrem : Keyed.remove Dir.addr (a + 1) [(⟨a + 1,a,entrySize,1⟩ : Dir)] = [] := List.filter_cons_of_neg (by simp)
    rw [hai'] at hclose hdirs₄ hrest
    rw [hclose,Option.map_some,hdirs₄,hrem,hrest]
  · refine hmade.keeps (hvol₂ ▸ hws.keeps) ?_
    have hs := htakes.same.1
    rw [hvol₂] at hs
    exact hs
  · rw [System.entries,hbytes₅,← hsec]
    exact hent
  · have hlen : i.data.length = 36000 := by
      have hl := hint₂.length_bytes hod.mem
      rw [hsec,hbytes₂,List.length_replicate] at hl
      omega
    have hd : writeDemand S₂.vol i.data 36 (36 * (0 : ℕ)) = [] := if_neg (by omega)
    have hcount := htakes.count
    rw [hd,hvol₂] at hcount
    exact hcount

/-- `dir_create` of the root directory succeeds if there is room for it. -/
theorem rootDir_made (h : MapMade v 0 n) (hu : Used v rootDirSector) (hn : ¬ FmNode v rootDirSector) :
    ∃ ok T, (System.atRest v 1).dirCreate rootDirSector System.maxFilesInDirectory = some (ok,T) ∧
      ok = decide ((createDemand 36000).length ≤ numFreeSectors v) ∧ (ok = true → ∃ w a, T = System.atRest w a ∧
        MapMade w 0 n ∧ Intact (System.atRest w a) {rootDirSector} ∧
        System.entries (System.atRest w a) rootDirSector = newTable ∧
        numFreeSectors w + (createDemand 36000).length = numFreeSectors v) := by
  have hint := h.intact Nat.zero_lt_one
  have hspare : Spare (System.atRest v 1) ∅ rootDirSector v :=
    ⟨Keeps.refl h.ok _,fun _ hq => hq,hu,by decide,hn,fun s hs => hs.elim⟩
  obtain ⟨ok,d,w,hcr,hc,-,-,hnew⟩ := hint.create_frame hspare true (show (0 : ℤ) ≤ 36000 by decide) (by decide)
  have ho := hc.ok_eq
  rw [decide_eq_true (show (36000 : ℤ) ≤ 8517120 by decide),Bool.and_true] at ho
  rw [System.dirCreate,show (System.atRest v 1).vol = v from rfl,
    show System.maxFilesInDirectory * entrySize = 36000 from rfl,hcr]
  dsimp only
  cases ok with
  | false =>
    rw [if_neg (by decide)]
    exact ⟨false,_,rfl,ho,fun hc => absurd hc (by decide)⟩
  | true =>
    rw [if_pos rfl]
    obtain ⟨hint₁,-,hbytes₁⟩ := hnew rfl
    have hback : { System.atRest v 1 with vol := System.ignoreResult (true,w) } = System.atRest w 1 := rfl
    have hback' : { System.atRest v 1 with vol := w } = System.atRest w 1 := rfl
    rw [hback]
    rw [hback',insert_empty_eq] at hint₁
    rw [hback'] at hbytes₁
    have htakes : Takes (createDemand 36000) v w true := by
      have ht := hc.takes (by decide)
      rwa [← ho] at ht
    have hmade₁ : MapMade w 0 n := h.keeps hc.keeps htakes.same.1
    have hopen := (hint₁.inodeOpen_new (Set.mem_singleton _) fun i hi => absurd hi List.not_mem_nil).1
    obtain ⟨S₃,u,c,hw,hcl,hmade,hint,hent,hcount⟩ := parent_written hmade₁ hint₁ hbytes₁
    have hstep : (((System.atRest w 1).opened rootDirSector).dirOpen 1).1 = 1 + 1 := rfl
    rw [hopen,show (System.atRest w 1).nextAddr = 1 from rfl,hstep,hw,Option.bind_some,hcl,Option.map_some]
    exact ⟨true,_,rfl,ho,fun _ => ⟨u,c,rfl,hmade,hint,hent,by rw [hcount]; exact htakes.count⟩⟩

/-! ### Closing and opening the free map -/

/-- The free-map file read back gives the free map that was written to it. -/
theorem MapMade.readBack {a : ℕ} {u : Volume} (h : MapMade v a n) (hsec : u.sectors = v.sectors) (hnone : u.freeMapFile = none)
    (hcnt : u.freeMap.bitCnt = v.freeMap.bitCnt) (b : ℕ) : (System.atRest u b).freeMapOpen =
      System.atRest { u with freeMap := v.freeMap, freeMapFile := some (mapInode b (v.sectors freeMapSector)) } (b + 1) := by
  obtain ⟨d,hd⟩ : ∃ d, d = v.sectors freeMapSector := ⟨_,rfl⟩
  obtain ⟨w,hw⟩ : ∃ w, w = { u with freeMapFile := some (mapInode b d) } := ⟨_,rfl⟩
  have hadopt := @System.adopt_atRest u hnone b
  have hr := h.ok.ready _ h.file
  have hsync := h.ok.synced _ h.file
  rw [← hd] at hr hsync
  have hblk : ∀ s, IsBlock v d s → w.sectors s = v.sectors s := fun s _ => by rw [hw,← hsec]
  have hsized : Sized w d := hr.sized.congr hblk
  have hcont : content w d = v.freeMap.bytes := by
    rw [← hsync]
    refine content_congr hr.sized.nonneg hr.sized.le rfl fun i hi => ⟨ptr_congr hblk (dataSlot_level i).le,?_⟩
    rw [hw,← hsec]
  have hread : inodeReadAt d (byteCnt v.freeMap.bitCnt) 0 w = v.freeMap.bytes := by
    rw [inodeReadAt_eq hsized le_rfl (by decide),hcont,Int.toNat_zero,List.drop_zero,Int.toNat_natCast]
    exact List.take_of_length_le v.freeMap.length_bytes.le
  have hlen : u.freeMap.bytes.length = v.freeMap.bytes.length := by
    rw [Bitmap.length_bytes,Bitmap.length_bytes,hcnt]
  have hmap : Bitmap.ofBytes v.freeMap.bitCnt (v.freeMap.bytes ++ u.freeMap.bytes.drop v.freeMap.bytes.length) = v.freeMap := by
    rw [← hlen,List.drop_length,List.append_nil,Bitmap.ofBytes_bytes h.trimmed]
  have hvol' : w.freeMap = u.freeMap := by rw [hw]
  have hfile : w.freeMapFile = some (mapInode b d) := by rw [hw]
  have hv : (System.atRest w (b + 1)).vol = w := rfl
  have hdata : (mapInode b d).data = d := rfl
  rw [congrFun hsec freeMapSector,← hd,← hw] at hadopt
  rw [System.freeMapOpen,hadopt,← hd]
  simp only [hv,hfile,hdata,hvol',hcnt,hread,hmap]
  rw [hw]
  rfl

theorem MapMade.reopened {a : ℕ} (h : MapMade v a n) (b : ℕ) :
    (System.atRest { v with freeMapFile := none } b).freeMapOpen =
      System.atRest { v with freeMapFile := some (mapInode b (v.sectors freeMapSector)) } (b + 1) :=
  @MapMade.readBack n v a { v with freeMapFile := none } h rfl rfl rfl b

/-- The free map after it was closed and opened. -/
theorem MapMade.again {a : ℕ} (h : MapMade v a n) (b : ℕ) :
    MapMade { v with freeMapFile := some (mapInode b (v.sectors freeMapSector)) } b n ∧
      ∀ p, FmNode { v with freeMapFile := some (mapInode b (v.sectors freeMapSector)) } p ↔ FmNode v p := by
  obtain ⟨d,hd⟩ : ∃ d, d = v.sectors freeMapSector := ⟨_,rfl⟩
  have hr := h.ok.ready _ h.file
  have hsync := h.ok.synced _ h.file
  have hfile := h.file
  rw [← hd] at hr hsync hfile ⊢
  obtain ⟨w,hw⟩ : ∃ w, w = { v with freeMapFile := some (mapInode b d) } := ⟨_,rfl⟩
  have hblk : ∀ s, IsBlock v d s → w.sectors s = v.sectors s := fun s _ => by rw [hw]
  have hmap : w.freeMap = v.freeMap := by rw [hw]
  have hfm : w.freeMapFile = some (mapInode b d) := by rw [hw]
  rw [← hw]
  refine ⟨⟨⟨hmap ▸ h.ok.bitCnt_lt,?_,fun fm hf => ?_,fun fm hf => ?_⟩,?_,by rw [hmap,h.bitCnt],by rw [hmap]; exact h.trimmed⟩,fun p => ?_⟩
  · unfold Used
    rw [hmap]
    exact h.ok.zero_used
  · rw [hfm] at hf
    obtain rfl := Option.some.inj hf
    refine ⟨rfl,by rw [hmap]; exact hr.length,hr.distinct.congr hblk,hr.sized.congr hblk,fun t ht h0 => ?_⟩
    have hp : ptr w d t = ptr v d t := ptr_congr hblk ht
    change ptr w d t ≠ 0 at h0
    change Used w (ptr w d t)
    unfold Used
    rw [hp] at h0 ⊢
    rw [hmap]
    exact hr.used t ht h0
  · rw [hfm] at hf
    obtain rfl := Option.some.inj hf
    rw [hmap,← hsync]
    exact content_congr hr.sized.nonneg hr.sized.le rfl fun i hi => ⟨ptr_congr hblk (dataSlot_level i).le,by rw [hw]⟩
  · rw [hfm,show w.sectors freeMapSector = d by rw [hw]; exact hd.symm]
  · unfold FmNode
    rw [hfm,hfile]
    refine and_congr_right fun _ => ⟨fun hp => ?_,fun hp => ?_⟩
    · obtain ⟨fm,hf,t,ht,he⟩ := hp
      obtain rfl := Option.some.inj hf
      exact ⟨_,rfl,t,ht,(ptr_congr hblk ht).symm.trans he⟩
    · obtain ⟨fm,hf,t,ht,he⟩ := hp
      obtain rfl := Option.some.inj hf
      exact ⟨_,rfl,t,ht,(ptr_congr hblk ht).trans he⟩

/-- `free_map_close`. -/
theorem MapMade.closed {a : ℕ} (h : MapMade v a n) (b : ℕ) :
    (System.atRest v b).freeMapClose = some (System.atRest { v with freeMapFile := none } b) := by
  have hfile := h.file
  generalize v.sectors freeMapSector = d at hfile
  have hin : (System.atRest v b).inodes = [mapInode a d] := by
    rw [System.inodes,show (System.atRest v b).vol.freeMapFile = _ from hfile]
    rfl
  have hat : System.inodeAt a (System.atRest v b) = some (mapInode a d) := by
    rw [System.inodeAt,hin]
    exact List.find?_cons_of_pos (decide_eq_true rfl)
  have hfree : (System.atRest v b).freeInode a = System.atRest { v with freeMapFile := none } b := by
    have hnone : (some (mapInode a d)).filter (fun i => decide (i.addr ≠ a)) = none := by simp [mapInode]
    rw [System.freeInode,show (System.atRest v b).vol.freeMapFile = _ from hfile,hnone]
    rfl
  rw [System.freeMapClose,show (System.atRest v b).vol.freeMapFile = _ from hfile]
  change System.inodeClose a (System.atRest v b) = _
  rw [System.inodeClose,hat,Option.map_some,if_pos (show (mapInode a d).openCnt - 1 = 0 from rfl),hfree]
  rfl

/-- The files are in order after the free map was closed and opened. -/
theorem MapMade.again_intact {a b : ℕ} {live : Set BlockSector} (h : MapMade v a n) (hint : Intact (System.atRest v b) live) :
    Intact (System.atRest { v with freeMapFile := some (mapInode b (v.sectors freeMapSector)) } (b + 1)) live ∧
      ∀ s ∈ live, System.bytes (System.atRest { v with freeMapFile := some (mapInode b (v.sectors freeMapSector)) } (b + 1)) s =
        System.bytes (System.atRest v b) s := by
  obtain ⟨hmade,hnode⟩ := h.again b
  obtain ⟨w,hw⟩ : ∃ w, w = { v with freeMapFile := some (mapInode b (v.sectors freeMapSector)) } := ⟨_,rfl⟩
  rw [← hw] at hmade hnode ⊢
  have hmap : w.freeMap = v.freeMap := by rw [hw]
  have hsec : w.sectors = v.sectors := by rw [hw]
  have hused : ∀ p, Used w p ↔ Used v p := fun p => by
    unfold Used
    rw [hmap]
  have hrec : ∀ s, System.record (System.atRest w (b + 1)) s = System.record (System.atRest v b) s := fun s => by
    change w.sectors s = v.sectors s
    rw [hsec]
  have hsame : ∀ s ∈ live, FileOk w (System.record (System.atRest v b) s) ∧
      (∀ t, inodeShape t ≠ .absent → ptr w (System.record (System.atRest v b) s) t = ptr v (System.record (System.atRest v b) s) t) ∧
      content w (System.record (System.atRest v b) s) = content v (System.record (System.atRest v b) s) := by
    intro s hs
    have hf := hint.file s hs
    exact hf.of_same (fun t ht h0 => (hused _).mpr (hf.owns.used t ht h0)) (fun p => (hnode p).mp) fun t _ _ => by rw [hsec]; rfl
  have hown : ∀ s ∈ live, ∀ p, System.Owned (System.atRest w (b + 1)) s p → System.Owned (System.atRest v b) s p := by
    intro s hs p hp
    refine hp.imp_right fun hp => ⟨hp.1,?_⟩
    obtain ⟨-,t,ht,he⟩ := hp
    rw [hrec] at he
    exact ⟨t,ht,((hsame s hs).2.1 t ht).symm.trans he⟩
  have hin : (System.atRest w (b + 1)).inodes = [mapInode b (w.sectors freeMapSector)] := by
    rw [System.inodes,show (System.atRest w (b + 1)).vol.freeMapFile = _ from hmade.file]
    rfl
  refine ⟨⟨hmade.ok,⟨_,hmade.file,rfl⟩,fun s hs => ?_,fun s hs => ?_,fun s hs t ht => ?_,fun s hs s' hs' p hp hp' => ?_,
    fun i hi => absurd hi List.not_mem_nil,List.nodup_nil,?_,fun i hi => ?_⟩,fun s hs => ?_⟩
  · obtain ⟨h0,hu,hn⟩ := hint.alloc s hs
    exact ⟨h0,(hused s).mpr hu,fun hc => hn ((hnode s).mp hc)⟩
  · rw [hrec]
    exact (hsame s hs).1
  · rw [hrec]
    exact ((hsame s hs).2.1 t ht).symm ▸ hint.self s hs t ht
  · exact hint.apart s hs s' hs' p (hown s hs p hp) (hown s' hs' p hp')
  · rw [hin]
    exact List.nodup_singleton _
  · rw [hin] at hi
    obtain rfl := List.mem_singleton.mp hi
    exact Nat.lt_succ_self b
  · unfold System.bytes
    rw [hrec]
    exact (hsame s hs).2.2

/-- `filesys_init` formatted a device of `n` sectors: the file of the free map and the root directory
could both be made. -/
def Formatted (S : System) : Prop :=
  ∃ disk n, 2 < n ∧ n ≤ 4294967296 ∧ (inodeCreate freeMapSector (byteCnt (n - 1)) false (freeMapInit disk n)).1 = true ∧
    ∃ T, System.doFormat (System.start disk n) = some (true,T) ∧ S = T.freeMapOpen

/-- A formatted file system holds the root directory and nothing else, and nothing is open. -/
theorem Formatted.atRest (h : Formatted S) : ∃ v a, S = System.atRest v a ∧ Intact S {rootDirSector} ∧
    S.entries rootDirSector = newTable := by
  obtain ⟨disk,n,h2,hn,hok,T,hT,rfl⟩ := h
  obtain ⟨v,hcreate,hmade,hu,hfm,-⟩ := freeMapCreate_made h2 hn hok
  obtain ⟨ok,R,hdir,-,hgood⟩ := rootDir_made hmade hu hfm
  rw [System.doFormat,hcreate,hdir,Option.bind_some,Option.map_eq_some_iff] at hT
  obtain ⟨Q,hclose,hT⟩ := hT
  obtain ⟨rfl,rfl⟩ := Prod.mk.inj hT
  obtain ⟨w,a,rfl,hmade,hint,hent,-⟩ := hgood rfl
  rw [hmade.closed a] at hclose
  obtain rfl := Option.some.inj hclose
  obtain ⟨hint',hbytes⟩ := hmade.again_intact hint
  rw [hmade.reopened a]
  refine ⟨_,_,rfl,hint',?_⟩
  rw [System.entries,hbytes _ (Set.mem_singleton _)]
  exact hent

/-- A device is formatted if it has room for the two files. -/
theorem formatted_of_room (disk : BlockSector → Sector) (h : 2 < n) (hn : n ≤ 4294967296) (hb : (byteCnt (n - 1) : ℤ) ≤ 8517120)
    (hroom : (createDemand (byteCnt (n - 1))).length + (createDemand 36000).length ≤ n - 3) :
    ∃ S, Formatted S ∧
      numFreeSectors S.vol + ((createDemand (byteCnt (n - 1))).length + (createDemand 36000).length) = n - 3 := by
  have hv := @freeMapInit_ok disk n h hn
  have hfree := @numFreeSectors_init disk n h
  have hno : ¬ FmNode (freeMapInit disk n) freeMapSector := fun hs => hs.1 rfl
  obtain ⟨d,hc⟩ := @inodeCreate_spec _ freeMapSector (byteCnt (n - 1)) false hv hno (by omega) (byteCnt_lt hn)
  have hcount := @inodeCreate_count (freeMapInit disk n) freeMapSector (byteCnt (n - 1)) false hv (by omega) (byteCnt_lt hn)
    (by omega)
  have hok := hc.ok_eq
  rw [decide_eq_true (by omega),decide_eq_true hb] at hok
  obtain ⟨v,hcreate,hmade,hu,hfm,hmap⟩ := freeMapCreate_made h hn hok
  have hv' : numFreeSectors v = numFreeSectors (inodeCreate freeMapSector (byteCnt (n - 1)) false (freeMapInit disk n)).2 := by
    rw [numFreeSectors,hmap,numFreeSectors]
  obtain ⟨ok,R,hdir,hok',hgood⟩ := rootDir_made hmade hu hfm
  rw [decide_eq_true (by omega)] at hok'
  obtain ⟨w,a,rfl,hmade,-,-,hlast⟩ := hgood hok'
  subst hok'
  refine ⟨_,⟨disk,n,h,hn,hok,System.atRest { w with freeMapFile := none } a,?_,rfl⟩,?_⟩
  · rw [System.doFormat,hcreate,hdir,Option.bind_some,hmade.closed a,Option.map_some]
  · rw [hmade.reopened a]
    change numFreeSectors w + _ = _
    omega

end
end ShellOS.Fs
