import ShellOS.Fs.Listing

/-! `fragmentation_degree`: the distance of two sectors is unsigned, and the first sector is read
even where a file has none. -/
namespace ShellOS.Fs
open CLib SlotTable BlockTree

/-! ### Two neighbours in a list -/

section
variable {α : Type} {R R' : α → α → Prop} {a b : α} {l : List α}

/-- Two consecutive elements are related. -/
def Step (R : α → α → Prop) (l : List α) : Prop := ∃ (k : ℕ) (a b : α), l[k]? = some a ∧ l[k + 1]? = some b ∧ R a b

theorem step_nil : ¬ Step R [] := by
  rintro ⟨k,a,b,ha,-,-⟩
  cases ha

theorem step_singleton : ¬ Step R [a] := by
  rintro ⟨k,a,b,-,hb,-⟩
  cases hb

theorem step_cons : Step R (a::b::l) ↔ R a b ∨ Step R (b::l) := by
  constructor
  · rintro ⟨k,x,y,hx,hy,hr⟩
    cases k with
    | zero =>
      obtain rfl := Option.some.inj hx
      obtain rfl := Option.some.inj hy
      exact .inl hr
    | succ k => exact .inr ⟨k,x,y,hx,hy,hr⟩
  · rintro (hr | ⟨k,x,y,hx,hy,hr⟩)
    · exact ⟨0,a,b,rfl,rfl,hr⟩
    · exact ⟨k + 1,x,y,hx,hy,hr⟩

theorem step_or : Step (fun a b => R a b ∨ R' a b) l ↔ Step R l ∨ Step R' l := by
  constructor
  · rintro ⟨k,a,b,ha,hb,hr | hr⟩
    · exact .inl ⟨k,a,b,ha,hb,hr⟩
    · exact .inr ⟨k,a,b,ha,hb,hr⟩
  · rintro (⟨k,a,b,ha,hb,hr⟩ | ⟨k,a,b,ha,hb,hr⟩)
    · exact ⟨k,a,b,ha,hb,.inl hr⟩
    · exact ⟨k,a,b,ha,hb,.inr hr⟩

end

/-! ### The sectors of one file -/

/-- Two consecutive sectors more than 3 apart. -/
def FarStep (l : List BlockSector) : Prop := Step (fun a b => 3 < |(b.toNat : ℤ) - a.toNat|) l

/-- A sector that lies before the one it follows. -/
def BackStep (l : List BlockSector) : Prop := Step (fun a b => b < a) l

/-- The loop of `fragmentation_degree` over the array of sectors; `none` where it reads outside of
the array. -/
def fragmentLoop (allSectors : List BlockSector) (inodeNumber index : ℕ) (previous : BlockSector) : Option Bool :=
  if index < inodeNumber then allSectors[index]?.bind fun s =>
    if 3 < s - previous then some true else fragmentLoop allSectors inodeNumber (index + 1) s
  else some false
termination_by inodeNumber - index

/-- The loop with the read before it. -/
def fragmentScan (allSectors : List BlockSector) (inodeNumber : ℕ) : Option Bool :=
  allSectors[0]?.bind fun previous => fragmentLoop allSectors inodeNumber 1 previous

theorem fragmentLoop_eq (l : List BlockSector) (index : ℕ) (previous : BlockSector) :
    fragmentLoop l l.length index previous = some (fragmentedFrom previous (l.drop index)) := by
  induction hn : l.length - index generalizing index previous with
  | zero =>
    have hle : l.length ≤ index := by omega
    rw [fragmentLoop,if_neg (Nat.not_lt.mpr hle),List.drop_eq_nil_of_le hle]
    rfl
  | succ n ih =>
    have hlt : index < l.length := by omega
    rw [fragmentLoop,if_pos hlt,List.getElem?_eq_getElem hlt,Option.bind_some,List.drop_eq_getElem_cons hlt,fragmentedFrom]
    by_cases h3 : 3 < l[index] - previous
    · rw [if_pos h3,decide_eq_true h3,Bool.true_or]
    · rw [if_neg h3,decide_eq_false h3,Bool.false_or]
      exact ih (index + 1) _ (by omega)

/-- What the loop reads lies inside just where the file has a sector. -/
theorem fragmentScan_eq (l : List BlockSector) :
    fragmentScan l l.length = if l = [] then none else some (isFragmented l) := by
  cases l with
  | nil => rfl
  | cons a rest =>
    rw [if_neg (List.cons_ne_nil a rest),fragmentScan,List.getElem?_cons_zero,Option.bind_some,fragmentLoop_eq]
    rfl

/-- The unsigned distance is over 3 for every step back. -/
theorem lt_sub_iff {a b : BlockSector} (ha : a.toNat < 2147483648) (hb : b.toNat < 2147483648) :
    3 < b - a ↔ 3 < |(b.toNat : ℤ) - a.toNat| ∨ b < a := by
  have hsub := UInt32.toNat_sub b a
  rw [UInt32.lt_iff_toNat_lt,UInt32.lt_iff_toNat_lt,hsub]
  have h3 : (3 : UInt32).toNat = 3 := rfl
  rw [h3]
  by_cases hlt : b.toNat < a.toNat
  · have hmod : (4294967296 - a.toNat + b.toNat) % 4294967296 = 4294967296 - a.toNat + b.toNat := Nat.mod_eq_of_lt (by omega)
    exact iff_of_true (by omega) (.inr hlt)
  · have hmod : (4294967296 - a.toNat + b.toNat) % 4294967296 = b.toNat - a.toNat := by omega
    rw [abs_of_nonneg (by omega)]
    omega

theorem isFragmented_iff {l : List BlockSector} (h : ∀ p ∈ l, p.toNat < 2147483648) :
    isFragmented l = true ↔ FarStep l ∨ BackStep l := by
  rw [FarStep,BackStep,← step_or]
  cases l with
  | nil => exact iff_of_false Bool.false_ne_true step_nil
  | cons a rest =>
    rw [isFragmented]
    induction rest generalizing a with
    | nil => exact iff_of_false Bool.false_ne_true step_singleton
    | cons b rest ih =>
      obtain ⟨ha,hrest⟩ := List.forall_mem_cons.mp h
      have hb := hrest b List.mem_cons_self
      rw [step_cons,← ih b hrest,fragmentedFrom,Bool.or_eq_true,decide_eq_true_eq,lt_sub_iff ha hb]

/-! ### Counting -/

section
variable {α : Type} {p q : α → Bool} {l : List α}

theorem foldl_counts (p q : α → Bool) (l : List α) (acc : ℕ × ℕ) :
    l.foldl (fun acc a => (acc.1 + (if p a then 1 else 0),acc.2 + (if q a then 1 else 0))) acc =
      (acc.1 + l.countP p,acc.2 + l.countP q) := by
  induction l generalizing acc with
  | nil => rfl
  | cons a l ih =>
    rw [List.foldl_cons,ih,List.countP_cons,List.countP_cons]
    dsimp only
    congr 1
    · omega
    · omega

theorem ncard_mem (h : l.Nodup) (p : α → Prop) [DecidablePred p] : {a | a ∈ l ∧ p a}.ncard = l.countP (fun a => decide (p a)) := by
  classical
  have hset : {a | a ∈ l ∧ p a} = ((l.filter fun a => decide (p a)).toFinset : Set α) := by
    ext a
    simp
  rw [hset,Set.ncard_coe_finset,List.toFinset_card_of_nodup (h.filter _),List.countP_eq_length_filter]

/-- Of two properties the weaker one holds as often just where it is no weaker. -/
theorem countP_eq_iff (himp : ∀ a ∈ l, p a = true → q a = true) : l.countP q = l.countP p ↔ ∀ a ∈ l, q a = true → p a = true := by
  induction l with
  | nil => exact iff_of_true rfl (List.forall_mem_nil _)
  | cons a l ih =>
    obtain ⟨ha,hl⟩ := List.forall_mem_cons.mp himp
    have hle : l.countP p ≤ l.countP q := List.countP_mono_left hl
    rw [List.forall_mem_cons,← ih hl,List.countP_cons,List.countP_cons]
    cases hp : p a with
    | true => simp [ha hp]
    | false =>
      cases hq : q a with
      | true => simp; omega
      | false => simp

end

/-! ### The command -/

/-- The data sectors of a file, in the order of its bytes. -/
def System.sectorsOf (S : System) (s : BlockSector) : List BlockSector := (getInodeDataSectors S.vol (S.record s)).getD []

/-- The data sectors of the file with a name. -/
def System.sectorList (S : System) (name : CString) : List BlockSector :=
  ((entryOf (S.entries rootDirSector) name).map S.sectorsOf).getD []

section
variable {S S' : System} {live : Set BlockSector} {root : Option Dir} {i : Inode} {f : File} {s : BlockSector} {name : CString}

theorem Intact.record_length (h : Intact S live) (hs : s ∈ live) : (S.record s).length = ((S.bytes s).length : ℤ) := by
  have h0 := (h.file s hs).sized.nonneg
  rw [System.bytes,length_content]
  omega

theorem Intact.sectorsOf_eq (h : Intact S live) (hs : s ∈ live) :
    S.sectorsOf s = dataSectors S.vol (S.record s) (bytesToSectors (S.bytes s).length) := by
  have hfile := (h.file s hs).sized
  have hn := bytesToSectors_eq hfile.nonneg hfile.le
  have hle := hfile.le
  have hmax : bytesToSectors (S.record s).length ≤ maxSectors := by
    unfold maxSectors
    omega
  have hlen := h.record_length hs
  rw [System.sectorsOf,getInodeDataSectors_eq S.vol hfile.nonneg hmax,Option.getD_some,← hlen,dataSectors_eq hfile.mapped hmax]

/-- Opening and closing files does not move their sectors. -/
theorem Intact.sectorsOf_congr (h : Intact S live) (h' : Intact S' live) (hb : S'.bytes s = S.bytes s) (hv : S'.vol = S.vol)
    (hs : s ∈ live) : S'.sectorsOf s = S.sectorsOf s := by
  have hdisk : ∀ {T : System}, Intact T live → T.sectorsOf s =
      dataSectors T.vol (T.vol.sectors s) (bytesToSectors (T.bytes s).length) := by
    intro T hT
    rw [hT.sectorsOf_eq hs]
    by_cases hop : ∃ i ∈ T.openInodes, i.sector = s
    · obtain ⟨i,hi,rfl⟩ := hop
      obtain ⟨-,-,-,hback⟩ := hT.inode i hi
      have hsized := (hT.openOk hi).file.sized
      have hn := bytesToSectors_eq hsized.nonneg hsized.le
      have hle := hsized.le
      have hlen := hT.record_length hs
      rw [System.record_open hT.sectors hi] at hlen ⊢
      refine List.map_congr_left fun k hk => ?_
      have hk := List.mem_range.mp hk
      rw [← hlen] at hk
      have hm : dataSlot k ∈ inodeWalk (bytesToSectors (InodeDisk.length (T.vol.sectors i.sector))) :=
        dataSlot_mem (hback.info.length_eq ▸ hk) (by unfold maxSectors; omega)
      exact ((hback.ptr_eq T.vol _).resolve_left (hback.sized.mapped _ hm)).symm
    · rw [System.record_closed fun i hi he => hop ⟨i,hi,he⟩]
  rw [hdisk h,hdisk h',hb,hv]

theorem Intact.length_sectorsOf (h : Intact S live) (hs : s ∈ live) :
    (S.sectorsOf s).length = bytesToSectors (S.bytes s).length := by
  rw [h.sectorsOf_eq hs,dataSectors,List.length_map,List.length_range]

/-- The disk has fewer sectors than the distance of two of them could wrap around. -/
theorem Intact.sector_lt (h : Intact S live) (hs : s ∈ live) : ∀ p ∈ S.sectorsOf s, p.toNat < 2147483648 := by
  intro p hp
  obtain ⟨fm,hfm,-⟩ := h.fm
  have hready := h.ok.ready fm hfm
  have hcnt := hready.length
  have hle := hready.sized.le
  rw [hcnt,byteCnt,elemCnt,elemBits] at hle
  rw [h.sectorsOf_eq hs] at hp
  obtain ⟨k,hk,rfl⟩ := List.mem_map.mp hp
  have hk := List.mem_range.mp hk
  have hfile := h.file s hs
  have hsized := hfile.sized
  have hn := bytesToSectors_eq hsized.nonneg hsized.le
  have hle' := hsized.le
  rw [← h.record_length hs] at hk
  have hne := hsized.mapped _ (dataSlot_mem hk (by unfold maxSectors; omega))
  have hused := (hfile.owns.used _ (by rw [dataSlot_leaf]; decide) hne).1
  omega

/-- The loop body of `fragmentation_degree`. -/
def measureFile (f : File) (size : ℤ) (acc : ℕ × ℕ) (S : System) : Option ((ℕ × ℕ) × System) :=
  (S.inodeAt f.inode).map fun inode =>
    let sectors := ((getInodeDataSectors S.vol inode.data).getD []).take (bytesToSectors size)
    ((acc.1 + (if 1 < bytesToSectors size then 1 else 0),acc.2 + (if isFragmented sectors then 1 else 0)),S)

theorem fragmentationDegree_eq (S : System) :
    S.fragmentationDegree = S.overRoot (fun name => System.visit measureFile name) (0,0) := rfl

/-- What a file adds to the two counts. -/
def addFile (l : List BlockSector) (acc : ℕ × ℕ) : ℕ × ℕ :=
  (acc.1 + (if decide (2 ≤ l.length) then 1 else 0),acc.2 + (if isFragmented l then 1 else 0))

theorem Session.measureFile (h : Session S live root) (acc : ℕ × ℕ) (hi : i ∈ S.openInodes) (ha : f.inode = i.addr) :
    Fs.measureFile f (S.bytes i.sector).length acc S = some (addFile (S.sectorsOf i.sector) acc,S) := by
  have hlen := h.intact.length_sectorsOf (h.intact.inode i hi).1
  have hsec : (getInodeDataSectors S.vol i.data).getD [] = S.sectorsOf i.sector := by
    rw [System.sectorsOf,System.record_open h.intact.sectors hi]
  rw [Fs.measureFile,ha,h.intact.inodeAt_eq hi,Option.map_some]
  dsimp only
  rw [hsec,← hlen,List.take_length,addFile]
  simp only [decide_eq_true_eq,Nat.lt_iff_add_one_le]

/-- `fragmentation_degree` counts the files with two sectors and those in which its loop stops. -/
theorem Session.fragmentationDegree (h : Session S live none) : ∃ S', S.fragmentationDegree =
      some (⟨nameList (S.entries rootDirSector),true,
        ((nameList (S.entries rootDirSector)).countP fun name => decide (2 ≤ (S.sectorList name).length),
          (nameList (S.entries rootDirSector)).countP fun name => isFragmented (S.sectorList name))⟩,S') ∧
    Session S' live none ∧ Unmoved S S' := by
  have hbody : ∀ name ∈ nameList (S.entries rootDirSector), ∀ (acc : ℕ × ℕ) T d, Session T live (some d) → Unmoved S T →
      ∃ T', System.visit Fs.measureFile name acc T = some (true,addFile (S.sectorList name) acc,T') ∧
        Session T' live (some d) ∧ Unmoved S T' := by
    intro name hname acc T d hT hu
    obtain ⟨s,hs⟩ := Option.isSome_iff_exists.mp (h.table.mem_names.mp hname)
    have hsT : entryOf (T.entries rootDirSector) name = some s := hu.entries rootDirSector ▸ hs
    have hl := (h.table.entryOf_file hs).1
    have hlist : S.sectorList name = S.sectorsOf s := by
      rw [System.sectorList,hs,Option.map_some,Option.getD_some]
    have huse : ∀ f i T₁, Session T₁ live (some d) → (∀ p, T₁.bytes p = T.bytes p) → T₁.vol = T.vol →
        T₁.getFileByFname name = some { f with pos := 0 } → i ∈ T₁.openInodes → f.inode = i.addr → i.sector = s →
        ∃ pos : ℤ, Fs.measureFile f (T.bytes s).length acc T₁ =
          some (addFile (S.sectorList name) acc,T₁.setFile name { f with pos := pos }) := by
      intro f i T₁ h₁ hbytes hvol hf hi ha his
      have hmeasure := h₁.measureFile acc hi ha
      have hsec := h.intact.sectorsOf_congr h₁.intact ((hbytes s).trans (hu.bytes s)) (hvol.trans hu.vol) hl
      rw [his,hbytes,hsec] at hmeasure
      exact ⟨0,by rw [hmeasure,hlist,h₁.setFile_self hf]⟩
    obtain ⟨T',hv,hT',hu'⟩ := hT.visit hsT huse
    exact ⟨T',hv,hT',hu.trans hu'⟩
  obtain ⟨S',hrun,h',hu⟩ := h.overRoot (0,0) hbody
  refine ⟨S',?_,h',hu⟩
  unfold addFile at hrun
  rw [foldl_counts,Nat.zero_add,Nat.zero_add] at hrun
  rw [fragmentationDegree_eq]
  exact hrun

/-- The two counts are what they are called, and no sector is read that is not there. -/
structure Degree (S : System) (fragmentable fragmented : ℕ) : Prop where
  fragmentable_eq : fragmentable = {name | (∃ b, S.fileOf name = some b) ∧ 2 ≤ (S.sectorList name).length}.ncard
  fragmented_eq : fragmented = {name | (∃ b, S.fileOf name = some b) ∧ FarStep (S.sectorList name)}.ncard
  inside : ∀ name b, S.fileOf name = some b → (fragmentScan (S.sectorList name) (bytesToSectors b.length)).isSome = true

theorem Session.sectorList (h : Session S live root) {b : List UInt8} (hb : S.fileOf name = some b) :
    (S.sectorList name).length = bytesToSectors b.length ∧ ((S.sectorList name) = [] ↔ b = []) ∧
      (isFragmented (S.sectorList name) = true ↔ FarStep (S.sectorList name) ∨ BackStep (S.sectorList name)) := by
  obtain ⟨s,hs,rfl⟩ := Option.map_eq_some_iff.mp hb
  have hl := (h.table.entryOf_file hs).1
  have hlist : S.sectorList name = S.sectorsOf s := by
    rw [System.sectorList,hs,Option.map_some,Option.getD_some]
  have hlen := h.intact.length_sectorsOf hl
  have hsized := (h.intact.file s hl).sized
  have hbytes := h.intact.record_length hl
  have hn : (bytesToSectors ((S.bytes s).length : ℤ) : ℤ) = ((S.bytes s).length + 511) / 512 :=
    bytesToSectors_eq (by omega) (by have := hsized.le; omega)
  rw [hlist]
  refine ⟨hlen,?_,isFragmented_iff (h.intact.sector_lt hl)⟩
  rw [← List.length_eq_zero_iff,hlen,← List.length_eq_zero_iff]
  omega

theorem Session.degree_iff (h : Session S live none) : ∃ l S', S.fragmentationDegree = some (l,S') ∧ Unmoved S S' ∧
    (Degree S l.acc.1 l.acc.2 ↔ ∀ name b, S.fileOf name = some b →
      b ≠ [] ∧ (BackStep (S.sectorList name) → FarStep (S.sectorList name))) := by
  classical
  obtain ⟨S',hrun,-,hu⟩ := h.fragmentationDegree
  obtain ⟨hnodup,hnames⟩ := h.names
  generalize nameList (S.entries rootDirSector) = names at hrun hnodup hnames
  have hcount : ∀ (p : CString → Prop) [DecidablePred p], {name | (∃ b, S.fileOf name = some b) ∧ p name}.ncard =
      names.countP fun name => decide (p name) := by
    intro p _
    rw [← ncard_mem hnodup p]
    simp only [hnames]
  have himp : ∀ name ∈ names, decide (FarStep (S.sectorList name)) = true → isFragmented (S.sectorList name) = true := by
    intro name hname hfar
    obtain ⟨b,hb⟩ := (hnames name).mp hname
    exact (h.sectorList hb).2.2.mpr (.inl (of_decide_eq_true hfar))
  have heq := countP_eq_iff himp
  have hinside : ∀ name b, S.fileOf name = some b →
      ((fragmentScan (S.sectorList name) (bytesToSectors b.length)).isSome = true ↔ b ≠ []) := by
    intro name b hb
    obtain ⟨hlen,hnil,-⟩ := h.sectorList hb
    rw [← hlen,fragmentScan_eq]
    by_cases hn : S.sectorList name = []
    · rw [if_pos hn]
      exact iff_of_false Bool.false_ne_true fun hne => hne (hnil.mp hn)
    · rw [if_neg hn]
      exact iff_of_true rfl fun he => hn (hnil.mpr he)
  refine ⟨_,S',hrun,hu,fun hd name b hb => ?_,fun hc => ⟨(hcount fun name => 2 ≤ (S.sectorList name).length).symm,?_,fun name b hb => (hinside name b hb).mpr (hc name b hb).1⟩⟩
  · refine ⟨(hinside name b hb).mp (hd.inside name b hb),fun hback => ?_⟩
    have hall := heq.mp (hd.fragmented_eq.trans (hcount _))
    exact of_decide_eq_true (hall name ((hnames name).mpr ⟨b,hb⟩) ((h.sectorList hb).2.2.mpr (.inr hback)))
  · refine (heq.mpr fun name hname hfrag => decide_eq_true ?_).trans (hcount _).symm
    obtain ⟨b,hb⟩ := (hnames name).mp hname
    exact ((h.sectorList hb).2.2.mp hfrag).elim id (hc name b hb).2

/-- The record of a file of two sectors. -/
def twoBlocks (n : ℕ) (p q : BlockSector) : InodeDisk := (oneBlock n false p).setDirectBlock 1 q

/-- Sixteen sectors, all in use. -/
def allUsed : Bitmap := (List.range 16).foldl Bitmap.bitmapMark (Bitmap.bitmapCreate 16)

/-- A file of two sectors, on a disk that has no room left. -/
def twoBlockDisk (b : List UInt8) (p q : BlockSector) : System :=
  fileDisk (cstr "a") allUsed (twoBlocks b.length p q) fun s => if s = p then padded b else padded (b.drop 512)

section
variable {n : ℕ} {p q : BlockSector} {b : List UInt8}

theorem direct_twoBlocks : Direct (twoBlocks n p q) [p,q] := by
  refine ⟨show 2 ≤ 123 by decide,fun j hj => ?_⟩
  rw [twoBlocks,InodeDisk.setDirectBlock,Sector.word_setWord _ _ _ _ (by decide)]
  by_cases h1 : j = 1
  · rw [if_pos h1,h1]
    rfl
  · rw [if_neg h1,direct_oneBlock.word j hj]
    cases j with
    | zero => rfl
    | succ j =>
      cases j with
      | zero => exact absurd rfl h1
      | succ j => rfl

theorem length_twoBlocks (h : n ≤ 1024) : (twoBlocks n p q).length = n := by
  rw [twoBlocks,oneBlock,InodeDisk.setDirectBlock,InodeDisk.setDirectBlock,InodeDisk.length_setWord _ _ (by decide),
    InodeDisk.length_setWord _ _ (by decide),InodeDisk.length_create _ (by omega) (by omega)]

theorem isDir_twoBlocks : (twoBlocks n p q).isDir = false := by
  have hw : Sector.word (twoBlocks n p q) 125 = Sector.word (oneBlock n false p) 125 := Sector.word_setWord_ne _ _ (by decide)
  have hb := @isDir_oneBlock n false p
  rw [InodeDisk.isDir,Sector.byte] at hb ⊢
  rwa [hw]

theorem twoBlockDisk_laidOut (hb : b.length ≤ 1024) (hp : 5 ≤ p.toNat ∧ p.toNat < 16) (hq : 5 ≤ q.toNat ∧ q.toNat < 16)
    (hne : p ≠ q) : LaidOut allUsed (twoBlocks b.length p q) (fun s => if s = p then padded b else padded (b.drop 512)) [p,q] b := by
  have hall : ∀ k < 16, allUsed.bitmapTest k = true := by decide
  refine ⟨rfl,fun k hk => hall k (by omega),direct_twoBlocks,isDir_twoBlocks,length_twoBlocks hb,hb,fun j r hr => ?_,
    by simpa using hne,fun r hr => ?_⟩
  · cases j with
    | zero =>
      obtain rfl := Option.some.inj hr
      exact if_pos rfl
    | succ j =>
      cases j with
      | zero =>
        obtain rfl := Option.some.inj hr
        exact if_neg hne.symm
      | succ j => cases hr
  · cases List.mem_cons.mp hr with
    | inl he => exact he ▸ ⟨hp.1,hp.2,hall _ hp.2⟩
    | inr hm => exact List.mem_singleton.mp hm ▸ ⟨hq.1,hq.2,hall _ hq.2⟩

theorem twoBlockDisk_sectorList (hb : 512 < b.length ∧ b.length ≤ 1024) (hp : 5 ≤ p.toNat ∧ p.toNat < 16)
    (hq : 5 ≤ q.toNat ∧ q.toNat < 16) (hne : p ≠ q) : (twoBlockDisk b p q).sectorList (cstr "a") = [p,q] := by
  have h := twoBlockDisk_laidOut hb.2 hp hq hne
  have hn : (bytesToSectors (b.length : ℤ) : ℤ) = (b.length + 511) / 512 := bytesToSectors_eq (by omega) (by omega)
  have htwo : bytesToSectors (b.length : ℤ) = [p,q].length := by
    rw [List.length_cons,List.length_singleton]
    omega
  have hbytes : (twoBlockDisk b p q).bytes 4 = b := h.bytes
  rw [twoBlockDisk] at hbytes
  rw [System.sectorList,twoBlockDisk,fileDisk_entries,entryOf_oneEntry ordinary_a,if_pos rfl,Option.map_some,Option.getD_some,
    h.intact.sectorsOf_eq (.inr rfl),hbytes]
  exact h.dataSectors htwo

end

/-- A file of the sectors 10 and 9 is counted as fragmented. -/
theorem fragmentationDegree_steps_back : ∃ l S', (twoBlockDisk (List.replicate 600 65) 10 9).fragmentationDegree = some (l,S') ∧
    l.acc = (1,1) ∧ (twoBlockDisk (List.replicate 600 65) 10 9).sectorList (cstr "a") = [10,9] ∧
      ¬ Degree (twoBlockDisk (List.replicate 600 65) 10 9) l.acc.1 l.acc.2 := by
  have hlen : (List.replicate 600 (65 : UInt8)).length = 600 := List.length_replicate
  have hlaid := @twoBlockDisk_laidOut 10 9 (List.replicate 600 65) (by omega) (by decide) (by decide) (by decide)
  have hsec := @twoBlockDisk_sectorList 10 9 (List.replicate 600 65) (by omega) (by decide) (by decide) (by decide)
  have hS : Session (twoBlockDisk (List.replicate 600 65) 10 9) {1,4} none := hlaid.session ordinary_a
  have hfile : (twoBlockDisk (List.replicate 600 65) 10 9).fileOf (cstr "a") = some (List.replicate 600 65) :=
    (hlaid.fileOf ordinary_a).trans (if_pos rfl)
  have hentries : (twoBlockDisk (List.replicate 600 65) 10 9).entries rootDirSector = oneEntry (cstr "a") := fileDisk_entries
  have hnames : nameList (oneEntry (cstr "a")) = [cstr "a"] := by decide
  have hback : BackStep [10,9] := step_cons.mpr (.inl (by decide))
  have hfar : ¬ FarStep [10,9] := fun hf => absurd (step_cons.mp hf) (not_or.mpr ⟨by decide,step_singleton⟩)
  obtain ⟨l,S',hrun,-,hiff⟩ := hS.degree_iff
  obtain ⟨T,hcount,-⟩ := hS.fragmentationDegree
  rw [hentries,hnames,List.countP_singleton,List.countP_singleton,hsec] at hcount
  obtain ⟨rfl,rfl⟩ := Prod.mk.inj (Option.some.inj (hrun.symm.trans hcount))
  refine ⟨_,_,hrun,by decide,hsec,fun hd => hfar ?_⟩
  have hright := (hiff.mp hd (cstr "a") _ hfile).2
  rw [hsec] at hright
  exact hright hback

end
end ShellOS.Fs
