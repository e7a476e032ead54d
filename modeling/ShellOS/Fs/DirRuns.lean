import ShellOS.Fs.SystemSectors
import ShellOS.Fs.Listing

/-! Runs of adds and removes on a directory, and the map from names to inode sectors it stands for. -/
namespace ShellOS.Fs
open CLib SlotTable BlockTree

/-! ### Opening and making a directory -/

/-- `dir_open(inode_open(p))`. -/
def System.openDirAt (p : BlockSector) (S : System) : ℕ × System := (S.inodeOpen p).2.dirOpen (S.inodeOpen p).1

/-- The entry that `dir_create` writes for the parent directory. -/
def parentEntry (p : BlockSector) : DirEntry := ⟨p,Vector.replicate 31 0,true⟩

section
variable {S S' : System} {live files : Set BlockSector} {p s : BlockSector} {v : Volume} {cnt : ℤ} {n k D : ℕ} {i : Inode}
  {name : CString} {e : DirEntry} {ok : Bool} {dir : Dir}

theorem Intact.openDirAt (h : Intact S live) (hp : p ∈ live) : ∃ i D S', S.openDirAt p = (D,S') ∧ Intact S' live ∧
    OpenDir S' D i ∧ i.sector = p ∧ S'.dirAt D = some ⟨D,i.addr,entrySize,1⟩ ∧ (∀ q, S'.record q = S.record q) ∧
    S'.vol = S.vol ∧ (i ∈ S.openInodes ∨ i.removed = false) := by
  obtain ⟨i,T,ho,hint,hi,his,hor,hrec,hvol,-⟩ := h.open_frame hp
  have hat : (T.dirOpen i.addr).2.dirAt T.nextAddr = some ⟨T.nextAddr,i.addr,entrySize,1⟩ := by
    rw [System.dirAt]
    exact List.find?_cons_of_pos (decide_eq_true rfl)
  refine ⟨i,T.nextAddr,(T.dirOpen i.addr).2,?_,{ hint with past := fun j hj => (hint.past j hj).trans (Nat.lt_succ_self _) },
    ⟨⟨_,hat,rfl⟩,hi⟩,his,hat,hrec,hvol,hor.imp_right And.left⟩
  rw [System.openDirAt,ho]
  rfl

theorem Intact.dirCreate (h : Intact S live) (hs : Spare S live p v) (h0 : 0 ≤ cnt * entrySize) (hl : cnt * entrySize < 2147483648)
    (hc : System.dirCreate p cnt { S with vol := v } = some (true,S')) : p ∉ live ∧ Intact S' (insert p live) ∧
      (∀ q ∈ live, (S'.record q).isDir = (S.record q).isDir) ∧
      S'.entries p = put (slots (List.replicate (cnt * entrySize).toNat 0)) 0 (parentEntry p) := by
  have hnot : p ∉ live := fun hp => hs.owned p hp (.inl rfl)
  obtain ⟨ok,d,w,hcr,-,-,hf,hnew⟩ := h.create_frame hs true h0 hl
  rw [System.dirCreate] at hc
  dsimp only at hc
  rw [hcr] at hc
  cases ok with
  | false => cases hc
  | true =>
    obtain ⟨hint,-,hbytes⟩ := hnew rfl
    obtain ⟨S₁,hS₁⟩ : ∃ S₁, S₁ = { S with vol := w } := ⟨_,rfl⟩
    rw [← hS₁] at hint hbytes hf
    rw [if_pos rfl,show { S with vol := System.ignoreResult (true,w) } = S₁ from hS₁.symm] at hc
    obtain ⟨i,D,S₂,ho,hint₂,hod,his,hat,hrec₂,hvol₂,hor⟩ := hint.openDirAt (Set.mem_insert p live)
    have hrm : i.removed = false := by
      refine hor.elim (fun hi => absurd (h.inode i ?_).1 (his ▸ hnot)) id
      rw [hS₁] at hi
      exact hi
    have hopen : (S₁.inodeOpen p).2.dirOpen (S₁.inodeOpen p).1 = (D,S₂) := ho
    rw [hopen] at hc
    have hent₂ : S₂.entries i.sector = slots (List.replicate (cnt * entrySize).toNat 0) := by
      rw [his,System.entries,Intact.open_bytes hrec₂ hvol₂,hbytes]
    obtain ⟨ok,i',S₃,hw,hstep,-,hent,-⟩ := hint₂.writeEntry hod (k := 0) (Nat.zero_le _) (parentEntry p)
    rw [show ((36 : ℤ) * (0 : ℕ)) = 0 from rfl] at hw
    have hw' : S₂.writeEntry D ⟨p,Vector.replicate 31 0,true⟩ 0 = some (ok,S₃) := hw
    rw [hw',Option.bind_some] at hc
    have hat₃ : S₃.dirAt D = some ⟨D,i.addr,entrySize,1⟩ := by
      rw [System.dirAt,hstep.frame.dirs]
      exact hat
    have hai : i'.addr = i.addr := by rw [hstep.inode_eq]
    obtain ⟨hclose,hint₄,hbytes₄,hinfo,-⟩ := hstep.intact.close_frame hstep.dir.mem (by rw [hstep.inode_eq]; exact hrm)
    rw [hai] at hclose hint₄ hbytes₄ hinfo
    rw [System.dirClose,hat₃,Option.bind_some,if_pos (sub_self 1)] at hc
    dsimp only at hc
    rw [hclose] at hc
    obtain ⟨rfl,rfl⟩ := Prod.mk.inj (Option.some.inj hc)
    rw [if_pos rfl,hent₂] at hent
    refine ⟨hnot,{ hint₄ with },fun q hq => ?_,?_⟩
    · have hne : q ≠ p := fun he => hnot (he ▸ hq)
      calc (System.record (S₃.closed i.addr) q).isDir
        _ = (S₃.record q).isDir := (hinfo q).isDir_eq
        _ = (S₂.record q).isDir := by rw [hstep.frame.record q ⟨Set.mem_insert_of_mem _ hq,his.symm ▸ hne⟩]
        _ = (S₁.record q).isDir := by rw [hrec₂]
        _ = (S.record q).isDir := by rw [hf.record q hq]
    · rw [his] at hent
      exact (congrArg slots (hbytes₄ p)).trans hent

end

/-- A directory as `dir_create` leaves it, with the files that are there. -/
inductive DirMade : BlockSector → System → Set BlockSector → Prop
  | root {S} (h : Formatted S) : DirMade rootDirSector S ∅
  | made {S A p v cnt S'} (h : InodeRun S A) (ha : freeMapAllocate 1 S.vol = (some p,v)) (h0 : 0 ≤ cnt)
      (hl : IsInt (cnt * entrySize)) (hc : System.dirCreate p cnt { S with vol := v } = some (true,S')) :
      DirMade p S' {s | (A s).isSome ∧ (S'.record s).isDir = false}

section
variable {S S' : System} {live files : Set BlockSector} {p s : BlockSector} {n k D : ℕ} {i : Inode}
  {name : CString} {e : DirEntry} {ok : Bool} {dir : Dir} {M : CString → Option BlockSector}

theorem slots_zeros (he : (slots (List.replicate n 0))[k]? = some e) : e.inUse = false := by
  rw [getElem?_slots] at he
  split_ifs at he
  obtain rfl := Option.some.inj he
  rw [List.drop_replicate,DirEntry.decode]
  dsimp only
  rw [List.getD_eq_getElem?_getD,List.getElem?_replicate]
  split_ifs
  · rfl
  · rfl

/-- The slots of a new directory, but for the first, are free. -/
theorem newDir_free (hk : 1 ≤ k) (he : (put (slots (List.replicate n 0)) 0 (parentEntry p))[k]? = some e) : e.inUse = false := by
  rw [getElem?_put (Nat.zero_le _),if_neg (by omega)] at he
  exact slots_zeros he

theorem newDir_parent : (put (slots (List.replicate n 0)) 0 (parentEntry p))[0]? = some (parentEntry p) := by
  rw [getElem?_put (Nat.zero_le _),if_pos rfl]

theorem dirTable_new (files : Set BlockSector) : DirTable (put (slots (List.replicate n 0)) 0 (parentEntry p)) files := by
  have hno : ∀ {k : ℕ} {e : DirEntry} {C : Prop}, 1 ≤ k → (put (slots (List.replicate n 0)) 0 (parentEntry p))[k]? = some e →
      e.inUse = true → C := fun hk he hu => absurd ((newDir_free hk he).symm.trans hu) Bool.false_ne_true
  refine ⟨⟨parentEntry p,newDir_parent,rfl,rfl⟩,fun j k d e hd he hdu heu _ => ?_,fun k e hk he hu => hno hk he hu,
    fun k e hk he hu => hno hk he hu,fun j k d e hj _ hd _ hdu _ _ => hno hj hd hdu⟩
  by_cases hj : 1 ≤ j
  · exact hno hj hd hdu
  · by_cases hk : 1 ≤ k
    · exact hno hk he heu
    · omega

theorem entryOf_newDir (name : CString) : entryOf (put (slots (List.replicate n 0)) 0 (parentEntry p)) name = none := by
  refine Option.eq_none_iff_forall_ne_some.mpr fun s hs => ?_
  obtain ⟨k,e,hk,he,hu,-⟩ := (dirTable_new Set.univ).entryOf_some.mp hs
  exact Bool.false_ne_true ((newDir_free hk he).symm.trans hu)

end

/-! ### Runs -/

/-- Runs of adds and removes on the open directory `D`: the state, the files there are, and the sector that each
name stands for by the last successful operation on it. A file is added when it has no entry. -/
inductive DirRun (p : BlockSector) (D : ℕ) : System → Set BlockSector → (CString → Option BlockSector) → Prop
  | start {S S' files} (h : DirMade p S files) (ho : S.openDirAt p = (D,S')) : DirRun p D S' files fun _ => none
  | create {S files M s v length ok w} (h : DirRun p D S files M) (ha : freeMapAllocate 1 S.vol = (some s,v)) (h0 : 0 ≤ length)
      (hl : IsInt length) (hc : Fs.inodeCreate s length false v = (ok,w)) :
      DirRun p D { S with vol := w } (if ok then insert s files else files) M
  | add {S files M name s ok S'} (h : DirRun p D S files M) (hn : 0 ∉ name) (hs : s ∈ files) (hnew : ∀ other, M other ≠ some s)
      (ha : S.dirAdd D name s = some (ok,S')) : DirRun p D S' files (if ok then Function.update M name (some s) else M)
  | remove {S files M name ok S'} (h : DirRun p D S files M) (hr : S.dirRemove D name = some (ok,S')) :
      DirRun p D S' (if ok then files \ {s | M name = some s} else files) (if ok then Function.update M name none else M)

/-- The directory at `p`, open at `D`, stands for the map `M`. -/
structure DirHolds (p : BlockSector) (D : ℕ) (S : System) (live files : Set BlockSector) (M : CString → Option BlockSector) : Prop where
  intact : Intact S live
  opened : ∃ i, OpenDir S D i ∧ i.sector = p
  sub : files ⊆ live \ {p}
  plain : ∀ s ∈ files, (S.record s).isDir = false
  parent : (S.entries p)[0]? = some (parentEntry p)
  table : DirTable (S.entries p) files
  map : ∀ name, entryOf (S.entries p) name = M name

/-- The entries in use in `l` are also in `m`, but perhaps that of one name. -/
def KeptEntries (but : Option CString) (l m : List DirEntry) : Prop :=
  ∀ k e, l[k]? = some e → e.inUse = true → k = 0 ∨ some e.cname ≠ but → m[k]? = some e

section
variable {S S' : System} {live live' files files' : Set BlockSector} {p s : BlockSector} {v w : Volume} {n k D : ℕ} {i i' : Inode}
  {name : CString} {ok : Bool} {M M' : CString → Option BlockSector} {but : Option CString} {length : ℤ}

theorem DirHolds.step (h : DirHolds i.sector D S live files M) (hstep : DirStep S S' live' D i i') (hf : files' ⊆ live' \ {i.sector})
    (hsub : files' ⊆ files) (hkept : KeptEntries but (S.entries i.sector) (S'.entries i.sector))
    (htable : DirTable (S'.entries i.sector) files') (hmap : ∀ name, entryOf (S'.entries i.sector) name = M' name) :
    DirHolds i.sector D S' live' files' M' :=
  ⟨hstep.intact,⟨i',hstep.dir,hstep.sector⟩,hf,fun s hs => by rw [hstep.frame.record s (hf hs)]; exact h.plain s (hsub hs),
    hkept 0 _ h.parent rfl (.inl rfl),htable,hmap⟩

theorem DirHolds.dirAdd (h : DirHolds p D S live files M) (h0 : 0 ∉ name) (hs : s ∈ files) (hnew : ∀ other, M other ≠ some s) :
    ∃ ok S', S.dirAdd D name s = some (ok,S') ∧
      DirHolds p D S' live files (if ok then Function.update M name (some s) else M) ∧ KeptEntries none (S.entries p) (S'.entries p) ∧
      (M name = none → ¬ (name = [] ∨ nameMax < name.length) → freeSlot (S.entries p) < (S.entries p).length → ok = true) := by
  obtain ⟨i,hod,rfl⟩ := h.opened
  have h1 := h.table.length_pos
  by_cases hinv : name = [] ∨ nameMax < name.length
  · exact ⟨false,S,dirAdd_invalid D s S hinv,h,fun _ _ he _ _ => he,fun _ hn => absurd hinv hn⟩
  cases he : (S.entries i.sector)[slotOf name (S.entries i.sector)]? with
  | some e =>
    refine ⟨false,S,h.intact.dirAdd_present hod h1 s he,h,fun _ _ he _ _ => he,fun hn => ?_⟩
    rw [← h.map name,entryOf_none,he] at hn
    cases hn
  | none =>
    obtain ⟨ok,i',S',hadd,hstep,-,hent,hin⟩ := h.intact.dirAdd_new hod h1 hinv s he
    have hkept : KeptEntries none (S.entries i.sector) (S'.entries i.sector) := by
      intro k e hk hu _
      rw [hent]
      cases ok with
      | false => exact hk
      | true =>
        rw [if_pos rfl,getElem?_put (freeSlot_le _),if_neg]
        · exact hk
        · rintro rfl
          rw [freeSlot_free hk] at hu
          cases hu
    refine ⟨ok,S',hadd,?_,hkept,fun _ _ => hin⟩
    cases ok with
    | false =>
      rw [if_neg (by decide)] at hent
      exact h.step hstep h.sub subset_rfl hkept (hent ▸ h.table) (hent ▸ h.map)
    | true =>
      have hc : DirEntry.cname ⟨s,strncpyName name,true⟩ = name := cname_strncpyName h0 (by omega)
      have htable := @DirTable.add _ _ ⟨s,strncpyName name,true⟩ h.table (hc.symm ▸ fun hn => hinv (.inl hn)) hs
        (by rw [hc]; exact entryOf_none.mpr he) fun other => (h.map other).symm ▸ hnew other
      rw [if_pos rfl] at hent ⊢
      refine h.step hstep h.sub subset_rfl hkept (hent ▸ htable) fun other => ?_
      rw [hent,h.table.entryOf_add htable rfl,hc,Function.update_apply,h.map]

theorem DirHolds.dirRemove (h : DirHolds p D S live files M) (name : CString) : ∃ ok live' S', S.dirRemove D name = some (ok,S') ∧
    ok = (M name).isSome ∧ DirHolds p D S' live' (if ok then files \ {s | M name = some s} else files)
      (if ok then Function.update M name none else M) ∧
    KeptEntries (some name) (S.entries p) (S'.entries p) := by
  obtain ⟨i,hod,rfl⟩ := h.opened
  have h1 := h.table.length_pos
  have hmap := h.map name
  cases he : (S.entries i.sector)[slotOf name (S.entries i.sector)]? with
  | none =>
    rw [entryOf_none.mpr he] at hmap
    exact ⟨false,live,S,h.intact.dirRemove_absent hod h1 he,by rw [← hmap]; rfl,h,fun _ _ he _ _ => he⟩
  | some e =>
    rw [entryOf,he,Option.map_some] at hmap
    obtain ⟨hpos,-,hu,hc⟩ := h.table.slotOf_iff.mp ⟨rfl,he⟩
    have hlt := (List.getElem?_eq_some_iff.mp he).1
    have hfile := h.table.file _ e hpos he hu
    obtain ⟨hlive,hne⟩ := h.sub hfile
    obtain ⟨i',S',hrm,hstep,hent,-⟩ := h.intact.dirRemove_file hod h1 he hlive hne (h.plain _ hfile)
    have hkept : KeptEntries (some name) (S.entries i.sector) (S'.entries i.sector) := by
      intro k d hk hdu hor
      rw [hent,getElem?_put hlt.le,if_neg]
      · exact hk
      · rintro rfl
        rw [he] at hk
        obtain rfl := Option.some.inj hk
        cases hor with
        | inl h0 => omega
        | inr hn => exact hn (congrArg some hc)
    have hgone : {s | M name = some s} = {e.inodeSector} := by
      ext q
      rw [← hmap,Set.mem_ofPred_eq,Set.mem_singleton_iff,Option.some_inj,eq_comm]
    refine ⟨true,live \ {e.inodeSector},S',hrm,by rw [← hmap]; rfl,?_,hkept⟩
    rw [if_pos rfl,if_pos rfl,hgone]
    refine h.step hstep (fun q hq => ⟨⟨(h.sub hq.1).1,hq.2⟩,(h.sub hq.1).2⟩) Set.sdiff_subset hkept
      (hent ▸ h.table.remove he) fun other => ?_
    rw [hent,h.table.entryOf_remove he,Function.update_apply,h.map]

/-- A new file that is not in the directory. -/
theorem DirHolds.create (h : DirHolds p D S live files M) (ha : freeMapAllocate 1 S.vol = (some s,v)) (h0 : 0 ≤ length)
    (hl : IsInt length) (hc : Fs.inodeCreate s length false v = (ok,w)) :
    ∃ live', DirHolds p D { S with vol := w } live' (if ok then insert s files else files) M := by
  have hall := h.intact.allocate ha
  obtain ⟨ok',d,w',hc',hcr,hint,hf,hnew⟩ := h.intact.create_frame hall.spare false h0 hl.2
  rw [hc] at hc'
  obtain ⟨rfl,rfl⟩ := Prod.mk.inj hc'
  obtain ⟨i,hod,rfl⟩ := h.opened
  have hp := (h.intact.inode i hod.mem).1
  have hent := entries_of_frame hf hp
  have hplain : ∀ q ∈ files, (System.record { S with vol := w } q).isDir = false := fun q hq => by
    rw [hf.record q (h.sub hq).1]
    exact h.plain q hq
  cases ok with
  | false => exact ⟨live,hint,⟨i,hod.of_frame hf hp,rfl⟩,h.sub,hplain,hent ▸ h.parent,hent ▸ h.table,hent ▸ h.map⟩
  | true =>
    obtain ⟨hint',hrec,-⟩ := hnew rfl
    have hsp : s ≠ i.sector := fun he => hall.owned s (he ▸ hp) (.inl rfl)
    rw [if_pos rfl]
    refine ⟨insert s live,hint',⟨i,hod.of_frame hf hp,rfl⟩,fun q hq => ?_,fun q hq => ?_,hent ▸ h.parent,
      (hent ▸ h.table).mono (Set.subset_insert _ _),hent ▸ h.map⟩
    · cases hq with
      | inl he => exact ⟨.inl he,fun hq => hsp (he.symm.trans hq)⟩
      | inr hq => exact ⟨.inr (h.sub hq).1,(h.sub hq).2⟩
    · cases hq with
      | inl he =>
        rw [he,hrec]
        exact hcr.info.isDir_eq.trans (InodeDisk.isDir_create _ _)
      | inr hq => exact hplain q hq

/-- A new directory, opened. -/
theorem DirHolds.new (hint : Intact S live) (hp : p ∈ live) (hsub : files ⊆ live \ {p}) (hplain : ∀ s ∈ files, (S.record s).isDir = false)
    (hent : S.entries p = put (slots (List.replicate n 0)) 0 (parentEntry p)) (ho : S.openDirAt p = (D,S')) :
    DirHolds p D S' live files fun _ => none := by
  obtain ⟨i,D',T,ho',hint',hod,his,-,hrec,hvol,-⟩ := hint.openDirAt hp
  rw [ho] at ho'
  obtain ⟨rfl,rfl⟩ := Prod.mk.inj ho'
  have hent' : S'.entries p = put (slots (List.replicate n 0)) 0 (parentEntry p) := by
    rw [System.entries,Intact.open_bytes hrec hvol,← System.entries,hent]
  exact ⟨hint',⟨i,hod,his⟩,hsub,fun s hs => by rw [hrec]; exact hplain s hs,hent' ▸ newDir_parent,hent' ▸ dirTable_new files,
    fun name => hent' ▸ entryOf_newDir name⟩

theorem DirMade.start (h : DirMade p S files) (ho : S.openDirAt p = (D,S')) : ∃ live, DirHolds p D S' live files fun _ => none := by
  cases h with
  | root h =>
    obtain ⟨-,-,-,hint,hent⟩ := h.atRest
    exact ⟨_,DirHolds.new (n := 36000) hint (Set.mem_singleton _) (Set.empty_subset _) (fun s hs => hs.elim) hent ho⟩
  | made h ha h0 hl hc =>
    have hin := h.holds.intact
    have hs := (hin.allocate ha).spare
    obtain ⟨hnot,hint,-,hent⟩ := hin.dirCreate hs (Int.mul_nonneg h0 (by decide)) hl.2 hc
    refine ⟨_,DirHolds.new hint (Set.mem_insert _ _) (fun q hq => ?_) (fun q hq => hq.2) hent ho⟩
    have hmem : q ∈ Arrays.inodes _ := Set.mem_insert_of_mem _ hq.1
    exact ⟨.inr hmem,fun he : q = p => hnot (he ▸ hmem)⟩

/-- The directory stands for the map in every run. -/
theorem DirRun.holds (h : DirRun p D S files M) : ∃ live, DirHolds p D S live files M := by
  induction h with
  | start h ho => exact h.start ho
  | create _ ha h0 hl hc ih =>
    obtain ⟨live,ih⟩ := ih
    exact ih.create ha h0 hl hc
  | add _ hn hs hnew ha ih =>
    obtain ⟨live,ih⟩ := ih
    obtain ⟨ok,S',ha',hh,-⟩ := ih.dirAdd hn hs hnew
    rw [ha] at ha'
    obtain ⟨rfl,rfl⟩ := Prod.mk.inj (Option.some.inj ha')
    exact ⟨live,hh⟩
  | remove _ hr ih =>
    obtain ⟨live,ih⟩ := ih
    obtain ⟨ok,live',S',hr',-,hh,-⟩ := ih.dirRemove _
    rw [hr] at hr'
    obtain ⟨rfl,rfl⟩ := Prod.mk.inj (Option.some.inj hr')
    exact ⟨live',hh⟩

/-! ### Reading -/

/-- The body of a loop that only takes the names. -/
def onlyNames (_ : CString) (acc : Unit) (S : System) : Option (Bool × Unit × System) := some (true,acc,S)

theorem Intact.readNames (n : ℕ) : ∀ (k : ℕ) (S : System) (dir : Dir), Intact S live → i ∈ S.openInodes → S.dirAt D = some dir →
    dir.inode = i.addr → (S.entries i.sector).length < n + k → k ≤ (S.entries i.sector).length → dir.pos = 36 * k →
    ∃ S', S.readdirLoop D onlyNames n () = some (⟨keys DirEntry.inUse DirEntry.cname (S.entries i.sector) k,true,()⟩,S') := by
  induction n with
  | zero => exact fun k S dir _ _ _ _ hn hk => absurd hn (by omega)
  | succ n ih =>
    intro k S dir h hi hd ha hn hk hp
    obtain ⟨pos,hread⟩ := h.dirReaddir hi hd ha hk hp
    have hkeys := keys_scan DirEntry.inUse DirEntry.cname (S.entries i.sector) k
    have hge : k ≤ scan DirEntry.inUse (S.entries i.sector) k := le_scan
    generalize scan DirEntry.inUse (S.entries i.sector) k = m at hread hkeys hge
    cases he : (S.entries i.sector)[m]? with
    | none =>
      rw [he] at hread hkeys
      rw [hkeys]
      exact ⟨_,readdirLoop_none hread⟩
    | some e =>
      rw [he] at hread hkeys
      obtain ⟨hread,hpos⟩ := hread
      have hlt := (List.getElem?_eq_some_iff.mp he).1
      obtain ⟨S',hloop⟩ := ih (m + 1) (S.setDir { dir with pos := pos }) { dir with pos := pos } { h with } hi
        (System.dirAt_setDir hd pos) ha (show (S.entries i.sector).length < n + (m + 1) by omega) hlt hpos
      rw [hkeys]
      exact ⟨S',readdirLoop_some hread rfl hloop⟩

/-- A directory is a finite map: a name is found when its last successful operation was an add, with the sector of that add; what
cannot be done changes nothing; the other entries stay; and reading the directory from the start gives each name once. -/
theorem directory_is_finite_map (h : DirRun p D S files M) :
    SlotTable.Distinct DirEntry.inUse DirEntry.cname (S.entries p) ∧
    (∀ name, ∃ r, S.lookup D name = some r ∧ r.map (fun x => x.1.inodeSector) = M name) ∧
    (∀ name s, name = [] ∨ nameMax < name.length ∨ (M name).isSome → S.dirAdd D name s = some (false,S)) ∧
    (∀ name, M name = none → S.dirRemove D name = some (false,S)) ∧
    (∀ name s, 0 ∉ name → s ∈ files → (∀ other, M other ≠ some s) → ∃ ok S', S.dirAdd D name s = some (ok,S') ∧
      KeptEntries none (S.entries p) (S'.entries p)) ∧
    (∀ name, (M name).isSome → ∃ S', S.dirRemove D name = some (true,S') ∧ KeptEntries (some name) (S.entries p) (S'.entries p)) ∧
    (S.entries p)[0]? = some (parentEntry p) ∧
    ∀ n, (S.entries p).length ≤ n → ∃ names S',
      (S.openDirAt p).2.readdirLoop (S.openDirAt p).1 onlyNames n () = some (⟨names,true,()⟩,S') ∧
        names.Nodup ∧ ∀ name, name ∈ names ↔ (M name).isSome := by
  obtain ⟨live,h⟩ := h.holds
  obtain ⟨i,hod,rfl⟩ := h.opened
  have h1 := h.table.length_pos
  have hslot : ∀ name, M name = none ↔ (S.entries i.sector)[slotOf name (S.entries i.sector)]? = none := fun name => by
    rw [← h.map name,entryOf_none]
  refine ⟨h.table.names,fun name => ⟨_,h.intact.lookup hod h1,?_⟩,fun name s hor => ?_,fun name hn => ?_,fun name s h0 hs hnew => ?_,
    fun name hs => ?_,h.parent,fun n hn => ?_⟩
  · rw [← h.map name,Option.map_map]
    rfl
  · rcases hor with hn | hn | hn
    · exact dirAdd_invalid D s S (.inl hn)
    · exact dirAdd_invalid D s S (.inr hn)
    · rw [← h.map,entryOf_isSome] at hn
      obtain ⟨e,he⟩ := hn
      exact h.intact.dirAdd_present hod h1 s he
  · exact h.intact.dirRemove_absent hod h1 ((hslot name).mp hn)
  · obtain ⟨ok,S',ha,-,hk,-⟩ := h.dirAdd h0 hs hnew
    exact ⟨ok,S',ha,hk⟩
  · obtain ⟨ok,live',S',hr,hok,-,hk⟩ := h.dirRemove name
    rw [hok,hs] at hr
    exact ⟨S',hr,hk⟩
  · obtain ⟨j,D',T,ho,hint,hod',hjs,hat,hrec,hvol,-⟩ := h.intact.openDirAt (h.intact.inode i hod.mem).1
    have hent : T.entries j.sector = S.entries i.sector := by
      rw [hjs,System.entries,Intact.open_bytes hrec hvol,← System.entries]
    obtain ⟨S',hloop⟩ := hint.readNames n 1 T _ hod'.mem hat rfl (by rw [hent]; omega) (by rw [hent]; exact h1) rfl
    rw [hent] at hloop
    refine ⟨_,S',?_,h.table.nodup_names,fun name => ?_⟩
    · rw [ho]
      exact hloop
    · rw [h.table.mem_names,h.map]

theorem freeSlot_lt {l : List DirEntry} {e : DirEntry} (hk : l[k]? = some e) (hu : e.inUse = false) : freeSlot l < l.length := by
  by_contra hge
  have hlt := (List.getElem?_eq_some_iff.mp hk).1
  have hs := scan_skip (p := fun e : DirEntry => !e.inUse) (Nat.zero_le k) (show k < freeSlot l by omega) hk
  rw [hu] at hs
  cases hs

theorem length_newTable : newTable.length = 1000 := by
  rw [newTable,put,if_pos (by rw [length_slots,List.length_replicate]; decide),List.length_set,length_slots,List.length_replicate]

/-- A new root directory has a free slot. -/
theorem freeSlot_newTable : freeSlot newTable < newTable.length := by
  have hlen : 1 < newTable.length := by
    rw [length_newTable]
    decide
  exact freeSlot_lt (List.getElem?_eq_getElem hlen)
    (newDir_free (p := rootDirSector) (n := 36000) (le_refl 1) (List.getElem?_eq_getElem hlen))

/-- A run in which the root directory of a new file system gets its first entry. -/
theorem run_one_entry : ∃ D S files M s, DirRun rootDirSector D S files M ∧ M [97] = some s := by
  obtain ⟨S,hF,hn⟩ := formatted_199
  obtain ⟨-,-,-,hint,hent⟩ := hF.atRest
  obtain ⟨i,D,T,ho,hintT,-,his,-,hrec,hvol,-⟩ := hint.openDirAt (Set.mem_singleton _)
  rcases freeMapAllocate_count hintT.ok with ⟨-,h0⟩ | ⟨s,v,ha,-⟩
  · rw [hvol] at h0
    omega
  have hall := hintT.allocate ha
  obtain ⟨ok,d,w,hcr,hcs,-,hf,-⟩ := hintT.create_frame hall.spare false (show (0 : ℤ) ≤ 0 by decide) (by decide)
  have hok := hcs.ok_eq
  rw [show createDemand 0 = [] by decide +kernel,decide_eq_true (by exact Nat.zero_le _),decide_eq_true (by decide)] at hok
  have hok' : ok = true := hok
  subst hok'
  have hrun := (DirRun.start (.root hF) ho).create ha (le_refl 0) ⟨by decide,by decide⟩ hcr
  rw [if_pos rfl] at hrun
  have hent' : System.entries { T with vol := w } rootDirSector = newTable := by
    rw [entries_of_frame hf (Set.mem_singleton _),System.entries,Intact.open_bytes hrec hvol,← System.entries,hent]
  obtain ⟨live,hh⟩ := hrun.holds
  obtain ⟨ok,S',hadd,-,-,hok⟩ := hh.dirAdd (show (0 : UInt8) ∉ [97] by decide) (Set.mem_insert s ∅) fun _ => (Option.some_ne_none s).symm
  have hok' := hok rfl (by decide) (hent'.symm ▸ freeSlot_newTable)
  subst hok'
  have hrun' := hrun.add (by decide) (Set.mem_insert s ∅) (fun _ => (Option.some_ne_none s).symm) hadd
  rw [if_pos rfl] at hrun'
  exact ⟨D,S',_,_,s,hrun',Function.update_self _ _ _⟩

theorem directory_is_finite_map_one_entry : ∃ (D : ℕ) (S : System) (names : List CString) (S' : System) (s : BlockSector),
    (∃ r, S.lookup D [97] = some r ∧ r.map (fun x => x.1.inodeSector) = some s) ∧
    (S.openDirAt rootDirSector).2.readdirLoop (S.openDirAt rootDirSector).1 onlyNames (S.entries rootDirSector).length () =
      some (⟨names,true,()⟩,S') ∧ [97] ∈ names := by
  obtain ⟨D,S,files,M,s,hrun,hM⟩ := run_one_entry
  obtain ⟨-,hlook,-,-,-,-,-,hread⟩ := directory_is_finite_map hrun
  obtain ⟨names,S',hloop,-,hmem⟩ := hread _ (le_refl _)
  obtain ⟨r,hr,hs⟩ := hlook [97]
  exact ⟨D,S,names,S',s,⟨r,hr,hs.trans hM⟩,hloop,(hmem _).mpr (by rw [hM]; rfl)⟩

end
end ShellOS.Fs
