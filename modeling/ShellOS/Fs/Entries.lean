import ShellOS.Fs.Frame
import ShellOS.Fs.Slots

/-! The operations on an open directory, in terms of its table of entries. -/
namespace ShellOS.Fs
open CLib SlotTable

/-- `i` is the inode of the open directory at `D`. -/
structure OpenDir (S : System) (D : ℕ) (i : Inode) : Prop where
  dir : ∃ dir, S.dirAt D = some dir ∧ dir.inode = i.addr
  mem : i ∈ S.openInodes

/-- The entries of the directory whose inode is at `s`. -/
def System.entries (S : System) (s : BlockSector) : List DirEntry := slots (S.bytes s)

/-- The test of `lookup`. -/
def named (name : CString) (e : DirEntry) : Bool := e.inUse && decide (name = e.cname)

/-- The slot of a name, or the end of the table. Slot 0 belongs to the parent directory. -/
def slotOf (name : CString) (l : List DirEntry) : ℕ := scan (named name) l 1

/-- From `S` to `S'` the directory with inode `i` was changed, and perhaps files removed. -/
structure DirStep (S S' : System) (live' : Set BlockSector) (D : ℕ) (i i' : Inode) : Prop where
  intact : Intact S' live'
  dir : OpenDir S' D i'
  inode_eq : i' = { i with data := i'.data }
  kind : ∀ k, 125 ≤ k → k ≠ 126 → Sector.word i'.data k = Sector.word i.data k
  frame : Frame ( live' \ {i.sector}) S S'

section
variable {S S' S'' : System} {live live' : Set BlockSector} {D : ℕ} {i i' i'' : Inode} {s : BlockSector}
  {name : CString} {e : DirEntry} {k : ℕ}

theorem DirStep.sector (h : DirStep S S' live D i i') : i'.sector = i.sector := by rw [h.inode_eq]

theorem Intact.length_bytes (h : Intact S live) (hi : i ∈ S.openInodes) :
    (S.bytes i.sector).length = i.data.length.toNat := by
  rw [System.bytes,System.record_open h.sectors hi,length_content]

theorem Intact.scanDir (h : Intact S live) (hd : OpenDir S D i) (p : DirEntry → Bool)
    (hk : k ≤ (S.entries i.sector).length) :
    S.scanDir D p (36 * k) = some ((S.entries i.sector)[scan p (S.entries i.sector) k]?,
      36 * (scan p (S.entries i.sector) k : ℤ)) := by
  obtain ⟨dir,hdir,ha⟩ := hd.dir
  have hfile := h.file _ (h.inode i hd.mem).1
  have hlen := h.length_bytes hd.mem
  rw [System.record_open h.sectors hd.mem] at hfile
  have hb : S.entries i.sector = slots (storedBytes S.vol i.data) := by
    rw [System.entries,System.bytes,System.record_open h.sectors hd.mem,storedBytes_eq hfile.sized]
  rw [hb] at hk ⊢
  rw [System.scanDir,hdir,Option.bind_some,ha,h.inodeAt_eq hd.mem,Option.map_some,
    scanEntries_all S.vol hfile.sized.nonneg hk]

/-- `lookup`. -/
theorem Intact.lookup (h : Intact S live) (hd : OpenDir S D i) (h1 : 1 ≤ (S.entries i.sector).length) :
    S.lookup D name = some ((S.entries i.sector)[slotOf name (S.entries i.sector)]?.map fun e =>
      (e,36 * (slotOf name (S.entries i.sector) : ℤ))) := by
  have hp : (fun e : DirEntry => e.inUse && name == e.cname) = named name :=
    funext fun e => congrArg (e.inUse && ·) (Bool.eq_iff_iff.mpr (by simp))
  have hs := h.scanDir hd (named name) (k := 1) h1
  rw [System.lookup,hp]
  rw [show ((36 : ℤ) * (1 : ℕ)) = entrySize from rfl] at hs
  rw [hs,Option.map_some]
  rfl

/-- Overwriting a slot asks for no sector. -/
theorem Intact.writeDemand_slot (h : Intact S live) (hi : i ∈ S.openInodes) (hk : k < (S.entries i.sector).length) :
    writeDemand S.vol i.data 36 (36 * k) = [] := by
  rw [System.entries,length_slots,h.length_bytes hi] at hk
  exact if_neg (by omega)

/-- `inode_write_at` of an entry: a slot is overwritten, or one is added if there is space. -/
theorem Intact.writeEntry (h : Intact S live) (hd : OpenDir S D i) (hk : k ≤ (S.entries i.sector).length) (e : DirEntry) :
    ∃ ok i' S', S.writeEntry D e (36 * k) = some (ok,S') ∧ DirStep S S' live D i i' ∧
      Writes S.vol i e.encode 36 (36 * k) ok i' S'.vol ∧
      S'.entries i.sector = (if ok then put (S.entries i.sector) k e else S.entries i.sector) ∧
      (k < (S.entries i.sector).length → ok = true) := by
  obtain ⟨dir,hdir,ha⟩ := hd.dir
  have hl := (h.inode i hd.mem).1
  have hfile := h.file _ hl
  have hlen := h.length_bytes hd.mem
  rw [System.record_open h.sectors hd.mem] at hfile
  have hle := hfile.sized.le
  have hnn := hfile.sized.nonneg
  have hk' := hk
  rw [System.entries,length_slots,hlen] at hk'
  obtain ⟨ok,i',w,hwr,hws,hint,hmem,hbytes,hf⟩ := @h.write_frame S live i hd.mem e.encode 36 (36 * k)
    (by omega) (by decide) (by omega) (by decide) (by rw [e.length_encode]; decide)
  have htake : e.encode.take (36 : ℤ).toNat = e.encode := List.take_of_length_le e.length_encode.le
  have hofs : ((36 : ℤ) * k).toNat = 36 * k := by omega
  rw [htake,hofs] at hbytes
  refine ⟨ok,i',_,?_,⟨hint,⟨⟨dir,?_,ha.trans (by rw [hws.inode_eq])⟩,hmem⟩,hws.inode_eq,hws.kind,hf⟩,hws,?_,
    fun hlt => ?_⟩
  · rw [System.writeEntry,hdir,Option.bind_some,ha,show entrySize = 36 from rfl,hwr,Option.map_some]
    cases ok <;> rfl
  · exact hdir
  · rw [System.entries,hbytes]
    cases ok with
    | false =>
      rw [if_neg (by decide),if_neg (by decide)]
      rfl
    | true =>
      rw [if_pos rfl,if_pos rfl,System.entries]
      exact slots_overwrite hk e
  · rw [hws.ok_eq,h.writeDemand_slot hd.mem hlt]
    rw [System.entries,length_slots,hlen] at hlt
    simp only [List.length_nil,Nat.zero_le,decide_true,Bool.true_and,decide_eq_true_eq]
    omega

theorem OpenDir.of_frame {P : Set BlockSector} (hd : OpenDir S D i) (hf : Frame P S S') (hP : i.sector ∈ P) :
    OpenDir S' D i := by
  refine ⟨?_,(hf.opens i hP).mpr hd.mem⟩
  rw [System.dirAt,hf.dirs]
  exact hd.dir

theorem entries_of_frame {P : Set BlockSector} (hf : Frame P S S') (hP : s ∈ P) : S'.entries s = S.entries s := by
  rw [System.entries,hf.bytes s hP,System.entries]

/-! ### Adding and removing -/

theorem cname_strncpyName {inodeSector : BlockSector} {inUse : Bool} (h0 : 0 ∉ name) (hl : name.length ≤ nameMax) :
    DirEntry.cname ⟨inodeSector,strncpyName name,inUse⟩ = name := by
  have hpad : (strncpyName name).toList = name ++ List.replicate (31 - name.length) 0 := by
    unfold nameMax at hl
    refine List.ext_getElem (by simp; omega) fun k hk _ => ?_
    have hk' : k < 31 := by simpa using hk
    simp only [strncpyName,Vector.getElem_toList,Vector.getElem_ofFn]
    by_cases hkn : k < name.length
    · rw [List.getElem_append_left hkn,List.getD_eq_getElem _ _ hkn]
    · rw [List.getElem_append_right (by omega),List.getElem_replicate,List.getD_eq_default _ _ (by omega)]
  have hpos : 31 - name.length = (30 - name.length) + 1 := by
    unfold nameMax at hl
    omega
  rw [DirEntry.cname,hpad,hpos,List.replicate_succ]
  rw [List.takeWhile_append_of_pos fun c hc => by simpa using fun he : c = 0 => h0 (he ▸ hc)]
  simp

/-- The slot that `dir_add` fills. -/
def freeSlot (l : List DirEntry) : ℕ := scan (fun e => !e.inUse) l 0

theorem dirAdd_invalid (D : ℕ) (inodeSector : BlockSector) (S : System) (h : name = [] ∨ nameMax < name.length) :
    S.dirAdd D name inodeSector = some (false,S) := by
  rw [System.dirAdd,if_pos h]

theorem Intact.dirAdd_present (h : Intact S live) (hd : OpenDir S D i) (h1 : 1 ≤ (S.entries i.sector).length)
    (inodeSector : BlockSector) (he : (S.entries i.sector)[slotOf name (S.entries i.sector)]? = some e) :
    S.dirAdd D name inodeSector = some (false,S) := by
  unfold System.dirAdd
  split
  · rfl
  · rw [h.lookup hd h1,he,Option.map_some,Option.bind_some,if_pos (by rfl)]

/-- `dir_add` of a new name. -/
theorem Intact.dirAdd_new (h : Intact S live) (hd : OpenDir S D i) (h1 : 1 ≤ (S.entries i.sector).length) (hn : ¬ (name = [] ∨ nameMax < name.length))
    (inodeSector : BlockSector) (he : (S.entries i.sector)[slotOf name (S.entries i.sector)]? = none) :
    ∃ ok i' S', S.dirAdd D name inodeSector = some (ok,S') ∧ DirStep S S' live D i i' ∧
      Writes S.vol i (DirEntry.encode ⟨inodeSector,strncpyName name,true⟩) 36
        (36 * (freeSlot (S.entries i.sector) : ℤ)) ok i' S'.vol ∧
      S'.entries i.sector = (if ok then put (S.entries i.sector) (freeSlot (S.entries i.sector))
        ⟨inodeSector,strncpyName name,true⟩ else S.entries i.sector) ∧
      (freeSlot (S.entries i.sector) < (S.entries i.sector).length → ok = true) := by
  have hs := h.scanDir hd (fun e => !e.inUse) (k := 0) (Nat.zero_le _)
  obtain ⟨ok,i',S',hwr,hstep,hws,hent,hin⟩ := h.writeEntry hd (k := freeSlot (S.entries i.sector))
    (scan_le (Nat.zero_le _)) ⟨inodeSector,strncpyName name,true⟩
  refine ⟨ok,i',S',?_,hstep,hws,hent,hin⟩
  rw [show ((36 : ℤ) * (0 : ℕ)) = 0 from rfl] at hs
  rw [System.dirAdd,if_neg hn,h.lookup hd h1,he,Option.map_none,Option.bind_some,if_neg (by decide),hs,Option.bind_some]
  exact hwr

theorem Intact.dirRemove_absent (h : Intact S live) (hd : OpenDir S D i) (h1 : 1 ≤ (S.entries i.sector).length)
    (he : (S.entries i.sector)[slotOf name (S.entries i.sector)]? = none) :
    S.dirRemove D name = some (false,S) := by
  rw [System.dirRemove,h.lookup hd h1,he,Option.map_none,Option.bind_some]

/-- `dir_remove` of a file: its entry is cleared, and its inode goes. -/
theorem Intact.dirRemove_file (h : Intact S live) (hd : OpenDir S D i) (h1 : 1 ≤ (S.entries i.sector).length)
    (he : (S.entries i.sector)[slotOf name (S.entries i.sector)]? = some e) (hl : e.inodeSector ∈ live)
    (hne : e.inodeSector ≠ i.sector) (hdir : (S.record e.inodeSector).isDir = false) :
    ∃ i' S', S.dirRemove D name = some (true,S') ∧ DirStep S S' (live \ {e.inodeSector}) D i i' ∧
      S'.entries i.sector = put (S.entries i.sector) (slotOf name (S.entries i.sector)) { e with inUse := false } ∧
      (∀ j ∈ S'.openInodes, j.sector ≠ e.inodeSector) ∧ MapKept S.vol S'.vol ∧
      numFreeSectors S'.vol = numFreeSectors S.vol + fileSectors (S.bytes e.inodeSector).length := by
  have hlt : slotOf name (S.entries i.sector) < (S.entries i.sector).length := (List.getElem?_eq_some_iff.mp he).1
  obtain ⟨t,S₁,hopen,hint₁,ht,hts,-,hrec,hvol,hf₁⟩ := h.open_frame hl
  have hi : i.sector ∈ Set.compl {e.inodeSector} := Ne.symm hne
  have hd₁ := hd.of_frame hf₁ hi
  have hent₁ := entries_of_frame hf₁ hi
  have htdir : t.data.isDir = false := by
    rw [← System.record_open hint₁.sectors ht,hts,hrec]
    exact hdir
  obtain ⟨ok,i',S₂,hwr,hstep,hws,hent,hok⟩ := hint₁.writeEntry hd₁
    (k := slotOf name (S.entries i.sector)) (hent₁ ▸ hlt.le) { e with inUse := false }
  obtain rfl := hok (hent₁ ▸ hlt)
  rw [if_pos rfl,hent₁] at hent
  have hsl : e.inodeSector ∈ live \ {i.sector} := ⟨hl,hne⟩
  have ht₂ : t ∈ S₂.openInodes := (hstep.frame.opens t (hts ▸ hsl)).mpr ht
  obtain ⟨S₃,S₄,hrm,hcl,hint₄,hgone,hf₄,hk₄,hcount⟩ := hstep.intact.remove_frame ht₂
  rw [hts] at hint₄ hgone hf₄
  have hi₄ : i.sector ∈ live \ {e.inodeSector} := ⟨(h.inode i hd.mem).1,Ne.symm hne⟩
  -- the entry is overwritten in place
  have hno := hint₁.writeDemand_slot hd₁.mem (hent₁.symm ▸ hlt : slotOf name (S.entries i.sector) < (S₁.entries i.sector).length)
  have hroom : (writeDemand S₁.vol i.data 36 (36 * (slotOf name (S.entries i.sector) : ℤ))).length ≤ numFreeSectors S₁.vol := by
    rw [hno]
    exact Nat.zero_le _
  refine ⟨i',S₄,?_,⟨hint₄,hstep.dir.of_frame hf₄ (hstep.sector ▸ hi₄),hstep.inode_eq,hstep.kind,?_⟩,?_,hgone,?_,?_⟩
  · rw [System.dirRemove,h.lookup hd h1,he,Option.map_some,Option.bind_some]
    dsimp only
    rw [hopen]
    dsimp only
    rw [hint₁.inodeAt_eq ht,Option.bind_some,if_neg (by rw [htdir]; decide),System.dirErase,hwr,Option.bind_some,
      if_pos rfl,hrm,Option.bind_some,hcl]
    rfl
  · have h1 : Frame ((live \ {e.inodeSector}) \ {i.sector}) S S₁ := hf₁.mono fun p hp => hp.1.2
    have h2 : Frame ((live \ {e.inodeSector}) \ {i.sector}) S₁ S₂ := hstep.frame.mono fun p hp => ⟨hp.1.1,hp.2⟩
    exact (h1.trans h2).trans (hf₄.mono fun p hp => hp.1)
  · rw [entries_of_frame hf₄ hi₄]
    exact hent
  · have h12 := hws.keeps.mapKept (hws.takes.same_zero hroom)
    rw [hvol] at h12
    exact h12.trans (hk₄.mapKept (hk₄.same_zero hstep.intact.ok id))
  · have hsame := hws.takes.count_eq hroom
    have hlen := hint₁.length_bytes ht
    have hnn := (hint₁.openOk ht).file.sized.nonneg
    rw [hts,Intact.open_bytes hrec hvol] at hlen
    have hdl : ((S.bytes e.inodeSector).length : ℤ) = t.data.length := by omega
    rw [hno,List.length_nil,hvol] at hsame
    rw [hcount,hdl]
    omega

/-! ### Reading -/

theorem System.dirAt_setDir {dir : Dir} (hd : S.dirAt D = some dir) (pos : ℤ) :
    (S.setDir { dir with pos := pos }).dirAt D = some { dir with pos := pos } := by
  obtain ⟨hmem,rfl⟩ := Keyed.lookup_mem hd
  have hl := @Keyed.lookup_update_self Dir ℕ _ Dir.addr { dir with pos := pos } S.dirs ⟨dir,hmem,rfl⟩
  exact hl

theorem System.dirReaddir_eq {dir : Dir} (hd : S.dirAt D = some dir) :
    S.dirReaddir D = (S.scanDir D DirEntry.inUse dir.pos).map fun r =>
      match r with
      | (some e,ofs) => (some e.cname,S.setDir { dir with pos := ofs + entrySize })
      | (none,ofs) => (none,S.setDir { dir with pos := ofs }) := by
  rw [System.dirReaddir,hd]
  rfl

/-- `dir_readdir` of an open directory. -/
theorem Intact.dirReaddir {dir : Dir} (h : Intact S live) (hi : i ∈ S.openInodes) (hd : S.dirAt D = some dir) (ha : dir.inode = i.addr)
    (hk : k ≤ (S.entries i.sector).length) (hp : dir.pos = 36 * k) :
    ∃ pos : ℤ, match (S.entries i.sector)[scan DirEntry.inUse (S.entries i.sector) k]? with
      | none => S.dirReaddir D = some (none,S.setDir { dir with pos := pos })
      | some e => S.dirReaddir D = some (some e.cname,S.setDir { dir with pos := pos }) ∧
          pos = 36 * (scan DirEntry.inUse (S.entries i.sector) k + 1 : ℕ) := by
  have hscan := h.scanDir ⟨⟨dir,hd,ha⟩,hi⟩ DirEntry.inUse hk
  rw [← hp] at hscan
  have hread := System.dirReaddir_eq hd
  rw [hscan,Option.map_some] at hread
  generalize scan DirEntry.inUse (S.entries i.sector) k = m at hread ⊢
  cases he : (S.entries i.sector)[m]? with
  | none =>
    rw [he] at hread
    exact ⟨_,hread⟩
  | some e =>
    rw [he] at hread
    exact ⟨_,hread,by push_cast; ring⟩

end
end ShellOS.Fs
