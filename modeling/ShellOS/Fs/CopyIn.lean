import ShellOS.Fs.Capacity
import ShellOS.Fs.WriteCommand
import ShellOS.Fs.DirRuns

/-! Copying a host file in: how much of it is stored, and what the warning says. -/
namespace ShellOS.Fs
open CLib SlotTable BlockTree

/-! ### The size of the copy -/

/-- The sectors for a size of which `int` arithmetic goes wrong, or none at all, are not positive. -/
theorem sectorsNeeded_nonpos {s : ℤ} (h : -2147483648 ≤ s ∧ s ≤ 0 ∨ 2147483136 < s ∧ s < 2147483648) :
    wrap32 (bytesToSectors s) ≤ 0 ∧ (2147483136 < s → wrap32 (bytesToSectors s) < -2) := by
  obtain ⟨t,ht⟩ : ∃ t, t = wrap32 (wrap32 (s + 512) - 1) := ⟨_,rfl⟩
  have htr : -2147483648 ≤ t ∧ t ≤ 511 ∧ (2147483136 < s → t ≤ -2048) := by
    rw [ht]
    unfold wrap32
    omega
  have hdiv : t.tdiv 512 ≤ 0 ∧ -4194304 ≤ t.tdiv 512 ∧ (t ≤ -2048 → t.tdiv 512 < -2) := by
    rcases lt_or_ge t 0 with hneg | hpos
    · have h0 := Int.neg_tdiv t 512
      rw [Int.tdiv_eq_ediv_of_nonneg (by omega : 0 ≤ -t)] at h0
      omega
    · rw [Int.tdiv_eq_ediv_of_nonneg hpos]
      omega
  have hb : (bytesToSectors s : ℤ) = t.tdiv 512 % 18446744073709551616 := by
    unfold bytesToSectors
    rw [← ht]
    omega
  rw [hb]
  unfold wrap32
  omega

theorem copyableSize_of_nonpos {s free : ℤ} (h : -2147483648 ≤ s) (h0 : s ≤ 0) (hf : 0 ≤ free) : copyableSize s free ≤ 0 := by
  obtain ⟨n,hn⟩ : ∃ n, n = wrap32 (bytesToSectors s) := ⟨_,rfl⟩
  have hle : n ≤ 0 := hn ▸ (sectorsNeeded_nonpos (.inl ⟨h,h0⟩)).1
  unfold copyableSize
  simp only [← hn]
  norm_num only
  split_ifs <;> omega

theorem copyableSize_of_large {s free : ℤ} (h : 2147483136 < s) (hs : s < 2147483648) (hf : 0 ≤ free) :
    copyableSize s free = s := by
  obtain ⟨n,hn⟩ : ∃ n, n = wrap32 (bytesToSectors s) := ⟨_,rfl⟩
  have hle : n < -2 := hn ▸ (sectorsNeeded_nonpos (.inr ⟨h,hs⟩)).2 h
  unfold copyableSize
  simp only [← hn]
  norm_num only
  split_ifs
  all_goals first | omega | skip
  rw [Int.tdiv_eq_ediv_of_nonneg (by omega)] at *
  omega

theorem estimate_le (free : ℤ) : estimate free ≤ 16635 := by
  unfold estimate
  split_ifs <;> omega

/-- The argument of `copyable_size_of_file`: the terminator is counted if it needs a sector of its own. -/
def withTerminator (n : ℕ) : ℤ := if (n : ℤ) % 512 = 0 then n + 1 else n

/-- A size that can be the size of a file is that of a file with room for the terminator in its last
sector. Either all of the host file fits, or less is copied. -/
theorem copyableSize_cases {n : ℕ} {free c : ℤ} (hf : 0 ≤ free) (hc : copyableSize (wrap32 (withTerminator n)) free = c)
    (hpos : 0 < c) (hmax : c ≤ 8517120) : c % 512 ≠ 0 ∧
      (c = withTerminator n ∧ (n : ℤ) / 512 + 1 ∈ Fits free ∨ c < n ∧ (n : ℤ) / 512 + 1 ∉ Fits free) := by
  obtain ⟨t,ht⟩ : ∃ t, t = withTerminator n := ⟨_,rfl⟩
  obtain ⟨s,hs⟩ : ∃ s, s = wrap32 t := ⟨_,rfl⟩
  have htn : t % 512 ≠ 0 ∧ (t + 511) / 512 = (n : ℤ) / 512 + 1 ∧ (n : ℤ) ≤ t ∧ t ≤ n + 1 := by
    rw [ht]
    unfold withTerminator
    split_ifs <;> omega
  have hst : -2147483648 ≤ s ∧ s < 2147483648 ∧ s % 512 = t % 512 ∧ (t < 2147483648 → s = t) := by
    rw [hs]
    unfold wrap32
    omega
  rw [← ht,← hs] at hc
  rw [← ht]
  have h1 : 1 ≤ s := by
    by_contra h
    have := copyableSize_of_nonpos hst.1 (by omega : s ≤ 0) hf
    omega
  have h2 : s ≤ 2147483136 := by
    by_contra h
    have := copyableSize_of_large (by omega) hst.2.1 hf
    omega
  rw [copyableSize_eq h1 h2] at hc
  have hest := estimate_le free
  have hfit : (n : ℤ) / 512 + 1 ≤ estimate free → (n : ℤ) / 512 + 1 ∈ Fits free := fun hle =>
    Fits.of_le (estimate_fits hf) hle (by omega)
  have hnot : estimate free < (n : ℤ) / 512 + 1 → (n : ℤ) / 512 + 1 ∉ Fits free := fun hlt hm =>
    absurd (le_estimate hf hm) (Int.not_le.mpr hlt)
  by_cases hle : (s + 511) / 512 ≤ estimate free
  · rw [if_pos hle] at hc
    refine ⟨by omega,?_⟩
    by_cases hsmall : t < 2147483648
    · have hse := hst.2.2.2 hsmall
      exact .inl ⟨by omega,hfit (by omega)⟩
    · exact .inr ⟨by omega,hnot (by omega)⟩
  · rw [if_neg hle] at hc
    refine ⟨by omega,.inr ⟨?_,hnot ?_⟩⟩
    · by_cases hsmall : t < 2147483648
      · have hse := hst.2.2.2 hsmall
        omega
      · omega
    · by_cases hsmall : t < 2147483648
      · have hse := hst.2.2.2 hsmall
        omega
      · omega

theorem copyableSize_lt {s free : ℤ} (h : -2147483648 ≤ s) (hs : s < 2147483648) (hf : 0 ≤ free) :
    copyableSize s free < 2147483648 := by
  rcases lt_or_ge 0 s with h1 | h0
  · rcases lt_or_ge 2147483136 s with hlarge | h2
    · rwa [copyableSize_of_large hlarge hs hf]
    · have hest := estimate_le free
      rw [copyableSize_eq h1 h2]
      split_ifs <;> omega
  · have := copyableSize_of_nonpos h h0 hf
    omega

theorem System.copySize_eq (n : ℕ) (S : System) : S.copySize n = copyableSize (wrap32 (withTerminator n)) (numFreeSectors S.vol) := by
  unfold System.copySize System.copyableSizeOfFile withTerminator
  split_ifs <;> rfl

theorem System.copySize_lt (n : ℕ) (S : System) : S.copySize n < 2147483648 := by
  have hrange := wrap32_range (withTerminator n)
  rw [System.copySize_eq]
  exact copyableSize_lt hrange.1 hrange.2 (by omega)

/-- The byte after the copy can be counted in an `int`, but for one size. -/
theorem System.copySize_succ_lt {n : ℕ} (S : System) (hn : wrap32 n ≠ 2147483647) : S.copySize n + 1 < 2147483648 := by
  obtain ⟨s,hs⟩ : ∃ s, s = wrap32 (withTerminator n) := ⟨_,rfl⟩
  have hrange : -2147483648 ≤ s ∧ s < 2147483647 := by
    rw [hs]
    unfold withTerminator
    unfold wrap32 at hn ⊢
    split_ifs <;> omega
  rw [System.copySize_eq,← hs]
  rcases lt_or_ge 0 s with h1 | h0
  · rcases lt_or_ge 2147483136 s with hlarge | h2
    · rw [copyableSize_of_large hlarge (by omega) (by omega)]
      omega
    · have hest := estimate_le (numFreeSectors S.vol)
      rw [copyableSize_eq h1 h2]
      split_ifs <;> omega
  · have := @copyableSize_of_nonpos s (numFreeSectors S.vol) hrange.1 h0 (by omega)
    omega

section
variable {S S' : System} {live : Set BlockSector} {root : Option Dir} {name : CString} {f : File} {b : List UInt8} {size : ℤ}

/-! ### The file -/

/-- `filesys_create` makes a file of zeros, or changes nothing. -/
theorem Session.filesysCreate (h : Session S live root) (hn : PlainName name) (hmin : -2147483648 ≤ size) (hmax : size < 2147483648) :
    ∃ ok live' S', S.filesysCreate name size = some (ok,S') ∧ Session S' live' root ∧ S'.fileTable = S.fileTable ∧
      (∀ other, S'.fileOf other = if ok = true ∧ other = name then some (List.replicate size.toNat 0) else S.fileOf other) ∧
      (ok = true → S.fileOf name = none) ∧
      (Ordinary name → Creatable size S.vol → S.fileOf name = none →
        freeSlot (S.entries rootDirSector) < (S.entries rootDirSector).length → ok = true) := by
  obtain ⟨d,S₁,hopen,h₁,hre,hidle₁,-⟩ := h.dirOpenRoot
  obtain ⟨ok,p,live',S₂,hcreate,h₂,htab,hfail,hof,hfree,hroom⟩ := h₁.createFile hn hmin hmax
  have hname : (splitPathFilename name).2 = name := by rw [split_noSlash hn.no_slash]
  unfold System.filesysCreate
  rw [hopen,Option.bind_some,hname,hcreate,Option.bind_some]
  -- what a creation that failed leaves behind is released
  obtain ⟨S₃,hS₃,h₃,hbytes,htab₃⟩ : ∃ S₃, S₃ = (if !ok && p != 0 then { S₂ with vol := freeMapRelease p 1 S₂.vol } else S₂) ∧
      Session S₃ live' (some d) ∧ (∀ q ∈ live', S₃.bytes q = S₂.bytes q) ∧ S₃.fileTable = S₂.fileTable := by
    refine ⟨_,rfl,?_⟩
    split
    · next hc =>
      obtain ⟨hok,hp⟩ := (Bool.and_eq_true_iff).mp hc
      obtain ⟨rfl,hloose⟩ := hfail (by simpa using hok)
      have hl := hloose (by simpa using hp)
      obtain ⟨hrel,hb⟩ := h₂.release hl.ne_zero hl.used hl.fm hl.owned
      exact ⟨hrel,hb,rfl⟩
    · exact ⟨h₂,fun _ _ => rfl,rfl⟩
  dsimp only
  rw [← hS₃]
  obtain ⟨S₄,hclose,h₄,hidle₄,-⟩ := h₃.dirClose hre
  refine ⟨ok,live',S₄,by rw [hclose,Option.map_some],h₄,?_,fun other => ?_,fun hok => ?_,?_⟩
  · exact hidle₄.fileTable.trans (htab₃.trans (htab.trans hidle₁.fileTable))
  · have hent : S₃.entries rootDirSector = S₂.entries rootDirSector := by
      rw [System.entries,hbytes _ h₂.root_mem,System.entries]
    rw [hidle₄.fileOf,h₂.fileOf_congr (by rw [hent]) fun q hq _ => hbytes q hq,hof,hidle₁.fileOf]
  · rw [← hidle₁.fileOf]
    exact hfree hok
  · rintro hord ⟨q,v,hq,hcr⟩ hnew hslot
    rw [← hidle₁.vol] at hq
    rw [← hidle₁.fileOf] at hnew
    rw [← hidle₁.entries] at hslot
    exact hroom q v hq hcr hord hnew hslot

theorem Session.length_fileOf_le (h : Session S live root) (hb : S.fileOf name = some b) : b.length ≤ 8517120 := by
  obtain ⟨s,he,rfl⟩ := Option.map_eq_some_iff.mp hb
  have hle := (h.intact.file s (h.table.entryOf_file he).1).sized.le
  rw [System.bytes,length_content]
  omega

/-- A write that needs no new sector writes everything. -/
theorem Session.fileWrite_in_sectors (h : Session S live root) (hf : S.getFileByFname name = some f)
    (hb : S.fileOf name = some b) (buffer : List UInt8) (h0 : 0 ≤ f.pos) (ho : f.pos < 2147483648) (hz : 1 ≤ size)
    (hs : size < 2147483648) (hlen : size ≤ buffer.length) (hmax : f.pos + size ≤ 8517120)
    (hroom : bytesToSectors (f.pos + size) ≤ bytesToSectors b.length) :
    ∃ S', S.fileWrite name buffer size = some (size,S') := by
  obtain ⟨i,hi,ha,he,hl,h1⟩ := h.table_file hf
  have hlen' : size ≤ (System.terminated buffer size).length := by
    rw [System.terminated,if_pos hz,List.length_set]
    exact hlen
  obtain ⟨ok,inode,w,hw,hwr,-⟩ := h.intact.write_frame hi (System.terminated buffer size) h0 hz ho hs hlen'
  have hsized := (h.intact.openOk hi).file.sized
  have hbl : (b.length : ℤ) = i.data.length := by
    have hbytes : S.bytes i.sector = b := by
      rw [System.fileOf,he,Option.map_some] at hb
      exact Option.some.inj hb
    have hnn := hsized.nonneg
    rw [← hbytes,h.intact.length_bytes hi]
    omega
  rw [hbl] at hroom
  have hdemand : writeDemand S.vol i.data size f.pos = [] := by
    unfold writeDemand
    split
    · -- all the places are there
      refine List.map_eq_nil_iff.mpr (List.filter_eq_nil_iff.mpr fun t ht hz => ?_)
      exact hsized.mapped t (inodeWalk_subset hroom ht) (of_decide_eq_true hz)
    · rfl
  have hok := hwr.ok_eq
  rw [hdemand,decide_eq_true hmax,decide_eq_true (by exact Nat.zero_le _)] at hok
  have hok' : ok = true := hok
  rw [hok',if_pos rfl] at hw
  refine ⟨(S.changed inode w).setFile name { f with pos := wrap32 (f.pos + (size - 2)) },?_⟩
  rw [System.fileWrite,hf,Option.bind_some,ha,hw,Option.map_some]

/-! ### The copy -/

/-- So many bytes of the host file, with zeros behind its end. -/
def copied (c : ℕ) (contents : List UInt8) : List UInt8 := (List.range c).map fun k => contents.getD k 0

theorem length_copied (c : ℕ) (contents : List UInt8) : (copied c contents).length = c := by
  rw [copied,List.length_map,List.length_range]

theorem getElem_copied {c k : ℕ} {contents : List UInt8} (h : k < (copied c contents).length) :
    (copied c contents)[k] = contents.getD k 0 := by
  simp only [copied,List.getElem_map,List.getElem_range]

/-- The buffer of `copy_in`, which ends with the terminator. -/
theorem copyBuffer_eq (c : ℕ) (contents : List UInt8) :
    ((List.range ((c : ℤ) + 1).toNat).map fun k : ℕ => if (k : ℤ) < c then contents.getD k 0 else 0) =
      copied c contents ++ [0] := by
  have hn : ((c : ℤ) + 1).toNat = c + 1 := by omega
  rw [hn,List.range_succ,List.map_append,List.map_singleton,if_neg (by omega),copied]
  refine congrArg (· ++ [0]) (List.map_congr_left fun k hk => if_pos ?_)
  have := List.mem_range.mp hk
  omega

theorem terminated_copied (c : ℕ) (contents : List UInt8) :
    System.terminated (copied c contents ++ [0]) (c + 1) = copied c contents ++ [0] := by
  have hlen := length_copied c contents
  have hset : (copied c contents ++ [(0 : UInt8)]).set c 0 = copied c contents ++ [0] := by
    rw [List.set_append_right _ _ hlen.le,hlen,Nat.sub_self]
    rfl
  rw [System.terminated,if_pos (by omega)]
  have hn : ((c : ℤ) + 1 - 1).toNat = c := by omega
  rw [hn,hset]

theorem overwrite_all {a bytes : List UInt8} (h : a.length ≤ bytes.length) : overwrite a 0 bytes = bytes := by
  have hlen : max a.length (0 + bytes.length) = bytes.length := by omega
  unfold overwrite
  rw [hlen]
  refine List.ext_getElem (by rw [List.length_map,List.length_range]) fun k hk hk' => ?_
  rw [List.getElem_map,List.getElem_range,if_pos ⟨Nat.zero_le k,by omega⟩,Nat.sub_zero,List.getD_eq_getElem _ _ hk']

/-- A byte more fits into the last sector. -/
theorem bytesToSectors_succ {c : ℕ} (hc : (c : ℤ) % 512 ≠ 0) (hmax : (c : ℤ) ≤ 8517120) :
    bytesToSectors (c + 1) ≤ bytesToSectors c := by
  have h1 := bytesToSectors_eq (by omega : (0 : ℤ) ≤ c + 1) (by omega)
  have h2 := bytesToSectors_eq (by omega : (0 : ℤ) ≤ c) hmax
  omega

/-- The new file gets all of the buffer. -/
theorem Session.writeCopied (h : Session S live root) (hf : S.getFileByFname name = some f) (hpos : f.pos = 0) {c : ℕ}
    (hb : S.fileOf name = some (List.replicate c 0)) (hc : (c : ℤ) % 512 ≠ 0) (contents : List UInt8) :
    ∃ S', S.fileWrite name (copied c contents ++ [0]) (c + 1) = some ((c : ℤ) + 1,S') ∧ Session S' live root ∧
      (∃ g, S'.getFileByFname name = some g) ∧
      ∀ other, S'.fileOf other = if other = name then some (copied c contents ++ [0]) else S.fileOf other := by
  have hmax := h.length_fileOf_le hb
  rw [List.length_replicate] at hmax
  have hlen : ((c : ℤ) + 1) ≤ ((copied c contents ++ [0]).length : ℕ) := by
    rw [List.length_append,length_copied,List.length_singleton]
    omega
  obtain ⟨ok,b,S',hb',hwr,hS,htab,hof,-⟩ := h.fileWrite hf (copied c contents ++ [0]) (by omega) (by omega) (by omega : (1 : ℤ) ≤ c + 1)
    (by omega) hlen
  obtain ⟨T,hT⟩ := h.fileWrite_in_sectors hf hb (copied c contents ++ [0]) (by omega) (by omega) (by omega : (1 : ℤ) ≤ c + 1)
    (by omega) hlen (by omega) (by
      rw [hpos,zero_add,List.length_replicate]
      exact bytesToSectors_succ hc (by omega))
  have hcount := (Prod.mk.inj (Option.some.inj (hwr.symm.trans hT))).1
  have hok : ok = true := by
    by_contra hne
    rw [if_neg hne] at hcount
    omega
  subst hok
  rw [if_pos rfl] at hwr
  refine ⟨S',hwr,hS,⟨_,getFile_update hf htab⟩,fun other => ?_⟩
  have htake : (copied c contents ++ [(0 : UInt8)]).take ((c : ℤ) + 1).toNat = copied c contents ++ [0] :=
    List.take_of_length_le (by rw [List.length_append,length_copied,List.length_singleton]; omega)
  obtain rfl := Option.some.inj (hb.symm.trans hb')
  rw [hof,if_pos rfl,terminated_copied,htake,hpos,Int.toNat_zero,overwrite_all]
  rw [List.length_replicate,List.length_append,length_copied]
  omega

/-- What `copy_in` does after `fsutil_create`. -/
def System.fill (name : CString) (buffer : List UInt8) (size : ℤ) (S : System) : Option (ℕ × System) :=
  (S.fsutilWrite name buffer size).bind fun w => (w.2.fileSeek name 0).map fun S => (0,S)

theorem Ordinary.createName (hn : Ordinary name) (S : System) : S.fsutilCreate name size = S.filesysCreate name size := by
  have hlen := hn.length_le
  rw [System.fsutilCreate,if_neg]
  rintro (h0 | h255)
  · exact hn.ne_nil (List.length_eq_zero_iff.mp h0)
  · unfold nameMax at hlen
    omega

theorem System.copyIn_eq (name : CString) (S : System) (contents : List UInt8) {c : ℕ} (hc : S.copySize contents.length = c)
    (h0 : 0 < c) : S.copyIn name (some contents) = (S.fsutilCreate name c).bind fun r =>
      r.2.fill name (copied c contents ++ [0]) (c + 1) := by
  unfold System.copyIn
  dsimp only
  rw [hc,if_neg (by omega),copyBuffer_eq]
  rfl

theorem Session.getFile_none (h : Session S live root) (hno : S.fileOf name = none) : S.getFileByFname name = none := by
  refine Option.eq_none_iff_forall_ne_some.mpr fun f hf => ?_
  obtain ⟨i,-,-,he,-⟩ := h.table_file hf
  rw [System.fileOf,he] at hno
  cases hno

/-- A file that was not created cannot be found, and seeking in it goes wrong. -/
theorem Session.fill_missing (h : Session S live root) (hn : PlainName name) (hno : S.fileOf name = none) (buffer : List UInt8)
    (size : ℤ) : S.fill name buffer size = none := by
  cases h.tableFile hn with
  | inl hmiss =>
    obtain ⟨-,hnone,T,ht,-,hidle⟩ := hmiss
    rw [System.fill,System.fsutilWrite,ht]
    dsimp only [Option.bind_some]
    rw [System.fileSeek,hidle.getFile,hnone]
    rfl
  | inr hin =>
    obtain ⟨f,T,-,hT,hbytes,-,hf,-⟩ := hin
    obtain ⟨i,-,-,he,-⟩ := hT.table_file hf
    rw [System.entries,hbytes,← System.entries] at he
    rw [System.fileOf,he] at hno
    cases hno

/-- The rest of `copy_in` once the file was created. -/
theorem Session.fillCopied (h : Session S live root) (hn : Ordinary name) (hfile : S.getFileByFname name = none) {c : ℕ}
    (hb : S.fileOf name = some (List.replicate c 0)) (hc : (c : ℤ) % 512 ≠ 0) (contents : List UInt8) :
    ∃ S' f, S.fill name (copied c contents ++ [0]) (c + 1) = some (0,S') ∧ Session S' live root ∧
      S'.getFileByFname name = some f ∧ f.pos = 0 ∧
      ∀ other, S'.fileOf other = if other = name then some (copied c contents ++ [0]) else S.fileOf other := by
  cases h.tableFile hn.plain with
  | inl hno =>
    rw [hb] at hno
    cases hno.1
  | inr hin =>
    obtain ⟨f,S₁,ht,h₁,hbytes,-,hf,hor⟩ := hin
    have hpos : f.pos = 0 := by
      rcases hor with rfl | ⟨hz,-⟩
      · exact absurd (hfile.symm.trans hf) (Option.some_ne_none f).symm
      · exact hz
    have hof₁ : ∀ other, S₁.fileOf other = S.fileOf other := fun other =>
      h.fileOf_congr (by rw [System.entries,hbytes,System.entries]) fun p _ _ => hbytes p
    obtain ⟨S₂,hwr,h₂,⟨g,hg⟩,hof₂⟩ := h₁.writeCopied hf hpos ((hof₁ name).trans hb) hc contents
    refine ⟨S₂.setFile name { g with pos := 0 },{ g with pos := 0 },?_,h₂.setFile hg rfl,System.getFileByFname_setFile hg,rfl,
      fun other => ?_⟩
    · rw [System.fill,System.fsutilWrite,ht,Option.bind_some]
      dsimp only
      rw [hwr,Option.bind_some,System.fileSeek,hg]
      rfl
    · rw [System.fileOf_setFile,hof₂,hof₁]

/-- The state after `copy_in` of a file that was not there. -/
structure CopiedIn (S S' : System) (live : Set BlockSector) (root : Option Dir) (name : CString) (contents : List UInt8) (c : ℕ) : Prop where
  size : S.copySize contents.length = c
  pos : 0 < c
  le : c ≤ 8517120
  session : Session S' live root
  position : ∃ f, S'.getFileByFname name = some f ∧ f.pos = 0
  file : S'.fileOf name = some (copied c contents ++ [0])
  frame : ∀ other, other ≠ name → S'.fileOf other = S.fileOf other

theorem System.copySize_cases {n c : ℕ} (hc : S.copySize n = c) (h0 : 0 < c) (hmax : c ≤ 8517120) : (c : ℤ) % 512 ≠ 0 ∧
    ((c : ℤ) = withTerminator n ∧ (n : ℤ) / 512 + 1 ∈ Fits (numFreeSectors S.vol) ∨
      c < n ∧ (n : ℤ) / 512 + 1 ∉ Fits (numFreeSectors S.vol)) := by
  rw [System.copySize_eq] at hc
  have hcases := copyableSize_cases (by omega) hc (by omega) (by omega)
  exact ⟨hcases.1,hcases.2.imp_right fun hr => ⟨by omega,hr.2⟩⟩

/-- Once the file is created all of the buffer is written. -/
theorem Session.copyIn_created (h : Session S live root) (hn : Ordinary name) (hnew : S.fileOf name = none) {contents : List UInt8} {c : ℕ}
    (hc : S.copySize contents.length = c) (h0 : 0 < c) {S₁ : System} (hcreate : S.filesysCreate name c = some (true,S₁)) :
    ∃ live' S', S.copyIn name (some contents) = some (0,S') ∧ CopiedIn S S' live' root name contents c := by
  have hclt := System.copySize_lt contents.length S
  rw [hc] at hclt
  obtain ⟨ok,live',S₂,hcr,h₂,htab₂,hof₂,-⟩ := h.filesysCreate hn.plain (by omega) hclt
  obtain ⟨rfl,rfl⟩ := Prod.mk.inj (Option.some.inj (hcreate.symm.trans hcr))
  have hb : S₁.fileOf name = some (List.replicate c 0) := by rw [hof₂,if_pos ⟨rfl,rfl⟩,Int.toNat_natCast]
  have hmax := h₂.length_fileOf_le hb
  rw [List.length_replicate] at hmax
  have hfile : S₁.getFileByFname name = none := by
    rw [System.getFileByFname,htab₂]
    exact h.getFile_none hnew
  obtain ⟨S',f,hfill,hS,hf,hpos,hof⟩ := h₂.fillCopied hn hfile hb (System.copySize_cases hc h0 hmax).1 contents
  refine ⟨live',S',?_,⟨hc,h0,hmax,hS,⟨f,hf,hpos⟩,by rw [hof,if_pos rfl],fun other hne => ?_⟩⟩
  · rw [System.copyIn_eq name S contents hc h0,hn.createName,hcreate,Option.bind_some,hfill]
  · rw [hof,if_neg hne,hof₂,if_neg fun hc => hne hc.2]

/-- `copy_in` returned 0: the file was created and all of the buffer was written. -/
theorem Session.copyIn (h : Session S live root) (hn : Ordinary name) (hnew : S.fileOf name = none) {contents : List UInt8}
    (hret : S.copyIn name (some contents) = some (0,S')) : ∃ live' c, CopiedIn S S' live' root name contents c := by
  by_cases hle : S.copySize contents.length ≤ 0
  · unfold System.copyIn at hret
    dsimp only at hret
    rw [if_pos hle] at hret
    exact absurd (Prod.mk.inj (Option.some.inj hret)).1 (by decide)
  have hclt := System.copySize_lt contents.length S
  obtain ⟨c,hc⟩ := Int.eq_ofNat_of_zero_le (Int.not_le.mp hle).le
  have h0 : 0 < c := by omega
  obtain ⟨ok,live',S₂,hcr,h₂,-,hof₂,-⟩ := h.filesysCreate hn.plain (by omega) (hc ▸ hclt)
  cases ok with
  | false =>
    have hno : S₂.fileOf name = none := by rw [hof₂,if_neg fun hc => Bool.false_ne_true hc.1,hnew]
    rw [System.copyIn_eq name S contents hc h0,hn.createName,hcr,Option.bind_some,h₂.fill_missing hn.plain hno] at hret
    cases hret
  | true =>
    obtain ⟨live'',T,hin,hcopied⟩ := h.copyIn_created hn hnew hc h0 hcr
    obtain rfl := (Prod.mk.inj (Option.some.inj (hret.symm.trans hin))).2
    exact ⟨live'',c,hcopied⟩

/-! ### The warning -/

/-- How many bytes of the host file are stored: so far the file, without its terminator, agrees with it. -/
def hostBytesStored (contents file : List UInt8) : ℕ :=
  ((file.dropLast.zip contents).takeWhile fun p => p.1 == p.2).length

/-- The warning is printed exactly if less than the host file is stored, and its first number is what is stored. -/
def Reports (S : System) (contents file : List UInt8) : Prop :=
  ((S.copyInWarning contents.length).isSome = true ↔ hostBytesStored contents file < contents.length) ∧
    ∀ m n, S.copyInWarning contents.length = some (m,n) → m = hostBytesStored contents file

theorem hostBytesStored_copied (c : ℕ) (contents : List UInt8) :
    hostBytesStored contents (copied c contents ++ [0]) = min c contents.length := by
  have hsame : ∀ p ∈ (copied c contents).zip contents, (p.1 == p.2) = true := fun p hp => by
    obtain ⟨k,hk,rfl⟩ := List.mem_iff_getElem.mp hp
    rw [List.length_zip,length_copied] at hk
    rw [List.getElem_zip,beq_iff_eq,getElem_copied,List.getD_eq_getElem]
  rw [hostBytesStored,List.dropLast_concat,List.takeWhile_eq_self_iff.mpr hsame,List.length_zip,length_copied]

/-- `copy_in` reports what it cut off exactly if it gave the terminator no byte of its own, or if not all of the host
file fits. -/
theorem copy_in_reports_iff (h : Session S live root) (hn : Ordinary name) (hnew : S.fileOf name = none) {contents : List UInt8}
    (hret : S.copyIn name (some contents) = some (0,S')) : ∃ file, S'.fileOf name = some file ∧
      (Reports S contents file ↔
        (contents.length : ℤ) % 512 ≠ 0 ∨ (contents.length : ℤ) / 512 + 1 ∉ Fits (numFreeSectors S.vol)) := by
  obtain ⟨live',c,hc⟩ := h.copyIn hn hnew hret
  refine ⟨_,hc.file,?_⟩
  obtain ⟨-,hcases⟩ := System.copySize_cases hc.size hc.pos hc.le
  unfold Reports System.copyInWarning
  rw [hostBytesStored_copied,hc.size]
  rcases hcases with ⟨hct,hfit⟩ | ⟨hlt,hnot⟩
  · unfold withTerminator at hct
    by_cases hmod : (contents.length : ℤ) % 512 = 0
    · -- the byte for the terminator is counted
      rw [if_pos hmod] at hct
      rw [if_pos (by omega)]
      refine iff_of_false (fun hrep => ?_) fun hor => hor.elim (fun hne => hne hmod) fun hno => hno hfit
      have := hrep.1.mp rfl
      omega
    · rw [if_neg hmod] at hct
      rw [if_neg (by omega)]
      refine iff_of_true ⟨⟨fun hs => absurd hs Bool.false_ne_true,fun hlt => ?_⟩,fun m n hs => absurd hs.symm (Option.some_ne_none _)⟩
        (.inl hmod)
      omega
  · rw [if_pos (by omega)]
    refine iff_of_true ⟨⟨fun _ => by omega,fun _ => rfl⟩,fun m n hs => ?_⟩ (.inr hnot)
    have := (Prod.mk.inj (Option.some.inj hs)).1
    omega

/-! ### A new file system -/

/-- A new file system is in order, has no file and a free slot in its directory. -/
theorem Formatted.session (h : Formatted S) : Session S {rootDirSector} none ∧ (∀ name, S.fileOf name = none) ∧
    freeSlot (S.entries rootDirSector) < (S.entries rootDirSector).length := by
  obtain ⟨v,a,hS,hint,hent⟩ := h.atRest
  have hno : ∀ name, entryOf (S.entries rootDirSector) name = none := fun name => hent ▸ entryOf_newDir name
  have hcat : Catalog S {rootDirSector} := by
    refine ⟨hint,Set.mem_singleton _,hent ▸ dirTable_new _,fun name s hs => ?_,fun s hs hne => absurd hs hne⟩
    rw [hno] at hs
    cases hs
  refine ⟨⟨hcat,?_,?_,?_,?_,?_,?_,?_,?_⟩,fun name => ?_,?_⟩
  · rw [hS]
    exact fun i hi => absurd hi List.not_mem_nil
  · rw [hS]
    rfl
  · rw [hS]
    rfl
  · rw [hS]
    exact fun _ i hi => absurd hi List.not_mem_nil
  · exact fun d hd => absurd hd.symm (Option.some_ne_none d)
  · exact fun d hd => absurd hd.symm (Option.some_ne_none d)
  · rw [hS]
    exact List.nodup_nil
  · rw [hS]
    exact fun e he => absurd he List.not_mem_nil
  · rw [System.fileOf,hno,Option.map_none]
  · rw [hent]
    exact freeSlot_newTable

/-- `copy_in` into a new file system whose free sectors are enough. -/
theorem Formatted.copyIn (h : Formatted S) (hn : Ordinary name) {contents : List UInt8} {c : ℕ}
    (hc : copyableSize (wrap32 (withTerminator contents.length)) (numFreeSectors S.vol) = c) (h0 : 0 < c) (hmax : c ≤ 8517120)
    (hfit : ((c : ℤ) + 511) / 512 ∈ Fits (numFreeSectors S.vol)) :
    ∃ live' S', S.copyIn name (some contents) = some (0,S') ∧ CopiedIn S S' live' none name contents c := by
  obtain ⟨hS,hno,hslot⟩ := h.session
  obtain ⟨ok,live',S₁,hcr,-,-,-,-,hroom⟩ := @Session.filesysCreate S _ _ name c hS hn.plain (by omega) (by omega)
  have hok := hroom hn ((creatable_iff hS.intact.ok (by omega) (by omega)).mpr hfit) (hno name) hslot
  subst hok
  exact hS.copyIn_created hn (hno name) ((System.copySize_eq _ S).trans hc) h0 hcr

theorem copy_in_reports_iff_byte : ∃ S S' live file, Session S live none ∧ S.fileOf (cstr "a") = none ∧
    S.copyIn (cstr "a") (some [7]) = some (0,S') ∧ S'.fileOf (cstr "a") = some file ∧ Reports S [7] file := by
  obtain ⟨S,hF,hfree⟩ := formatted_199
  obtain ⟨hS,hno,-⟩ := hF.session
  obtain ⟨live',S',hret,-⟩ := @Formatted.copyIn S (cstr "a") hF ordinary_a [7] 1 (by rw [hfree]; decide +kernel) (by decide) (by decide)
    (by rw [hfree]; exact (fits_iff (by decide)).mpr (by decide +kernel))
  obtain ⟨file,hfile,hiff⟩ := copy_in_reports_iff hS ordinary_a (hno _) hret
  exact ⟨S,S',_,file,hS,hno _,hret,hfile,hiff.mpr (.inl (by decide))⟩

/-- An empty host file is stored as it is, and yet the warning says that 1 of 0 bytes could be written. -/
theorem copy_in_warns_of_nothing : ∃ S S' live file, Session S live none ∧ S.fileOf (cstr "a") = none ∧
    S.copyIn (cstr "a") (some []) = some (0,S') ∧ S'.fileOf (cstr "a") = some file ∧ S.copyInWarning 0 = some (1,0) ∧
    hostBytesStored [] file = 0 ∧ ¬ Reports S [] file := by
  obtain ⟨S,hF,hfree⟩ := formatted_199
  obtain ⟨hS,hno,-⟩ := hF.session
  obtain ⟨live',S',hret,hc⟩ := @Formatted.copyIn S (cstr "a") hF ordinary_a [] 1 (by rw [hfree]; decide +kernel) (by decide) (by decide)
    (by rw [hfree]; exact (fits_iff (by decide)).mpr (by decide +kernel))
  have hwarn : S.copyInWarning 0 = some (1,0) := by
    have hsize := hc.size
    rw [List.length_nil,Nat.cast_zero] at hsize
    rw [System.copyInWarning,hsize,if_pos (by decide)]
    rfl
  have hstored : hostBytesStored [] (copied 1 [] ++ [0]) = 0 := hostBytesStored_copied 1 []
  refine ⟨S,S',_,_,hS,hno _,hret,hc.file,hwarn,hstored,fun hrep => ?_⟩
  have hsome : (S.copyInWarning ([] : List UInt8).length).isSome = true := by
    rw [List.length_nil,Nat.cast_zero,hwarn]
    rfl
  exact absurd (hrep.1.mp hsome) (Nat.not_lt_zero _)

end
end ShellOS.Fs
