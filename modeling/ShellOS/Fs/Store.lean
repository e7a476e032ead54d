import ShellOS.Fs.System

/-! The inodes in use and the sectors they own: no sector belongs to two of them, and an operation
on one leaves the bytes of the others alone. -/
namespace ShellOS.Fs
open BlockTree CLib

namespace System

/-- The record of an inode: in memory while it is open, else on disk. -/
def record (S : System) (s : BlockSector) : InodeDisk :=
  match Keyed.lookup Inode.sector s S.openInodes with
  | some inode => inode.data
  | none => S.vol.sectors s

/-- The bytes of the file whose inode is at `s`. -/
def bytes (S : System) (s : BlockSector) : List UInt8 := content S.vol (S.record s)

/-- The sectors of the file whose inode is at `s`: that one, and those its record leads to. -/
def Owned (S : System) (s p : BlockSector) : Prop :=
  p = s ∨ p ≠ 0 ∧ ∃ t, inodeShape t ≠ .absent ∧ ptr S.vol (S.record s) t = p

end System

/-! ### The record on disk of an open inode -/

/-- The record on disk behind a record in memory. A growth that failed may have left new blocks in
memory only. -/
structure Backed (v : Volume) (disk mem : InodeDisk) : Prop where
  info : InodeDisk.SameInfo disk mem
  roots : ∀ j < 125, Sector.word disk j = 0 ∨ Sector.word disk j = Sector.word mem j
  sized : Sized v disk

theorem ptr_root (v : Volume) (d : InodeDisk) {j : ℕ} (hj : j < 125) : ptr v d (j,[]) = Sector.word d j :=
  if_pos hj

theorem ptr_of_root {v : Volume} {d e : InodeDisk} {t : Slot} (h : inodeRoots d t.1 = inodeRoots e t.1) :
    ptr v d t = ptr v e t := by
  unfold ptr node
  rw [h]

theorem ptr_of_root_zero {v : Volume} {d : InodeDisk} {t : Slot} (h : inodeRoots d t.1 = 0) : ptr v d t = 0 := by
  unfold ptr node
  rw [h,follow_null (childOf_null v)]

theorem root_place (j : ℕ) : inodeShape (j,[]) ≠ .absent := treeShape_ne_absent.mpr (Nat.zero_le _)

section
variable {v w : Volume} {disk mem mem' : InodeDisk}

theorem Backed.refl (h : FileOk v mem) : Backed v mem mem :=
  ⟨InodeDisk.SameInfo.refl _,fun _ _ => .inr rfl,h.sized⟩

theorem Backed.roots_eq (h : Backed v disk mem) (j : ℕ) :
    inodeRoots disk j = 0 ∨ inodeRoots disk j = inodeRoots mem j := by
  unfold inodeRoots
  split
  · exact h.roots j ‹_›
  · exact .inl rfl

/-- The record on disk has fewer sectors, and none that are not in memory. -/
theorem Backed.ptr_eq (h : Backed v disk mem) (w : Volume) (t : Slot) :
    ptr w disk t = 0 ∨ ptr w disk t = ptr w mem t := by
  cases h.roots_eq t.1 with
  | inl h0 => exact .inl (ptr_of_root_zero h0)
  | inr he => exact .inr (ptr_of_root he)

theorem Backed.step (h : Backed v disk mem) (hi : InodeDisk.SameInfo mem mem')
    (hk : ∀ t, inodeShape t ≠ .absent → ptr v mem t ≠ 0 → ptr w mem' t = ptr v mem t) :
    Backed w disk mem' := by
  have hroots : ∀ j < 125, Sector.word disk j = 0 ∨ Sector.word disk j = Sector.word mem' j := by
    intro j hj
    cases h.roots j hj with
    | inl h0 => exact .inl h0
    | inr he =>
      by_cases h0 : Sector.word disk j = 0
      · exact .inl h0
      · have hm := hk (j,[]) (root_place j)
        rw [ptr_root v mem hj,ptr_root w mem' hj] at hm
        exact .inr (he.trans (hm (he ▸ h0)).symm)
  have hroots' : ∀ j, inodeRoots disk j = 0 ∨ inodeRoots disk j = inodeRoots mem' j := by
    intro j
    unfold inodeRoots
    split
    · exact hroots j ‹_›
    · exact .inl rfl
  refine ⟨h.info.trans hi,hroots,h.sized.nonneg,h.sized.le,fun t ht => ?_⟩
  have h1 := h.sized.mapped t ht
  have h2 := (h.ptr_eq v t).resolve_left h1
  have h3 := hk t (inodeWalk_place ht) (h2 ▸ h1)
  cases hroots' t.1 with
  | inl h0 => exact absurd (ptr_of_root_zero h0) h1
  | inr he =>
    rw [ptr_of_root he,h3,← h2]
    exact h1

/-- What is left of a file when its inode is closed. -/
theorem Backed.file (h : Backed v disk mem) (hf : FileOk v mem) :
    FileOk v disk ∧ content v disk = content v mem := by
  have hlen := h.info.length_eq
  have hptr : ∀ t, ptr v disk t ≠ 0 → ptr v disk t = ptr v mem t := fun t h0 => (h.ptr_eq v t).resolve_left h0
  have hbyte : ∀ k, ptr v disk (dataSlot (k / 512)) ≠ 0 → byteAt v disk k = byteAt v mem k := by
    intro k h0
    rw [byteAt,hptr _ h0,byteAt]
  refine ⟨⟨⟨fun t ht h0 => ?_,fun t ht hn => ?_,fun t t' ht ht' he h0 => ?_⟩,h.sized,fun k hk hm h0 => ?_⟩,?_⟩
  · have he := hptr t h0
    rw [he] at h0 ⊢
    exact hf.owns.used t ht h0
  · have he := hptr t hn.1
    rw [he] at hn
    exact hf.owns.apart t ht hn
  · have h1 := hptr t h0
    have h2 := hptr t' (he ▸ h0)
    exact hf.owns.inj t t' ht ht' (h1.symm.trans (he.trans h2)) (h1 ▸ h0)
  · rw [hbyte k h0]
    rw [hptr _ h0] at h0
    exact hf.tail k (hlen.le.trans hk) hm h0
  · have hle := h.sized.le
    have hn := bytesToSectors_eq h.sized.nonneg hle
    have hsec : ∀ i < bytesToSectors mem.length, ptr v disk (dataSlot i) = ptr v mem (dataSlot i) := by
      intro i hi
      rw [hlen] at hi
      exact hptr _ (h.sized.mapped _ (dataSlot_mem hi (by unfold maxSectors; omega)))
    exact content_congr hf.sized.nonneg hf.sized.le hlen.symm fun i hi => ⟨hsec i hi,rfl⟩

end

/-! ### The invariant -/

/-- The files whose inodes are at the sectors `live` are in order. -/
structure Intact (S : System) (live : Set BlockSector) : Prop where
  ok : S.vol.Ok
  fm : ∃ fm, S.vol.freeMapFile = some fm ∧ fm.sector = freeMapSector
  alloc : ∀ s ∈ live, s ≠ 0 ∧ Used S.vol s ∧ ¬ FmNode S.vol s
  file : ∀ s ∈ live, FileOk S.vol (S.record s)
  self : ∀ s ∈ live, ∀ t, inodeShape t ≠ .absent → ptr S.vol (S.record s) t ≠ s
  apart : ∀ s ∈ live, ∀ s' ∈ live, ∀ p, S.Owned s p → S.Owned s' p → s = s'
  inode : ∀ i ∈ S.openInodes, i.sector ∈ live ∧ i.denyWriteCnt = 0 ∧ i.openCnt = 1 ∧
    Backed S.vol (S.vol.sectors i.sector) i.data
  sectors : (S.openInodes.map Inode.sector).Nodup
  addrs : (S.inodes.map Inode.addr).Nodup
  past : ∀ i ∈ S.inodes, i.addr < S.nextAddr

/-- Nothing of the file at `s` with record `d` was changed. -/
structure Untouched (v w : Volume) (s : BlockSector) (d : InodeDisk) : Prop where
  file : FileOk w d
  ptr_eq : ∀ t, inodeShape t ≠ .absent → ptr w d t = ptr v d t
  content_eq : content w d = content v d
  sector : w.sectors s = v.sectors s
  writes : w.writes s = v.writes s

section
variable {S T : System} {live live' : Set BlockSector} {s : BlockSector} {w : Volume} {X : BlockSector → Prop}

theorem System.record_open {i : Inode} (h : (S.openInodes.map Inode.sector).Nodup) (hi : i ∈ S.openInodes) :
    S.record i.sector = i.data := by
  rw [System.record,(Keyed.lookup_eq_some h).mpr ⟨hi,rfl⟩]

theorem System.record_closed (h : ∀ i ∈ S.openInodes, i.sector ≠ s) : S.record s = S.vol.sectors s := by
  rw [System.record,Keyed.lookup_eq_none.mpr h]

theorem Intact.inodeAt_eq (h : Intact S live) {i : Inode} (hi : i ∈ S.openInodes) : S.inodeAt i.addr = some i :=
  (Keyed.lookup_eq_some h.addrs).mpr ⟨List.mem_append_left _ hi,rfl⟩

theorem Intact.owned (h : Intact S live) (hs : s ∈ live) {p : BlockSector} (hp : S.Owned s p) :
    p ≠ 0 ∧ Used S.vol p ∧ ¬ FmNode S.vol p := by
  cases hp with
  | inl he => exact he ▸ h.alloc s hs
  | inr hp =>
    obtain ⟨h0,t,ht,rfl⟩ := hp
    exact ⟨h0,(h.file s hs).owns.used t ht h0,(h.file s hs).owns.apart t ht⟩

/-- A file none of whose sectors is among those that may change. -/
theorem Intact.untouched (h : Intact S live) (hs : s ∈ live) (k : Keeps S.vol w X)
    (hX : ∀ p, S.Owned s p → Used w p ∧ ¬ X p) : Untouched S.vol w s (S.record s) := by
  have hsame : ∀ p, S.Owned s p → Same S.vol w p := fun p hp =>
    k.frame p (hX p hp).2 fun hl => (h.owned hs hp).2.2 (hl.node h.ok.ready)
  have hown : ∀ t, inodeShape t ≠ .absent → ptr S.vol (S.record s) t ≠ 0 →
      S.Owned s (ptr S.vol (S.record s) t) := fun t ht h0 => .inr ⟨h0,t,ht,rfl⟩
  obtain ⟨hfile,hptr,hcont⟩ := (h.file s hs).of_same (fun t ht h0 => (hX _ (hown t ht h0)).1)
    (fun p => (k.fmNode_iff p).mp) fun t ht h0 => (hsame _ (hown t ht h0)).1
  exact ⟨hfile,hptr,hcont,(hsame s (.inl rfl)).1,(hsame s (.inl rfl)).2⟩

theorem Untouched.owned_iff (h : Untouched S.vol T.vol s (S.record s)) (hr : T.record s = S.record s)
    (p : BlockSector) : T.Owned s p ↔ S.Owned s p := by
  unfold System.Owned
  rw [hr]
  refine or_congr_right (and_congr_right fun _ => exists_congr fun t => and_congr_right fun ht => ?_)
  rw [h.ptr_eq t ht]

/-- The invariant after a step that concerns the file at `f` only. -/
theorem Intact.rebuild (h : Intact S live) (f : BlockSector) (k : Keeps S.vol T.vol X)
    (hother : ∀ s ∈ live', s ≠ f → s ∈ live ∧ T.record s = S.record s ∧
      ∀ p, S.Owned s p → Used T.vol p ∧ ¬ X p)
    (hfocus : f ∈ live' → FileOk T.vol (T.record f) ∧
      (∀ t, inodeShape t ≠ .absent → ptr T.vol (T.record f) t ≠ f) ∧
      ∀ p, T.Owned f p → p ≠ 0 ∧ Used T.vol p ∧ ¬ FmNode T.vol p ∧ ∀ s ∈ live', s ≠ f → ¬ S.Owned s p)
    (inode : ∀ i ∈ T.openInodes, i.sector ∈ live' ∧ i.denyWriteCnt = 0 ∧ i.openCnt = 1 ∧
      Backed T.vol (T.vol.sectors i.sector) i.data)
    (sectors : (T.openInodes.map Inode.sector).Nodup) (addrs : (T.inodes.map Inode.addr).Nodup)
    (past : ∀ i ∈ T.inodes, i.addr < T.nextAddr) : Intact T live' := by
  have hunt : ∀ s ∈ live', s ≠ f → Untouched S.vol T.vol s (S.record s) := fun s hs hf =>
    h.untouched (hother s hs hf).1 k (hother s hs hf).2.2
  have hown : ∀ s ∈ live', s ≠ f → ∀ p, T.Owned s p ↔ S.Owned s p := fun s hs hf =>
    (hunt s hs hf).owned_iff (hother s hs hf).2.1
  refine ⟨k.ok,by rw [k.file]; exact h.fm,fun s hs => ?_,fun s hs => ?_,fun s hs => ?_,
    fun s hs s' hs' p hp hp' => ?_,inode,sectors,addrs,past⟩
  · by_cases hf : s = f
    · subst hf
      obtain ⟨h0,hu,hn,-⟩ := (hfocus hs).2.2 s (.inl rfl)
      exact ⟨h0,hu,hn⟩
    · obtain ⟨hl,-,hp⟩ := hother s hs hf
      have ha := h.alloc s hl
      exact ⟨ha.1,(hp s (.inl rfl)).1,fun hn => ha.2.2 ((k.fmNode_iff s).mp hn)⟩
  · by_cases hf : s = f
    · subst hf
      exact (hfocus hs).1
    · rw [(hother s hs hf).2.1]
      exact (hunt s hs hf).file
  · by_cases hf : s = f
    · subst hf
      exact (hfocus hs).2.1
    · intro t ht
      rw [(hother s hs hf).2.1,(hunt s hs hf).ptr_eq t ht]
      exact h.self s (hother s hs hf).1 t ht
  · by_cases hf : s = f
    · by_cases hf' : s' = f
      · exact hf.trans hf'.symm
      · subst hf
        exact absurd ((hown s' hs' hf' p).mp hp') (((hfocus hs).2.2 p hp).2.2.2 s' hs' hf')
    · by_cases hf' : s' = f
      · subst hf'
        exact absurd ((hown s hs hf p).mp hp) (((hfocus hs').2.2 p hp').2.2.2 s hs hf)
      · exact h.apart s (hother s hs hf).1 s' (hother s' hs' hf').1 p ((hown s hs hf p).mp hp)
          ((hown s' hs' hf' p).mp hp')

theorem Intact.bytes_eq (h : Intact S live) (hs : s ∈ live) (k : Keeps S.vol T.vol X)
    (hr : T.record s = S.record s) (hX : ∀ p, S.Owned s p → Used T.vol p ∧ ¬ X p) :
    T.bytes s = S.bytes s := by
  unfold System.bytes
  rw [hr,(h.untouched hs k hX).content_eq]

end
end ShellOS.Fs
