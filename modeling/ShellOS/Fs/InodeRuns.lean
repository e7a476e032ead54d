import ShellOS.Fs.Format

/-! Runs of the operations on inodes from a formatted device, and the arrays of bytes they stand for. -/
namespace ShellOS.Fs
open CLib BlockTree

/-! ### The arrays -/

/-- The files made so far as arrays of bytes, by the sector of their inode. -/
abbrev Arrays := BlockSector → Option (List UInt8)

namespace Arrays

/-- A new file of zeros. -/
def make (s : BlockSector) (length : ℤ) (A : Arrays) : Arrays := Function.update A s (some (List.replicate length.toNat 0))

/-- Bytes written at an offset, with zeros in a gap. -/
def store (s : BlockSector) (bytes : List UInt8) (offset : ℤ) (A : Arrays) : Arrays :=
  Function.update A s ((A s).map fun a => overwrite a offset.toNat bytes)

def drop (s : BlockSector) (A : Arrays) : Arrays := Function.update A s none

/-- The sectors of the inodes that are made and not gone, with that of the root directory. -/
def inodes (A : Arrays) : Set BlockSector := insert rootDirSector {s | (A s).isSome}

variable {A : Arrays} {s : BlockSector} {length offset : ℤ} {bytes : List UInt8}

theorem inodes_make : (A.make s length).inodes = insert s A.inodes := by
  ext p
  simp only [inodes,make,Set.mem_insert_iff,Set.mem_ofPred_eq,Function.update_apply]
  split_ifs with hp
  · simp [hp]
  · simp [hp]

theorem inodes_store : (A.store s bytes offset).inodes = A.inodes := by
  ext p
  simp only [inodes,store,Set.mem_insert_iff,Set.mem_ofPred_eq,Function.update_apply]
  split_ifs with hp
  · rw [hp,Option.isSome_map]
  · rfl

theorem inodes_drop (hs : s ≠ rootDirSector) : (A.drop s).inodes = A.inodes \ {s} := by
  ext p
  simp only [inodes,drop,Set.mem_insert_iff,Set.mem_ofPred_eq,Function.update_apply,Set.mem_sdiff,Set.mem_singleton_iff]
  split_ifs with hp
  · simp [hp,hs]
  · simp [hp]

end Arrays

/-! ### Calls -/

/-- A number that fits a C `int`. -/
def IsInt (n : ℤ) : Prop := -2147483648 ≤ n ∧ n < 2147483648

/-- One call, and what it means for the arrays. An inode is opened when it is not open, and removed
when it was made before and is not removed. -/
inductive InodeStep : System → Arrays → System → Arrays → Prop
  | full {S A v} (ha : freeMapAllocate 1 S.vol = (none,v)) : InodeStep S A { S with vol := v } A
  | create {S A s v length isDir ok w} (ha : freeMapAllocate 1 S.vol = (some s,v)) (hl : IsInt length)
      (hc : Fs.inodeCreate s length isDir v = (ok,w)) :
      InodeStep S A { S with vol := w } (if ok then A.make s length else A)
  | openNew {S A s addr S'} (hs : s ∈ A.inodes) (hn : ∀ i ∈ S.openInodes, i.sector ≠ s) (ho : S.inodeOpen s = (addr,S')) :
      InodeStep S A S' A
  | write {S A S' buffer size offset n} {i : Inode} (hi : i ∈ S.openInodes) (h0 : 0 ≤ offset) (h1 : 1 ≤ size) (ho : IsInt offset)
      (hs : IsInt size) (hb : size ≤ buffer.length) (hw : S.writeAt i.addr buffer size offset = some (n,S')) :
      InodeStep S A S' (if n = size then A.store i.sector (buffer.take size.toNat) offset else A)
  | read {S A size offset bytes} {i : Inode} (hi : i ∈ S.openInodes) (hr : S.readAt i.addr size offset = some bytes) :
      InodeStep S A S A
  | remove {S A S'} {i : Inode} (hi : i ∈ S.openInodes) (hs : i.sector ≠ rootDirSector) (hr : i.removed = false)
      (hm : S.inodeRemove i.addr = some S') : InodeStep S A S' A
  | close {S A S'} {i : Inode} (hi : i ∈ S.openInodes) (hc : S.inodeClose i.addr = some S') :
      InodeStep S A S' (if i.removed then A.drop i.sector else A)

/-- Runs from a formatted device, with the arrays that belong to them. -/
inductive InodeRun : System → Arrays → Prop
  | start {S} (h : Formatted S) : InodeRun S fun _ => none
  | step {S A S' A'} (h : InodeRun S A) (hs : InodeStep S A S' A') : InodeRun S' A'

/-! ### What holds in every run -/

/-- The inodes are in order and hold the arrays. -/
structure Holds (S : System) (A : Arrays) : Prop where
  intact : Intact S A.inodes
  root : A rootDirSector = none
  kept : ∀ i ∈ S.openInodes, i.sector = rootDirSector → i.removed = false
  bytes : ∀ s a, A s = some a → S.bytes s = a

section
variable {S S' : System} {A A' : Arrays} {s : BlockSector} {v w : Volume} {length size offset n : ℤ} {buffer : List UInt8}
  {i : Inode} {isDir ok : Bool}

theorem Formatted.holds (h : Formatted S) : Holds S fun _ => none := by
  obtain ⟨v,a,rfl,hint,-⟩ := h.atRest
  have hin : Arrays.inodes (fun _ => none) = {rootDirSector} := by
    ext p
    simp [Arrays.inodes]
  exact ⟨hin ▸ hint,rfl,fun i hi => absurd hi List.not_mem_nil,fun s a ha => absurd ha.symm (Option.some_ne_none a)⟩

theorem Arrays.mem_inodes {a : List UInt8} (ha : A s = some a) : s ∈ A.inodes := by
  refine Set.mem_insert_of_mem _ ?_
  rw [Set.mem_ofPred_eq,ha]
  rfl

theorem Holds.full (h : Holds S A) (ha : freeMapAllocate 1 S.vol = (none,v)) : { S with vol := v } = S := by
  rcases freeMapAllocate_spec h.intact.ok with ⟨hn,-⟩ | ⟨p,v',hs,-⟩
  · rw [hn] at ha
    rw [← (Prod.mk.inj ha).2]
  · rw [hs] at ha
    cases (Prod.mk.inj ha).1

/-- The files after a step that changes none of them. -/
theorem Holds.of_frame (h : Holds S A) (hint : Intact S' A.inodes) (hf : Frame A.inodes S S') : Holds S' A :=
  ⟨hint,h.root,fun j hj hjs => h.kept j ((hf.opens j (hjs ▸ Set.mem_insert _ _)).mp hj) hjs,
    fun s a ha => (hf.bytes s (Arrays.mem_inodes ha)).trans (h.bytes s a ha)⟩

theorem Holds.create (h : Holds S A) (ha : freeMapAllocate 1 S.vol = (some s,v)) (hl : IsInt length)
    (hc : Fs.inodeCreate s length isDir v = (ok,w)) : Holds { S with vol := w } (if ok then A.make s length else A) := by
  have hall := h.intact.allocate ha
  by_cases h0 : 0 ≤ length
  · obtain ⟨ok',d,w',hc',-,hint,hf,hnew⟩ := h.intact.create_frame hall.spare isDir h0 hl.2
    rw [hc] at hc'
    obtain ⟨rfl,rfl⟩ := Prod.mk.inj hc'
    have hold := h.of_frame hint hf
    cases ok with
    | false => exact hold
    | true =>
      obtain ⟨hint',-,hzero⟩ := hnew rfl
      have hne : rootDirSector ≠ s := fun he => hall.owned s (he ▸ Set.mem_insert _ _) (.inl rfl)
      rw [if_pos rfl]
      refine ⟨?_,?_,hold.kept,fun p a hp => ?_⟩
      · rw [Arrays.inodes_make]
        exact hint'
      · rw [Arrays.make,Function.update_of_ne hne]
        exact h.root
      · rw [Arrays.make,Function.update_apply] at hp
        split_ifs at hp with hps
        · rw [hps,hzero]
          exact Option.some.inj hp
        · exact hold.bytes p a hp
  · -- a negative length is refused before anything is written
    rw [inodeCreate_neg s isDir v (by omega) hl.1] at hc
    obtain ⟨rfl,rfl⟩ := Prod.mk.inj hc
    obtain ⟨hint,hf⟩ := h.intact.volume_frame hall.keeps fun p hp q hq =>
      ⟨(hall.used q).mpr (.inl (h.intact.owned hp hq).2.1),fun hf => hf⟩
    exact h.of_frame hint hf

theorem Holds.openNew (h : Holds S A) (hs : s ∈ A.inodes) (hn : ∀ i ∈ S.openInodes, i.sector ≠ s) {addr : ℕ}
    (ho : S.inodeOpen s = (addr,S')) : Holds S' A := by
  obtain ⟨ho',hint,hrec⟩ := h.intact.inodeOpen_new hs hn
  rw [ho'] at ho
  obtain ⟨-,rfl⟩ := Prod.mk.inj ho
  refine ⟨hint,h.root,fun j hj hjs => ?_,fun p a hp => ?_⟩
  · cases List.mem_cons.mp hj with
    | inl he => rw [he]
    | inr hj => exact h.kept j hj hjs
  · rw [Intact.open_bytes hrec rfl]
    exact h.bytes p a hp

/-- A change of one open inode leaves the flag of the root directory's as it was. -/
theorem Holds.kept_changed (h : Holds S A) (hi : i ∈ S.openInodes) {inode : Inode} (ha : inode.addr = i.addr)
    (hs : inode.sector = i.sector) (hr : i.sector = rootDirSector → inode.removed = i.removed) {j : Inode}
    (hj : j ∈ (S.changed inode w).openInodes) (hjs : j.sector = rootDirSector) : j.removed = false := by
  cases (h.intact.mem_changed hi ha).mp hj with
  | inl he =>
    subst he
    rw [hr (hs.symm.trans hjs)]
    exact h.kept i hi (hs.symm.trans hjs)
  | inr hj => exact h.kept j hj.1 hjs

theorem Holds.write (h : Holds S A) (hi : i ∈ S.openInodes) (h0 : 0 ≤ offset) (h1 : 1 ≤ size) (ho : IsInt offset)
    (hs : IsInt size) (hb : size ≤ buffer.length) (hw : S.writeAt i.addr buffer size offset = some (n,S')) :
    Holds S' (if n = size then A.store i.sector (buffer.take size.toNat) offset else A) := by
  obtain ⟨ok,inode,w,hw',hws,hint,-,hbytes,hf⟩ := h.intact.write_frame hi buffer h0 h1 ho.2 hs.2 hb
  rw [hw] at hw'
  obtain ⟨rfl,rfl⟩ := Prod.mk.inj (Option.some.inj hw')
  have hkept : ∀ j ∈ (S.changed inode w).openInodes, j.sector = rootDirSector → j.removed = false := fun j hj =>
    h.kept_changed hi (by rw [hws.inode_eq]) (by rw [hws.inode_eq]) (fun _ => by rw [hws.inode_eq]) hj
  cases ok with
  | false =>
    have hfail : ¬ (if false = true then size else 0) = size := by
      rw [if_neg Bool.false_ne_true]
      omega
    rw [if_neg hfail]
    refine ⟨hint,h.root,hkept,fun p a hp => ?_⟩
    by_cases hps : p = i.sector
    · rw [hps,hbytes,if_neg (by decide),← hps]
      exact h.bytes p a hp
    · rw [hf.bytes p ⟨Arrays.mem_inodes hp,hps⟩]
      exact h.bytes p a hp
  | true =>
    rw [if_pos rfl,if_pos rfl]
    refine ⟨Arrays.inodes_store.symm ▸ hint,?_,hkept,fun p a hp => ?_⟩
    · rw [Arrays.store,Function.update_apply]
      split_ifs with hr
      · rw [← hr,h.root,Option.map_none]
      · exact h.root
    · rw [Arrays.store,Function.update_apply] at hp
      split_ifs at hp with hps
      · rw [Option.map_eq_some_iff] at hp
        obtain ⟨b,hb',rfl⟩ := hp
        rw [hps,hbytes,if_pos rfl,h.bytes _ b hb']
      · rw [hf.bytes p ⟨Arrays.mem_inodes hp,hps⟩]
        exact h.bytes p a hp

theorem Holds.remove (h : Holds S A) (hi : i ∈ S.openInodes) (hs : i.sector ≠ rootDirSector)
    (hm : S.inodeRemove i.addr = some S') : Holds S' A := by
  obtain ⟨hrm,hint,hrec⟩ := h.intact.inodeRemove hi
  rw [hm] at hrm
  obtain rfl := Option.some.inj hrm
  obtain ⟨r,hr⟩ : ∃ r, r = { i with removed := true } := ⟨_,rfl⟩
  rw [← hr] at hint hrec ⊢
  have ha : r.addr = i.addr := by rw [hr]
  have hsec : r.sector = i.sector := by rw [hr]
  refine ⟨hint,h.root,fun j hj => h.kept_changed hi ha hsec (fun hc => absurd hc hs) hj,fun p a hp => ?_⟩
  have hb : (S.changed r S.vol).bytes p = S.bytes p := by
    unfold System.bytes
    rw [hrec p (Arrays.mem_inodes hp)]
    rfl
  rw [hb]
  exact h.bytes p a hp

theorem Holds.close (h : Holds S A) (hi : i ∈ S.openInodes) (hc : S.inodeClose i.addr = some S') :
    Holds S' (if i.removed then A.drop i.sector else A) := by
  cases hr : i.removed with
  | false =>
    obtain ⟨hc',hint,hbytes,-⟩ := h.intact.close_frame hi hr
    rw [hc] at hc'
    obtain rfl := Option.some.inj hc'
    rw [if_neg (by decide)]
    exact ⟨hint,h.root,fun j hj => h.kept j ((h.intact.mem_closed hi).mp hj).1,
      fun p a hp => (hbytes p).trans (h.bytes p a hp)⟩
  | true =>
    obtain ⟨T,hc',hint,hopen,hf,-⟩ := h.intact.release_frame hi hr
    rw [hc] at hc'
    obtain rfl := Option.some.inj hc'
    have hne : i.sector ≠ rootDirSector := fun he => by
      have hk := h.kept i hi he
      rw [hr] at hk
      cases hk
    rw [if_pos rfl]
    refine ⟨(Arrays.inodes_drop hne).symm ▸ hint,?_,fun j hj hjs => ?_,fun p a hp => ?_⟩
    · rw [Arrays.drop,Function.update_of_ne hne.symm]
      exact h.root
    · exact h.kept j ((hf.opens j ⟨hjs ▸ Set.mem_insert _ _,fun he => hne (he.symm.trans hjs)⟩).mp hj) hjs
    · rw [Arrays.drop,Function.update_apply] at hp
      split_ifs at hp with hps
      rw [hf.bytes p ⟨Arrays.mem_inodes hp,hps⟩]
      exact h.bytes p a hp

theorem InodeStep.holds (hs : InodeStep S A S' A') (h : Holds S A) : Holds S' A' := by
  cases hs with
  | full ha =>
    rw [h.full ha]
    exact h
  | create ha hl hc => exact h.create ha hl hc
  | openNew hs hn ho => exact h.openNew hs hn ho
  | write hi h0 h1 ho hs hb hw => exact h.write hi h0 h1 ho hs hb hw
  | read hi hr => exact h
  | remove hi hs hr hm => exact h.remove hi hs hm
  | close hi hc => exact h.close hi hc

theorem InodeRun.holds (h : InodeRun S A) : Holds S A := by
  induction h with
  | start h => exact h.holds
  | step _ hs ih => exact hs.holds ih

end
end ShellOS.Fs
