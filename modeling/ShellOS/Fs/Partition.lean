import ShellOS.Fs.Sector

/-! Scanning a disk for partitions. -/
namespace ShellOS.Fs

/-- What the scan reads of a `partition_table_entry`. -/
structure PartitionTableEntry where
  type : UInt8
  offset : UInt32
  size : UInt32
  deriving DecidableEq

/-- A partition of a block device. -/
structure Partition where
  start : BlockSector
  size : BlockSector
  deriving DecidableEq

/-- Four bytes of a sector. -/
def wordAt (s : Sector) (j : ℕ) : UInt32 := Sector.packWord fun k => s.byte (j + k)

/-- Entry `i` of the `partition_table` in a sector. -/
def entryAt (s : Sector) (i : ℕ) : PartitionTableEntry :=
  ⟨s.byte (446 + 16 * i + 4),wordAt s (446 + 16 * i + 8),wordAt s (446 + 16 * i + 12)⟩

def entries (s : Sector) : List PartitionTableEntry := (List.range 4).map (entryAt s)

/-- `pt->signature == 0xaa55` -/
def hasSignature (s : Sector) : Bool := s.byte 510 == 0x55 && s.byte 511 == 0xaa

def PartitionTableEntry.isEmpty (e : PartitionTableEntry) : Bool := e.size == 0 || e.type == 0

def PartitionTableEntry.isExtended (e : PartitionTableEntry) : Bool :=
  e.type == 0x05 || e.type == 0x0f || e.type == 0x85 || e.type == 0xc5

/-- `found_partition`: the partition, if it lies on the device. -/
def foundPartition (blockSize start size : BlockSector) : Option Partition :=
  if blockSize ≤ start then none
  else if start + size < start ∨ blockSize < start + size then none
  else some ⟨start,size⟩

/-- How many partitions were counted, and those registered. -/
structure Scan where
  partNr : ℕ
  registered : List Partition

section
variable (disk : BlockSector → Sector) (blockSize : BlockSector)

/-- `read_partition_table`, nested at most so many times. Whatever the sector, it is sector 0 that is read. -/
def readPartitionTable : ℕ → BlockSector → BlockSector → Scan → Option Scan
  | 0,_,_,_ => none
  | n+1,sector,primaryExtendedSector,st =>
    if blockSize ≤ sector then some st
    else if hasSignature (disk 0) = false then some st
    else (entries (disk 0)).foldlM (fun st e =>
      if e.isEmpty then some st
      else if e.isExtended then
        if sector = 0 then readPartitionTable n e.offset e.offset st
        else readPartitionTable n (e.offset + primaryExtendedSector) primaryExtendedSector st
      else some ⟨st.partNr + 1,st.registered ++ (foundPartition blockSize (e.offset + sector) e.size).toList⟩) st

def partitionScan (n : ℕ) : Option Scan := readPartitionTable disk blockSize n 0 0 ⟨0,[]⟩

/-- The entries that lead to further calls. -/
def extended : List PartitionTableEntry := (entries (disk 0)).filter fun e => !e.isEmpty && e.isExtended

/-- Whether so many calls inside each other are enough. -/
def ends : ℕ → BlockSector → BlockSector → Bool
  | 0,_,_ => false
  | n+1,sector,primary => decide (blockSize ≤ sector) || !hasSignature (disk 0) ||
    (extended disk).all fun e => if sector = 0 then ends n e.offset e.offset else ends n (e.offset + primary) primary

end

theorem isSome_foldlM {α σ : Type} {f : σ → α → Option σ} {c : α → Bool} (h : ∀ s a, (f s a).isSome = c a)
    (l : List α) (s : σ) : (l.foldlM f s).isSome = l.all c := by
  induction l generalizing s with
  | nil => rfl
  | cons a l ih =>
    rw [List.foldlM_cons,List.all_cons,← h s a]
    cases f s a with
    | none => rfl
    | some s' => exact ih s'

variable {disk : BlockSector → Sector} {blockSize : BlockSector}

/-- What has been found so far has no influence on the calls. -/
theorem isSome_readPartitionTable (n : ℕ) (sector primary : BlockSector) (st : Scan) :
    (readPartitionTable disk blockSize n sector primary st).isSome = ends disk blockSize n sector primary := by
  induction n generalizing sector primary st with
  | zero => rfl
  | succ n ih =>
    rw [readPartitionTable,ends]
    by_cases hsize : blockSize ≤ sector
    · simp [hsize]
    · by_cases hsig : hasSignature (disk 0) = false
      · simp [hsig]
      · have hchild : ∀ (s : Scan) (e : PartitionTableEntry),
            (if e.isEmpty then some s
              else if e.isExtended then
                if sector = 0 then readPartitionTable disk blockSize n e.offset e.offset s
                else readPartitionTable disk blockSize n (e.offset + primary) primary s
              else some ⟨s.partNr + 1,s.registered ++ (foundPartition blockSize (e.offset + sector) e.size).toList⟩).isSome =
            (!(!e.isEmpty && e.isExtended) || if sector = 0 then ends disk blockSize n e.offset e.offset
              else ends disk blockSize n (e.offset + primary) primary) := by
          intro s e
          cases e.isEmpty <;> cases e.isExtended <;> by_cases hzero : sector = 0 <;> simp [hzero,ih]
        rw [if_neg hsize,if_neg hsig,isSome_foldlM hchild,extended,List.all_filter]
        simp [hsize,hsig]

/-- No entry leads on into the device from where another one has led. -/
def Shallow (disk : BlockSector → Sector) (blockSize : BlockSector) : Prop :=
  ∀ e ∈ extended disk, e.offset < blockSize → e.offset ≠ 0 ∧ ∀ e' ∈ extended disk, blockSize ≤ e'.offset + e.offset

/-- The calls made for a sector all end. -/
theorem ends_succ_iff {n : ℕ} {sector primary : BlockSector} (hsig : hasSignature (disk 0) = true) :
    ends disk blockSize (n + 1) sector primary = true ↔ sector < blockSize → ∀ e ∈ extended disk,
      (if sector = 0 then ends disk blockSize n e.offset e.offset
        else ends disk blockSize n (e.offset + primary) primary) = true := by
  rw [ends,hsig,Bool.not_true,Bool.or_false,Bool.or_eq_true,decide_eq_true_iff,List.all_eq_true,← UInt32.not_lt]
  exact Decidable.imp_iff_not_or.symm

/-- Past the end of the device nothing is read. -/
theorem ends_past {n : ℕ} {sector primary : BlockSector} (h : blockSize ≤ sector) :
    ends disk blockSize (n + 1) sector primary = true := by
  simp [ends,h]

/-- Two levels of nesting are all there can be. -/
theorem ends_of_shallow (hsig : hasSignature (disk 0) = true) (h : Shallow disk blockSize) :
    ends disk blockSize 3 0 0 = true := by
  refine (ends_succ_iff hsig).mpr fun _ e he => ?_
  rw [if_pos rfl]
  by_cases hoff : e.offset < blockSize
  · obtain ⟨hne,hpast⟩ := h e he hoff
    refine (ends_succ_iff hsig).mpr fun _ e' he' => ?_
    rw [if_neg hne]
    exact ends_past (hpast e' he')
  · exact ends_past (UInt32.not_lt.mp hoff)

/-- An entry that leads back to sector 0 is followed again and again. -/
theorem not_ends_zero (hsig : hasSignature (disk 0) = true) {e : PartitionTableEntry} (he : e ∈ extended disk)
    (hoff : e.offset < blockSize) (hzero : e.offset = 0) (n : ℕ) (primary : BlockSector) :
    ¬ ends disk blockSize n 0 primary = true := by
  induction n generalizing primary with
  | zero => exact Bool.false_ne_true
  | succ n ih =>
    intro h
    have hchild := (ends_succ_iff hsig).mp h (hzero ▸ hoff) e he
    rw [if_pos rfl,hzero] at hchild
    exact ih 0 hchild

/-- Below an entry `e`, the entry `e'` leads from any sector to one on the device. -/
theorem not_ends_below (hsig : hasSignature (disk 0) = true) {e e' : PartitionTableEntry} (he : e ∈ extended disk)
    (he' : e' ∈ extended disk) (hoff : e.offset < blockSize) (hnext : e'.offset + e.offset < blockSize) (n : ℕ)
    {sector : BlockSector} (hsector : sector < blockSize) : ¬ ends disk blockSize n sector e.offset = true := by
  induction n generalizing sector with
  | zero => exact Bool.false_ne_true
  | succ n ih =>
    intro h
    have hchild := (ends_succ_iff hsig).mp h hsector
    by_cases hzero : sector = 0
    · have hself := hchild e he
      rw [if_pos hzero] at hself
      exact ih hoff hself
    · have hother := hchild e' he'
      rw [if_neg hzero] at hother
      exact ih hnext hother

theorem exists_ends_iff : (∃ n, ends disk blockSize n 0 0 = true) ↔ (hasSignature (disk 0) = true → Shallow disk blockSize) := by
  constructor
  · rintro ⟨n,h⟩ hsig e he hoff
    refine ⟨fun hzero => not_ends_zero hsig he hoff hzero n 0 h,fun e' he' => UInt32.not_lt.mp fun hlt => ?_⟩
    cases n with
    | zero => exact Bool.false_ne_true h
    | succ n =>
      have hroot : (0 : BlockSector) < blockSize := by
        rw [UInt32.lt_iff_toNat_lt] at hoff ⊢
        exact (Nat.zero_le _).trans_lt hoff
      have hchild := (ends_succ_iff hsig).mp h hroot e he
      rw [if_pos rfl] at hchild
      exact not_ends_below hsig he he' hoff hlt n hoff hchild
  · intro h
    by_cases hsig : hasSignature (disk 0) = true
    · exact ⟨3,ends_of_shallow hsig (h hsig)⟩
    · exact ⟨1,by simp [ends,hsig]⟩

/-- The scan comes to its end just when the disk has no signature or, of the extended partitions in the
table that begin on the device, none begins in sector 0 and none leads on to a sector of the device. -/
theorem partitionScan_returns_iff (disk : BlockSector → Sector) (blockSize : BlockSector) :
    (∃ n, (partitionScan disk blockSize n).isSome) ↔ (hasSignature (disk 0) = true → Shallow disk blockSize) := by
  simp only [partitionScan,isSome_readPartitionTable]
  exact exists_ends_iff

/-- A disk whose only partition is an extended one that begins in sector 1. -/
def nestedDisk : BlockSector → Sector := fun _ => Sector.ofBytes fun j =>
  if j = 450 then 0x05 else if j = 454 then 1 else if j = 458 then 1 else if j = 510 then 0x55 else if j = 511 then 0xaa else 0

/-- It is read again and again, as if it lay in sectors 1, 2 and so on. -/
theorem partitionScan_nested : ¬ ∃ n, (partitionScan nestedDisk 100 n).isSome := by
  simp only [partitionScan,isSome_readPartitionTable]
  rw [exists_ends_iff]
  intro h
  have hentry : (⟨5,1,1⟩ : PartitionTableEntry) ∈ extended nestedDisk := by decide +kernel
  have hpast := (h (by decide +kernel) _ hentry (by decide)).2 _ hentry
  exact absurd hpast (by decide)

end ShellOS.Fs
