import ShellOS.Fs.Partition

/-! Which bytes of the disk image a sector stands for: the image used as it is, or through one of its
partitions. -/
namespace ShellOS.Fs

/-- What the file system is on. -/
inductive Device
  | ide
  | partition (p : Partition)

section
variable (bytes : ℕ)

/-- `identify_ata_device`, for an image of so many bytes. -/
def capacity : BlockSector := UInt32.ofNat (bytes / 512)

/-- The offset that `ide_read` and `ide_write` seek; the product is one of unsigned 32-bit numbers. -/
def ideOffset (secNo : BlockSector) : ℕ := (secNo * 512).toNat

/-- What `check_sector` finds; its panic only prints a message, and the access is made all the same. -/
def checkSector (blockSize sector : BlockSector) : Bool := decide (sector < blockSize)

/-- A call of `block_read` or `block_write`: whether no message was printed, and the byte of the image from which 512
are read or written. -/
structure Access where
  checked : Bool
  offset : ℕ
  deriving DecidableEq

/-- `block_read` and `block_write` of the disk. -/
def ideAccess (sector : BlockSector) : Access := ⟨checkSector (capacity bytes) sector,ideOffset sector⟩

/-- `block_read` and `block_write` of a partition: `partition_read` and `partition_write` shift the sector by one more
than the start. -/
def partitionAccess (p : Partition) (sector : BlockSector) : Access where
  checked := checkSector p.size sector && (ideAccess bytes (p.start + sector + 1)).checked
  offset := (ideAccess bytes (p.start + sector + 1)).offset

namespace Device

def blockSize : Device → BlockSector
  | ide => capacity bytes
  | partition p => p.size

def access : Device → BlockSector → Access
  | ide => ideAccess bytes
  | partition p => partitionAccess bytes p

/-- The first byte of the device and the one behind its last. -/
def bounds : Device → ℕ × ℕ
  | ide => (0,bytes)
  | partition p => (p.start.toNat * 512,(p.start.toNat + p.size.toNat) * 512)

/-- The sectors of the free map and of the root directory, and those that the free map hands out. -/
def Used (D : Device) (sector : BlockSector) : Prop :=
  sector = 0 ∨ sector = 1 ∨ sector < D.blockSize bytes - 1

/-- Every sector lies inside the image and the device, and no two overlap. -/
structure Sound (D : Device) : Prop where
  inside : ∀ sector, D.Used bytes sector → (D.bounds bytes).1 ≤ (D.access bytes sector).offset ∧
    (D.access bytes sector).offset + 512 ≤ (D.bounds bytes).2 ∧ (D.access bytes sector).offset + 512 ≤ bytes
  apart : ∀ sector sector', D.Used bytes sector → D.Used bytes sector' → sector ≠ sector' →
    (D.access bytes sector).offset + 512 ≤ (D.access bytes sector').offset ∨
      (D.access bytes sector').offset + 512 ≤ (D.access bytes sector).offset

end Device
end

variable {bytes : ℕ}

theorem toNat_capacity (h : bytes / 512 < 2 ^ 32) : (capacity bytes).toNat = bytes / 512 := by
  rw [capacity,UInt32.toNat_ofNat',Nat.mod_eq_of_lt h]

theorem ideOffset_eq (secNo : BlockSector) : ideOffset secNo = secNo.toNat * 512 % 4294967296 := by
  rw [ideOffset,UInt32.toNat_mul]
  rfl

theorem used_iff {D : Device} {sector : BlockSector} (h : D.blockSize bytes ≠ 0) : D.Used bytes sector ↔
    sector.toNat = 0 ∨ sector.toNat = 1 ∨ sector.toNat + 1 < (D.blockSize bytes).toNat := by
  have hpos : 1 ≤ D.blockSize bytes := by
    rw [UInt32.le_iff_toNat_le]
    have hne : (D.blockSize bytes).toNat ≠ 0 := fun h0 => h (UInt32.toNat_inj.mp h0)
    exact Nat.one_le_iff_ne_zero.mpr hne
  have hsub : (D.blockSize bytes - 1).toNat = (D.blockSize bytes).toNat - 1 := UInt32.toNat_sub_of_le _ _ hpos
  rw [Device.Used,UInt32.lt_iff_toNat_lt,hsub,← UInt32.toNat_inj,← UInt32.toNat_inj]
  have h0 : (0 : UInt32).toNat = 0 := rfl
  have h1 : (1 : UInt32).toNat = 1 := rfl
  rw [h0,h1]
  omega

theorem blockSize_ne_zero {D : Device} {n : ℕ} (h : (D.blockSize bytes).toNat = n) (hn : n ≠ 0) : D.blockSize bytes ≠ 0 :=
  fun h0 => hn (h.symm.trans (congrArg UInt32.toNat h0))

/-- The sectors 0 and 1 are always used. -/
theorem used_small (D : Device) {n : ℕ} (h : n ≤ 1) : D.Used bytes (UInt32.ofNat n) := by
  rcases Nat.le_one_iff_eq_zero_or_eq_one.mp h with rfl | rfl
  · exact .inl rfl
  · exact .inr (.inl rfl)

/-- An image of fewer than two sectors has no room for the root directory. It may have one sector more than the products
of 32 bits tell apart, since the free map is one short: the last sector is never used. -/
theorem ide_sound_iff (h : bytes / 512 < 2 ^ 32) : Device.Sound bytes .ide ↔ 2 ≤ bytes / 512 ∧ bytes / 512 ≤ 2 ^ 23 + 1 := by
  have hsize : (Device.blockSize bytes .ide).toNat = bytes / 512 := toNat_capacity h
  have hoffset : ∀ sector, (Device.access bytes .ide sector).offset = sector.toNat * 512 % 4294967296 := ideOffset_eq
  constructor
  · intro hs
    have hroot : (1 : BlockSector).toNat = 1 := rfl
    have hin := (hs.inside 1 (.inr (.inl rfl))).2.2
    rw [hoffset,hroot] at hin
    refine ⟨by omega,?_⟩
    by_contra hlarge
    have hne := blockSize_ne_zero hsize (by omega)
    have hm : (UInt32.ofNat 8388608).toNat = 8388608 := rfl
    have hz : (0 : BlockSector).toNat = 0 := rfl
    have hapart := hs.apart 0 (UInt32.ofNat 8388608) (.inl rfl)
      ((used_iff hne).mpr (.inr (.inr (by rw [hm,hsize]; omega)))) (by decide)
    rw [hoffset,hoffset,hm,hz] at hapart
    omega
  · rintro ⟨htwo,hle⟩
    have hne := blockSize_ne_zero hsize (by omega)
    have hused : ∀ sector, Device.Used bytes .ide sector → sector.toNat < 8388608 ∧ sector.toNat < bytes / 512 := fun sector hu => by
      have hu := (used_iff hne).mp hu
      rw [hsize] at hu
      omega
    constructor
    · intro sector hu
      have hlt := hused sector hu
      rw [hoffset]
      change 0 ≤ _ ∧ _ ≤ bytes ∧ _
      omega
    · intro sector sector' hu hu' hne
      have hlt := hused sector hu
      have hlt' := hused sector' hu'
      have hne : sector.toNat ≠ sector'.toNat := fun he => hne (UInt32.toNat_inj.mp he)
      rw [hoffset,hoffset]
      omega

/-! ### Partitions -/

variable {p : Partition}

/-- What `found_partition` accepts. -/
theorem foundPartition_eq_some_iff (h : bytes / 512 < 2 ^ 32) {start size : BlockSector} :
    foundPartition (capacity bytes) start size = some p ↔ p = ⟨start,size⟩ ∧ start.toNat < bytes / 512 ∧
      start.toNat + size.toNat ≤ bytes / 512 := by
  have hadd : (start + size).toNat = (start.toNat + size.toNat) % 4294967296 := UInt32.toNat_add _ _
  have hs := start.toNat_lt
  have hz := size.toNat_lt
  unfold foundPartition
  split
  · rename_i hge
    rw [UInt32.le_iff_toNat_le,toNat_capacity h] at hge
    exact iff_of_false nofun fun ⟨_,hlt,_⟩ => by omega
  · rename_i hlt
    rw [UInt32.le_iff_toNat_le,toNat_capacity h] at hlt
    split
    · rename_i hend
      simp only [UInt32.lt_iff_toNat_lt,toNat_capacity h,hadd] at hend
      exact iff_of_false nofun fun ⟨_,_,hle⟩ => by omega
    · rename_i hend
      simp only [UInt32.lt_iff_toNat_lt,toNat_capacity h,hadd] at hend
      rw [Option.some.injEq]
      exact ⟨fun he => ⟨he.symm,by omega,by omega⟩,fun he => he.1.symm⟩

/-- The condition for a partition: room for the shift by one, and no product that wraps. -/
def PartitionFits (p : Partition) : Prop :=
  3 ≤ p.size.toNat ∧ (p.start.toNat + p.size.toNat ≤ 2 ^ 23 ∨ p.start.toNat = 0 ∧ p.size.toNat ≤ 2 ^ 23 + 1)

instance (p : Partition) : Decidable (PartitionFits p) := inferInstanceAs (Decidable (_ ∧ _))

/-- The sector of the disk, where the sum does not wrap. -/
theorem toNat_partition {sector : BlockSector} (h : p.start.toNat + sector.toNat + 1 < 4294967296) :
    (p.start + sector + 1).toNat = p.start.toNat + sector.toNat + 1 := by
  have h1 : (1 : UInt32).toNat = 1 := rfl
  rw [UInt32.toNat_add,UInt32.toNat_add,h1]
  omega

theorem offset_partition {sector : BlockSector} (h : p.start.toNat + sector.toNat + 1 < 4294967296) :
    (Device.access bytes (.partition p) sector).offset = (p.start.toNat + sector.toNat + 1) * 512 % 4294967296 := by
  change ideOffset (p.start + sector + 1) = _
  rw [ideOffset_eq,toNat_partition h]

theorem partition_sound_of_fits (h : bytes / 512 < 2 ^ 32) (hend : p.start.toNat + p.size.toNat ≤ bytes / 512)
    (hfits : PartitionFits p) : Device.Sound bytes (.partition p) := by
  obtain ⟨hroom,hwrap⟩ := hfits
  have hne := @blockSize_ne_zero bytes (.partition p) _ rfl (by change p.size.toNat ≠ 0; omega)
  -- no sector used lies behind the partition
  have hlast : ∀ sector, Device.Used bytes (.partition p) sector → sector.toNat + 1 < p.size.toNat ∧
      (Device.access bytes (.partition p) sector).offset = (p.start.toNat + sector.toNat + 1) * 512 % 4294967296 := by
    intro sector hu
    have hused : sector.toNat = 0 ∨ sector.toNat = 1 ∨ sector.toNat + 1 < p.size.toNat := (used_iff hne).mp hu
    exact ⟨by omega,offset_partition (by omega)⟩
  constructor
  · intro sector hu
    obtain ⟨hin,he⟩ := hlast sector hu
    rw [he]
    change p.start.toNat * 512 ≤ _ ∧ _ ≤ (p.start.toNat + p.size.toNat) * 512 ∧ _
    omega
  · intro sector sector' hu hu' hne
    obtain ⟨hin,he⟩ := hlast sector hu
    obtain ⟨hin',he'⟩ := hlast sector' hu'
    have hne : sector.toNat ≠ sector'.toNat := fun he => hne (UInt32.toNat_inj.mp he)
    rw [he,he']
    omega

theorem fits_of_partition_sound (h : bytes / 512 < 2 ^ 32) (hstart : p.start.toNat < bytes / 512)
    (hs : Device.Sound bytes (.partition p)) : PartitionFits p := by
  have hz : p.size.toNat < 4294967296 := p.size.toNat_lt
  -- what `Sound` says of a sector by its number
  have hat : ∀ n, n ≤ 1 ∨ n + 1 < p.size.toNat → p.start.toNat + n + 1 < 4294967296 → Device.Used bytes (.partition p) (UInt32.ofNat n) ∧
      (Device.access bytes (.partition p) (UInt32.ofNat n)).offset = (p.start.toNat + n + 1) * 512 % 4294967296 := by
    intro n hn hsum
    have hnat : (UInt32.ofNat n).toNat = n := UInt32.toNat_ofNat_of_lt' (by change n < 4294967296; omega)
    refine ⟨?_,(offset_partition (by rw [hnat]; exact hsum)).trans (by rw [hnat])⟩
    by_cases hsmall : n ≤ 1
    · exact used_small _ hsmall
    · have hlt := hn.resolve_left hsmall
      have hne := @blockSize_ne_zero bytes (.partition p) _ rfl (by change p.size.toNat ≠ 0; omega)
      exact (used_iff hne).mpr (.inr (.inr (by rw [hnat]; exact hlt)))
  have hinside : ∀ n, n ≤ 1 ∨ n + 1 < p.size.toNat → p.start.toNat + n + 1 < 4294967296 →
      p.start.toNat * 512 ≤ (p.start.toNat + n + 1) * 512 % 4294967296 ∧
        (p.start.toNat + n + 1) * 512 % 4294967296 + 512 ≤ (p.start.toNat + p.size.toNat) * 512 := by
    intro n hn hsum
    obtain ⟨hu,he⟩ := hat n hn hsum
    have hin := hs.inside _ hu
    rw [he] at hin
    exact ⟨hin.1,hin.2.1⟩
  have hfirst := hinside 0 (.inl (Nat.zero_le 1)) (by omega)
  -- the root directory's sector lies inside the partition
  have hroom : 3 ≤ p.size.toNat := by
    by_cases hwide : p.start.toNat + 2 < 4294967296
    · have hroot := hinside 1 (.inl le_rfl) hwide
      omega
    · omega
  refine ⟨hroom,?_⟩
  by_contra hwrap
  by_cases hzero : p.start.toNat = 0
  · -- two sectors whose products agree
    obtain ⟨hu,he⟩ := hat 0 (.inl (Nat.zero_le 1)) (by omega)
    obtain ⟨hu',he'⟩ := hat 8388608 (by omega) (by omega)
    have hapart := hs.apart _ _ hu hu' (by decide)
    rw [he,he'] at hapart
    omega
  · by_cases hlow : p.start.toNat < 8388608
    · have hlast := hinside (8388608 - p.start.toNat - 1) (by omega) (by omega)
      omega
    · omega

/-- For an image of up to 2^32-1 sectors: used as it is, it is sound just when it has at least two and at most 2^23+1
sectors; through a partition that `found_partition` accepts, just when the partition has at least three sectors and ends
within the first 2^23. -/
theorem device_sound_iff (bytes : ℕ) (h : bytes / 512 < 2 ^ 32) :
    (Device.Sound bytes .ide ↔ 2 ≤ bytes / 512 ∧ bytes / 512 ≤ 2 ^ 23 + 1) ∧
    ∀ start size p, foundPartition (capacity bytes) start size = some p →
      (Device.Sound bytes (.partition p) ↔ PartitionFits p) := by
  refine ⟨ide_sound_iff h,fun start size p hfound => ?_⟩
  obtain ⟨rfl,hstart,hend⟩ := (foundPartition_eq_some_iff h).mp hfound
  exact ⟨fits_of_partition_sound h hstart,partition_sound_of_fits h hend⟩

theorem device_sound_small : Device.Sound 1048576 .ide ∧ Device.Sound 1048576 (.partition ⟨63,1000⟩) := by
  have hsound := device_sound_iff 1048576 (by decide)
  exact ⟨hsound.1.mpr (by decide),(hsound.2 63 1000 ⟨63,1000⟩ (by decide)).mpr (by decide)⟩

/-- Images of 5 gigabytes and of one sector, used as they are, and partitions of one and two sectors, the second one at the
end of its image. -/
theorem device_collision : ¬ Device.Sound 5368709120 .ide ∧ ¬ Device.Sound 512 .ide ∧
    (foundPartition (capacity 1048576) 63 1 = some ⟨63,1⟩ ∧ ¬ Device.Sound 1048576 (.partition ⟨63,1⟩)) ∧
    foundPartition (capacity 51200) 98 2 = some ⟨98,2⟩ ∧ ¬ Device.Sound 51200 (.partition ⟨98,2⟩) := by
  refine ⟨?_,?_,⟨by decide,fun hs => ?_⟩,by decide,fun hs => ?_⟩
  · rw [ide_sound_iff (by decide)]
    decide
  · rw [ide_sound_iff (by decide)]
    decide
  · exact absurd (fits_of_partition_sound (by decide) (by decide) hs) (by decide)
  · exact absurd (fits_of_partition_sound (by decide) (by decide) hs) (by decide)

/-- Where the device is sound, `check_sector` finds nothing wrong with the sectors that are used. -/
theorem ide_checked (h : bytes / 512 < 2 ^ 32) (hs : Device.Sound bytes .ide) {sector : BlockSector}
    (hu : Device.Used bytes .ide sector) : (Device.access bytes .ide sector).checked = true := by
  have htwo := ((ide_sound_iff h).mp hs).1
  have hsize : (Device.blockSize bytes .ide).toNat = bytes / 512 := toNat_capacity h
  have hu := (used_iff (blockSize_ne_zero hsize (by omega))).mp hu
  change decide (sector < Device.blockSize bytes .ide) = true
  rw [decide_eq_true_iff,UInt32.lt_iff_toNat_lt]
  omega

theorem partition_checked (h : bytes / 512 < 2 ^ 32) (hend : p.start.toNat + p.size.toNat ≤ bytes / 512) (hfits : PartitionFits p)
    {sector : BlockSector} (hu : Device.Used bytes (.partition p) sector) :
    (Device.access bytes (.partition p) sector).checked = true := by
  have hroom := hfits.1
  have hused : sector.toNat = 0 ∨ sector.toNat = 1 ∨ sector.toNat + 1 < p.size.toNat :=
    (used_iff (@blockSize_ne_zero bytes (.partition p) _ rfl (by change p.size.toNat ≠ 0; omega))).mp hu
  change (decide (sector < p.size) && decide (p.start + sector + 1 < capacity bytes)) = true
  rw [Bool.and_eq_true,decide_eq_true_iff,decide_eq_true_iff,UInt32.lt_iff_toNat_lt,UInt32.lt_iff_toNat_lt,
    toNat_partition (by omega),toNat_capacity h]
  omega

end ShellOS.Fs
