import Mathlib

/-! Sectors of the disk. A sector is 512 bytes; since inodes and indirect blocks store
32-bit block pointers, it is kept as 128 little-endian words, with the bytes as a view. -/
namespace ShellOS.Fs

/-- `block_sector_t`. -/
abbrev BlockSector := UInt32

/-- `BLOCK_SECTOR_SIZE` bytes, as 32-bit words. -/
abbrev Sector := Vector UInt32 128

namespace Sector

/-- `static char zeros[BLOCK_SECTOR_SIZE]`. -/
def zeros : Sector := Vector.replicate 128 0

/-- Word `k` of a sector, as the code reads `blocks[k]`. -/
def word (s : Sector) (k : ℕ) : UInt32 := s[k]?.getD 0

/-- The assignment `blocks[k] = w`. -/
def setWord (s : Sector) (k : ℕ) (w : UInt32) : Sector := s.setIfInBounds k w

@[simp] theorem word_zeros (k : ℕ) : word zeros k = 0 := by
  simp only [word,zeros,Vector.getElem?_replicate]
  split <;> rfl

theorem word_setWord (s : Sector) (k j : ℕ) (w : UInt32) (hk : k < 128) :
    word (setWord s k w) j = if j = k then w else word s j := by
  by_cases hj : j = k
  · subst j; simp [word,setWord,hk]
  · simp [word,setWord,hj,Ne.symm hj]

@[simp] theorem word_setWord_self (s : Sector) {k : ℕ} (w : UInt32) (hk : k < 128) :
    word (setWord s k w) k = w := by simp [word_setWord s k k w hk]

theorem word_setWord_ne (s : Sector) {k j : ℕ} (w : UInt32) (h : j ≠ k) :
    word (setWord s k w) j = word s j := by
  by_cases hk : k < 128
  · simp [word_setWord s k j w hk,h]
  · simp [word,setWord,Ne.symm h]

theorem ext_word {s t : Sector} (h : ∀ k < 128, word s k = word t k) : s = t := by
  apply Vector.ext
  intro i hi
  simpa [word,hi] using h i hi

/-- Byte `i` (of four) of a little-endian word. -/
def wordByte (w : UInt32) (i : ℕ) : UInt8 := UInt8.ofNat (w.toNat / 256 ^ i)

/-- Byte `j` of a sector; an index past the sector reads as 0. -/
def byte (s : Sector) (j : ℕ) : UInt8 := wordByte (word s (j / 4)) (j % 4)

/-- The little-endian word stored in four consecutive bytes. -/
def packWord (f : ℕ → UInt8) : UInt32 :=
  UInt32.ofNat ((f 0).toNat + 256 * (f 1).toNat + 65536 * (f 2).toNat + 16777216 * (f 3).toNat)

/-- The sector with bytes `f 0, …, f 511`. -/
def ofBytes (f : ℕ → UInt8) : Sector := Vector.ofFn fun k => packWord fun i => f (4 * k.val + i)

theorem wordByte_packWord (f : ℕ → UInt8) {i : ℕ} (hi : i < 4) : wordByte (packWord f) i = f i := by
  have h0 := (f 0).toNat_lt
  have h1 := (f 1).toNat_lt
  have h2 := (f 2).toNat_lt
  have h3 := (f 3).toNat_lt
  apply UInt8.toNat_inj.mp
  simp only [wordByte,packWord,UInt8.toNat_ofNat',UInt32.toNat_ofNat']
  interval_cases i <;> omega

@[simp] theorem byte_ofBytes (f : ℕ → UInt8) {j : ℕ} (hj : j < 512) : byte (ofBytes f) j = f j := by
  have hk : j / 4 < 128 := by omega
  have hw : word (ofBytes f) (j / 4) = packWord fun i => f (4 * (j / 4) + i) := by
    simp [word,ofBytes,hk]
  rw [byte,hw,wordByte_packWord _ (Nat.mod_lt j (by decide))]
  congr 1
  omega

@[simp] theorem byte_zeros (j : ℕ) : byte zeros j = 0 := by
  simp [byte,wordByte]

theorem packWord_wordByte (w : UInt32) : packWord (wordByte w) = w := by
  have hw := w.toNat_lt
  apply UInt32.toNat_inj.mp
  simp only [packWord,wordByte,UInt8.toNat_ofNat',UInt32.toNat_ofNat']
  omega

/-- A sector is determined by its bytes. -/
theorem ofBytes_byte (s : Sector) : ofBytes (byte s) = s := by
  apply ext_word
  intro k hk
  have hw : word (ofBytes (byte s)) k = packWord fun i => byte s (4 * k + i) := by
    simp [word,ofBytes,hk]
  rw [hw,← packWord_wordByte (word s k)]
  simp only [packWord,byte]
  rw [show (4 * k + 0) / 4 = k by omega,show (4 * k + 1) / 4 = k by omega,
    show (4 * k + 2) / 4 = k by omega,show (4 * k + 3) / 4 = k by omega,
    show (4 * k + 0) % 4 = 0 by omega,show (4 * k + 1) % 4 = 1 by omega,
    show (4 * k + 2) % 4 = 2 by omega,show (4 * k + 3) % 4 = 3 by omega]

end Sector
end ShellOS.Fs
