import ShellOS.Fs.Inode

/-! The 32-bit arithmetic of lengths and offsets, and the fields of the inode record. -/
namespace ShellOS.Fs

/-- The most data sectors an inode can map. -/
abbrev maxSectors : ℕ := 16635

theorem wrap32_of_mem {x : ℤ} (h : -2147483648 ≤ x) (h' : x < 2147483648) : wrap32 x = x := by
  unfold wrap32
  omega

theorem wrap32_range (x : ℤ) : -2147483648 ≤ wrap32 x ∧ wrap32 x < 2147483648 := by
  unfold wrap32
  omega

/-- No wrapping for the lengths an inode can have. -/
theorem bytesToSectors_eq {size : ℤ} (h : 0 ≤ size) (h' : size ≤ 8517120) :
    (bytesToSectors size : ℤ) = (size + 511) / 512 := by
  unfold bytesToSectors
  have h1 : wrap32 (wrap32 (size + 512) - 1) = size + 511 := by unfold wrap32; omega
  rw [h1,Int.tdiv_eq_ediv_of_nonneg (by omega)]
  omega

/-- Longer lengths need too many sectors, also where the rounding wraps around. -/
theorem bytesToSectors_gt {size : ℤ} (h : 8517120 < size) (h' : size < 2147483648) :
    maxSectors < bytesToSectors size := by
  unfold bytesToSectors maxSectors
  by_cases hs : size ≤ 2147483136
  · have h1 : wrap32 (wrap32 (size + 512) - 1) = size + 511 := by unfold wrap32; omega
    rw [h1,Int.tdiv_eq_ediv_of_nonneg (by omega)]
    omega
  · have h1 : wrap32 (wrap32 (size + 512) - 1) = -(4294966785 - size) := by unfold wrap32; omega
    rw [h1,Int.neg_tdiv,Int.tdiv_eq_ediv_of_nonneg (by omega)]
    omega

theorem bytesToSectors_le_iff {size : ℤ} (h : 0 ≤ size) (h' : size < 2147483648) :
    bytesToSectors size ≤ maxSectors ↔ size ≤ 8517120 := by
  constructor
  · intro hn
    by_contra hc
    have := bytesToSectors_gt (by omega) h'
    omega
  · intro hs
    have := bytesToSectors_eq h hs
    unfold maxSectors
    omega

theorem bytesToSectors_mono {a b : ℤ} (ha : 0 ≤ a) (hab : a ≤ b) (hb : b ≤ 8517120) :
    bytesToSectors a ≤ bytesToSectors b := by
  have h1 := bytesToSectors_eq ha (by omega)
  have h2 := bytesToSectors_eq (by omega : 0 ≤ b) hb
  omega

theorem divRoundUp_one (n : ℕ) : divRoundUp n 1 = n := by simp [divRoundUp]

/-! ### Fields of the record -/
namespace InodeDisk

theorem length_setLength (d : InodeDisk) {n : ℤ} (h : -2147483648 ≤ n) (h' : n < 2147483648) :
    (d.setLength n).length = n := by
  unfold length setLength
  rw [Sector.word_setWord_self _ _ (by decide),UInt32.toNat_ofNat']
  unfold wrap32
  omega

theorem length_setWord (d : InodeDisk) {k : ℕ} (w : UInt32) (h : k ≠ 126) :
    length (Sector.setWord d k w) = length d := by
  unfold length
  rw [Sector.word_setWord_ne _ _ h.symm]

theorem length_range (d : InodeDisk) : -2147483648 ≤ d.length ∧ d.length < 2147483648 :=
  wrap32_range _

/-- Two records that differ in block pointers only. -/
def SameInfo (d e : InodeDisk) : Prop := ∀ k, 125 ≤ k → Sector.word e k = Sector.word d k

theorem SameInfo.refl (d : InodeDisk) : SameInfo d d := fun _ _ => rfl
theorem SameInfo.trans {d e f : InodeDisk} (h : SameInfo d e) (g : SameInfo e f) : SameInfo d f :=
  fun k hk => (g k hk).trans (h k hk)

theorem sameInfo_setWord (d : InodeDisk) {k : ℕ} (w : UInt32) (h : k < 125) :
    SameInfo d (Sector.setWord d k w) := fun j hj => Sector.word_setWord_ne _ _ (by omega)

theorem SameInfo.length_eq {d e : InodeDisk} (h : SameInfo d e) : e.length = d.length := by
  unfold length
  rw [h 126 (by decide)]

theorem SameInfo.isDir_eq {d e : InodeDisk} (h : SameInfo d e) : e.isDir = d.isDir := by
  unfold isDir Sector.byte
  rw [h (500 / 4) (by decide)]

theorem word_create (length : ℤ) (isDir : Bool) {k : ℕ} (h : k < 125) :
    Sector.word (create length isDir) k = 0 := by
  simp only [create,setIsDir,setMagic,setLength]
  rw [Sector.word_setWord_ne _ _ (by omega),Sector.word_setWord_ne _ _ (by omega),
    Sector.word_setWord_ne _ _ (by omega),Sector.word_zeros]

theorem length_create {n : ℤ} (isDir : Bool) (h : -2147483648 ≤ n) (h' : n < 2147483648) :
    (create n isDir).length = n := by
  unfold create setIsDir setMagic
  rw [length_setWord _ _ (by decide),length_setWord _ _ (by decide),length_setLength _ h h']

theorem isDir_create (n : ℤ) (isDir : Bool) : (create n isDir).isDir = isDir := by
  simp only [create,InodeDisk.isDir,setIsDir,Sector.byte]
  rw [Sector.word_setWord_self _ _ (by decide)]
  cases isDir <;> decide

end InodeDisk
end ShellOS.Fs
