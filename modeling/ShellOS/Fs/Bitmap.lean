import Mathlib

/-! The bitmap behind the free map: an array of 64-bit elements simulating an array of bits. -/
namespace ShellOS.Fs

/-- `ELEM_BITS`. -/
abbrev elemBits : ℕ := 64

def elemIdx (bitIdx : ℕ) : ℕ := bitIdx / elemBits

def bitMask (bitIdx : ℕ) : UInt64 := 1 <<< UInt64.ofNat (bitIdx % elemBits)

def elemCnt (bitCnt : ℕ) : ℕ := (bitCnt + elemBits - 1) / elemBits

/-- `byte_cnt`: `sizeof(elem_type)` bytes for each element. -/
def byteCnt (bitCnt : ℕ) : ℕ := 8 * elemCnt bitCnt

/-- The allocation of `bits` always fits `bit_cnt`. -/
structure Bitmap where
  bitCnt : ℕ
  bits : Vector UInt64 (elemCnt bitCnt)

namespace Bitmap

theorem elemIdx_lt {n i : ℕ} (h : i < n) : elemIdx i < elemCnt n := by
  unfold elemIdx elemCnt elemBits
  omega

def bitmapCreate (bitCnt : ℕ) : Bitmap := ⟨bitCnt,Vector.replicate _ 0⟩

/-- `b->bits[idx]`. -/
def elem (b : Bitmap) (idx : ℕ) : UInt64 := b.bits[idx]?.getD 0

def bitmapMark (b : Bitmap) (i : ℕ) : Bitmap :=
  { b with bits := b.bits.setIfInBounds (elemIdx i) (b.elem (elemIdx i) ||| bitMask i) }

def bitmapReset (b : Bitmap) (i : ℕ) : Bitmap :=
  { b with bits := b.bits.setIfInBounds (elemIdx i) (b.elem (elemIdx i) &&& ~~~bitMask i) }

def bitmapSet (b : Bitmap) (i : ℕ) (value : Bool) : Bitmap :=
  if value then b.bitmapMark i else b.bitmapReset i

def bitmapTest (b : Bitmap) (i : ℕ) : Bool := (b.elem (elemIdx i) &&& bitMask i) != 0

/-- The loop of `bitmap_set_multiple`, one bit after the other. -/
def bitmapSetMultiple (b : Bitmap) (start cnt : ℕ) (value : Bool) : Bitmap :=
  (List.range cnt).foldl (fun b i => b.bitmapSet (start + i) value) b

/-- Whether any bit of the range has the value; the loop stops at the first one. -/
def bitmapContains (b : Bitmap) (start cnt : ℕ) (value : Bool) : Bool :=
  (List.range cnt).any fun i => b.bitmapTest (start + i) == value

def bitmapCount (b : Bitmap) (start cnt : ℕ) (value : Bool) : ℕ :=
  (List.range cnt).countP fun i => b.bitmapTest (start + i) == value

/-- `none` stands for `BITMAP_ERROR`. -/
def bitmapScan (b : Bitmap) (start cnt : ℕ) (value : Bool) : Option ℕ :=
  if cnt ≤ b.bitCnt then
    (List.range' start (b.bitCnt - cnt + 1 - start)).find? fun i => !b.bitmapContains i cnt (!value)
  else none

def bitmapScanAndFlip (b : Bitmap) (start cnt : ℕ) (value : Bool) : Option ℕ × Bitmap :=
  match b.bitmapScan start cnt value with
  | some idx => (some idx,b.bitmapSetMultiple idx cnt (!value))
  | none => (none,b)

@[simp] theorem mark_bitCnt (b : Bitmap) (i : ℕ) : (b.bitmapMark i).bitCnt = b.bitCnt := rfl
@[simp] theorem reset_bitCnt (b : Bitmap) (i : ℕ) : (b.bitmapReset i).bitCnt = b.bitCnt := rfl
@[simp] theorem set_bitCnt (b : Bitmap) (i : ℕ) (v : Bool) : (b.bitmapSet i v).bitCnt = b.bitCnt := by
  unfold bitmapSet; split <;> rfl

@[simp] theorem setMultiple_bitCnt (b : Bitmap) (start cnt : ℕ) (v : Bool) :
    (b.bitmapSetMultiple start cnt v).bitCnt = b.bitCnt := by
  unfold bitmapSetMultiple
  induction cnt with
  | zero => rfl
  | succ n ih => simp [List.range_succ,ih]

theorem bitMask_toBitVec (i : ℕ) : (bitMask i).toBitVec = BitVec.twoPow 64 (i % 64) := by
  have h : i % 64 < 64 := Nat.mod_lt _ (by decide)
  simp only [bitMask,elemBits,UInt64.toBitVec_shiftLeft,BitVec.twoPow_eq,BitVec.shiftLeft_eq']
  congr 1
  simp

theorem getLsbD_bitMask (i j : ℕ) :
    (bitMask i).toBitVec.getLsbD j = decide (i % 64 = j) := by
  have h : i % 64 < 64 := Nat.mod_lt _ (by decide)
  rw [bitMask_toBitVec,BitVec.getLsbD_twoPow]
  simp [h]

/-- Testing a bit reads that bit of its element. -/
theorem test_eq_getLsbD (b : Bitmap) (i : ℕ) :
    b.bitmapTest i = (b.elem (elemIdx i)).toBitVec.getLsbD (i % 64) := by
  have h : i % 64 < 64 := Nat.mod_lt _ (by decide)
  have hz : BitVec.twoPow 64 (i % 64) ≠ 0#64 := by
    intro he
    have := congrArg (fun x => x.getLsbD (i % 64)) he
    simp at this
    omega
  rw [bitmapTest,bne,Bool.eq_iff_iff]
  simp only [Bool.not_eq_true',beq_eq_false_iff_ne,ne_eq,← UInt64.toBitVec_inj,
    UInt64.toBitVec_and,bitMask_toBitVec,BitVec.and_twoPow]
  split <;> simp_all

theorem elem_setBits (b : Bitmap) (k j : ℕ) (w : UInt64) (hk : k < elemCnt b.bitCnt) :
    elem { b with bits := b.bits.setIfInBounds k w } j = if j = k then w else b.elem j := by
  by_cases hj : j = k
  · subst j; simp [elem,hk]
  · simp [elem,hj,Ne.symm hj]

theorem test_mark (b : Bitmap) {i : ℕ} (j : ℕ) (hi : i < b.bitCnt) :
    (b.bitmapMark i).bitmapTest j = (decide (j = i) || b.bitmapTest j) := by
  have hj : j % 64 < 64 := Nat.mod_lt _ (by decide)
  rw [test_eq_getLsbD,test_eq_getLsbD,bitmapMark,elem_setBits _ _ _ _ (elemIdx_lt hi)]
  split
  · rename_i he
    have hij : (i % 64 = j % 64) ↔ j = i := by unfold elemIdx elemBits at he; omega
    simp only [UInt64.toBitVec_or,BitVec.getLsbD_or,getLsbD_bitMask,he,hij,Bool.or_comm]
  · rename_i he
    have : j ≠ i := by rintro rfl; exact he rfl
    simp [this]

theorem test_reset (b : Bitmap) {i : ℕ} (j : ℕ) (hi : i < b.bitCnt) :
    (b.bitmapReset i).bitmapTest j = (!decide (j = i) && b.bitmapTest j) := by
  have hj : j % 64 < 64 := Nat.mod_lt _ (by decide)
  rw [test_eq_getLsbD,test_eq_getLsbD,bitmapReset,elem_setBits _ _ _ _ (elemIdx_lt hi)]
  split
  · rename_i he
    have hij : (i % 64 = j % 64) ↔ j = i := by unfold elemIdx elemBits at he; omega
    simp only [UInt64.toBitVec_and,UInt64.toBitVec_not,BitVec.getLsbD_and,BitVec.getLsbD_not,
      getLsbD_bitMask,he,hij,hj,decide_true,Bool.true_and]
    exact Bool.and_comm _ _
  · rename_i he
    have : j ≠ i := by rintro rfl; exact he rfl
    simp [this]

theorem test_set (b : Bitmap) {i : ℕ} (j : ℕ) (v : Bool) (hi : i < b.bitCnt) :
    (b.bitmapSet i v).bitmapTest j = if j = i then v else b.bitmapTest j := by
  cases v
  · simp only [bitmapSet,Bool.false_eq_true,if_false,test_reset b j hi]
    split <;> simp_all
  · simp only [bitmapSet,if_true,test_mark b j hi]
    split <;> simp_all

theorem test_setMultiple (b : Bitmap) (start cnt : ℕ) (v : Bool) (h : start + cnt ≤ b.bitCnt)
    (j : ℕ) : (b.bitmapSetMultiple start cnt v).bitmapTest j =
      if start ≤ j ∧ j < start + cnt then v else b.bitmapTest j := by
  induction cnt with
  | zero => rw [if_neg (by omega)]; rfl
  | succ n ih =>
    have hs : b.bitmapSetMultiple start (n+1) v =
        (b.bitmapSetMultiple start n v).bitmapSet (start+n) v := by
      simp [bitmapSetMultiple,List.range_succ]
    rw [hs,test_set _ _ _ (by simp; omega),ih (by omega)]
    split_ifs <;> first | rfl | omega

@[simp] theorem test_create (n i : ℕ) : (bitmapCreate n).bitmapTest i = false := by
  have h : (bitmapCreate n).elem (elemIdx i) = 0 := by
    change (Vector.replicate (elemCnt n) (0 : UInt64))[elemIdx i]?.getD 0 = 0
    rw [Vector.getElem?_replicate]
    split <;> rfl
  simp [bitmapTest,h]

/-- The bits that are clear. -/
def clearBits (b : Bitmap) : Finset ℕ := (Finset.range b.bitCnt).filter fun i => b.bitmapTest i = false

@[simp] theorem mem_clearBits (b : Bitmap) (i : ℕ) :
    i ∈ b.clearBits ↔ i < b.bitCnt ∧ b.bitmapTest i = false := by simp [clearBits]

theorem count_clear (b : Bitmap) : b.bitmapCount 0 b.bitCnt false = b.clearBits.card := by
  simp only [bitmapCount,clearBits,Finset.card,Finset.filter_val,Finset.range_val,Multiset.range,
    Multiset.filter_coe,Multiset.coe_card,Nat.zero_add]
  rw [List.countP_eq_length_filter]
  congr 1

/-- Scanning for one clear bit finds the lowest one. -/
theorem scan_one (b : Bitmap) :
    b.bitmapScan 0 1 false = (List.range b.bitCnt).find? fun i => b.bitmapTest i = false := by
  unfold bitmapScan
  split
  · rename_i h
    rw [show b.bitCnt - 1 + 1 - 0 = b.bitCnt by omega,← List.range_eq_range']
    congr 1
    funext i
    cases hi : b.bitmapTest i <;> simp [bitmapContains,hi]
  · rename_i h
    rw [show b.bitCnt = 0 by omega]
    rfl

theorem scan_one_some {b : Bitmap} {i : ℕ} (h : b.bitmapScan 0 1 false = some i) :
    i ∈ b.clearBits ∧ ∀ j ∈ b.clearBits, i ≤ j := by
  rw [scan_one] at h
  obtain ⟨hi,as,bs,hl,ha⟩ := List.find?_eq_some_iff_append.mp h
  have hmem := List.mem_of_find?_eq_some h
  refine ⟨(mem_clearBits b i).mpr ⟨List.mem_range.mp hmem,by simpa using hi⟩,?_⟩
  intro j hj
  rw [mem_clearBits] at hj
  by_contra hlt
  -- an index below `i` stands in the part of the range already rejected
  have hi' : as.length = i := by
    have h1 := congrArg (fun l => l[as.length]?) hl
    simp only [List.getElem?_append_right le_rfl,Nat.sub_self,List.getElem?_cons_zero] at h1
    obtain ⟨hr,he⟩ := List.getElem?_eq_some_iff.mp h1
    simpa using he
  have hjas : j ∈ as := by
    have h1 := congrArg (fun l => l[j]?) hl
    simp only [List.getElem?_append_left (by omega : j < as.length)] at h1
    rw [List.getElem?_range (by omega)] at h1
    exact List.mem_of_getElem? h1.symm
  simpa [hj.2] using ha j hjas

theorem scan_one_none {b : Bitmap} (h : b.bitmapScan 0 1 false = none) : b.clearBits = ∅ := by
  rw [scan_one,List.find?_eq_none] at h
  apply Finset.eq_empty_of_forall_notMem
  intro i hi
  rw [mem_clearBits] at hi
  exact h i (List.mem_range.mpr hi.1) (by simpa using hi.2)

theorem clearBits_setMultiple_one (b : Bitmap) {i : ℕ} (h : i < b.bitCnt) :
    (b.bitmapSetMultiple i 1 true).clearBits = b.clearBits.erase i := by
  ext j
  rw [mem_clearBits,setMultiple_bitCnt,test_setMultiple b i 1 true (by omega),Finset.mem_erase,
    mem_clearBits]
  by_cases hj : j = i
  · subst hj; simp
  · rw [if_neg (by omega)]
    simp [hj]

/-- The bytes of the element array, as `bitmap_write` hands them to the file. -/
def elemByte (w : UInt64) (i : ℕ) : UInt8 := UInt8.ofNat (w.toNat / 256 ^ i)

def bytes (b : Bitmap) : List UInt8 :=
  (List.range (byteCnt b.bitCnt)).map fun k => elemByte (b.elem (k / 8)) (k % 8)

@[simp] theorem length_bytes (b : Bitmap) : b.bytes.length = byteCnt b.bitCnt := by simp [bytes]

def packElem (f : ℕ → UInt8) : UInt64 :=
  UInt64.ofNat ((f 0).toNat + 256 * (f 1).toNat + 256^2 * (f 2).toNat + 256^3 * (f 3).toNat +
    256^4 * (f 4).toNat + 256^5 * (f 5).toNat + 256^6 * (f 6).toNat + 256^7 * (f 7).toNat)

theorem packElem_elemByte (w : UInt64) : packElem (elemByte w) = w := by
  have hw := w.toNat_lt
  apply UInt64.toNat_inj.mp
  simp only [packElem,elemByte,UInt8.toNat_ofNat',UInt64.toNat_ofNat']
  omega

/-- `last_mask`: the bits in use of the last element. -/
def lastMask (bitCnt : ℕ) : UInt64 :=
  if bitCnt % elemBits ≠ 0 then (1 <<< UInt64.ofNat (bitCnt % elemBits)) - 1 else -1

/-- The element array after `bitmap_read` filled it from the bytes of the file and masked its
last element. -/
def ofBytes (bitCnt : ℕ) (data : List UInt8) : Bitmap :=
  let b : Bitmap := ⟨bitCnt,Vector.ofFn fun k => packElem fun i => data.getD (8 * k + i) 0⟩
  let last := elemCnt bitCnt - 1
  { b with bits := b.bits.setIfInBounds last (b.elem last &&& lastMask bitCnt) }

theorem getLsbD_lastMask (n : ℕ) {j : ℕ} (hj : j < 64) :
    (lastMask n).toBitVec.getLsbD j = (decide (n % 64 = 0) || decide (j < n % 64)) := by
  have hn : n % 64 < 64 := Nat.mod_lt _ (by decide)
  unfold lastMask elemBits
  split
  · rename_i h
    have hp : 2 ^ (n % 64) < 2 ^ 64 := Nat.pow_lt_pow_right (by decide) hn
    have ht : (((1 : UInt64) <<< UInt64.ofNat (n % 64)) - 1).toNat = 2 ^ (n % 64) - 1 := by
      have h1 : ((1 : UInt64) <<< UInt64.ofNat (n % 64)).toNat = 2 ^ (n % 64) := by
        simp only [UInt64.toNat_shiftLeft,UInt64.toNat_ofNat',UInt64.toNat_one,Nat.shiftLeft_eq,one_mul]
        rw [Nat.mod_eq_of_lt (by omega : n % 64 < 2 ^ 64),Nat.mod_eq_of_lt hn,Nat.mod_eq_of_lt hp]
      rw [UInt64.toNat_sub_of_le _ _ (by rw [UInt64.le_iff_toNat_le,h1]; exact Nat.one_le_two_pow),h1]
      rfl
    rw [BitVec.getLsbD,UInt64.toNat_toBitVec,ht,Nat.testBit_two_pow_sub_one]
    simp [h]
  · rename_i h
    have h0 : n % 64 = 0 := by simpa using h
    have hall : (-1 : UInt64).toBitVec = BitVec.allOnes 64 := by decide
    rw [hall,BitVec.getLsbD_allOnes]
    simp [h0,hj]

/-- What was written is read back: the bits in use survive the round trip through the file. -/
theorem test_ofBytes (b : Bitmap) {i : ℕ} (hi : i < b.bitCnt) :
    (ofBytes b.bitCnt b.bytes).bitmapTest i = b.bitmapTest i := by
  have hk := elemIdx_lt hi
  have hm : i % 64 < 64 := Nat.mod_lt _ (by decide)
  -- before masking, element `k` is read back unchanged
  have helem : ∀ k < elemCnt b.bitCnt, elem ⟨b.bitCnt,Vector.ofFn fun k =>
      packElem fun i => b.bytes.getD (8 * k + i) 0⟩ k = b.elem k := by
    intro k hk
    have hb : ∀ j < 8, b.bytes.getD (8 * k + j) 0 = elemByte (b.elem k) j := by
      intro j hj
      have hlt : 8 * k + j < byteCnt b.bitCnt := by unfold byteCnt; omega
      simp only [bytes,List.getD_eq_getElem?_getD,List.getElem?_map,List.getElem?_range hlt,
        Option.map_some,Option.getD_some]
      rw [show (8 * k + j) / 8 = k by omega,show (8 * k + j) % 8 = j by omega]
    rw [← packElem_elemByte (b.elem k)]
    simp only [elem,Vector.getElem?_ofFn,hk,dite_true,Option.getD_some,packElem]
    rw [hb 0 (by omega),hb 1 (by omega),hb 2 (by omega),hb 3 (by omega),hb 4 (by omega),
      hb 5 (by omega),hb 6 (by omega),hb 7 (by omega)]
    rfl
  rw [test_eq_getLsbD,test_eq_getLsbD,ofBytes,elem_setBits _ _ _ _ (by
    change elemCnt b.bitCnt - 1 < elemCnt b.bitCnt; omega)]
  split
  · rename_i he
    rw [← he,helem _ hk,UInt64.toBitVec_and,BitVec.getLsbD_and,getLsbD_lastMask _ hm]
    have : (decide (b.bitCnt % 64 = 0) || decide (i % 64 < b.bitCnt % 64)) = true := by
      unfold elemIdx elemCnt elemBits at he
      simp only [Bool.or_eq_true,decide_eq_true_eq]
      omega
    rw [this,Bool.and_true]
  · rw [helem _ hk]

/-- A bitmap is determined by its bits, those past its end included. -/
theorem ext_test {n : ℕ} {a b : Vector UInt64 (elemCnt n)}
    (h : ∀ i, bitmapTest ⟨n,a⟩ i = bitmapTest ⟨n,b⟩ i) : a = b := by
  apply Vector.ext
  intro k hk
  apply UInt64.toBitVec_inj.mp
  apply BitVec.eq_of_getLsbD_eq
  intro j hj
  have hi := h (64 * k + j)
  rw [test_eq_getLsbD,test_eq_getLsbD] at hi
  have h1 : elemIdx (64 * k + j) = k := by unfold elemIdx elemBits; omega
  have h2 : (64 * k + j) % 64 = j := by omega
  rw [h1,h2] at hi
  simpa [elem,hk] using hi

/-- The bits past the end are clear after reading a map. -/
theorem test_ofBytes_high (n : ℕ) (data : List UInt8) {i : ℕ} (hi : n ≤ i) :
    (ofBytes n data).bitmapTest i = false := by
  have hm : i % 64 < 64 := Nat.mod_lt _ (by decide)
  rw [test_eq_getLsbD]
  by_cases hk : elemIdx i < elemCnt n
  · -- only the last element has such bits, and they are masked
    have hl : elemIdx i = elemCnt n - 1 := by unfold elemIdx elemCnt elemBits at *; omega
    rw [hl,ofBytes,elem_setBits _ _ _ _ (by change elemCnt n - 1 < elemCnt n; omega),if_pos rfl,
      UInt64.toBitVec_and,BitVec.getLsbD_and,getLsbD_lastMask _ hm]
    have : (decide (n % 64 = 0) || decide (i % 64 < n % 64)) = false := by
      unfold elemIdx elemCnt elemBits at hl hk
      simp only [Bool.or_eq_false_iff,decide_eq_false_iff_not]
      omega
    rw [this,Bool.and_false]
  · have h0 : (ofBytes n data).elem (elemIdx i) = 0 := by
      have hlen : elemCnt n ≤ elemIdx i := Nat.le_of_not_lt hk
      unfold elem
      rw [Vector.getElem?_eq_none (by simpa [ofBytes] using hlen)]
      rfl
    rw [h0]
    simp

/-- No bit is set past the end. -/
def Trimmed (b : Bitmap) : Prop := ∀ i, b.bitCnt ≤ i → b.bitmapTest i = false

/-- A map written to its file is read back exactly. -/
theorem ofBytes_bytes {b : Bitmap} (h : b.Trimmed) : ofBytes b.bitCnt b.bytes = b := by
  have hbits : (ofBytes b.bitCnt b.bytes).bits = b.bits := by
    refine ext_test fun i => ?_
    by_cases hi : i < b.bitCnt
    · exact test_ofBytes b hi
    · exact (test_ofBytes_high _ _ (Nat.le_of_not_lt hi)).trans (h i (Nat.le_of_not_lt hi)).symm
  have he : ofBytes b.bitCnt b.bytes = ⟨b.bitCnt,(ofBytes b.bitCnt b.bytes).bits⟩ := rfl
  rw [he,hbits]

end Bitmap
end ShellOS.Fs
