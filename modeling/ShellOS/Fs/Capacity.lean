import ShellOS.Fs.Fsutil2

/-! The largest file that fits into the free sectors of the disk, and what `copyable_size_of_file`
says it is. -/
namespace ShellOS.Fs
open BlockTree

/-! ### The sectors of an inode -/

theorem length_walk_one (m : ℕ) : (walk unitOf 1 m).length = 1 + m := by
  have h1 : unitOf (0+1) = 1 := rfl
  simp [walk,h1]
  omega

/-- The leaves below the blocks of the last level, each block with up to 128 of them. -/
theorem sum_min_range (m k : ℕ) (h : m ≤ 128 * k) :
    ((List.range k).map fun i => min (m - i * 128) 128).sum = m := by
  induction k generalizing m with
  | zero => exact (by simpa using h : m = 0).symm
  | succ k ih =>
    have hshift : ∀ i, min (m - (i + 1) * 128) 128 = min (m - 128 - i * 128) 128 := fun i => by omega
    rw [List.range_succ_eq_map,List.map_cons,List.sum_cons,List.map_map]
    simp only [Function.comp_def,Nat.succ_eq_add_one,hshift]
    rw [ih (m - 128) (by omega)]
    omega

theorem length_walk_two (m : ℕ) : (walk unitOf 2 m).length = 1 + (m + 127) / 128 + m := by
  have h2 : unitOf (1+1) = 128 := rfl
  have hsum := sum_min_range m ((m + 127) / 128) (by omega)
  rw [show (2 : ℕ) = 1+1 from rfl,walk]
  simp only [h2,List.length_cons,List.length_flatMap,List.length_map,length_walk_one]
  rw [List.sum_map_add]
  simp only [List.map_const',List.length_range,List.sum_replicate,smul_eq_mul,mul_one]
  rw [show m + 128 - 1 = m + 127 by omega,hsum]
  omega

/-- The indirect sectors of an inode with `n` data sectors. -/
def indirectCount (n : ℕ) : ℕ :=
  (if 123 < n then 1 else 0) + if 251 < n then 1 + (n - 251 + 127) / 128 else 0

theorem length_inodeWalk {n : ℕ} (h : n ≤ maxSectors) : (inodeWalk n).length = n + indirectCount n := by
  unfold maxSectors at h
  unfold inodeWalk indirectCount
  rcases lt_or_ge 251 n with h2 | h2
  · rw [if_pos (by omega),if_pos (by omega),if_pos (by omega),if_pos h2]
    simp only [List.length_append,List.length_map,List.length_range,length_walk_one,length_walk_two]
    omega
  rw [if_neg (by omega : ¬ 0 < n - 251),if_neg (by omega : ¬ 251 < n)]
  rcases lt_or_ge 123 n with h1 | h1
  · rw [if_pos (by omega),if_pos h1]
    simp only [List.length_append,List.length_map,List.length_range,length_walk_one,List.length_nil]
    omega
  · rw [if_neg (by omega),if_neg (by omega)]
    simp only [List.length_append,List.length_map,List.length_range,List.length_nil]
    omega

/-- What an inode with `d` data sectors takes: its own sector and all that `inode_reserve` asks for. -/
def sectorCost (d : ℕ) : ℕ := 1 + (createDemand (512 * d)).length

theorem length_createDemand {length : ℤ} (h : 0 ≤ length) (h' : length ≤ 8517120) :
    (createDemand length).length = bytesToSectors length + indirectCount (bytesToSectors length) := by
  have hn := bytesToSectors_le_iff h (by omega)
  rw [createDemand,demand,List.length_map,List.filter_eq_self.mpr (fun _ _ => decide_eq_true rfl)]
  exact length_inodeWalk (hn.mpr h')

theorem sectorCost_eq {d : ℕ} (h : d ≤ maxSectors) : sectorCost d = 1 + d + indirectCount d := by
  unfold maxSectors at h
  have hd := @bytesToSectors_eq (512 * (d : ℤ)) (by omega) (by omega)
  have : bytesToSectors (512 * (d : ℤ)) = d := by omega
  rw [sectorCost,length_createDemand (by omega) (by omega),this]
  omega

theorem indirectCount_mono {a b : ℕ} (h : a ≤ b) : indirectCount a ≤ indirectCount b := by
  unfold indirectCount
  split_ifs <;> omega

/-! ### The capacity -/

/-- The numbers of data sectors that fit into `free` sectors; -1 stands for no inode at all. -/
def Fits (free : ℤ) : Set ℤ := {d | d = -1 ∨ 0 ≤ d ∧ d ≤ maxSectors ∧ (sectorCost d.toNat : ℤ) ≤ free}

/-- The number of data sectors `copyable_size_of_file` reckons with. -/
def estimate (free : ℤ) : ℤ :=
  if free ≤ 124 then free - 1
  else if free ≤ 253 then free - 2
  else if 16766 ≤ free then 16635
  else free - (3 + (free - 254 + 128) / 129)

theorem fits_iff {free d : ℤ} (h0 : 0 ≤ d) : d ∈ Fits free ↔
    d ≤ 16635 ∧ 1 + d + (indirectCount d.toNat : ℤ) ≤ free := by
  have hcost : d ≤ 16635 → (sectorCost d.toNat : ℤ) = 1 + d + (indirectCount d.toNat : ℤ) := fun hd => by
    rw [sectorCost_eq (by unfold maxSectors; omega)]
    push_cast
    omega
  constructor
  · rintro (hd | ⟨-,hd,hf⟩)
    · omega
    · have hd' : d ≤ 16635 := by simpa using hd
      exact ⟨hd',hcost hd' ▸ hf⟩
  · rintro ⟨hd,hf⟩
    exact .inr ⟨h0,by simpa using hd,(hcost hd).trans_le hf⟩

theorem estimate_fits {free : ℤ} (h : 0 ≤ free) : estimate free ∈ Fits free := by
  rcases lt_or_ge free 1 with h1 | h1
  · exact .inl (by rw [estimate,if_pos (by omega)]; omega)
  have h0 : 0 ≤ estimate free := by unfold estimate; split_ifs <;> omega
  refine (fits_iff h0).mpr ⟨by unfold estimate; split_ifs <;> omega,?_⟩
  unfold estimate indirectCount
  split_ifs <;> push_cast <;> omega

theorem le_estimate {free d : ℤ} (h : 0 ≤ free) (hd : d ∈ Fits free) : d ≤ estimate free := by
  have h1 : -1 ≤ estimate free := by unfold estimate; split_ifs <;> omega
  rcases lt_or_ge d 0 with h0 | h0
  · omega
  obtain ⟨hmax,hf⟩ := (fits_iff h0).mp hd
  unfold indirectCount at hf
  unfold estimate
  split_ifs at hf ⊢ <;> push_cast at hf <;> omega

theorem estimate_isGreatest {free : ℤ} (h : 0 ≤ free) : IsGreatest (Fits free) (estimate free) :=
  ⟨estimate_fits h,fun _ hd => le_estimate h hd⟩

theorem bytesToSectors_round {s : ℤ} (h1 : 1 ≤ s) (h2 : s ≤ 2147483136) :
    (bytesToSectors s : ℤ) = (s + 511) / 512 := by
  unfold bytesToSectors
  have h : wrap32 (wrap32 (s + 512) - 1) = s + 511 := by unfold wrap32; omega
  rw [h,Int.tdiv_eq_ediv_of_nonneg (by omega)]
  omega

theorem copyableSize_eq {s free : ℤ} (h1 : 1 ≤ s) (h2 : s ≤ 2147483136) :
    copyableSize s free = if (s + 511) / 512 ≤ estimate free then s else 512 * estimate free - 1 := by
  have hs : wrap32 (bytesToSectors s) = (s + 511) / 512 := by
    rw [bytesToSectors_round h1 h2]
    exact wrap32_of_mem (by omega) (by omega)
  unfold copyableSize estimate
  simp only [hs]
  norm_num only
  split_ifs with ha hb hc hd
  all_goals first | rfl | skip
  all_goals rw [Int.tdiv_eq_ediv_of_nonneg (by omega)] at *
  all_goals first | rfl | omega

/-! ### Creation within the capacity -/

/-- There is a sector for an inode, and the inode can be created in it with this length. -/
def Creatable (length : ℤ) (v : Volume) : Prop :=
  ∃ p w, freeMapAllocate 1 v = (some p,w) ∧ (inodeCreate p length false w).1 = true

theorem freeMapAllocate_count {v : Volume} (hv : v.Ok) :
    (freeMapAllocate 1 v = (none,v) ∧ numFreeSectors v = 0) ∨
    ∃ p w, freeMapAllocate 1 v = (some p,w) ∧ w.Ok ∧ ¬ FmNode w p ∧ numFreeSectors w + 1 = numFreeSectors v := by
  rcases freeMapAllocate_spec hv with ⟨he,hc⟩ | ⟨p,w,he,hp,-,hmap,-,hk⟩
  · exact .inl ⟨he,by rw [numFreeSectors,Bitmap.count_clear,hc,Finset.card_empty]⟩
  refine .inr ⟨p,w,he,hk.ok,fun hn => ?_,?_⟩
  · exact (((hk.fmNode_iff p).mp hn).used hv.ready).not_free hp
  · have hmem : p.toNat ∈ v.freeMap.clearBits := (Bitmap.mem_clearBits _ _).mpr hp
    have hpos : 0 < v.freeMap.clearBits.card := Finset.card_pos.mpr ⟨_,hmem⟩
    rw [numFreeSectors,numFreeSectors,Bitmap.count_clear,Bitmap.count_clear,hmap,
      Bitmap.clearBits_setMultiple_one _ hp.1,Finset.card_erase_of_mem hmem]
    omega

/-- A file can be created exactly when its sectors fit. -/
theorem creatable_iff {v : Volume} (hv : v.Ok) {length : ℤ} (h0 : 0 ≤ length) (hmax : length ≤ 2147483136) :
    Creatable length v ↔ (length + 511) / 512 ∈ Fits (numFreeSectors v) := by
  have hcount : length ≤ 8517120 → (createDemand length).length =
      (length + 511) / 512 + (indirectCount ((length + 511) / 512).toNat : ℤ) := by
    intro hl
    have hn := bytesToSectors_eq h0 hl
    rw [length_createDemand h0 hl,← hn,Int.toNat_natCast]
    push_cast
    rfl
  rw [fits_iff (by omega)]
  constructor
  · rintro ⟨p,w,hp,hok⟩
    rcases freeMapAllocate_count hv with ⟨hnone,-⟩ | ⟨p',w',hp',hw,hfm,hfree⟩
    · rw [hnone] at hp
      simp at hp
    obtain ⟨rfl,rfl⟩ : p' = p ∧ w' = w := by simpa [hp'] using hp
    obtain ⟨d,hc⟩ := @inodeCreate_spec _ _ length false hw hfm h0 (by omega)
    have hboth := hc.ok_eq.symm.trans hok
    rw [Bool.and_eq_true,decide_eq_true_eq,decide_eq_true_eq] at hboth
    have := hcount hboth.2
    omega
  · rintro ⟨hd,hf⟩
    have hl : length ≤ 8517120 := by omega
    have := hcount hl
    rcases freeMapAllocate_count hv with ⟨-,hzero⟩ | ⟨p,w,hp,hw,hfm,hfree⟩
    · omega
    obtain ⟨d,hc⟩ := @inodeCreate_spec _ _ length false hw hfm h0 (by omega)
    refine ⟨p,w,hp,?_⟩
    rw [hc.ok_eq,Bool.and_eq_true,decide_eq_true_eq,decide_eq_true_eq]
    omega

theorem Fits.of_le {free a b : ℤ} (hb : b ∈ Fits free) (hab : a ≤ b) (ha : 0 ≤ a) : a ∈ Fits free := by
  obtain ⟨hmax,hf⟩ := (fits_iff (by omega)).mp hb
  have := indirectCount_mono (Int.toNat_le_toNat hab)
  exact (fits_iff ha).mpr ⟨by omega,by omega⟩

/-- `copyable_size_of_file` is exact: it keeps a size that fits and cuts any other down to one
byte less than the largest number of sectors that does. A file of the returned size can be
created, and none with more sectors than this number. -/
theorem copyableSize_exact {s free : ℤ} (h1 : 1 ≤ s) (h2 : s ≤ 2147483136) (hf : 0 ≤ free) :
    ∃ cap, IsGreatest (Fits free) cap ∧ (free = 0 → cap = -1) ∧ (free = 1 → cap = 0) ∧
      copyableSize s free = (if (s + 511) / 512 ≤ cap then s else 512 * cap - 1) ∧
      ∀ v : Volume, v.Ok → (numFreeSectors v : ℤ) = free →
        (0 < copyableSize s free → Creatable (copyableSize s free) v) ∧
        ∀ length, 512 * cap < length → length ≤ 2147483136 → 0 ≤ length → ¬ Creatable length v := by
  have hcap := estimate_isGreatest hf
  have heq := @copyableSize_eq s free h1 h2
  refine ⟨estimate free,hcap,?_,?_,heq,fun v hv hfree => ⟨fun hpos => ?_,fun length hl hmax h0 hc => ?_⟩⟩
  · rintro rfl
    decide
  · rintro rfl
    decide
  · rw [heq] at hpos ⊢
    have hmax : estimate free ≤ 16635 := by unfold estimate; split_ifs <;> omega
    rw [creatable_iff hv hpos.le (by split_ifs <;> omega),hfree]
    refine Fits.of_le hcap.1 ?_ (by omega)
    split_ifs at hpos ⊢ <;> omega
  · rw [creatable_iff hv h0 hmax,hfree] at hc
    have := hcap.2 hc
    omega

theorem copyableSize_exact_large : ∃ cap, IsGreatest (Fits 300) cap ∧ ((300 : ℤ) = 0 → cap = -1) ∧
    ((300 : ℤ) = 1 → cap = 0) ∧
    copyableSize 200000 300 = (if (200000 + 511) / 512 ≤ cap then 200000 else 512 * cap - 1) ∧
    ∀ v : Volume, v.Ok → (numFreeSectors v : ℤ) = 300 →
      (0 < copyableSize 200000 300 → Creatable (copyableSize 200000 300) v) ∧
      ∀ length, 512 * cap < length → length ≤ 2147483136 → 0 ≤ length → ¬ Creatable length v :=
  copyableSize_exact (by decide) (by decide) (by decide)

end ShellOS.Fs
