import ShellOS.Fs.Release
import ShellOS.Fs.Walks

/-! Reserving an inode in several steps and releasing it once: the free map is what it was. -/
namespace ShellOS.Fs
open BlockTree

/-- `inode_reserve` for one length after the other, `length` being set to each of them; `none` where
a call fails. -/
def reserveLengths : List ℤ → InodeDisk → Volume → Option (InodeDisk × Volume)
  | [],d,v => some (d,v)
  | l::ls,d,v => match inodeReserve (freeMapAllocate 1) d l v with
    | (true,d,v) => reserveLengths ls (d.setLength l) v
    | (false,_,_) => none

section
variable {ι : Type} {σ : ι → Kind} {v w : Volume} {T T' : ι → BlockSector} {L : List ι}

theorem Grows.clearBits_subset (g : Grows σ v w T T') : w.freeMap.clearBits ⊆ v.freeMap.clearBits := by
  intro i hi
  rw [Bitmap.mem_clearBits] at hi ⊢
  have hb := g.keeps.bitCnt
  have hlt := g.keeps.ok.bitCnt_lt
  have hi' : (UInt32.ofNat i).toNat = i := by
    rw [UInt32.toNat_ofNat']
    omega
  have hfree : Free v (UInt32.ofNat i) := Free.of_grows g ⟨hi'.symm ▸ hi.1,hi'.symm ▸ hi.2⟩
  rwa [Free,hi'] at hfree

/-- A successful call takes the sectors of the places it fills, and no others. -/
theorem Reserves.fresh_iff (h : Reserves σ L v w T T' true) (hL : ∀ t ∈ L, σ t ≠ .absent) (hnodup : L.Nodup)
    (s : BlockSector) : Fresh v w s ↔ ∃ t ∈ L, T t = 0 ∧ T' t = s := by
  have hback : ∀ t ∈ L, T t = 0 → Fresh v w (T' t) := fun t ht h0 => h.grows.fresh t (hL t ht) h0 (h.mapped rfl t ht)
  refine ⟨fun hs => ?_,fun ⟨t,ht,h0,he⟩ => he ▸ hback t ht h0⟩
  have htakes := h.takes
  unfold Takes at htakes
  by_cases hle : (demand σ L T).length ≤ numFreeSectors v
  · rw [if_pos hle] at htakes
    have hcount := htakes.2.1
    rw [numFreeSectors,numFreeSectors,Bitmap.count_clear,Bitmap.count_clear,demand,List.length_map] at hcount
    -- as many sectors are gone as there are places to fill, so each of them is at one of the places
    have hmap : ((L.filter fun t => T t = 0).map fun t => (T' t).toNat).Nodup := by
      refine List.Nodup.map_on (fun t ht u hu he => ?_) (hnodup.filter _)
      have ht := (List.mem_filter.mp ht).1
      exact h.grows.inj t u (hL t ht) (hL u (List.mem_filter.mp hu).1) (UInt32.toNat_inj.mp he) (h.mapped rfl t ht)
    have hsub : ((L.filter fun t => T t = 0).map fun t => (T' t).toNat).toFinset ⊆
        v.freeMap.clearBits \ w.freeMap.clearBits := by
      intro i hi
      obtain ⟨t,ht,rfl⟩ := List.mem_map.mp (List.mem_toFinset.mp hi)
      obtain ⟨ht,h0⟩ := List.mem_filter.mp ht
      have hfresh := hback t ht (of_decide_eq_true h0)
      rw [Finset.mem_sdiff,Bitmap.mem_clearBits,Bitmap.mem_clearBits]
      exact ⟨hfresh.1,fun hc => absurd (hfresh.2.2.symm.trans hc.2) (by decide)⟩
    have hcard : (v.freeMap.clearBits \ w.freeMap.clearBits).card ≤
        (((L.filter fun t => T t = 0).map fun t => (T' t).toNat).toFinset).card := by
      rw [Finset.card_sdiff_of_subset h.grows.clearBits_subset,List.toFinset_card_of_nodup hmap,List.length_map]
      omega
    have hmem : s.toNat ∈ ((L.filter fun t => T t = 0).map fun t => (T' t).toNat).toFinset := by
      rw [Finset.eq_of_subset_of_card_le hsub hcard,Finset.mem_sdiff,Bitmap.mem_clearBits,Bitmap.mem_clearBits]
      exact ⟨hs.1,fun hc => absurd (hs.2.2.symm.trans hc.2) (by decide)⟩
    obtain ⟨t,ht,he⟩ := List.mem_map.mp (List.mem_toFinset.mp hmem)
    obtain ⟨ht,h0⟩ := List.mem_filter.mp ht
    exact ⟨t,ht,of_decide_eq_true h0,UInt32.toNat_inj.mp he⟩
  · rw [if_neg hle] at htakes
    exact absurd htakes.1 (by decide)

end

/-! ### A run of reservations -/

/-- What the inode has taken from the free map it began with. -/
structure Taken (v₀ v : Volume) (d : InodeDisk) (l : ℤ) : Prop extends Grown v d l where
  bitCnt : v.freeMap.bitCnt = v₀.freeMap.bitCnt
  high : ∀ i, v₀.freeMap.bitCnt ≤ i → v.freeMap.bitmapTest i = v₀.freeMap.bitmapTest i
  used_iff : ∀ s, Used v s ↔ Used v₀ s ∨ ∃ t ∈ inodeWalk (bytesToSectors l), ptr v d t = s
  free : ∀ t, inodeShape t ≠ .absent → ptr v d t ≠ 0 → Free v₀ (ptr v d t)

section
variable {v₀ v w : Volume} {d e : InodeDisk} {l length : ℤ}

theorem Taken.none (hv : v.Ok) (hd : ∀ k < 125, Sector.word d k = 0) : Taken v v d 0 := by
  have h0 : bytesToSectors 0 = 0 := by decide +kernel
  have hno : ∀ s, ¬ ∃ t ∈ inodeWalk (bytesToSectors 0), ptr v d t = s := fun s ⟨t,ht,_⟩ => by
    rw [h0] at ht
    exact Mapped.zero v d t ht (ptr_of_no_blocks hd t)
  exact ⟨(Reserving.create hv hd).grown,rfl,fun _ _ => rfl,fun s => ⟨.inl,fun h => h.resolve_right (hno s)⟩,
    fun t _ h => absurd (ptr_of_no_blocks hd t) h⟩

theorem Taken.reserve (h : Taken v₀ v d l) (hl : l ≤ length) (hmax : length < 2147483648)
    (hr : inodeReserve (freeMapAllocate 1) d length v = (true,e,w)) : Taken v₀ w (e.setLength length) length := by
  have h0 : 0 ≤ length := h.nonneg.trans hl
  obtain ⟨ok,hres,hok,-⟩ := inodeReserve_spec h0 h.ok h.owns
  rw [hr] at hres hok
  dsimp only at hres hok
  obtain ⟨rfl,hfit⟩ : ok = true ∧ bytesToSectors length ≤ maxSectors := by
    have := hok.symm
    rwa [Bool.and_eq_true,decide_eq_true_eq] at this
  have hle : length ≤ 8517120 := (bytesToSectors_le_iff h0 hmax).mp hfit
  have hptr : ptr w (e.setLength length) = ptr w e := ptr_info fun k hk => Sector.word_setWord_ne _ _ (by omega)
  have hg := hres.grows
  have hfresh := hres.fresh_iff (fun t ht => inodeWalk_place ht) (inodeWalk_nodup _)
  have hold : ∀ s, Fresh v w s → Free v₀ s := fun s hs => by
    have hn : ¬ Used v₀ s := fun hu => ((h.used_iff s).mpr (.inl hu)).not_free hs.1
    refine ⟨h.bitCnt ▸ hs.1.1,?_⟩
    by_contra hc
    exact hn ⟨h.bitCnt ▸ hs.1.1,Bool.not_eq_false _ ▸ hc⟩
  refine ⟨⟨hg.keeps.ok,hptr ▸ hg.owns h.owns h.ok,h0,hfit,fun t ht => hptr ▸ hres.mapped rfl t ht⟩,
    hg.keeps.bitCnt.trans h.bitCnt,fun i hi => ?_,fun s => ?_,fun t ht hne => ?_⟩
  · exact (hg.keeps.high i (h.bitCnt.symm ▸ hi)).trans (h.high i hi)
  · rw [hptr]
    constructor
    · intro hs
      by_cases hv : Used v s
      · rcases (h.used_iff s).mp hv with hu | ⟨t,ht,rfl⟩
        · exact .inl hu
        · have ht' := inodeWalk_subset (bytesToSectors_mono h.nonneg hl hle) ht
          exact .inr ⟨t,ht',hg.keep t (inodeWalk_place ht) (h.mapped t ht)⟩
      · have hfree : Free v s := not_not.mp fun hn => hv (hs.of_not_free hg.keeps.bitCnt hn)
        obtain ⟨t,ht,-,he⟩ := (hfresh s).mp ⟨hfree,hs⟩
        exact .inr ⟨t,ht,he⟩
    · rintro (hu | ⟨t,ht,rfl⟩)
      · exact hg.used s ((h.used_iff s).mpr (.inl hu))
      · exact (hg.owns h.owns h.ok).used t (inodeWalk_place ht) (hres.mapped rfl t ht)
  · rw [hptr] at hne ⊢
    by_cases hz : ptr v d t = 0
    · exact hold _ (hg.fresh t ht hz hne)
    · rw [hg.keep t ht hz]
      exact h.free t ht hz

theorem Taken.reserveLengths {ls : List ℤ} (h : Taken v₀ v d l) (hinc : ls.Pairwise (· < ·))
    (hl : ∀ x ∈ ls, 0 ≤ x → l ≤ x) (hmax : ∀ x ∈ ls, x < 2147483648) (hr : Fs.reserveLengths ls d v = some (e,w)) :
    ∃ l', Taken v₀ w e l' ∧ (d.length = l ∨ ls ≠ [] → e.length = l') := by
  induction ls generalizing v d l with
  | nil =>
    cases hr
    exact ⟨l,h,fun hc => hc.resolve_right fun hne => hne rfl⟩
  | cons x ls ih =>
    obtain ⟨hx,hinc⟩ := List.pairwise_cons.mp hinc
    have hxmax := hmax x (List.mem_cons_self ..)
    cases hres : inodeReserve (freeMapAllocate 1) d x v with
    | mk ok r =>
      cases ok with
      | false =>
        rw [Fs.reserveLengths,hres] at hr
        cases hr
      | true =>
        rw [Fs.reserveLengths,hres] at hr
        have hx0 : 0 ≤ x := by
          by_contra hneg
          rw [inodeReserve,if_pos (not_le.mp hneg)] at hres
          exact absurd (Prod.mk.inj hres).1 Bool.false_ne_true
        have hnext := h.reserve (hl x (List.mem_cons_self ..) hx0) hxmax hres
        obtain ⟨l',hl',hlen⟩ := ih hnext hinc (fun y hy _ => (hx y hy).le) (fun y hy => hmax y (List.mem_cons_of_mem _ hy)) hr
        exact ⟨l',hl',fun _ => hlen (.inl (InodeDisk.length_setLength r.1 (by omega) hxmax))⟩

/-- `inode_deallocate` clears the bits that were taken. -/
theorem Taken.deallocate (h : Taken v₀ v d l) (hl : d.length = l) : (inodeDeallocate d v).1 = true ∧
    (inodeDeallocate d v).2.freeMap.bitCnt = v₀.freeMap.bitCnt ∧
    ∀ j, (inodeDeallocate d v).2.freeMap.bitmapTest j = v₀.freeMap.bitmapTest j := by
  subst hl
  obtain ⟨hok,hrel⟩ := inodeDeallocate_spec h.nonneg h.fits h.ok h.owns h.mapped
  refine ⟨hok,hrel.keeps.bitCnt.trans h.bitCnt,fun j => ?_⟩
  by_cases hj : j < v₀.freeMap.bitCnt
  · have hb := h.bitCnt
    have hlt := h.ok.bitCnt_lt
    obtain ⟨s,hs⟩ : ∃ s : BlockSector, s.toNat = j := ⟨UInt32.ofNat j,by rw [UInt32.toNat_ofNat']; omega⟩
    subst hs
    rw [hrel.test]
    by_cases hP : s ∈ (inodeWalk (bytesToSectors d.length)).map (ptr v d)
    · obtain ⟨t,ht,rfl⟩ := List.mem_map.mp hP
      rw [(h.free t (inodeWalk_place ht) (h.mapped t ht)).2,decide_eq_true hP,Bool.not_true,Bool.and_false]
    · have hiff : Used v s ↔ Used v₀ s := (h.used_iff s).trans
        ⟨fun hu => hu.resolve_right fun ⟨t,ht,he⟩ => hP (List.mem_map.mpr ⟨t,ht,he⟩),.inl⟩
      rw [decide_eq_false hP,Bool.not_false,Bool.and_true]
      exact Bool.eq_iff_iff.mpr ⟨fun ht => (hiff.mp ⟨hb.symm ▸ hj,ht⟩).2,fun ht => (hiff.mpr ⟨hj,ht⟩).2⟩
  · have hj := Nat.not_lt.mp hj
    exact (hrel.keeps.high j (h.bitCnt.symm ▸ hj)).trans (h.high j hj)

end

/-- Whatever `inode_reserve` took in several steps, `inode_deallocate` gives back: the free map is
bit for bit what it was. -/
theorem reserve_deallocate {v w : Volume} {d e : InodeDisk} {ls : List ℤ} (hv : v.Ok)
    (hd : ∀ k < 125, Sector.word d k = 0) (hne : ls ≠ []) (hinc : ls.Pairwise (· < ·))
    (hmax : ∀ l ∈ ls, l < 2147483648) (h : reserveLengths ls d v = some (e,w)) :
    (inodeDeallocate e w).1 = true ∧ (inodeDeallocate e w).2.freeMap.bitCnt = v.freeMap.bitCnt ∧
      ∀ j, (inodeDeallocate e w).2.freeMap.bitmapTest j = v.freeMap.bitmapTest j := by
  obtain ⟨l,hl,hlen⟩ := (Taken.none hv hd).reserveLengths hinc (fun _ _ h0 => h0) hmax h
  exact hl.deallocate (hlen (.inr hne))

/-- Two steps on a new volume of eight sectors. -/
theorem reserve_deallocate_two_steps : ∃ e w,
    reserveLengths [100,600] (InodeDisk.create 0 false) (freeMapInit (fun _ => Sector.zeros) 8) = some (e,w) ∧
    ∀ j, (inodeDeallocate e w).2.freeMap.bitmapTest j = (freeMapInit (fun _ => Sector.zeros) 8).freeMap.bitmapTest j := by
  have hsome : (reserveLengths [100,600] (InodeDisk.create 0 false) (freeMapInit (fun _ => Sector.zeros) 8)).isSome =
      true := by decide +kernel
  obtain ⟨r,hr⟩ := Option.isSome_iff_exists.mp hsome
  exact ⟨r.1,r.2,hr,(reserve_deallocate (freeMapInit_ok _ (by decide) (by decide))
    (fun k hk => InodeDisk.word_create 0 false hk) (by decide) (by decide) (by decide) hr).2.2⟩

end ShellOS.Fs
