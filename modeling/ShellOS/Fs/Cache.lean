import ShellOS.Fs.Sector

/-! The write-back buffer cache with second-chance eviction, and its transparency: through
the cache the device is a plain map from sectors to their latest contents. -/
namespace ShellOS.Fs

/-- `BUFFER_CACHE_SIZE`. -/
abbrev bufferCacheSize : ℕ := 64

structure BufferCacheEntry where
  occupied : Bool
  diskSector : BlockSector
  buffer : Sector
  dirty : Bool
  access : Bool

/-- The static array `cache`, the static `clock` of the eviction, and the sectors of
`fs_device` behind them. -/
structure BufferCache where
  entries : Fin bufferCacheSize → BufferCacheEntry
  clock : Fin bufferCacheSize
  device : BlockSector → Sector

namespace BufferCache

def setEntry (c : BufferCache) (i : Fin bufferCacheSize) (e : BufferCacheEntry) : BufferCache :=
  { c with entries := Function.update c.entries i e }

@[simp] theorem setEntry_self (c : BufferCache) (i : Fin bufferCacheSize) (e : BufferCacheEntry) :
    (c.setEntry i e).entries i = e := by simp [setEntry]
theorem setEntry_ne (c : BufferCache) {i j : Fin bufferCacheSize} (e : BufferCacheEntry)
    (h : j ≠ i) : (c.setEntry i e).entries j = c.entries j := by simp [setEntry,h]
@[simp] theorem setEntry_device (c : BufferCache) (i : Fin bufferCacheSize) (e : BufferCacheEntry) :
    (c.setEntry i e).device = c.device := rfl
@[simp] theorem setEntry_clock (c : BufferCache) (i : Fin bufferCacheSize) (e : BufferCacheEntry) :
    (c.setEntry i e).clock = c.clock := rfl

/-- Only `occupied` and `dirty` are reset; the clock keeps its position. -/
def bufferCacheInit (c : BufferCache) : BufferCache :=
  { c with entries := fun i => { c.entries i with occupied := false, dirty := false } }

/-- Flushing of the entry in slot `i`. -/
def bufferCacheFlush (i : Fin bufferCacheSize) (c : BufferCache) : BufferCache :=
  if (c.entries i).dirty then
    { c.setEntry i { c.entries i with dirty := false } with
      device := Function.update c.device (c.entries i).diskSector (c.entries i).buffer }
  else c

def bufferCacheClose (c : BufferCache) : BufferCache :=
  (List.finRange bufferCacheSize).foldl
    (fun c i => if (c.entries i).occupied then bufferCacheFlush i c else c) c

/-- The slot of the first occupied entry for `sector`, if any. -/
def bufferCacheLookup (sector : BlockSector) (c : BufferCache) : Option (Fin bufferCacheSize) :=
  (List.finRange bufferCacheSize).find? fun i =>
    (c.entries i).occupied && (c.entries i).diskSector == sector

/-- The entry under the clock gets a second chance and the clock moves on. -/
def secondChance (c : BufferCache) : BufferCache :=
  { c.setEntry c.clock { c.entries c.clock with access := false } with clock := c.clock + 1 }

/-- The clock loop, at most `n` rounds of it; it stops at an unoccupied entry or at one whose
reference bit is clear, with `clock` on that entry. -/
def evictScan : ℕ → BufferCache → Option BufferCache
  | 0,_ => none
  | n+1,c =>
    if (c.entries c.clock).occupied && (c.entries c.clock).access then
      evictScan n (secondChance c)
    else some c

/-- Entries that would get a second chance. -/
def referenced (c : BufferCache) : Finset (Fin bufferCacheSize) :=
  Finset.univ.filter fun i => (c.entries i).occupied && (c.entries i).access

theorem evictScan_isSome (n : ℕ) (c : BufferCache) (h : (referenced c).card < n) :
    (evictScan n c).isSome := by
  induction n generalizing c with
  | zero => omega
  | succ n ih =>
    simp only [evictScan]
    split
    · rename_i he
      apply ih
      -- the entry under the clock loses its reference bit, the others keep theirs
      have hs : referenced (secondChance c) ⊆ (referenced c).erase c.clock := by
        intro j hj
        by_cases hjc : j = c.clock
        · subst hjc; simp [referenced,secondChance,setEntry] at hj
        · simpa [referenced,secondChance,setEntry,hjc] using hj
      have hm : c.clock ∈ referenced c := by simpa [referenced] using he
      have hc := Finset.card_le_card hs
      have := Finset.card_erase_lt_of_mem hm
      omega
    · rfl

theorem evictScan_full_isSome (c : BufferCache) : (evictScan (bufferCacheSize + 1) c).isSome := by
  apply evictScan_isSome
  have := Finset.card_le_univ (referenced c)
  simp only [Fintype.card_fin] at this
  omega

/-- `buffer_cache_evict`: the slot returned is the one under the clock. -/
def bufferCacheEvict (c : BufferCache) : BufferCache :=
  let c := (evictScan (bufferCacheSize + 1) c).get (evictScan_full_isSome c)
  if (c.entries c.clock).occupied then
    let c := bufferCacheFlush c.clock c
    c.setEntry c.clock { c.entries c.clock with occupied := false }
  else c

/-- The miss branch shared by reading and writing: evict, then load the sector. -/
def fill (sector : BlockSector) (c : BufferCache) : BufferCache × Fin bufferCacheSize :=
  let c := bufferCacheEvict c
  (c.setEntry c.clock { c.entries c.clock with
    occupied := true, diskSector := sector, dirty := false, buffer := c.device sector }, c.clock)

/-- The slot holding `sector`, loading it if necessary. -/
def lookupOrFill (sector : BlockSector) (c : BufferCache) : BufferCache × Fin bufferCacheSize :=
  match bufferCacheLookup sector c with
  | some i => (c,i)
  | none => fill sector c

def bufferCacheRead (sector : BlockSector) (c : BufferCache) : Sector × BufferCache :=
  let (c,i) := lookupOrFill sector c
  ((c.entries i).buffer, c.setEntry i { c.entries i with access := true })

def bufferCacheWrite (sector : BlockSector) (source : Sector) (c : BufferCache) : BufferCache :=
  let (c,i) := lookupOrFill sector c
  c.setEntry i { c.entries i with access := true, dirty := true, buffer := source }

/-- Each sector is cached at most once, and a clean copy equals the disk. -/
structure Coherent (c : BufferCache) : Prop where
  distinct : ∀ i j, (c.entries i).occupied → (c.entries j).occupied →
    (c.entries i).diskSector = (c.entries j).diskSector → i = j
  clean : ∀ i, (c.entries i).occupied → (c.entries i).dirty = false →
    c.device (c.entries i).diskSector = (c.entries i).buffer

/-- What the file system sees: the cached copy where there is one, else the disk. -/
def view (c : BufferCache) (sector : BlockSector) : Sector :=
  match bufferCacheLookup sector c with
  | some i => (c.entries i).buffer
  | none => c.device sector

theorem lookup_some {c : BufferCache} {sector : BlockSector} {i : Fin bufferCacheSize}
    (h : bufferCacheLookup sector c = some i) :
    (c.entries i).occupied ∧ (c.entries i).diskSector = sector := by
  simpa using List.find?_some h

theorem lookup_none {c : BufferCache} {sector : BlockSector}
    (h : bufferCacheLookup sector c = none) (i : Fin bufferCacheSize)
    (hi : (c.entries i).occupied) : (c.entries i).diskSector ≠ sector := by
  have := List.find?_eq_none.mp h i (List.mem_finRange i)
  simpa [hi] using this

/-- The view at a sector known to be cached in slot `i`. -/
theorem view_of_occupied {c : BufferCache} (h : c.Coherent) {i : Fin bufferCacheSize}
    (hi : (c.entries i).occupied) : c.view (c.entries i).diskSector = (c.entries i).buffer := by
  unfold view
  cases hl : bufferCacheLookup (c.entries i).diskSector c with
  | none => exact absurd rfl (lookup_none hl i hi)
  | some j =>
    obtain ⟨hj,hs⟩ := lookup_some hl
    rw [h.distinct j i hj hi hs]

theorem view_of_uncached {c : BufferCache} {sector : BlockSector}
    (h : ∀ i, (c.entries i).occupied → (c.entries i).diskSector ≠ sector) :
    c.view sector = c.device sector := by
  unfold view
  cases hl : bufferCacheLookup sector c with
  | none => rfl
  | some j => exact absurd (lookup_some hl).2 (h j (lookup_some hl).1)

/-- Two states that differ in reference bits and clock only. -/
structure SameData (c d : BufferCache) : Prop where
  occupied : ∀ i, (d.entries i).occupied = (c.entries i).occupied
  diskSector : ∀ i, (d.entries i).diskSector = (c.entries i).diskSector
  buffer : ∀ i, (d.entries i).buffer = (c.entries i).buffer
  dirty : ∀ i, (d.entries i).dirty = (c.entries i).dirty
  device : d.device = c.device

theorem SameData.coherent {c d : BufferCache} (h : SameData c d) (hc : c.Coherent) : d.Coherent where
  distinct i j hi hj hs := by
    rw [h.occupied] at hi hj
    rw [h.diskSector,h.diskSector] at hs
    exact hc.distinct i j hi hj hs
  clean i hi hd := by
    rw [h.occupied] at hi
    rw [h.dirty] at hd
    rw [h.device,h.diskSector,h.buffer]
    exact hc.clean i hi hd

theorem SameData.view_eq {c d : BufferCache} (h : SameData c d) : d.view = c.view := by
  funext s
  have hl : bufferCacheLookup s d = bufferCacheLookup s c := by
    simp only [bufferCacheLookup,h.occupied,h.diskSector]
  simp only [view,hl,h.buffer,h.device]

theorem secondChance_sameData (c : BufferCache) : SameData c (secondChance c) := by
  constructor
  case device => rfl
  all_goals
    intro i
    by_cases hi : i = c.clock
    · subst hi; simp [secondChance,setEntry]
    · simp [secondChance,setEntry,hi]

theorem setAccess_sameData (c : BufferCache) (i : Fin bufferCacheSize) :
    SameData c (c.setEntry i { c.entries i with access := true }) := by
  constructor
  case device => rfl
  all_goals
    intro j
    by_cases hj : j = i
    · subst hj; simp
    · simp [setEntry_ne c _ hj]

theorem SameData.trans {c d e : BufferCache} (h : SameData c d) (g : SameData d e) : SameData c e where
  occupied i := (g.occupied i).trans (h.occupied i)
  diskSector i := (g.diskSector i).trans (h.diskSector i)
  buffer i := (g.buffer i).trans (h.buffer i)
  dirty i := (g.dirty i).trans (h.dirty i)
  device := g.device.trans h.device

theorem evictScan_sameData {n : ℕ} {c d : BufferCache} (h : evictScan n c = some d) :
    SameData c d := by
  induction n generalizing c with
  | zero => simp [evictScan] at h
  | succ n ih =>
    simp only [evictScan] at h
    split at h
    · exact (secondChance_sameData c).trans (ih h)
    · cases h; exact ⟨fun _ => rfl,fun _ => rfl,fun _ => rfl,fun _ => rfl,rfl⟩

/-- Flushing writes the entry's own data to its own sector, so nothing visible changes. -/
theorem flush_spec {c : BufferCache} (h : c.Coherent) (i : Fin bufferCacheSize)
    (hi : (c.entries i).occupied) :
    (bufferCacheFlush i c).Coherent ∧ (bufferCacheFlush i c).view = c.view ∧
      (bufferCacheFlush i c).clock = c.clock ∧
      (bufferCacheFlush i c).entries i = { c.entries i with dirty := false } ∧
      (∀ j ≠ i, (bufferCacheFlush i c).entries j = c.entries j) := by
  unfold bufferCacheFlush
  split
  · rename_i hd
    have hne : ∀ j ≠ i, (c.entries j).occupied →
        (c.entries j).diskSector ≠ (c.entries i).diskSector :=
      fun j hj ho hs => hj (h.distinct j i ho hi hs)
    refine ⟨⟨?_,?_⟩,?_,rfl,by simp [setEntry],fun j hj => by simp [setEntry,hj]⟩
    · intro j k hj hk hs
      apply h.distinct j k
      · by_cases hji : j = i <;> simp_all [setEntry]
      · by_cases hki : k = i <;> simp_all [setEntry]
      · by_cases hji : j = i <;> by_cases hki : k = i <;> simp_all [setEntry]
    · intro j hj hdj
      by_cases hji : j = i
      · subst hji; simp [setEntry]
      · simp only [setEntry,Function.update_of_ne hji] at hj hdj ⊢
        rw [Function.update_of_ne (hne j hji hj)]
        exact h.clean j hj hdj
    · funext s
      have hl : bufferCacheLookup s { c.setEntry i { c.entries i with dirty := false } with
          device := Function.update c.device (c.entries i).diskSector (c.entries i).buffer } =
          bufferCacheLookup s c := by
        apply congrArg (fun p => List.find? p _)
        funext j
        by_cases hji : j = i <;> simp_all [setEntry]
      simp only [view,hl]
      cases hs : bufferCacheLookup s c with
      | none =>
        have := lookup_none hs i hi
        simp [Function.update_of_ne this.symm]
      | some j => by_cases hji : j = i <;> simp_all [setEntry]
  · rename_i hd
    refine ⟨h,rfl,rfl,?_,fun _ _ => rfl⟩
    simp only [Bool.not_eq_true] at hd
    rw [← hd]

/-- Dropping an entry that is clean loses nothing. -/
theorem unoccupy_spec {c : BufferCache} (h : c.Coherent) (i : Fin bufferCacheSize)
    (hi : (c.entries i).occupied) (hd : (c.entries i).dirty = false) :
    (c.setEntry i { c.entries i with occupied := false }).Coherent ∧
      (c.setEntry i { c.entries i with occupied := false }).view = c.view := by
  have hother : ∀ j ≠ i, (c.setEntry i { c.entries i with occupied := false }).entries j =
      c.entries j := fun j hj => setEntry_ne c _ hj
  have hocc : ∀ j, ((c.setEntry i { c.entries i with occupied := false }).entries j).occupied →
      j ≠ i := by rintro j ho rfl; simp at ho
  have hc : (c.setEntry i { c.entries i with occupied := false }).Coherent := by
    constructor
    · intro j k hj hk hs
      have hji := hocc j hj
      have hki := hocc k hk
      rw [hother j hji] at hj hs
      rw [hother k hki] at hk hs
      exact h.distinct j k hj hk hs
    · intro j hj hdj
      have hji := hocc j hj
      rw [hother j hji] at hj hdj ⊢
      exact h.clean j hj hdj
  refine ⟨hc,?_⟩
  funext s
  by_cases hs : ∃ j, (c.entries j).occupied ∧ (c.entries j).diskSector = s
  · obtain ⟨j,hj,rfl⟩ := hs
    by_cases hji : j = i
    · subst hji
      -- the copy just dropped was clean, so the disk shows the same data
      rw [view_of_occupied h hi,view_of_uncached,setEntry_device,h.clean j hi hd]
      intro k hk
      have hkj := hocc k hk
      rw [hother k hkj] at hk ⊢
      exact fun he => hkj (h.distinct k j hk hi he)
    · rw [view_of_occupied h hj,← hother j hji,view_of_occupied hc]
      rwa [hother j hji]
  · push Not at hs
    rw [view_of_uncached hs,view_of_uncached,setEntry_device]
    intro k hk
    have hki := hocc k hk
    rw [hother k hki] at hk ⊢
    exact hs k hk

theorem evict_spec {c : BufferCache} (h : c.Coherent) :
    (bufferCacheEvict c).Coherent ∧ (bufferCacheEvict c).view = c.view ∧
      ((bufferCacheEvict c).entries (bufferCacheEvict c).clock).occupied = false := by
  obtain ⟨d,hd⟩ := Option.isSome_iff_exists.mp (evictScan_full_isSome c)
  have hs := evictScan_sameData hd
  have hdc := hs.coherent h
  have he : bufferCacheEvict c = if (d.entries d.clock).occupied then
      (bufferCacheFlush d.clock d).setEntry (bufferCacheFlush d.clock d).clock
        { (bufferCacheFlush d.clock d).entries (bufferCacheFlush d.clock d).clock with
          occupied := false } else d := by
    simp only [bufferCacheEvict,hd,Option.get_some]
  rw [he]
  split
  · rename_i ho
    obtain ⟨hf,hv,hk,hi,-⟩ := flush_spec hdc d.clock ho
    rw [hk]
    obtain ⟨hu,huv⟩ := unoccupy_spec hf d.clock (by rw [hi]; exact ho) (by rw [hi])
    refine ⟨hu,?_,?_⟩
    · rw [huv,hv,hs.view_eq]
    · simp [hk]
  · rename_i ho
    exact ⟨hdc,hs.view_eq,by simpa using ho⟩

/-- Loading a sector that is not cached into an unoccupied slot. -/
theorem load_spec {c : BufferCache} (h : c.Coherent) {sector : BlockSector} (i : Fin bufferCacheSize)
    (hi : (c.entries i).occupied = false)
    (hs : ∀ j, (c.entries j).occupied → (c.entries j).diskSector ≠ sector) (e : BufferCacheEntry)
    (ho : e.occupied) (hsec : e.diskSector = sector) (hbuf : e.buffer = c.device sector) :
    (c.setEntry i e).Coherent ∧ (c.setEntry i e).view = c.view := by
  have hc : (c.setEntry i e).Coherent := by
    constructor
    · intro j k hj hk hjk
      by_cases hji : j = i <;> by_cases hki : k = i
      · rw [hji,hki]
      · subst hji
        rw [setEntry_ne c e hki] at hk hjk
        rw [setEntry_self,hsec] at hjk
        exact absurd hjk.symm (hs k hk)
      · subst hki
        rw [setEntry_ne c e hji] at hj hjk
        rw [setEntry_self,hsec] at hjk
        exact absurd hjk (hs j hj)
      · rw [setEntry_ne c e hji] at hj hjk
        rw [setEntry_ne c e hki] at hk hjk
        exact h.distinct j k hj hk hjk
    · intro j hj hdj
      by_cases hji : j = i
      · subst hji; simp [hsec,hbuf]
      · rw [setEntry_ne c e hji] at hj hdj ⊢
        exact h.clean j hj hdj
  refine ⟨hc,?_⟩
  funext s
  by_cases hcached : ∃ j, (c.entries j).occupied ∧ (c.entries j).diskSector = s
  · obtain ⟨j,hj,rfl⟩ := hcached
    have hji : j ≠ i := by rintro rfl; simp [hi] at hj
    have he := setEntry_ne c e hji
    rw [view_of_occupied h hj,← he,view_of_occupied hc]
    rwa [he]
  · push Not at hcached
    rw [view_of_uncached hcached]
    by_cases hss : s = sector
    · subst hss
      have := view_of_occupied hc (i := i) (by simpa using ho)
      simpa [hsec,hbuf] using this
    · apply view_of_uncached
      intro j hj
      by_cases hji : j = i
      · subst hji; simpa [hsec] using fun h => hss h.symm
      · rw [setEntry_ne c e hji] at hj ⊢
        exact hcached j hj

theorem lookupOrFill_spec {c : BufferCache} (h : c.Coherent) (sector : BlockSector) :
    (lookupOrFill sector c).1.Coherent ∧ (lookupOrFill sector c).1.view = c.view ∧
      ((lookupOrFill sector c).1.entries (lookupOrFill sector c).2).occupied ∧
      ((lookupOrFill sector c).1.entries (lookupOrFill sector c).2).diskSector = sector := by
  unfold lookupOrFill
  cases hl : bufferCacheLookup sector c with
  | some i =>
    obtain ⟨hi,hs⟩ := lookup_some hl
    exact ⟨h,rfl,hi,hs⟩
  | none =>
    obtain ⟨hc,hv,ho⟩ := evict_spec h
    have hun := lookup_none hl
    -- eviction caches nothing new, so the sector is still not cached
    have hun' : ∀ j, ((bufferCacheEvict c).entries j).occupied →
        ((bufferCacheEvict c).entries j).diskSector ≠ sector := by
      intro j hj
      obtain ⟨d,hd⟩ := Option.isSome_iff_exists.mp (evictScan_full_isSome c)
      have hs := evictScan_sameData hd
      have key : ((bufferCacheEvict c).entries j).occupied → (c.entries j).occupied ∧
          ((bufferCacheEvict c).entries j).diskSector = (c.entries j).diskSector := by
        simp only [bufferCacheEvict,hd,Option.get_some,bufferCacheFlush]
        rw [← hs.occupied j,← hs.diskSector j]
        by_cases hj : j = d.clock
        · split_ifs <;> simp_all [setEntry]
        · split_ifs <;> simp_all [setEntry]
      rw [(key hj).2]
      exact hun j (key hj).1
    obtain ⟨hf,hfv⟩ := load_spec hc (bufferCacheEvict c).clock ho hun'
      { (bufferCacheEvict c).entries (bufferCacheEvict c).clock with
        occupied := true, diskSector := sector, dirty := false,
        buffer := (bufferCacheEvict c).device sector } rfl rfl rfl
    exact ⟨hf,hfv.trans hv,by simp [fill],by simp [fill]⟩

/-- A read returns what the view shows and leaves the view as it was. -/
theorem read_spec {c : BufferCache} (h : c.Coherent) (sector : BlockSector) :
    (bufferCacheRead sector c).1 = c.view sector ∧ (bufferCacheRead sector c).2.Coherent ∧
      (bufferCacheRead sector c).2.view = c.view := by
  obtain ⟨hc,hv,ho,hs⟩ := lookupOrFill_spec h sector
  have hd := setAccess_sameData (lookupOrFill sector c).1 (lookupOrFill sector c).2
  refine ⟨?_,hd.coherent hc,hd.view_eq.trans hv⟩
  rw [← hv]
  have := view_of_occupied hc ho
  rw [hs] at this
  exact this.symm

/-- Overwriting a cached copy, now dirty, changes the view at its sector only. -/
theorem store_spec {d : BufferCache} (hc : d.Coherent) (i : Fin bufferCacheSize)
    (ho : (d.entries i).occupied) (e : BufferCacheEntry) (heo : e.occupied)
    (hes : e.diskSector = (d.entries i).diskSector) (hed : e.dirty) :
    (d.setEntry i e).Coherent ∧
      (d.setEntry i e).view = Function.update d.view (d.entries i).diskSector e.buffer := by
  have hw : (d.setEntry i e).Coherent := by
    constructor
    · intro j k hj hk hjk
      apply hc.distinct j k
      · by_cases hji : j = i <;> simp_all [setEntry]
      · by_cases hki : k = i <;> simp_all [setEntry]
      · by_cases hji : j = i <;> by_cases hki : k = i <;> simp_all [setEntry]
    · intro j hj hdj
      by_cases hji : j = i
      · subst hji; simp [hed] at hdj
      · rw [setEntry_ne d e hji] at hj hdj ⊢
        exact hc.clean j hj hdj
  refine ⟨hw,?_⟩
  funext s
  by_cases hss : s = (d.entries i).diskSector
  · subst hss
    have := view_of_occupied hw (i := i) (by simpa using heo)
    simpa [hes] using this
  · rw [Function.update_of_ne hss]
    have hl : bufferCacheLookup s (d.setEntry i e) = bufferCacheLookup s d := by
      apply congrArg (fun p => List.find? p _)
      funext j
      by_cases hji : j = i <;> simp_all [setEntry]
    simp only [view,hl]
    cases hls : bufferCacheLookup s d with
    | none => rfl
    | some j =>
      have hji : j ≠ i := by
        rintro rfl
        exact hss (lookup_some hls).2.symm
      simp [setEntry_ne d e hji]

/-- A write changes the view at its sector only. -/
theorem write_spec {c : BufferCache} (h : c.Coherent) (sector : BlockSector) (source : Sector) :
    (bufferCacheWrite sector source c).Coherent ∧
      (bufferCacheWrite sector source c).view = Function.update c.view sector source := by
  obtain ⟨hc,hv,ho,hs⟩ := lookupOrFill_spec h sector
  have hw := store_spec hc _ ho { (lookupOrFill sector c).1.entries (lookupOrFill sector c).2 with
    access := true, dirty := true, buffer := source } ho rfl rfl
  rw [hs,hv] at hw
  exact hw

theorem init_spec (c : BufferCache) :
    (bufferCacheInit c).Coherent ∧ (bufferCacheInit c).view = c.device := by
  refine ⟨⟨by simp [bufferCacheInit],by simp [bufferCacheInit]⟩,?_⟩
  funext s
  exact view_of_uncached (by simp [bufferCacheInit])

/-- Closing flushes the slots one after the other; those already passed stay clean. -/
theorem flushAll_spec (slots : List (Fin bufferCacheSize)) {c : BufferCache} (h : c.Coherent) :
    let d := slots.foldl
      (fun c i => if (c.entries i).occupied then bufferCacheFlush i c else c) c
    d.Coherent ∧ d.view = c.view ∧
      (∀ i, (d.entries i).occupied = (c.entries i).occupied) ∧
      (∀ i, (d.entries i).dirty → (c.entries i).dirty) ∧
      ∀ i ∈ slots, (d.entries i).occupied → (d.entries i).dirty = false := by
  induction slots generalizing c with
  | nil => exact ⟨h,rfl,fun _ => rfl,fun _ => id,by simp⟩
  | cons i slots ih =>
    simp only [List.foldl_cons]
    split
    · rename_i hi
      obtain ⟨hf,hfv,-,hfi,hfj⟩ := flush_spec h i hi
      obtain ⟨hd,hdv,hdo,hdd,hds⟩ := ih hf
      have hall : ∀ j, ((bufferCacheFlush i c).entries j).occupied = (c.entries j).occupied ∧
          (((bufferCacheFlush i c).entries j).dirty → (c.entries j).dirty) := by
        intro j
        by_cases hj : j = i
        · subst hj; rw [hfi]; simp
        · rw [hfj j hj]; exact ⟨rfl,id⟩
      refine ⟨hd,hdv.trans hfv,fun j => (hdo j).trans (hall j).1,fun j hj => (hall j).2 (hdd j hj),?_⟩
      intro j hj hoj
      rcases List.mem_cons.mp hj with rfl | hj
      · by_contra hdj
        have := hdd j (by simpa using hdj)
        simp [hfi] at this
      · exact hds j hj hoj
    · rename_i hi
      obtain ⟨hd,hdv,hdo,hdd,hds⟩ := ih h
      refine ⟨hd,hdv,hdo,hdd,?_⟩
      intro j hj hoj
      rcases List.mem_cons.mp hj with rfl | hj
      · rw [hdo] at hoj
        exact absurd hoj hi
      · exact hds j hj hoj

/-- After closing, the disk alone shows what the cache showed before. -/
theorem close_spec {c : BufferCache} (h : c.Coherent) :
    (bufferCacheClose c).Coherent ∧ (bufferCacheClose c).device = c.view := by
  obtain ⟨hd,hv,-,-,hs⟩ := flushAll_spec (List.finRange bufferCacheSize) h
  unfold bufferCacheClose
  generalize List.foldl _ c (List.finRange bufferCacheSize) = d at hd hv hs ⊢
  refine ⟨hd,?_⟩
  rw [← hv]
  funext s
  by_cases hc : ∃ i, (d.entries i).occupied ∧ (d.entries i).diskSector = s
  · obtain ⟨i,hi,rfl⟩ := hc
    exact (hd.clean i hi (hs i (List.mem_finRange i) hi)).trans (view_of_occupied hd hi).symm
  · push Not at hc
    exact (view_of_uncached hc).symm

/-- A call made on the cache. -/
inductive Call
  | read (sector : BlockSector)
  | write (sector : BlockSector) (source : Sector)

def step (c : BufferCache) : Call → BufferCache
  | .read s => (bufferCacheRead s c).2
  | .write s d => bufferCacheWrite s d c

def run (c : BufferCache) (calls : List Call) : BufferCache := calls.foldl step c

/-- The data last written to each sector, over the initial disk. -/
def latest (disk : BlockSector → Sector) (calls : List Call) : BlockSector → Sector :=
  calls.foldl (fun m call => match call with
    | .read _ => m
    | .write s d => Function.update m s d) disk

theorem run_spec (calls : List Call) {c : BufferCache} (h : c.Coherent) :
    (run c calls).Coherent ∧ (run c calls).view = latest c.view calls := by
  induction calls generalizing c with
  | nil => exact ⟨h,rfl⟩
  | cons call calls ih =>
    have hstep : (step c call).Coherent ∧ (step c call).view = latest c.view [call] := by
      cases call with
      | read s => exact (read_spec h s).2
      | write s d => exact write_spec h s d
    obtain ⟨hc,hv⟩ := ih hstep.1
    refine ⟨hc,?_⟩
    rw [show run c (call :: calls) = run (step c call) calls from rfl,hv,hstep.2]
    rfl

/-- The buffer cache is transparent: after any calls on a freshly initialised cache, a read
returns the latest data written to its sector, or the initial contents of the disk; closing
brings the disk itself to that state; and the cache is coherent throughout. -/
theorem cache_transparent (c : BufferCache) (calls : List Call) :
    let d := run (bufferCacheInit c) calls
    (∀ s, (bufferCacheRead s d).1 = latest c.device calls s) ∧
      (∀ s, (bufferCacheClose d).device s = latest c.device calls s) ∧ d.Coherent := by
  obtain ⟨hi,hiv⟩ := init_spec c
  obtain ⟨hc,hv⟩ := run_spec calls hi
  rw [hiv] at hv
  refine ⟨fun s => ?_,fun s => ?_,hc⟩
  · rw [(read_spec hc s).1,hv]
  · rw [(close_spec hc).2,hv]

end BufferCache
end ShellOS.Fs
