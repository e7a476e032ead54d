import ShellOS.Fs.Cache
import ShellOS.Fs.Stores

/-! The file system above the buffer cache, and the device below it. -/
namespace ShellOS.Fs
open CLib BufferCache

/-- A file system and the cache through which it sees the device. -/
structure Machine where
  fs : System
  cache : BufferCache

/-- Calls of `buffer_cache_read` and `buffer_cache_write`, which change the cache and the sectors as the
file system sees them, and changes in memory. -/
inductive Through (c : BufferCache) (v : Volume) : BufferCache → Volume → Prop
  | refl : Through c v c v
  | read {d : BufferCache} {w : Volume} (h : Through c v d w) (p : BlockSector) : Through c v (BufferCache.bufferCacheRead p d).2 w
  | write {d : BufferCache} {w : Volume} (h : Through c v d w) (p : BlockSector) (data : Sector) :
    Through c v (BufferCache.bufferCacheWrite p data d) (Fs.bufferCacheWrite p data w)
  | memory {d : BufferCache} {w u : Volume} (h : Through c v d w) (hs : u.sectors = w.sectors) (hw : u.writes = w.writes) :
    Through c v d u

/-- `filesys_init` on the device below a cache, which is emptied first. -/
structure Boots (format : Bool) (n : ℕ) (c : BufferCache) (M : Machine) : Prop where
  init : System.filesysInit format c.device n = some M.fs
  through : Through (bufferCacheInit c) (System.start c.device n).vol M.cache M.fs.vol

/-- The sectors that the file system works on are those seen through the cache. -/
structure Sees (c : BufferCache) (v : Volume) : Prop where
  coherent : c.Coherent
  view : c.view = v.sectors

section
variable {c d : BufferCache} {u v w : Volume} {M : Machine} {S : System}

/-- Whatever the file system does can be done through any cache. -/
theorem Stores.through (h : Stores v w) (c : BufferCache) : ∃ d, Through c v d w := by
  induction h with
  | refl => exact ⟨c,.refl⟩
  | write _ p data ih =>
    obtain ⟨d,hd⟩ := ih
    exact ⟨_,hd.write p data⟩
  | memory _ hs hw ih =>
    obtain ⟨d,hd⟩ := ih
    exact ⟨d,hd.memory hs hw⟩

/-- So can every command. -/
theorem Machine.through (M : Machine) (h : (∃ name size ok, M.fs.fsutilCreate name size = some (ok,S)) ∨
    (∃ name buffer size m, M.fs.fsutilWrite name buffer size = some (m,S)) ∨
    (∃ name host m, M.fs.copyIn name host = some (m,S)) ∨ ∃ name ok, M.fs.fsutilRm name = some (ok,S)) :
    ∃ c, Through M.cache M.fs.vol c S.vol := by
  rcases h with ⟨name,size,ok,h⟩ | ⟨name,buffer,size,m,h⟩ | ⟨name,host,m,h⟩ | ⟨name,ok,h⟩
  · exact (fsutilCreate_stores h).through M.cache
  · exact (fsutilWrite_stores h).through M.cache
  · exact (copyIn_stores h).through M.cache
  · exact (fsutilRm_stores h).through M.cache

theorem Through.sees (h : Through c v d w) (hc : Sees c v) : Sees d w := by
  induction h with
  | refl => exact hc
  | read _ p ih =>
    obtain ⟨-,hcoh,hview⟩ := read_spec ih.coherent p
    exact ⟨hcoh,hview.trans ih.view⟩
  | write _ p data ih =>
    obtain ⟨hcoh,hview⟩ := write_spec ih.coherent p data
    refine ⟨hcoh,hview.trans ?_⟩
    rw [ih.view]
    rfl
  | memory _ hs _ ih => exact ⟨ih.coherent,ih.view.trans hs.symm⟩

theorem Boots.sees {format : Bool} {n : ℕ} (h : Boots format n c M) : Sees M.cache M.fs.vol := by
  obtain ⟨hcoh,hview⟩ := init_spec c
  exact h.through.sees ⟨hcoh,hview⟩

/-! ### The device -/

/-- Eviction writes to the device what the cache shows already. -/
theorem evict_device (h : c.Coherent) (p : BlockSector) :
    (bufferCacheEvict c).device p = c.device p ∨ (bufferCacheEvict c).device p = c.view p := by
  obtain ⟨d,hd⟩ := Option.isSome_iff_exists.mp (evictScan_full_isSome c)
  have hs := evictScan_sameData hd
  have hcoh := hs.coherent h
  have hdev : (bufferCacheEvict c).device = c.device ∨ (d.entries d.clock).occupied = true ∧
      (bufferCacheEvict c).device = Function.update c.device (d.entries d.clock).diskSector (d.entries d.clock).buffer := by
    rw [← hs.device]
    simp only [bufferCacheEvict,hd,Option.get_some]
    split_ifs with ho
    · rw [setEntry_device,bufferCacheFlush]
      split_ifs
      · exact .inr ⟨ho,rfl⟩
      · exact .inl rfl
    · exact .inl rfl
  rcases hdev with hdev | ⟨ho,hdev⟩
  · exact .inl (by rw [hdev])
  · by_cases hp : p = (d.entries d.clock).diskSector
    · right
      rw [hdev,hp,Function.update_self,← hs.view_eq,view_of_occupied hcoh ho]
    · left
      rw [hdev,Function.update_of_ne hp]

theorem lookupOrFill_device (h : c.Coherent) (p q : BlockSector) (hq : c.device q = c.view q) :
    (lookupOrFill p c).1.device q = c.view q := by
  unfold lookupOrFill
  cases bufferCacheLookup p c with
  | some i => exact hq
  | none =>
    rcases evict_device h q with he | he
    · exact he.trans hq
    · exact he

theorem Through.writes_le (h : Through c v d w) (q : BlockSector) : v.writes q ≤ w.writes q := by
  induction h with
  | refl => exact le_rfl
  | read _ _ ih => exact ih
  | @write _ w _ p data ih =>
    refine ih.trans ?_
    change _ ≤ Function.update w.writes p (w.writes p + 1) q
    by_cases hq : q = p
    · rw [hq,Function.update_self]
      omega
    · rw [Function.update_of_ne hq]
  | memory _ _ hw ih => rwa [hw]

/-- A sector of which the device is behind the cache was written since the device was last up to date. -/
theorem Through.device (h : Through c v d w) (hc : Sees c v) (hdev : c.device = c.view) (q : BlockSector) :
    d.device q = d.view q ∨ v.writes q < w.writes q := by
  induction h with
  | refl => exact .inl (congrFun hdev q)
  | read h p ih =>
    refine ih.imp_left fun hq => ?_
    have hs := h.sees hc
    rw [(read_spec hs.coherent p).2.2]
    exact lookupOrFill_device hs.coherent p q hq
  | @write _ w h p data ih =>
    have hs := h.sees hc
    by_cases hqp : q = p
    · right
      have hle := h.writes_le q
      change _ < Function.update w.writes p (w.writes p + 1) q
      rw [hqp,Function.update_self]
      rw [hqp] at hle
      omega
    · refine ih.imp (fun hq => ?_) fun hlt => ?_
      · rw [(write_spec hs.coherent p data).2,Function.update_of_ne hqp]
        exact lookupOrFill_device hs.coherent p q hq
      · change _ < Function.update w.writes p (w.writes p + 1) q
        rwa [Function.update_of_ne hqp]
  | memory _ _ hw ih => rwa [hw]

/-- After the cache is closed and nothing more is written, the device has what the file system saw. -/
theorem Through.closed (h : Through (bufferCacheClose c) v d w) (hc : Sees c v) (hw : w.writes = v.writes) :
    d.device = w.sectors := by
  obtain ⟨hcoh,hdev⟩ := close_spec hc.coherent
  have hview : (bufferCacheClose c).view = c.view := (flushAll_spec _ hc.coherent).2.1
  have hclosed : Sees (bufferCacheClose c) v := ⟨hcoh,hview.trans hc.view⟩
  rw [← (h.sees hclosed).view]
  funext q
  exact (h.device hclosed (hdev.trans hview.symm) q).resolve_right (by rw [hw]; exact lt_irrefl _)

end
end ShellOS.Fs
