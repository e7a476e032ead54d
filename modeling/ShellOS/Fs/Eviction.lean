import ShellOS.Fs.Cache

/-! The eviction of the buffer cache: which slots get a second chance, and which one is the victim. -/
namespace ShellOS.Fs
namespace BufferCache

/-- The number of places from the clock to a slot, in ring order. -/
def distance (c : BufferCache) (i : Fin bufferCacheSize) : ℕ := (i - c.clock).val

/-- An entry that gets a second chance. -/
def spared (c : BufferCache) (i : Fin bufferCacheSize) : Bool := (c.entries i).occupied && (c.entries i).access

section
variable {c d : BufferCache} {i j : Fin bufferCacheSize} {k m : ℕ}

theorem distance_clock (c : BufferCache) : c.distance c.clock = 0 := by simp [distance]

theorem distance_lt (c : BufferCache) (i : Fin bufferCacheSize) : c.distance i < bufferCacheSize := (i - c.clock).isLt

theorem distance_inj (h : c.distance i = c.distance j) : i = j := by
  have := Fin.ext h
  exact sub_left_injective this

theorem distance_next (c : BufferCache) (i : Fin bufferCacheSize) :
    c.distance (i + 1) = (c.distance i + 1) % bufferCacheSize := by
  rw [distance,distance,add_sub_right_comm,Fin.val_add]
  rfl

@[simp] theorem secondChance_clock (c : BufferCache) : (secondChance c).clock = c.clock + 1 := rfl

@[simp] theorem secondChance_device (c : BufferCache) : (secondChance c).device = c.device := rfl

theorem secondChance_entries (c : BufferCache) (i : Fin bufferCacheSize) :
    (secondChance c).entries i = if i = c.clock then { c.entries i with access := false } else c.entries i := by
  split
  · next h =>
    subst h
    simp [secondChance]
  · next h => simp [secondChance,setEntry_ne c _ h]

/-! ### The clock loop -/

/-- The cache after the loop has passed over `k` slots. -/
structure PassedOver (c d : BufferCache) (k : ℕ) : Prop where
  le : k ≤ bufferCacheSize
  spared : ∀ i, c.distance i < k → c.spared i = true
  clock : k < bufferCacheSize → c.distance d.clock = k
  lap : k = bufferCacheSize → d.clock = c.clock
  entries : ∀ i, d.entries i = if c.distance i < k then { c.entries i with access := false } else c.entries i
  device : d.device = c.device

theorem PassedOver.zero (c : BufferCache) : PassedOver c c 0 := by
  refine ⟨Nat.zero_le _,fun i hi => absurd hi (Nat.not_lt_zero _),fun _ => distance_clock c,fun _ => rfl,fun i => ?_,rfl⟩
  rw [if_neg (Nat.not_lt_zero _)]

/-- The entry that the loop looks at has not been passed over, unless it has been all the way round. -/
theorem PassedOver.clock_entry (h : PassedOver c d k) (hk : k < bufferCacheSize) :
    d.entries d.clock = c.entries d.clock := by
  rw [h.entries,if_neg (by rw [h.clock hk]; exact lt_irrefl k)]

theorem PassedOver.clock_spared (h : PassedOver c d k) : d.spared d.clock = (decide (k < bufferCacheSize) && c.spared d.clock) := by
  by_cases hk : k < bufferCacheSize
  · rw [BufferCache.spared,h.clock_entry hk,decide_eq_true hk,Bool.true_and,BufferCache.spared]
  · have hd := distance_lt c d.clock
    rw [BufferCache.spared,h.entries,if_pos (by omega),decide_eq_false hk,Bool.and_false,Bool.false_and]

/-- One round more. -/
theorem PassedOver.step (h : PassedOver c d k) (hs : d.spared d.clock = true) : PassedOver c (secondChance d) (k+1) := by
  rw [h.clock_spared,Bool.and_eq_true,decide_eq_true_eq] at hs
  obtain ⟨hk,hs⟩ := hs
  have hclock := h.clock hk
  have hnext : ∀ i, c.distance i < k + 1 ↔ c.distance i < k ∨ i = d.clock := by
    intro i
    constructor
    · intro hi
      by_cases hik : c.distance i < k
      · exact .inl hik
      · exact .inr (distance_inj (c := c) (by omega))
    · rintro (hi | rfl)
      · omega
      · omega
  refine ⟨hk,fun i hi => ?_,fun hk1 => ?_,fun hk1 => ?_,fun i => ?_,h.device⟩
  · cases (hnext i).mp hi with
    | inl hi => exact h.spared i hi
    | inr he => rwa [he]
  · rw [secondChance_clock,distance_next,hclock,Nat.mod_eq_of_lt hk1]
  · refine distance_inj (c := c) ?_
    rw [secondChance_clock,distance_next,hclock,hk1,Nat.mod_self,distance_clock]
  · rw [secondChance_entries,h.entries]
    by_cases hi : i = d.clock
    · rw [if_pos hi,if_pos ((hnext i).mpr (.inr hi))]
      split <;> rfl
    · rw [if_neg hi]
      exact if_congr ((hnext i).trans (or_iff_left hi)).symm rfl rfl

/-- The loop from `d` on, once it has passed over `k` slots. -/
theorem PassedOver.scan (h : PassedOver c d k) (hn : bufferCacheSize < k + m) : ∃ e n, evictScan m d = some e ∧
    evictScan (n + 1) d = some e ∧ evictScan n d = none ∧ PassedOver c e (k + n) ∧ e.spared e.clock = false := by
  induction m generalizing d k with
  | zero =>
    have := h.le
    omega
  | succ m ih =>
    cases hs : d.spared d.clock with
    | false =>
      have hstop : ∀ n, evictScan (n + 1) d = some d := fun n => by
        rw [evictScan]
        exact if_neg (by rw [← BufferCache.spared,hs]; exact Bool.false_ne_true)
      exact ⟨d,0,hstop m,hstop 0,rfl,h,hs⟩
    | true =>
      have hgo : ∀ n, evictScan (n + 1) d = evictScan n (secondChance d) := fun n => by
        rw [evictScan]
        exact if_pos hs
      obtain ⟨e,n,he,hlast,hnone,hp,hse⟩ := ih (h.step hs) (by omega)
      refine ⟨e,n+1,(hgo m).trans he,(hgo (n+1)).trans hlast,(hgo n).trans hnone,?_,hse⟩
      rwa [Nat.add_assoc,Nat.add_comm 1 n] at hp

/-! ### The victim -/

/-- What `buffer_cache_evict` does to a cache, with `k` slots passed over. -/
structure Evicts (c d : BufferCache) (k : ℕ) : Prop where
  rounds : evictScan k c = none ∧ (evictScan (k + 1) c).isSome
  spared : ∀ i, c.distance i < k → c.spared i = true
  victim : k < bufferCacheSize → c.distance d.clock = k ∧ c.spared d.clock = false
  lap : k = bufferCacheSize → d.clock = c.clock
  access : ∀ i, (d.entries i).access = if c.distance i < k then false else (c.entries i).access
  unoccupied : (d.entries d.clock).occupied = false
  others : ∀ i, i ≠ d.clock → d.entries i = { c.entries i with access := (d.entries i).access }
  device : d.device = if (c.entries d.clock).occupied && (c.entries d.clock).dirty then
    Function.update c.device (c.entries d.clock).diskSector (c.entries d.clock).buffer else c.device

/-- The victim of the loop is written back if it is occupied and dirty, and is then unoccupied. -/
theorem evict_entry (d : BufferCache) :
    ∃ e, (if (d.entries d.clock).occupied then
        (bufferCacheFlush d.clock d).setEntry (bufferCacheFlush d.clock d).clock
          { (bufferCacheFlush d.clock d).entries (bufferCacheFlush d.clock d).clock with occupied := false } else d) = e ∧
      e.clock = d.clock ∧ (∀ i, (e.entries i).access = (d.entries i).access) ∧ (e.entries d.clock).occupied = false ∧
      (∀ i, i ≠ d.clock → e.entries i = d.entries i) ∧
      e.device = if (d.entries d.clock).occupied && (d.entries d.clock).dirty then
        Function.update d.device (d.entries d.clock).diskSector (d.entries d.clock).buffer else d.device := by
  refine ⟨_,rfl,?_⟩
  cases ho : (d.entries d.clock).occupied with
  | false =>
    rw [if_neg Bool.false_ne_true]
    exact ⟨rfl,fun _ => rfl,ho,fun _ _ => rfl,rfl⟩
  | true =>
    rw [if_pos rfl,bufferCacheFlush]
    cases hd : (d.entries d.clock).dirty with
    | false =>
      rw [if_neg Bool.false_ne_true]
      refine ⟨rfl,fun i => ?_,by rw [setEntry_self],fun i hi => setEntry_ne d _ hi,rfl⟩
      by_cases hi : i = d.clock
      · rw [hi,setEntry_self]
      · rw [setEntry_ne d _ hi]
    | true =>
      rw [if_pos rfl]
      refine ⟨rfl,fun i => ?_,by simp [setEntry],fun i hi => ?_,rfl⟩
      · by_cases hi : i = d.clock
        · rw [hi]
          simp [setEntry]
        · simp [setEntry,hi]
      · simp [setEntry,hi]

/-- `buffer_cache_evict` passes over the spared entries from the clock on, each once, and evicts the
first other one; after a full lap that is the entry at which it began. -/
theorem evict_second_chance (c : BufferCache) : ∃ k ≤ bufferCacheSize, Evicts c (bufferCacheEvict c) k := by
  obtain ⟨d,k,hscan,hlast,hnone,hp,hs⟩ := (PassedOver.zero c).scan (m := bufferCacheSize + 1) (by omega)
  rw [Nat.zero_add] at hp
  obtain ⟨e,he,hclock,hacc,hocc,hother,hdev⟩ := evict_entry d
  have hevict : bufferCacheEvict c = e := by
    rw [← he]
    simp only [bufferCacheEvict,hscan,Option.get_some]
  have hsame : (d.entries d.clock).occupied = (c.entries d.clock).occupied ∧ (d.entries d.clock).dirty = (c.entries d.clock).dirty ∧
      (d.entries d.clock).diskSector = (c.entries d.clock).diskSector ∧ (d.entries d.clock).buffer = (c.entries d.clock).buffer := by
    rw [hp.entries]
    split <;> exact ⟨rfl,rfl,rfl,rfl⟩
  obtain ⟨h1,h2,h3,h4⟩ := hsame
  rw [hevict]
  refine ⟨k,hp.le,⟨hnone,by rw [hlast]; rfl⟩,hp.spared,fun hk => ?_,fun hk => hclock.trans (hp.lap hk),fun i => ?_,?_,
    fun i hi => ?_,?_⟩
  · rw [hclock]
    refine ⟨hp.clock hk,?_⟩
    rw [hp.clock_spared,decide_eq_true hk,Bool.true_and] at hs
    exact hs
  · rw [hacc,hp.entries]
    split <;> rfl
  · rw [hclock]
    exact hocc
  · rw [hclock] at hi
    rw [hacc,hother i hi,hp.entries]
    split <;> rfl
  · rw [hclock,hdev,h1,h2,h3,h4,hp.device]

end
end BufferCache
end ShellOS.Fs
