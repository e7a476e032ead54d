import ShellOS.Fs.Entries

/-! A directory as a finite map from names to inode sectors. -/
namespace ShellOS.Fs
open CLib SlotTable

/-- A table whose first slot stands for the parent directory and whose other slots in use hold
different names of different files. -/
structure DirTable (l : List DirEntry) (files : Set BlockSector) : Prop where
  parent : ∃ e, l[0]? = some e ∧ e.inUse = true ∧ e.cname = []
  names : SlotTable.Distinct DirEntry.inUse DirEntry.cname l
  named : ∀ k e, 1 ≤ k → l[k]? = some e → e.inUse = true → e.cname ≠ []
  file : ∀ k e, 1 ≤ k → l[k]? = some e → e.inUse = true → e.inodeSector ∈ files
  sectors : ∀ j k d e, 1 ≤ j → 1 ≤ k → l[j]? = some d → l[k]? = some e → d.inUse = true → e.inUse = true →
    d.inodeSector = e.inodeSector → j = k

/-- The inode sector found under a name. -/
def entryOf (l : List DirEntry) (name : CString) : Option BlockSector :=
  l[slotOf name l]?.map DirEntry.inodeSector

section
variable {l : List DirEntry} {files : Set BlockSector} {name other : CString} {e : DirEntry} {s : BlockSector} {k : ℕ}

theorem DirTable.length_pos (h : DirTable l files) : 1 ≤ l.length := by
  obtain ⟨e,he,-⟩ := h.parent
  exact (List.getElem?_eq_some_iff.mp he).1

theorem DirTable.slotOf_iff (h : DirTable l files) :
    (slotOf name l = k ∧ l[k]? = some e) ↔ 1 ≤ k ∧ l[k]? = some e ∧ e.inUse = true ∧ e.cname = name :=
  scan_key_iff h.names

theorem DirTable.slotOf_some (h : DirTable l files) :
    l[slotOf name l]? = some e ↔ ∃ k, 1 ≤ k ∧ l[k]? = some e ∧ e.inUse = true ∧ e.cname = name := by
  constructor
  · exact fun he => ⟨_,h.slotOf_iff.mp ⟨rfl,he⟩⟩
  · rintro ⟨k,hk⟩
    obtain ⟨rfl,he⟩ := h.slotOf_iff.mpr hk
    exact he

theorem DirTable.entryOf_some (h : DirTable l files) : entryOf l name = some s ↔
    ∃ k e, 1 ≤ k ∧ l[k]? = some e ∧ e.inUse = true ∧ e.cname = name ∧ e.inodeSector = s := by
  unfold entryOf
  rw [Option.map_eq_some_iff]
  constructor
  · rintro ⟨e,he,rfl⟩
    obtain ⟨k,h1,h2,h3,h4⟩ := h.slotOf_some.mp he
    exact ⟨k,e,h1,h2,h3,h4,rfl⟩
  · rintro ⟨k,e,h1,h2,h3,h4,rfl⟩
    exact ⟨e,h.slotOf_some.mpr ⟨k,h1,h2,h3,h4⟩,rfl⟩

theorem entryOf_none : entryOf l name = none ↔ l[slotOf name l]? = none := Option.map_eq_none_iff

theorem entryOf_isSome : (entryOf l name).isSome ↔ ∃ e, l[slotOf name l]? = some e := by
  rw [entryOf,Option.isSome_map,Option.isSome_iff_exists]

theorem DirTable.entryOf_file (h : DirTable l files) (he : entryOf l name = some s) : s ∈ files := by
  obtain ⟨k,e,h1,h2,h3,-,rfl⟩ := h.entryOf_some.mp he
  exact h.file k e h1 h2 h3

theorem DirTable.entryOf_inj (h : DirTable l files) (he : entryOf l name = some s) (ho : entryOf l other = some s) :
    name = other := by
  obtain ⟨j,d,h1,h2,h3,rfl,h5⟩ := h.entryOf_some.mp he
  obtain ⟨k,e,g1,g2,g3,rfl,g5⟩ := h.entryOf_some.mp ho
  obtain rfl := h.sectors j k d e h1 g1 h2 g2 h3 g3 (h5.trans g5.symm)
  rw [h2] at g2
  rw [Option.some.inj g2]

theorem DirTable.mono {files' : Set BlockSector} (h : DirTable l files) (hf : files ⊆ files') : DirTable l files' :=
  { h with file := fun k e h1 h2 h3 => hf (h.file k e h1 h2 h3) }

/-- The names in use, but for the parent entry. -/
def nameList (l : List DirEntry) : List CString := keys DirEntry.inUse DirEntry.cname l 1

theorem DirTable.mem_names (h : DirTable l files) : name ∈ nameList l ↔ (entryOf l name).isSome := by
  rw [nameList,mem_keys,entryOf_isSome]
  constructor
  · rintro ⟨k,e,hk⟩
    exact ⟨e,h.slotOf_some.mpr ⟨k,hk⟩⟩
  · rintro ⟨e,he⟩
    obtain ⟨k,hk⟩ := h.slotOf_some.mp he
    exact ⟨k,e,hk⟩

theorem DirTable.nodup_names (h : DirTable l files) : (nameList l).Nodup := h.names.nodup_keys 1

/-! ### Adding -/

theorem freeSlot_le (l : List DirEntry) : freeSlot l ≤ l.length := scan_le (Nat.zero_le _)

theorem freeSlot_free (h : l[freeSlot l]? = some e) : e.inUse = false := by
  have := scan_hit h
  simpa using this

theorem DirTable.one_le_freeSlot (h : DirTable l files) : 1 ≤ freeSlot l := by
  obtain ⟨e,he,hu,-⟩ := h.parent
  have : freeSlot l = scan (fun e => !e.inUse) l 1 := scan_of_false he (by simp [hu])
  rw [this]
  exact le_scan

/-- A new name for a file that has none. -/
theorem DirTable.add (h : DirTable l files) (hn : e.cname ≠ []) (hf : e.inodeSector ∈ files)
    (hname : entryOf l e.cname = none) (hs : ∀ name, entryOf l name ≠ some e.inodeSector) :
    DirTable (put l (freeSlot l) e) files := by
  have h1 := h.one_le_freeSlot
  have hget := getElem?_put (freeSlot_le l) e
  have hfresh : ∀ j b, j ≠ freeSlot l → l[j]? = some b → b.inUse = true → b.cname ≠ e.cname := by
    intro j b _ hb hbu hc
    by_cases hj : 1 ≤ j
    · have := h.slotOf_some.mpr ⟨j,hj,hb,hbu,hc⟩
      rw [entryOf_none.mp hname] at this
      exact absurd this (by simp)
    · obtain ⟨p,hp,-,hpn⟩ := h.parent
      rw [show j = 0 by omega,hp] at hb
      rw [← Option.some.inj hb,hpn] at hc
      exact hn hc.symm
  have hold : ∀ j b, 1 ≤ j → l[j]? = some b → b.inUse = true → b.inodeSector ≠ e.inodeSector := fun j b hj hb hbu hc =>
    hs b.cname (h.entryOf_some.mpr ⟨j,b,hj,hb,hbu,rfl,hc⟩)
  refine ⟨?_,h.names.put (freeSlot_le l) hfresh,fun k b hk hb hbu => ?_,fun k b hk hb hbu => ?_,
    fun j k b c hj hk hb hc hbu hcu he => ?_⟩
  · rw [hget,if_neg (by omega)]
    exact h.parent
  · rw [hget] at hb
    split_ifs at hb
    · exact Option.some.inj hb ▸ hn
    · exact h.named k b hk hb hbu
  · rw [hget] at hb
    split_ifs at hb
    · exact Option.some.inj hb ▸ hf
    · exact h.file k b hk hb hbu
  · rw [hget] at hb hc
    split_ifs at hb hc with hjf hkf hkf
    · exact hjf.trans hkf.symm
    · obtain rfl := Option.some.inj hb
      exact absurd he.symm (hold k c hk hc hcu)
    · obtain rfl := Option.some.inj hc
      exact absurd he (hold j b hj hb hbu)
    · exact h.sectors j k b c hj hk hb hc hbu hcu he

theorem DirTable.entryOf_add (h : DirTable l files) (h' : DirTable (put l (freeSlot l) e) files) (hu : e.inUse = true) :
    entryOf (put l (freeSlot l) e) name =
      if name = e.cname then some e.inodeSector else entryOf l name := by
  have hget := getElem?_put (freeSlot_le l) e
  split_ifs with hn
  · subst hn
    exact h'.entryOf_some.mpr ⟨freeSlot l,e,h.one_le_freeSlot,by rw [hget,if_pos rfl],hu,rfl,rfl⟩
  · refine Option.ext fun s => ?_
    rw [h'.entryOf_some,h.entryOf_some]
    constructor
    · rintro ⟨k,b,hk,hb,hbu,hbn,hbs⟩
      rw [hget] at hb
      split_ifs at hb
      · exact absurd (Option.some.inj hb ▸ hbn).symm hn
      · exact ⟨k,b,hk,hb,hbu,hbn,hbs⟩
    · rintro ⟨k,b,hk,hb,hbu,hbn,hbs⟩
      refine ⟨k,b,hk,?_,hbu,hbn,hbs⟩
      rw [hget,if_neg]
      · exact hb
      · rintro rfl
        rw [freeSlot_free hb] at hbu
        exact absurd hbu (by decide)

/-! ### Removing -/

theorem DirTable.remove (h : DirTable l files) (he : l[slotOf name l]? = some e) :
    DirTable (put l (slotOf name l) { e with inUse := false }) (files \ {e.inodeSector}) := by
  have hlt := (List.getElem?_eq_some_iff.mp he).1
  obtain ⟨h1,-,hu,-⟩ := h.slotOf_iff.mp ⟨rfl,he⟩
  have hget := getElem?_put hlt.le { e with inUse := false }
  have hold : ∀ k b, (put l (slotOf name l) { e with inUse := false })[k]? = some b → b.inUse = true →
      k ≠ slotOf name l ∧ l[k]? = some b := by
    intro k b hb hbu
    rw [hget] at hb
    split_ifs at hb with hk
    · rw [← Option.some.inj hb] at hbu
      exact absurd hbu Bool.false_ne_true
    · exact ⟨hk,hb⟩
  refine ⟨?_,h.names.clear hlt.le rfl,fun k b hk hb hbu => h.named k b hk (hold k b hb hbu).2 hbu,
    fun k b hk hb hbu => ?_,fun j k b c hj hk hb hc hbu hcu hs => ?_⟩
  · rw [hget,if_neg (by omega)]
    exact h.parent
  · obtain ⟨hne,hb'⟩ := hold k b hb hbu
    exact ⟨h.file k b hk hb' hbu,fun hs => hne (h.sectors k _ b e hk h1 hb' he hbu hu hs)⟩
  · exact h.sectors j k b c hj hk (hold j b hb hbu).2 (hold k c hc hcu).2 hbu hcu hs

theorem DirTable.entryOf_remove (h : DirTable l files) (he : l[slotOf name l]? = some e) :
    entryOf (put l (slotOf name l) { e with inUse := false }) other =
      if other = name then none else entryOf l other := by
  have hlt := (List.getElem?_eq_some_iff.mp he).1
  obtain ⟨h1,-,hu,hn⟩ := h.slotOf_iff.mp ⟨rfl,he⟩
  have hget := getElem?_put hlt.le { e with inUse := false }
  have h' := h.remove he
  refine Option.ext fun s => ?_
  rw [h'.entryOf_some]
  split_ifs with ho
  · subst ho
    refine iff_of_false ?_ (by simp)
    rintro ⟨k,b,hk,hb,hbu,hbn,-⟩
    rw [hget] at hb
    split_ifs at hb with hks
    · rw [← Option.some.inj hb] at hbu
      exact absurd hbu Bool.false_ne_true
    · exact hks (h.names k _ b e hb he hbu hu (hbn.trans hn.symm))
  · rw [h.entryOf_some]
    constructor
    · rintro ⟨k,b,hk,hb,hbu,hbn,hbs⟩
      rw [hget] at hb
      split_ifs at hb
      · rw [← Option.some.inj hb] at hbu
        exact absurd hbu Bool.false_ne_true
      · exact ⟨k,b,hk,hb,hbu,hbn,hbs⟩
    · rintro ⟨k,b,hk,hb,hbu,hbn,hbs⟩
      refine ⟨k,b,hk,?_,hbu,hbn,hbs⟩
      rw [hget,if_neg]
      · exact hb
      · rintro rfl
        rw [hb] at he
        exact ho (hbn.symm.trans ((congrArg DirEntry.cname (Option.some.inj he)).trans hn))

end
end ShellOS.Fs
