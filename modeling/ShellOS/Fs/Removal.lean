import ShellOS.Fs.Listing

/-! Removing a file by name. -/
namespace ShellOS.Fs
open CLib SlotTable BlockTree

/-- Removing a name gives the sectors of its file back, and takes no place from the directory. -/
structure GivesBack (S S' : System) (name : CString) : Prop where
  length_le : (S.entries rootDirSector).length ≤ (S'.entries rootDirSector).length
  free : ∀ b, S.fileOf name = some b → numFreeSectors S'.vol = numFreeSectors S.vol + fileSectors b.length

section
variable {S S' : System} {live : Set BlockSector} {root : Option Dir} {d : Dir} {name other : CString}

/-- `dir_open_path` without a component, with no current directory. -/
theorem Session.dirOpenPath_nil (h : Session S live none) : ∃ d S', S.dirOpenPath [] = some (some d.addr,S') ∧
    Session S' live (some d) ∧ Reopened none d ∧ Idle S S' := by
  obtain ⟨d,S',hopen,hS,hre,hidle,-⟩ := h.dirOpenRoot
  obtain ⟨i,hi,ha,-⟩ := hS.opened d rfl
  refine ⟨d,S',?_,hS,hre,hidle⟩
  have hcwd : S.cwd = none := h.cwd
  rw [System.dirOpenPath,if_neg (by decide),hcwd]
  dsimp only
  rw [hopen,Option.bind_some]
  have hwalk : System.dirWalk (pathTokens []) d.addr S' = some (some d.addr,S') := rfl
  rw [hwalk,Option.bind_some]
  dsimp only
  rw [hS.dirAt,Option.bind_some,ha,hS.intact.inodeAt_eq hi,Option.bind_some,hS.kept i hi]
  rfl

/-- `dir_remove` in the root directory, of a name that is not in the file table. -/
theorem Session.dirRemove (h : Session S live (some d)) (hfile : S.getFileByFname name = none) :
    ∃ ok live' S', S.dirRemove d.addr name = some (ok,S') ∧ Session S' live' (some d) ∧ S'.fileTable = S.fileTable ∧
      (∀ other, S'.fileOf other = if other = name then none else S.fileOf other) ∧ MapKept S.vol S'.vol ∧
      ok = (S.fileOf name).isSome ∧ GivesBack S S' name := by
  obtain ⟨r,hr,hrs⟩ := h.openDir
  have hlen : 1 ≤ (S.entries r.sector).length := hrs ▸ h.table.length_pos
  cases he : (S.entries rootDirSector)[slotOf name (S.entries rootDirSector)]? with
  | none =>
    have hno : S.fileOf name = none := by rw [System.fileOf,entryOf_none.mpr he,Option.map_none]
    rw [← hrs] at he
    refine ⟨false,live,S,h.intact.dirRemove_absent hr hlen he,h,rfl,fun other => ?_,MapKept.refl _,by rw [hno]; rfl,le_rfl,
      fun b hb => absurd (hno.symm.trans hb) (Option.some_ne_none b).symm⟩
    split
    · next hc => rw [hc,hno]
    · rfl
  | some e =>
    have hent : entryOf (S.entries rootDirSector) name = some e.inodeSector := by rw [entryOf,he,Option.map_some]
    obtain ⟨hlive,h1⟩ := h.table.entryOf_file hent
    have htable := h.table.remove he
    have hof : ∀ other, entryOf (put (S.entries rootDirSector) (slotOf name (S.entries rootDirSector)) { e with inUse := false }) other =
        if other = name then none else entryOf (S.entries rootDirSector) other := fun other => h.table.entryOf_remove he
    rw [← hrs] at he
    obtain ⟨r',S',hrm,hstep,hput,-,hmap,hcount⟩ := h.intact.dirRemove_file hr hlen he hlive (hrs.symm ▸ h1) (h.plain _ hlive h1)
    have hframe := hstep.frame
    rw [hrs] at hput hframe
    rw [← hput] at htable hof
    have hother : ∀ p ∈ live, p ≠ e.inodeSector → p ≠ rootDirSector → p ∈ (live \ {e.inodeSector}) \ {rootDirSector} :=
      fun p hp he h1 => ⟨⟨hp,he⟩,h1⟩
    have hcat : Catalog S' (live \ {e.inodeSector}) := by
      refine ⟨hstep.intact,⟨h.root_mem,Ne.symm h1⟩,htable.mono fun p hp => hother p hp.1.1 hp.2 hp.1.2,fun other t ht => ?_,
        fun p hp hp1 => ?_⟩
      · rw [hof] at ht
        split at ht
        · cases ht
        · exact h.ordinary other t ht
      · rw [hframe.record p ⟨hp,hp1⟩]
        exact h.plain p hp.1 hp1
    refine ⟨true,live \ {e.inodeSector},S',hrm,h.replaced hcat (hrs.symm ▸ hframe) hr.mem hstep.dir.mem hstep.inode_eq
      fun g hg t ht => ?_,hframe.fileTable,fun other => ?_,hmap,?_,?_,fun b hb => ?_⟩
    · -- the names in the file table are others
      have hne : g.fname ≠ name := System.getFileByFname_none hfile g hg
      refine ⟨by rw [hof,if_neg hne,ht],(h.table.entryOf_file ht).1,fun hc => hne ?_⟩
      exact h.table.entryOf_inj ht ((Set.mem_singleton_iff.mp hc).symm ▸ hent)
    · rw [System.fileOf,hof,System.fileOf]
      split
      · rw [Option.map_none]
      · next hne =>
        cases ht : entryOf (S.entries rootDirSector) other with
        | none => rw [Option.map_none,Option.map_none]
        | some t =>
          obtain ⟨htl,ht1⟩ := h.table.entryOf_file ht
          have hte : t ≠ e.inodeSector := fun hc => hne (h.table.entryOf_inj ht (hc ▸ hent))
          rw [Option.map_some,Option.map_some,hframe.bytes t (hother t htl hte ht1)]
    · rw [System.fileOf,hent]
      rfl
    · rw [hput]
      exact length_le_put _ _ _
    · rw [System.fileOf,hent,Option.map_some] at hb
      rw [← Option.some.inj hb]
      exact hcount

/-- `filesys_remove` of a file that is not in the file table. -/
theorem Session.filesysRemove (h : Session S live none) (hn : (47 : UInt8) ∉ name) (hfile : S.getFileByFname name = none) :
    ∃ ok live' S', S.filesysRemove name = some (ok,S') ∧ Session S' live' none ∧ S'.fileTable = S.fileTable ∧
      (∀ other, S'.fileOf other = if other = name then none else S.fileOf other) ∧ MapKept S.vol S'.vol ∧
      ok = (S.fileOf name).isSome ∧ GivesBack S S' name := by
  obtain ⟨d,S₁,hopen,h₁,hre,hidle₁⟩ := h.dirOpenPath_nil
  obtain ⟨ok,live',S₂,hrm,h₂,htab₂,hof₂,hmap,hok,hlen,hfree⟩ := h₁.dirRemove ((hidle₁.getFile name).trans hfile)
  obtain ⟨S₃,hclose,h₃,hidle₃,-⟩ := h₂.dirClose hre
  rw [← hidle₃.vol,hidle₁.vol] at hmap
  refine ⟨ok,live',S₃,?_,h₃,hidle₃.fileTable.trans (htab₂.trans hidle₁.fileTable),fun other => ?_,hmap,
    by rw [hok,hidle₁.fileOf],by rwa [hidle₃.entries,← hidle₁.entries],fun b hb => ?_⟩
  · rw [System.filesysRemove,split_noSlash hn]
    dsimp only
    rw [hopen,Option.bind_some]
    dsimp only
    rw [hrm,Option.bind_some,hclose,Option.map_some]
  · rw [hidle₃.fileOf,hof₂,hidle₁.fileOf]
  · rw [hidle₃.vol,← hidle₁.vol]
    exact hfree b ((hidle₁.fileOf name).trans hb)

/-- `fsutil_rm`. -/
theorem Session.fsutilRm (h : Session S live none) (hn : (47 : UInt8) ∉ name) : ∃ ok live' S', S.fsutilRm name = some (ok,S') ∧
    Session S' live' none ∧ S'.fileTable = Keyed.remove FileTableEntry.fname name S.fileTable ∧
    (∀ other, S'.fileOf other = if other = name then none else S.fileOf other) ∧ MapKept S.vol S'.vol ∧
    ok = (S.fileOf name).isSome ∧ GivesBack S S' name := by
  obtain ⟨b,S₁,hrem,h₁,hbytes,hvol,htab₁⟩ := h.removeFromFileTable name
  have hfile : S₁.getFileByFname name = none := by
    rw [System.getFileByFname,htab₁,Keyed.lookup_remove_self]
    rfl
  have hent : S₁.entries rootDirSector = S.entries rootDirSector := by rw [System.entries,hbytes,System.entries]
  have hsame : ∀ other, S₁.fileOf other = S.fileOf other := fun other => h.fileOf_congr (by rw [hent]) fun p _ _ => hbytes p
  obtain ⟨ok,live',S₂,hrm,h₂,htab₂,hof,hmap,hok,hlen,hfree⟩ := h₁.filesysRemove hn hfile
  refine ⟨ok,live',S₂,?_,h₂,htab₂.trans htab₁,fun other => ?_,hvol ▸ hmap,by rw [hok,hsame],by rwa [← hent],fun b hb => ?_⟩
  · rw [System.fsutilRm,hrem,Option.bind_some,hrm]
  · rw [hof,hsame]
  · rw [← hvol]
    exact hfree b ((hsame name).trans hb)

end
end ShellOS.Fs
