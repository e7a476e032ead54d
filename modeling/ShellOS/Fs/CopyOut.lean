import ShellOS.Fs.CopyIn

/-! A host file copied in and out again. -/
namespace ShellOS.Fs
open CLib SlotTable BlockTree

theorem copied_eq (c : ℕ) (contents : List UInt8) :
    copied c contents = contents.take c ++ List.replicate (c - contents.length) 0 := by
  refine List.ext_getElem ?_ fun k hk hk' => ?_
  · rw [length_copied,List.length_append,List.length_take,List.length_replicate]
    omega
  · rw [length_copied] at hk
    rw [getElem_copied]
    by_cases hin : k < contents.length
    · rw [List.getD_eq_getElem _ _ hin,List.getElem_append_left (by rw [List.length_take]; omega),List.getElem_take]
    · rw [List.getD_eq_default _ _ (by omega),List.getElem_append_right (by rw [List.length_take]; omega),List.getElem_replicate]

/-- A text without NUL ends where the padding begins. -/
theorem text_copied {contents : List UInt8} (h : (0 : UInt8) ∉ contents) (c : ℕ) :
    text (copied c contents ++ [0]) = contents.take c := by
  have hzeros : List.replicate (c - contents.length) (0 : UInt8) ++ [0] = List.replicate (c - contents.length + 1) 0 :=
    List.replicate_succ'.symm
  have hne : ∀ b ∈ contents.take c, (b != 0) = true := fun b hb => by
    refine bne_iff_ne.mpr fun h0 => h ?_
    rw [← h0]
    exact List.mem_of_mem_take hb
  rw [copied_eq,List.append_assoc,hzeros,text,List.takeWhile_append_of_pos hne,List.replicate_succ,List.takeWhile_cons_of_neg (by decide),
    List.append_nil]

section
variable {S S' : System} {live : Set BlockSector} {root : Option Dir} {name : CString} {b contents : List UInt8}

/-- What `copy_out` makes of a file set to its start. -/
def readText (name : CString) (_ : File) (size : ℤ) (_ : CString) (S : System) : Option (CString × System) :=
  (S.fsutilRead name size).map fun q => (text (q.1.getD []),q.2)

/-- `copy_out` is a visit that takes the text. -/
theorem copyOut_of_visit {out : CString} (h : System.visit (readText name) name [] S = some (true,out,S')) :
    S.copyOut name = some (.ok out,S') := by
  unfold System.visit at h
  obtain ⟨r,hsize,h⟩ := Option.bind_eq_some_iff.mp h
  rw [System.copyOut,hsize,Option.bind_some]
  by_cases hneg : r.1 = -1
  · rw [if_pos hneg] at h
    exact absurd (Prod.mk.inj (Option.some.inj h)).1 Bool.false_ne_true
  rw [if_neg hneg] at h ⊢
  obtain ⟨f,hf,h⟩ := Option.bind_eq_some_iff.mp h
  obtain ⟨S₁,hstart,h⟩ := Option.bind_eq_some_iff.mp h
  obtain ⟨q,hread,h⟩ := Option.bind_eq_some_iff.mp h
  obtain ⟨p,hp,rfl⟩ := Option.map_eq_some_iff.mp hread
  obtain ⟨S₂,hback,h⟩ := Option.map_eq_some_iff.mp h
  obtain ⟨rfl,rfl⟩ := Prod.mk.inj (Prod.mk.inj h).2
  rw [hf,Option.bind_some,hstart,Option.bind_some,hp,Option.bind_some,hback,Option.map_some]

/-- `copy_out` writes the file up to its first NUL. -/
theorem Session.copyOut (h : Session S live root) (hb : S.fileOf name = some b) :
    ∃ S', S.copyOut name = some (.ok (text b),S') ∧ Session S' live root ∧ Unmoved S S' := by
  obtain ⟨s,hs,rfl⟩ := Option.map_eq_some_iff.mp hb
  have huse : ∀ f i S₁, Session S₁ live root → (∀ p, S₁.bytes p = S.bytes p) → S₁.vol = S.vol →
      S₁.getFileByFname name = some { f with pos := 0 } → i ∈ S₁.openInodes → f.inode = i.addr → i.sector = s →
      ∃ pos : ℤ, readText name f (S.bytes s).length [] S₁ = some (text (S.bytes s),S₁.setFile name { f with pos := pos }) := by
    intro f i S₁ h₁ hbytes _ hf hi ha his
    obtain ⟨pos,hread⟩ := h₁.fsutilRead hf hi ha
    rw [his,hbytes] at hread
    refine ⟨pos,?_⟩
    rw [readText,hread,Option.map_some,Option.getD_some]
  obtain ⟨S',hvisit,hS,hu⟩ := h.visit hs huse
  exact ⟨S',copyOut_of_visit hvisit,hS,hu⟩

/-- For a size that `int` holds, `copy_size` is that of the whole file with its terminator, or of the sectors that fit. -/
theorem System.copySize_small {n : ℕ} (hn : n ≤ 2147483135) (S : System) : S.copySize n =
    if (n : ℤ) / 512 + 1 ≤ estimate (numFreeSectors S.vol) then withTerminator n else 512 * estimate (numFreeSectors S.vol) - 1 := by
  obtain ⟨t,ht⟩ : ∃ t, t = withTerminator n := ⟨_,rfl⟩
  have htn : 1 ≤ t ∧ t ≤ 2147483136 ∧ (t + 511) / 512 = (n : ℤ) / 512 + 1 := by
    rw [ht]
    unfold withTerminator
    split_ifs <;> omega
  rw [System.copySize_eq,← ht,wrap32_of_mem (by omega) (by omega),copyableSize_eq htn.1 htn.2.1,htn.2.2]

theorem le_withTerminator (n : ℕ) : (n : ℤ) ≤ withTerminator n := by
  unfold withTerminator
  split_ifs <;> omega

/-- Copying in and out keeps a text: all of it if its sectors fit, and else what goes into the sectors that do, but
for the terminator. -/
theorem copy_in_out (h : Session S live root) (hn : Ordinary name) (hnew : S.fileOf name = none) (h0 : (0 : UInt8) ∉ contents)
    (hsize : contents.length ≤ 2147483135) (hret : S.copyIn name (some contents) = some (0,S')) :
    ∃ d out T, IsGreatest (Fits (numFreeSectors S.vol)) d ∧ S'.copyOut name = some (.ok out,T) ∧
      (((contents.length : ℤ) + 1 + 511) / 512 ∈ Fits (numFreeSectors S.vol) → out = contents) ∧
      (((contents.length : ℤ) + 1 + 511) / 512 ∉ Fits (numFreeSectors S.vol) → out = contents.take (512 * d - 1).toNat) := by
  obtain ⟨live',c,hc⟩ := h.copyIn hn hnew hret
  obtain ⟨T,hout,-⟩ := hc.session.copyOut hc.file
  rw [text_copied h0] at hout
  have hround : ((contents.length : ℤ) + 1 + 511) / 512 = (contents.length : ℤ) / 512 + 1 := by omega
  have hcopy := hc.size.symm.trans (System.copySize_small hsize S)
  have hlen := le_withTerminator contents.length
  rw [hround]
  refine ⟨_,_,T,estimate_isGreatest (by omega),hout,fun hfit => ?_,fun hnot => ?_⟩
  · rw [if_pos (le_estimate (by omega) hfit)] at hcopy
    exact List.take_of_length_le (by omega)
  · have hle : ¬ (contents.length : ℤ) / 512 + 1 ≤ estimate (numFreeSectors S.vol) := fun hle =>
      hnot (Fits.of_le (estimate_fits (by omega)) hle (by omega))
    rw [if_neg hle] at hcopy
    rw [← hcopy,Int.toNat_natCast]

theorem copy_in_out_byte : ∃ S S' T : System, S.copyIn (cstr "a") (some [7]) = some (0,S') ∧ S'.copyOut (cstr "a") = some (.ok [7],T) := by
  obtain ⟨S,hF,hfree⟩ := formatted_199
  obtain ⟨hS,hno,-⟩ := hF.session
  have hfit : (1 : ℤ) ∈ Fits (numFreeSectors S.vol) := by
    rw [hfree]
    exact (fits_iff (by decide)).mpr (by decide +kernel)
  obtain ⟨live',S',hret,-⟩ := @Formatted.copyIn S (cstr "a") hF ordinary_a [7] 1 (by rw [hfree]; decide +kernel) (by decide) (by decide) hfit
  obtain ⟨d,out,T,-,hout,hall,-⟩ := copy_in_out hS ordinary_a (hno _) (by decide) (by decide) hret
  exact ⟨S,S',T,hret,hout.trans (by rw [hall hfit])⟩

end
end ShellOS.Fs
