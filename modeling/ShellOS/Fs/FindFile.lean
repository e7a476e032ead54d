import ShellOS.Fs.Listing

/-! `find_file`: a file is searched as a string, up to its first 0. -/
namespace ShellOS.Fs
open CLib SlotTable BlockTree

/-- The command with its words: they are joined as those of a `write` are. -/
def System.findCommand (words : List CString) (S : System) : Option (Listing (List CString) × System) :=
  (writeBuffer words).bind fun buf => S.findFile (text buf)

theorem text_append {t b : List UInt8} (h : (0 : UInt8) ∉ t) : text (t ++ b) = t ++ text b :=
  List.takeWhile_append_of_pos fun _ hc => bne_iff_ne.mpr fun he => h (he ▸ hc)

theorem zero_notMem_text (b : List UInt8) : (0 : UInt8) ∉ text b := fun hm =>
  absurd (List.mem_takeWhile_imp hm) (by decide)

/-- A string is found where no 0 stands before it. -/
theorem infix_text_iff {pattern : CString} (h : (0 : UInt8) ∉ pattern) (b : List UInt8) :
    pattern <:+: text b ↔ ∃ before after, b = before ++ pattern ++ after ∧ (0 : UInt8) ∉ before := by
  constructor
  · rintro ⟨before,after,he⟩
    have hsplit : b = text b ++ b.dropWhile (· != 0) := List.takeWhile_append_dropWhile.symm
    refine ⟨before,after ++ b.dropWhile (· != 0),?_,fun hm => zero_notMem_text b ?_⟩
    · rw [← List.append_assoc,he]
      exact hsplit
    · rw [← he,List.append_assoc]
      exact List.mem_append_left _ hm
  · rintro ⟨before,after,rfl,hb⟩
    rw [List.append_assoc,text_append hb,text_append h]
    exact ⟨before,text after,List.append_assoc ..⟩

theorem text_writeBuffer {words : List CString} (h : ∀ w ∈ words, (0 : UInt8) ∉ w) :
    (0 : UInt8) ∉ joinTokens 32 words ∧ text (joinTokens 32 words ++ [0,0]) = joinTokens 32 words := by
  have hjoin : (0 : UInt8) ∉ joinTokens 32 words := by
    induction words with
    | nil => exact List.not_mem_nil
    | cons w words ih =>
      obtain ⟨hw,hrest⟩ := List.forall_mem_cons.mp h
      by_cases hne : words = []
      · subst hne
        simpa [joinTokens,List.intercalate] using hw
      · rw [joinTokens_cons w hne]
        simp [hw,ih hrest]
  exact ⟨hjoin,by rw [text_append hjoin]; exact List.append_nil _⟩

theorem foldl_filter {α : Type} (p : α → Prop) [DecidablePred p] (l acc : List α) :
    l.foldl (fun acc a => if p a then acc ++ [a] else acc) acc = acc ++ l.filter (fun a => decide (p a)) := by
  induction l generalizing acc with
  | nil => exact (List.append_nil acc).symm
  | cons a l ih =>
    rw [List.foldl_cons,ih]
    by_cases h : p a
    · simp [h]
    · simp [h]

section
variable {S : System} {live : Set BlockSector} {root : Option Dir} {i : Inode} {f : File} {name pattern : CString} {words : List CString}

/-- The loop body of `find_file`. -/
def searchFile (pattern name : CString) (_ : File) (size : ℤ) (found : List CString) (S : System) :
    Option (List CString × System) :=
  (S.fsutilRead name size).map fun q => (if pattern <:+: text (q.1.getD []) then found ++ [name] else found,q.2)

theorem findFile_eq (pattern : CString) (S : System) :
    S.findFile pattern = S.overRoot (fun name => System.visit (searchFile pattern name) name) [] := rfl

theorem Session.searchFile (h : Session S live root) (pattern : CString) (found : List CString)
    (hf : S.getFileByFname name = some { f with pos := 0 }) (hi : i ∈ S.openInodes) (ha : f.inode = i.addr) : ∃ pos : ℤ,
      searchFile pattern name f (S.bytes i.sector).length found S =
        some (if pattern <:+: text (S.bytes i.sector) then found ++ [name] else found,S.setFile name { f with pos := pos }) := by
  obtain ⟨pos,hread⟩ := h.fsutilRead hf hi ha
  refine ⟨pos,?_⟩
  rw [Fs.searchFile,hread,Option.map_some]
  dsimp only
  rw [Option.getD_some]

/-- `find_file` lists the names whose files have the pattern before their first 0. -/
theorem Session.findFile (h : Session S live none) (pattern : CString) : ∃ S', S.findFile pattern =
      some (⟨nameList (S.entries rootDirSector),true,
        (nameList (S.entries rootDirSector)).filter fun name => decide (pattern <:+: text ((S.fileOf name).getD []))⟩,S') ∧
    Session S' live none ∧ Unmoved S S' := by
  have hbody : ∀ name ∈ nameList (S.entries rootDirSector), ∀ (acc : List CString) T d, Session T live (some d) → Unmoved S T →
      ∃ T', System.visit (Fs.searchFile pattern name) name acc T =
        some (true,if pattern <:+: text ((S.fileOf name).getD []) then acc ++ [name] else acc,T') ∧
        Session T' live (some d) ∧ Unmoved S T' := by
    intro name hname acc T d hT hu
    obtain ⟨s,hs⟩ := Option.isSome_iff_exists.mp (h.table.mem_names.mp hname)
    have hsT : entryOf (T.entries rootDirSector) name = some s := hu.entries rootDirSector ▸ hs
    have hb : (S.fileOf name).getD [] = T.bytes s := by
      rw [System.fileOf,hs,Option.map_some,Option.getD_some,hu.bytes]
    rw [hb]
    have huse : ∀ f i T₁, Session T₁ live (some d) → (∀ p, T₁.bytes p = T.bytes p) → T₁.vol = T.vol →
        T₁.getFileByFname name = some { f with pos := 0 } → i ∈ T₁.openInodes → f.inode = i.addr → i.sector = s →
        ∃ pos : ℤ, Fs.searchFile pattern name f (T.bytes s).length acc T₁ =
          some (if pattern <:+: text (T.bytes s) then acc ++ [name] else acc,T₁.setFile name { f with pos := pos }) := by
      intro f i T₁ h₁ hbytes _ hf hi ha his
      have hread := h₁.searchFile pattern acc hf hi ha
      rwa [his,hbytes] at hread
    obtain ⟨T',hv,hT',hu'⟩ := hT.visit hsT huse
    exact ⟨T',hv,hT',hu.trans hu'⟩
  obtain ⟨S',hrun,h',hu⟩ := h.overRoot [] hbody
  refine ⟨S',?_,h',hu⟩
  rw [foldl_filter,List.nil_append] at hrun
  rw [findFile_eq]
  exact hrun

theorem Session.findCommand (h : Session S live none) (hw : words ≠ []) (h0 : ∀ w ∈ words, (0 : UInt8) ∉ w) :
    ∃ l S', S.findCommand words = some (l,S') ∧ Session S' live none ∧ Unmoved S S' ∧ l.acc.Nodup ∧
      ∀ name, name ∈ l.acc ↔ ∃ b, S.fileOf name = some b ∧
        ∃ before after, b = before ++ joinTokens 32 words ++ after ∧ (0 : UInt8) ∉ before := by
  obtain ⟨hzero,htext⟩ := text_writeBuffer h0
  obtain ⟨S',hrun,h',hu⟩ := h.findFile (joinTokens 32 words)
  obtain ⟨hnodup,hnames⟩ := h.names
  refine ⟨⟨nameList (S.entries rootDirSector),true,(nameList (S.entries rootDirSector)).filter fun name =>
    decide (joinTokens 32 words <:+: text ((S.fileOf name).getD []))⟩,S',?_,h',hu,hnodup.filter _,fun name => ?_⟩
  · rw [System.findCommand,writeBuffer_eq hw,Option.bind_some,htext]
    exact hrun
  · rw [List.mem_filter,hnames,decide_eq_true_eq,infix_text_iff hzero]
    constructor
    · rintro ⟨⟨b,hb⟩,hin⟩
      rw [hb] at hin
      exact ⟨b,hb,hin⟩
    · rintro ⟨b,hb,hin⟩
      exact ⟨⟨b,hb⟩,by rwa [hb]⟩

end

end ShellOS.Fs
