import ShellOS.Fs.Removal
import ShellOS.Fs.CopyOut

/-! Files written by the shell end in a NUL byte. -/
namespace ShellOS.Fs
open CLib SlotTable BlockTree

/-! ### Last bytes -/

theorem getLast_overwrite {a bytes : List UInt8} {k : ℕ} (ha : a.getLast? = some 0) (hb : bytes.getLast? = some 0) :
    (overwrite a k bytes).getLast? = some 0 := by
  rw [List.getLast?_eq_getElem?] at ha hb ⊢
  have ha' := (List.getElem?_eq_some_iff.mp ha).1
  have hb' := (List.getElem?_eq_some_iff.mp hb).1
  have hlen : (overwrite a k bytes).length = max a.length (k + bytes.length) := by rw [overwrite,List.length_map,List.length_range]
  rw [hlen,overwrite,List.getElem?_map,List.getElem?_range (by omega),Option.map_some]
  congr 1
  by_cases hin : a.length ≤ k + bytes.length
  · have hi : max a.length (k + bytes.length) - 1 - k = bytes.length - 1 := by omega
    rw [if_pos (by omega),hi,List.getD_eq_getElem?_getD,hb,Option.getD_some]
  · have hi : max a.length (k + bytes.length) - 1 = a.length - 1 := by omega
    rw [if_neg (by omega),hi,List.getD_eq_getElem?_getD,ha,Option.getD_some]

/-- What `file_write` writes ends with the terminator. -/
theorem getLast_terminated {buffer : List UInt8} {size : ℤ} (h1 : 1 ≤ size) (hs : size ≤ buffer.length) :
    ((System.terminated buffer size).take size.toNat).getLast? = some 0 := by
  rw [List.getLast?_eq_getElem?,List.length_take,System.terminated,if_pos h1,List.length_set,List.getElem?_take_of_lt (by omega)]
  have hi : min size.toNat buffer.length - 1 = (size - 1).toNat := by omega
  rw [hi,List.getElem?_set_self (by omega)]

theorem getLast_zeros {n : ℕ} (h : 1 ≤ n) : (List.replicate n (0 : UInt8)).getLast? = some 0 := by
  rw [List.getLast?_replicate,if_neg (by omega)]

/-! ### The invariant -/

/-- The positions in the file table are offsets, but perhaps that of one file. -/
def PosOk (but : Option CString) (S : System) : Prop :=
  ∀ e ∈ S.fileTable, some e.fname ≠ but → 0 ≤ e.f.pos ∧ e.f.pos < 2147483648

/-- Every file ends in a NUL byte. -/
def NulEnded (S : System) : Prop := ∀ name b, S.fileOf name = some b → b.getLast? = some 0

/-- The state between two commands. -/
structure NulKept (S : System) (live : Set BlockSector) : Prop where
  session : Session S live none
  pos : PosOk none S
  ended : NulEnded S

section
variable {S S' : System} {live : Set BlockSector} {root : Option Dir} {name : CString} {f : File} {but : Option CString}
  {buffer : List UInt8} {size offset : ℤ}

theorem PosOk.weaken (h : PosOk none S) (but : Option CString) : PosOk but S := fun e he _ => h e he (Option.some_ne_none _)

theorem PosOk.of_table (h : PosOk but S) (htab : S'.fileTable = S.fileTable) : PosOk but S' := fun e he => h e (htab ▸ he)

theorem PosOk.setFile (h : PosOk (some name) S) (h0 : 0 ≤ offset) (ho : offset < 2147483648) :
    PosOk none (S.setFile name { f with pos := offset }) := fun e he _ => by
  cases Keyed.mem_update.mp he with
  | inl he => exact h e he.1 fun hc => he.2 (Option.some.inj hc)
  | inr he =>
    rw [he.1]
    exact ⟨h0,ho⟩

theorem NulEnded.congr (h : NulEnded S) (hof : ∀ name, S'.fileOf name = S.fileOf name) : NulEnded S' :=
  fun name b hb => h name b ((hof name).symm.trans hb)

/-- The file of a name, with all positions as they were. -/
theorem PosOk.tableFile (hp : PosOk but S) (h : Session S live root) (hn : PlainName name) :
    ∃ r S', S.tableFile name = some (r,S') ∧ Session S' live root ∧ PosOk but S' ∧ (∀ other, S'.fileOf other = S.fileOf other) ∧
      S'.getFileByFname name = r ∧ ∀ f, r = some f → f.pos = S.position name ∧ (S.fileOf name).isSome = true := by
  cases h.tableFile hn with
  | inl hno =>
    obtain ⟨-,hnone,S',ht,hS,hidle⟩ := hno
    exact ⟨none,S',ht,hS,hp.of_table hidle.fileTable,hidle.fileOf,(hidle.getFile name).trans hnone,
      fun f hf => absurd hf.symm (Option.some_ne_none f)⟩
  | inr hin =>
    obtain ⟨f,S',ht,hS,hbytes,-,hf,hor⟩ := hin
    have hof : ∀ other, S'.fileOf other = S.fileOf other := fun other =>
      h.fileOf_congr (by rw [System.entries,hbytes,System.entries]) fun p _ _ => hbytes p
    refine ⟨some f,S',ht,hS,fun e he hne => ?_,hof,hf,fun g hg => ?_⟩
    · rcases hor with rfl | ⟨hz,-,happ⟩
      · exact hp e he hne
      · rw [happ] at he
        cases List.mem_append.mp he with
        | inl he => exact hp e he hne
        | inr he =>
          rw [List.mem_singleton.mp he]
          dsimp only
          omega
    · obtain rfl := Option.some.inj hg
      obtain ⟨i,-,-,he,-⟩ := hS.table_file hf
      refine ⟨?_,by rw [← hof,System.fileOf,he]; rfl⟩
      rcases hor with rfl | ⟨hz,hnone,-⟩
      · rw [System.position,hf]
        rfl
      · rw [System.position,hnone,hz]
        rfl

/-! ### The commands -/

/-- `fsutil_write`; afterwards the position may be negative if nothing was written, or a single byte. -/
theorem NulKept.fsutilWrite (h : NulKept S live) (hn : Ordinary name) (h1 : 1 ≤ size) (hs : size < 2147483648)
    (hb : size ≤ buffer.length) : ∃ n S', S.fsutilWrite name buffer size = some (n,S') ∧ Session S' live none ∧
      PosOk (some name) S' ∧ NulEnded S' ∧ (2 ≤ size → (n = 0 → 2 ≤ S.position name) → PosOk none S') := by
  obtain ⟨r,S₁,ht,h₁,hp₁,hof₁,hget,hpos⟩ := h.pos.tableFile h.session hn.plain
  have he₁ : NulEnded S₁ := h.ended.congr hof₁
  rw [System.fsutilWrite,ht,Option.bind_some]
  cases r with
  | none => exact ⟨-1,S₁,rfl,h₁,hp₁.weaken _,he₁,fun _ _ => hp₁⟩
  | some f =>
    obtain ⟨hpn,-⟩ := hpos f rfl
    have hf := hp₁ _ (System.getFileByFname_mem hget) (Option.some_ne_none _)
    obtain ⟨ok,b,S',hbf,hwr,hS,htab,hof,hmax⟩ := h₁.fileWrite hget buffer hf.1 hf.2 h1 hs hb
    have hother : PosOk (some name) S' := fun e he hne => by
      rw [htab] at he
      cases Keyed.mem_update.mp he with
      | inl he => exact hp₁ e he.1 (Option.some_ne_none _)
      | inr he => exact absurd (congrArg (fun e => some e.fname) he.1) hne
    refine ⟨_,S',hwr,hS,hother,fun other b' hb' => ?_,fun h2 h0 e he _ => ?_⟩
    · rw [hof] at hb'
      split at hb'
      · obtain rfl := Option.some.inj hb'
        cases ok with
        | false => exact he₁ name b hbf
        | true => exact getLast_overwrite (he₁ name b hbf) (getLast_terminated h1 hb)
      · exact he₁ other b' hb'
    · rw [htab] at he
      cases Keyed.mem_update.mp he with
      | inl he => exact hp₁ e he.1 (Option.some_ne_none _)
      | inr he =>
        rw [he.1]
        dsimp only at hf ⊢
        cases ok with
        | false =>
          have h2 := h0 (if_neg Bool.false_ne_true)
          rw [if_neg Bool.false_ne_true,wrap32_of_mem (by omega) (by omega)]
          omega
        | true =>
          have hroom := hmax rfl
          rw [if_pos rfl,wrap32_of_mem (by omega) (by omega)]
          omega

/-- `fsutil_seek`. -/
theorem PosOk.fsutilSeek (hp : PosOk (some name) S) (h : Session S live none) (he : NulEnded S) (hn : Ordinary name) (h0 : 0 ≤ offset)
    (ho : offset < 2147483648) : ∃ n S', S.fsutilSeek name offset = some (n,S') ∧ NulKept S' live := by
  obtain ⟨r,S₁,ht,h₁,hp₁,hof₁,hget,-⟩ := hp.tableFile h hn.plain
  rw [System.fsutilSeek,ht,Option.bind_some]
  cases r with
  | none =>
    refine ⟨-1,S₁,rfl,h₁,fun e hm _ => hp₁ e hm fun hc => ?_,he.congr hof₁⟩
    exact System.getFileByFname_none hget e hm (Option.some.inj hc)
  | some f =>
    dsimp only
    rw [System.fileSeek,hget]
    exact ⟨0,_,rfl,h₁.setFile hget rfl,hp₁.setFile h0 ho,he.congr hof₁⟩

/-- `filesys_create` of a file that is not empty. -/
theorem NulKept.filesysCreate (h : NulKept S live) (hn : Ordinary name) (h1 : 1 ≤ size) (hs : size < 2147483648) :
    ∃ ok live' S', S.filesysCreate name size = some (ok,S') ∧ NulKept S' live' := by
  obtain ⟨ok,live',S',hcr,hS,htab,hof,-⟩ := h.session.filesysCreate hn.plain (by omega) hs
  refine ⟨ok,live',S',hcr,hS,h.pos.of_table htab,fun other b hb => ?_⟩
  rw [hof] at hb
  split at hb
  · obtain rfl := Option.some.inj hb
    exact getLast_zeros (by omega)
  · exact h.ended other b hb

theorem NulKept.fsutilRm (h : NulKept S live) (hn : Ordinary name) : ∃ ok live' S', S.fsutilRm name = some (ok,S') ∧
    NulKept S' live' ∧ ∀ other, S'.fileOf other = if other = name then none else S.fileOf other := by
  obtain ⟨ok,live',S',hrm,hS,htab,hof,-⟩ := h.session.fsutilRm hn.no_slash
  refine ⟨ok,live',S',hrm,⟨hS,fun e he hne => ?_,fun other b hb => ?_⟩,hof⟩
  · rw [htab] at he
    exact h.pos e (Keyed.mem_remove.mp he).1 hne
  · rw [hof] at hb
    split at hb
    · cases hb
    · exact h.ended other b hb

theorem NulKept.writeCommand {words : List CString} (h : NulKept S live) (hn : Ordinary name) (hw : WordList words) :
    ∃ n S', S.writeCommand name words = some (n,S') ∧ Session S' live none ∧ NulEnded S' ∧
      ((n = 0 → 2 ≤ S.position name) → PosOk none S') := by
  have hlen := length_joined hw.ne_nil
  have hsize : (wordsSize words : ℤ) = (joinTokens 32 words ++ [(0 : UInt8),0]).length := by
    rw [List.length_append,← hlen]
    simp
  obtain ⟨n,S',hwr,hS,-,he,hpos⟩ := h.fsutilWrite hn (by omega) hw.size_lt hsize.le
  refine ⟨n,S',?_,hS,he,hpos (by omega)⟩
  rw [System.writeCommand,writeBuffer_eq hw.ne_nil,Option.bind_some,hwr]

/-- `copy_in`, also over a file that is there; the size of the host file is such that `copy_size + 1` is an `int`. -/
theorem NulKept.copyIn {host : Option (List UInt8)} {n : ℕ} (h : NulKept S live) (hn : Ordinary name)
    (hsize : ∀ contents, host = some contents → wrap32 contents.length ≠ 2147483647) (hret : S.copyIn name host = some (n,S')) :
    ∃ live', NulKept S' live' := by
  cases host with
  | none =>
    obtain ⟨-,rfl⟩ := Prod.mk.inj (Option.some.inj hret)
    exact ⟨live,h⟩
  | some contents =>
    by_cases hle : S.copySize contents.length ≤ 0
    · unfold System.copyIn at hret
      dsimp only at hret
      rw [if_pos hle] at hret
      obtain ⟨-,rfl⟩ := Prod.mk.inj (Option.some.inj hret)
      exact ⟨live,h⟩
    have hclt := System.copySize_succ_lt S (hsize contents rfl)
    obtain ⟨c,hc⟩ := Int.eq_ofNat_of_zero_le (Int.not_le.mp hle).le
    obtain ⟨ok,live',S₁,hcr,h₁⟩ := h.filesysCreate hn (by omega : (1 : ℤ) ≤ c) (by omega)
    have hlen : ((c : ℤ) + 1) ≤ ((copied c contents ++ [0]).length : ℕ) := by
      rw [List.length_append,length_copied,List.length_singleton]
      omega
    obtain ⟨m,S₂,hwr,h₂,hp₂,he₂,-⟩ := h₁.fsutilWrite hn (by omega : (1 : ℤ) ≤ c + 1) (by omega) hlen
    rw [System.copyIn_eq name S contents hc (by omega),hn.createName,hcr,Option.bind_some,System.fill,hwr,Option.bind_some] at hret
    obtain ⟨S₃,hseek,hret⟩ := Option.map_eq_some_iff.mp hret
    obtain ⟨g,hg,rfl⟩ := Option.map_eq_some_iff.mp hseek
    obtain ⟨-,rfl⟩ := Prod.mk.inj hret
    exact ⟨live',h₂.setFile hg rfl,hp₂.setFile (by omega) (by omega),he₂.congr fun _ => System.fileOf_setFile _ _ _ _⟩

/-! ### `defragment` -/

/-- What `defragment` keeps in memory of a file. -/
def savedFile (S : System) (name : CString) : FileElem :=
  ⟨name,System.filled ((S.fileOf name).getD []).length ((S.fileOf name).getD []),((S.fileOf name).getD []).length⟩

/-- The body of the first loop. -/
def saveFile (name : CString) (_ : File) (size : ℤ) (files : List FileElem) (S : System) : Option (List FileElem × System) :=
  (S.fsutilRead name size).map fun q => (files ++ [⟨name,System.filled size (q.1.getD []),size⟩],q.2)

theorem defragmentRead_eq (S : System) : S.defragmentRead = S.overRoot (fun name => System.visit (saveFile name) name) [] := rfl

theorem foldl_append_map {α β : Type} (f : α → β) (l : List α) (acc : List β) :
    l.foldl (fun acc a => acc ++ [f a]) acc = acc ++ l.map f := by
  induction l generalizing acc with
  | nil => rw [List.foldl_nil,List.map_nil,List.append_nil]
  | cons a l ih => rw [List.foldl_cons,ih,List.map_cons,List.append_assoc,List.singleton_append]

/-- The first loop reads every file as it is. -/
theorem Session.defragmentRead (h : Session S live none) : ∃ S', S.defragmentRead =
      some (⟨nameList (S.entries rootDirSector),true,(nameList (S.entries rootDirSector)).map (savedFile S)⟩,S') ∧
    Session S' live none ∧ Unmoved S S' := by
  have hbody : ∀ name ∈ nameList (S.entries rootDirSector), ∀ (acc : List FileElem) T d, Session T live (some d) → Unmoved S T →
      ∃ T', System.visit (saveFile name) name acc T = some (true,acc ++ [savedFile S name],T') ∧
        Session T' live (some d) ∧ Unmoved S T' := by
    intro name hname acc T d hT hu
    obtain ⟨s,hs⟩ := Option.isSome_iff_exists.mp (h.table.mem_names.mp hname)
    have hsT : entryOf (T.entries rootDirSector) name = some s := hu.entries rootDirSector ▸ hs
    have hb : (S.fileOf name).getD [] = T.bytes s := by
      rw [System.fileOf,hs,Option.map_some,Option.getD_some,hu.bytes]
    rw [savedFile,hb]
    have huse : ∀ f i T₁, Session T₁ live (some d) → (∀ p, T₁.bytes p = T.bytes p) → T₁.vol = T.vol →
        T₁.getFileByFname name = some { f with pos := 0 } → i ∈ T₁.openInodes → f.inode = i.addr → i.sector = s →
        ∃ pos : ℤ, saveFile name f (T.bytes s).length acc T₁ = some (acc ++ [⟨name,System.filled (T.bytes s).length (T.bytes s),
          (T.bytes s).length⟩],T₁.setFile name { f with pos := pos }) := by
      intro f i T₁ h₁ hbytes _ hf hi ha his
      obtain ⟨pos,hread⟩ := h₁.fsutilRead hf hi ha
      rw [his,hbytes] at hread
      refine ⟨pos,?_⟩
      rw [saveFile,hread,Option.map_some,Option.getD_some]
    obtain ⟨T',hv,hT',hu'⟩ := hT.visit hsT huse
    exact ⟨T',hv,hT',hu.trans hu'⟩
  obtain ⟨S',hrun,h',hu⟩ := h.overRoot [] hbody
  refine ⟨S',?_,h',hu⟩
  rw [foldl_append_map,List.nil_append] at hrun
  rw [defragmentRead_eq]
  exact hrun

/-- A file of the list can be written back: its name is good and its buffer has the bytes. -/
structure Saved (f : FileElem) : Prop where
  name : Ordinary f.fname
  pos : 1 ≤ f.size
  lt : f.size < 2147483648
  le : f.size ≤ f.contents.length

/-- The second loop. -/
theorem NulKept.defragmentRemove {files : List FileElem} (h : NulKept S live) (hn : ∀ f ∈ files, Saved f) :
    ∃ live' S', S.defragmentRemove files = some S' ∧ NulKept S' live' := by
  induction files generalizing S live with
  | nil => exact ⟨live,S,rfl,h⟩
  | cons f files ih =>
    obtain ⟨hf,hfiles⟩ := List.forall_mem_cons.mp hn
    obtain ⟨ok,live₁,S₁,hrm,h₁,-⟩ := h.fsutilRm hf.name
    obtain ⟨live',S',hrun,h'⟩ := ih h₁ hfiles
    refine ⟨live',S',?_,h'⟩
    have hstep : ((S.removeFromFileTable f.fname).bind fun r => (r.2.filesysRemove f.fname).map Prod.snd) = some S₁ := by
      obtain ⟨r,hr,hrm⟩ := Option.bind_eq_some_iff.mp hrm
      rw [hr,Option.bind_some,hrm,Option.map_some]
    rw [System.defragmentRemove,List.foldlM_cons]
    exact (congrArg (Option.bind · _) hstep).trans hrun

/-- The third loop. -/
theorem NulKept.defragmentWrite {files : List FileElem} (h : NulKept S live) (hn : ∀ f ∈ files, Saved f) :
    ∃ live' S', S.defragmentWrite files = some S' ∧ NulKept S' live' := by
  induction files generalizing S live with
  | nil => exact ⟨live,S,rfl,h⟩
  | cons f files ih =>
    obtain ⟨hf,hfiles⟩ := List.forall_mem_cons.mp hn
    obtain ⟨ok,live₁,S₁,hcr,h₁⟩ := h.filesysCreate hf.name hf.pos hf.lt
    obtain ⟨n,S₂,hwr,h₂,hp₂,he₂,-⟩ := h₁.fsutilWrite hf.name hf.pos hf.lt hf.le
    obtain ⟨m,S₃,hseek,h₃⟩ := hp₂.fsutilSeek h₂ he₂ hf.name (le_refl (0 : ℤ)) (by decide)
    obtain ⟨live',S',hrun,h'⟩ := ih h₃ hfiles
    refine ⟨live',S',?_,h'⟩
    have hstep : ((S.fsutilCreate f.fname f.size).bind fun c => (c.2.fsutilWrite f.fname f.contents f.size).bind fun w =>
        (w.2.fsutilSeek f.fname 0).map Prod.snd) = some S₃ := by
      rw [hf.name.createName,hcr,Option.bind_some,hwr,Option.bind_some,hseek,Option.map_some]
    rw [System.defragmentWrite,List.foldlM_cons]
    exact (congrArg (Option.bind · _) hstep).trans hrun

theorem PosOk.of_unmoved (h : PosOk none S) (hu : Unmoved S S') (hS : Session S' live root) : PosOk none S' := fun e he _ => by
  have hget : S'.getFileByFname e.fname = some e.f := by
    rw [System.getFileByFname,(Keyed.lookup_eq_some hS.fnames).mpr ⟨he,rfl⟩,Option.map_some]
  have hpos := hu.position e.fname
  rw [System.position,hget,Option.map_some,Option.getD_some,System.position] at hpos
  rw [hpos]
  cases hf : S.getFileByFname e.fname with
  | none => exact ⟨le_refl 0,by decide⟩
  | some f => exact h _ (System.getFileByFname_mem hf) (Option.some_ne_none _)

theorem NulKept.saved (h : NulKept S live) : ∀ f ∈ (nameList (S.entries rootDirSector)).map (savedFile S), Saved f := fun f hf => by
  obtain ⟨name,hname,rfl⟩ := List.mem_map.mp hf
  obtain ⟨b,hb⟩ := (h.session.names.2 name).mp hname
  obtain ⟨s,hs⟩ := Option.isSome_iff_exists.mp (h.session.table.mem_names.mp hname)
  have hlen := h.session.length_fileOf_le hb
  have hpos : 1 ≤ b.length := by
    rcases Nat.eq_zero_or_pos b.length with h0 | hp
    · have hend := h.ended name b hb
      rw [List.length_eq_zero_iff.mp h0] at hend
      cases hend
    · exact hp
  have hfill : b.length ≤ (System.filled b.length b).length := by
    rw [System.filled,List.length_append]
    omega
  rw [savedFile,hb,Option.getD_some]
  exact ⟨h.session.ordinary name s hs,by dsimp only; omega,by dsimp only; omega,by dsimp only; omega⟩

theorem NulKept.defragment (h : NulKept S live) : ∃ live' S', (S.defragment).map Prod.snd = some S' ∧ NulKept S' live' := by
  obtain ⟨S₁,hread,h₁,hu⟩ := h.session.defragmentRead
  have hk : NulKept S₁ live := ⟨h₁,h.pos.of_unmoved hu h₁,h.ended.congr hu.fileOf⟩
  obtain ⟨live₂,S₂,hrm,h₂⟩ := hk.defragmentRemove h.saved
  obtain ⟨live₃,S₃,hwr,h₃⟩ := h₂.defragmentWrite h.saved
  refine ⟨live₃,S₃,?_,h₃⟩
  rw [System.defragment,hread,Option.bind_some]
  dsimp only
  rw [if_pos rfl,hrm,Option.bind_some,hwr,Option.map_some,Option.map_some]

end

/-! ### Runs -/

/-- Runs of commands on ordinary names from a new file system. A `write` that writes nothing goes beyond the largest
file, since no allocation fails. -/
inductive CommandRun : System → Prop
  | start {S} (h : Formatted S) : CommandRun S
  | create {S name size ok S'} (h : CommandRun S) (hn : Ordinary name) (h1 : 1 ≤ size) (hs : IsInt size)
      (hr : S.fsutilCreate name size = some (ok,S')) : CommandRun S'
  | write {S name words n S'} (h : CommandRun S) (hn : Ordinary name) (hw : WordList words) (hline : wordsSize words < 1000)
      (hr : S.writeCommand name words = some (n,S')) (hall : n = 0 → 8517120 < S.position name + wordsSize words) : CommandRun S'
  | seek {S name offset n S'} (h : CommandRun S) (hn : Ordinary name) (h0 : 0 ≤ offset) (ho : IsInt offset)
      (hr : S.fsutilSeek name offset = some (n,S')) : CommandRun S'
  | copyIn {S name host n S'} (h : CommandRun S) (hn : Ordinary name)
      (hsize : ∀ contents, host = some contents → wrap32 contents.length ≠ 2147483647)
      (hr : S.copyIn name host = some (n,S')) : CommandRun S'
  | rm {S name ok S'} (h : CommandRun S) (hn : Ordinary name) (hr : S.fsutilRm name = some (ok,S')) : CommandRun S'
  | defragment {S r S'} (h : CommandRun S) (hr : S.defragment = some (r,S')) : CommandRun S'

section
variable {S : System} {name : CString}

theorem CommandRun.kept (h : CommandRun S) : ∃ live, NulKept S live := by
  induction h with
  | start h =>
    obtain ⟨hS,hno,-⟩ := h.session
    obtain ⟨v,a,rfl,-⟩ := h.atRest
    refine ⟨_,hS,fun e he => absurd he List.not_mem_nil,fun name b hb => ?_⟩
    rw [hno] at hb
    cases hb
  | create _ hn h1 hs hr ih =>
    obtain ⟨live,ih⟩ := ih
    obtain ⟨ok,live',T,hcr,hT⟩ := ih.filesysCreate hn h1 hs.2
    rw [hn.createName,hcr] at hr
    obtain ⟨-,rfl⟩ := Prod.mk.inj (Option.some.inj hr)
    exact ⟨live',hT⟩
  | write _ hn hw hline hr hall ih =>
    obtain ⟨live,ih⟩ := ih
    obtain ⟨n,T,hwr,hT,he,hpos⟩ := ih.writeCommand hn hw
    rw [hwr] at hr
    obtain ⟨rfl,rfl⟩ := Prod.mk.inj (Option.some.inj hr)
    exact ⟨live,hT,hpos fun h0 => by have := hall h0; omega,he⟩
  | seek _ hn h0 ho hr ih =>
    obtain ⟨live,ih⟩ := ih
    obtain ⟨n,T,hs,hT⟩ := (ih.pos.weaken _).fsutilSeek ih.session ih.ended hn h0 ho.2
    rw [hs] at hr
    obtain ⟨-,rfl⟩ := Prod.mk.inj (Option.some.inj hr)
    exact ⟨live,hT⟩
  | copyIn _ hn hsize hr ih =>
    obtain ⟨live,ih⟩ := ih
    exact ih.copyIn hn hsize hr
  | rm _ hn hr ih =>
    obtain ⟨live,ih⟩ := ih
    obtain ⟨ok,live',T,hrm,hT,-⟩ := ih.fsutilRm hn
    rw [hrm] at hr
    obtain ⟨-,rfl⟩ := Prod.mk.inj (Option.some.inj hr)
    exact ⟨live',hT⟩
  | defragment _ hr ih =>
    obtain ⟨live,ih⟩ := ih
    obtain ⟨live',T,hd,hT⟩ := ih.defragment
    rw [hr,Option.map_some] at hd
    obtain rfl := Option.some.inj hd
    exact ⟨live',hT⟩

/-- Every file that the commands leave ends in a NUL byte. -/
theorem files_end_in_nul (h : CommandRun S) {b : List UInt8} (hb : S.fileOf name = some b) (hlen : 1 ≤ b.length) :
    b.getLast (List.ne_nil_of_length_pos hlen) = 0 := by
  obtain ⟨live,hk⟩ := h.kept
  have hlast := hk.ended name b hb
  rw [List.getLast?_eq_some_getLast (List.ne_nil_of_length_pos hlen)] at hlast
  exact Option.some.inj hlast

theorem files_end_in_nul_copied : ∃ S : System, CommandRun S ∧ S.fileOf (cstr "a") = some [7,0] ∧
    ([7,0] : List UInt8).getLast (List.cons_ne_nil _ _) = 0 := by
  obtain ⟨S,hF,hfree⟩ := formatted_199
  obtain ⟨live',S',hret,hc⟩ := @Formatted.copyIn S (cstr "a") hF ordinary_a [7] 1 (by rw [hfree]; decide +kernel) (by decide) (by decide)
    (by rw [hfree]; exact (fits_iff (by decide)).mpr (by decide +kernel))
  have hsize : ∀ contents, some [(7 : UInt8)] = some contents → wrap32 contents.length ≠ 2147483647 := fun contents hcon => by
    obtain rfl := Option.some.inj hcon
    rw [List.length_singleton,wrap32_of_mem (by decide) (by decide)]
    decide
  have hrun := (CommandRun.start hF).copyIn ordinary_a hsize hret
  have hfile : S'.fileOf (cstr "a") = some [7,0] := hc.file.trans rfl
  exact ⟨S',hrun,hfile,files_end_in_nul hrun hfile (by decide)⟩

end
end ShellOS.Fs
