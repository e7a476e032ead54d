import ShellOS.Lib.Refinement
import ShellOS.Fs.FindFile
import ShellOS.Fs.Fragmentation
import ShellOS.Fs.Defragment
import ShellOS.Fs.Remount

/-! What the file system is for: a store of named arrays of bytes. The commands of the shell do to the files on the disk
what they do to this store. -/
namespace ShellOS.Fs
open CLib SlotTable Refinement

instance (name : CString) : Decidable (PlainName name) :=
  decidable_of_iff ((47 : UInt8) ∉ name ∧ (0 : UInt8) ∉ name ∧ name ≠ cstr "." ∧ name ≠ cstr "..")
    ⟨fun h => ⟨h.1,h.2.1,h.2.2.1,h.2.2.2⟩,fun h => ⟨h.no_slash,h.no_nul,h.ne_dot,h.ne_dotdot⟩⟩

instance (n : ℤ) : Decidable (IsInt n) := inferInstanceAs (Decidable (_ ∧ _))

/-! ### The store -/

/-- Named arrays of bytes, with the position in each at which it is read and written next. -/
structure FileStore where
  files : CString → Option (List UInt8)
  names : Finset CString
  mem_names : ∀ name, name ∈ names ↔ (files name).isSome
  position : CString → ℤ

/-- The commands, with what the shell passes to them. -/
inductive Command
  | create (name : CString) (size : ℤ)
  | write (name : CString) (buffer : List UInt8) (size : ℤ)
  | read (name : CString) (size : ℤ)
  | size (name : CString)
  | seek (name : CString) (offset : ℤ)
  | rm (name : CString)
  | cat (name : CString)
  | ls
  | find (words : List CString)
  | copyIn (name : CString) (host : Option (List UInt8))
  | copyOut (name : CString)
  | fragmentationDegree
  | defragment

/-- What a command returns or prints; names are printed in some order. -/
inductive Reply
  | success (ok : Bool)
  | number (n : ℤ)
  | bytes (b : Option (List UInt8))
  | names (l : Multiset CString)
  | error (n : ℕ)
  | text (t : Except ℕ CString)
  | degree (fragmentable fragmented : ℕ)
  | done

/-- What depends on the sectors: whether a file can be created or extended, how much `copy_in` copies, and how many
files are fragmented. -/
structure Space where
  create : Bool
  write : Bool
  copy : ℤ
  fragmented : ℕ

namespace FileStore

/-- A store without files. -/
def empty : FileStore := ⟨fun _ => none,∅,fun _ => by simp,fun _ => 0⟩

/-- The file of a name replaced, or a new file. -/
def put (name : CString) (b : List UInt8) (F : FileStore) : FileStore where
  files := Function.update F.files name (some b)
  names := insert name F.names
  mem_names other := by
    rw [Finset.mem_insert,F.mem_names,Function.update_apply]
    by_cases h : other = name
    · simp [h]
    · simp [h]
  position := F.position

def move (name : CString) (position : ℤ) (F : FileStore) : FileStore :=
  { F with position := Function.update F.position name position }

def remove (name : CString) (F : FileStore) : FileStore where
  files := Function.update F.files name none
  names := F.names.erase name
  mem_names other := by
    rw [Finset.mem_erase,F.mem_names,Function.update_apply]
    by_cases h : other = name
    · simp [h]
    · simp [h]
  position := Function.update F.position name 0

/-- Every file closed by a terminator, and looked at from its start. -/
def settle (F : FileStore) : FileStore where
  files name := (F.files name).map closeText
  names := F.names
  mem_names name := by rw [F.mem_names,Option.isSome_map]
  position _ := 0

section
variable (name other : CString) (b : List UInt8) (p : ℤ) (F : FileStore)

@[simp] theorem put_files : (F.put name b).files other = if other = name then some b else F.files other := Function.update_apply ..

@[simp] theorem put_position : (F.put name b).position = F.position := rfl

@[simp] theorem move_files : (F.move name p).files = F.files := rfl

@[simp] theorem move_position : (F.move name p).position other = if other = name then p else F.position other :=
  Function.update_apply ..

@[simp] theorem remove_files : (F.remove name).files other = if other = name then none else F.files other := Function.update_apply ..

@[simp] theorem remove_position : (F.remove name).position other = if other = name then 0 else F.position other :=
  Function.update_apply ..

end

/-- A new file of zeros, unless the name is no file name or is there already, or there is no room. -/
def create (room : Bool) (name : CString) (size : ℤ) (F : FileStore) : Bool × FileStore :=
  if room = true ∧ 0 ≤ size ∧ name ≠ [] ∧ name.length ≤ nameMax ∧ F.files name = none then
    (true,F.put name (List.replicate size.toNat 0))
  else (false,F)

/-- The text goes to the position, and the position goes to the terminators that it ends in. Where there is no room
nothing is written, but the position moves as if two terminators had been. -/
def write (room : Bool) (name : CString) (text : List UInt8) (F : FileStore) : ℤ × FileStore :=
  match F.files name with
  | none => (-1,F)
  | some b =>
    if room = true ∧ F.position name + text.length ≤ 8517120 then
      (text.length,(F.put name (overwrite b (F.position name).toNat text)).move name (F.position name + text.length - 2))
    else (0,F.move name (F.position name - 2))

section
variable {room : Bool} {name : CString} {text b : List UInt8} {F : FileStore}

theorem write_missing (h : F.files name = none) : F.write room name text = (-1,F) := by
  rw [write,h]

theorem write_refused (h : F.files name = some b) : F.write false name text = (0,F.move name (F.position name - 2)) := by
  rw [write,h]
  exact if_neg fun hc => Bool.false_ne_true hc.1

theorem write_done (h : F.files name = some b) (hmax : F.position name + text.length ≤ 8517120) : F.write true name text =
    ((text.length : ℤ),(F.put name (overwrite b (F.position name).toNat text)).move name (F.position name + text.length - 2)) := by
  rw [write,h]
  exact if_pos ⟨rfl,hmax⟩

end

/-- The names of the files whose text has the pattern. -/
def matching (pattern : CString) (F : FileStore) : Finset CString :=
  F.names.filter fun name => pattern <:+: text ((F.files name).getD [])

/-- The names of the files of more than one sector. -/
def fragmentable (F : FileStore) : Finset CString :=
  F.names.filter fun name => 2 ≤ bytesToSectors ((F.files name).getD []).length

/-- What the commands do. Nothing is said of paths, of numbers that are no `int`, of accesses before the start of a file,
of a `find_file` without words, and of empty files when they are defragmented. -/
def exec (ω : Space) : Command → FileStore → Outcome (Reply × FileStore)
  | .create name size,F =>
    if PlainName name ∧ IsInt size then .ret (.success (F.create ω.create name size).1,(F.create ω.create name size).2) else .any
  | .write name buffer size,F =>
    if PlainName name ∧ 1 ≤ size ∧ IsInt size ∧ size ≤ buffer.length ∧ 0 ≤ F.position name then
      .ret (.number (F.write ω.write name (closeText (buffer.take size.toNat))).1,
        (F.write ω.write name (closeText (buffer.take size.toNat))).2)
    else .any
  | .read name size,F =>
    if PlainName name ∧ 0 ≤ F.position name then
      match F.files name with
      | none => .ret (.bytes none,F)
      | some b => .ret (.bytes (some ((b.drop (F.position name).toNat).take size.toNat)),
          F.move name (F.position name + ((b.drop (F.position name).toNat).take size.toNat).length))
    else .any
  | .size name,F =>
    if PlainName name then .ret (.number (((F.files name).map fun b => (b.length : ℤ)).getD (-1)),F) else .any
  | .seek name offset,F =>
    if PlainName name ∧ IsInt offset then
      match F.files name with
      | none => .ret (.number (-1),F)
      | some _ => .ret (.number 0,F.move name offset)
    else .any
  | .rm name,F =>
    if PlainName name then .ret (.success (F.files name).isSome,F.remove name) else .any
  | .cat name,F => if PlainName name then .ret (.bytes (F.files name),F) else .any
  | .ls,F => .ret (.names F.names.val,F)
  | .find words,F =>
    if words ≠ [] ∧ ∀ w ∈ words, (0 : UInt8) ∉ w then .ret (.names (F.matching (joinTokens 32 words)).val,F) else .any
  | .copyIn _ none,F => .ret (.error 1,F)
  | .copyIn name (some contents),F =>
    if PlainName name ∧ wrap32 contents.length ≠ 2147483647 then
      if ω.copy ≤ 0 then .ret (.error 2,F)
      else if F.position name < 0 then .any
      else match (F.create ω.create name ω.copy).2.files name with
        -- the file that could not be created is used as if it were there
        | none => .stop
        | some _ =>
          .ret (.error 0,((F.create ω.create name ω.copy).2.write ω.write name (copied ω.copy.toNat contents ++ [0])).2.move name 0)
    else .any
  | .copyOut name,F =>
    if PlainName name then
      match F.files name with
      | none => .ret (.text (.error 1),F)
      | some b => .ret (.text (.ok (text b)),F)
    else .any
  | .fragmentationDegree,F => .ret (.degree F.fragmentable.card ω.fragmented,F)
  | .defragment,F => if ∀ name ∈ F.names, F.files name ≠ some [] then .ret (.done,F.settle) else .any

end FileStore

/-- The commands on the disk. -/
def System.exec : Command → System → Option (Reply × System)
  | .create name size,S => (S.fsutilCreate name size).map fun r => (.success r.1,r.2)
  | .write name buffer size,S => (S.fsutilWrite name buffer size).map fun r => (.number r.1,r.2)
  | .read name size,S => (S.fsutilRead name size).map fun r => (.bytes r.1,r.2)
  | .size name,S => (S.fsutilSize name).map fun r => (.number r.1,r.2)
  | .seek name offset,S => (S.fsutilSeek name offset).map fun r => (.number r.1,r.2)
  | .rm name,S => (S.fsutilRm name).map fun r => (.success r.1,r.2)
  | .cat name,S => (S.fsutilCat name).map fun r => (.bytes r.1,r.2)
  | .ls,S => S.fsutilLs.map fun r => (.names r.1.seen,r.2)
  | .find words,S => (S.findCommand words).map fun r => (.names r.1.acc,r.2)
  | .copyIn name host,S => (S.copyIn name host).map fun r => (.error r.1,r.2)
  | .copyOut name,S => (S.copyOut name).map fun r => (.text r.1,r.2)
  | .fragmentationDegree,S => S.fragmentationDegree.map fun r => (.degree r.1.acc.1 r.1.acc.2,r.2)
  | .defragment,S => S.defragment.map fun r => (.done,r.2)

/-! ### The disk stands for the store -/

/-- Between two commands the files on the disk are those of the store. -/
structure Stands (S : System) (F : FileStore) : Prop where
  session : ∃ live, Session S live none
  files : ∀ name, S.fileOf name = F.files name
  position : ∀ name, S.position name = F.position name
  ints : ∀ name, IsInt (F.position name)

section
variable {S S' T : System} {F G : FileStore} {live live' : Set BlockSector} {name : CString} {f g : File} {b buffer : List UInt8} {size : ℤ}

theorem Stands.of_unmoved (h : Stands S F) (hS : Session S' live none) (hu : Unmoved S S') : Stands S' F :=
  ⟨⟨live,hS⟩,fun name => (hu.fileOf name).trans (h.files name),fun name => (hu.position name).trans (h.position name),h.ints⟩

/-- The names of the directory are the names of the store. -/
theorem Stands.names (h : Stands S F) (hS : Session S live none) :
    (nameList (S.entries rootDirSector) : Multiset CString) = F.names.val := by
  obtain ⟨hnodup,hmem⟩ := hS.names
  refine (Multiset.Nodup.ext (Multiset.coe_nodup.mpr hnodup) F.names.nodup).mpr fun name => ?_
  rw [Multiset.mem_coe,hmem,Finset.mem_val,F.mem_names,h.files,Option.isSome_iff_exists]

/-- The file of a name is looked up, and opened if it was closed. -/
theorem Stands.tableFile (h : Stands S F) (hn : PlainName name) :
    (F.files name = none ∧ ∃ S', S.tableFile name = some (none,S') ∧ Stands S' F) ∨
    ∃ b f i S' live, F.files name = some b ∧ S.tableFile name = some (some f,S') ∧ Stands S' F ∧ Session S' live none ∧
      S'.getFileByFname name = some f ∧ f.pos = F.position name ∧ i ∈ S'.openInodes ∧ f.inode = i.addr ∧ S'.bytes i.sector = b := by
  obtain ⟨live,hS⟩ := h.session
  rcases hS.tableFile hn with ⟨hno,-,S',ht,hS',hidle⟩ | ⟨f,S',ht,hS',hbytes,-,hf,hor⟩
  · exact .inl ⟨(h.files name).symm.trans hno,S',ht,h.of_unmoved hS' hidle.unmoved⟩
  obtain ⟨i,hi,ha,he,-⟩ := hS'.table_file hf
  have hent : S'.entries rootDirSector = S.entries rootDirSector := by rw [System.entries,hbytes,System.entries]
  obtain ⟨g,j,T,ht',-,hu,-⟩ := hS.openFile (hent ▸ he)
  obtain ⟨-,rfl⟩ := Prod.mk.inj (Option.some.inj (ht.symm.trans ht'))
  have h' := h.of_unmoved hS' hu
  have hb : F.files name = some (S'.bytes i.sector) := by rw [← h'.files,System.fileOf,he,Option.map_some]
  have hpos : f.pos = F.position name := by
    rw [← h'.position,System.position,hf]
    rfl
  exact .inr ⟨_,f,i,S',live,hb,ht,h',hS',hf,hpos,hi,ha,rfl⟩

/-- The position of an open file set anew. -/
theorem Stands.setFile (h : Stands S F) (hf : S.getFileByFname name = some f) (hg : g.inode = f.inode) (hi : IsInt g.pos) :
    Stands (S.setFile name g) (F.move name g.pos) := by
  obtain ⟨live,hS⟩ := h.session
  refine ⟨⟨live,hS.setFile hf hg⟩,fun other => (System.fileOf_setFile _ _ _ _).trans (h.files other),fun other => ?_,fun other => ?_⟩
  · rw [FileStore.move_position]
    by_cases hc : other = name
    · rw [if_pos hc,hc,System.position,System.getFileByFname_setFile hf]
      rfl
    · rw [if_neg hc,System.position,System.getFileByFname_setFile_ne hc]
      exact h.position other
  · rw [FileStore.move_position]
    split
    · exact hi
    · exact h.ints other

/-! ### The commands -/

/-- `create`. -/
theorem Stands.create (h : Stands S F) (hn : PlainName name) (hs : IsInt size) : ∃ room S',
    S.fsutilCreate name size = some ((F.create room name size).1,S') ∧ Stands S' (F.create room name size).2 := by
  have hno : F.create false name size = (false,F) := if_neg fun hc => Bool.false_ne_true hc.1
  by_cases hlen : name.length = 0 ∨ 255 ≤ name.length
  · refine ⟨false,S,?_,?_⟩
    · rw [System.fsutilCreate,if_pos hlen,hno]
    · rw [hno]
      exact h
  obtain ⟨live,hS⟩ := h.session
  obtain ⟨ok,live',S',hcr,hS',htab,hof,hfree,-⟩ := hS.filesysCreate hn hs.1 hs.2
  have hpos : ∀ other, S'.position other = F.position other := fun other => by
    rw [← h.position,System.position,System.getFileByFname,htab,System.position,System.getFileByFname]
  rw [System.fsutilCreate,if_neg hlen]
  cases ok with
  | false =>
    refine ⟨false,S',by rw [hcr,hno],?_⟩
    rw [hno]
    exact ⟨⟨live',hS'⟩,fun other => by rw [hof,if_neg fun hc => Bool.false_ne_true hc.1,h.files],hpos,h.ints⟩
  | true =>
    have hb : S'.fileOf name = some (List.replicate size.toNat 0) := by rw [hof,if_pos ⟨rfl,rfl⟩]
    obtain ⟨s,hs',-⟩ := Option.map_eq_some_iff.mp hb
    have hord := hS'.ordinary name s hs'
    have h0 : 0 ≤ size := not_lt.mp fun hneg => filesysCreate_neg hS hn hneg hs.1 hcr
    have hyes : F.create true name size = (true,F.put name (List.replicate size.toNat 0)) :=
      if_pos ⟨rfl,h0,hord.ne_nil,hord.length_le,(h.files name).symm.trans (hfree rfl)⟩
    refine ⟨true,S',by rw [hcr,hyes],?_⟩
    rw [hyes]
    refine ⟨⟨live',hS'⟩,fun other => ?_,hpos,h.ints⟩
    rw [hof,FileStore.put_files,h.files]
    exact if_congr (and_iff_right rfl) rfl rfl

theorem terminated_take {n : ℕ} (h1 : 1 ≤ n) (hb : n ≤ buffer.length) :
    (System.terminated buffer n).take n = closeText (buffer.take n) := by
  have hi : ((n : ℤ) - 1).toNat = n - 1 := by omega
  rw [System.terminated,if_pos (by omega),closeText,List.length_take,Nat.min_eq_left hb,hi,List.take_set]

/-- `write`. -/
theorem Stands.write (h : Stands S F) (hn : PlainName name) (h1 : 1 ≤ size) (hs : IsInt size) (hb : size ≤ buffer.length)
    (h0 : 0 ≤ F.position name) : ∃ room S',
    S.fsutilWrite name buffer size = some ((F.write room name (closeText (buffer.take size.toNat))).1,S') ∧
      Stands S' (F.write room name (closeText (buffer.take size.toNat))).2 ∧
      ((F.files name).isSome → ∃ g, S'.getFileByFname name = some g) := by
  obtain ⟨n,rfl⟩ := Int.eq_ofNat_of_zero_le (by omega : 0 ≤ size)
  rw [Int.toNat_natCast]
  obtain ⟨text,htext⟩ : ∃ text, text = closeText (buffer.take n) := ⟨_,rfl⟩
  have hlen : text.length = n := by
    rw [htext,closeText,List.length_set,List.length_take]
    omega
  rw [← htext]
  rcases h.tableFile hn with ⟨hno,S',ht,h'⟩ | ⟨b,f,i,S₁,live,hfile,ht,hst,hS₁,hf,hpos,hi,ha,hbytes⟩
  · refine ⟨false,S',by rw [System.fsutilWrite,ht,Option.bind_some,FileStore.write_missing hno],?_⟩
    rw [FileStore.write_missing hno,hno]
    exact ⟨h',fun hc => absurd hc Bool.false_ne_true⟩
  have hint := h.ints name
  obtain ⟨ok,b',S',hb',hwr,hS',htab,hof,hmax⟩ := hS₁.fileWrite hf buffer (by rw [hpos]; exact h0) (by rw [hpos]; exact hint.2) h1 hs.2 hb
  obtain rfl := Option.some.inj ((hfile.symm.trans (hst.files name).symm).trans hb')
  rw [Int.toNat_natCast,terminated_take (by omega) (by omega),← htext,hpos] at hof
  rw [hpos] at htab hmax
  have hother : ∀ other, other ≠ name → S'.position other = F.position other := fun other hne => by
    rw [← hst.position,System.position,System.getFileByFname,htab,System.position,System.getFileByFname]
    exact congrArg (fun r => ((Option.map FileTableEntry.f r).map File.pos).getD 0)
      (Keyed.lookup_update_ne (a := (⟨name,_⟩ : FileTableEntry)) hne)
  have hself := fileWrite_table hf htab
  rw [System.fsutilWrite,ht,Option.bind_some]
  dsimp only
  rw [hwr]
  cases ok with
  | false =>
    rw [if_neg Bool.false_ne_true,wrap32_of_mem (by omega) (by have := hint.2; omega)] at hself
    refine ⟨false,S',by rw [FileStore.write_refused hfile]; rfl,?_⟩
    rw [FileStore.write_refused hfile]
    refine ⟨⟨⟨live,hS'⟩,fun other => ?_,fun other => ?_,fun other => ?_⟩,fun _ => ⟨_,getFile_update hf htab⟩⟩
    · rw [hof,if_neg Bool.false_ne_true,FileStore.move_files,hst.files]
      split
      · next hc => rw [hc,hfile]
      · rfl
    · rw [FileStore.move_position]
      split
      · next hc =>
        rw [hc,hself]
        omega
      · next hc => exact hother other hc
    · rw [FileStore.move_position]
      split
      · exact ⟨by omega,by have := hint.2; omega⟩
      · exact h.ints other
  | true =>
    have hroom := hmax rfl
    rw [if_pos rfl,wrap32_of_mem (by omega) (by omega)] at hself
    have hdone := FileStore.write_done hfile (by rw [hlen]; exact hroom)
    refine ⟨true,S',by rw [hdone,hlen]; rfl,?_⟩
    rw [hdone]
    refine ⟨⟨⟨live,hS'⟩,fun other => ?_,fun other => ?_,fun other => ?_⟩,fun _ => ⟨_,getFile_update hf htab⟩⟩
    · rw [hof,if_pos rfl,FileStore.move_files,FileStore.put_files,hst.files]
    · rw [FileStore.move_position]
      split
      · next hc =>
        rw [hc,hself,hlen]
        omega
      · next hc => exact hother other hc
    · rw [FileStore.move_position]
      split
      · rw [hlen]
        exact ⟨by omega,by omega⟩
      · exact h.ints other

/-- `seek`. -/
theorem Stands.seek (h : Stands S F) (hn : PlainName name) {offset : ℤ} (hi : IsInt offset) :
    (F.files name = none ∧ ∃ S', S.fsutilSeek name offset = some (-1,S') ∧ Stands S' F) ∨
    ((F.files name).isSome ∧ ∃ S', S.fsutilSeek name offset = some (0,S') ∧ Stands S' (F.move name offset)) := by
  rcases h.tableFile hn with ⟨hno,S',ht,h'⟩ | ⟨b,f,i,S₁,live,hfile,ht,hst,hS₁,hf,-⟩
  · exact .inl ⟨hno,S',by rw [System.fsutilSeek,ht]; rfl,h'⟩
  · refine .inr ⟨by rw [hfile]; rfl,S₁.setFile name { f with pos := offset },?_,hst.setFile (g := { f with pos := offset }) hf rfl hi⟩
    rw [System.fsutilSeek,ht,Option.bind_some]
    dsimp only
    rw [System.fileSeek,hf]
    rfl

/-- `read`. -/
theorem Stands.read (h : Stands S F) (hn : PlainName name) (h0 : 0 ≤ F.position name) (size : ℤ) :
    (F.files name = none ∧ ∃ S', S.fsutilRead name size = some (none,S') ∧ Stands S' F) ∨
    ∃ b S', F.files name = some b ∧
      S.fsutilRead name size = some (some ((b.drop (F.position name).toNat).take size.toNat),S') ∧
      Stands S' (F.move name (F.position name + ((b.drop (F.position name).toNat).take size.toNat).length)) := by
  have hint := h.ints name
  rcases h.tableFile hn with ⟨hno,S',ht,h'⟩ | ⟨b,f,i,S₁,live,hfile,ht,hst,hS₁,hf,hpos,hi,ha,hbytes⟩
  · exact .inl ⟨hno,S',by rw [System.fsutilRead,ht]; rfl,h'⟩
  have hread : S₁.readAt i.addr size f.pos = _ := hS₁.intact.readAt hi (by rw [hpos]; exact h0) (by rw [hpos]; exact hint.2)
  rw [hbytes,hpos] at hread
  obtain ⟨got,hgot⟩ : ∃ got, got = (b.drop (F.position name).toNat).take size.toNat := ⟨_,rfl⟩
  rw [← hgot] at hread
  have hle := hS₁.length_fileOf_le ((hst.files name).trans hfile)
  have hlen : F.position name + got.length < 2147483648 := by
    have hl : got.length ≤ b.length - (F.position name).toNat := by
      rw [hgot,List.length_take,List.length_drop]
      omega
    have := hint.2
    omega
  have hwrap : wrap32 (F.position name + got.length) = F.position name + got.length := wrap32_of_mem (by omega) hlen
  have hset := hst.setFile (g := { f with pos := F.position name + got.length }) hf rfl ⟨by dsimp only; omega,hlen⟩
  have hrun : S.fsutilRead name size = some (some got,S₁.setFile name { f with pos := F.position name + got.length }) := by
    rw [System.fsutilRead,ht,Option.bind_some]
    dsimp only
    rw [System.fileRead,hf,Option.bind_some,ha,hpos,hread,Option.map_some,Option.map_some,hwrap]
  subst hgot
  exact .inr ⟨b,_,hfile,hrun,hset⟩

/-- `size`. -/
theorem Stands.length (h : Stands S F) (hn : PlainName name) :
    ∃ S', S.fsutilSize name = some (((F.files name).map fun b => (b.length : ℤ)).getD (-1),S') ∧ Stands S' F := by
  rcases h.tableFile hn with ⟨hno,S',ht,h'⟩ | ⟨b,f,i,S₁,live,hfile,-⟩
  · exact ⟨S',by rw [System.fsutilSize,ht,hno]; rfl,h'⟩
  · obtain ⟨live,hS⟩ := h.session
    obtain ⟨s,hs,hb⟩ := Option.map_eq_some_iff.mp ((h.files name).trans hfile)
    obtain ⟨-,-,S',hsize,hS',hu,-⟩ := hS.fsutilSize hs
    refine ⟨S',?_,h.of_unmoved hS' hu⟩
    rw [hsize,hfile,hb]
    rfl

/-- `rm`. -/
theorem Stands.rm (h : Stands S F) (hn : PlainName name) :
    ∃ S', S.fsutilRm name = some ((F.files name).isSome,S') ∧ Stands S' (F.remove name) := by
  obtain ⟨live,hS⟩ := h.session
  obtain ⟨ok,live',S',hrm,hS',htab,hof,-,hok,-⟩ := hS.fsutilRm hn.no_slash
  rw [h.files] at hok
  refine ⟨S',by rw [hrm,hok],⟨live',hS'⟩,fun other => ?_,fun other => ?_,fun other => ?_⟩
  · rw [hof,FileStore.remove_files,h.files]
  · rw [FileStore.remove_position,System.position,System.getFileByFname,htab]
    split
    · next hc =>
      rw [hc,Keyed.lookup_remove_self]
      rfl
    · next hc =>
      rw [Keyed.lookup_remove_ne hc,← h.position]
      rfl
  · rw [FileStore.remove_position]
    split
    · exact ⟨by decide,by decide⟩
    · exact h.ints other

/-- The loop of `cat` reads the file once, and then nothing more. -/
theorem Session.catLoop (h : Session S live none) (hf : S.getFileByFname name = some { f with pos := 0 }) {i : Inode}
    (hi : i ∈ S.openInodes) (ha : f.inode = i.addr) : ∃ pos : ℤ, S.catLoop name (S.bytes i.sector).length ((S.bytes i.sector).length + 1) [] =
      some (S.bytes i.sector,S.setFile name { f with pos := pos }) := by
  have hread : ∀ {T : System} {p : ℤ} {g : File} (n : ℤ), Session T live none → T.getFileByFname name = some { g with pos := p } →
      i ∈ T.openInodes → g.inode = i.addr → 0 ≤ p → p < 2147483648 → T.fileRead name n = some (((T.bytes i.sector).drop p.toNat).take n.toNat,
        T.setFile name { g with pos := wrap32 (p + (((T.bytes i.sector).drop p.toNat).take n.toNat).length) }) := by
    intro T p g n hT hg hiT hga h0 hp
    have hr : T.readAt i.addr n p = _ := hT.intact.readAt hiT h0 hp
    rw [System.fileRead,hg,Option.bind_some]
    dsimp only
    rw [hga,hr,Option.map_some]
  obtain ⟨b,hb⟩ : ∃ b, b = S.bytes i.sector := ⟨_,rfl⟩
  have hone := hread b.length h hf hi ha (by decide) (by decide)
  rw [← hb,Int.toNat_zero,List.drop_zero,Int.toNat_natCast,List.take_length] at hone
  rw [← hb,System.catLoop,hone,Option.bind_some]
  by_cases hnil : b.length = 0
  · rw [List.length_eq_zero_iff.mp hnil]
    exact ⟨_,rfl⟩
  dsimp only
  rw [if_neg hnil]
  obtain ⟨n,hn⟩ := Nat.exists_eq_succ_of_ne_zero hnil
  have hle : b.length ≤ 8517120 := by
    obtain ⟨j,hj,haj,he,-⟩ := h.table_file hf
    obtain rfl := h.intact.addr_inj hi hj (ha.symm.trans haj)
    exact @Session.length_fileOf_le S live none name b h (by rw [System.fileOf,he,Option.map_some,hb])
  have hset := h.setFile (g := { f with pos := wrap32 (0 + b.length) }) hf rfl
  have hwrap : wrap32 (0 + b.length) = b.length := by rw [zero_add,wrap32_of_mem (by omega) (by omega)]
  have htwo := hread (g := f) b.length hset (System.getFileByFname_setFile hf) hi ha (by rw [hwrap]; omega) (by rw [hwrap]; omega)
  have hsame : (S.setFile name { f with pos := wrap32 (0 + b.length) }).bytes i.sector = b := hb.symm
  rw [hsame,hwrap,Int.toNat_natCast,List.drop_length,List.take_nil] at htwo
  rw [hn] at htwo
  rw [hwrap,hn,System.catLoop,htwo,Option.bind_some,setFile_setFile]
  exact ⟨_,rfl⟩

/-- `cat`. A file that was closed is closed again. -/
theorem Stands.cat (h : Stands S F) (hn : PlainName name) : ∃ S', S.fsutilCat name = some (F.files name,S') ∧ Stands S' F := by
  rcases h.tableFile hn with ⟨hno,S',ht,h'⟩ | ⟨b,f,i,S₁,live,hfile,ht,hst,hS₁,hf,hpos,hi,ha,hbytes⟩
  · exact ⟨S',by rw [System.fsutilCat,ht,hno]; rfl,h'⟩
  have hf₀ : (S₁.setFile name { f with pos := 0 }).getFileByFname name = some { f with pos := 0 } := System.getFileByFname_setFile hf
  have hS₀ := hS₁.setFile (g := { f with pos := 0 }) hf rfl
  obtain ⟨pos,hloop⟩ := Session.catLoop hS₀ hf₀ hi ha
  have hb₀ : (S₁.setFile name { f with pos := 0 }).bytes i.sector = b := hbytes
  rw [hb₀,setFile_setFile] at hloop
  have hlen : i.data.length = b.length := by
    have hl := hS₁.intact.length_bytes hi
    have hnn := (hS₁.intact.openOk hi).file.sized.nonneg
    rw [hbytes] at hl
    omega
  have hstart : S₁.fileSeek name 0 = some (S₁.setFile name { f with pos := 0 }) := by rw [System.fileSeek,hf,Option.map_some]
  have hlength : (S₁.setFile name { f with pos := 0 }).fileLength f = some (b.length : ℤ) := by
    have hat : (S₁.setFile name { f with pos := 0 }).inodeAt i.addr = some i := hS₀.intact.inodeAt_eq hi
    rw [System.fileLength,ha]
    rw [ha] at hat
    rw [hat,Option.map_some,hlen]
  have hback : (S₁.setFile name { f with pos := pos }).fileSeek name f.pos = some S₁ := by
    rw [System.fileSeek,System.getFileByFname_setFile hf,Option.map_some,setFile_setFile]
    exact congrArg some (hS₁.setFile_self hf)
  have hrun : S.fsutilCat name = if (S.getFileByFname name).isNone then (S₁.removeFromFileTable name).map fun c => (some b,c.2)
      else some (some b,S₁) := by
    rw [System.fsutilCat]
    rw [ht,Option.bind_some]
    dsimp only
    rw [hstart,Option.bind_some,hlength,Option.bind_some,Int.toNat_natCast,hloop,Option.bind_some,hback,Option.bind_some]
  rw [hfile,hrun]
  cases hopen : S.getFileByFname name with
  | some g => exact ⟨S₁,rfl,hst⟩
  | none =>
    obtain ⟨ok,S',hrm,hS',hbytes',hvol,htab⟩ := hS₁.removeFromFileTable name
    have hzero : F.position name = 0 := by
      rw [← h.position,System.position,hopen]
      rfl
    refine ⟨S',?_,⟨live,hS'⟩,fun other => ?_,fun other => ?_,h.ints⟩
    · rw [Option.isNone_none,if_pos rfl,hrm,Option.map_some]
    · rw [← hst.files]
      exact hS₁.fileOf_congr (by rw [System.entries,hbytes',System.entries]) fun p _ _ => hbytes' p
    · rw [System.position,System.getFileByFname,htab]
      by_cases hc : other = name
      · rw [hc,Keyed.lookup_remove_self,hzero]
        rfl
      · rw [Keyed.lookup_remove_ne hc,← hst.position]
        rfl

/-- `fragmentation_degree`. -/
theorem Stands.fragmentationDegree (h : Stands S F) :
    ∃ l S', S.fragmentationDegree = some (l,S') ∧ l.acc.1 = F.fragmentable.card ∧ Stands S' F := by
  obtain ⟨live,hS⟩ := h.session
  obtain ⟨S',hrun,hS',hu⟩ := hS.fragmentationDegree
  refine ⟨_,S',hrun,?_,h.of_unmoved hS' hu⟩
  have hcount : ∀ name ∈ nameList (S.entries rootDirSector), (decide (2 ≤ (S.sectorList name).length) = true ↔
      decide (2 ≤ bytesToSectors ((F.files name).getD []).length) = true) := fun name hname => by
    obtain ⟨b,hb⟩ := (hS.names.2 name).mp hname
    have hlen := (hS.sectorList hb).1
    rw [← h.files,hb,Option.getD_some,hlen]
  rw [FileStore.fragmentable,Finset.card,Finset.filter_val,← h.names hS,Multiset.filter_coe,Multiset.coe_card,← List.countP_eq_length_filter]
  exact List.countP_congr hcount

/-- `ls`. -/
theorem Stands.ls (h : Stands S F) : ∃ l S', S.fsutilLs = some (l,S') ∧ (l.seen : Multiset CString) = F.names.val ∧ Stands S' F := by
  obtain ⟨live,hS⟩ := h.session
  obtain ⟨S',hrun,hS',hu⟩ := hS.overRoot (f := fun _ _ => ()) () fun name _ _ T d hT hu => ⟨T,rfl,hT,hu⟩
  exact ⟨_,S',hrun,h.names hS,h.of_unmoved hS' hu⟩

/-- `find_file`. -/
theorem Stands.find (h : Stands S F) {words : List CString} (hw : words ≠ []) (h0 : ∀ w ∈ words, (0 : UInt8) ∉ w) :
    ∃ l S', S.findCommand words = some (l,S') ∧ (l.acc : Multiset CString) = (F.matching (joinTokens 32 words)).val ∧ Stands S' F := by
  obtain ⟨live,hS⟩ := h.session
  obtain ⟨hzero,htext⟩ := text_writeBuffer h0
  obtain ⟨l,S',hrun,hS',hu,hnodup,hmem⟩ := hS.findCommand hw h0
  refine ⟨l,S',hrun,?_,h.of_unmoved hS' hu⟩
  refine (Multiset.Nodup.ext (Multiset.coe_nodup.mpr hnodup) (F.matching _).nodup).mpr fun name => ?_
  rw [Multiset.mem_coe,hmem,Finset.mem_val,FileStore.matching,Finset.mem_filter,F.mem_names,h.files,infix_text_iff hzero,
    Option.isSome_iff_exists]
  constructor
  · rintro ⟨b,hb,hin⟩
    exact ⟨⟨b,hb⟩,by rwa [hb]⟩
  · rintro ⟨⟨b,hb⟩,hin⟩
    rw [hb] at hin
    exact ⟨b,hb,hin⟩

/-- `copy_out`. -/
theorem Stands.copyOut (h : Stands S F) (hn : PlainName name) :
    (F.files name = none ∧ ∃ S', S.copyOut name = some (.error 1,S') ∧ Stands S' F) ∨
    ∃ b S', F.files name = some b ∧ S.copyOut name = some (.ok (text b),S') ∧ Stands S' F := by
  cases hb : F.files name with
  | none =>
    obtain ⟨S',hsize,h'⟩ := h.length hn
    rw [hb] at hsize
    exact .inl ⟨rfl,S',by rw [System.copyOut,hsize]; rfl,h'⟩
  | some b =>
    obtain ⟨live,hS⟩ := h.session
    obtain ⟨S',hout,hS',hu⟩ := hS.copyOut ((h.files name).trans hb)
    exact .inr ⟨b,S',rfl,hout,h.of_unmoved hS' hu⟩

/-- `defragment`. -/
theorem Stands.defragment (h : Stands S F) (hne : ∀ name ∈ F.names, F.files name ≠ some []) :
    ∃ r S', S.defragment = some (r,S') ∧ Stands S' F.settle := by
  obtain ⟨live,hS⟩ := h.session
  obtain ⟨r,live',S',hd,hS',hof,hpos⟩ := hS.defragment fun name hc => by
    rw [h.files] at hc
    exact hne name ((F.mem_names name).mpr (by rw [hc]; rfl)) hc
  refine ⟨r,S',hd,⟨live',hS'⟩,fun name => ?_,hpos,fun _ => (⟨by decide,by decide⟩ : IsInt 0)⟩
  rw [hof,h.files]
  rfl

theorem create_position (room : Bool) (name : CString) (size : ℤ) (F : FileStore) : (F.create room name size).2.position = F.position := by
  unfold FileStore.create
  split
  · rfl
  · rfl

/-- `copy_in` of a host file from which something is copied. -/
theorem Stands.copyIn (h : Stands S F) (hn : PlainName name) {contents : List UInt8} {c : ℕ} (hc : S.copySize contents.length = c)
    (h0 : 0 < c) (hlt : (c : ℤ) + 1 < 2147483648) (hpos : 0 ≤ F.position name) : ∃ room,
      ((F.create room name c).2.files name = none ∧ S.copyIn name (some contents) = none) ∨
      ((F.create room name c).2.files name).isSome ∧ ∃ room' S', S.copyIn name (some contents) = some (0,S') ∧
        Stands S' (((F.create room name c).2.write room' name (copied c contents ++ [0])).2.move name 0) := by
  have hint : IsInt (c : ℤ) := ⟨by omega,by omega⟩
  obtain ⟨room,S₁,hcr,h₁⟩ := h.create hn hint
  have hposG := create_position room name c F
  obtain ⟨G,hG⟩ : ∃ G, G = (F.create room name c).2 := ⟨_,rfl⟩
  refine ⟨room,?_⟩
  rw [← hG] at h₁ hposG ⊢
  have heq := System.copyIn_eq name S contents hc h0
  rw [hcr,Option.bind_some] at heq
  dsimp only at heq
  cases hb : G.files name with
  | none =>
    obtain ⟨live,hS₁⟩ := h₁.session
    exact .inl ⟨rfl,heq.trans (hS₁.fill_missing hn ((h₁.files name).trans hb) _ _)⟩
  | some b =>
    obtain ⟨text,htext⟩ : ∃ text, text = copied c contents ++ [0] := ⟨_,rfl⟩
    have hlen : text.length = c + 1 := by
      rw [htext,List.length_append,length_copied,List.length_singleton]
    have htake : closeText (text.take ((c : ℤ) + 1).toNat) = text := by
      rw [List.take_of_length_le (by omega),closeText_eq]
      rw [htext,List.getLast?_concat]
    rw [← htext] at heq ⊢
    obtain ⟨room',S₂,hwr,h₂,hget⟩ := h₁.write hn (by omega : (1 : ℤ) ≤ (c : ℤ) + 1) ⟨by omega,hlt⟩ (by omega : (c : ℤ) + 1 ≤ text.length)
      (by rw [hposG]; exact hpos)
    rw [htake] at hwr h₂
    obtain ⟨g,hg⟩ := hget (by rw [hb]; rfl)
    refine .inr ⟨rfl,room',S₂.setFile name { g with pos := 0 },?_,h₂.setFile (g := { g with pos := 0 }) hg rfl (⟨by decide,by decide⟩ : IsInt 0)⟩
    rw [heq,System.fill,hwr,Option.bind_some,System.fileSeek,hg]
    rfl

/-! ### Refinement -/

end
end ShellOS.Fs
