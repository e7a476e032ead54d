import ShellOS.Lib.CString

/-! The backing store: every script started with `run` or `exec` is copied to a file whose name is
made of the script's name and a counter. Which file a name stands for is up to the host. -/
namespace ShellOS.Shell
open CLib

/-- An argument of `run` or `exec`, and what the file of this name holds, if there is one. -/
structure Launch where
  script : CString
  contents : Option CString

/-- What happens to the backing store. The a3 shell empties it when a `run` or `exec` ends. -/
inductive Event
  | launch (l : Launch)
  | clean

/-- `sprintf("%d", n)`. -/
def decimal (n : ℕ) : CString :=
  if n = 0 then [48] else (Nat.digits 10 n).reverse.map fun d => UInt8.ofNat (48 + d)

/-- The scripts of a session for which a name is built. -/
def launched (always : Bool) : List Event → List CString
  | [] => []
  | .launch l::evs => (if l.contents = none ∧ always = false then [] else [l.script]) ++ launched always evs
  | .clean::evs => launched always evs

/-! ### File names on the host -/

/-- The part of a path up to its last slash. -/
def dirPart (path : CString) : CString := (path.reverse.dropWhile (· != 47)).reverse

/-- The part of a path behind its last slash. -/
def baseName (path : CString) : CString := (path.reverse.takeWhile (· != 47)).reverse

/-- The host as a launch finds it: the working directory, which paths are those of directories, and
what `sh` makes of a word of a command line, if it stays one word. -/
structure Host where
  cwd : List CString
  isDir : List CString → Bool
  word : CString → Option CString

/-- One component of a path, looked up in a directory. -/
def Host.enter (host : Host) (dir : List CString) (name : CString) : Option (List CString) :=
  if name = [] ∨ name = cstr "." then some dir
  else if name = cstr ".." then some dir.dropLast
  else if host.isDir (dir ++ [name]) then some (dir ++ [name])
  else none

/-- The directory that a path leads to. -/
def Host.directory (host : Host) (path : CString) : Option (List CString) :=
  ((dirPart path).splitOn 47).foldlM host.enter (if path.head? = some 47 then [] else host.cwd)

/-- The file that a path stands for: the names of its directories from the root on, and its own. -/
def Host.locate (host : Host) (path : CString) : Option (List CString) :=
  (host.directory path).map (· ++ [baseName path])

/-! ### The copies -/

/-- The counter that goes into the names, and the files written: which launch wrote each of them, and
what it holds. -/
structure Store where
  counter : ℕ
  files : List CString → Option (ℕ × CString)

/-- Both counters begin with 1. -/
def Store.start : Store := ⟨1,fun _ => none⟩

/-- The ways in which the two shells differ: what the counter adds to a name, whether a script that
does not exist counts, the byte at which the copy ends, and the path under which it is written. -/
structure Copying where
  tag : ℕ → CString
  always : Bool
  eof : Option UInt8
  word : Host → CString → Option CString

/-- `cp = fopen(newfile, "w")`, and a `char` that is compared with `EOF`. -/
def byChar : Copying := ⟨decimal,false,some 255,fun _ => some⟩

/-- The path of a script's copy, before the counter is added. -/
def storePath (script : CString) : CString := cstr "./backing_store/" ++ script

namespace Copying
variable (k : Copying)

/-- Nothing is done for this launch. -/
def Skips (l : Launch) : Prop := l.contents = none ∧ k.always = false

instance (l : Launch) : Decidable (k.Skips l) := inferInstanceAs (Decidable (_ ∧ _))

/-- The new file's name is the script's name followed by the tag of the counter. -/
def newName (count : ℕ) (script : CString) : CString := storePath script ++ k.tag count

/-- The file that the copy of a script goes to. There is none where a directory is in its place. -/
def target (host : Host) (count : ℕ) (script : CString) : Option (List CString) :=
  ((k.word host (k.newName count script)).bind host.locate).filter fun file => !host.isDir file

/-- The bytes of a script that are copied. -/
def copied (c : CString) : CString := c.takeWhile fun b => some b != k.eof

/-- The files once the script of a launch, if it exists, has been copied. -/
def copy (host : Host) (count : ℕ) (l : Launch) (files : List CString → Option (ℕ × CString)) :
    List CString → Option (ℕ × CString) :=
  match l.contents,k.target host count l.script with
  | some c,some file => Function.update files file (some (count,k.copied c))
  | _,_ => files

/-- A script is given a name and copied. `host` is the host at each launch. -/
def prepare (host : ℕ → Host) (l : Launch) (st : Store) : Option CString × Store :=
  if k.Skips l then (none,st)
  else (some (k.newName st.counter l.script),⟨st.counter + 1,k.copy (host st.counter) st.counter l st.files⟩)

end Copying

/-- The a2 shell, in `process_initialize`. -/
def processInitialize : (ℕ → Host) → Launch → Store → Option CString × Store := byChar.prepare

section
variable (home : List CString)

/-- `rm -rf %s/backing_store`, where `home` is the directory `cwd`. -/
def Swept (file : List CString) : Prop := home ++ [cstr "backing_store"] <+: file

instance (file : List CString) : Decidable (Swept home file) := inferInstanceAs (Decidable (_ <+: _))

/-- What the events leave of a file. -/
def Removed (evs : List Event) (file : List CString) : Prop := .clean ∈ evs ∧ Swept home file

variable (prep : Launch → Store → Option CString × Store)

def Event.apply (st : Store) : Event → Store
  | launch l => (prep l st).2
  | clean => { st with files := fun file => if Swept home file then none else st.files file }

def session (evs : List Event) (st : Store) : Store := evs.foldl (Event.apply home prep) st

end

/-! ### Names -/

theorem dirPart_append {tag : CString} (h : 47 ∉ tag) (path : CString) : dirPart (path ++ tag) = dirPart path := by
  have htag : ∀ b ∈ tag.reverse, (b != 47) = true := fun b hb => by
    rw [bne_iff_ne]
    exact fun he => h (he ▸ List.mem_reverse.mp hb)
  rw [dirPart,List.reverse_append,List.dropWhile_append_of_pos htag,dirPart]

theorem baseName_append {tag : CString} (h : 47 ∉ tag) (path : CString) :
    baseName (path ++ tag) = baseName path ++ tag := by
  have htag : ∀ b ∈ tag.reverse, (b != 47) = true := fun b hb => by
    rw [bne_iff_ne]
    exact fun he => h (he ▸ List.mem_reverse.mp hb)
  rw [baseName,List.reverse_append,List.takeWhile_append_of_pos htag,List.reverse_append,List.reverse_reverse,baseName]

/-- The copy is in the directory of the path without the tag, and the tag goes to the end of its name. -/
theorem locate_storePath {tag : CString} (h : 47 ∉ tag) (host : Host) (script : CString) :
    host.locate (storePath script ++ tag) =
      (host.directory (storePath script)).map (· ++ [baseName (storePath script) ++ tag]) := by
  have hhead : (storePath script ++ tag).head? = (storePath script).head? := rfl
  rw [Host.locate,Host.directory,dirPart_append h,baseName_append h,hhead,Host.directory]

section
variable {k : Copying} {home : List CString} {host : ℕ → Host}

/-! ### What a session does to the counter and to the files -/

theorem launched_skip {l : Launch} (h : k.Skips l) (evs : List Event) :
    launched k.always (.launch l::evs) = launched k.always evs := by
  rw [launched,if_pos (show l.contents = none ∧ k.always = false from h),List.nil_append]

theorem launched_launch {l : Launch} (h : ¬ k.Skips l) (evs : List Event) :
    launched k.always (.launch l::evs) = l.script::launched k.always evs := by
  rw [launched,if_neg (show ¬ (l.contents = none ∧ k.always = false) from h),List.singleton_append]

theorem session_append (before after : List Event) (st : Store) : session home (k.prepare host) (before ++ after) st =
    session home (k.prepare host) after (session home (k.prepare host) before st) := List.foldl_append

theorem prepare_counter {l : Launch} (h : ¬ k.Skips l) (st : Store) : (k.prepare host l st).2.counter = st.counter + 1 := by
  rw [Copying.prepare,if_neg h]

theorem session_counter (evs : List Event) (st : Store) :
    (session home (k.prepare host) evs st).counter = st.counter + (launched k.always evs).length := by
  induction evs generalizing st with
  | nil => rfl
  | cons e evs ih =>
    cases e with
    | clean => exact ih _
    | launch l =>
      refine (ih _).trans ?_
      rw [Event.apply]
      by_cases h : k.Skips l
      · rw [launched_skip h,Copying.prepare,if_pos h]
      · rw [launched_launch h,prepare_counter h,List.length_cons]
        omega

theorem launched_append (always : Bool) (before after : List Event) :
    launched always (before ++ after) = launched always before ++ launched always after := by
  induction before with
  | nil => rfl
  | cons e before ih =>
    cases e with
    | clean => exact ih
    | launch l => rw [List.cons_append,launched,launched,ih,List.append_assoc]

/-- The launch writes this file when it is the one numbered `count`. -/
def Writes (k : Copying) (host : ℕ → Host) (count : ℕ) (l : Launch) (file : List CString) : Prop :=
  l.contents ≠ none ∧ k.target (host count) count l.script = some file

theorem Writes.not_skips {count : ℕ} {l : Launch} {file : List CString} (h : Writes k host count l file) :
    ¬ k.Skips l := fun hs => h.1 hs.1

/-- A launch writes one file and leaves the others. -/
theorem prepare_files_of_not {l : Launch} {st : Store} {file : List CString} (h : ¬ Writes k host st.counter l file) :
    (k.prepare host l st).2.files file = st.files file := by
  unfold Copying.prepare
  split_ifs with hskip
  · rfl
  · change k.copy _ _ _ _ file = _
    rw [Copying.copy]
    cases hc : l.contents with
    | none => rfl
    | some c =>
      cases ht : k.target (host st.counter) st.counter l.script with
      | none => rfl
      | some written =>
        have hne : file ≠ written := fun he => h ⟨by simp [hc],by rw [ht,he]⟩
        exact Function.update_of_ne hne _ _

theorem prepare_files {l : Launch} {st : Store} {file : List CString} {c : CString} (hc : l.contents = some c)
    (ht : k.target (host st.counter) st.counter l.script = some file) :
    (k.prepare host l st).2.files file = some (st.counter,k.copied c) := by
  have hskip : ¬ k.Skips l := fun hs => by simp [hs.1] at hc
  rw [Copying.prepare,if_neg hskip]
  change k.copy _ _ _ _ file = _
  rw [Copying.copy,hc,ht]
  exact Function.update_self _ _ _

theorem Removed.mono {before after evs : List Event} {file : List CString} (h : Removed home evs file) :
    Removed home (before ++ (evs ++ after)) file :=
  ⟨List.mem_append_right _ (List.mem_append_left _ h.1),h.2⟩

/-- A file stays as it is where no launch writes it and no cleaning removes it. -/
theorem session_files_of_not (evs : List Event) (st : Store) {file : List CString} (hkeep : ¬ Removed home evs file)
    (h : ∀ before l after, evs = before ++ .launch l::after →
      ¬ Writes k host (session home (k.prepare host) before st).counter l file) :
    (session home (k.prepare host) evs st).files file = st.files file := by
  induction evs generalizing st with
  | nil => rfl
  | cons e evs ih =>
    have hrest : (session home (k.prepare host) evs (Event.apply home (k.prepare host) st e)).files file =
        (Event.apply home (k.prepare host) st e).files file := by
      refine ih _ (fun hr => hkeep ⟨List.mem_cons_of_mem _ hr.1,hr.2⟩) fun before l after he => ?_
      exact h (e::before) l after (by rw [he]; rfl)
    refine hrest.trans ?_
    cases e with
    | clean =>
      have hswept : ¬ Swept home file := fun hs => hkeep ⟨List.mem_cons_self,hs⟩
      exact if_neg hswept
    | launch l => exact prepare_files_of_not (h [] l evs rfl)

/-- What stands in a file was written by a launch of the session, and not removed since. -/
theorem exists_writer (evs : List Event) {file : List CString} {count : ℕ} {text : CString}
    (h : (session home (k.prepare host) evs .start).files file = some (count,text)) :
    ∃ before l after, evs = before ++ .launch l::after ∧
      count = (session home (k.prepare host) before .start).counter ∧ Writes k host count l file ∧
      ¬ Removed home after file := by
  induction evs using List.reverseRecOn with
  | nil => exact absurd h (by simp [session,Store.start])
  | append_singleton evs e ih =>
    rw [session_append] at h
    have hold : (session home (k.prepare host) evs .start).files file = some (count,text) →
        ¬ Removed home [e] file → ∃ before l after, evs ++ [e] = before ++ .launch l::after ∧
          count = (session home (k.prepare host) before .start).counter ∧ Writes k host count l file ∧
          ¬ Removed home after file := by
      intro hf hlast
      obtain ⟨before,l,after,he,hc,hw,hkeep⟩ := ih hf
      refine ⟨before,l,after ++ [e],by rw [he]; simp,hc,hw,fun hr => ?_⟩
      rcases List.mem_append.mp hr.1 with hm | hm
      · exact hkeep ⟨hm,hr.2⟩
      · exact hlast ⟨hm,hr.2⟩
    cases e with
    | clean =>
      have hclean : (if Swept home file then none else (session home (k.prepare host) evs .start).files file) =
          some (count,text) := h
      by_cases hs : Swept home file
      · rw [if_pos hs] at hclean
        exact absurd hclean (by simp)
      · rw [if_neg hs] at hclean
        exact hold hclean fun hr => hs hr.2
    | launch l =>
      have hnot : ¬ Removed home [.launch l] file := by simp [Removed]
      by_cases hw : Writes k host (session home (k.prepare host) evs .start).counter l file
      · obtain ⟨c,hc⟩ := Option.ne_none_iff_exists'.mp hw.1
        have hf := h.symm.trans (prepare_files hc hw.2)
        obtain ⟨rfl,-⟩ := Prod.mk.inj (Option.some.inj hf)
        exact ⟨evs,l,[],rfl,rfl,hw,by simp [Removed]⟩
      · exact hold ((prepare_files_of_not hw).symm.trans h) hnot

end

end ShellOS.Shell
