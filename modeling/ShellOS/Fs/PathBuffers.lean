import ShellOS.Fs.Paths
import ShellOS.Lib.Buffer

/-! `split_path_filename` writes into arrays that its callers make. -/
namespace ShellOS.Fs
open CLib Runs
variable {path : CString} {size : ℕ}

/-- An array with nothing in it but the terminator. -/
def emptyBuffer (size : ℕ) : Option (Buffer size) := if h : 0 < size then some ⟨[],h⟩ else none

/-- The loop over the tokens: each token is held back until the next one, and then put into the
directory with a slash behind it. -/
def splitLoop : List CString → CString → Buffer size → Option (Buffer size × CString)
  | [],lastToken,directory => some (directory,lastToken)
  | token::tokens,lastToken,directory =>
    (if lastToken = [] then some directory else (directory.strcat lastToken).bind (·.strcat [47])).bind
      (splitLoop tokens token)

/-- `split_path_filename` into two arrays of so many bytes, `none` where it writes past the end of
one of them. The terminator comes last, so what is written before it fits if all of it does. -/
def splitInto (size : ℕ) (path : CString) : Option (Buffer size × Buffer size) :=
  (emptyBuffer size).bind fun empty =>
    (if path.head? = some 47 then empty.strcat [47] else some empty).bind fun directory =>
      (splitLoop (pathTokens path) [] directory).bind fun r =>
        (empty.strcat r.2).map fun fileName => (r.1,fileName)

/-- The call in `filesys_create`. -/
def createSplit (path : CString) : Option (Buffer path.length × Buffer path.length) := splitInto path.length path

/-- The call in `filesys_open`. -/
def openSplit (path : CString) : Option (Buffer (path.length + 1) × Buffer (path.length + 1)) :=
  splitInto (path.length + 1) path

/-- The call in `filesys_remove`. -/
def removeSplit (path : CString) : Option (Buffer path.length × Buffer path.length) := splitInto path.length path

/-! ### What is written -/

theorem emptyBuffer_eq_some_iff {b : Buffer size} : emptyBuffer size = some b ↔ b.text = [] := by
  unfold emptyBuffer
  split
  · exact ⟨fun h => by rw [← Option.some.inj h],fun h => congrArg some (Buffer.text_injective h.symm)⟩
  · refine iff_of_false (by simp) fun _ => ?_
    have := b.fits
    omega

theorem root_eq_some_iff {empty b : Buffer size} :
    (if path.head? = some 47 then empty.strcat [47] else some empty) = some b ↔ b.text = empty.text ++ rootSlash path := by
  unfold rootSlash
  split
  · exact Buffer.strcat_eq_some_iff
  · rw [List.append_nil]
    exact ⟨fun h => by rw [← Option.some.inj h],fun h => congrArg some (Buffer.text_injective h.symm)⟩

theorem splitLoop_held {tokens : List CString} {lastToken : CString} (directory : Buffer size)
    (hne : ∀ t ∈ tokens, t ≠ []) (hlast : lastToken ≠ []) : splitLoop tokens lastToken directory =
      (((lastToken::tokens).dropLast.flatMap fun t => [t,[47]]).foldlM Buffer.strcat directory).map fun d =>
        (d,(lastToken::tokens).getLast?.getD []) := by
  induction tokens generalizing lastToken directory with
  | nil => rfl
  | cons t tokens ih =>
    obtain ⟨ht,htokens⟩ := List.forall_mem_cons.mp hne
    rw [splitLoop,if_neg hlast,List.dropLast_cons_of_ne_nil (List.cons_ne_nil t tokens),List.flatMap_cons,List.foldlM_append,
      List.getLast?_cons_cons]
    cases hd : (directory.strcat lastToken).bind (·.strcat [47]) with
    | none =>
      have hparts : [lastToken,[47]].foldlM Buffer.strcat directory = none := by
        simpa using hd
      rw [hparts]
      rfl
    | some d =>
      have hparts : [lastToken,[47]].foldlM Buffer.strcat directory = some d := by
        simpa using hd
      rw [hparts]
      exact ih d htokens ht

/-- Nothing is held back before the first token. -/
theorem splitLoop_start {tokens : List CString} (directory : Buffer size) (hne : ∀ t ∈ tokens, t ≠ []) :
    splitLoop tokens [] directory = ((tokens.dropLast.flatMap fun t => [t,[47]]).foldlM Buffer.strcat directory).map
      fun d => (d,tokens.getLast?.getD []) := by
  cases tokens with
  | nil => rfl
  | cons t tokens =>
    obtain ⟨ht,htokens⟩ := List.forall_mem_cons.mp hne
    exact splitLoop_held directory htokens ht

theorem flatten_slashed (ws : List CString) : (ws.flatMap fun t => [t,[47]]).flatten = ws.flatMap (· ++ [47]) := by
  induction ws with
  | nil => rfl
  | cons w ws ih => simp [ih]

/-- Where both strings fit, the arrays hold the two parts of the path. -/
theorem splitInto_eq_some_iff {directory fileName : Buffer size} : splitInto size path = some (directory,fileName) ↔
    directory.text = (splitPathFilename path).1 ∧ fileName.text = (splitPathFilename path).2 := by
  have hne : ∀ t ∈ pathTokens path, t ≠ [] := fun t ht => (mem_pathTokens ht).1
  rw [splitPathFilename_fst,splitPathFilename_snd]
  simp only [splitInto,Option.bind_eq_some_iff,Option.map_eq_some_iff,emptyBuffer_eq_some_iff,root_eq_some_iff,
    splitLoop_start _ hne,Buffer.strcat_eq_some_iff,Buffer.foldlM_strcat_eq_some_iff,flatten_slashed,Prod.mk.injEq,
    Prod.exists]
  constructor
  · rintro ⟨empty,hempty,root,hroot,d,f,⟨d',hd,rfl,rfl⟩,g,hg,rfl,rfl⟩
    rw [hempty,List.nil_append] at hroot hg
    rw [hroot] at hd
    exact ⟨hd,hg⟩
  · rintro ⟨hd,hf⟩
    have hlen := directory.fits
    rw [hd,List.length_append] at hlen
    obtain ⟨empty,hempty⟩ := (Buffer.exists_text size []).mpr (by rw [List.length_nil]; omega)
    obtain ⟨root,hroot⟩ := (Buffer.exists_text size (rootSlash path)).mpr (by omega)
    refine ⟨empty,hempty,root,?_,directory,_,⟨directory,?_,rfl,rfl⟩,fileName,?_,rfl,rfl⟩
    · rw [hempty,hroot,List.nil_append]
    · rw [hd,hroot]
    · rw [hempty,hf,List.nil_append]

theorem splitInto_isSome_iff (size : ℕ) (path : CString) : (splitInto size path).isSome ↔
    (splitPathFilename path).1.length < size ∧ (splitPathFilename path).2.length < size := by
  constructor
  · intro h
    obtain ⟨⟨d,f⟩,hr⟩ := Option.isSome_iff_exists.mp h
    obtain ⟨hd,hf⟩ := splitInto_eq_some_iff.mp hr
    rw [← hd,← hf]
    exact ⟨d.fits,f.fits⟩
  · rintro ⟨hd,hf⟩
    exact Option.isSome_iff_exists.mpr ⟨(⟨_,hd⟩,⟨_,hf⟩),splitInto_eq_some_iff.mpr ⟨rfl,rfl⟩⟩

/-! ### How much is written -/

theorem length_slashed (ws : List CString) : (ws.flatMap (· ++ [47])).length = ws.flatten.length + ws.length := by
  induction ws with
  | nil => rfl
  | cons w ws ih =>
    rw [List.flatMap_cons,List.flatten_cons,List.length_append,List.length_append,List.length_append,ih,
      List.length_singleton,List.length_cons]
    omega

theorem rootSlash_add_runs_le (path : CString) :
    (rootSlash path).length + (pathTokens path).flatten.length + (pathTokens path).length ≤ path.length + 1 := by
  rw [pathTokens_eq_runs,rootSlash]
  have hall := length_runs_le (· == 47) path
  split
  case isTrue h =>
    obtain ⟨s,rfl⟩ := List.head?_eq_some_iff.mp h
    have hs := length_runs_le (· == (47 : UInt8)) s
    rw [runs_sep rfl,List.length_singleton,List.length_cons]
    omega
  case isFalse h =>
    rw [List.length_nil]
    omega

theorem length_rootSlash_le (path : CString) : (rootSlash path).length ≤ path.length ∧ (rootSlash path).length ≤ 1 := by
  unfold rootSlash
  split
  case isTrue h =>
    obtain ⟨s,rfl⟩ := List.head?_eq_some_iff.mp h
    exact ⟨by simp,le_rfl⟩
  case isFalse h => exact ⟨Nat.zero_le _,Nat.zero_le _⟩

/-- The normal form is no longer than the path. -/
theorem length_split_le (path : CString) :
    (splitPathFilename path).1.length + (splitPathFilename path).2.length ≤ path.length := by
  have hle := rootSlash_add_runs_le path
  rw [splitPathFilename_fst,splitPathFilename_snd,List.length_append,length_slashed]
  cases List.eq_nil_or_concat (pathTokens path) with
  | inl h =>
    rw [h]
    exact (length_rootSlash_le path).1
  | inr h =>
    obtain ⟨ts,t,ht⟩ := h
    rw [List.concat_eq_append] at ht
    rw [ht,List.flatten_append,List.flatten_singleton,List.length_append,List.length_append,List.length_singleton] at hle
    rw [ht,List.dropLast_concat,List.getLast?_concat,Option.getD_some]
    omega

theorem fileName_eq_nil {path : CString} (h : (splitPathFilename path).2 = []) :
    (splitPathFilename path).1 = rootSlash path := by
  have hruns : runs (· == 47) path = [] := by
    by_contra hne
    exact (split_path_filename_normal_form path).named hne h
  rw [splitPathFilename_fst,pathTokens_eq_runs,hruns]
  exact List.append_nil _

/-- A slash anywhere in the path is not in the file name. -/
theorem length_fileName_lt (h : 47 ∈ path) : (splitPathFilename path).2.length < path.length := by
  have hsub : (splitPathFilename path).2.length ≤ (pathTokens path).flatten.length := by
    rw [splitPathFilename_snd]
    cases hlast : (pathTokens path).getLast? with
    | none => exact Nat.zero_le _
    | some t => exact (List.sublist_flatten_of_mem (List.mem_of_getLast? hlast)).length_le
  rw [pathTokens_eq_runs,flatten_runs] at hsub
  refine hsub.trans_lt (Nat.lt_of_le_of_ne (List.length_filter_le _ _) fun he => ?_)
  have := List.length_filter_eq_length_iff.mp he 47 h
  cases this

theorem split_of_no_slash (hne : path ≠ []) (h : 47 ∉ path) : splitPathFilename path = ([],path) := by
  have hhead : path.head? ≠ some 47 := fun hc => h (List.mem_of_head? hc)
  have hruns : runs (· == 47) path = [path] := runs_run (fun a ha => beq_false_of_ne fun he => h (he ▸ ha)) hne
  rw [splitPathFilename,pathTokens_eq_runs,hruns,if_neg hhead]
  rfl

/-- In arrays as long as the path there is room for the two parts, but not always for their
terminators. -/
theorem splitInto_length_isSome_iff (hne : path ≠ []) :
    (splitInto path.length path).isSome ↔ 47 ∈ path ∧ path ≠ [47] := by
  rw [splitInto_isSome_iff]
  constructor
  · rintro ⟨hd,hf⟩
    refine ⟨?_,?_⟩
    · by_contra h
      rw [split_of_no_slash hne h] at hf
      exact lt_irrefl _ hf
    · rintro rfl
      exact absurd hd (by decide)
  · rintro ⟨h,hroot⟩
    refine ⟨?_,length_fileName_lt h⟩
    by_cases hf : (splitPathFilename path).2 = []
    · -- nothing but slashes
      rw [fileName_eq_nil hf]
      refine (length_rootSlash_le path).2.trans_lt ?_
      by_contra hc
      obtain ⟨a,rfl⟩ := List.length_eq_one_iff.mp (Nat.le_antisymm (Nat.not_lt.mp hc) (List.length_pos_of_ne_nil hne))
      exact hroot (by rw [← List.mem_singleton.mp h])
    · have := length_split_le path
      have := List.length_pos_of_ne_nil hf
      omega

theorem openSplit_isSome (path : CString) : (openSplit path).isSome := by
  have := length_split_le path
  exact (splitInto_isSome_iff _ path).mpr ⟨by omega,by omega⟩

/-- `filesys_open` has room for every path. `filesys_create` and `filesys_remove` leave out the byte
for the terminator, and have room for a path just if it has a slash and something else. -/
theorem path_buffers_fit_iff (path : CString) (h : path ≠ []) :
    ((createSplit path).isSome ∧ (openSplit path).isSome ∧ (removeSplit path).isSome) ↔ 47 ∈ path ∧ path ≠ [47] := by
  rw [createSplit,removeSplit,splitInto_length_isSome_iff h,iff_true_intro (openSplit_isSome path)]
  tauto

theorem path_buffers_fit_iff_ab :
    (createSplit (cstr "a/b")).isSome ∧ (openSplit (cstr "a/b")).isSome ∧ (removeSplit (cstr "a/b")).isSome :=
  (path_buffers_fit_iff (cstr "a/b") (by decide)).mpr (by decide)

/-- `filesys_create` is given a file name of one letter: it is written with its terminator into an
array of one byte. -/
theorem path_buffer_overflow : ¬ ∀ path : CString, path ≠ [] →
    (createSplit path).isSome ∧ (openSplit path).isSome ∧ (removeSplit path).isSome := fun h => by
  have := (h [97] (by decide)).1
  revert this
  rw [createSplit,splitInto_isSome_iff]
  decide

end ShellOS.Fs
