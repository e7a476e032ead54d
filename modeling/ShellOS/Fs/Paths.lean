import ShellOS.Fs.Filesys
import ShellOS.Lib.Runs

/-! A path is split into a normal form: its components are kept and the slashes between them are
made single. -/
namespace ShellOS.Fs
open CLib Runs
variable {path : CString}

/-! ### Components -/

theorem tokenLoop_strtok (delim : UInt8) {rounds : ℕ} {s : CString} (h : s.length ≤ rounds) :
    tokenLoop delim rounds (strtok delim (some s) []) = runs (· == delim) s := by
  induction rounds generalizing s with
  | zero =>
    rw [List.length_eq_zero_iff.mp (Nat.le_zero.mp h),runs_nil]
    rfl
  | succ rounds ih =>
    have hlen := List.length_dropWhile_le (· == delim) s
    rw [← runs_dropWhile fun c (h : (c == delim) = true) => h]
    cases hs : s.dropWhile (· == delim) with
    | nil =>
      have hnone : strtok delim (some s) [] = (none,[]) := by
        simp only [strtok,Option.getD_some,hs,if_pos]
      rw [hnone,runs_nil]
      rfl
    | cons c t =>
      have hc : (c == delim) = false := by
        have hhead := List.head?_dropWhile_not (· == delim) s
        rw [hs] at hhead
        simpa using hhead
      have htoken : strtok delim (some s) [] =
          (some ((c::t).takeWhile (· != delim)),((c::t).dropWhile (· != delim)).tail) := by
        simp only [strtok,Option.getD_some,hs,if_neg (List.cons_ne_nil c t)]
      rw [runs_cons (p := (· == delim)) hc,htoken]
      refine congrArg (_::·) (Eq.trans (congrArg _ (strtok_cursor _)) (ih ?_))
      -- a token has at least one character
      have hdrop : (c::t).dropWhile (· != delim) = t.dropWhile (· != delim) :=
        List.dropWhile_cons_of_pos (by simp [bne,hc])
      have hle := List.length_dropWhile_le (· != delim) t
      rw [hs,List.length_cons] at hlen
      rw [hdrop,List.length_tail]
      omega

/-- What `strtok_r` cuts a path into are its components. -/
theorem pathTokens_eq_runs (path : CString) : pathTokens path = runs (· == 47) path :=
  tokenLoop_strtok 47 le_rfl

theorem mem_pathTokens {c : CString} (h : c ∈ pathTokens path) : c ≠ [] ∧ ∀ a ∈ c, (a == 47) = false := by
  rw [pathTokens_eq_runs] at h
  exact mem_runs h

/-- A path is split by its first character and its components. -/
theorem splitPathFilename_congr {a b : CString} (hroot : a.head? = some 47 ↔ b.head? = some 47)
    (hruns : runs (· == 47) a = runs (· == 47) b) : splitPathFilename a = splitPathFilename b := by
  simp only [splitPathFilename,pathTokens_eq_runs,hroot,hruns]

/-! ### The two parts -/

/-- The slash an absolute path starts with. -/
def rootSlash (path : CString) : CString := if path.head? = some 47 then [47] else []

theorem splitPathFilename_fst (path : CString) : (splitPathFilename path).1 =
    rootSlash path ++ (pathTokens path).dropLast.flatMap (· ++ [47]) := rfl

theorem splitPathFilename_snd (path : CString) : (splitPathFilename path).2 = (pathTokens path).getLast?.getD [] :=
  rfl

theorem dropLast_append_last (path : CString) :
    (pathTokens path).dropLast ++ [(splitPathFilename path).2].filter (· ≠ []) = pathTokens path := by
  rw [splitPathFilename_snd]
  cases List.eq_nil_or_concat (pathTokens path) with
  | inl h =>
    rw [h]
    rfl
  | inr h =>
    obtain ⟨ts,t,ht⟩ := h
    have hne := (@mem_pathTokens path t (by rw [ht]; simp)).1
    rw [ht]
    simp [hne]

theorem fileName_no_slash (path : CString) : ∀ a ∈ (splitPathFilename path).2, (a == 47) = false := by
  rw [splitPathFilename_snd]
  cases h : (pathTokens path).getLast? with
  | none => exact fun a ha => absurd ha List.not_mem_nil
  | some t => exact (mem_pathTokens (List.mem_of_getLast? h)).2

theorem dropLast_ok (path : CString) : ∀ w ∈ (pathTokens path).dropLast, w ≠ [] ∧ ∀ a ∈ w, (a == 47) = false :=
  fun _ hw => mem_pathTokens (List.mem_of_mem_dropLast hw)

theorem runs_rootSlash (path s : CString) : runs (· == 47) (rootSlash path ++ s) = runs (· == 47) s := by
  unfold rootSlash
  split
  · exact runs_sep rfl s
  · rfl

/-- The first character of what is put together again. -/
theorem head?_rootSlash_append (path : CString) {ws : List CString} {t : CString}
    (hws : ∀ w ∈ ws, w ≠ [] ∧ ∀ a ∈ w, (a == 47) = false) (ht : ∀ a ∈ t, (a == (47 : UInt8)) = false) :
    (rootSlash path ++ (ws.flatMap (· ++ [47]) ++ t)).head? = some 47 ↔ path.head? = some 47 := by
  unfold rootSlash
  split
  case isTrue h => exact iff_of_true rfl h
  case isFalse h =>
    refine iff_of_false (fun hc => ?_) h
    rw [List.nil_append] at hc
    cases ws with
    | nil =>
      have := ht 47 (List.mem_of_head? hc)
      cases this
    | cons w ws =>
      obtain ⟨hne,hw⟩ := hws w List.mem_cons_self
      cases w with
      | nil => exact hne rfl
      | cons a w =>
        have ha : a = 47 := Option.some.inj hc
        have := hw a List.mem_cons_self
        rw [ha] at this
        cases this

/-- The directory and the file name that a path is split into. -/
structure NormalSplit (path directory fileName : CString) : Prop where
  no_slash : (47 : UInt8) ∉ fileName
  closed : directory = [] ∨ directory.getLast? = some 47
  rooted : directory.head? = some 47 ↔ path.head? = some 47
  shape : directory = rootSlash path ++ (runs (· == 47) directory).flatMap (· ++ [47])
  components : runs (· == 47) directory ++ [fileName].filter (· ≠ []) = runs (· == 47) path
  named : runs (· == 47) path ≠ [] → fileName ≠ []
  again : splitPathFilename (directory ++ fileName) = (directory,fileName)

theorem runs_directory (path : CString) : runs (· == 47) (splitPathFilename path).1 = (pathTokens path).dropLast := by
  rw [splitPathFilename_fst,runs_rootSlash]
  exact runs_flatMap rfl (dropLast_ok path)

theorem directory_closed (path : CString) :
    (splitPathFilename path).1 = [] ∨ (splitPathFilename path).1.getLast? = some 47 := by
  rw [splitPathFilename_fst]
  cases List.eq_nil_or_concat (pathTokens path).dropLast with
  | inl h =>
    rw [h,List.flatMap_nil,List.append_nil]
    unfold rootSlash
    split
    · exact .inr rfl
    · exact .inl rfl
  | inr h =>
    obtain ⟨ws,w,hw⟩ := h
    right
    rw [hw]
    simp

/-- Whatever slashes a path has, it is split into a normal form, and the two parts put together
again are split in the same way. -/
theorem split_path_filename_normal_form (path : CString) :
    NormalSplit path (splitPathFilename path).1 (splitPathFilename path).2 := by
  have hws := dropLast_ok path
  have hf := fileName_no_slash path
  have hall := dropLast_append_last path
  refine ⟨fun hm => ?_,directory_closed path,?_,?_,?_,fun hne hempty => ?_,?_⟩
  · have := hf 47 hm
    cases this
  · have := head?_rootSlash_append path hws (t := []) (by simp)
    rwa [List.append_nil] at this
  · rw [runs_directory,splitPathFilename_fst]
  · rw [runs_directory,hall,pathTokens_eq_runs]
  · rw [← pathTokens_eq_runs] at hne
    rw [splitPathFilename_snd,List.getLast?_eq_some_getLast hne] at hempty
    exact (mem_pathTokens (List.getLast_mem hne)).1 hempty
  · refine splitPathFilename_congr ?_ ?_
    · rw [splitPathFilename_fst,List.append_assoc]
      exact head?_rootSlash_append path hws hf
    · rw [splitPathFilename_fst,List.append_assoc,runs_rootSlash,runs_flatMap_append rfl hws,← pathTokens_eq_runs path]
      refine Eq.trans (congrArg _ ?_) hall
      by_cases hempty : (splitPathFilename path).2 = []
      · simp [hempty]
      · rw [runs_run hf hempty]
        simp [hempty]

end ShellOS.Fs
