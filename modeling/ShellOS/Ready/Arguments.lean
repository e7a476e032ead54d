import ShellOS.Ready.Kernel
import ShellOS.Shell.Arguments

/-! Which words `interpreter` of the a2 shell looks at, and what it makes of them before a handler is
called. -/
namespace ShellOS.Ready
open CLib Arguments
open Shell (stripNewline spaced)

/-- The branches of `interpreter`, up to the call of a handler. -/
def branches (words : ℕ → CString) (name : CString) (size : ℕ) : Uses (Action Error) :=
  if name = cstr "help" then checkMost 1 size .tooManyTokens (callHandler "help" [])
  else if name = cstr "quit" ∨ name = cstr "exit" then checkMost 1 size .tooManyTokens (callHandler "quit" [])
  else if name = cstr "set" then checkLeast 3 size .tooFewTokens do
    let values ← argsFrom words 2 size
    callHandler "set" [← arg words 1,spaced values]
  else if name = cstr "print" then
    checkLeast 2 size .tooFewTokens (checkMost 2 size .tooManyTokens (one "print" words))
  else if name = cstr "run" then
    checkLeast 2 size .tooFewTokens (checkMost 2 size .tooManyTokens (one "run" words))
  else if name = cstr "echo" then checkMost 2 size .tooManyTokens (one "echo" words)
  else if name = cstr "my_ls" then checkMost 1 size .tooManyTokens do callHandler "my_ls" [← arg words 0]
  else if name = cstr "my_mkdir" then checkMost 2 size .tooManyTokens (one "my_mkdir" words)
  else if name = cstr "my_touch" then checkMost 2 size .tooManyTokens (one "my_touch" words)
  else if name = cstr "my_cd" then checkMost 2 size .tooManyTokens (one "my_cd" words)
  else if name = cstr "exec" then
    checkLeast 2 size .tooFewTokens (checkMost 5 size .tooManyTokens
      -- four names pass both checks, but there is no call for them
      (if size = 5 then error .badCommand else do callHandler "exec" (← argsFrom words 1 size)))
  else if name = cstr "resetmem" then checkMost 1 size .tooManyTokens (callHandler "resetmem" [])
  else error .badCommand

/-- `interpreter`; `MAX_ARGS_SIZE` is 7. -/
def dispatch (argv : ℕ → CString) (size : ℕ) : Uses (Action Error) :=
  if size < 1 then error .tooFewTokens
  else if 7 < size then error .tooManyTokens
  else byName stripNewline branches argv size

/-- How many words a command needs, its name included. -/
def needs (name : CString) : ℕ :=
  if name = cstr "set" then 3
  else if name ∈ ["print","run","echo","my_mkdir","my_touch","my_cd","exec"].map cstr then 2
  else 1

/-- The commands that do not check that there is a second word. -/
def unchecked : List CString := ["echo","my_mkdir","my_touch","my_cd"].map cstr

theorem branches_sound {words : ℕ → CString} {name : CString} {size : ℕ} (hpos : 1 ≤ size)
    (h : ¬ (size = 1 ∧ name ∈ unchecked)) : (branches words name size).Sound size (needs name) := by
  have hneeds : ∀ {s : String} {n m : ℕ}, name = cstr s → needs (cstr s) ≤ n → n ≤ m → needs name ≤ m :=
    fun hs hn hm => hs ▸ hn.trans hm
  have htwo : ∀ {s : String}, name = cstr s → cstr s ∈ unchecked → 2 ≤ size := by
    intro s hs hmem
    by_contra hlt
    exact h ⟨by omega,hs ▸ hmem⟩
  unfold branches
  refine sound_branch (fun hs => ?_) ?_
  · exact sound_checkMost fun _ => sound_callHandler (hneeds hs (by decide) hpos)
  refine sound_branch (fun hs => ?_) ?_
  · have hone : needs name ≤ 1 := hs.elim (fun hs => hneeds hs (by decide) le_rfl) fun hs => hneeds hs (by decide) le_rfl
    exact sound_checkMost fun _ => sound_callHandler (hone.trans hpos)
  refine sound_branch (fun hs => ?_) ?_
  · refine sound_checkLeast fun hsize => .bind (within_argsFrom _ _) ?_
    exact .bind ((within_arg _ _).mpr (by omega)) (sound_callHandler (hneeds hs (by decide) hsize))
  refine sound_branch (fun hs => ?_) ?_
  · exact sound_checkLeast fun hsize => sound_checkMost fun _ => sound_one hsize (hneeds hs (by decide) le_rfl)
  refine sound_branch (fun hs => ?_) ?_
  · exact sound_checkLeast fun hsize => sound_checkMost fun _ => sound_one hsize (hneeds hs (by decide) le_rfl)
  refine sound_branch (fun hs => ?_) ?_
  · exact sound_checkMost fun _ => sound_one (htwo hs (by decide)) (hneeds hs (by decide) le_rfl)
  refine sound_branch (fun hs => ?_) ?_
  · exact sound_checkMost fun _ => .bind ((within_arg _ _).mpr hpos) (sound_callHandler (hneeds hs (by decide) hpos))
  refine sound_branch (fun hs => ?_) ?_
  · exact sound_checkMost fun _ => sound_one (htwo hs (by decide)) (hneeds hs (by decide) le_rfl)
  refine sound_branch (fun hs => ?_) ?_
  · exact sound_checkMost fun _ => sound_one (htwo hs (by decide)) (hneeds hs (by decide) le_rfl)
  refine sound_branch (fun hs => ?_) ?_
  · exact sound_checkMost fun _ => sound_one (htwo hs (by decide)) (hneeds hs (by decide) le_rfl)
  refine sound_branch (fun hs => ?_) ?_
  · refine sound_checkLeast fun hsize => sound_checkMost fun _ => sound_branch (fun _ => sound_error _) ?_
    exact .bind (within_argsFrom _ _) (sound_callHandler (hneeds hs (by decide) hsize))
  refine sound_branch (fun hs => ?_) ?_
  · exact sound_checkMost fun _ => sound_callHandler (hneeds hs (by decide) hpos)
  exact sound_error _

theorem branches_unchecked {words : ℕ → CString} {name : CString} {min : ℕ} (h : name ∈ unchecked) :
    ¬ (branches words name 1).Sound 1 min := by
  have hhandler : ∃ handler, branches words name 1 = one handler words := by
    simp only [unchecked,List.map_cons,List.map_nil,List.mem_cons,List.not_mem_nil,or_false] at h
    obtain rfl | rfl | rfl | rfl := h
    · exact ⟨"echo",rfl⟩
    · exact ⟨"my_mkdir",rfl⟩
    · exact ⟨"my_touch",rfl⟩
    · exact ⟨"my_cd",rfl⟩
  obtain ⟨handler,he⟩ := hhandler
  rw [he]
  exact not_sound_one _ le_rfl

theorem dispatch_sound_iff (argv : ℕ → CString) (size : ℕ) :
    (dispatch argv size).Sound size (needs (stripNewline (argv 0))) ↔
      ¬ (size = 1 ∧ stripNewline (argv 0) ∈ unchecked) := by
  unfold dispatch
  split
  · exact iff_of_true (sound_error _) (by omega)
  split
  · exact iff_of_true (sound_error _) (by omega)
  · have hpos : 0 < size := by omega
    rw [sound_byName_iff hpos]
    constructor
    · rintro hs ⟨rfl,hname⟩
      exact branches_unchecked hname hs
    · exact branches_sound hpos

/-- Both shells use only the words they were given, and report a command with fewer than it needs,
except for a command without an argument that does not check for it. -/
theorem interpreters_use_given_iff (argv : ℕ → CString) (size : ℕ) :
    ((dispatch argv size).Sound size (needs (stripNewline (argv 0))) ↔
      ¬ (size = 1 ∧ stripNewline (argv 0) ∈ unchecked)) ∧
    ((Shell.dispatch argv size).Sound size (Shell.needs (stripNewline (argv 0))) ↔
      ¬ (size = 1 ∧ stripNewline (argv 0) = cstr "echo")) :=
  ⟨dispatch_sound_iff argv size,Shell.dispatch_sound_iff argv size⟩

/-- A line that holds just `echo` uses the word behind it in both shells. -/
theorem echo_alone :
    let argv : ℕ → CString := fun i => if i = 0 then cstr "echo" else []
    ((dispatch argv 1).used = [0,0,1] ∧ ¬ (dispatch argv 1).Sound 1 (needs (stripNewline (argv 0)))) ∧
    ((Shell.dispatch argv 1).used = [0,0,1] ∧ ¬ (Shell.dispatch argv 1).Sound 1 (Shell.needs (stripNewline (argv 0)))) := by
  intro argv
  have hused : (dispatch argv 1).used = [0,0,1] := by decide
  have hused' : (Shell.dispatch argv 1).used = [0,0,1] := by decide
  refine ⟨⟨hused,fun h => ?_⟩,hused',fun h => ?_⟩
  · exact absurd (h.within 1 (by simp [hused])) (by decide)
  · exact absurd (h.within 1 (by simp [hused'])) (by decide)

end ShellOS.Ready
