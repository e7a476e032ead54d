import ShellOS.Lib.Arguments
import ShellOS.Shell.ParseInput

/-! Which words `interpreter` of the a3 shell looks at, and what it makes of them before a handler is
called. -/
namespace ShellOS.Shell
open CLib Arguments

def isAlnum (c : UInt8) : Bool := (48 ≤ c && c ≤ 57) || (65 ≤ c && c ≤ 90) || (97 ≤ c && c ≤ 122)

/-- `isAlphaNumStr`. -/
def isAlphaNumStr (str : CString) : Bool := !str.isEmpty && str.all isAlnum

/-- The loop of `set` over the words of the value, `none` once one of them is not alphanumeric. -/
def alnumArgs (words : ℕ → CString) : List ℕ → Uses (Option (List CString))
  | [] => pure (some [])
  | i::is => do
    let word ← arg words i
    if isAlphaNumStr word then
      let rest ← alnumArgs words is
      pure (rest.map (word::·))
    else pure none

/-- The words put behind each other, with a space after each but the last. -/
def spaced (words : List CString) : CString := [32].intercalate words

/-- The branches of `interpreter`, up to the call of a handler. -/
def branches (words : ℕ → CString) (name : CString) (size : ℕ) : Uses (Action Error) :=
  if name = cstr "help" then checkMost 1 size .tooManyTokens (callHandler "help" [])
  else if name = cstr "quit" ∨ name = cstr "exit" then checkMost 1 size .tooManyTokens (callHandler "quit" [])
  else if name = cstr "set" then checkLeast 3 size .tooFewTokens do
    let var ← arg words 1
    if isAlphaNumStr var then
      match ← alnumArgs words (List.range' 2 (size - 2)) with
      | some values => callHandler "set" [var,spaced values]
      | none => error .nonAlphanumericToken
    else error .nonAlphanumericToken
  else if name = cstr "print" then
    checkLeast 2 size .tooFewTokens (checkMost 2 size .tooManyTokens (one "print" words))
  else if name = cstr "run" then
    checkLeast 2 size .tooFewTokens (checkMost 2 size .tooManyTokens (one "run" words))
  else if name = cstr "echo" then checkMost 2 size .tooManyTokens (one "echo" words)
  else if name = cstr "exec" then
    checkLeast 2 size .tooFewTokens (checkMost 5 size .tooManyTokens do callHandler "exec" (← argsFrom words 1 size))
  else if name = cstr "resetmem" then callHandler "reset_var_zone" []
  else if name = cstr "ls" then checkMost 1 size .tooManyTokens (callHandler "fsutil_ls" [])
  else if name = cstr "cat" then exactly 2 size .tooManyTokens (one "fsutil_cat" words)
  else if name = cstr "rm" then exactly 2 size .tooManyTokens (one "fsutil_rm" words)
  else if name = cstr "create" then exactly 3 size .tooManyTokens (two "fsutil_create" words)
  else if name = cstr "write" then checkLeast 3 size .tooFewTokens do
    let text ← argsFrom words 2 size
    callHandler "fsutil_write" [← arg words 1,spaced text]
  else if name = cstr "find_file" then checkLeast 2 size .tooFewTokens do
    callHandler "find_file" [spaced (← argsFrom words 1 size)]
  else if name = cstr "read" then exactly 3 size .tooManyTokens (two "fsutil_read" words)
  else if name = cstr "copy_in" then exactly 2 size .tooManyTokens (one "copy_in" words)
  else if name = cstr "copy_out" then exactly 2 size .tooManyTokens (one "copy_out" words)
  else if name = cstr "size" then exactly 2 size .tooManyTokens (one "fsutil_size" words)
  else if name = cstr "seek" then exactly 3 size .tooManyTokens (two "fsutil_seek" words)
  else if name = cstr "freespace" then exactly 1 size .tooManyTokens (callHandler "fsutil_freespace" [])
  else if name = cstr "fragmentation_degree" then exactly 1 size .tooManyTokens (callHandler "fragmentation_degree" [])
  else if name = cstr "defragment" then exactly 1 size .tooManyTokens (callHandler "defragment" [])
  else if name = cstr "recover" then exactly 2 size .tooManyTokens (one "recover" words)
  else error .badCommand

/-- `interpreter`: the words are those in memory, of which `size` were given. -/
def dispatch (argv : ℕ → CString) (size : ℕ) : Uses (Action Error) :=
  if size < 1 then error .tooFewTokens else byName stripNewline branches argv size

/-- How many words a command needs, its name included. -/
def needs (name : CString) : ℕ :=
  if name ∈ ["set","create","write","read","seek"].map cstr then 3
  else if name ∈ ["print","run","echo","exec","cat","rm","find_file","copy_in","copy_out","size","recover"].map cstr
  then 2
  else 1

theorem within_alnumArgs {words : ℕ → CString} {is : List ℕ} {n : ℕ} (h : ∀ i ∈ is, i < n) :
    (alnumArgs words is).Within n := by
  induction is with
  | nil => exact within_pure _
  | cons i is ih =>
    have hi : i < n := h i List.mem_cons_self
    have his := ih fun j hj => h j (List.mem_cons_of_mem i hj)
    refine (within_bind _ _).mpr ⟨(within_arg _ _).mpr hi,?_⟩
    split
    · exact (within_bind _ _).mpr ⟨his,within_pure _⟩
    · exact within_pure _

theorem sound_set {words : ℕ → CString} {size : ℕ} (h : 3 ≤ size) :
    (do
      let var ← arg words 1
      if isAlphaNumStr var then
        match ← alnumArgs words (List.range' 2 (size - 2)) with
        | some values => callHandler "set" [var,spaced values]
        | none => error .nonAlphanumericToken
      else error .nonAlphanumericToken : Uses (Action Error)).Sound size 3 := by
  have hargs : (alnumArgs words (List.range' 2 (size - 2))).Within size := within_alnumArgs fun i hi => by
    have hi := List.mem_range'_1.mp hi
    omega
  refine .bind ((within_arg _ _).mpr (by omega)) (sound_branch (fun _ => .bind hargs ?_) (sound_error _))
  split
  · exact sound_callHandler h
  · exact sound_error _

/-- Every command but `echo` keeps to its words. -/
theorem branches_sound {words : ℕ → CString} {name : CString} {size : ℕ} (hpos : 1 ≤ size)
    (h : ¬ (size = 1 ∧ name = cstr "echo")) : (branches words name size).Sound size (needs name) := by
  have hneeds : ∀ {s : String} {n m : ℕ}, name = cstr s → needs (cstr s) ≤ n → n ≤ m → needs name ≤ m :=
    fun hs hn hm => hs ▸ hn.trans hm
  unfold branches
  refine sound_branch (fun hs => ?_) ?_
  · exact sound_checkMost fun _ => sound_callHandler (hneeds hs (by decide) hpos)
  refine sound_branch (fun hs => ?_) ?_
  · have hone : needs name ≤ 1 := hs.elim (fun hs => hneeds hs (by decide) le_rfl) fun hs => hneeds hs (by decide) le_rfl
    exact sound_checkMost fun _ => sound_callHandler (hone.trans hpos)
  refine sound_branch (fun hs => ?_) ?_
  · exact sound_checkLeast fun hsize => hs ▸ sound_set hsize
  refine sound_branch (fun hs => ?_) ?_
  · exact sound_checkLeast fun hsize => sound_checkMost fun _ => sound_one hsize (hneeds hs (by decide) le_rfl)
  refine sound_branch (fun hs => ?_) ?_
  · exact sound_checkLeast fun hsize => sound_checkMost fun _ => sound_one hsize (hneeds hs (by decide) le_rfl)
  refine sound_branch (fun hs => ?_) ?_
  · have hsize : 2 ≤ size := by
      by_contra hlt
      exact h ⟨by omega,hs⟩
    exact sound_checkMost fun _ => sound_one hsize (hneeds hs (by decide) le_rfl)
  refine sound_branch (fun hs => ?_) ?_
  · exact sound_checkLeast fun hsize => sound_checkMost fun _ => .bind (within_argsFrom _ _) (sound_callHandler (hneeds hs (by decide) hsize))
  refine sound_branch (fun hs => ?_) ?_
  · exact sound_callHandler (hneeds hs (by decide) hpos)
  refine sound_branch (fun hs => ?_) ?_
  · exact sound_checkMost fun _ => sound_callHandler (hneeds hs (by decide) hpos)
  refine sound_branch (fun hs => ?_) ?_
  · exact sound_exactly fun hsize => sound_one hsize.ge (hneeds hs (by decide) le_rfl)
  refine sound_branch (fun hs => ?_) ?_
  · exact sound_exactly fun hsize => sound_one hsize.ge (hneeds hs (by decide) le_rfl)
  refine sound_branch (fun hs => ?_) ?_
  · exact sound_exactly fun hsize => sound_two hsize.ge (hneeds hs (by decide) le_rfl)
  refine sound_branch (fun hs => ?_) ?_
  · refine sound_checkLeast fun hsize => .bind (within_argsFrom _ _) ?_
    exact .bind ((within_arg _ _).mpr (by omega)) (sound_callHandler (hneeds hs (by decide) hsize))
  refine sound_branch (fun hs => ?_) ?_
  · exact sound_checkLeast fun hsize => .bind (within_argsFrom _ _) (sound_callHandler (hneeds hs (by decide) hsize))
  refine sound_branch (fun hs => ?_) ?_
  · exact sound_exactly fun hsize => sound_two hsize.ge (hneeds hs (by decide) le_rfl)
  refine sound_branch (fun hs => ?_) ?_
  · exact sound_exactly fun hsize => sound_one hsize.ge (hneeds hs (by decide) le_rfl)
  refine sound_branch (fun hs => ?_) ?_
  · exact sound_exactly fun hsize => sound_one hsize.ge (hneeds hs (by decide) le_rfl)
  refine sound_branch (fun hs => ?_) ?_
  · exact sound_exactly fun hsize => sound_one hsize.ge (hneeds hs (by decide) le_rfl)
  refine sound_branch (fun hs => ?_) ?_
  · exact sound_exactly fun hsize => sound_two hsize.ge (hneeds hs (by decide) le_rfl)
  refine sound_branch (fun hs => ?_) ?_
  · exact sound_exactly fun hsize => sound_callHandler (hneeds hs (by decide) hpos)
  refine sound_branch (fun hs => ?_) ?_
  · exact sound_exactly fun hsize => sound_callHandler (hneeds hs (by decide) hpos)
  refine sound_branch (fun hs => ?_) ?_
  · exact sound_exactly fun hsize => sound_callHandler (hneeds hs (by decide) hpos)
  refine sound_branch (fun hs => ?_) ?_
  · exact sound_exactly fun hsize => sound_one hsize.ge (hneeds hs (by decide) le_rfl)
  exact sound_error _

theorem branches_echo {words : ℕ → CString} {min : ℕ} : ¬ (branches words (cstr "echo") 1).Sound 1 min :=
  not_sound_one "echo" le_rfl

/-- `echo` alone uses a word that was not given. -/
theorem dispatch_sound_iff (argv : ℕ → CString) (size : ℕ) :
    (dispatch argv size).Sound size (needs (stripNewline (argv 0))) ↔
      ¬ (size = 1 ∧ stripNewline (argv 0) = cstr "echo") := by
  unfold dispatch
  split
  · exact iff_of_true (sound_error _) (by omega)
  · have hpos : 0 < size := by omega
    rw [sound_byName_iff hpos]
    constructor
    · rintro hs ⟨rfl,hname⟩
      rw [hname] at hs
      exact branches_echo hs
    · exact branches_sound hpos

end ShellOS.Shell
