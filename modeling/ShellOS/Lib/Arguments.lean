import ShellOS.Lib.CString

/-! Commands that look at their arguments by index, with a record of the indices used. -/
namespace Arguments
open CLib

/-- A value together with the indices of the argument vector that were used for it. -/
structure Uses (α : Type) where
  used : List ℕ
  value : α

instance : Monad Uses where
  pure a := ⟨[],a⟩
  bind m f := ⟨m.used ++ (f m.value).used,(f m.value).value⟩

/-- What a dispatcher does: it reports an error or calls a handler with some words. -/
inductive Action (ε : Type)
  | error (e : ε)
  | call (handler : String) (words : List CString)

variable {α β ε : Type} {n size min : ℕ}

/-- Only the first so many words are used. -/
def Uses.Within (m : Uses α) (size : ℕ) : Prop := ∀ i ∈ m.used, i < size

@[simp] theorem within_pure (a : α) : (pure a : Uses α).Within n := by
  intro i hi
  cases hi

@[simp] theorem within_bind (m : Uses α) (f : α → Uses β) :
    (m >>= f).Within n ↔ m.Within n ∧ (f m.value).Within n := by
  simp only [Uses.Within,bind,List.mem_append,or_imp,forall_and]

/-- `command_args[i]`. -/
def arg (words : ℕ → CString) (i : ℕ) : Uses CString := ⟨[i],words i⟩

@[simp] theorem within_arg (words : ℕ → CString) (i : ℕ) : (arg words i).Within n ↔ i < n := by
  simp [Uses.Within,arg]

@[simp] theorem value_arg (words : ℕ → CString) (i : ℕ) : (arg words i).value = words i := rfl

/-- The words from the index `i` on, as many as there are. -/
def argsFrom (words : ℕ → CString) (i size : ℕ) : Uses (List CString) :=
  ⟨List.range' i (size - i),(List.range' i (size - i)).map words⟩

@[simp] theorem within_argsFrom (words : ℕ → CString) (i : ℕ) : (argsFrom words i size).Within size := by
  intro j hj
  have hj := List.mem_range'_1.mp hj
  omega

/-- A loop over all words that replaces each of them. -/
def mapArgs (f : CString → CString) (argv : ℕ → CString) (size : ℕ) : Uses (ℕ → CString) :=
  ⟨List.range size,fun i => if i < size then f (argv i) else argv i⟩

@[simp] theorem within_mapArgs (f : CString → CString) (argv : ℕ → CString) : (mapArgs f argv size).Within size :=
  fun _ hi => List.mem_range.mp hi

theorem value_mapArgs_zero (f : CString → CString) (argv : ℕ → CString) (h : 0 < size) :
    (mapArgs f argv size).value 0 = f (argv 0) := if_pos h

/-- A dispatcher that uses no word beyond those it was given, and reports an error where there are
fewer than the command needs. -/
structure Uses.Sound (m : Uses (Action ε)) (size min : ℕ) : Prop where
  within : m.Within size
  reports : size < min → ∃ e, m.value = .error e

def error (e : ε) : Uses (Action ε) := pure (.error e)

def callHandler (handler : String) (words : List CString) : Uses (Action ε) := pure (.call handler words)

@[simp] theorem within_error (e : ε) : (error e).Within n := within_pure _

@[simp] theorem within_callHandler (handler : String) (words : List CString) :
    (callHandler handler words : Uses (Action ε)).Within n := within_pure _

theorem sound_error (e : ε) : (error e).Sound size min := ⟨within_error e,fun _ => ⟨e,rfl⟩⟩

/-- A command with enough words. -/
theorem sound_of_within {m : Uses (Action ε)} (h : m.Within size) (hmin : min ≤ size) : m.Sound size min :=
  ⟨h,fun hlt => absurd hlt (by omega)⟩

theorem Uses.Sound.bind {m : Uses α} {f : α → Uses (Action ε)} (h : m.Within size) (hf : (f m.value).Sound size min) :
    (m >>= f).Sound size min :=
  ⟨(within_bind m f).mpr ⟨h,hf.within⟩,hf.reports⟩

/-- An error where there are fewer words. -/
def checkLeast (n size : ℕ) (e : ε) (body : Uses (Action ε)) : Uses (Action ε) :=
  if size < n then error e else body

/-- An error where there are more words. -/
def checkMost (n size : ℕ) (e : ε) (body : Uses (Action ε)) : Uses (Action ε) :=
  if n < size then error e else body

/-- An error for any other number of words. -/
def exactly (n size : ℕ) (e : ε) (body : Uses (Action ε)) : Uses (Action ε) :=
  if size ≠ n then error e else body

variable {e : ε} {body : Uses (Action ε)}

theorem sound_checkLeast (h : n ≤ size → body.Sound size min) : (checkLeast n size e body).Sound size min := by
  unfold checkLeast
  split
  · exact sound_error e
  · exact h (by omega)

theorem sound_checkMost (h : size ≤ n → body.Sound size min) : (checkMost n size e body).Sound size min := by
  unfold checkMost
  split
  · exact sound_error e
  · exact h (by omega)

theorem sound_exactly (h : size = n → body.Sound size min) : (exactly n size e body).Sound size min := by
  unfold exactly
  split
  · exact sound_error e
  · exact h (by omega)

theorem sound_branch {p : Prop} [Decidable p] {m m' : Uses (Action ε)} (h : p → m.Sound size min)
    (h' : m'.Sound size min) : (if p then m else m').Sound size min := by
  split
  · exact h ‹p›
  · exact h'

theorem sound_callHandler {handler : String} {words : List CString} (h : min ≤ size) :
    (callHandler handler words : Uses (Action ε)).Sound size min := sound_of_within (within_callHandler _ _) h

theorem sound_bind_iff {m : Uses α} {f : α → Uses (Action ε)} (h : m.Within size) :
    (m >>= f).Sound size min ↔ (f m.value).Sound size min := by
  exact ⟨fun hs => ⟨((within_bind m f).mp hs.within).2,hs.reports⟩,.bind h⟩

/-- The words are replaced, and the first of them decides between the branches. -/
def byName (f : CString → CString) (branches : (ℕ → CString) → CString → ℕ → Uses (Action ε)) (argv : ℕ → CString)
    (size : ℕ) : Uses (Action ε) := do
  let words ← mapArgs f argv size
  let name ← arg words 0
  branches words name size

theorem sound_byName_iff {f : CString → CString} {branches : (ℕ → CString) → CString → ℕ → Uses (Action ε)}
    {argv : ℕ → CString} (h : 0 < size) :
    (byName f branches argv size).Sound size min ↔
      (branches (mapArgs f argv size).value (f (argv 0)) size).Sound size min := by
  have hname : (arg (mapArgs f argv size).value 0).value = f (argv 0) := value_mapArgs_zero f argv h
  rw [byName,sound_bind_iff (within_mapArgs f argv),sound_bind_iff ((within_arg _ _).mpr h),hname]

/-- A handler that is given the word after the command. -/
def one (handler : String) (words : ℕ → CString) : Uses (Action ε) := do
  callHandler handler [← arg words 1]

theorem sound_one {handler : String} {words : ℕ → CString} (h : 2 ≤ size) (hmin : min ≤ 2) :
    (one handler words : Uses (Action ε)).Sound size min := by
  refine sound_of_within ?_ (by omega)
  simp only [one,within_bind,within_arg,within_callHandler,and_true]
  omega

/-- A handler that is given the two words after the command, the second of which is looked at first. -/
def two (handler : String) (words : ℕ → CString) : Uses (Action ε) := do
  let second ← arg words 2
  callHandler handler [← arg words 1,second]

theorem sound_two {handler : String} {words : ℕ → CString} (h : 3 ≤ size) (hmin : min ≤ 3) :
    (two handler words : Uses (Action ε)).Sound size min := by
  refine sound_of_within ?_ (by omega)
  simp only [two,within_bind,within_arg,within_callHandler,and_true]
  omega

/-- It needs that word. -/
theorem not_sound_one (handler : String) {words : ℕ → CString} (h : size ≤ 1) :
    ¬ (one handler words : Uses (Action ε)).Sound size min := by
  intro hs
  have hlt : 1 < size := by simpa [one] using hs.within
  omega

end Arguments
