import ShellOS.Lib.CString

/-! `parseInput`, and the way back into it: a command that runs scripts passes their lines to
`parseInput` again, while the outer call is between two uses of the one hidden cursor of `strtok`. -/
namespace ShellOS.Shell
open CLib

/-- `enum Error`, in the order of the source. -/
inductive Error
  | fileDoesNotExist | noMemSpace | readyQueueFull | schedulingError | tooManyTokens | tooFewTokens
  | nonAlphanumericToken | badCommand | errorRm | fileCreationError | filesystemError | fileWriteError
  | fileReadError
  deriving DecidableEq,Repr

/-- `handle_error`: the value of the enumerator; the message is not modelled. -/
def handleError (e : Error) : ℤ := e.ctorIdx

/-- The inner loop of `parseInput` that copies one word after the other, `tmp` being the word begun. -/
def splitWords : CString → CString → List CString
  | tmp,[] => [tmp]
  | tmp,c::rest =>
    if c = 32 then tmp::(if rest = [] then [] else splitWords [] rest) else splitWords (tmp ++ [c]) rest

/-- The words of one section of the input line. -/
def words (token : CString) : List CString :=
  match token.dropWhile (· == 32) with
  | [] => []
  | s => splitWords [] s

/-- `command_args[i][strcspn(command_args[i], "\r\n")] = 0`. -/
def stripNewline (w : CString) : CString := w.takeWhile fun c => c != 13 && c != 10

/-- What commands and processes do apart from parsing, on a state `σ` that holds the shell memory,
the processes and the file system. An operation that ends the shell or never returns gives `none`. -/
structure Kernel (σ : Type) where
  /-- a command that runs no script -/
  command : List CString → σ → Option (ℤ × σ)
  /-- `run` and `exec` copy their scripts into the backing store -/
  copy : List CString → σ → σ
  /-- `new_proc` succeeded or not -/
  newProc : CString → σ → Option (Bool × σ)
  queueDone : σ → Bool
  /-- the process taken from the ready queue and its current line, `none` if that is not loaded -/
  dispatch : σ → Option CString × σ
  /-- what `run_proc` and `run_proc_RR` do with the result of `cpu_run` -/
  advance : ℤ → σ → Option σ
  /-- the end of `run_proc_RR`: processes freed, lists cleared -/
  teardown : σ → σ
  /-- the backing store is emptied -/
  clean : σ → σ

/-- The state of the shell with the cursor of `strtok`. `returned` records the values returned by
the calls of `interpreter` so far, at any depth. -/
structure State (σ : Type) where
  cursor : CString
  returned : List ℤ
  rest : σ

/-- What a call of `parseInput` gives: its value and the calls of `interpreter` it made itself. -/
structure Outcome (σ : Type) where
  ret : ℤ
  calls : List (List CString)
  state : State σ

/-- Passing a line to `parseInput`. -/
abbrev Parser (σ : Type) := CString → State σ → Option (ℤ × State σ)

section
variable {σ : Type} (k : Kernel σ)

/-- `cpu_run`: 1 is a page fault. -/
def cpuRun (parse : Parser σ) (line : Option CString) (st : State σ) : Option (ℤ × State σ) :=
  match line with
  | none => some (1,st)
  | some line => parse line st

/-- `run_proc_RR`, for at most the given number of rounds. -/
def runProcRR (parse : Parser σ) : ℕ → State σ → Option (ℤ × State σ)
  | 0,_ => none
  | rounds+1,st =>
    if k.queueDone st.rest then some (0,{ st with rest := k.teardown st.rest }) else
    (cpuRun parse (k.dispatch st.rest).1 { st with rest := (k.dispatch st.rest).2 }).bind fun r =>
      (k.advance r.1 r.2.rest).bind fun s => runProcRR parse rounds { r.2 with rest := s }

/-- `new_proc` for one script after the other, until one is refused. -/
def newProcs : List CString → σ → Option (Bool × σ)
  | [],s => some (true,s)
  | script::scripts,s => (k.newProc script s).bind fun r => if r.1 then newProcs scripts r.2 else some r

/-- `run` and `exec` once their scripts are copied. -/
def runScripts (parse : Parser σ) (rounds : ℕ) (scripts : List CString) (st : State σ) : Option (ℤ × State σ) :=
  (newProcs k scripts st.rest).bind fun r =>
    if r.1 then runProcRR k parse rounds { st with rest := r.2 } else some (1,{ st with rest := r.2 })

/-- Both commands end by emptying the backing store. -/
def withScripts (parse : Parser σ) (rounds : ℕ) (scripts : List CString) (st : State σ) :
    Option (ℤ × State σ) :=
  -- four scripts are copied, then `exec` refuses them
  (if 3 < scripts.length then some (1,{ st with rest := k.copy scripts st.rest })
    else runScripts k parse rounds scripts { st with rest := k.copy scripts st.rest }).map fun r =>
      (r.1,{ r.2 with rest := k.clean r.2.rest })

/-- The most scripts that `interpreter` accepts for the command; `exec` itself takes fewer. -/
def maxScripts (name : CString) : ℕ := if name = cstr "run" then 1 else 4

/-- The body of `interpreter`. -/
def execute (parse : Parser σ) (rounds : ℕ) (args : List CString) (st : State σ) : Option (ℤ × State σ) :=
  match args.map stripNewline with
  | [] => some (handleError .tooFewTokens,st)
  | name::scripts =>
    if name = cstr "run" ∨ name = cstr "exec" then
      if scripts.length < 1 then some (handleError .tooFewTokens,st)
      else if maxScripts name < scripts.length then some (handleError .tooManyTokens,st)
      else withScripts k parse rounds scripts st
    else (k.command (name::scripts) st.rest).map fun r => (r.1,{ st with rest := r.2 })

/-- `interpreter`, with its value recorded. -/
def interpreter (parse : Parser σ) (rounds : ℕ) (args : List CString) (st : State σ) : Option (ℤ × State σ) :=
  (execute k parse rounds args st).map fun r => (r.1,{ r.2 with returned := r.2.returned ++ [r.1] })

/-- The loop of `parseInput` from the current token on. -/
def parseLoop (interp : List CString → State σ → Option (ℤ × State σ)) :
    ℕ → Option CString → Outcome σ → Option (Outcome σ)
  | _,none,out => some out
  | 0,some _,_ => none
  | rounds+1,some token,out =>
    (interp (words token) out.state).bind fun r =>
      let next := strtok 59 none r.2.cursor
      let out : Outcome σ := ⟨r.1,out.calls ++ [words token],{ r.2 with cursor := next.2 }⟩
      if r.1 = -1 then some out else parseLoop interp rounds next.1 out

/-- `parseInput`, with calls nested at most `fuel` deep and loops of at most `fuel` rounds; `none`
when that is not enough or the shell ends on the way. -/
def parseInput : ℕ → CString → State σ → Option (Outcome σ)
  | 0,_,_ => none
  | fuel+1,ui,st =>
    parseLoop (interpreter k (fun line st => (parseInput fuel line st).map fun o => (o.ret,o.state)) fuel)
      (fuel+1) (strtok 59 (some ui) st.cursor).1 ⟨0,[],{ st with cursor := (strtok 59 (some ui) st.cursor).2 }⟩

/-- The parser of the lines of scripts, when calls may be nested so deep. -/
abbrev nested (fuel : ℕ) : Parser σ := fun line st => (parseInput k fuel line st).map fun o => (o.ret,o.state)

end
end ShellOS.Shell
