import ShellOS.Ready.Kernel

/-! The commands of the a2 shell. `run` and `exec` come back from here at the point where a
scheduler begins to work. -/
namespace ShellOS.Ready
open CLib

/-! ### Splitting a line -/

/-- A call of `interpreter`: the array of words, also those left from earlier calls, and how many count. -/
inductive Call
  | words (array : List CString) (size : ℕ)
  /-- a command that begins with a semicolon: `parseInput` goes round for ever -/
  | hang
  deriving DecidableEq

/-- `words[w] = tmp`. -/
def storeWord (array : List CString) (w : ℕ) (tmp : CString) : List CString :=
  array.take w ++ tmp::array.drop (w + 1)

/-- The loop of `parseInput`, of which every round takes a character. -/
def parseFrom : ℕ → List CString → ℕ → CString → List Call
  | 0,_,_,_ => []
  | n+1,array,w,ui =>
    if ui = [] ∨ ui.head? = some 10 then [.words array w] else
    let ui := ui.dropWhile (· == 32)
    if ui = [] then [.words array w] else
    let tmp := ui.takeWhile fun c => c != 59 && c != 10 && c != 32
    match tmp,ui.dropWhile fun c => c != 59 && c != 10 && c != 32 with
    | [],59::_ => [.hang]
    | [],_ => [.words array w]
    | tmp,59::ui => .words (storeWord array w tmp) (w + 1)::
        parseFrom n (storeWord array w tmp) 0 (ui.dropWhile (· == 32))
    | tmp,ui => parseFrom n (storeWord array w tmp) (w + 1) ui.tail

/-- The calls `parseInput` makes for a line if none of them returns -1. -/
def parseInput (ui : CString) : List Call :=
  parseFrom (ui.length + 1) [] 0 (ui.dropWhile (· == 32))

/-! ### Commands -/

inductive Policy
  | fcfs | rr
  deriving DecidableEq,Repr

/-- How far a command gets by itself. -/
inductive Reply (ω : Type)
  | returned (code : ℤ) (K : Kernel ω)
  /-- the scheduler is to work; when it is done the command returns the code -/
  | scheduling (policy : Policy) (code : ℤ) (K : Kernel ω)

variable {ω : Type}

def Reply.error (e : Error) (K : Kernel ω) : Reply ω := .returned (K.handleError e).1 (K.handleError e).2

/-- `schedule_by_policy` at the end of a command. -/
def scheduleByPolicy (policy : Policy) (code : ℤ) (K : Kernel ω) : Reply ω :=
  if K.inBackground then .returned code K else .scheduling policy code K

section
variable (cfg : Config) (H : Host ω)

/-- The code that a missing script gives is 1. -/
def run (script : CString) (K : Kernel ω) : Option (Reply ω) :=
  (K.processInitialize cfg H script).map fun r =>
    if r.1 = 11 then .error .errorMkdir r.2 else scheduleByPolicy .fcfs r.1 r.2

/-- `exec` with one to three names. Where it does not fail it ends without a value; the register
holds the 0 of `schedule_by_policy`. -/
def exec : List CString → Kernel ω → Option (Reply ω)
  | [],K => some (scheduleByPolicy .rr 0 K)
  | fname::fnames,K => (K.processInitialize cfg H fname).bind fun r =>
    if r.1 ≠ 0 then some (.error .fileDoesNotExist r.2) else exec fnames r.2

def resetmem (K : Kernel ω) : Option (Reply ω) :=
  (K.memInit cfg).readyQueueDestory.map (.returned 0)

def setVar (var : CString) (values : List CString) (K : Kernel ω) : Reply ω :=
  .returned 0 (K.memSetValue cfg var ([32].intercalate values))

def systemCall (command : CString) (K : Kernel ω) : Reply ω :=
  .returned (H.system K.world command).1 { K with world := (H.system K.world command).2 }

def myMkdir (dirname : CString) (K : Kernel ω) : Reply ω :=
  if dirname.head? = some 36 then match K.memGetValue cfg dirname.tail with
    | some value => if 32 ∈ value then .error .errorMkdir K else systemCall H (cstr "mkdir " ++ value) K
    | none => .error .errorMkdir K
  else systemCall H (cstr "mkdir " ++ dirname) K

def myCd (dirname : CString) (K : Kernel ω) : Reply ω :=
  match H.chdir K.world dirname with
  | some r => .returned r.1 { K with world := r.2 }
  | none => .error .errorCd K

/-- A command that takes at most so many words. -/
def atMost (n size : ℕ) (K : Kernel ω) (body : Option (Reply ω)) : Option (Reply ω) :=
  if n < size then some (.error .tooManyTokens K) else body

/-- `interpreter`. Output is left out, except for the messages of `handle_error`; `none` where the
shell ends or a null pointer is read. -/
def interpreter (array : List CString) (size : ℕ) (K : Kernel ω) : Option (Reply ω) :=
  if size < 1 then some (.error .tooFewTokens K) else
  if 7 < size then some (.error .tooManyTokens K) else
  let args := array.map Shell.stripNewline
  let name := args.head?.getD []
  if name = cstr "help" then atMost 1 size K (some (.returned 0 K))
  else if name = cstr "quit" ∨ name = cstr "exit" then atMost 1 size K none
  else if name = cstr "set" then
    if size < 3 then some (.error .tooFewTokens K)
    else (args[1]?).map fun var => setVar cfg var ((args.take size).drop 2) K
  else if name = cstr "print" then
    if size < 2 then some (.error .tooFewTokens K) else atMost 2 size K (some (.returned 0 K))
  else if name = cstr "run" then
    if size < 2 then some (.error .tooFewTokens K)
    else atMost 2 size K ((args[1]?).bind fun script => run cfg H script K)
  else if name = cstr "echo" then atMost 2 size K ((args[1]?).map fun _ => .returned 0 K)
  else if name = cstr "my_ls" then atMost 1 size K (some (systemCall H (cstr "ls | sort") K))
  else if name = cstr "my_mkdir" then atMost 2 size K ((args[1]?).map fun dirname => myMkdir cfg H dirname K)
  else if name = cstr "my_touch" then
    atMost 2 size K ((args[1]?).map fun filename => systemCall H (cstr "touch " ++ filename) K)
  else if name = cstr "my_cd" then atMost 2 size K ((args[1]?).map fun dirname => myCd H dirname K)
  else if name = cstr "exec" ∧ size ≠ 5 then
    if size ≤ 1 then some (.error .tooFewTokens K)
    else atMost 5 size K (exec cfg H ((args.take size).drop 1) K)
  else if name = cstr "resetmem" then atMost 1 size K (resetmem cfg K)
  else some (.error .badCommand K)
end

end ShellOS.Ready
