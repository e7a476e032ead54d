import ShellOS.Ready.Interpreter

/-! The schedulers of the a2 shell at work. The last line of a script may start another scheduler, so
the activations form a stack. -/
namespace ShellOS.Ready
open CLib

/-- The text that `parseInput` reads in its place in memory. -/
structure Reading where
  slot : ℕ
  /-- how often the slot had been freed when the line was fetched -/
  frees : ℕ
  text : CString

inductive Activation
  /-- the loop of `scheduler_FCFS` or `scheduler_RR` -/
  | scheduler (policy : Policy)
  /-- the loop of `execute_process`, with the rounds left -/
  | execute (node left : ℕ)
  /-- `parseInput` in `execute_process`, with the calls still to be made -/
  | line (node left : ℕ) (last : Bool) (read : Reading) (calls : List Call)
  /-- `parseInput` for the user -/
  | input (calls : List Call)

structure State (ω : Type) where
  kernel : Kernel ω
  stack : List Activation

/-- `MAX_INT` for first come first served, two lines for `exec`. -/
def Policy.quanta : Policy → ℕ
  | fcfs => 2147483646
  | rr => 2

/-- The number of lines of the process that were fetched. -/
def PCB.fetched (p : PCB) : ℕ := 3 * p.pc + p.offset

/-- Is the line before `offset` the last one? -/
def PCB.atEnd (p : PCB) : Bool := p.pc + 1 == p.pageCount && p.offset == p.offsetEnd

/-- Only after the last line of a page comes the next page. -/
def PCB.turnPage (p : PCB) : PCB := if p.offset = 3 then { p with offset := 0, pc := p.pc + 1 } else p

variable {ω : Type} (cfg : Config) (H : Host ω)

def startShell (w : ω) : State ω := ⟨.start w,[]⟩

/-- What a scheduler does with a process that was not finished. -/
def putBack (K : Kernel ω) (node : ℕ) (rest : List Activation) : Option (State ω) :=
  match rest with
  | .scheduler .rr::_ => (K.readyQueueAddToTail node).map fun K => ⟨K,rest⟩
  | _ => some ⟨K,rest⟩

/-- One round of the loop in `execute_process`, up to the call of `parseInput`. -/
def executeProcess (K : Kernel ω) (node left : ℕ) (rest : List Activation) : Option (State ω) :=
  (K.node node).bind fun n =>
    let p := n.pcb
    if p.validPage p.pc then
      let slot := p.pageTable p.pc + p.offset
      (K.memGetValueAtLine cfg slot).map fun r =>
        let p := { p with offset := p.offset + 1 }
        let read := ⟨slot,K.frees slot,r.1⟩
        if p.atEnd then ⟨r.2.setPcb node p,.line node left true read (parseInput r.1)::rest⟩
        else ⟨{ r.2.setPcb node p.turnPage with inBackground := true },.line node left false read (parseInput r.1)::rest⟩
    else (K.replacePage cfg p p.pc).bind fun r =>
      ((r.2.setPcb node r.1).readyQueueAddToTail node).map fun K => ⟨K,rest⟩

/-- What follows `parseInput` in `execute_process`. -/
def lineDone (K : Kernel ω) (node left : ℕ) (last : Bool) (line : CString) (rest : List Activation) : Option (State ω) :=
  (K.node node).map fun _ =>
    let K : Kernel ω := { K with log := K.log ++ [.executed node line] }
    if last then ⟨{ K.terminateProcess node with inBackground := false },rest⟩
    else ⟨{ K with inBackground := false },.execute node left::rest⟩

/-- One call of `interpreter`; `back` is the activation of `parseInput` with the calls that follow. -/
def call (c : Call) (calls : List Call) (back : List Call → Activation) (K : Kernel ω) (rest : List Activation) :
    Option (State ω) :=
  match c with
  | .hang => some ⟨K,back (c::calls)::rest⟩
  | .words array size => (interpreter cfg H array size K).map fun
    | .returned code K => ⟨K,back (if code = -1 then [] else calls)::rest⟩
    | .scheduling policy _ K => ⟨K,.scheduler policy::back calls::rest⟩

/-- One step of the innermost activation; `none` where the shell ends or its behaviour is undefined. -/
def tick (s : State ω) : Option (State ω) :=
  match s.stack with
  | [] => some s
  | .scheduler policy::rest => match s.kernel.head with
    | none => some ⟨s.kernel,rest⟩
    | some _ => s.kernel.readyQueuePopHead.map fun r => ⟨r.2,.execute r.1 policy.quanta::s.stack⟩
  | .execute node 0::rest => putBack s.kernel node rest
  | .execute node (left+1)::rest => executeProcess cfg s.kernel node left rest
  | .line node left last read []::rest => lineDone s.kernel node left last read.text rest
  -- `parseInput` reads on where the line was, which a command of it may have freed
  | .line node left last read (c::calls)::rest =>
    if s.kernel.frees read.slot = read.frees then call cfg H c calls (.line node left last read) s.kernel rest else none
  | .input []::rest => some ⟨s.kernel,rest⟩
  | .input (c::calls)::rest => call cfg H c calls .input s.kernel rest

/-- The user's line. -/
def enter (line : CString) (s : State ω) : State ω := { s with stack := [.input (parseInput line)] }

def ticks : ℕ → State ω → Option (State ω)
  | 0,s => some s
  | n+1,s => (tick cfg H s).bind (ticks n)

/-- So many steps, each from a state with `ok`. -/
def ticksWith (ok : State ω → Prop) [DecidablePred ok] : ℕ → State ω → Option (State ω)
  | 0,s => some s
  | n+1,s => if ok s then (tick cfg H s).bind (ticksWith ok n) else none

/-- The states of a shell that is used. Only states with `ok` are gone on from. -/
inductive Reach (ok : State ω → Prop) : State ω → Prop
  | start (w : ω) : Reach ok (startShell w)
  | enter {s : State ω} (line : CString) (h : Reach ok s) (hs : s.stack = []) : Reach ok (enter line s)
  | tick {s s' : State ω} (h : Reach ok s) (hok : ok s) (ht : tick cfg H s = some s') : Reach ok s'

/-- The processes that are being executed, one for each call of `execute_process`. -/
def executing (stack : List Activation) : List ℕ :=
  stack.filterMap fun
    | .execute node _ => some node
    | .line node _ _ _ _ => some node
    | _ => none

end ShellOS.Ready
