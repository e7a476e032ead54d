import ShellOS.Shell.Backing

/-! The processes of the a3 shell: page tables, the frame store, the three lists of the kernel and
`run_proc_RR`. A line of a script may start further processes, so the activations of `run_proc_RR`
and `run_proc` form a stack. -/
namespace ShellOS.Pager
open CLib

/-! ### The shell memory -/

structure Cell where
  var : CString
  value : CString
  deriving DecidableEq

/-- The slots by position: the frame store first, then the variables, then whatever lies past them. -/
abbrev Memory := ℕ → Cell

def emptyCell : Cell := ⟨cstr "none",cstr "none"⟩

def memFreeAt (pos : ℕ) (m : Memory) : Memory := Function.update m pos emptyCell

def memSetValueAt (pos : ℕ) (pid value : CString) (m : Memory) : Memory :=
  Function.update m pos ⟨pid,value⟩

/-- The first position with three free slots, if there is one before the border. -/
def findFrame (border : ℕ) (m : Memory) : Option ℕ :=
  (List.range border).find? fun i => decide (i + 3 ≤ border) &&
    ((m i).var == cstr "none" && (m (i + 1)).var == cstr "none" && (m (i + 2)).var == cstr "none")

/-- The slots are marked with the process; their old values stay. -/
def markFrame (start : ℕ) (pid : CString) (m : Memory) : Memory := fun pos =>
  if start ≤ pos ∧ pos < start + 3 then ⟨pid,(m pos).value⟩ else m pos

/-! ### Processes -/

structure Page where
  index : ℕ → ℕ
  validBit : ℕ → Bool

structure PCB where
  pid : ℕ
  size : ℕ
  pageTableSize : ℕ
  programCounter : ℕ → ℕ
  pageTable : ℕ → Page
  /-- the lines `fgets` has not read yet -/
  sourceFile : List CString

/-- What one `fgets` of at most `n` bytes reads, and what is left. -/
def fgets : ℕ → CString → CString × CString
  | 0,s => ([],s)
  | _,[] => ([],[])
  | n+1,c::s => if c = 10 then ([10],s) else ((fgets n s).1.cons c,(fgets n s).2)

/-- The strings `fgets(line, 999, fp)` delivers one after the other; every call takes a byte. -/
def readLinesFrom : ℕ → CString → List CString
  | 0,_ => []
  | _,[] => []
  | n+1,s => (fgets 998 s).1.takeWhile (· != 0)::readLinesFrom n (fgets 998 s).2

def readLines (text : CString) : List CString := readLinesFrom text.length text

/-- The loop of `count_lines`. -/
def countNewlines : UInt8 → CString → ℕ
  | _,[] => 0
  | last,c::s => (if c = 10 ∧ last ≠ 10 then 1 else 0) + countNewlines c s

def countLines (script : CString) : ℕ := countNewlines 10 script + 1

def pageTableSizeOf (lines : ℕ) : ℕ := if lines % 3 = 0 then lines / 3 else lines / 3 + 1

def pageInit : Page := ⟨fun _ => 1000,fun _ => false⟩

/-- The loop that fills a page from its stream, for the entries from `j` on. -/
def fillPage (pid : CString) : ℕ → ℕ → Page → List CString → Memory → Page × List CString × Memory
  | 0,_,page,source,m => (page,source,m)
  | _,_,page,[],m => (page,[],m)
  | n+1,j,page,line::source,m =>
    fillPage pid n (j + 1) { page with validBit := Function.update page.validBit j true } source
      (memSetValueAt (page.index j) pid line m)

/-- `load_PAGE`, `none` if there is no frame. -/
def loadPage (border : ℕ) (p : PCB) (k : ℕ) (m : Memory) : Option (PCB × Memory) :=
  (findFrame border m).map fun start =>
    let pid := Shell.decimal p.pid
    let r := fillPage pid 3 0 ⟨fun j => start + j,fun _ => false⟩ p.sourceFile (markFrame start pid m)
    ({ p with pageTable := Function.update p.pageTable k r.1, sourceFile := r.2.1 },r.2.2)

/-- `PCB_init`, `none` where it ends the shell because the pages do not fit. -/
def pcbInit (border pid : ℕ) (script : CString) (m : Memory) : Option (PCB × Memory) :=
  let size := countLines script
  let p : PCB := ⟨pid,size,pageTableSizeOf size,fun _ => 0,fun _ => pageInit,readLines script⟩
  (List.range (min 2 p.pageTableSize)).foldlM (fun (r : PCB × Memory) k => loadPage border r.1 k r.2) (p,m)

def pageEvict (p : PCB) (k : ℕ) (m : Memory) : PCB × Memory :=
  ({ p with pageTable := Function.update p.pageTable k ⟨fun _ => 0,fun _ => false⟩ },
    memFreeAt ((p.pageTable k).index 2) (memFreeAt ((p.pageTable k).index 1) (memFreeAt ((p.pageTable k).index 0) m)))

/-- The positions `free_PCB` clears: three from each index of each page. -/
def clearedByFree (p : PCB) : List ℕ :=
  (List.range p.pageTableSize).flatMap fun k => (List.range 3).flatMap fun j =>
    (List.range 3).map fun i => (p.pageTable k).index j + i

def freePcb (p : PCB) (m : Memory) : Memory := (clearedByFree p).foldl (fun m pos => memFreeAt pos m) m

/-- The page of the next line: the first one whose counter is not 3. -/
def currentPage (p : PCB) : ℕ := ((List.range p.pageTableSize).find? fun i => p.programCounter i != 3).getD p.pageTableSize

def pcbDone (p : PCB) : Bool := (List.range p.pageTableSize).all fun i => p.programCounter i == 3

/-! ### The kernel -/

/-- A page, by its process and its place in the page table. -/
abbrev PageRef := ℕ × ℕ

structure Kernel where
  mem : Memory
  /-- the processes allocated -/
  pcb : ℕ → Option PCB
  pidCounter : ℕ
  queue : List ℕ
  lru : List PageRef
  all : List ℕ

namespace Kernel

def setPcb (K : Kernel) (pid : ℕ) (p : PCB) : Kernel := { K with pcb := Function.update K.pcb pid (some p) }

/-- `PAGE_equal` looks at the first index only. -/
def pageEqual (K : Kernel) (a b : PageRef) : Bool :=
  (K.pcb a.1).map (fun p => (p.pageTable a.2).index 0) == (K.pcb b.1).map fun p => (p.pageTable b.2).index 0

/-- `add_head(remove_elem(page, LRU_CACHE), LRU_CACHE)`, undefined if nothing equal is found. -/
def moveToFront (K : Kernel) (page : PageRef) : Option Kernel :=
  (K.lru.find? fun q => K.pageEqual page q).map fun q =>
    { K with lru := q::K.lru.eraseP fun q => K.pageEqual page q }

def loadPage (border : ℕ) (K : Kernel) (pid k : ℕ) : Option Kernel :=
  (K.pcb pid).bind fun p => (Pager.loadPage border p k K.mem).map fun r => { K.setPcb pid r.1 with mem := r.2 }

/-- The page at the tail of the LRU list is evicted; undefined if its process is not found. -/
def evictTail (K : Kernel) : Option Kernel :=
  K.lru.getLast?.bind fun v => if v.1 ∈ K.all then (K.pcb v.1).map fun p =>
    let r := pageEvict p v.2 K.mem
    { K.setPcb v.1 r.1 with mem := r.2, lru := K.lru.dropLast }
  else none

/-- The part of `run_proc` after a page fault. The process goes to the tail of the queue. -/
def pageFault (border : ℕ) (K : Kernel) (pid k : ℕ) : Option Kernel :=
  let loaded := match K.loadPage border pid k with
    | some K' => some K'
    | none => K.evictTail.map fun K' : Kernel => (K'.loadPage border pid k).getD K'
  loaded.map fun K' : Kernel => { K' with lru := (pid,k)::K'.lru, queue := K'.queue ++ [pid] }

/-- `new_proc`, `none` where the shell ends. -/
def newProc (border : ℕ) (K : Kernel) (script : CString) : Option Kernel :=
  (pcbInit border K.pidCounter script K.mem).map fun r =>
    { K.setPcb K.pidCounter r.1 with
      mem := r.2
      pidCounter := K.pidCounter + 1
      all := K.all ++ [K.pidCounter]
      queue := K.queue ++ [K.pidCounter]
      lru := ((List.range (min 2 r.1.pageTableSize)).map fun k => (K.pidCounter,k)).reverse ++ K.lru }

def newProcs (border : ℕ) (scripts : List CString) (K : Kernel) : Option Kernel :=
  scripts.foldlM (fun K script => K.newProc border script) K

def queueDone (K : Kernel) : Bool := K.queue.all fun pid => (K.pcb pid).all pcbDone

/-- The end of `run_proc_RR`: every process is freed and the lists are cleared. -/
def teardown (K : Kernel) : Kernel :=
  { K with
    mem := K.all.foldl (fun m pid => match K.pcb pid with | some p => freePcb p m | none => m) K.mem
    pcb := fun pid => if pid ∈ K.all then none else K.pcb pid
    queue := []
    lru := []
    all := [] }

end Kernel

/-! ### Activations -/

/-- Which of the three calls of `run_proc` in the loop of `run_proc_RR`. -/
inductive Turn
  | first | second | single
  deriving DecidableEq

inductive Activation
  | scheduler
  /-- a `run_proc` that is about to execute its line -/
  | line (pid page : ℕ) (turn : Turn)
  /-- a `run_proc` whose line has started processes -/
  | waiting (pid page : ℕ) (turn : Turn)
  deriving DecidableEq

/-- What `parseInput` does with a line. -/
inductive Outcome (ω : Type)
  /-- a return value and the new memory -/
  | done (ret : ℤ) (mem : Memory) (world : ω)
  /-- `run` or `exec` of scripts, given by their text; the rest of the line is lost with the cursor of `strtok` -/
  | launch (script : CString) (more : List CString) (world : ω)

/-- The commands, on the shell memory and the state `ω` of everything else. -/
abbrev Commands (ω : Type) := CString → Memory → ω → Outcome ω

structure State (ω : Type) where
  kernel : Kernel
  world : ω
  stack : List Activation

section
variable {ω : Type} (border : ℕ) (C : Commands ω)

/-- A call of `run_proc` by the scheduler that the stack `rest` ends with. -/
def startLine (K : Kernel) (w : ω) (pid : ℕ) (turn : Turn) (rest : List Activation) : Option (State ω) :=
  (K.pcb pid).bind fun p =>
    let i := currentPage p
    if p.pageTableSize ≤ i then none
    else if (p.pageTable i).validBit (p.programCounter i) then some ⟨K,w,.line pid i turn::rest⟩
    else (K.pageFault border pid i).map fun K => ⟨K,w,rest⟩

/-- The end of `cpu_run` and `run_proc` for a line that returned `ret`, and what the scheduler does next. -/
def finishLine (ret : ℤ) (K : Kernel) (w : ω) (pid i : ℕ) (turn : Turn) (rest : List Activation) :
    Option (State ω) :=
  (K.pcb pid).bind fun p =>
    let K := K.setPcb pid { p with
      programCounter := Function.update p.programCounter i (p.programCounter i + 1)
      size := p.size - 1 }
    if ret = 1 then (K.pageFault border pid i).map fun K => ⟨K,w,rest⟩
    else (K.moveToFront (pid,i)).bind fun K => match turn with
      | .first => startLine border K w pid .second rest
      | .second => some ⟨{ K with queue := K.queue ++ [pid] },w,rest⟩
      | .single => some ⟨K,w,rest⟩

/-- One step of the innermost activation; `none` where the shell ends or its behaviour is undefined. -/
def tick (s : State ω) : Option (State ω) :=
  match s.stack with
  | [] => some s
  | .scheduler::rest =>
    if s.kernel.queueDone then some { s with kernel := s.kernel.teardown, stack := rest }
    else match s.kernel.queue with
      | [] => none
      | pid::queue =>
        let K := { s.kernel with queue := queue }
        (K.pcb pid).bind fun p =>
          if 1 < p.size then startLine border K s.world pid .first s.stack
          else if p.size = 1 then startLine border K s.world pid .single s.stack
          else some { s with kernel := K }
  | .line pid i turn::rest =>
    (s.kernel.pcb pid).bind fun p =>
      match C (s.kernel.mem ((p.pageTable i).index (p.programCounter i))).value s.kernel.mem s.world with
      | .done ret mem w => finishLine border ret { s.kernel with mem := mem } w pid i turn rest
      | .launch script more w => (s.kernel.newProcs border (script::more)).map fun K =>
          ⟨K,w,.scheduler::.waiting pid i turn::rest⟩
  | .waiting pid i turn::rest => finishLine border 0 s.kernel s.world pid i turn rest

/-- `run` or `exec` of scripts by the shell itself. -/
def launch (script : CString) (more : List CString) (s : State ω) : Option (State ω) :=
  (s.kernel.newProcs border (script::more)).map fun K => { s with kernel := K, stack := [.scheduler] }

/-- The processes the next step frees. -/
def frees (s : State ω) : List ℕ :=
  match s.stack with
  | .scheduler::_ => if s.kernel.queueDone then s.kernel.all else []
  | _ => []

/-- The processes with an activation of `run_proc`. -/
def running (stack : List Activation) : List ℕ :=
  stack.filterMap fun
    | .scheduler => none
    | .line pid _ _ => some pid
    | .waiting pid _ _ => some pid

end
end ShellOS.Pager
