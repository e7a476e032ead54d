import ShellOS.Lib.Chain
import ShellOS.Pager.Machine
import ShellOS.Shell.ParseInput

/-! The a2 shell: its memory, the ready queue and the processes in it. -/
namespace ShellOS.Ready
open CLib Chain
open Pager (Cell Memory emptyCell fgets)

/-- The sizes chosen when the shell is built. -/
structure Config where
  varMemSize : ℕ
  frameSize : ℕ

def Config.shellMemLength (cfg : Config) : ℕ := cfg.varMemSize + cfg.frameSize

structure PCB where
  pid : ℕ
  pc : ℕ
  pageCount : ℕ
  offsetEnd : ℕ
  pageTable : ℕ → ℕ
  offset : ℕ
  validPage : ℕ → Bool
  /-- the file of the backing store that `fp` reads -/
  filename : CString
  /-- how often the frame of a page had been freed when the page was loaded -/
  stamp : ℕ → ℕ

structure QueueNode where
  pcb : PCB
  next : Option ℕ

/-- What happens to processes. -/
inductive Event
  /-- the process of a script is put into the ready queue for the first time -/
  | queued (pid : ℕ) (script : CString)
  /-- `parseInput` returned for a line of the process, which is what was found in memory -/
  | executed (pid : ℕ) (line : CString)
  | terminated (pid : ℕ)
  deriving DecidableEq,Repr

/-- `enum Error`. -/
inductive Error
  | noError | fileDoesNotExist | fileError | noMemSpace | readyQueueFull | schedulingError | tooManyTokens
  | tooFewTokens | nonAlphanumericToken | badCommand | errorCd | errorMkdir
  deriving DecidableEq,Repr

def Error.code (e : Error) : ℤ := e.ctorIdx

/-- `error_msgs`. -/
def Error.message : Error → String
  | noError => "no error"
  | fileDoesNotExist => "file does not exist"
  | fileError => "file could not be loaded"
  | noMemSpace => "no space left in shell memory"
  | readyQueueFull => "ready queue is full"
  | schedulingError => "scheduling policy error"
  | tooManyTokens => "too many tokens"
  | tooFewTokens => "too few tokens"
  | nonAlphanumericToken => "non-alphanumeric token"
  | badCommand => "unknown name"
  | errorCd => "cd"
  | errorMkdir => "mkdir"

/-- What the shell asks the operating system for, on a state `ω`. -/
structure Host (ω : Type) where
  /-- what `fopen` finds to read under a name -/
  file : ω → CString → Option CString
  system : ω → CString → ℤ × ω
  /-- `chdir`, if there is a directory of this name -/
  chdir : ω → CString → Option (ℤ × ω)

/-- The globals of the shell. The node of a process is found at the address `pid`; one that was
freed is `none`. -/
structure Kernel (ω : Type) where
  world : ω
  mem : Memory
  age : ℕ → ℤ
  currentAge : ℤ
  pidCounter : ℕ
  /-- the files of the backing store, which can always be written -/
  store : CString → CString
  node : ℕ → Option QueueNode
  head : Option ℕ
  inBackground : Bool
  /-- the messages of `handle_error` -/
  errors : List String
  /-- the history of the processes -/
  log : List Event
  /-- how often the text of a slot was freed -/
  frees : ℕ → ℕ

variable {ω : Type}

namespace Kernel

def start (w : ω) : Kernel ω := ⟨w,fun _ => emptyCell,fun _ => 0,0,1,fun _ => [],fun _ => none,none,false,[],[],fun _ => 0⟩

def handleError (K : Kernel ω) (e : Error) : ℤ × Kernel ω :=
  (e.code,{ K with errors := K.errors ++ ["Bad command: " ++ e.message] })

/-! ### The ready queue -/

/-- The pointer in an allocated node. -/
def next (K : Kernel ω) (a : ℕ) : Option (Option ℕ) := (K.node a).map QueueNode.next

/-- The nodes from `head` on, `none` if they run in a circle or one of them was freed. -/
def queue (K : Kernel ω) : Option (List ℕ) := walk K.next K.pidCounter K.head

def setNext (K : Kernel ω) (a : ℕ) (q : Option ℕ) : Kernel ω :=
  { K with node := Function.update K.node a ((K.node a).map fun n => { n with next := q }) }

def setPcb (K : Kernel ω) (a : ℕ) (p : PCB) : Kernel ω :=
  { K with node := Function.update K.node a ((K.node a).map fun n => { n with pcb := p }) }

def readyQueueAddToTail (K : Kernel ω) (a : ℕ) : Option (Kernel ω) :=
  match K.head with
  | none => some ({ K with head := some a }.setNext a none)
  | some _ => K.queue.bind fun l => l.getLast?.map fun b => (K.setNext b (some a)).setNext a none

/-- `ready_queue_pop_head` on a queue that is not empty. -/
def readyQueuePopHead (K : Kernel ω) : Option (ℕ × Kernel ω) :=
  K.head.bind fun a => (K.next a).map fun q => (a,{ K with head := q })

/-- The nodes are freed; `head` is not changed. -/
def readyQueueDestory (K : Kernel ω) : Option (Kernel ω) :=
  K.queue.map fun l => { K with node := fun a => if a ∈ l then none else K.node a }

def terminateProcess (K : Kernel ω) (a : ℕ) : Kernel ω :=
  { K with node := Function.update K.node a none, log := K.log ++ [.terminated a] }

/-- The node of the first process with this file. -/
def findProcess (K : Kernel ω) (file : CString) : Option (Option ℕ) :=
  K.queue.map fun l => l.find? fun a => (K.node a).any fun n => n.pcb.filename == file

/-! ### The shell memory -/

/-- The frame with the lowest age. -/
def getOldest (cfg : Config) (K : Kernel ω) : ℕ :=
  ((List.range cfg.frameSize).filter (· % 3 == 0)).foldl (fun frame i => if K.age i < K.age frame then i else frame) 0

def memInit (cfg : Config) (K : Kernel ω) : Kernel ω :=
  { K with
    mem := fun i => if i < cfg.shellMemLength then emptyCell else K.mem i
    age := fun i => if i < cfg.frameSize then 0 else K.age i }

/-- The first variable slot with this name. -/
def findVar (cfg : Config) (K : Kernel ω) (var : CString) : Option ℕ :=
  (List.range cfg.varMemSize).find? fun i => (K.mem i).var == var

def memSetValue (cfg : Config) (var value : CString) (K : Kernel ω) : Kernel ω :=
  match K.findVar cfg var with
  | some i => { K with mem := Function.update K.mem i ⟨(K.mem i).var,value⟩ }
  | none => match K.findVar cfg (cstr "none") with
    | some i => { K with mem := Function.update K.mem i ⟨var,value⟩ }
    | none => K

def memGetValue (cfg : Config) (var : CString) (K : Kernel ω) : Option CString :=
  (K.findVar cfg var).map fun i => (K.mem i).value

end Kernel

/-- `fgets(line, 100, fp)` so many times. -/
def skipLines : ℕ → CString → CString
  | 0,s => s
  | n+1,s => skipLines n (fgets 99 s).2

/-- Lines are stored from the slot `j` on, as long as there are any. -/
def copyLines (filename : CString) : ℕ → ℕ → CString → Memory → Memory
  | 0,_,_,m => m
  | n+1,j,s,m => copyLines filename n (j + 1) (fgets 99 s).2
      (if s = [] then m else Function.update m j ⟨filename,(fgets 99 s).1.takeWhile (· != 0)⟩)

namespace Kernel

def copyToMem (cfg : Config) (index : ℕ) (filename : CString) (i : ℕ) (K : Kernel ω) : Kernel ω :=
  { K with
    mem := copyLines filename 3 i (skipLines index (K.store filename)) K.mem
    age := fun j => if i ≤ j + cfg.varMemSize ∧ j + cfg.varMemSize < i + 3 then K.currentAge else K.age j }

/-- The first frame whose first line is empty. -/
def findSpace (cfg : Config) (K : Kernel ω) : Option ℕ :=
  (List.range cfg.shellMemLength).find? fun i => decide (cfg.varMemSize ≤ i) &&
    ((i - cfg.varMemSize) % 3 == 0 && (K.mem i).var == cstr "none")

def memFreeLinesBetween (cfg : Config) (start stop : ℕ) (K : Kernel ω) : Kernel ω :=
  { K with
    mem := fun i => if start ≤ i ∧ i < stop ∧ i < cfg.shellMemLength then emptyCell else K.mem i
    frees := fun i => if start ≤ i ∧ i < stop ∧ i < cfg.shellMemLength then K.frees i + 1 else K.frees i }

end Kernel

/-- The first page in this frame is no longer valid. -/
def dropPage (index : ℕ) (p : PCB) : PCB :=
  match (List.range p.pageCount).find? fun i => p.pageTable i == index with
  | some i => { p with validPage := Function.update p.validPage i false }
  | none => p

namespace Kernel

/-- `prev_pcb` and its valid bit; the slot of the victim was freed before its name is read. -/
def dropVictim (index : ℕ) (p : PCB) (K : Kernel ω) : Option (PCB × Kernel ω) :=
  if (K.mem index).var = p.filename then some (dropPage index p,K)
  else (K.findProcess (K.mem index).var).map fun prev => match prev with
    | some a => (p,match K.node a with | some n => K.setPcb a (dropPage index n.pcb) | none => K)
    | none => (p,K)

def replacePage (cfg : Config) (p : PCB) (page : ℕ) (K : Kernel ω) : Option (PCB × Kernel ω) :=
  let load (i : ℕ) (r : PCB × Kernel ω) : PCB × Kernel ω :=
    ({ r.1 with
      pageTable := Function.update r.1.pageTable page i
      validPage := Function.update r.1.validPage page true
      stamp := Function.update r.1.stamp page (r.2.frees i) },r.2.copyToMem cfg (r.1.pc * 3) r.1.filename i)
  match K.findSpace cfg with
  | some i => some (load i (p,K))
  | none =>
    let index := K.getOldest cfg + cfg.varMemSize
    let empty := (List.range 3).countP fun j => (K.mem (index + j)).var == cstr "none"
    ((K.memFreeLinesBetween cfg index (index + (3 - empty))).dropVictim index p).map (load index)

def loadFile (cfg : Config) (p : PCB) (K : Kernel ω) : Option (PCB × Kernel ω) :=
  (K.replacePage cfg p 0).bind fun r =>
    if 1 < r.1.pageCount then
      (r.2.replacePage cfg { r.1 with pc := 1 } 1).map fun r => ({ r.1 with pc := 0 },r.2)
    else some r

/-- The line at a slot of the memory, and the ages of its frame; a null pointer for a slot past the end. -/
def memGetValueAtLine (cfg : Config) (index : ℕ) (K : Kernel ω) : Option (CString × Kernel ω) :=
  if cfg.shellMemLength < index then none
  else
    let i := index - cfg.varMemSize - (index - cfg.varMemSize) % 3
    some ((K.mem index).value,{ K with
      age := fun j => if j = i then K.currentAge + 1 else if j = i + 1 then K.currentAge + 2
        else if j = i + 2 then K.currentAge + 3 else K.age j
      currentAge := K.currentAge + 3 })

end Kernel

/-! ### Starting a process -/

/-- The loop that copies a script reads a `char` and stops where that is `EOF`. -/
def copyText (text : CString) : CString := text.takeWhile (· != 255)

def lineCount (text : CString) : ℕ := 1 + (copyText text).count 10

def offsetEndOf (lines : ℕ) : ℕ := if lines % 3 = 0 then 3 else lines % 3

def pageCountOf (lines : ℕ) : ℕ := lines / 3 + if offsetEndOf lines = 3 then 0 else 1

def makePCB (pid pageCount offsetEnd : ℕ) (name : CString) : PCB :=
  ⟨pid,0,pageCount,offsetEnd,fun _ => 0,0,fun _ => false,name,fun _ => 0⟩

/-- The process of a script that was found. -/
def Kernel.enqueue (cfg : Config) (filename text : CString) (K : Kernel ω) : Option (Kernel ω) :=
  let pid := K.pidCounter
  let newfile := cstr "./backing_store/" ++ (filename ++ Shell.decimal pid)
  let p := makePCB pid (pageCountOf (lineCount text)) (offsetEndOf (lineCount text)) newfile
  (Kernel.loadFile cfg p { K with
    store := Function.update K.store newfile (copyText text)
    pidCounter := pid + 1 }).bind fun r =>
      Kernel.readyQueueAddToTail { r.2 with
        node := Function.update r.2.node pid (some ⟨r.1,none⟩)
        log := r.2.log ++ [.queued pid text] } pid

/-- `process_initialize`; `load_file` never fails. -/
def Kernel.processInitialize (cfg : Config) (H : Host ω) (filename : CString) (K : Kernel ω) : Option (ℤ × Kernel ω) :=
  match H.file K.world filename with
  | none => some (Error.fileDoesNotExist.code,K)
  | some text => (K.enqueue cfg filename text).map fun K => (0,K)

end ShellOS.Ready
