import ShellOS.Pager.Machine
import ShellOS.Shell.Arguments

/-! `run_proc` and the one number that tells it of a page fault and of the result of a command. -/
namespace ShellOS.Pager
open CLib Arguments
open Shell (Error handleError isAlphaNumStr)

/-- A command line executed: its value and the kernel it leaves, `none` if it does not come back. -/
abbrev Exec := CString → Kernel → Option (ℤ × Kernel)

/-- The two ways through `run_proc`. -/
inductive Branch
  /-- a page is loaded and the process goes back into the queue -/
  | fault
  /-- the page of the line moves to the front of the LRU list -/
  | used
  deriving DecidableEq

/-- `(*program_counter)++, (*size)--` -/
def PCB.advance (p : PCB) (i : ℕ) : PCB :=
  { p with programCounter := Function.update p.programCounter i (p.programCounter i + 1), size := p.size - 1 }

def PCB.validLine (p : PCB) (i : ℕ) : Bool := (p.pageTable i).validBit (p.programCounter i)

namespace Kernel

/-- The text of the current line of the page. -/
def line (K : Kernel) (p : PCB) (i : ℕ) : CString := (K.mem ((p.pageTable i).index (p.programCounter i))).value

def advance (K : Kernel) (pid i : ℕ) : Kernel := { K with pcb := Function.update K.pcb pid ((K.pcb pid).map (PCB.advance · i)) }

/-- `cpu_run`: its value, and the kernel with the counters moved on if a line was executed. -/
def cpuRun (exec : Exec) (K : Kernel) (pid i : ℕ) : Option (ℤ × Kernel) :=
  (K.pcb pid).bind fun p =>
    if p.validLine i = false then some (1,K) else (exec (K.line p i) K).map fun r => (r.1,r.2.advance pid i)

/-- `run_proc`: the branch it takes, and the kernel after it, if that branch is defined. -/
def runProc (border : ℕ) (exec : Exec) (K : Kernel) (pid i : ℕ) : Option (Branch × Option Kernel) :=
  (K.cpuRun exec pid i).map fun r =>
    if r.1 = 1 then (.fault,r.2.pageFault border pid i) else (.used,r.2.moveToFront (pid,i))

/-- How far a process has come in a page, and how many lines it has left. -/
def progress (K : Kernel) (pid i : ℕ) : Option (ℕ × ℕ) := (K.pcb pid).map fun p => (p.programCounter i,p.size)

variable {K K' : Kernel} {border pid i k q : ℕ}

theorem progress_setPcb {p p' : PCB} (hp : K.pcb q = some p) (hpc : p'.programCounter = p.programCounter)
    (hsize : p'.size = p.size) : (K.setPcb q p').progress pid i = K.progress pid i := by
  by_cases h : pid = q
  · subst h
    simp [progress,setPcb,hp,hpc,hsize]
  · simp [progress,setPcb,h]

theorem loadPage_progress (h : K.loadPage border q k = some K') : K'.progress pid i = K.progress pid i := by
  obtain ⟨p,hp,h⟩ := Option.bind_eq_some_iff.mp h
  obtain ⟨r,hr,rfl⟩ := Option.map_eq_some_iff.mp h
  obtain ⟨start,-,rfl⟩ := Option.map_eq_some_iff.mp hr
  exact progress_setPcb hp rfl rfl

theorem evictTail_progress (h : K.evictTail = some K') : K'.progress pid i = K.progress pid i := by
  obtain ⟨v,-,h⟩ := Option.bind_eq_some_iff.mp h
  split at h
  · obtain ⟨p,hp,rfl⟩ := Option.map_eq_some_iff.mp h
    exact progress_setPcb hp rfl rfl
  · cases h

theorem pageFault_progress (h : K.pageFault border q k = some K') : K'.progress pid i = K.progress pid i := by
  obtain ⟨K₁,h₁,rfl⟩ := Option.map_eq_some_iff.mp h
  change K₁.progress pid i = K.progress pid i
  cases hload : K.loadPage border q k with
  | some K₂ =>
    rw [hload] at h₁
    obtain rfl := Option.some.inj h₁
    exact loadPage_progress hload
  | none =>
    rw [hload] at h₁
    obtain ⟨K₂,hevict,rfl⟩ := Option.map_eq_some_iff.mp h₁
    have hevicted : K₂.progress pid i = K.progress pid i := evictTail_progress hevict
    cases hload₂ : K₂.loadPage border q k with
    | some K₃ => exact (loadPage_progress hload₂).trans hevicted
    | none => exact hevicted

theorem moveToFront_progress {x : PageRef} (h : K.moveToFront x = some K') : K'.progress pid i = K.progress pid i := by
  obtain ⟨_,-,rfl⟩ := Option.map_eq_some_iff.mp h
  rfl

/-- Neither branch moves the counters. -/
theorem runProc_progress {exec : Exec} {r : ℤ × Kernel} {b : Branch} (hrun : K.cpuRun exec pid i = some r)
    (h : K.runProc border exec pid i = some (b,some K')) : K'.progress pid i = r.2.progress pid i := by
  rw [runProc,hrun,Option.map_some,Option.some.injEq] at h
  split at h
  · exact pageFault_progress (Prod.mk.inj h).2
  · exact moveToFront_progress (Prod.mk.inj h).2

theorem advance_progress : (K.advance pid i).progress pid i = (K.progress pid i).map fun r => (r.1 + 1,r.2 - 1) := by
  unfold progress advance
  cases hp : K.pcb pid with
  | none => simp
  | some p => simp [PCB.advance]

end Kernel

/-- A page is loaded just when the current line was not valid, and the counters move on just when the
line was executed, counted from the kernel that its command leaves. -/
def FaultsOnlyUnloaded (border : ℕ) (exec : Exec) (K : Kernel) (p : PCB) (pid i : ℕ) : Prop :=
  ∀ b K', K.runProc border exec pid i = some (b,K') →
    (b = .fault ↔ p.validLine i = false) ∧
    (p.validLine i = false → ∀ K'', K' = some K'' → K''.progress pid i = K.progress pid i) ∧
    (p.validLine i = true → ∃ ret K₁, exec (K.line p i) K = some (ret,K₁) ∧
      ∀ K'', K' = some K'' → K''.progress pid i = (K₁.progress pid i).map fun r => (r.1 + 1,r.2 - 1))

/-- What `cpu_run` gives for a line that is loaded, and for one that is not. -/
theorem cpuRun_cases {exec : Exec} {K : Kernel} {p : PCB} {pid i : ℕ} (hp : K.pcb pid = some p) :
    K.cpuRun exec pid i = if p.validLine i = false then some (1,K)
      else (exec (K.line p i) K).map fun r => (r.1,r.2.advance pid i) := by
  rw [Kernel.cpuRun,hp,Option.bind_some]

theorem runProc_of_one {border : ℕ} {exec : Exec} {K K₁ : Kernel} {p : PCB} {pid i : ℕ} (hp : K.pcb pid = some p)
    (hvalid : p.validLine i = true) (hexec : exec (K.line p i) K = some (1,K₁)) :
    K.runProc border exec pid i = some (.fault,(K₁.advance pid i).pageFault border pid i) := by
  rw [Kernel.runProc,cpuRun_cases hp,if_neg (by simp [hvalid]),hexec]
  rfl

/-- `run_proc` takes the number 1 for a page fault, also where it is the value of the line's command. -/
theorem runProc_faults_iff (border : ℕ) (exec : Exec) (K : Kernel) (p : PCB) (pid i : ℕ) (hp : K.pcb pid = some p) :
    FaultsOnlyUnloaded border exec K p pid i ↔
      (p.validLine i = true → ∀ K₁, exec (K.line p i) K ≠ some (1,K₁)) := by
  have hcpu : K.cpuRun exec pid i = _ := cpuRun_cases hp
  constructor
  · intro h hvalid K₁ hexec
    have hfault := (h _ _ (runProc_of_one hp hvalid hexec)).1.mp rfl
    rw [hvalid] at hfault
    exact Bool.noConfusion hfault
  · intro h b K' hrun
    cases hvalid : p.validLine i with
    | false =>
      rw [if_pos hvalid] at hcpu
      have hb : b = .fault := by
        rw [Kernel.runProc,hcpu] at hrun
        exact (Prod.mk.inj (Option.some.inj hrun)).1.symm
      refine ⟨iff_of_true hb rfl,fun _ K'' he => ?_,nofun⟩
      subst he
      exact Kernel.runProc_progress hcpu hrun
    | true =>
      rw [if_neg (by simp [hvalid])] at hcpu
      cases hexec : exec (K.line p i) K with
      | none =>
        rw [hexec] at hcpu
        rw [Kernel.runProc,hcpu] at hrun
        cases hrun
      | some r =>
        obtain ⟨ret,K₁⟩ := r
        rw [hexec,Option.map_some] at hcpu
        have hret : ret ≠ 1 := fun he => h hvalid K₁ (he ▸ hexec)
        have hb : b = .used := by
          rw [Kernel.runProc,hcpu,Option.map_some,if_neg hret] at hrun
          exact (Prod.mk.inj (Option.some.inj hrun)).1.symm
        refine ⟨iff_of_false (by rw [hb]; nofun) nofun,nofun,fun _ => ⟨ret,K₁,rfl,fun K'' he => ?_⟩⟩
        subst he
        exact (Kernel.runProc_progress hcpu hrun).trans Kernel.advance_progress

/-! ### Which commands have the value 1 -/

/-- `echo`, whose second loop goes over the ends of the name. -/
def echo (var : CString) : ℤ :=
  if var.head? = some 36 then
    if var.tail.tails.all fun s => s.isEmpty || isAlphaNumStr s then 0 else handleError .nonAlphanumericToken
  else if isAlphaNumStr var then 0 else handleError .nonAlphanumericToken

/-- What `interpreter` returns once the handler has returned `status`; `size` is the number of bytes
that were to be read. -/
def returnValue (status size : ℤ) : Action Error → ℤ
  | .error e => handleError e
  | .call handler words =>
    if handler = "quit" then -1
    else if handler = "run" ∨ handler = "exec" then status
    else if handler = "echo" then echo (words.headD [])
    else if handler = "fsutil_ls" then if status = 1 then handleError .filesystemError else 0
    else if handler = "fsutil_cat" then if status = 1 then handleError .fileDoesNotExist else 0
    else if handler = "fsutil_rm" then if status = 0 then handleError .errorRm else status
    else if handler = "fsutil_create" then if status = 0 then handleError .fileCreationError else 0
    else if handler = "fsutil_write" then if status = -1 then handleError .fileWriteError else 0
    else if handler = "fsutil_read" then
      if status = -1 then handleError .fileReadError else if status = size then 1 else 0
    else if handler = "copy_in" ∨ handler = "copy_out" then if status = 0 then 0 else status - 1
    else if handler = "fsutil_size" ∨ handler = "fsutil_seek" then
      if status = -1 then handleError .fileDoesNotExist else 0
    else 0

theorem echo_ne_one (var : CString) : echo var ≠ 1 := by
  unfold echo
  split_ifs <;> decide

/-- The commands that `run_proc` takes for page faults: scripts that could not be started, a file removed,
a read of all the bytes asked for, and a copy for which there was no space. -/
def ReturnsOne (handler : String) (status size : ℤ) : Prop :=
  (handler = "run" ∨ handler = "exec" ∨ handler = "fsutil_rm") ∧ status = 1 ∨
    handler = "fsutil_read" ∧ status = size ∧ status ≠ -1 ∨
    (handler = "copy_in" ∨ handler = "copy_out") ∧ status = 2

theorem returnValue_call_eq_one_iff {status size : ℤ} {handler : String} {words : List CString} :
    returnValue status size (.call handler words) = 1 ↔ ReturnsOne handler status size := by
  have herror : ∀ e : Error, e ≠ .noMemSpace → handleError e ≠ 1 := by
    intro e
    cases e <;> decide
  unfold returnValue
  dsimp only
  by_cases hquit : handler = "quit"
  · simp [hquit,ReturnsOne]
  rw [if_neg hquit]
  by_cases hrun : handler = "run" ∨ handler = "exec"
  · rw [if_pos hrun]
    obtain rfl | rfl := hrun <;> simp [ReturnsOne]
  rw [if_neg hrun]
  obtain ⟨hr,he⟩ := not_or.mp hrun
  by_cases hecho : handler = "echo"
  · simp [hecho,ReturnsOne,echo_ne_one]
  rw [if_neg hecho]
  by_cases hls : handler = "fsutil_ls"
  · rw [if_pos hls]
    split <;> simp [hls,ReturnsOne,herror]
  rw [if_neg hls]
  by_cases hcat : handler = "fsutil_cat"
  · rw [if_pos hcat]
    split <;> simp [hcat,ReturnsOne,herror]
  rw [if_neg hcat]
  by_cases hrm : handler = "fsutil_rm"
  · rw [if_pos hrm]
    split
    · rename_i h0
      simp [hrm,h0,ReturnsOne,herror]
    · simp [hrm,ReturnsOne]
  rw [if_neg hrm]
  by_cases hcreate : handler = "fsutil_create"
  · rw [if_pos hcreate]
    split <;> simp [hcreate,ReturnsOne,herror]
  rw [if_neg hcreate]
  by_cases hwrite : handler = "fsutil_write"
  · rw [if_pos hwrite]
    split <;> simp [hwrite,ReturnsOne,herror]
  rw [if_neg hwrite]
  by_cases hread : handler = "fsutil_read"
  · rw [if_pos hread]
    by_cases hfail : status = -1
    · simp [hread,hfail,ReturnsOne,herror]
    · by_cases hfull : status = size <;> simp [hread,hfail,hfull,ReturnsOne]
      omega
  rw [if_neg hread]
  by_cases hcopy : handler = "copy_in" ∨ handler = "copy_out"
  · rw [if_pos hcopy]
    obtain rfl | rfl := hcopy <;> simp [ReturnsOne] <;> omega
  rw [if_neg hcopy]
  simp only [ReturnsOne,hr,he,hrm,hread,hcopy,false_and,or_self,iff_false]
  split
  · split <;> simp [herror]
  · decide

theorem returnValue_error_eq_one_iff {status size : ℤ} {e : Error} :
    returnValue status size (.error e) = 1 ↔ e = .noMemSpace := by
  change handleError e = 1 ↔ e = .noMemSpace
  cases e <;> decide

/-- A process of one page, which is loaded. -/
def loaded : PCB := ⟨1,2,1,fun _ => 0,fun _ => ⟨fun j => j,fun _ => true⟩,[]⟩

/-- The kernel when it executes its first line, which removes a file. -/
def removing : Kernel where
  mem pos := ⟨cstr "1",if pos = 0 then cstr "rm f" else cstr "none"⟩
  pcb pid := if pid = 1 then some loaded else none
  pidCounter := 2
  queue := []
  lru := [(1,0)]
  all := [1]

/-- Removing a file succeeds, and `run_proc` loads a page that was there. -/
theorem runProc_faults_rm :
    let words := Shell.words (cstr "rm f")
    let exec : Exec := fun line K =>
      if line = cstr "rm f" then some (returnValue 1 0 (Shell.dispatch (words.getD · []) words.length).value,K) else none
    removing.pcb 1 = some loaded ∧ loaded.validLine 0 = true ∧
      (∃ K', removing.runProc 3 exec 1 0 = some (.fault,K')) ∧ ¬ FaultsOnlyUnloaded 3 exec removing loaded 1 0 := by
  intro words exec
  have hdispatch : (Shell.dispatch (words.getD · []) words.length).value = .call "fsutil_rm" [cstr "f"] := rfl
  have hvalue : exec (removing.line loaded 0) removing = some (1,removing) := by
    change some (returnValue 1 0 (Shell.dispatch (words.getD · []) words.length).value,removing) = some (1,removing)
    rw [hdispatch]
    rfl
  have hrun : removing.runProc 3 exec 1 0 = _ := runProc_of_one rfl rfl hvalue
  exact ⟨rfl,rfl,⟨_,hrun⟩,fun h => Bool.noConfusion ((h _ _ hrun).1.mp rfl)⟩

/-- `echo` has another value. -/
theorem runProc_faults_echo : FaultsOnlyUnloaded 3 (fun _ K => some (echo (cstr "f"),K)) removing loaded 1 0 :=
  (runProc_faults_iff 3 _ removing loaded 1 0 rfl).mpr fun _ _ he =>
    echo_ne_one (cstr "f") (Prod.mk.inj (Option.some.inj he)).1

end ShellOS.Pager
