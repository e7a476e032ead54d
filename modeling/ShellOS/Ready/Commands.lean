import ShellOS.Ready.Schedule

/-! What single commands of the a2 shell leave behind: `run` and `exec` of scripts that do not exist,
and `resetmem`. -/
namespace ShellOS.Ready
open CLib Chain
open Pager (Cell emptyCell)
variable {ω : Type} {cfg : Config} {H : Host ω} {K K' : Kernel ω} {a : ℕ} {q : List ℕ}

/-! ### Scripts that do not exist -/

theorem addToTail_log (h : K.readyQueueAddToTail a = some K') : K'.log = K.log := by
  unfold Kernel.readyQueueAddToTail at h
  cases hh : K.head with
  | none =>
    rw [hh] at h
    exact Option.some.inj h ▸ rfl
  | some b =>
    rw [hh] at h
    obtain ⟨l,-,h⟩ := Option.bind_eq_some_iff.mp h
    obtain ⟨c,-,rfl⟩ := Option.map_eq_some_iff.mp h
    rfl

theorem enqueue_log {filename text : CString} (h : K.enqueue cfg filename text = some K') :
    K'.log = K.log ++ [.queued K.pidCounter text] := by
  obtain ⟨r,hr,h⟩ := Option.bind_eq_some_iff.mp h
  rw [addToTail_log h,(Kernel.loadFile_spec rfl hr).1.log]

theorem Queues.log (h : Queues cfg H K K') : ∃ later, K'.log = K.log ++ later := by
  induction h with
  | alike h => exact ⟨[],by rw [h.log,List.append_nil]⟩
  | enqueue hf he _ ih =>
    obtain ⟨later,hl⟩ := ih
    exact ⟨_,by rw [hl,enqueue_log he,List.append_assoc]⟩

theorem interpreter_run (script : CString) (stale : List CString) :
    interpreter cfg H (cstr "run"::script::stale) 2 K = run cfg H (Shell.stripNewline script) K := by
  have hname : Shell.stripNewline (cstr "run") = cstr "run" := by decide
  unfold interpreter
  simp only [List.map_cons,List.head?_cons,Option.getD_some,hname]
  rw [if_neg (by decide),if_neg (by decide),if_neg (by decide),if_neg (by decide),if_neg (by decide),if_neg (by decide),
    if_pos trivial,if_neg (by decide),atMost,if_neg (by decide)]
  rfl

theorem interpreter_exec (names stale : List CString) (h : 1 ≤ names.length) (h' : names.length ≤ 3) :
    interpreter cfg H (cstr "exec"::(names ++ stale)) (names.length + 1) K =
      exec cfg H (names.map Shell.stripNewline) K := by
  have hname : Shell.stripNewline (cstr "exec") = cstr "exec" := by decide
  have htake : (((cstr "exec"::(names ++ stale)).map Shell.stripNewline).take (names.length + 1)).drop 1 =
      names.map Shell.stripNewline := by
    rw [List.map_cons,List.take_succ_cons,List.drop_succ_cons,List.drop_zero,List.map_append]
    exact List.take_left' (List.length_map _)
  unfold interpreter
  dsimp only
  rw [htake]
  simp only [List.map_cons,List.head?_cons,Option.getD_some,hname]
  rw [if_neg (by omega),if_neg (by omega),if_neg (by decide),if_neg (by decide),if_neg (by decide),if_neg (by decide),
    if_neg (by decide),if_neg (by decide),if_neg (by decide),if_neg (by decide),if_neg (by decide),if_neg (by decide),
    if_pos ⟨trivial,by omega⟩,if_neg (by omega),atMost,if_neg (by omega)]

/-- The command reports that a file does not exist; no line was executed, no process was queued. -/
def FailsCleanly (K : Kernel ω) (r : Option (Reply ω)) : Prop :=
  ∃ K', r = some (.returned Error.fileDoesNotExist.code K') ∧
    K'.errors = K.errors ++ ["Bad command: " ++ Error.fileDoesNotExist.message] ∧
    K'.head = K.head ∧ K'.next = K.next ∧ K'.log = K.log

/-- `run` compares with another code than it gets. -/
theorem run_not_clean {script : CString} (h : H.file K.world script = none) : ¬ FailsCleanly K (run cfg H script K) := by
  rintro ⟨K',hr,herr,-⟩
  rw [run,Kernel.processInitialize,h,Option.map_some] at hr
  dsimp only at hr
  rw [if_neg (by decide),scheduleByPolicy] at hr
  split_ifs at hr
  · cases Option.some.inj hr
    have hlen := congrArg List.length herr
    simp at hlen
  · cases Option.some.inj hr

theorem exec_clean_iff {fname : CString} {fnames : List CString} :
    FailsCleanly K (exec cfg H (fname::fnames) K) ↔ H.file K.world fname = none := by
  constructor
  · rintro ⟨K',hr,-,-,-,hlog⟩
    by_contra hc
    obtain ⟨r,hp,hr⟩ := Option.bind_eq_some_iff.mp hr
    cases processInitialize_queues hp with
    | inl he => exact hc he.2
    | inr he =>
      obtain ⟨h0,text,-,hq⟩ := he
      rw [if_neg (by simp [h0])] at hr
      -- the first script is queued and stays so
      obtain ⟨later,hl⟩ := (exec_queues hr).log
      have hlen := congrArg List.length (hlog.symm.trans (hl.trans (by rw [enqueue_log hq])))
      simp at hlen
  · intro h
    refine ⟨(K.handleError .fileDoesNotExist).2,?_,rfl,rfl,rfl,rfl⟩
    rw [exec,Kernel.processInitialize,h,Option.bind_some]
    rfl

/-- A `run` or `exec` that names a missing script fails without a trace only where it is `exec` and
the first script is missing. `stale` are words of the array that do not count. -/
theorem failed_start_iff {command : CString} {names : List CString} (stale : List CString)
    (hcommand : command = cstr "run" ∧ names.length = 1 ∨ command = cstr "exec" ∧ 1 ≤ names.length ∧ names.length ≤ 3)
    (hmissing : ∃ f ∈ names, H.file K.world (Shell.stripNewline f) = none) :
    FailsCleanly K (interpreter cfg H (command::(names ++ stale)) (names.length + 1) K) ↔
      command = cstr "exec" ∧ ∃ f ∈ names.head?, H.file K.world (Shell.stripNewline f) = none := by
  cases hcommand with
  | inl hrun =>
    obtain ⟨rfl,hlen⟩ := hrun
    obtain ⟨script,rfl⟩ := List.length_eq_one_iff.mp hlen
    have hscript : H.file K.world (Shell.stripNewline script) = none := by simpa using hmissing
    have hnot : ¬ cstr "run" = cstr "exec" := by decide
    rw [List.singleton_append,List.length_singleton,interpreter_run]
    exact iff_of_false (run_not_clean hscript) fun h => hnot h.1
  | inr hexec =>
    obtain ⟨rfl,h1,h3⟩ := hexec
    rw [interpreter_exec names stale h1 h3]
    cases names with
    | nil => simp at h1
    | cons fname fnames =>
      rw [List.map_cons,exec_clean_iff]
      simp

/-- A directory with an empty script `a` and a script `r` that resets the memory in its first line. -/
def twoScripts : Host Unit :=
  ⟨fun _ f => if f = cstr "a" then some [] else if f = cstr "r" then some (cstr "resetmem\nx") else none,
    fun w _ => (0,w),fun _ _ => none⟩

theorem failed_start_missing :
    FailsCleanly (Kernel.start ()) (interpreter ⟨1,6⟩ twoScripts [cstr "exec",cstr "b",cstr "a"] 3 (Kernel.start ())) :=
  (@failed_start_iff _ _ _ _ _ [cstr "b",cstr "a"] [] (.inr ⟨rfl,by decide,by decide⟩)
    ⟨cstr "b",by decide,by decide⟩).mpr ⟨rfl,cstr "b",rfl,by decide⟩

/-- `exec a b` where `b` does not exist: `a` is in the queue afterwards. -/
theorem failed_start_queues : ¬ ∀ (K : Kernel Unit) (names : List CString), 1 ≤ names.length → names.length ≤ 3 →
    (∃ f ∈ names, twoScripts.file K.world (Shell.stripNewline f) = none) →
    FailsCleanly K (interpreter ⟨1,6⟩ twoScripts (cstr "exec"::names) (names.length + 1) K) := by
  intro h
  obtain ⟨K',hr,-,hhead,-⟩ := h (Kernel.start ()) [cstr "a",cstr "b"] (by decide) (by decide)
    ⟨cstr "b",by decide,by decide⟩
  have hqueued : (interpreter ⟨1,6⟩ twoScripts [cstr "exec",cstr "a",cstr "b"] 3 (Kernel.start ())).map
      (fun r => r.kernel.head) = some (some 1) := by decide +kernel
  rw [List.length_cons,List.length_singleton] at hr
  rw [hr,Option.map_some] at hqueued
  rw [Reply.kernel,hhead] at hqueued
  exact absurd hqueued (by decide)

/-! ### `resetmem` -/

theorem interpreter_resetmem (stale : List CString) :
    interpreter cfg H (cstr "resetmem"::stale) 1 K = resetmem cfg K := by
  have hname : Shell.stripNewline (cstr "resetmem") = cstr "resetmem" := by decide
  unfold interpreter
  simp only [List.map_cons,List.head?_cons,Option.getD_some,hname]
  rw [if_neg (by decide),if_neg (by decide),if_neg (by decide),if_neg (by decide),if_neg (by decide),if_neg (by decide),
    if_neg (by decide),if_neg (by decide),if_neg (by decide),if_neg (by decide),if_neg (by decide),if_neg (by decide),
    if_neg (by decide),if_pos trivial,atMost,if_neg (by decide)]

theorem resetmem_eq (hq : K.queue = some q) : resetmem cfg K =
    some (.returned 0 { K.memInit cfg with node := fun a => if a ∈ q then none else K.node a }) := by
  have hq' : (K.memInit cfg).queue = some q := hq
  rw [resetmem,Kernel.readyQueueDestory,hq']
  rfl

/-- The variables are empty, the frames of valid pages keep their lines, and the queue is what it
was or empty; none of its nodes was freed. -/
structure ClearsVariables (cfg : Config) (K K' : Kernel ω) : Prop where
  vars : ∀ i < cfg.varMemSize, K'.mem i = emptyCell
  frames : ∀ a n, K.node a = some n → ∀ page < n.pcb.pageCount, n.pcb.validPage page = true →
    ∀ j < 3, K'.mem (n.pcb.pageTable page + j) = K.mem (n.pcb.pageTable page + j)
  queue : ∃ q, Linked K'.next K'.head q ∧ (q = [] ∨ Linked K.next K.head q)

/-- No process that is alive has a line in memory. -/
def FramesEmpty (cfg : Config) (K : Kernel ω) : Prop :=
  ∀ a n, K.node a = some n → ∀ page < n.pcb.pageCount, n.pcb.validPage page = true →
    ∀ j < 3, n.pcb.pageTable page + j < cfg.shellMemLength → K.mem (n.pcb.pageTable page + j) = emptyCell

/-- The head of a queue that was freed is not a null pointer. -/
theorem destroyed_head (hq : K.queue = some q)
    (h : ClearsVariables cfg K { K.memInit cfg with node := fun a => if a ∈ q then none else K.node a }) : K.head = none := by
  obtain ⟨q',hl,-⟩ := h.queue
  have hold := linked_of_walk hq
  cases q with
  | nil => exact hold
  | cons a q =>
    obtain ⟨hhead,-⟩ := hold
    cases q' with
    | nil => exact hl
    | cons b q' =>
      obtain ⟨hb,v,hv,-⟩ := hl
      obtain rfl := Option.some.inj (hhead.symm.trans hb)
      simp [Kernel.next] at hv

theorem resetmem_clears_of_queue (hq : K.queue = some q) :
    (∃ K', resetmem cfg K = some (.returned 0 K') ∧ ClearsVariables cfg K K') ↔ K.head = none ∧ FramesEmpty cfg K := by
  rw [resetmem_eq hq]
  constructor
  · rintro ⟨K',hr,h⟩
    obtain rfl := (Reply.returned.inj (Option.some.inj hr)).2
    refine ⟨destroyed_head hq h,fun a n hn page hpage hv j hj hlt => ?_⟩
    have hkeep := h.frames a n hn page hpage hv j hj
    dsimp only [Kernel.memInit] at hkeep
    rw [if_pos hlt] at hkeep
    exact hkeep.symm
  · rintro ⟨hhead,hempty⟩
    refine ⟨_,rfl,⟨fun i hi => if_pos (lt_of_lt_of_le hi (Nat.le_add_right _ _)),fun a n hn page hpage hv j hj => ?_,
      [],hhead,.inl rfl⟩⟩
    dsimp only [Kernel.memInit]
    split_ifs with hlt
    · exact (hempty a n hn page hpage hv j hj hlt).symm
    · rfl

/-- `resetmem` clears variables only where no process is queued and none that is being executed has
a line in memory. -/
theorem resetmem_clears_iff (stale : List CString) (K : Kernel ω) :
    (∃ K', interpreter cfg H (cstr "resetmem"::stale) 1 K = some (.returned 0 K') ∧ ClearsVariables cfg K K') ↔
      K.head = none ∧ FramesEmpty cfg K := by
  rw [interpreter_resetmem]
  cases hq : K.queue with
  | some q => exact resetmem_clears_of_queue hq
  | none =>
    -- the queue runs in a circle or into a node that was freed, so it is not empty
    have hundefined : resetmem cfg K = none := by
      have hq' : (K.memInit cfg).queue = none := hq
      rw [resetmem,Kernel.readyQueueDestory,hq']
      rfl
    refine iff_of_false (fun ⟨K',hr,_⟩ => ?_) fun h => ?_
    · rw [hundefined] at hr
      cases hr
    · have hempty := Kernel.queue_eq (q := []) h.1 (Nat.zero_le K.pidCounter)
      rw [hq] at hempty
      cases hempty

/-- After the process of a script that set a variable has ended. -/
theorem resetmem_clears_finished : ∃ s, ticksWith ⟨1,6⟩ (oneScript (cstr "set x 1")) NoReset 6
    (enter (cstr "exec a") (startShell ())) = some s ∧ s.kernel.memGetValue ⟨1,6⟩ (cstr "x") = some (cstr "1") ∧
      (s.kernel.mem 1).value = cstr "set x 1" ∧
      ∃ K', interpreter ⟨1,6⟩ (oneScript (cstr "set x 1")) [cstr "resetmem"] 1 s.kernel = some (.returned 0 K') ∧
        ClearsVariables ⟨1,6⟩ s.kernel K' := by
  have hrun : ((ticksWith ⟨1,6⟩ (oneScript (cstr "set x 1")) NoReset 6 (enter (cstr "exec a") (startShell ()))).map fun s =>
      (s.kernel.memGetValue ⟨1,6⟩ (cstr "x"),(s.kernel.mem 1).value,s.kernel.head,s.kernel.pidCounter,(s.kernel.node 1).isSome)) =
        some (some (cstr "1"),cstr "set x 1",none,2,false) := by decide +kernel
  obtain ⟨s,hs,he⟩ := Option.map_eq_some_iff.mp hrun
  simp only [Prod.mk.injEq] at he
  obtain ⟨hvar,hline,hhead,hpid,hnode⟩ := he
  refine ⟨s,hs,hvar,hline,(resetmem_clears_iff [] s.kernel).mpr ⟨hhead,fun a n hn => ?_⟩⟩
  have hsettled := ((Reach.enter (cstr "exec a") (Reach.start ()) rfl).ticksWith hs).settled fun w f t ht => by
    rw [oneScript_file ht]
    decide
  have hborn := hsettled.born (Option.isSome_iff_exists.mpr ⟨n,hn⟩)
  obtain rfl : a = 1 := by omega
  rw [hn] at hnode
  cases hnode

/-- `exec r a`, and the first line of `r` is about to be executed. -/
def resetting : State Unit :=
  (ticks ⟨1,6⟩ twoScripts 3 (enter (cstr "exec r a") (startShell ()))).getD (startShell ())

/-- The node of the second process is freed, but stays at the head of the queue. -/
theorem resetmem_frees_queue : ¬ ∀ (K : Kernel Unit) (q : List ℕ), K.queue = some q → ∃ K',
    interpreter ⟨1,6⟩ twoScripts [cstr "resetmem"] 1 K = some (.returned 0 K') ∧ ClearsVariables ⟨1,6⟩ K K' := by
  intro h
  have hq : resetting.kernel.queue = some [2] := by decide +kernel
  obtain ⟨K',hr,hclear⟩ := h resetting.kernel [2] hq
  rw [interpreter_resetmem,resetmem_eq hq] at hr
  obtain rfl := (Reply.returned.inj (Option.some.inj hr)).2
  have hhead : resetting.kernel.head = some 2 := by decide +kernel
  exact absurd (hhead.symm.trans (destroyed_head hq hclear)) (by decide)

end ShellOS.Ready
