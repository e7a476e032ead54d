import ShellOS.Pager.Runs

/-! The end of `run_proc_RR`: when processes are freed, and what is cleared with them. -/
namespace ShellOS.Pager
open CLib
variable {ω : Type} {border : ℕ} {C : Commands ω} {s s' : State ω} {freed : List ℕ}

/-- Steps one after the other. -/
def ticks (border : ℕ) (C : Commands ω) : ℕ → State ω → Option (State ω)
  | 0,s => some s
  | n+1,s => (tick border C s).bind (ticks border C n)

theorem Reach.ticks {n : ℕ} {ok : State ω → Prop} (h : Reach border C ok s freed)
    (hok : ∀ k < n, ∀ s', ticks border C k s = some s' → ok s') (ht : ticks border C n s = some s') :
    ∃ freed', Reach border C ok s' freed' := by
  induction n generalizing s freed with
  | zero => exact ⟨freed,Option.some.inj ht ▸ h⟩
  | succ n ih =>
    obtain ⟨s1,h1,h2⟩ := Option.bind_eq_some_iff.mp ht
    refine ih (h.tick (hok 0 (Nat.succ_pos n) s rfl) h1) (fun k hk s' hs => hok (k + 1) (Nat.succ_lt_succ hk) s' ?_) h2
    rw [Pager.ticks,h1]
    exact hs

/-- A run of scripts from the shell, up to the state after `n` steps. -/
def runFor (border : ℕ) (C : Commands ω) (n : ℕ) (script : CString) (more : List CString) (s : State ω) :
    Option (State ω) := (launch border script more s).bind (Pager.ticks border C n)

theorem Reach.runFor {n : ℕ} {script : CString} {more : List CString} (h : Reach border C (fun _ => True) s freed)
    (hs : s.stack = []) (hr : runFor border C n script more s = some s') :
    ∃ freed', Reach border C (fun _ => True) s' freed' := by
  obtain ⟨s1,h1,h2⟩ := Option.bind_eq_some_iff.mp hr
  exact (h.launch script more hs h1).ticks (fun _ _ _ _ => trivial) h2

/-! ### Processes -/

/-- The line that is about to be executed starts no scheduler. -/
def Quiet (C : Commands ω) (s : State ω) : Prop := ∀ pid i turn rest p, s.stack = .line pid i turn::rest →
  s.kernel.pcb pid = some p → ∃ ret mem w,
    C (s.kernel.mem ((p.pageTable i).index (p.programCounter i))).value s.kernel.mem s.world = .done ret mem w

/-- Processes are freed in order: each one once, none while it is running, all of them in the end.
The page of a line that is executed is in the LRU list. -/
structure InOrder (freed : List ℕ) (s : State ω) : Prop where
  once : (freed ++ frees s).Nodup
  idle : ∀ pid ∈ frees s, pid ∉ running s.stack
  all : s.stack = [] → ∀ pid, 1 ≤ pid → pid < s.kernel.pidCounter → pid ∈ freed
  cached : ∀ pid i turn rest, s.stack = .line pid i turn::rest → (pid,i) ∈ s.kernel.lru

/-- The activations while no line starts a scheduler. -/
inductive Shallow : State ω → Prop
  | shell {s : State ω} (h : s.stack = []) (hall : s.kernel.all = []) : Shallow s
  | scheduler {s : State ω} (h : s.stack = [.scheduler]) : Shallow s
  | line {s : State ω} (pid i : ℕ) (turn : Turn) (h : s.stack = [.line pid i turn,.scheduler])
    (hl : (pid,i) ∈ s.kernel.lru) : Shallow s

theorem Called.shallow {K : Kernel} {pid : ℕ} (h : Called freed K pid [.scheduler] s') : Shallow s' := by
  rcases h.stack with hs | ⟨i,turn,hs,hl⟩
  · exact .scheduler hs
  · exact .line pid i turn hs hl

theorem Reach.shallow (h : Reach border C (Quiet C) s freed) : Shallow s := by
  induction h with
  | start mem w => exact .shell rfl rfl
  | command mem w _ hs ih =>
    cases ih with
    | shell _ hall => exact .shell rfl hall
    | scheduler h => exact absurd (hs.symm.trans h) (by simp)
    | line _ _ _ h => exact absurd (hs.symm.trans h) (by simp)
  | launch script more _ hs hl ih =>
    obtain ⟨K,-,rfl⟩ := Option.map_eq_some_iff.mp hl
    exact .scheduler rfl
  | @tick s s' freed hr hq ht ih =>
    have hgood := hr.good
    cases ih with
    | shell hs hall =>
      rw [Pager.tick,hs] at ht
      obtain rfl := Option.some.inj ht
      exact .shell hs hall
    | scheduler hs =>
      rcases tick_scheduler hgood.ok hs ht with ⟨-,hK,hstack⟩ | ⟨-,pid,hcall⟩
      · exact .shell hstack (hK ▸ rfl)
      · exact Called.shallow (hs ▸ hcall)
    | line pid i turn hs hl =>
      rw [Pager.tick,hs] at ht
      obtain ⟨p,hp,ht⟩ := Option.bind_eq_some_iff.mp ht
      obtain ⟨ret,mem,w,hC⟩ := hq pid i turn _ p hs hp
      rw [hC] at ht
      have hok : Kernel.Ok freed s.kernel.lru { s.kernel with mem := mem } :=
        hgood.ok.of_eq rfl rfl rfl (List.Subset.refl _)
      exact (finishLine_called hok ht).1.shallow

theorem frees_cases (s : State ω) : frees s = [] ∨ frees s = s.kernel.all ∧ ∃ rest, s.stack = .scheduler::rest := by
  unfold frees
  split
  case h_1 rest hs =>
    split_ifs
    · exact .inr ⟨rfl,rest,hs⟩
    · exact .inl rfl
  case h_2 => exact .inl rfl

/-- As long as no line of a script starts a scheduler, processes are freed in order. -/
theorem freed_inOrder (h : Reach border C (Quiet C) s freed) : InOrder freed s := by
  have hgood := h.good
  have hshallow := h.shallow
  refine ⟨?_,fun pid hpid => ?_,fun hs pid h1 h2 => ?_,fun pid i turn rest hs => ?_⟩
  · rcases frees_cases s with hf | ⟨hf,-⟩
    · rw [hf,List.append_nil]
      exact (List.nodup_append.mp hgood.ok.nodup).1
    · exact hf ▸ hgood.ok.nodup
  · rcases frees_cases s with hf | ⟨-,rest,hs⟩
    · simp [hf] at hpid
    · cases hshallow with
      | shell h => simp [h] at hs
      | scheduler h => simp [h,running]
      | line _ _ _ h => simp [h] at hs
  · cases hshallow with
    | shell _ hall =>
      have := (hgood.ok.mem_iff pid).mpr ⟨h1,h2⟩
      rwa [hall,List.append_nil] at this
    | scheduler h => simp [h] at hs
    | line _ _ _ h => simp [h] at hs
  · cases hshallow with
    | shell h => simp [h] at hs
    | scheduler h => simp [h] at hs
    | line pid' i' turn' h hl =>
      rw [h] at hs
      obtain ⟨rfl,rfl,-⟩ := Activation.line.inj (List.cons.inj hs).1
      exact hl

/-- Memory without variables or frames in use. -/
def blank : Memory := fun _ => emptyCell

/-- Commands that do nothing, but for a line `run b` that starts a script with the one line `x`. -/
def runB : Commands Unit := fun line mem w => if line = cstr "run b" then .launch (cstr "x") [] w else .done 0 mem w

def shellStart : State Unit := ⟨⟨blank,fun _ => none,1,[],[],[]⟩,(),[]⟩

/-- The line that is about to be executed. -/
def nextLine (s : State ω) : Option CString := match s.stack with
  | .line pid i _::_ => (s.kernel.pcb pid).map fun p => (s.kernel.mem ((p.pageTable i).index (p.programCounter i))).value
  | _ => none

theorem quiet_of_nextLine {s : State Unit} (h : nextLine s ≠ some (cstr "run b")) : Quiet runB s := by
  intro pid i turn rest p hs hp
  refine ⟨0,s.kernel.mem,s.world,if_neg fun hrun => h ?_⟩
  rw [nextLine,hs]
  dsimp only
  rw [hp,Option.map_some,hrun]

/-- Two scripts of one line each, up to the end. -/
theorem freed_inOrder_two : ∃ s freed, runFor 6 runB 5 (cstr "x") [cstr "y"] shellStart = some s ∧ s.stack = [] ∧
    1 ∈ freed ∧ 2 ∈ freed ∧ InOrder freed s := by
  have hrun : (runFor 6 runB 5 (cstr "x") [cstr "y"] shellStart).map (fun s => (s.stack,s.kernel.pidCounter)) = some ([],3) := by
    decide +kernel
  obtain ⟨s,hs,he⟩ := Option.map_eq_some_iff.mp hrun
  obtain ⟨hstack,hcount⟩ := Prod.mk.inj he
  obtain ⟨s₁,h1,h2⟩ := Option.bind_eq_some_iff.mp hs
  have hlines : ∀ k < 5, ((launch 6 (cstr "x") [cstr "y"] shellStart).bind (ticks 6 runB k)).all
      (fun s => nextLine s != some (cstr "run b")) = true := by decide +kernel
  obtain ⟨freed,hreach⟩ := (Reach.launch (cstr "x") [cstr "y"] (.start blank ()) rfl h1).ticks (fun k hk s' hs' => by
    have hline := hlines k hk
    rw [h1,Option.bind_some,hs',Option.all_some] at hline
    exact quiet_of_nextLine (bne_iff_ne.mp hline)) h2
  have horder := freed_inOrder hreach
  exact ⟨s,freed,hs,hstack,horder.all hstack 1 le_rfl (hcount ▸ by decide),horder.all hstack 2 (by decide) (hcount ▸ by decide),horder⟩

/-- `run a`, where the line of `a` is `run b`: the inner scheduler frees the process that waits for it. -/
theorem frees_running : ¬ ∀ (C : Commands Unit) (s : State Unit) (freed : List ℕ),
    Reach 9 C (fun _ => True) s freed → InOrder freed s := by
  intro h
  have hsee : (runFor 9 runB 4 (cstr "run b") [] shellStart).map (fun s => (frees s,running s.stack)) =
      some ([1,2],[1]) := by decide +kernel
  obtain ⟨s,hs,hsee⟩ := Option.map_eq_some_iff.mp hsee
  obtain ⟨hf,hr⟩ := Prod.mk.inj hsee
  obtain ⟨freed,hreach⟩ := (Reach.start blank ()).runFor rfl hs
  exact (h runB s freed hreach).idle 1 (by simp [hf]) (by simp [hr])

/-! ### Memory -/

/-- Every position cleared with a process is one that a page of it has as an index. -/
def Contained (p : PCB) : Prop := ∀ pos ∈ clearedByFree p, ∃ k < p.pageTableSize, ∃ j < 3, pos = (p.pageTable k).index j

theorem mem_clearedByFree {p : PCB} {pos : ℕ} : pos ∈ clearedByFree p ↔
    ∃ k < p.pageTableSize, ∃ j < 3, ∃ i < 3, pos = (p.pageTable k).index j + i := by
  simp only [clearedByFree,List.mem_flatMap,List.mem_map,List.mem_range,eq_comm]

/-- The slots after the largest index are cleared too. -/
theorem not_contained {p : PCB} (h : 1 ≤ p.pageTableSize) : ¬ Contained p := by
  intro hc
  let indices := (List.range p.pageTableSize).flatMap fun k => (List.range 3).map (p.pageTable k).index
  have hmem : ∀ pos, pos ∈ indices ↔ ∃ k < p.pageTableSize, ∃ j < 3, pos = (p.pageTable k).index j := by
    intro pos
    simp only [indices,List.mem_flatMap,List.mem_map,List.mem_range,eq_comm]
  have hne : indices.toFinset.Nonempty :=
    ⟨_,List.mem_toFinset.mpr ((hmem _).mpr ⟨0,h,0,by decide,rfl⟩)⟩
  have hmax := Finset.max'_mem _ hne
  obtain ⟨k,hk,j,hj,he⟩ := (hmem _).mp (List.mem_toFinset.mp hmax)
  have hnext := hc (indices.toFinset.max' hne + 1) (mem_clearedByFree.mpr ⟨k,hk,j,hj,1,by decide,by rw [he]⟩)
  have hle := Finset.le_max' _ _ (List.mem_toFinset.mpr ((hmem _).mpr hnext))
  omega

/-- A run that returns from the state `s` leaves the variables as they were before, and clears with
a process only what its pages had. -/
def Undisturbed (border varStoreSize : ℕ) (before : Memory) (s : State ω) : Prop :=
  (∀ pos, border ≤ pos → pos < border + varStoreSize → s.kernel.teardown.mem pos = before pos) ∧
    ∀ pid ∈ frees s, ∀ p, s.kernel.pcb pid = some p → Contained p

/-- No run that returns is like that. -/
theorem return_disturbs {ok : State ω → Prop} (h : Reach border C ok s freed) {rest : List Activation}
    (hstack : s.stack = .scheduler::rest) (hdone : s.kernel.queueDone = true) (varStoreSize : ℕ) (before : Memory) :
    ¬ Undisturbed border varStoreSize before s := by
  have hgood := h.good
  have hf : frees s = s.kernel.all := by simp only [frees,hstack,hdone,if_true]
  obtain ⟨pid,hpid⟩ := List.exists_mem_of_ne_nil _ (hgood.all rest hstack)
  obtain ⟨p,hp⟩ := Option.isSome_iff_exists.mp ((hgood.ok.live pid).mp hpid)
  intro hu
  exact not_contained (hgood.ok.table pid p hp) (hu.2 pid (hf ▸ hpid) p hp)

/-- The shell with one variable behind a frame store of three slots. -/
def oneVariable : State Unit :=
  ⟨⟨Function.update blank 3 ⟨cstr "x",cstr "5"⟩,fun _ => none,1,[],[],[]⟩,(),[]⟩

/-- `run` of a script with the one line `a`. -/
def oneLine : Option (State Unit) := runFor 3 runB 2 (cstr "a") [] oneVariable

theorem oneLine_reach {s : State Unit} (h : oneLine = some s) :
    (∃ freed, Reach 3 runB (fun _ => True) s freed) ∧ s.stack = [.scheduler] ∧ s.kernel.queueDone = true := by
  have hsee : oneLine.map (fun s => (s.stack,s.kernel.queueDone)) = some ([.scheduler],true) := by decide +kernel
  rw [h] at hsee
  obtain ⟨h1,h2⟩ := Prod.mk.inj (Option.some.inj hsee)
  exact ⟨(Reach.start _ ()).runFor rfl h,h1,h2⟩

theorem return_disturbs_oneLine : ∃ s, oneLine = some s ∧ ¬ Undisturbed 3 1 oneVariable.kernel.mem s := by
  obtain ⟨s,hs⟩ : ∃ s, oneLine = some s := Option.isSome_iff_exists.mp (by decide +kernel)
  obtain ⟨⟨freed,hr⟩,hstack,hdone⟩ := oneLine_reach hs
  exact ⟨s,hs,return_disturbs hr hstack hdone 1 _⟩

/-- The variable is gone after the run. -/
theorem oneLine_clears_variable : ¬ ∀ s : State Unit, oneLine = some s → Undisturbed 3 1 oneVariable.kernel.mem s := by
  intro h
  have hsee : oneLine.map (fun s => s.kernel.teardown.mem 3) = some emptyCell := by decide +kernel
  obtain ⟨s,hs,hsee⟩ := Option.map_eq_some_iff.mp hsee
  have := (h s hs).1 3 (by decide) (by decide)
  rw [hsee] at this
  revert this
  decide

end ShellOS.Pager
