import ShellOS.Pager.Rounds

/-! The scheduler with processes whose scripts are complete: every step is defined and brings the end
closer. -/
namespace ShellOS.Pager
open CLib

/-- Lines that start no process, do not return 1 and leave the frames alone. -/
def Plain {ω : Type} (border : ℕ) (C : Commands ω) (lines : Set CString) : Prop := ∀ line ∈ lines, ∀ m w,
  ∃ ret m' w', C line m w = .done ret m' w' ∧ ret ≠ 1 ∧ ∀ pos < border, m' pos = m pos

def offset : Turn → ℕ
  | .second => 1
  | _ => 0

def budget : Turn → ℕ
  | .first => 2
  | _ => 1

/-- The lines left when `run_proc` is called. -/
def room (left : ℕ) : Turn → Prop
  | .first => 2 ≤ left
  | .second => 1 ≤ left
  | .single => left = 1

theorem room_pos {left : ℕ} {turn : Turn} (h : room left turn) : 1 ≤ left := by
  cases turn <;> simp only [room] at h <;> omega

variable {ω : Type} {border : ℕ} {text : ℕ → CString} {done ld : ℕ → ℕ} {K K' : Kernel} {w : ω} {pid : ℕ} {turn : Turn}
  {active : List ℕ}

/-- The processes between two turns. -/
def Phase (text : ℕ → CString) (done ld : ℕ → ℕ) (K : Kernel) : Prop :=
  (∃ r before after, InStep text r before after done ld K) ∨ Later text 0 done ld K

/-- A process that `run_proc` is called for. -/
structure Ready (border : ℕ) (text : ℕ → CString) (pid : ℕ) (turn : Turn) (done ld : ℕ → ℕ) (K : Kernel) : Prop where
  party : Party border text [pid] done ld K
  room : room (countLines (text pid) - done pid) turn
  phase : (∃ r before after, InStep text r before after done ld K ∧ done pid = 2 * r + offset turn) ∨
    Later text (budget turn) done ld K

/-- The states of `run_proc_RR` before it returns. -/
inductive Running (border : ℕ) (text : ℕ → CString) : State ω → (ℕ → ℕ) → (ℕ → ℕ) → Prop
  | scheduler {K : Kernel} {w : ω} {done ld : ℕ → ℕ} (party : Party border text [] done ld K)
    (phase : Phase text done ld K) : Running border text ⟨K,w,[.scheduler]⟩ done ld
  | line {K : Kernel} {w : ω} {done ld : ℕ → ℕ} {pid : ℕ} {turn : Turn} (ready : Ready border text pid turn done ld K)
    (resident : (pid,done pid / 3) ∈ K.lru) :
    Running border text ⟨K,w,[.line pid (done pid / 3) turn,.scheduler]⟩ done ld

/-! ### What is left to do -/

def workOf (text : ℕ → CString) (done ld : ℕ → ℕ) (pid : ℕ) : ℕ :=
  4 * (countLines (text pid) - done pid) + 2 * (pageTableSizeOf (countLines (text pid)) - ld pid)

/-- Lines to execute, pages to load and processes to look at. -/
def work (text : ℕ → CString) (done ld : ℕ → ℕ) (K : Kernel) : ℕ :=
  ∑ pid ∈ K.all.toFinset, workOf text done ld pid + K.queue.length

/-- Less work for one process, the same for the others. -/
theorem work_drop {done' ld' : ℕ → ℕ} {c : ℕ} (hpid : pid ∈ K.all) (hall : K'.all = K.all)
    (hself : workOf text done' ld' pid + c ≤ workOf text done ld pid)
    (hother : ∀ q, q ≠ pid → workOf text done' ld' q = workOf text done ld q) :
    work text done' ld' K' + c + K.queue.length ≤ work text done ld K + K'.queue.length := by
  have hm := List.mem_toFinset.mpr hpid
  have h1 := Finset.add_sum_erase K.all.toFinset (workOf text done ld) hm
  have h2 := Finset.add_sum_erase K.all.toFinset (workOf text done' ld') hm
  have h3 : ∑ q ∈ K.all.toFinset.erase pid, workOf text done' ld' q =
      ∑ q ∈ K.all.toFinset.erase pid, workOf text done ld q :=
    Finset.sum_congr rfl fun q hq => hother q (Finset.ne_of_mem_erase hq)
  unfold work
  rw [hall]
  omega

/-! ### Steps of a turn -/

theorem Party.change (h : Party border text active done ld K) {active' : List ℕ} {done' ld' : ℕ → ℕ}
    (hcore : Core border text done' ld' K') (hall : K'.all = K.all)
    (hperm : (active' ++ K'.queue).Perm (active ++ K.queue))
    (hdone : ∀ q, q ∉ active ++ K.queue → done' q = done q) : Party border text active' done' ld' K' :=
  ⟨hcore,hperm.nodup_iff.mpr h.nodup,fun q hq => hall ▸ h.known q (hperm.mem_iff.mp hq),
    fun q hq hn => by
      have hn' := fun hc => hn (hperm.mem_iff.mpr hc)
      rw [hdone q hn']
      exact h.rest q (hall ▸ hq) hn',hall ▸ h.frames,fun q hq => h.complete q (hall ▸ hq)⟩

/-- The active process has executed all its lines. -/
theorem Party.leave (h : Party border text [pid] done ld K) (hdone : done pid = countLines (text pid)) :
    Party border text [] done ld K :=
  ⟨h.core,(List.nodup_cons.mp h.nodup).2,fun q hq => h.known q (List.mem_cons_of_mem _ hq),
    fun q hq hn => by
      rcases eq_or_ne q pid with rfl | hne
      · exact hdone
      · exact h.rest q hq fun hc => (List.mem_cons.mp hc).elim hne hn,h.frames,h.complete⟩

theorem Ready.pid_mem (h : Ready border text pid turn done ld K) : pid ∈ K.all := h.party.known pid (by simp)

theorem Ready.lt (h : Ready border text pid turn done ld K) : done pid < countLines (text pid) := by
  have := room_pos h.room
  omega

/-- While the processes are in step, the line to execute is on one of the first two pages. -/
theorem InStep.resident {r : ℕ} {before after : List ℕ} (h : InStep text r before after done ld K) (hpid : pid ∈ K.all)
    (hdone : done pid ≤ 2 * r + 1) (hlt : done pid < countLines (text pid)) : (pid,done pid / 3) ∈ K.lru := by
  obtain ⟨hld,hin⟩ := h.initial pid hpid
  refine hin _ ?_
  have := h.round
  rw [hld,pageTableSizeOf_eq]
  omega

/-- A call of `run_proc` comes to its line, or there is a page fault and the process is queued. -/
theorem Ready.startLine (h : Ready border text pid turn done ld K) (w : ω) :
    ∃ s ld', startLine border K w pid turn [.scheduler] = some s ∧ Running border text s done ld' ∧
      work text done ld' s.kernel ≤ work text done ld K := by
  have hpid := h.pid_mem
  have hlt := h.lt
  obtain ⟨p,hp,hproc⟩ := h.party.core.procs pid hpid
  have hcur := hproc.currentPage_eq hlt
  have hpage : ¬ p.pageTableSize ≤ done pid / 3 := by
    rw [hproc.table,pageTableSizeOf_eq]
    omega
  have hnext := hproc.next hlt (h.party.complete pid hpid)
  unfold Pager.startLine
  rw [hp,Option.bind_some]
  simp only [hcur]
  rw [if_neg hpage]
  by_cases hres : (pid,done pid / 3) ∈ K.lru
  · rw [if_pos hres] at hnext
    rw [if_pos hnext]
    exact ⟨_,ld,rfl,.line h hres,le_rfl⟩
  rw [if_neg hres] at hnext
  obtain ⟨hinvalid,hld⟩ := hnext
  have hlater : Later text (budget turn) done ld K := by
    refine h.phase.resolve_left ?_
    rintro ⟨r,before,after,hin,hdone⟩
    refine hres (hin.resident hpid ?_ hlt)
    cases turn <;> simp only [offset] at hdone <;> omega
  have hu := unfinished_iff.mpr hlt
  have hlong := hlater.long_of_unfinished hpid hu
  have hborder : 3 ≤ border := by
    have := h.party.frames
    have : 0 < K.all.countP (long text) := List.countP_pos_iff.mpr ⟨pid,hpid,hlong⟩
    omega
  have hbudget : 1 ≤ budget turn ∧ budget turn ≤ 2 := by cases turn <;> decide
  have hk : ld pid < pageTableSizeOf (countLines (text pid)) := by
    rw [hld,← hproc.table]
    omega
  obtain ⟨K',hfault,hcore,hqueue,hall,hlru⟩ := h.party.core.pageFault hpid hk hborder
    fun hnone => hlater.victim h.party hbudget.1 hld hnone
  rw [hinvalid,if_neg Bool.false_ne_true,← hld,hfault]
  have hphase : Later text (budget turn - 1) done (Function.update ld pid (ld pid + 1)) K' :=
    Later.pageFault (by rwa [Nat.sub_add_cancel hbudget.1]) h.party (by omega) hu hld hqueue hall hlru
  have hperm : (([] : List ℕ) ++ K'.queue).Perm ([pid] ++ K.queue) := by
    rw [hqueue]
    exact List.perm_append_singleton pid K.queue
  refine ⟨_,_,rfl,.scheduler (h.party.change hcore hall hperm fun _ _ => rfl) (.inr (hphase.mono (Nat.zero_le _))),?_⟩
  have hdrop := @work_drop text done ld K K' pid done (Function.update ld pid (ld pid + 1)) 2 hpid hall (by
      unfold workOf
      rw [Function.update_self]
      omega) (fun q hq => by rw [workOf,workOf,Function.update_of_ne hq])
  rw [hqueue,List.length_append,List.length_singleton] at hdrop
  dsimp only
  omega

/-- The processes after a line of the active one. -/
theorem Ready.execute (h : Ready border text pid turn done ld K) (hres : (pid,done pid / 3) ∈ K.lru)
    (hcore : Core border text (Function.update done pid (done pid + 1)) ld K')
    (hlru : K'.lru = (pid,done pid / 3)::K.lru.erase (pid,done pid / 3)) (hqueue : K'.queue = K.queue)
    (hall : K'.all = K.all) : Party border text [pid] (Function.update done pid (done pid + 1)) ld K' ∧
      ((∃ r before after, InStep text r before after (Function.update done pid (done pid + 1)) ld K' ∧
        done pid = 2 * r + offset turn) ∨
      Later text (budget turn - 1) (Function.update done pid (done pid + 1)) ld K' ∧ 3 * (ld pid - 1) ≤ done pid) := by
  have hpid : pid ∉ K.queue := (List.nodup_cons.mp h.party.nodup).1
  have hne : ∀ q ∈ K.queue, Function.update done pid (done pid + 1) q = done q :=
    fun q hq => Function.update_of_ne (fun hc : q = pid => hpid (hc ▸ hq)) _ _
  refine ⟨h.party.change hcore hall (by rw [hqueue]) fun q hq => ?_,?_⟩
  · exact Function.update_of_ne (fun hc => hq (by simp [hc])) _ _
  rcases h.phase with ⟨r,before,after,hin,hdone⟩ | hlater
  · refine .inl ⟨r,before,after,⟨hin.round,hqueue.trans hin.queue,fun q hq => ?_,fun q hq => ?_,fun q hq => ?_⟩,hdone⟩
    · rw [hne q (by rw [hin.queue]; simp [hq])]
      exact hin.before q hq
    · rw [hne q (by rw [hin.queue]; simp [hq])]
      exact hin.after q hq
    · obtain ⟨h1,h2⟩ := hin.initial q (hall ▸ hq)
      refine ⟨h1,fun k hk => ?_⟩
      rw [hlru]
      exact (List.perm_cons_erase hres).mem_iff.mp (h2 k hk)
  · have hb : budget turn = budget turn - 1 + 1 := by cases turn <;> rfl
    rw [hb] at hlater
    have hahead := hlater.ahead pid h.pid_mem (unfinished_iff.mpr h.lt)
    exact .inr ⟨hlater.execute hpid h.pid_mem hqueue hall hlru hahead,hahead⟩

/-- The end of `run_proc` after a line, and what the scheduler does next. -/
theorem Ready.finishLine (h : Ready border text pid turn done ld K) (hres : (pid,done pid / 3) ∈ K.lru) {ret : ℤ}
    (hret : ret ≠ 1) (w : ω) : ∃ s done' ld',
      finishLine border ret K w pid (done pid / 3) turn [.scheduler] = some s ∧ Running border text s done' ld' ∧
      work text done' ld' s.kernel < work text done ld K := by
  have hpid := h.pid_mem
  have hlt := h.lt
  obtain ⟨p,hp,hproc⟩ := h.party.core.procs pid hpid
  obtain ⟨K',hmove,hcore,hlru,hqueue,hall⟩ := h.party.core.execute hpid hp hlt hres
  obtain ⟨hparty,hphase⟩ := h.execute hres hcore hlru hqueue hall
  have hdone : Function.update done pid (done pid + 1) pid = done pid + 1 := Function.update_self _ _ _
  have hdrop := @work_drop text done ld K K' pid (Function.update done pid (done pid + 1)) ld 4 hpid hall (by
      unfold workOf
      rw [hdone]
      omega) (fun q hq => by rw [workOf,workOf,Function.update_of_ne hq])
  rw [hqueue] at hdrop
  unfold Pager.finishLine
  rw [hp,Option.bind_some]
  dsimp only
  rw [if_neg hret,hmove,Option.bind_some]
  have hroom := h.room
  cases turn with
  | first =>
    simp only [Pager.room] at hroom
    have hready : Ready border text pid .second (Function.update done pid (done pid + 1)) ld K' := by
      refine ⟨hparty,?_,?_⟩
      · simp only [Pager.room,hdone]
        omega
      · rcases hphase with ⟨r,before,after,hin,hd⟩ | ⟨hlater,-⟩
        · refine .inl ⟨r,before,after,hin,?_⟩
          rw [hdone,hd]
          rfl
        · exact .inr hlater
    obtain ⟨s,ld',hs,hrun,hwork⟩ := hready.startLine w
    exact ⟨s,_,ld',hs,hrun,by omega⟩
  | second =>
    have hcore' : Core border text (Function.update done pid (done pid + 1)) ld { K' with queue := K'.queue ++ [pid] } :=
      hcore.of_perm rfl rfl (List.Perm.refl _) fun _ _ => rfl
    have hparty' : Party border text [] (Function.update done pid (done pid + 1)) ld
        { K' with queue := K'.queue ++ [pid] } :=
      hparty.change hcore' rfl (List.perm_append_singleton pid K'.queue) fun _ _ => rfl
    refine ⟨_,_,_,rfl,.scheduler hparty' ?_,?_⟩
    · rcases hphase with ⟨r,before,after,hin,hd⟩ | ⟨hlater,hahead⟩
      · refine .inl ⟨r,before,after ++ [pid],⟨hin.round,?_,hin.before,fun q hq => ?_,hin.initial⟩⟩
        · rw [hin.queue,List.append_assoc]
        · rcases List.mem_append.mp hq with hq | hq
          · exact hin.after q hq
          · rw [List.mem_singleton.mp hq,hdone,hd]
            simp only [offset] at hd ⊢
            omega
      · refine .inr (hlater.requeue hparty fun hu hd => ?_)
        rw [hdone] at hd
        rw [hlru,show ld pid - 1 = done pid / 3 by omega,List.idxOf_cons_self]
    · have : work text (Function.update done pid (done pid + 1)) ld { K' with queue := K'.queue ++ [pid] } =
          work text (Function.update done pid (done pid + 1)) ld K' + 1 := by
        unfold work
        rw [List.length_append,List.length_singleton]
        rfl
      dsimp only
      omega
  | single =>
    simp only [Pager.room] at hroom
    refine ⟨_,_,_,rfl,.scheduler (hparty.leave (by rw [hdone]; omega)) ?_,?_⟩
    · rcases hphase with ⟨r,before,after,hin,-⟩ | ⟨hlater,-⟩
      · exact .inl ⟨r,before,after,hin⟩
      · exact .inr hlater
    · dsimp only
      omega

end ShellOS.Pager
