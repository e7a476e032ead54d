import ShellOS.Pager.Progress

/-! Whole runs of scripts that have all the lines counted: they return, and until then every page holds
its own lines. -/
namespace ShellOS.Pager
open CLib
variable {ω : Type} {border : ℕ} {C : Commands ω} {text : ℕ → CString} {done ld : ℕ → ℕ} {K K' : Kernel} {w : ω}
  {pid : ℕ} {s s' : State ω}

/-! ### The beginning -/

/-- The processes before anything is executed. -/
structure Started (border : ℕ) (text : ℕ → CString) (ld : ℕ → ℕ) (K : Kernel) : Prop where
  core : Core border text (fun _ => 0) ld K
  queue : K.queue = K.all
  nodup : K.all.Nodup
  lt : ∀ pid ∈ K.all, pid < K.pidCounter
  later : ∀ pid, K.pidCounter ≤ pid → ld pid = 0
  initial : ∀ pid ∈ K.all, ld pid = min 2 (pageTableSizeOf (countLines (text pid))) ∧ ∀ k < ld pid, (pid,k) ∈ K.lru

/-- A process with no page loaded joins the others. -/
theorem Core.join {done : ℕ → ℕ} (h : Core border text done ld K) (hpid : pid ∉ K.all) (hdone : done pid = 0)
    (hld : ld pid = 0) {p : PCB} (hp : p = ⟨pid,countLines (text pid),pageTableSizeOf (countLines (text pid)),
      fun _ => 0,fun _ => pageInit,readLines (text pid)⟩) :
    Core border text done ld { K.setPcb pid p with all := K.all ++ [pid] } := by
  have hnew : ∀ k, (pid,k) ∉ K.lru := fun k hc => hpid (h.owner _ hc)
  have hstart : ∀ r ∈ K.lru, Kernel.start { K.setPcb pid p with all := K.all ++ [pid] } r = K.start r := by
    intro r hr
    have hne : r.1 ≠ pid := fun hc => hpid (hc ▸ h.owner r hr)
    rw [Kernel.start,Kernel.start]
    exact congrArg (fun o : Option PCB => (o.map fun p => (p.pageTable r.2).index 0).getD 0) (Kernel.setPcb_ne K p hne)
  refine ⟨fun q hq => ?_,fun r hr => List.mem_append_left _ (h.owner r hr),h.nodup,fun r hr => ?_,
    fun r hr r' hr' he => ?_,fun pos hpos hfree => ?_,fun r hr j hj => ?_⟩
  · rcases eq_or_ne q pid with rfl | hne
    · refine ⟨p,Kernel.setPcb_self K q p,?_⟩
      rw [hdone,hld]
      subst hp
      exact ⟨rfl,rfl,rfl,fun k => by simp,rfl,Nat.zero_le _,le_rfl,fun k hk => absurd hk (hnew k),
        fun k _ => ⟨fun _ => rfl,fun hc => absurd hc (Nat.not_lt_zero _)⟩⟩
    · obtain ⟨p',hp',hproc⟩ := h.procs q ((List.mem_append.mp hq).resolve_right fun hc => hne (List.mem_singleton.mp hc))
      exact ⟨p',(Kernel.setPcb_ne K p hne).trans hp',hproc⟩
  · rw [hstart r hr]
    exact h.aligned r hr
  · rw [hstart r hr,hstart r' hr'] at he
    exact h.inj r hr r' hr' he
  · exact h.free pos hpos fun r hr => hstart r hr ▸ hfree r hr
  · rw [hstart r hr]
    exact h.held r hr j hj

/-- The pages loaded by `PCB_init`, one after the other. -/
theorem Core.loadPages {done : ℕ → ℕ} {p : PCB} (h : Core border text done ld K) (hpid : pid ∈ K.all)
    (hp : K.pcb pid = some p) (hld : ld pid = 0) (n : ℕ) (hn : n ≤ pageTableSizeOf (countLines (text pid)))
    {r : PCB × Memory}
    (hr : (List.range n).foldlM (fun (r : PCB × Memory) k => loadPage border r.1 k r.2) (p,K.mem) = some r) :
    Core border text done (Function.update ld pid n)
      { K.setPcb pid r.1 with mem := r.2, lru := ((List.range n).map fun k => (pid,k)).reverse ++ K.lru } := by
  induction n generalizing r with
  | zero =>
    obtain rfl := Option.some.inj hr
    rw [show Function.update ld pid 0 = ld by rw [← hld]; exact Function.update_eq_self _ _]
    refine h.of_perm ?_ rfl (List.Perm.refl _) fun _ _ => rfl
    dsimp only [Kernel.setPcb]
    rw [← hp]
    exact Function.update_eq_self _ _
  | succ n ih =>
    rw [List.range_succ,List.foldlM_append] at hr
    obtain ⟨r1,hr1,hr2⟩ := Option.bind_eq_some_iff.mp hr
    replace hr2 : loadPage border r1.1 n r1.2 = some r := by simpa using hr2
    have h1 := ih (Nat.le_of_succ_le hn) hr1
    have hself : Function.update ld pid n pid = n := Function.update_self _ _ _
    have h2 := @h1.load _ _ _ _ _ pid r1.1 hpid (Kernel.setPcb_self K pid r1.1) (by rw [hself]; exact hn) r
      (by rw [hself]; exact hr2)
    rw [hself,Function.update_idem] at h2
    refine h2.of_perm ?_ rfl ?_ fun _ _ => rfl
    · dsimp only [Kernel.setPcb]
      rw [Function.update_idem]
    · rw [List.range_succ,List.map_append,List.reverse_append]
      exact List.Perm.refl _

theorem Started.newProc (h : Started border text ld K) {script : CString} (htext : text K.pidCounter = script)
    (hn : K.newProc border script = some K') :
    Started border text (Function.update ld K.pidCounter (min 2 (pageTableSizeOf (countLines script)))) K' ∧
      K'.all = K.all ++ [K.pidCounter] ∧ K'.pidCounter = K.pidCounter + 1 := by
  obtain ⟨r,hr,rfl⟩ := Option.map_eq_some_iff.mp hn
  subst htext
  set pid := K.pidCounter
  have hnew : pid ∉ K.all := fun hc => lt_irrefl _ (h.lt pid hc)
  have hjoin := h.core.join hnew rfl (h.later pid le_rfl) rfl
  have hload := @hjoin.loadPages _ _ _ _ pid _ _ (List.mem_append_right _ (List.mem_singleton_self _))
    (Kernel.setPcb_self K pid _) (h.later pid le_rfl) _ (min_le_right 2 _) r hr
  have hsize : r.1.pageTableSize = pageTableSizeOf (countLines (text pid)) := (loadPages_spec _ hr).1
  have hlru : ∀ q k, (q,k) ∈ ((List.range (min 2 r.1.pageTableSize)).map fun k => (pid,k)).reverse ++ K.lru ↔
      (q = pid ∧ k < min 2 (pageTableSizeOf (countLines (text pid)))) ∨ (q,k) ∈ K.lru := by
    intro q k
    rw [List.mem_append,List.mem_reverse,List.mem_map,hsize]
    refine or_congr_left ⟨?_,?_⟩
    · rintro ⟨k',hk,he⟩
      obtain ⟨rfl,rfl⟩ := Prod.mk.inj he
      exact ⟨rfl,List.mem_range.mp hk⟩
    · rintro ⟨rfl,hk⟩
      exact ⟨k,List.mem_range.mpr hk,rfl⟩
  refine ⟨⟨hload.of_perm ?_ rfl ?_ fun _ _ => rfl,?_,?_,fun q hq => ?_,fun q hq => ?_,fun q hq => ?_⟩,rfl,rfl⟩
  · dsimp only [Kernel.setPcb]
    rw [Function.update_idem]
  · dsimp only
    rw [hsize]
    exact List.Perm.refl _
  · dsimp only
    rw [h.queue]
  · exact List.nodup_append.mpr ⟨h.nodup,List.nodup_singleton _,
      fun a ha b hb hab => hnew (List.mem_singleton.mp hb ▸ hab ▸ ha)⟩
  · rcases List.mem_append.mp hq with hq | hq
    · exact Nat.lt_succ_of_lt (h.lt q hq)
    · rw [List.mem_singleton.mp hq]
      exact Nat.lt_succ_self _
  · dsimp only at hq
    rw [Function.update_of_ne (by omega)]
    exact h.later q (by omega)
  · rcases eq_or_ne q pid with rfl | hne
    · rw [Function.update_self]
      exact ⟨rfl,fun k hk => (hlru _ k).mpr (.inl ⟨rfl,hk⟩)⟩
    · rw [Function.update_of_ne hne]
      obtain ⟨h1,h2⟩ := h.initial q ((List.mem_append.mp hq).resolve_right fun hc => hne (List.mem_singleton.mp hc))
      exact ⟨h1,fun k hk => (hlru _ k).mpr (.inr (h2 k hk))⟩

theorem Started.newProcs {scripts : List CString} (h : Started border text ld K)
    (htext : ∀ i t, scripts[i]? = some t → text (K.pidCounter + i) = t) (hn : K.newProcs border scripts = some K') :
    ∃ ld', Started border text ld' K' ∧ ∀ pid ∈ K'.all, pid ∈ K.all ∨ text pid ∈ scripts := by
  induction scripts generalizing K ld with
  | nil =>
    obtain rfl := Option.some.inj hn
    exact ⟨ld,h,fun pid hpid => .inl hpid⟩
  | cons script scripts ih =>
    obtain ⟨K1,h1,h2⟩ := Option.bind_eq_some_iff.mp hn
    have hscript : text K.pidCounter = script := htext 0 script rfl
    obtain ⟨hs,hall,hcount⟩ := h.newProc hscript h1
    obtain ⟨ld',hs',hknown⟩ := ih hs (fun i t hi => by
      rw [hcount,Nat.add_assoc,Nat.add_comm 1 i]
      exact htext (i + 1) t hi) h2
    refine ⟨ld',hs',fun pid hpid => ?_⟩
    rcases hknown pid hpid with hm | hm
    · rw [hall,List.mem_append,List.mem_singleton] at hm
      rcases hm with hm | rfl
      · exact .inl hm
      · exact .inr (hscript ▸ List.mem_cons_self)
    · exact .inr (List.mem_cons_of_mem _ hm)

/-- Two initial pages of each long process have frames. -/
theorem Started.frames (h : Started border text ld K) : 2 * K.all.countP (long text) ≤ border / 3 := by
  have hlen : K.lru.length ≤ border / 3 := by
    have hnodup : (K.lru.map fun r => K.start r / 3).Nodup := by
      refine List.Nodup.map_on (fun r hr r' hr' he => ?_) h.core.nodup
      have h1 := h.core.aligned r hr
      have h2 := h.core.aligned r' hr'
      exact h.core.inj r hr r' hr' (by omega)
    have hsub : (K.lru.map fun r => K.start r / 3) ⊆ List.range (border / 3) := by
      intro f hf
      obtain ⟨r,hr,rfl⟩ := List.mem_map.mp hf
      have h1 := h.core.aligned r hr
      exact List.mem_range.mpr (by omega)
    have := (hnodup.subperm hsub).length_le
    rwa [List.length_map,List.length_range] at this
  have hpages : ((K.all.filter (long text)).flatMap fun pid => [(pid,0),(pid,1)]).length ≤ K.lru.length := by
    refine List.Subperm.length_le (List.Nodup.subperm ?_ fun r hr => ?_)
    · rw [List.nodup_flatMap]
      refine ⟨fun pid _ => by simp,(h.nodup.filter _).imp fun {a b} hab r hr hr' => ?_⟩
      simp only [List.mem_cons,List.not_mem_nil,or_false] at hr hr'
      rcases hr with rfl | rfl <;> rcases hr' with he | he <;> exact hab (congrArg Prod.fst he)
    · obtain ⟨pid,hpid,hr⟩ := List.mem_flatMap.mp hr
      obtain ⟨hm,hlong⟩ := List.mem_filter.mp hpid
      obtain ⟨h1,h2⟩ := h.initial pid hm
      have : 6 < countLines (text pid) := of_decide_eq_true hlong
      rw [pageTableSizeOf_eq] at h1
      simp only [List.mem_cons,List.not_mem_nil,or_false] at hr
      rcases hr with rfl | rfl
      · exact h2 0 (by omega)
      · exact h2 1 (by omega)
  rw [List.length_flatMap] at hpages
  simp only [List.length_cons,List.length_nil,List.map_const',List.sum_replicate,smul_eq_mul] at hpages
  rw [List.countP_eq_length_filter]
  omega

theorem Started.running (h : Started border text ld K)
    (hcomplete : ∀ pid ∈ K.all, countLines (text pid) ≤ (readLines (text pid)).length) (w : ω) :
    Running border text ⟨K,w,[.scheduler]⟩ (fun _ => 0) ld := by
  refine .scheduler ⟨h.core,by rw [h.queue]; exact h.nodup,fun pid hpid => h.queue ▸ hpid,fun pid hpid hn => ?_,h.frames,
    hcomplete⟩ (.inl ⟨0,K.queue,[],by decide,(List.append_nil _).symm,fun pid _ => by simp,by simp,h.initial⟩)
  exact absurd (h.queue.symm ▸ hpid) hn

/-! ### Steps -/

/-- The first of the queue has yet to take part in a round, unless the first three are over. -/
theorem InStep.head {r : ℕ} {before after queue : List ℕ} (h : InStep text r before after done ld K)
    (hp : Party border text [] done ld K) (hq : K.queue = pid::queue) :
    (∃ r before, InStep text r (pid::before) (queue.drop before.length) done ld K ∧ queue = before ++ queue.drop before.length) ∨
      Later text 0 done ld K := by
  have hqueue := h.queue
  cases before with
  | cons pid' before =>
    rw [hq,List.cons_append] at hqueue
    obtain ⟨rfl,hrest⟩ := List.cons.inj hqueue
    have hdrop : queue.drop before.length = after := by rw [hrest,List.drop_left]
    exact .inl ⟨r,before,hdrop.symm ▸ h,hdrop.symm ▸ hrest⟩
  | nil =>
    rw [List.nil_append] at hqueue
    rcases Nat.lt_or_ge (r + 1) 3 with hr | hr
    · refine .inl ⟨r + 1,queue,⟨hr,by rw [hq]; simp,fun q hm => ?_,fun q hm => ?_,h.initial⟩,by simp⟩
      · have := h.after q (hqueue ▸ hq.symm ▸ hm)
        rw [this,Nat.mul_succ]
      · simp at hm
    · refine .inr (later_of_rounds hp (fun q hm => ?_) fun q hm => ?_)
      · have := h.after q (hqueue ▸ hm)
        have := h.round
        rw [show 2 * r + 2 = 6 by omega] at *
        assumption
      · rw [(h.initial q hm).1]
        exact min_le_left _ _

/-- The first of the queue gets its turn, or is dropped if it has no lines left. -/
theorem Phase.pop (h : Phase text done ld K) (hp : Party border text [] done ld K) {queue : List ℕ}
    (hq : K.queue = pid::queue) :
    if unfinished text done pid then
      (∃ r before after, InStep text r before after done ld { K with queue := queue } ∧ done pid = 2 * r) ∨
        Later text 2 done ld { K with queue := queue }
    else Phase text done ld { K with queue := queue } := by
  have hphase : (∃ r before after, InStep text r before after done ld { K with queue := queue } ∧
      done pid = min (countLines (text pid)) (2 * r)) ∨ Later text 0 done ld K := by
    rcases h with ⟨r,before,after,hin⟩ | hlater
    · rcases hin.head hp hq with ⟨r,before,hin,hqueue⟩ | hlater
      · exact .inl ⟨r,before,_,⟨hin.round,hqueue,fun q hm => hin.before q (List.mem_cons_of_mem _ hm),hin.after,
          hin.initial⟩,hin.before pid List.mem_cons_self⟩
      · exact .inr hlater
    · exact .inr hlater
  split_ifs with hu
  · have hlt := unfinished_iff.mp hu
    rcases hphase with ⟨r,before,after,hin,hd⟩ | hlater
    · exact .inl ⟨r,before,after,hin,by omega⟩
    · exact .inr (hlater.pop hq hu)
  · rcases hphase with ⟨r,before,after,hin,-⟩ | hlater
    · exact .inl ⟨r,before,after,hin⟩
    · exact .inr (hlater.drop hq hu)

/-- The lines of the scripts. -/
def linesOf (text : ℕ → CString) : Set CString := {line | ∃ pid, line ∈ readLines (text pid)}

/-- Every step is defined, and leaves less to do or is the last one. -/
theorem Running.tick (h : Running border text s done ld) (hC : Plain border C (linesOf text)) :
    ∃ s', tick border C s = some s' ∧ ((s'.stack = [] ∧ s'.kernel.all = []) ∨
      ∃ done' ld', Running border text s' done' ld' ∧ work text done' ld' s'.kernel < work text done ld s.kernel) := by
  cases h with
  | @scheduler K w done ld party phase =>
    unfold Pager.tick
    dsimp only
    cases hd : K.queueDone with
    | true => exact ⟨_,if_pos rfl,.inl ⟨rfl,rfl⟩⟩
    | false =>
      rw [if_neg Bool.false_ne_true]
      cases hq : K.queue with
      | nil =>
        rw [Kernel.queueDone,hq] at hd
        exact absurd hd (by simp)
      | cons pid queue =>
        have hall : pid ∈ K.all := party.known pid (by rw [hq]; simp)
        obtain ⟨p,hp,hproc⟩ := party.core.procs pid hall
        have hsize := hproc.size
        have hpop := phase.pop party hq
        have hcore : Core border text done ld { K with queue := queue } :=
          party.core.of_perm rfl rfl (List.Perm.refl _) fun _ _ => rfl
        have hparty : Party border text [pid] done ld { K with queue := queue } :=
          party.change hcore rfl (by rw [hq]; exact List.Perm.refl _) fun _ _ => rfl
        have hwork : work text done ld { K with queue := queue } < work text done ld K := by
          unfold work
          dsimp only
          rw [hq,List.length_cons]
          omega
        have hturn : ∀ turn, room (countLines (text pid) - done pid) turn → offset turn = 0 →
            ∃ s', startLine border { K with queue := queue } w pid turn [.scheduler] = some s' ∧
            ((s'.stack = [] ∧ s'.kernel.all = []) ∨ ∃ done' ld', Running border text s' done' ld' ∧
              work text done' ld' s'.kernel < work text done ld K) := by
          intro turn hroom hoff
          have hu : unfinished text done pid = true := by
            have := room_pos hroom
            exact unfinished_iff.mpr (by omega)
          rw [if_pos hu] at hpop
          have hready : Ready border text pid turn done ld { K with queue := queue } := by
            refine ⟨hparty,hroom,hpop.imp ?_ fun hl => hl.mono (by cases turn <;> decide)⟩
            rintro ⟨r,before,after,hin,hd⟩
            exact ⟨r,before,after,hin,by rw [hoff]; exact hd⟩
          obtain ⟨s',ld',hs,hrun,hle⟩ := hready.startLine w
          exact ⟨s',hs,.inr ⟨done,ld',hrun,lt_of_le_of_lt hle hwork⟩⟩
        dsimp only
        rw [hp,Option.bind_some]
        split_ifs with h1 h2
        · exact hturn .first (by simp only [room]; omega) rfl
        · exact hturn .single (by simp only [room]; omega) rfl
        · have hu : ¬ unfinished text done pid = true := fun hc => by
            have := unfinished_iff.mp hc
            omega
          rw [if_neg hu] at hpop
          exact ⟨_,rfl,.inr ⟨done,ld,.scheduler (hparty.leave (by omega)) hpop,hwork⟩⟩
  | @line K w done ld pid turn ready resident =>
    have hlt := ready.lt
    obtain ⟨p,hp,hproc⟩ := ready.party.core.procs pid ready.pid_mem
    have hcomplete := ready.party.complete pid ready.pid_mem
    have hpc := hproc.counter (done pid / 3)
    obtain ⟨-,hvalue⟩ := ready.party.core.held _ resident (done pid % 3) (Nat.mod_lt _ (by decide))
    rw [Core.start_eq K hp] at hvalue
    have hline : (K.mem ((p.pageTable (done pid / 3)).index (p.programCounter (done pid / 3)))).value ∈ linesOf text := by
      rw [(hproc.resident _ resident).2.2,hpc,show min 3 (done pid - 3 * (done pid / 3)) = done pid % 3 by omega,
        hvalue (by dsimp only; omega)]
      refine ⟨pid,?_⟩
      dsimp only
      rw [List.getD_eq_getElem _ _ (by omega)]
      exact List.getElem_mem _
    obtain ⟨ret,mem,w',hdone,hret,hmem⟩ := hC _ hline K.mem w
    have hcore : Core border text done ld { K with mem := mem } :=
      ready.party.core.of_perm rfl rfl (List.Perm.refl _) hmem
    have hready : Ready border text pid turn done ld { K with mem := mem } := by
      refine ⟨ready.party.change hcore rfl (List.Perm.refl _) fun _ _ => rfl,ready.room,ready.phase.imp ?_ ?_⟩
      · rintro ⟨r,before,after,hin,hd⟩
        exact ⟨r,before,after,⟨hin.round,hin.queue,hin.before,hin.after,hin.initial⟩,hd⟩
      · exact fun hl => ⟨hl.six,hl.ahead,hl.recent⟩
    obtain ⟨s',done',ld',hs,hrun,hwork⟩ := hready.finishLine resident hret w'
    refine ⟨s',?_,.inr ⟨done',ld',hrun,hwork⟩⟩
    unfold Pager.tick
    dsimp only
    rw [hp,Option.bind_some,hdone]
    exact hs

/-! ### Runs -/

/-- `run_proc_RR` comes back to its caller after finitely many steps. -/
def Returns (border : ℕ) (C : Commands ω) (s : State ω) : Prop := ∃ n s', ticks border C n s = some s' ∧ s'.stack = []

theorem Running.returns (h : Running border text s done ld) (hC : Plain border C (linesOf text)) : Returns border C s := by
  induction hn : work text done ld s.kernel using Nat.strong_induction_on generalizing s done ld with
  | _ n ih =>
    obtain ⟨s',ht,hend | ⟨done',ld',hrun,hlt⟩⟩ := h.tick hC
    · exact ⟨1,s',by rw [ticks,ht]; rfl,hend.1⟩
    · obtain ⟨m,s2,hm,hs2⟩ := ih _ (hn ▸ hlt) hrun rfl
      exact ⟨m + 1,s2,by rw [ticks,ht]; exact hm,hs2⟩

/-- Every loaded line of a page is the line of the script it stands for. -/
def HoldsOwnLines (text : ℕ → CString) (K : Kernel) : Prop := ∀ pid ∈ K.all, ∀ p, K.pcb pid = some p → ∀ k j, j < 3 →
  (p.pageTable k).validBit j = true → 3 * k + j < (readLines (text pid)).length ∧
    (K.mem ((p.pageTable k).index j)).value = (readLines (text pid)).getD (3 * k + j) []

theorem Core.holdsOwnLines (h : Core border text done ld K) : HoldsOwnLines text K := by
  intro pid hpid p hp k j hj hv
  obtain ⟨q,hq,hproc⟩ := h.procs pid hpid
  obtain rfl := Option.some.inj (hp.symm.trans hq)
  by_cases hm : (pid,k) ∈ K.lru
  · obtain ⟨-,hvalid,hindex⟩ := hproc.resident k hm
    rw [hvalid,decide_eq_true_eq] at hv
    refine ⟨hv.2,?_⟩
    have hheld := (h.held _ hm j hj).2 hv.2
    rw [Core.start_eq K hp] at hheld
    rwa [hindex]
  · rw [(hproc.absent k hm).1] at hv
    exact absurd hv Bool.false_ne_true

theorem Running.holdsOwnLines (h : Running border text s done ld) : HoldsOwnLines text s.kernel := by
  cases h with
  | scheduler party phase => exact party.core.holdsOwnLines
  | line ready resident => exact ready.party.core.holdsOwnLines

theorem Running.ticks {n : ℕ} (h : Running border text s done ld) (hC : Plain border C (linesOf text))
    (ht : ticks border C n s = some s') :
    (s'.stack = [] ∧ s'.kernel.all = []) ∨ ∃ done' ld', Running border text s' done' ld' := by
  induction n generalizing s done ld with
  | zero => exact .inr ⟨done,ld,Option.some.inj ht ▸ h⟩
  | succ n ih =>
    obtain ⟨s1,h1,h2⟩ := Option.bind_eq_some_iff.mp ht
    obtain ⟨s2,hs2,hend | ⟨done',ld',hrun,-⟩⟩ := h.tick hC
    · obtain rfl := Option.some.inj (h1.symm.trans hs2)
      have hstay : ∀ m, Pager.ticks border C m s1 = some s1 := fun m => by
        induction m with
        | zero => rfl
        | succ m ihm =>
          rw [Pager.ticks,Pager.tick,hend.1]
          exact ihm
      obtain rfl := Option.some.inj ((hstay n).symm.trans h2)
      exact .inl hend
    · obtain rfl := Option.some.inj (h1.symm.trans hs2)
      exact ih hrun h2

end ShellOS.Pager
