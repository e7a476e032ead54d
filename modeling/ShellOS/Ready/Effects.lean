import ShellOS.Ready.Machine

/-! What the operations do to the ready queue and to the progress of processes. -/
namespace ShellOS.Ready
open CLib Chain
variable {ω : Type} {cfg : Config} {H : Host ω} {K K' K₁ K₂ : Kernel ω} {a b index page : ℕ} {p : PCB} {r : PCB × Kernel ω}
  {q : List ℕ}

/-- How far a process is. -/
structure Progress where
  pc : ℕ
  pageCount : ℕ
  offsetEnd : ℕ
  offset : ℕ

def PCB.progress (p : PCB) : Progress := ⟨p.pc,p.pageCount,p.offsetEnd,p.offset⟩

namespace Kernel

def progress (K : Kernel ω) (a : ℕ) : Option Progress := (K.node a).map fun n => n.pcb.progress

/-- The processes are the same, in the same places. -/
structure Same (K K' : Kernel ω) : Prop where
  head : K'.head = K.head
  next : K'.next = K.next
  progress : K'.progress = K.progress
  pidCounter : K'.pidCounter = K.pidCounter
  log : K'.log = K.log

theorem Same.refl (K : Kernel ω) : Same K K := ⟨rfl,rfl,rfl,rfl,rfl⟩

theorem Same.trans (h : Same K K₁) (h' : Same K₁ K₂) : Same K K₂ :=
  ⟨h'.head.trans h.head,h'.next.trans h.next,h'.progress.trans h.progress,h'.pidCounter.trans h.pidCounter,
    h'.log.trans h.log⟩

/-- A command changed variables, messages or the host at most. -/
structure Alike (cfg : Config) (K K' : Kernel ω) : Prop where
  node : K'.node = K.node
  head : K'.head = K.head
  pidCounter : K'.pidCounter = K.pidCounter
  log : K'.log = K.log
  mem : ∀ i, cfg.varMemSize ≤ i → K'.mem i = K.mem i
  frees : K'.frees = K.frees

theorem Alike.refl (K : Kernel ω) : Alike cfg K K := ⟨rfl,rfl,rfl,rfl,fun _ _ => rfl,rfl⟩

theorem Alike.same (h : Alike cfg K K') : Same K K' := by
  refine ⟨h.head,funext fun a => ?_,funext fun a => ?_,h.pidCounter,h.log⟩
  · rw [next,h.node,next]
  · rw [progress,h.node,progress]

theorem isSome_progress (K : Kernel ω) (a : ℕ) : (K.progress a).isSome = (K.node a).isSome := Option.isSome_map

/-! ### Nodes -/

theorem progress_setPcb (h : (K.node a).isSome) : (K.setPcb a p).progress = Function.update K.progress a (some p.progress) := by
  obtain ⟨n,hn⟩ := Option.isSome_iff_exists.mp h
  funext b
  rw [progress,setPcb,hn,Option.map_some]
  dsimp only
  rw [Function.update_apply,Function.update_apply]
  split_ifs
  · rfl
  · rfl

theorem next_setPcb (K : Kernel ω) (a : ℕ) (p : PCB) : (K.setPcb a p).next = K.next := by
  funext b
  rw [next,setPcb,next]
  dsimp only
  rw [Function.update_apply]
  split_ifs with hb
  · rw [hb,Option.map_map]
    rfl
  · rfl

theorem progress_setNext (K : Kernel ω) (a : ℕ) (v : Option ℕ) : (K.setNext a v).progress = K.progress := by
  funext b
  rw [progress,setNext,progress]
  dsimp only
  rw [Function.update_apply]
  split_ifs with hb
  · rw [hb,Option.map_map]
    rfl
  · rfl

theorem next_setNext (h : (K.node a).isSome) (v : Option ℕ) : (K.setNext a v).next = Function.update K.next a (some v) := by
  obtain ⟨n,hn⟩ := Option.isSome_iff_exists.mp h
  funext b
  rw [next,setNext,hn,Option.map_some]
  dsimp only
  rw [Function.update_apply,Function.update_apply]
  split_ifs
  · rfl
  · rfl

theorem queue_eq (h : Linked K.next K.head q) (hlen : q.length ≤ K.pidCounter) : K.queue = some q := walk_eq h hlen

/-- The node of a process outside the queue becomes its last one. -/
theorem addToTail_spec (h : Linked K.next K.head q) (hlen : q.length ≤ K.pidCounter) (ha : a ∉ q)
    (hs : (K.node a).isSome) : ∃ K', K.readyQueueAddToTail a = some K' ∧ Linked K'.next K'.head (q ++ [a]) ∧
      K'.progress = K.progress ∧ K'.pidCounter = K.pidCounter ∧ K'.log = K.log := by
  unfold readyQueueAddToTail
  cases hh : K.head with
  | none =>
    obtain rfl : q = [] := h.unique (by rw [hh]; exact rfl)
    refine ⟨_,rfl,⟨rfl,none,?_,rfl⟩,progress_setNext _ a none,rfl,rfl⟩
    have hn := @next_setNext _ { K with head := some a } a hs none
    rw [hn,Function.update_self]
  | some c =>
    dsimp only
    rw [queue_eq h hlen,Option.bind_some]
    cases hlast : q.getLast? with
    | none =>
      rw [List.getLast?_eq_none_iff] at hlast
      subst hlast
      rw [hh] at h
      exact absurd h (by simp [Linked])
    | some b =>
      obtain ⟨l,rfl⟩ := List.getLast?_eq_some_iff.mp hlast
      have hab : a ≠ b := fun he => ha (by simp [he])
      obtain ⟨v,hv⟩ := h.allocated (List.mem_append_right l (List.mem_singleton_self b))
      have hb : (K.node b).isSome := by
        obtain ⟨n,hn,-⟩ := Option.map_eq_some_iff.mp hv
        rw [hn,Option.isSome_some]
      have hn1 := next_setNext hb (some a)
      have hs1 : ((K.setNext b (some a)).node a).isSome := by
        rw [← isSome_progress,progress_setNext,isSome_progress]
        exact hs
      have hn2 := next_setNext hs1 none
      have hl := h.nodup
      rw [List.nodup_append] at hl
      refine ⟨_,rfl,?_,by rw [progress_setNext,progress_setNext],rfl,rfl⟩
      have hhead : ((K.setNext b (some a)).setNext a none).head = K.head := rfl
      rw [hn2,hn1,hhead]
      refine h.snoc ?_ (Function.update_self _ _ _) fun c hc => ?_
      · rw [Function.update_of_ne hab.symm,Function.update_self]
      · have hca : c ≠ a := fun he => ha (he ▸ List.mem_append_left _ hc)
        have hcb : c ≠ b := hl.2.2 c hc b (List.mem_singleton_self b)
        rw [Function.update_of_ne hca,Function.update_of_ne hcb]

/-! ### The shell memory -/

theorem findVar_lt {var : CString} {i : ℕ} (h : K.findVar cfg var = some i) : i < cfg.varMemSize :=
  List.mem_range.mp (List.mem_of_find?_eq_some h)

theorem alike_memSetValue (cfg : Config) (var value : CString) (K : Kernel ω) : Alike cfg K (K.memSetValue cfg var value) := by
  unfold memSetValue
  cases hv : K.findVar cfg var with
  | some i => exact ⟨rfl,rfl,rfl,rfl,fun j hj => Function.update_of_ne ((findVar_lt hv).trans_le hj).ne' _ _,rfl⟩
  | none =>
    cases hn : K.findVar cfg (cstr "none") with
    | some i => exact ⟨rfl,rfl,rfl,rfl,fun j hj => Function.update_of_ne ((findVar_lt hn).trans_le hj).ne' _ _,rfl⟩
    | none => exact .refl K

end Kernel

theorem progress_dropPage (index : ℕ) (p : PCB) : (dropPage index p).progress = p.progress := by
  unfold dropPage
  cases (List.range p.pageCount).find? fun i => p.pageTable i == index with
  | none => rfl
  | some i => rfl

namespace Kernel

theorem dropVictim_spec (h : K.dropVictim index p = some r) : Same K r.2 ∧ r.1.progress = p.progress := by
  unfold dropVictim at h
  split_ifs at h
  · obtain rfl := Option.some.inj h
    exact ⟨.refl K,progress_dropPage index p⟩
  · obtain ⟨prev,-,rfl⟩ := Option.map_eq_some_iff.mp h
    cases prev with
    | none => exact ⟨.refl K,rfl⟩
    | some a =>
      dsimp only
      cases hn : K.node a with
      | none => exact ⟨.refl K,rfl⟩
      | some n =>
        refine ⟨⟨rfl,next_setPcb K a _,?_,rfl,rfl⟩,rfl⟩
        have hself : K.progress a = some n.pcb.progress := by rw [progress,hn,Option.map_some]
        rw [progress_setPcb (by rw [hn,Option.isSome_some]),progress_dropPage,← hself,Function.update_eq_self]

theorem replacePage_spec (h : K.replacePage cfg p page = some r) : Same K r.2 ∧ r.1.progress = p.progress := by
  unfold replacePage at h
  dsimp only at h
  cases hs : K.findSpace cfg with
  | some i =>
    rw [hs] at h
    obtain rfl := Option.some.inj h
    exact ⟨⟨rfl,rfl,rfl,rfl,rfl⟩,rfl⟩
  | none =>
    rw [hs] at h
    obtain ⟨r',hr,rfl⟩ := Option.map_eq_some_iff.mp h
    obtain ⟨⟨h1,h2,h3,h4,h5⟩,hp⟩ := dropVictim_spec hr
    exact ⟨⟨h1,h2,h3,h4,h5⟩,hp⟩

theorem loadFile_spec (hpc : p.pc = 0) (h : K.loadFile cfg p = some r) : Same K r.2 ∧ r.1.progress = p.progress := by
  obtain ⟨r₁,h1,h⟩ := Option.bind_eq_some_iff.mp h
  obtain ⟨hs,hp⟩ := replacePage_spec h1
  split_ifs at h
  · obtain ⟨r₂,h2,rfl⟩ := Option.map_eq_some_iff.mp h
    obtain ⟨hs',hp'⟩ := replacePage_spec h2
    simp only [PCB.progress,Progress.mk.injEq] at hp hp'
    refine ⟨hs.trans hs',?_⟩
    simp only [PCB.progress,Progress.mk.injEq]
    exact ⟨hpc.symm,hp'.2.1.trans hp.2.1,hp'.2.2.1.trans hp.2.2.1,hp'.2.2.2.trans hp.2.2.2⟩
  · exact Option.some.inj h ▸ ⟨hs,hp⟩

/-- The new process is the last one of the queue. -/
theorem enqueue_spec {filename text : CString} (h : Linked K.next K.head q) (hlen : q.length ≤ K.pidCounter)
    (hnew : K.pidCounter ∉ q) (he : K.enqueue cfg filename text = some K') :
    Linked K'.next K'.head (q ++ [K.pidCounter]) ∧ K'.pidCounter = K.pidCounter + 1 ∧
      K'.progress = Function.update K.progress K.pidCounter
        (some ⟨0,pageCountOf (lineCount text),offsetEndOf (lineCount text),0⟩) ∧
      K'.log = K.log ++ [.queued K.pidCounter text] := by
  obtain ⟨r,hr,he⟩ := Option.bind_eq_some_iff.mp he
  obtain ⟨hs,hp⟩ := loadFile_spec rfl hr
  obtain ⟨K₁,h1,hl,hprog,hcnt,hlog⟩ := @addToTail_spec _ { r.2 with
    node := Function.update r.2.node K.pidCounter (some ⟨r.1,none⟩)
    log := r.2.log ++ [.queued K.pidCounter text] } K.pidCounter q (by
      dsimp only
      rw [hs.head]
      refine h.congr fun c hc => ?_
      have hne : c ≠ K.pidCounter := fun he => hnew (he ▸ hc)
      have hold := congrFun hs.next c
      unfold next at hold ⊢
      dsimp only at hold ⊢
      rw [Function.update_of_ne hne]
      exact hold) (by
      dsimp only
      rw [hs.pidCounter]
      exact hlen.trans (Nat.le_succ _)) hnew (by simp)
  obtain rfl := Option.some.inj (h1.symm.trans he)
  refine ⟨hl,hcnt.trans hs.pidCounter,?_,?_⟩
  · rw [hprog]
    funext c
    have hold := congrFun hs.progress c
    unfold progress at hold ⊢
    dsimp only at hold ⊢
    rw [Function.update_apply,Function.update_apply]
    split_ifs
    · rw [Option.map_some,hp]
      rfl
    · exact hold
  · rw [hlog,hs.log]

end Kernel

/-! ### Commands -/

/-- What a command does to the processes: it queues those of some scripts. -/
inductive Queues (cfg : Config) (H : Host ω) : Kernel ω → Kernel ω → Prop
  | alike {K K' : Kernel ω} (h : K.Alike cfg K') : Queues cfg H K K'
  | enqueue {K K₁ K' : Kernel ω} {filename text : CString} (hf : H.file K.world filename = some text)
    (h : K.enqueue cfg filename text = some K₁) (rest : Queues cfg H K₁ K') : Queues cfg H K K'

def Reply.kernel : Reply ω → Kernel ω
  | returned _ K => K
  | scheduling _ _ K => K

theorem alike_error (e : Error) (K : Kernel ω) : K.Alike cfg (Reply.error e K).kernel :=
  ⟨rfl,rfl,rfl,rfl,fun _ _ => rfl,rfl⟩

theorem alike_schedule (policy : Policy) (code : ℤ) (K : Kernel ω) :
    K.Alike cfg (scheduleByPolicy policy code K).kernel := by
  unfold scheduleByPolicy
  split_ifs
  · exact .refl K
  · exact .refl K

theorem processInitialize_queues {filename : CString} {r : ℤ × Kernel ω}
    (h : K.processInitialize cfg H filename = some r) :
    (r = (1,K) ∧ H.file K.world filename = none) ∨
      r.1 = 0 ∧ ∃ text, H.file K.world filename = some text ∧ K.enqueue cfg filename text = some r.2 := by
  unfold Kernel.processInitialize at h
  cases hf : H.file K.world filename with
  | none =>
    rw [hf] at h
    exact .inl ⟨(Option.some.inj h).symm,rfl⟩
  | some text =>
    rw [hf] at h
    obtain ⟨K₁,h1,rfl⟩ := Option.map_eq_some_iff.mp h
    exact .inr ⟨rfl,text,rfl,h1⟩

theorem run_queues {script : CString} {r : Reply ω} (h : run cfg H script K = some r) : Queues cfg H K r.kernel := by
  obtain ⟨r₁,h1,rfl⟩ := Option.map_eq_some_iff.mp h
  cases processInitialize_queues h1 with
  | inl he =>
    obtain ⟨rfl,-⟩ := he
    exact .alike (alike_schedule .fcfs 1 K)
  | inr he =>
    obtain ⟨h0,text,hf,hq⟩ := he
    rw [h0,if_neg (by decide)]
    exact .enqueue hf hq (.alike (alike_schedule .fcfs 0 r₁.2))

theorem systemCall_queues (command : CString) (K : Kernel ω) : Queues cfg H K (systemCall H command K).kernel :=
  .alike ⟨rfl,rfl,rfl,rfl,fun _ _ => rfl,rfl⟩

theorem error_queues (e : Error) (K : Kernel ω) : Queues cfg H K (Reply.error e K).kernel := .alike (alike_error e K)

theorem atMost_queues {n size : ℕ} {body : Option (Reply ω)} {r : Reply ω} (h : atMost n size K body = some r)
    (hbody : body = some r → Queues cfg H K r.kernel) : Queues cfg H K r.kernel := by
  unfold atMost at h
  split_ifs at h
  · exact Option.some.inj h ▸ error_queues .tooManyTokens K
  · exact hbody h

theorem ite_queues {c : Prop} [Decidable c] {x y : Option (Reply ω)} {r : Reply ω} (h : (if c then x else y) = some r)
    (hx : x = some r → Queues cfg H K r.kernel) (hy : y = some r → Queues cfg H K r.kernel) : Queues cfg H K r.kernel := by
  split_ifs at h
  · exact hx h
  · exact hy h

theorem map_queues {arg : Option CString} {f : CString → Reply ω} {r : Reply ω} (h : arg.map f = some r)
    (hf : ∀ w, Queues cfg H K (f w).kernel) : Queues cfg H K r.kernel := by
  obtain ⟨w,-,rfl⟩ := Option.map_eq_some_iff.mp h
  exact hf w

theorem myMkdir_queues (dirname : CString) (K : Kernel ω) : Queues cfg H K (myMkdir cfg H dirname K).kernel := by
  unfold myMkdir
  split_ifs
  · cases K.memGetValue cfg dirname.tail with
    | none => exact error_queues .errorMkdir K
    | some value =>
      dsimp only
      split_ifs
      · exact error_queues .errorMkdir K
      · exact systemCall_queues _ K
  · exact systemCall_queues _ K

theorem myCd_queues (dirname : CString) (K : Kernel ω) : Queues cfg H K (myCd H dirname K).kernel := by
  unfold myCd
  cases H.chdir K.world dirname with
  | none => exact error_queues .errorCd K
  | some r => exact .alike ⟨rfl,rfl,rfl,rfl,fun _ _ => rfl,rfl⟩

theorem exec_queues {fnames : List CString} {r : Reply ω} (h : exec cfg H fnames K = some r) : Queues cfg H K r.kernel := by
  induction fnames generalizing K with
  | nil => exact Option.some.inj h ▸ .alike (alike_schedule .rr 0 K)
  | cons fname fnames ih =>
    obtain ⟨r₁,h1,h2⟩ := Option.bind_eq_some_iff.mp h
    cases processInitialize_queues h1 with
    | inl he =>
      obtain ⟨rfl,-⟩ := he
      rw [if_pos one_ne_zero] at h2
      exact Option.some.inj h2 ▸ .alike (alike_error .fileDoesNotExist K)
    | inr he =>
      obtain ⟨h0,text,hf,hq⟩ := he
      rw [if_neg (by simp [h0])] at h2
      exact .enqueue hf hq (ih h2)

/-- Every command but `resetmem`. -/
theorem interpreter_queues {array : List CString} {size : ℕ} {r : Reply ω}
    (hname : (array.map Shell.stripNewline).head? ≠ some (cstr "resetmem"))
    (h : interpreter cfg H array size K = some r) : Queues cfg H K r.kernel := by
  have hreset : (array.map Shell.stripNewline).head?.getD [] ≠ cstr "resetmem" := by
    intro he
    cases hh : (array.map Shell.stripNewline).head? with
    | none =>
      rw [hh] at he
      exact absurd he (by decide)
    | some name =>
      rw [hh] at he hname
      exact hname (congrArg some he)
  unfold interpreter at h
  dsimp only at h
  rw [if_neg hreset] at h
  refine ite_queues h (fun h => Option.some.inj h ▸ error_queues .tooFewTokens K) fun h => ?_
  refine ite_queues h (fun h => Option.some.inj h ▸ error_queues .tooManyTokens K) fun h => ?_
  refine ite_queues h (fun h => atMost_queues h fun h => Option.some.inj h ▸ .alike (.refl K)) fun h => ?_
  refine ite_queues h (fun h => atMost_queues h fun h => by cases h) fun h => ?_
  refine ite_queues h (fun h => ?_) fun h => ?_
  · refine ite_queues h (fun h => Option.some.inj h ▸ error_queues .tooFewTokens K) fun h => ?_
    exact map_queues h fun var => .alike (Kernel.alike_memSetValue cfg var _ K)
  refine ite_queues h (fun h => ?_) fun h => ?_
  · refine ite_queues h (fun h => Option.some.inj h ▸ error_queues .tooFewTokens K) fun h => ?_
    exact atMost_queues h fun h => Option.some.inj h ▸ .alike (.refl K)
  refine ite_queues h (fun h => ?_) fun h => ?_
  · refine ite_queues h (fun h => Option.some.inj h ▸ error_queues .tooFewTokens K) fun h => ?_
    refine atMost_queues h fun h => ?_
    obtain ⟨script,-,hrun⟩ := Option.bind_eq_some_iff.mp h
    exact run_queues hrun
  refine ite_queues h (fun h => atMost_queues h fun h => map_queues h fun _ => .alike (.refl K)) fun h => ?_
  refine ite_queues h (fun h => atMost_queues h fun h => Option.some.inj h ▸ systemCall_queues _ K) fun h => ?_
  refine ite_queues h (fun h => atMost_queues h fun h => map_queues h fun w => myMkdir_queues w K) fun h => ?_
  refine ite_queues h (fun h => atMost_queues h fun h => map_queues h fun w => systemCall_queues _ K) fun h => ?_
  refine ite_queues h (fun h => atMost_queues h fun h => map_queues h fun w => myCd_queues w K) fun h => ?_
  refine ite_queues h (fun h => ?_) fun h => Option.some.inj h ▸ error_queues .badCommand K
  refine ite_queues h (fun h => Option.some.inj h ▸ error_queues .tooFewTokens K) fun h => ?_
  exact atMost_queues h exec_queues

end ShellOS.Ready
