import ShellOS.Pager.Machine

/-! What holds along every run of the a3 shell's processes, however scripts start one another: which
processes are allocated, and that loaded pages are in the LRU list. -/
namespace ShellOS.Pager
open CLib

/-! ### Pages -/

/-- Loading changes one page, the stream and the memory. -/
theorem loadPage_spec {border k : ℕ} {p : PCB} {m : Memory} {r : PCB × Memory} (h : loadPage border p k m = some r) :
    r.1.pageTableSize = p.pageTableSize ∧ ∀ k', k' ≠ k → r.1.pageTable k' = p.pageTable k' := by
  obtain ⟨start,-,rfl⟩ := Option.map_eq_some_iff.mp h
  exact ⟨rfl,fun k' hk => Function.update_of_ne hk _ _⟩

theorem pageEvict_self (p : PCB) (k : ℕ) (m : Memory) :
    (pageEvict p k m).1.pageTable k = ⟨fun _ => 0,fun _ => false⟩ := Function.update_self _ _ _

theorem pageEvict_ne (p : PCB) {k k' : ℕ} (m : Memory) (h : k' ≠ k) :
    (pageEvict p k m).1.pageTable k' = p.pageTable k' := Function.update_of_ne h _ _

theorem pageTableSizeOf_pos {lines : ℕ} (h : 0 < lines) : 1 ≤ pageTableSizeOf lines := by
  unfold pageTableSizeOf
  split <;> omega

theorem loadPages_spec {border : ℕ} (ks : List ℕ) {r r' : PCB × Memory}
    (h : ks.foldlM (fun (r : PCB × Memory) k => loadPage border r.1 k r.2) r = some r') :
    r'.1.pageTableSize = r.1.pageTableSize ∧ ∀ k, k ∉ ks → r'.1.pageTable k = r.1.pageTable k := by
  induction ks generalizing r with
  | nil =>
    obtain rfl := Option.some.inj h
    exact ⟨rfl,fun _ _ => rfl⟩
  | cons k ks ih =>
    obtain ⟨r1,h1,h2⟩ := Option.bind_eq_some_iff.mp h
    obtain ⟨hsize,htable⟩ := loadPage_spec h1
    obtain ⟨hsize',htable'⟩ := ih h2
    refine ⟨hsize'.trans hsize,fun j hj => ?_⟩
    rw [List.mem_cons,not_or] at hj
    exact (htable' j hj.2).trans (htable j hj.1)

/-- A new process has pages, and only the first two may be loaded. -/
theorem pcbInit_spec {border pid : ℕ} {script : CString} {m : Memory} {r : PCB × Memory}
    (h : pcbInit border pid script m = some r) : 1 ≤ r.1.pageTableSize ∧
      ∀ k j, (r.1.pageTable k).validBit j = true → k < min 2 r.1.pageTableSize := by
  obtain ⟨hsize,htable⟩ := loadPages_spec _ h
  refine ⟨hsize ▸ pageTableSizeOf_pos (Nat.succ_pos _),fun k j hv => ?_⟩
  by_contra hk
  rw [hsize] at hk
  rw [htable k (fun hm => hk (List.mem_range.mp hm))] at hv
  exact absurd hv Bool.false_ne_true

/-! ### The kernel -/
namespace Kernel

/-- The processes of the kernel: those freed so far are `freed`, the others are allocated, each in
the list of all once, and a page with a loaded line is in the list `cache`. -/
structure Ok (freed : List ℕ) (cache : List PageRef) (K : Kernel) : Prop where
  pos : 1 ≤ K.pidCounter
  mem_iff : ∀ pid, pid ∈ freed ++ K.all ↔ 1 ≤ pid ∧ pid < K.pidCounter
  nodup : (freed ++ K.all).Nodup
  live : ∀ pid, pid ∈ K.all ↔ (K.pcb pid).isSome
  table : ∀ pid p, K.pcb pid = some p → 1 ≤ p.pageTableSize
  loaded : ∀ pid p k j, K.pcb pid = some p → (p.pageTable k).validBit j = true → (pid,k) ∈ cache

variable {freed : List ℕ} {cache : List PageRef} {K K' : Kernel} {border : ℕ}

@[simp] theorem setPcb_self (K : Kernel) (pid : ℕ) (p : PCB) : (K.setPcb pid p).pcb pid = some p :=
  Function.update_self _ _ _

theorem setPcb_ne (K : Kernel) {pid q : ℕ} (p : PCB) (h : q ≠ pid) : (K.setPcb pid p).pcb q = K.pcb q :=
  Function.update_of_ne h _ _

theorem Ok.setPcb (h : Ok freed cache K) {pid : ℕ} {p p' : PCB} (hp : K.pcb pid = some p)
    (hsize : p'.pageTableSize = p.pageTableSize) {cache' : List PageRef}
    (hcache : ∀ q p k j, q ≠ pid → K.pcb q = some p → (p.pageTable k).validBit j = true → (q,k) ∈ cache')
    (hv : ∀ k j, (p'.pageTable k).validBit j = true → (pid,k) ∈ cache') : Ok freed cache' (K.setPcb pid p') := by
  refine ⟨h.pos,h.mem_iff,h.nodup,fun q => ?_,fun q r hr => ?_,fun q r k j hr hb => ?_⟩
  · rw [show (K.setPcb pid p').all = K.all from rfl,h.live q]
    rcases eq_or_ne q pid with rfl | hq
    · rw [setPcb_self,hp,Option.isSome_some,Option.isSome_some]
    · rw [setPcb_ne K p' hq]
  · rcases eq_or_ne q pid with rfl | hq
    · rw [setPcb_self] at hr
      rw [← Option.some.inj hr,hsize]
      exact h.table q p hp
    · rw [setPcb_ne K p' hq] at hr
      exact h.table q r hr
  · rcases eq_or_ne q pid with rfl | hq
    · rw [setPcb_self] at hr
      exact hv k j (Option.some.inj hr ▸ hb)
    · rw [setPcb_ne K p' hq] at hr
      exact hcache q r k j hq hr hb

/-- The lists of the scheduler and the memory do not matter. -/
theorem Ok.of_eq {cache' : List PageRef} (h : Ok freed cache K) (hpcb : K'.pcb = K.pcb)
    (hpid : K'.pidCounter = K.pidCounter) (hall : K'.all = K.all) (hsub : cache ⊆ cache') : Ok freed cache' K' :=
  ⟨hpid ▸ h.pos,fun pid => by rw [hall,hpid]; exact h.mem_iff pid,hall ▸ h.nodup,
    fun pid => by rw [hall,hpcb]; exact h.live pid,fun pid p hp => h.table pid p (hpcb ▸ hp),
    fun pid p k j hp hb => hsub (h.loaded pid p k j (hpcb ▸ hp) hb)⟩

theorem Ok.loadPage (h : Ok freed cache K) {pid k : ℕ} (hl : K.loadPage border pid k = some K') :
    Ok freed ((pid,k)::cache) K' ∧ K'.lru = K.lru ∧ K'.all = K.all := by
  obtain ⟨p,hp,hl⟩ := Option.bind_eq_some_iff.mp hl
  obtain ⟨r,hr,rfl⟩ := Option.map_eq_some_iff.mp hl
  obtain ⟨hsize,htable⟩ := loadPage_spec hr
  refine ⟨(h.setPcb hp hsize (fun q p k j _ hq hb => List.mem_cons_of_mem _ (h.loaded q p k j hq hb))
    fun k' j hb => ?_).of_eq rfl rfl rfl (List.Subset.refl _),rfl,rfl⟩
  rcases eq_or_ne k' k with rfl | hk
  · exact List.mem_cons_self
  · exact List.mem_cons_of_mem _ (h.loaded pid p k' j hp (htable k' hk ▸ hb))

theorem mem_dropLast_of_ne {α : Type*} {l : List α} {a b : α} (h : a ∈ l) (hlast : l.getLast? = some b)
    (hne : a ≠ b) : a ∈ l.dropLast := by
  obtain ⟨init,rfl⟩ := List.getLast?_eq_some_iff.mp hlast
  rw [List.mem_append,List.mem_singleton] at h
  rw [List.dropLast_concat]
  exact h.resolve_right hne

/-- The page that leaves the LRU list has no loaded line left. -/
theorem Ok.evictTail (h : Ok freed K.lru K) (he : K.evictTail = some K') :
    Ok freed K'.lru K' ∧ K'.all = K.all := by
  obtain ⟨v,hv,he⟩ := Option.bind_eq_some_iff.mp he
  split_ifs at he with hall
  obtain ⟨p,hp,rfl⟩ := Option.map_eq_some_iff.mp he
  refine ⟨(@h.setPcb _ _ _ _ p (pageEvict p v.2 K.mem).1 hp rfl K.lru.dropLast ?_ ?_).of_eq rfl rfl rfl
    (List.Subset.refl _),rfl⟩
  · intro q r k j hq hr hb
    exact mem_dropLast_of_ne (h.loaded q r k j hr hb) hv fun hc => hq (congrArg Prod.fst hc)
  · intro k j hb
    rcases eq_or_ne k v.2 with rfl | hk
    · rw [pageEvict_self] at hb
      exact absurd hb Bool.false_ne_true
    · rw [pageEvict_ne p K.mem hk] at hb
      exact mem_dropLast_of_ne (h.loaded v.1 p k j hp hb) hv fun hc => hk (congrArg Prod.snd hc)

theorem Ok.pageFault (h : Ok freed K.lru K) {pid k : ℕ} (hf : K.pageFault border pid k = some K') :
    Ok freed K'.lru K' ∧ K'.all = K.all := by
  unfold Kernel.pageFault at hf
  obtain ⟨K2,hload,rfl⟩ := Option.map_eq_some_iff.mp hf
  have hcons : Ok freed ((pid,k)::K2.lru) K2 ∧ K2.all = K.all := by
    cases hl : K.loadPage border pid k with
    | some K1 =>
      rw [hl] at hload
      obtain rfl := Option.some.inj hload
      obtain ⟨hok,hlru,hall⟩ := h.loadPage hl
      exact ⟨hlru.symm ▸ hok,hall⟩
    | none =>
      rw [hl] at hload
      obtain ⟨K1,hev,rfl⟩ := Option.map_eq_some_iff.mp hload
      obtain ⟨hok1,hall1⟩ := h.evictTail hev
      cases hl1 : K1.loadPage border pid k with
      | none => exact ⟨hok1.of_eq rfl rfl rfl (List.subset_cons_self _ _),hall1⟩
      | some K3 =>
        obtain ⟨hok,hlru,hall⟩ := hok1.loadPage hl1
        exact ⟨hlru.symm ▸ hok,hall.trans hall1⟩
  exact ⟨hcons.1.of_eq rfl rfl rfl (List.Subset.refl _),hcons.2⟩

theorem find_cons_eraseP {α : Type*} {l : List α} {f : α → Bool} {q : α} (h : l.find? f = some q) :
    (q::l.eraseP f).Perm l := by
  induction l with
  | nil => simp at h
  | cons a l ih =>
    cases hf : f a with
    | true =>
      rw [List.find?_cons_of_pos hf] at h
      rw [List.eraseP_cons_of_pos hf,Option.some.inj h]
    | false =>
      rw [List.find?_cons_of_neg (by simp [hf])] at h
      rw [List.eraseP_cons_of_neg (by simp [hf])]
      exact (List.Perm.swap a q _).trans ((ih h).cons a)

theorem Ok.moveToFront (h : Ok freed K.lru K) {x : PageRef} (hm : K.moveToFront x = some K') :
    Ok freed K'.lru K' ∧ K'.all = K.all := by
  obtain ⟨q,hq,rfl⟩ := Option.map_eq_some_iff.mp hm
  exact ⟨h.of_eq rfl rfl rfl (find_cons_eraseP hq).symm.subset,rfl⟩

theorem Ok.newProc (h : Ok freed K.lru K) {script : CString} (hn : K.newProc border script = some K') :
    Ok freed K'.lru K' ∧ K'.all ≠ [] := by
  obtain ⟨r,hr,rfl⟩ := Option.map_eq_some_iff.mp hn
  obtain ⟨hsize,hvalid⟩ := pcbInit_spec hr
  have hnew : K.pidCounter ∉ freed ++ K.all := fun hc => by
    have := (h.mem_iff _).mp hc
    omega
  have hpos := h.pos
  refine ⟨⟨Nat.le_succ_of_le hpos,fun pid => ?_,?_,fun pid => ?_,fun pid p hp => ?_,fun pid p k j hp hb => ?_⟩,by simp⟩
  · rw [← List.append_assoc,List.mem_append,h.mem_iff,List.mem_singleton]
    dsimp only
    omega
  · rw [← List.append_assoc]
    exact List.nodup_append.mpr ⟨h.nodup,List.nodup_singleton _,
      fun a ha b hb hab => hnew (List.mem_singleton.mp hb ▸ hab ▸ ha)⟩
  · rw [List.mem_append,List.mem_singleton,h.live]
    rcases eq_or_ne pid K.pidCounter with rfl | hq
    · simp
    · rw [show (K.setPcb K.pidCounter r.1).pcb pid = K.pcb pid from setPcb_ne K _ hq]
      simp [hq]
  · rcases eq_or_ne pid K.pidCounter with rfl | hq
    · rw [show _ = some r.1 from setPcb_self K _ _] at hp
      exact Option.some.inj hp ▸ hsize
    · exact h.table pid p ((setPcb_ne K _ hq).symm.trans hp)
  · rw [List.mem_append,List.mem_reverse,List.mem_map]
    rcases eq_or_ne pid K.pidCounter with rfl | hq
    · rw [show _ = some r.1 from setPcb_self K _ _] at hp
      exact .inl ⟨k,List.mem_range.mpr (hvalid k j (Option.some.inj hp ▸ hb)),rfl⟩
    · exact .inr (h.loaded pid p k j ((setPcb_ne K _ hq).symm.trans hp) hb)

theorem Ok.newProcs (h : Ok freed K.lru K) {script : CString} {more : List CString}
    (hn : K.newProcs border (script::more) = some K') : Ok freed K'.lru K' ∧ K'.all ≠ [] := by
  induction more generalizing K script with
  | nil =>
    obtain ⟨K1,h1,h2⟩ := Option.bind_eq_some_iff.mp hn
    obtain rfl := Option.some.inj h2
    exact h.newProc h1
  | cons next more ih =>
    obtain ⟨K1,h1,h2⟩ := Option.bind_eq_some_iff.mp hn
    exact ih (h.newProc h1).1 h2

theorem Ok.teardown_pcb (h : Ok freed cache K) (pid : ℕ) : K.teardown.pcb pid = none := by
  refine ite_eq_left_iff.mpr fun hm => ?_
  rw [h.live,Bool.not_eq_true,Option.isSome_eq_false_iff,Option.isNone_iff_eq_none] at hm
  exact hm

theorem Ok.teardown (h : Ok freed cache K) : Ok (freed ++ K.all) [] K.teardown := by
  have hall : freed ++ K.all ++ K.teardown.all = freed ++ K.all := List.append_nil _
  refine ⟨h.pos,fun pid => ?_,by rw [hall]; exact h.nodup,fun pid => ?_,fun pid p hp => ?_,fun pid p k j hp _ => ?_⟩
  · rw [hall]
    exact h.mem_iff pid
  · rw [h.teardown_pcb,show K.teardown.all = [] from rfl]
    simp
  · rw [h.teardown_pcb] at hp
    simp at hp
  · rw [h.teardown_pcb] at hp
    simp at hp

end Kernel

/-! ### Steps -/
section
variable {ω : Type} {border : ℕ} {C : Commands ω} {freed : List ℕ} {K : Kernel} {w : ω} {pid : ℕ} {turn : Turn}
  {rest : List Activation} {s s' : State ω}

/-- What a call of `run_proc` leaves: the line is about to be executed, or there was a page fault. -/
structure Called (freed : List ℕ) (K : Kernel) (pid : ℕ) (rest : List Activation) (s' : State ω) : Prop where
  ok : s'.kernel.Ok freed s'.kernel.lru
  all : s'.kernel.all = K.all
  stack : s'.stack = rest ∨ ∃ i turn, s'.stack = .line pid i turn::rest ∧ (pid,i) ∈ s'.kernel.lru

theorem startLine_called (h : K.Ok freed K.lru) (hs : startLine border K w pid turn rest = some s') :
    Called freed K pid rest s' := by
  obtain ⟨p,hp,hs⟩ := Option.bind_eq_some_iff.mp hs
  dsimp only at hs
  split_ifs at hs with hi hv
  · obtain rfl := Option.some.inj hs
    exact ⟨h,rfl,.inr ⟨_,turn,rfl,h.loaded pid p _ _ hp hv⟩⟩
  · obtain ⟨K',hf,rfl⟩ := Option.map_eq_some_iff.mp hs
    obtain ⟨hok,hall⟩ := h.pageFault hf
    exact ⟨hok,hall,.inl rfl⟩

theorem finishLine_called {ret : ℤ} {i : ℕ} (h : K.Ok freed K.lru)
    (hs : finishLine border ret K w pid i turn rest = some s') : Called freed K pid rest s' ∧ pid ∈ K.all := by
  obtain ⟨p,hp,hs⟩ := Option.bind_eq_some_iff.mp hs
  refine ⟨?_,(h.live pid).mpr (by rw [hp,Option.isSome_some])⟩
  dsimp only at hs
  have hK := @h.setPcb _ _ _ pid p { p with
      programCounter := Function.update p.programCounter i (p.programCounter i + 1)
      size := p.size - 1 } hp rfl K.lru (fun q p k j _ => h.loaded q p k j) fun k j => h.loaded pid p k j hp
  split_ifs at hs with hret
  · obtain ⟨K',hf,rfl⟩ := Option.map_eq_some_iff.mp hs
    obtain ⟨hok,hall⟩ := Kernel.Ok.pageFault hK hf
    exact ⟨hok,hall,.inl rfl⟩
  · obtain ⟨K',hm,hs⟩ := Option.bind_eq_some_iff.mp hs
    obtain ⟨hok,hall⟩ := Kernel.Ok.moveToFront hK hm
    cases turn with
    | first =>
      obtain ⟨hok',hall',hstack⟩ := startLine_called hok hs
      exact ⟨hok',hall'.trans hall,hstack⟩
    | second =>
      obtain rfl := Option.some.inj hs
      exact ⟨hok.of_eq rfl rfl rfl (List.Subset.refl _),hall,.inl rfl⟩
    | single =>
      obtain rfl := Option.some.inj hs
      exact ⟨hok,hall,.inl rfl⟩

/-- A scheduler at work has processes; one that works for a line of a script is above this line. -/
structure Good (freed : List ℕ) (s : State ω) : Prop where
  ok : s.kernel.Ok freed s.kernel.lru
  all : ∀ rest, s.stack = .scheduler::rest → s.kernel.all ≠ []
  nested : s.stack.IsChain fun a b => a = .scheduler → b ≠ .scheduler

/-- A step of the scheduler: it returns, or calls `run_proc`, or drops a process that has finished. -/
theorem tick_scheduler (h : s.kernel.Ok freed s.kernel.lru) (hstack : s.stack = .scheduler::rest)
    (hs : tick border C s = some s') :
    (s.kernel.queueDone = true ∧ s'.kernel = s.kernel.teardown ∧ s'.stack = rest) ∨
    s.kernel.queueDone = false ∧ ∃ pid, Called freed s.kernel pid s.stack s' := by
  unfold tick at hs
  rw [hstack] at hs
  dsimp only at hs
  split_ifs at hs with hd
  · obtain rfl := Option.some.inj hs
    exact .inl ⟨hd,rfl,rfl⟩
  refine .inr ⟨Bool.not_eq_true _ ▸ hd,?_⟩
  cases hq : s.kernel.queue with
  | nil =>
    rw [hq] at hs
    simp at hs
  | cons pid queue =>
    rw [hq] at hs
    obtain ⟨p,hp,hs⟩ := Option.bind_eq_some_iff.mp hs
    have hok : Kernel.Ok freed s.kernel.lru { s.kernel with queue := queue } :=
      h.of_eq rfl rfl rfl (List.Subset.refl _)
    refine ⟨pid,?_⟩
    rw [hstack]
    split_ifs at hs
    · obtain ⟨h1,h2,h3⟩ := startLine_called hok hs
      exact ⟨h1,h2,h3⟩
    · obtain ⟨h1,h2,h3⟩ := startLine_called hok hs
      exact ⟨h1,h2,h3⟩
    · obtain rfl := Option.some.inj hs
      exact ⟨hok,rfl,.inl rfl⟩

theorem Called.good {pid : ℕ} (h : Called freed K pid rest s') (hall : K.all ≠ [])
    (hn : rest.IsChain fun a b => a = .scheduler → b ≠ .scheduler) : Good freed s' := by
  refine ⟨h.ok,fun _ _ => h.all ▸ hall,?_⟩
  rcases h.stack with hs | ⟨i,turn,hs,-⟩
  · exact hs ▸ hn
  · rw [hs]
    exact hn.cons fun _ _ hc => by simp at hc

theorem good_launch {script : CString} {more : List CString} (h : s.kernel.Ok freed s.kernel.lru)
    (hs : launch border script more s = some s') : Good freed s' := by
  obtain ⟨K,hK,rfl⟩ := Option.map_eq_some_iff.mp hs
  obtain ⟨hok,hall⟩ := h.newProcs hK
  exact ⟨hok,fun _ _ => hall,List.isChain_singleton _⟩

/-- Every step keeps the kernel in order. -/
theorem Good.tick (h : Good freed s) (hs : tick border C s = some s') : Good (freed ++ frees s) s' := by
  have hn := h.nested
  cases hstack : s.stack with
  | nil =>
    have hf : frees s = [] := by rw [frees,hstack]
    rw [Pager.tick,hstack] at hs
    rw [hf,List.append_nil,← Option.some.inj hs]
    exact h
  | cons a rest =>
    rw [hstack] at hn
    cases a with
    | scheduler =>
      have hall := h.all rest hstack
      rcases tick_scheduler h.ok hstack hs with ⟨hd,hK,hr⟩ | ⟨hd,pid,hcall⟩
      · have hf : frees s = s.kernel.all := by simp only [frees,hstack,hd,if_true]
        refine ⟨hf ▸ hK ▸ h.ok.teardown,fun rest' hr' => ?_,hr ▸ hn.tail⟩
        rw [← hr,hr'] at hn
        exact absurd rfl ((List.isChain_cons_cons.mp hn).1 rfl)
      · have hf : frees s = [] := by simp [frees,hstack,hd]
        rw [hf,List.append_nil]
        exact hcall.good hall h.nested
    | line pid i turn =>
      have hf : frees s = [] := by rw [frees,hstack]
      rw [hf,List.append_nil]
      rw [Pager.tick,hstack] at hs
      obtain ⟨p,hp,hs⟩ := Option.bind_eq_some_iff.mp hs
      cases hC' : C (s.kernel.mem ((p.pageTable i).index (p.programCounter i))).value s.kernel.mem s.world with
      | done ret mem w =>
        rw [hC'] at hs
        have hok : Kernel.Ok freed s.kernel.lru { s.kernel with mem := mem } :=
          h.ok.of_eq rfl rfl rfl (List.Subset.refl _)
        obtain ⟨hcall,hpid⟩ := finishLine_called hok hs
        exact hcall.good (List.ne_nil_of_mem hpid) hn.tail
      | launch script more w =>
        rw [hC'] at hs
        obtain ⟨K,hK,rfl⟩ := Option.map_eq_some_iff.mp hs
        obtain ⟨hok,hall⟩ := h.ok.newProcs hK
        refine ⟨hok,fun _ _ => hall,?_⟩
        refine List.IsChain.cons (hn.tail.cons fun _ _ hc => by simp at hc) fun b hb _ => ?_
        obtain rfl := Option.some.inj hb
        simp
    | waiting pid i turn =>
      have hf : frees s = [] := by rw [frees,hstack]
      rw [hf,List.append_nil]
      rw [Pager.tick,hstack] at hs
      obtain ⟨hcall,hpid⟩ := finishLine_called h.ok hs
      exact hcall.good (List.ne_nil_of_mem hpid) hn.tail

/-! ### Sessions -/

/-- The states of a session, and the processes freed so far. Between two runs a command may change
the memory and whatever else there is; a step is taken in a state where `ok` holds. -/
inductive Reach (border : ℕ) (C : Commands ω) (ok : State ω → Prop) : State ω → List ℕ → Prop
  | start (mem : Memory) (w : ω) : Reach border C ok ⟨⟨mem,fun _ => none,1,[],[],[]⟩,w,[]⟩ []
  | command {s : State ω} {freed : List ℕ} (mem : Memory) (w : ω) : Reach border C ok s freed → s.stack = [] →
    Reach border C ok ⟨{ s.kernel with mem := mem },w,[]⟩ freed
  | launch {s s' : State ω} {freed : List ℕ} (script : CString) (more : List CString) :
    Reach border C ok s freed → s.stack = [] → launch border script more s = some s' → Reach border C ok s' freed
  | tick {s s' : State ω} {freed : List ℕ} : Reach border C ok s freed → ok s → tick border C s = some s' →
    Reach border C ok s' (freed ++ frees s)

variable {ok : State ω → Prop}

theorem Reach.good (h : Reach border C ok s freed) : Good freed s := by
  induction h with
  | start mem w => exact ⟨⟨le_rfl,by simp; omega,by simp,by simp,by simp,by simp⟩,by simp,List.isChain_nil⟩
  | command mem w _ hs ih => exact ⟨ih.ok.of_eq rfl rfl rfl (List.Subset.refl _),by simp,List.isChain_nil⟩
  | launch script more _ hs hl ih => exact good_launch ih.ok hl
  | tick _ _ ht ih => exact ih.tick ht

end
end ShellOS.Pager
