import ShellOS.Pager.RoundRobin

/-! Which runs come to an end. A process whose script has fewer lines than were counted waits for a
line for ever. -/
namespace ShellOS.Pager
open CLib
variable {ω : Type} {border : ℕ} {C : Commands ω} {lines : Set CString} {K K' : Kernel} {w : ω} {s s' : State ω}

theorem sum_update {d : ℕ → ℕ} {n k : ℕ} (hk : k < n) (v : ℕ) :
    (∑ i ∈ Finset.range n, Function.update d k v i) + d k = (∑ i ∈ Finset.range n, d i) + v := by
  rw [Finset.sum_update_of_mem (Finset.mem_range.mpr hk),← Finset.add_sum_erase _ d (Finset.mem_range.mpr hk),
    Finset.sdiff_singleton_eq_erase]
  omega

/-! ### Lines in memory -/

/-- A process that has lines only from `lines`, loaded into frames. -/
structure Tame (border : ℕ) (lines : Set CString) (p : PCB) : Prop where
  page : ∀ k j, (p.pageTable k).validBit j = true → j < 3 ∧ (p.pageTable k).index j < border
  source : ∀ line ∈ p.sourceFile, line ∈ lines

/-- The frames hold nothing but lines from `lines`. -/
def TameMemory (border : ℕ) (lines : Set CString) (m : Memory) : Prop := ∀ pos < border, (m pos).value ∈ lines

theorem tame_loadPage {p : PCB} {k : ℕ} {m : Memory} {r : PCB × Memory} (hp : Tame border lines p)
    (hm : TameMemory border lines m) (hl : loadPage border p k m = some r) :
    Tame border lines r.1 ∧ TameMemory border lines r.2 := by
  obtain ⟨start,hs,-⟩ := Option.map_eq_some_iff.mp hl
  have hfound := (List.find?_range_eq_some.mp hs).1
  simp only [Bool.and_eq_true,decide_eq_true_eq] at hfound
  obtain ⟨page,mem,hl',hindex,hvalid,hmem⟩ := loadPage_eq (k := k) (p := p) hs
  obtain rfl := Option.some.inj (hl.symm.trans hl')
  refine ⟨⟨fun k' j hv => ?_,fun line hline => hp.source line (List.mem_of_mem_drop hline)⟩,fun pos hpos => ?_⟩
  · rcases eq_or_ne k' k with rfl | hne
    · dsimp only at hv ⊢
      rw [Function.update_self] at hv ⊢
      rw [hvalid,decide_eq_true_eq] at hv
      rw [hindex]
      omega
    · dsimp only at hv ⊢
      rw [Function.update_of_ne hne] at hv ⊢
      exact hp.page k' j hv
  · dsimp only
    rw [hmem]
    split_ifs with hin hsrc
    · dsimp only
      rw [List.getD_eq_getElem _ _ hsrc]
      exact hp.source _ (List.getElem_mem _)
    · exact hm pos hpos
    · exact hm pos hpos

theorem tame_pageEvict {p : PCB} {k : ℕ} {m : Memory} (hp : Tame border lines p) (hm : TameMemory border lines m)
    (hnone : cstr "none" ∈ lines) :
    Tame border lines (pageEvict p k m).1 ∧ TameMemory border lines (pageEvict p k m).2 := by
  refine ⟨⟨fun k' j hv => ?_,hp.source⟩,fun pos hpos => ?_⟩
  · rcases eq_or_ne k' k with rfl | hne
    · rw [pageEvict_self] at hv
      exact absurd hv Bool.false_ne_true
    · rw [pageEvict_ne p m hne] at hv ⊢
      exact hp.page k' j hv
  · simp only [pageEvict,memFreeAt,Function.update_apply]
    split_ifs
    · exact hnone
    · exact hnone
    · exact hnone
    · exact hm pos hpos

/-! ### A process that lacks a line -/

/-- Of the script `t` fewer lines are left to be read or loaded than to be executed: `d k` lines have
been loaded for page `k`. -/
def Lacking (t : CString) (p : PCB) : Prop := ∃ d : ℕ → ℕ,
  (∑ k ∈ Finset.range p.pageTableSize, d k) + p.sourceFile.length ≤ (readLines t).length ∧
  (∀ k j, (p.pageTable k).validBit j = true → j < d k) ∧
  (∀ k, p.programCounter k ≤ d k) ∧
  p.size + ∑ k ∈ Finset.range p.pageTableSize, p.programCounter k = countLines t ∧
  p.pageTableSize = pageTableSizeOf (countLines t)

section
variable {t : CString} {p : PCB}

theorem Lacking.counters (h : Lacking t p) :
    ∑ k ∈ Finset.range p.pageTableSize, p.programCounter k ≤ (readLines t).length := by
  obtain ⟨d,hd,-,hpc,-⟩ := h
  have := Finset.sum_le_sum fun k (_ : k ∈ Finset.range p.pageTableSize) => hpc k
  omega

theorem Lacking.size_pos (h : Lacking t p) (hlack : (readLines t).length < countLines t) : 0 < p.size := by
  have := h.counters
  obtain ⟨d,-,-,-,hsize,-⟩ := h
  omega

theorem Lacking.not_done (h : Lacking t p) (hlack : (readLines t).length < countLines t) : pcbDone p = false := by
  by_contra hc
  rw [Bool.not_eq_false,pcbDone,List.all_eq_true] at hc
  have hthree : ∑ k ∈ Finset.range p.pageTableSize, p.programCounter k = ∑ _k ∈ Finset.range p.pageTableSize, 3 :=
    Finset.sum_congr rfl fun k hk => by simpa using hc k (List.mem_range.mpr (Finset.mem_range.mp hk))
  have := h.counters
  rw [hthree,Finset.sum_const,Finset.card_range,smul_eq_mul] at this
  obtain ⟨d,-,-,-,-,htable⟩ := h
  rw [htable,pageTableSizeOf_eq] at this
  omega

theorem Lacking.load (h : Lacking t p) {k : ℕ} (hk : k < p.pageTableSize) {m : Memory} {r : PCB × Memory}
    (hl : loadPage border p k m = some r) : Lacking t r.1 := by
  obtain ⟨d,hd,hvalid,hpc,hsize,htable⟩ := h
  obtain ⟨start,hs,-⟩ := Option.map_eq_some_iff.mp hl
  obtain ⟨page,mem,hl',hindex,hpage,hmem⟩ := loadPage_eq (k := k) (p := p) hs
  obtain rfl := Option.some.inj (hl.symm.trans hl')
  have hsum := sum_update (d := d) hk (d k + min 3 p.sourceFile.length)
  refine ⟨Function.update d k (d k + min 3 p.sourceFile.length),?_,fun k' j hv => ?_,fun k' => ?_,hsize,htable⟩
  · dsimp only
    rw [List.length_drop]
    omega
  · rcases eq_or_ne k' k with rfl | hne
    · dsimp only at hv
      rw [Function.update_self,hpage,decide_eq_true_eq] at hv
      rw [Function.update_self]
      omega
    · dsimp only at hv
      rw [Function.update_of_ne hne] at hv ⊢
      exact hvalid k' j hv
  · have := hpc k'
    rw [Function.update_apply]
    split_ifs with hk'
    · subst hk'
      dsimp only
      omega
    · exact this

theorem Lacking.evict (h : Lacking t p) (k : ℕ) (m : Memory) : Lacking t (pageEvict p k m).1 := by
  obtain ⟨d,hd,hvalid,hpc,hsize,htable⟩ := h
  refine ⟨d,hd,fun k' j hv => ?_,hpc,hsize,htable⟩
  rcases eq_or_ne k' k with rfl | hne
  · rw [pageEvict_self] at hv
    exact absurd hv Bool.false_ne_true
  · rw [pageEvict_ne p m hne] at hv
    exact hvalid k' j hv

theorem Lacking.execute (h : Lacking t p) (hlack : (readLines t).length < countLines t) {i : ℕ}
    (hi : i < p.pageTableSize) (hv : (p.pageTable i).validBit (p.programCounter i) = true) :
    Lacking t { p with
      programCounter := Function.update p.programCounter i (p.programCounter i + 1)
      size := p.size - 1 } := by
  have hpos := h.size_pos hlack
  obtain ⟨d,hd,hvalid,hpc,hsize,htable⟩ := h
  have hsum := sum_update (d := p.programCounter) hi (p.programCounter i + 1)
  refine ⟨d,hd,hvalid,fun k => ?_,?_,htable⟩
  · dsimp only
    rw [Function.update_apply]
    split_ifs with hk
    · rw [hk]
      exact hvalid i _ hv
    · exact hpc k
  · dsimp only
    omega

end

/-! ### A kernel with such a process -/

/-- The process `pid₀` lacks a line; frames and streams hold lines from `lines`. -/
structure Doomed (border : ℕ) (lines : Set CString) (t : CString) (pid₀ : ℕ) (K : Kernel) : Prop where
  memory : TameMemory border lines K.mem
  tame : ∀ pid p, K.pcb pid = some p → Tame border lines p
  lacking : ∃ p, K.pcb pid₀ = some p ∧ Lacking t p

variable {t : CString} {pid₀ pid : ℕ}

/-- One process changes. -/
theorem Doomed.change (h : Doomed border lines t pid₀ K) {p p' : PCB} (hp : K.pcb pid = some p)
    (hpcb : K'.pcb = Function.update K.pcb pid (some p')) (hmem : TameMemory border lines K'.mem)
    (ht : Tame border lines p') (hl : Lacking t p → Lacking t p') : Doomed border lines t pid₀ K' := by
  refine ⟨hmem,fun q r hr => ?_,?_⟩
  · rw [hpcb,Function.update_apply] at hr
    split_ifs at hr
    · exact Option.some.inj hr ▸ ht
    · exact h.tame q r hr
  · obtain ⟨r,hr,hlack⟩ := h.lacking
    rw [hpcb]
    rcases eq_or_ne pid₀ pid with rfl | hne
    · rw [hp] at hr
      exact ⟨p',Function.update_self _ _ _,hl (Option.some.inj hr ▸ hlack)⟩
    · exact ⟨r,(Function.update_of_ne hne _ _).trans hr,hlack⟩

theorem Doomed.of_eq (h : Doomed border lines t pid₀ K) (hpcb : K'.pcb = K.pcb)
    (hmem : TameMemory border lines K'.mem) : Doomed border lines t pid₀ K' :=
  ⟨hmem,fun q r hr => h.tame q r (hpcb ▸ hr),hpcb ▸ h.lacking⟩

theorem Doomed.loadPage (h : Doomed border lines t pid₀ K) {k : ℕ}
    (hk : ∀ p, K.pcb pid = some p → k < p.pageTableSize) (hl : K.loadPage border pid k = some K') :
    Doomed border lines t pid₀ K' ∧ K'.queue = K.queue := by
  obtain ⟨p,hp,hl⟩ := Option.bind_eq_some_iff.mp hl
  obtain ⟨r,hr,rfl⟩ := Option.map_eq_some_iff.mp hl
  obtain ⟨ht,hm⟩ := tame_loadPage (h.tame pid p hp) h.memory hr
  exact ⟨h.change hp rfl hm ht fun hlack => hlack.load (hk p hp) hr,rfl⟩

theorem Doomed.evictTail (h : Doomed border lines t pid₀ K) (hnone : cstr "none" ∈ lines)
    (he : K.evictTail = some K') : Doomed border lines t pid₀ K' ∧ K'.queue = K.queue ∧
      ∀ q p', K'.pcb q = some p' → ∃ p, K.pcb q = some p ∧ p'.pageTableSize = p.pageTableSize := by
  obtain ⟨v,-,he⟩ := Option.bind_eq_some_iff.mp he
  split_ifs at he
  obtain ⟨p,hp,rfl⟩ := Option.map_eq_some_iff.mp he
  obtain ⟨ht,hm⟩ := tame_pageEvict (k := v.2) (h.tame v.1 p hp) h.memory hnone
  refine ⟨h.change hp rfl hm ht fun hlack => hlack.evict v.2 K.mem,rfl,fun q p' hq => ?_⟩
  rcases eq_or_ne q v.1 with rfl | hne
  · have hself : (K.setPcb v.1 (pageEvict p v.2 K.mem).1).pcb v.1 = some p' := hq
    rw [Kernel.setPcb_self] at hself
    exact ⟨p,hp,Option.some.inj hself ▸ rfl⟩
  · exact ⟨p',(Kernel.setPcb_ne K _ hne).symm.trans hq,rfl⟩

theorem Doomed.pageFault (h : Doomed border lines t pid₀ K) (hnone : cstr "none" ∈ lines) {k : ℕ}
    (hk : ∀ p, K.pcb pid = some p → k < p.pageTableSize) (hf : K.pageFault border pid k = some K') :
    Doomed border lines t pid₀ K' ∧ K'.queue = K.queue ++ [pid] := by
  unfold Kernel.pageFault at hf
  obtain ⟨K2,hload,rfl⟩ := Option.map_eq_some_iff.mp hf
  have hres : Doomed border lines t pid₀ K2 ∧ K2.queue = K.queue := by
    cases hl : K.loadPage border pid k with
    | some K1 =>
      rw [hl] at hload
      obtain rfl := Option.some.inj hload
      exact h.loadPage hk hl
    | none =>
      rw [hl] at hload
      obtain ⟨K1,hev,rfl⟩ := Option.map_eq_some_iff.mp hload
      obtain ⟨h1,hq1,hsize⟩ := h.evictTail hnone hev
      cases hl1 : K1.loadPage border pid k with
      | none => exact ⟨h1,hq1⟩
      | some K3 =>
        obtain ⟨h3,hq3⟩ := h1.loadPage (fun p' hp' => by
          obtain ⟨p,hp,he⟩ := hsize pid p' hp'
          exact he ▸ hk p hp) hl1
        exact ⟨h3,hq3.trans hq1⟩
  exact ⟨hres.1.of_eq rfl hres.1.memory,by rw [← hres.2]⟩

/-! ### Steps -/

/-- The scheduler is at work, and the process that lacks a line is in the queue or has its turn. -/
inductive Waiting (border : ℕ) (lines : Set CString) (t : CString) (pid₀ : ℕ) : State ω → Prop
  | scheduler {K : Kernel} {w : ω} (doomed : Doomed border lines t pid₀ K) (queue : pid₀ ∈ K.queue) :
    Waiting border lines t pid₀ ⟨K,w,[.scheduler]⟩
  | line {K : Kernel} {w : ω} {pid i : ℕ} {turn : Turn} {p : PCB} (doomed : Doomed border lines t pid₀ K)
    (queue : pid₀ ≠ pid → pid₀ ∈ K.queue) (hp : K.pcb pid = some p) (hi : i < p.pageTableSize)
    (hv : (p.pageTable i).validBit (p.programCounter i) = true) (hsize : turn = .single → p.size = 1) :
    Waiting border lines t pid₀ ⟨K,w,[.line pid i turn,.scheduler]⟩

theorem Doomed.startLine (h : Doomed border lines t pid₀ K) (hnone : cstr "none" ∈ lines) {turn : Turn}
    (hqueue : pid₀ ≠ pid → pid₀ ∈ K.queue) (hsize : ∀ p, K.pcb pid = some p → turn = .single → p.size = 1)
    (hs : startLine border K w pid turn [.scheduler] = some s') : Waiting border lines t pid₀ s' := by
  obtain ⟨p,hp,hs⟩ := Option.bind_eq_some_iff.mp hs
  dsimp only at hs
  split_ifs at hs with hi hv
  · obtain rfl := Option.some.inj hs
    exact .line h hqueue hp (by omega) hv (hsize p hp)
  · obtain ⟨K',hf,rfl⟩ := Option.map_eq_some_iff.mp hs
    obtain ⟨h',hq⟩ := h.pageFault hnone (fun p' hp' => by
      obtain rfl := Option.some.inj (hp.symm.trans hp')
      omega) hf
    refine .scheduler h' ?_
    rw [hq,List.mem_append,List.mem_singleton]
    exact (em (pid₀ = pid)).elim Or.inr fun hne => .inl (hqueue hne)

/-- A process that lacks a line never gets to its end. -/
theorem Waiting.tick (h : Waiting border lines t pid₀ s) (hnone : cstr "none" ∈ lines) (hC : Plain border C lines)
    (hlack : (readLines t).length < countLines t) (ht : tick border C s = some s') :
    Waiting border lines t pid₀ s' := by
  cases h with
  | @scheduler K w doomed queue =>
    obtain ⟨p₀,hp₀,hl₀⟩ := doomed.lacking
    have hnot : K.queueDone = false := by
      by_contra hc
      rw [Bool.not_eq_false,Kernel.queueDone,List.all_eq_true] at hc
      have := hc pid₀ queue
      rw [hp₀,Option.all_some,hl₀.not_done hlack] at this
      exact absurd this Bool.false_ne_true
    unfold Pager.tick at ht
    dsimp only at ht
    rw [hnot,if_neg Bool.false_ne_true] at ht
    cases hq : K.queue with
    | nil =>
      rw [hq] at queue
      simp at queue
    | cons pid rest =>
      rw [hq] at ht queue
      obtain ⟨p,hp,ht⟩ := Option.bind_eq_some_iff.mp ht
      have hd : Doomed border lines t pid₀ { K with queue := rest } := doomed.of_eq rfl doomed.memory
      have hrest : pid₀ ≠ pid → pid₀ ∈ rest := fun hne => (List.mem_cons.mp queue).resolve_left hne
      split_ifs at ht with h1 h2
      · exact hd.startLine hnone hrest (fun _ _ hc => by cases hc) ht
      · refine hd.startLine hnone hrest (fun p' hp' _ => ?_) ht
        obtain rfl := Option.some.inj (hp.symm.trans hp')
        exact h2
      · obtain rfl := Option.some.inj ht
        refine .scheduler hd (hrest ?_)
        rintro rfl
        obtain rfl := Option.some.inj (hp.symm.trans hp₀)
        have := hl₀.size_pos hlack
        omega
  | @line K w pid i turn p doomed queue hp hi hv hsize =>
    unfold Pager.tick at ht
    obtain ⟨p',hp',ht⟩ := Option.bind_eq_some_iff.mp ht
    obtain rfl := Option.some.inj (hp.symm.trans hp')
    have htame := doomed.tame pid p hp
    obtain ⟨ret,mem,w',hdone,hret,hmem⟩ := hC _ (doomed.memory _ (htame.page i _ hv).2) K.mem w
    dsimp only at ht
    rw [hdone] at ht
    dsimp only [finishLine] at ht
    obtain ⟨p',hp',ht⟩ := Option.bind_eq_some_iff.mp ht
    obtain rfl := Option.some.inj (hp.symm.trans hp')
    rw [if_neg hret] at ht
    obtain ⟨K1,hmove,ht⟩ := Option.bind_eq_some_iff.mp ht
    obtain ⟨q,-,rfl⟩ := Option.map_eq_some_iff.mp hmove
    have hmem' : TameMemory border lines mem := fun pos hpos => by
      rw [hmem pos hpos]
      exact doomed.memory pos hpos
    set p1 : PCB := { p with
      programCounter := Function.update p.programCounter i (p.programCounter i + 1)
      size := p.size - 1 }
    have hchange : ∀ K' : Kernel, K'.pcb = Function.update K.pcb pid (some p1) → K'.mem = mem →
        Doomed border lines t pid₀ K' := fun K' hpcb hm =>
      doomed.change hp hpcb (hm.symm ▸ hmem') ⟨htame.page,htame.source⟩ fun hl => hl.execute hlack hi hv
    cases turn with
    | first =>
      dsimp only at ht
      refine Doomed.startLine ?_ hnone ?_ (fun _ _ hc => by cases hc) ht
      · exact hchange _ rfl rfl
      · exact queue
    | second =>
      obtain rfl := Option.some.inj ht
      refine .scheduler (hchange _ rfl rfl) (List.mem_append.mpr ?_)
      exact (em (pid₀ = pid)).elim (fun he => .inr (List.mem_singleton.mpr he)) fun hne => .inl (queue hne)
    | single =>
      obtain rfl := Option.some.inj ht
      have hd : Doomed border lines t pid₀ { K with mem := mem, pcb := Function.update K.pcb pid (some p1) } :=
        hchange _ rfl rfl
      refine .scheduler (hchange _ rfl rfl) (queue ?_)
      rintro rfl
      -- its last line would be executed, but it lacks one
      obtain ⟨p2,hp2,hl2⟩ := hd.lacking
      have hself : Function.update K.pcb pid₀ (some p1) pid₀ = some p2 := hp2
      rw [Function.update_self] at hself
      have hpos := hl2.size_pos hlack
      rw [← Option.some.inj hself] at hpos
      have := hsize rfl
      simp only [p1] at hpos
      omega

theorem Waiting.ticks {n : ℕ} (h : Waiting border lines t pid₀ s) (hnone : cstr "none" ∈ lines)
    (hC : Plain border C lines) (hlack : (readLines t).length < countLines t) (ht : ticks border C n s = some s') :
    s'.stack ≠ [] := by
  induction n generalizing s with
  | zero =>
    obtain rfl := Option.some.inj ht
    cases h <;> simp
  | succ n ih =>
    obtain ⟨s1,h1,h2⟩ := Option.bind_eq_some_iff.mp ht
    exact ih (h.tick hnone hC hlack h1) h2

/-! ### The beginning -/

theorem loads_tame (ks : List ℕ) {r r' : PCB × Memory} (hk : ∀ k ∈ ks, k < r.1.pageTableSize)
    (h : ks.foldlM (fun (r : PCB × Memory) k => loadPage border r.1 k r.2) r = some r')
    (ht : Tame border lines r.1) (hm : TameMemory border lines r.2) (hl : Lacking t r.1) :
    Tame border lines r'.1 ∧ TameMemory border lines r'.2 ∧ Lacking t r'.1 := by
  induction ks generalizing r with
  | nil => exact Option.some.inj h ▸ ⟨ht,hm,hl⟩
  | cons k ks ih =>
    obtain ⟨r1,h1,h2⟩ := Option.bind_eq_some_iff.mp h
    obtain ⟨ht1,hm1⟩ := tame_loadPage ht hm h1
    refine ih (fun j hj => ?_) h2 ht1 hm1 (hl.load (hk k List.mem_cons_self) h1)
    rw [(loadPage_spec h1).1]
    exact hk j (List.mem_cons_of_mem _ hj)

theorem newProc_tame {script : CString} (hm : TameMemory border lines K.mem)
    (ht : ∀ pid p, K.pcb pid = some p → Tame border lines p) (hscript : ∀ line ∈ readLines script, line ∈ lines)
    (hn : K.newProc border script = some K') :
    TameMemory border lines K'.mem ∧ (∀ pid p, K'.pcb pid = some p → Tame border lines p) ∧
      (∃ p, K'.pcb K.pidCounter = some p ∧ Lacking script p) ∧ (∀ q, q ≠ K.pidCounter → K'.pcb q = K.pcb q) ∧
      K'.queue = K.queue ++ [K.pidCounter] ∧ K'.pidCounter = K.pidCounter + 1 := by
  obtain ⟨r,hr,rfl⟩ := Option.map_eq_some_iff.mp hn
  have hlack : Lacking script ⟨K.pidCounter,countLines script,pageTableSizeOf (countLines script),fun _ => 0,
      fun _ => pageInit,readLines script⟩ :=
    ⟨fun _ => 0,by simp,fun k j hc => absurd hc Bool.false_ne_true,fun _ => le_rfl,by simp,rfl⟩
  obtain ⟨ht',hm',hl'⟩ := @loads_tame border lines script _ _ _
    (fun k hk => lt_of_lt_of_le (List.mem_range.mp hk) (min_le_right _ _)) hr
    ⟨fun k j hc => absurd hc Bool.false_ne_true,hscript⟩ hm hlack
  refine ⟨hm',fun pid p hp => ?_,⟨r.1,Kernel.setPcb_self K _ _,hl'⟩,fun q hq => Kernel.setPcb_ne K _ hq,rfl,rfl⟩
  rcases eq_or_ne pid K.pidCounter with rfl | hne
  · have hself : (K.setPcb K.pidCounter r.1).pcb K.pidCounter = some p := hp
    rw [Kernel.setPcb_self] at hself
    exact Option.some.inj hself ▸ ht'
  · exact ht pid p ((Kernel.setPcb_ne K _ hne).symm.trans hp)

theorem newProcs_tame (scripts : List CString) (hm : TameMemory border lines K.mem)
    (ht : ∀ pid p, K.pcb pid = some p → Tame border lines p)
    (hscripts : ∀ t ∈ scripts, ∀ line ∈ readLines t, line ∈ lines) (hn : K.newProcs border scripts = some K') :
    TameMemory border lines K'.mem ∧ (∀ pid p, K'.pcb pid = some p → Tame border lines p) ∧
      (∀ t ∈ scripts, ∃ pid₀ ∈ K'.queue, ∃ p, K'.pcb pid₀ = some p ∧ Lacking t p) ∧
      (∀ q < K.pidCounter, K'.pcb q = K.pcb q) ∧ K.queue ⊆ K'.queue := by
  induction scripts generalizing K with
  | nil =>
    obtain rfl := Option.some.inj hn
    exact ⟨hm,ht,by simp,fun _ _ => rfl,List.Subset.refl _⟩
  | cons script scripts ih =>
    obtain ⟨K1,h1,h2⟩ := Option.bind_eq_some_iff.mp hn
    obtain ⟨hm1,ht1,hl1,hpcb1,hq1,hc1⟩ := newProc_tame hm ht (hscripts script List.mem_cons_self) h1
    obtain ⟨hm2,ht2,hl2,hpcb2,hq2⟩ := ih hm1 ht1 (fun t htm => hscripts t (List.mem_cons_of_mem _ htm)) h2
    refine ⟨hm2,ht2,fun t htm => ?_,fun q hq => ?_,fun q hq => hq2 (by rw [hq1]; exact List.mem_append_left _ hq)⟩
    · rcases List.mem_cons.mp htm with rfl | htm
      · obtain ⟨p,hp,hlack⟩ := hl1
        exact ⟨K.pidCounter,hq2 (by rw [hq1]; simp),p,(hpcb2 _ (by omega)).trans hp,hlack⟩
      · exact hl2 t htm
    · exact (hpcb2 q (by omega)).trans (hpcb1 q (by omega))

/-! ### Runs from the shell -/

/-- The shell between two runs, with an empty frame store. -/
structure Idle (border : ℕ) (s : State ω) : Prop where
  stack : s.stack = []
  pcb : ∀ pid, s.kernel.pcb pid = none
  queue : s.kernel.queue = []
  lru : s.kernel.lru = []
  all : s.kernel.all = []
  mem : ∀ pos < border, s.kernel.mem pos = emptyCell

/-- The script of each process of a run whose first process is `first`. -/
def scriptOf (first : ℕ) (scripts : List CString) (pid : ℕ) : CString := scripts.getD (pid - first) []

theorem linesOf_scriptOf (first : ℕ) (scripts : List CString) :
    linesOf (scriptOf first scripts) ⊆ {line | ∃ t ∈ scripts, line ∈ readLines t} := by
  rintro line ⟨pid,hline⟩
  rcases lt_or_ge (pid - first) scripts.length with hlt | hge
  · rw [scriptOf,List.getD_eq_getElem _ _ hlt] at hline
    exact ⟨_,List.getElem_mem _,hline⟩
  · rw [scriptOf,List.getD_eq_default _ _ hge] at hline
    exact absurd hline List.not_mem_nil

theorem Idle.running {script : CString} {more : List CString} (h : Idle border s)
    (hl : launch border script more s = some s')
    (hcomplete : ∀ t ∈ script::more, countLines t ≤ (readLines t).length) :
    ∃ ld, Running border (scriptOf s.kernel.pidCounter (script::more)) s' (fun _ => 0) ld := by
  obtain ⟨K,hK,rfl⟩ := Option.map_eq_some_iff.mp hl
  have hcore : Core border (scriptOf s.kernel.pidCounter (script::more)) (fun _ => 0) (fun _ => 0) s.kernel := by
    refine ⟨?_,?_,h.lru ▸ List.nodup_nil,?_,?_,fun pos hpos _ => by rw [h.mem pos hpos]; rfl,?_⟩
    · rw [h.all]
      simp
    all_goals
      rw [h.lru]
      simp
  have hstart : Started border (scriptOf s.kernel.pidCounter (script::more)) (fun _ => 0) s.kernel :=
    ⟨hcore,h.queue.trans h.all.symm,h.all ▸ List.nodup_nil,by simp [h.all],fun _ _ => rfl,by simp [h.all]⟩
  obtain ⟨ld,hs,hknown⟩ := hstart.newProcs (fun i t hi => by
    rw [scriptOf,Nat.add_sub_cancel_left,List.getD_eq_getElem?_getD,hi,Option.getD_some]) hK
  refine ⟨ld,hs.running (fun pid hpid => ?_) _⟩
  rcases hknown pid hpid with hm | hm
  · rw [h.all] at hm
    simp at hm
  · exact hcomplete _ hm

/-- Commands that do nothing. -/
def doNothing : Commands Unit := fun _ mem w => .done 0 mem w

theorem plain_doNothing (border : ℕ) (lines : Set CString) : Plain border doNothing lines :=
  fun _ _ m w => ⟨0,m,w,rfl,by decide,fun _ _ => rfl⟩

theorem idle_shellStart (border : ℕ) : Idle border shellStart := ⟨rfl,fun _ => rfl,rfl,rfl,rfl,fun _ _ => rfl⟩

/-! ### Lines -/

/-- Scripts with all the lines counted: in every state of the run, every page holds its own lines. -/
theorem run_holdsOwnLines {script : CString} {more : List CString} (hidle : Idle border s)
    (hC : Plain border C {line | ∃ t ∈ script::more, line ∈ readLines t})
    (hcomplete : ∀ t ∈ script::more, countLines t ≤ (readLines t).length) (n : ℕ)
    (hrun : runFor border C n script more s = some s') :
    HoldsOwnLines (scriptOf s.kernel.pidCounter (script::more)) s'.kernel := by
  obtain ⟨s1,h1,h2⟩ := Option.bind_eq_some_iff.mp hrun
  obtain ⟨ld,hstart⟩ := hidle.running h1 hcomplete
  have hC' : Plain border C (linesOf (scriptOf s.kernel.pidCounter (script::more))) :=
    fun line hline => hC line (linesOf_scriptOf _ _ hline)
  rcases hstart.ticks hC' h2 with ⟨-,hall⟩ | ⟨done,ld',hrunning⟩
  · intro pid hpid
    rw [hall] at hpid
    simp at hpid
  · exact hrunning.holdsOwnLines

theorem run_holdsOwnLines_fourLines : HoldsOwnLines (scriptOf 1 [cstr "a\nb\nc\nd"])
    ((runFor 6 doNothing 5 (cstr "a\nb\nc\nd") [] shellStart).get (by decide +kernel)).kernel :=
  run_holdsOwnLines (idle_shellStart 6) (plain_doNothing 6 _) (by decide +kernel) 5 (Option.some_get _).symm

/-- A script of seven lines beside one whose last line ends with a newline. -/
def sevenLines : CString := cstr "l0\nl1\nl2\nl3\nl4\nl5\nl6"

/-- The first script faults for a second line it does not have; the first page of the other one is
evicted, and loaded again with its last line. -/
theorem run_loses_lines : ¬ ∀ s', runFor 9 doNothing 3 (cstr "a\n") [sevenLines] shellStart = some s' →
    HoldsOwnLines (scriptOf 1 [cstr "a\n",sevenLines]) s'.kernel := by
  intro h
  have hsee : (runFor 9 doNothing 3 (cstr "a\n") [sevenLines] shellStart).map (fun s => (s.kernel.all,(s.kernel.pcb 2).map
      fun p => ((p.pageTable 0).validBit 0,(s.kernel.mem ((p.pageTable 0).index 0)).value))) =
      some ([1,2],some (true,cstr "l6")) := by decide +kernel
  obtain ⟨s,hs,hsee⟩ := Option.map_eq_some_iff.mp hsee
  obtain ⟨hall,hpage⟩ := Prod.mk.inj hsee
  obtain ⟨p,hp,hpage⟩ := Option.map_eq_some_iff.mp hpage
  obtain ⟨hv,hvalue⟩ := Prod.mk.inj hpage
  obtain ⟨-,hline⟩ := h s hs 2 (by simp [hall]) p hp 0 0 (by decide) hv
  rw [hvalue] at hline
  revert hline
  decide +kernel

/-! ### Termination -/

theorem not_returns {script : CString} {more : List CString} (hidle : Idle border s)
    (hC : Plain border C ({line | ∃ t ∈ script::more, line ∈ readLines t} ∪ {cstr "none"}))
    (hl : launch border script more s = some s') {t : CString} (ht : t ∈ script::more)
    (hlack : (readLines t).length < countLines t) : ¬ Returns border C s' := by
  rintro ⟨n,s2,hn,hstack⟩
  obtain ⟨K,hK,rfl⟩ := Option.map_eq_some_iff.mp hl
  obtain ⟨hm,htame,hall,-⟩ := @newProcs_tame border
    ({line | ∃ t ∈ script::more, line ∈ readLines t} ∪ {cstr "none"}) _ _ (script::more)
    (fun pos hpos => by rw [hidle.mem pos hpos]; exact .inr rfl)
    (fun pid p hp => by rw [hidle.pcb] at hp; simp at hp) (fun t ht line hline => .inl ⟨t,ht,hline⟩) hK
  obtain ⟨pid₀,hq,p,hp,hl₀⟩ := hall t ht
  have hwait : Waiting border ({line | ∃ t ∈ script::more, line ∈ readLines t} ∪ {cstr "none"}) t pid₀
      ⟨K,s.world,[.scheduler]⟩ := .scheduler ⟨hm,htame,p,hp,hl₀⟩ hq
  exact hwait.ticks (.inr rfl) hC hlack hn hstack

/-- A run returns if and only if every script has all the lines that were counted. -/
theorem run_returns_iff {script : CString} {more : List CString} (hidle : Idle border s)
    (hC : Plain border C ({line | ∃ t ∈ script::more, line ∈ readLines t} ∪ {cstr "none"}))
    (hl : launch border script more s = some s') :
    Returns border C s' ↔ ∀ t ∈ script::more, countLines t ≤ (readLines t).length := by
  constructor
  · intro hreturns t ht
    by_contra hlack
    exact not_returns hidle hC hl ht (not_le.mp hlack) hreturns
  · intro hcomplete
    obtain ⟨ld,hstart⟩ := hidle.running hl hcomplete
    exact hstart.returns fun line hline => hC line (.inl (linesOf_scriptOf _ _ hline))

theorem run_returns_iff_fourLines :
    Returns 6 doNothing ((launch 6 (cstr "a\nb\nc\nd") [] shellStart).get (by decide +kernel)) ↔
      ∀ t ∈ [cstr "a\nb\nc\nd"], countLines t ≤ (readLines t).length :=
  run_returns_iff (idle_shellStart 6) (plain_doNothing 6 _) (Option.some_get _).symm

/-- A script with the one line `a`, ended by a newline, runs for ever. -/
theorem run_never_returns : ¬ ∀ s', launch 3 (cstr "a\n") [] shellStart = some s' → Returns 3 doNothing s' := by
  intro h
  obtain ⟨s,hs⟩ : ∃ s, launch 3 (cstr "a\n") [] shellStart = some s := Option.isSome_iff_exists.mp (by decide +kernel)
  exact not_returns (idle_shellStart 3) (plain_doNothing 3 _) hs List.mem_cons_self (by decide) (h s hs)

end ShellOS.Pager
