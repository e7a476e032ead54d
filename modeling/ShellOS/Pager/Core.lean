import ShellOS.Pager.Freeing

/-! Pages and frames of processes whose scripts have all the lines that were counted: a page is
loaded once, with its own lines, and leaves its frame when they have been executed. -/
namespace ShellOS.Pager
open CLib

/-! ### Loading -/

/-- Filling a page whose indices are consecutive, from the entry `j` on. -/
theorem fillPage_spec (pid : CString) (n j start : ℕ) {page : Page} (source : List CString) (m : Memory)
    (hi : ∀ i, page.index i = start + i) :
    (fillPage pid n j page source m).1.index = page.index ∧
    (∀ i, (fillPage pid n j page source m).1.validBit i =
      if j ≤ i ∧ i < j + n ∧ i < j + source.length then true else page.validBit i) ∧
    (fillPage pid n j page source m).2.1 = source.drop n ∧
    ∀ pos, (fillPage pid n j page source m).2.2 pos =
      if start + j ≤ pos ∧ pos < start + j + n ∧ pos < start + j + source.length
      then ⟨pid,source.getD (pos - (start + j)) []⟩ else m pos := by
  induction n generalizing j page source m with
  | zero =>
    refine ⟨rfl,fun i => (if_neg ?_).symm,rfl,fun pos => (if_neg ?_).symm⟩
    · omega
    · omega
  | succ n ih =>
    cases source with
    | nil =>
      refine ⟨rfl,fun i => (if_neg ?_).symm,rfl,fun pos => (if_neg ?_).symm⟩
      · simp only [List.length_nil]
        omega
      · simp only [List.length_nil]
        omega
    | cons line source =>
      obtain ⟨h1,h2,h3,h4⟩ := @ih (j + 1) { page with validBit := Function.update page.validBit j true }
        source (memSetValueAt (page.index j) pid line m) hi
      refine ⟨h1,fun i => (h2 i).trans ?_,h3,fun pos => (h4 pos).trans ?_⟩
      · dsimp only
        rw [List.length_cons,Function.update_apply]
        split_ifs <;> first | rfl | omega
      · rw [List.length_cons,memSetValueAt,hi,Function.update_apply]
        split_ifs with ha hb hc hd
        · congr 1
          rw [show pos - (start + j) = pos - (start + (j + 1)) + 1 by omega,List.getD_cons_succ]
        · omega
        · rw [hc,Nat.sub_self,List.getD_cons_zero]
        · omega
        · omega
        · rfl

theorem loadPage_eq {border k start : ℕ} {p : PCB} {m : Memory} (h : findFrame border m = some start) :
    ∃ page mem, loadPage border p k m = some ({ p with
        pageTable := Function.update p.pageTable k page
        sourceFile := p.sourceFile.drop 3 },mem) ∧
      (∀ j, page.index j = start + j) ∧ (∀ j, page.validBit j = decide (j < 3 ∧ j < p.sourceFile.length)) ∧
      ∀ pos, mem pos = if start ≤ pos ∧ pos < start + 3 then ⟨Shell.decimal p.pid,
        if pos - start < p.sourceFile.length then p.sourceFile.getD (pos - start) [] else (m pos).value⟩ else m pos := by
  obtain ⟨h1,h2,h3,h4⟩ := @fillPage_spec (Shell.decimal p.pid) 3 0 start
    ⟨fun j => start + j,fun _ => false⟩ p.sourceFile (markFrame start (Shell.decimal p.pid) m) (fun _ => rfl)
  refine ⟨_,_,?_,fun j => congrFun h1 j,fun j => (h2 j).trans ?_,fun pos => (h4 pos).trans ?_⟩
  · rw [loadPage,h,Option.map_some]
    dsimp only
    rw [h3]
  · simp only [Nat.zero_le,true_and,Nat.zero_add]
    split_ifs with hj
    · exact (decide_eq_true hj).symm
    · exact (decide_eq_false hj).symm
  · rw [markFrame]
    simp only [Nat.add_zero]
    split_ifs <;> first | rfl | omega

/-! ### Frames -/

theorem decimal_ne_none (n : ℕ) : Shell.decimal n ≠ cstr "none" := by
  intro h
  have hmem : ∀ c ∈ Shell.decimal n, c.toNat < 58 := by
    intro c hc
    unfold Shell.decimal at hc
    split_ifs at hc with h0
    · simp only [List.mem_singleton] at hc
      exact hc ▸ (by decide)
    · obtain ⟨d,hd,rfl⟩ := List.mem_map.mp hc
      have := Nat.digits_lt_base (by decide) (List.mem_reverse.mp hd)
      rw [UInt8.toNat_ofNat']
      omega
  rw [h] at hmem
  exact absurd (hmem 110 (by decide)) (by decide)

/-- Free slots are found frame by frame when they come in aligned groups of three. -/
theorem findFrame_aligned {border i : ℕ} {m : Memory} (h : findFrame border m = some i)
    (hgroup : ∀ pos, 3 * (pos / 3) + 3 ≤ border → (m pos).var = cstr "none" →
      ∀ j < 3, (m (3 * (pos / 3) + j)).var = cstr "none") :
    i % 3 = 0 ∧ i + 3 ≤ border ∧ (m i).var = cstr "none" := by
  obtain ⟨hi,-,hmin⟩ := List.find?_range_eq_some.mp h
  simp only [Bool.and_eq_true,decide_eq_true_eq,beq_iff_eq] at hi
  obtain ⟨hle,⟨h0,h1⟩,h2⟩ := hi
  refine ⟨?_,hle,h0⟩
  by_contra hmod
  have hg := hgroup i (by omega) h0
  have hearlier := hmin (3 * (i / 3)) (by omega)
  simp only [Bool.not_eq_true',Bool.and_eq_false_iff,decide_eq_false_iff_not,beq_eq_false_iff_ne] at hearlier
  rcases hearlier with hc | (hc | hc) | hc
  · omega
  · exact hc (hg 0 (by decide))
  · exact hc (hg 1 (by decide))
  · exact hc (hg 2 (by decide))

theorem findFrame_none {border i : ℕ} {m : Memory} (h : findFrame border m = none) (hle : i + 3 ≤ border) :
    ∃ j < 3, (m (i + j)).var ≠ cstr "none" := by
  have := List.find?_eq_none.mp h i (List.mem_range.mpr (by omega))
  simp only [Bool.and_eq_true,decide_eq_true_eq,beq_iff_eq,not_and] at this
  by_contra hc
  push Not at hc
  exact this hle ⟨hc 0 (by decide),hc 1 (by decide)⟩ (hc 2 (by decide))

/-! ### Processes -/

theorem pageTableSizeOf_eq (n : ℕ) : pageTableSizeOf n = (n + 2) / 3 := by
  unfold pageTableSizeOf
  split <;> omega

/-- A process of the script `t` that has executed `done` lines and loaded `ld` pages, of which those
in `cache` are in memory. -/
structure Proc (t : CString) (cache : List PageRef) (pid : ℕ) (p : PCB) (done ld : ℕ) : Prop where
  pid_eq : p.pid = pid
  size : p.size + done = countLines t
  table : p.pageTableSize = pageTableSizeOf (countLines t)
  counter : ∀ k, p.programCounter k = min 3 (done - 3 * k)
  source : p.sourceFile = (readLines t).drop (3 * ld)
  ld_le : ld ≤ pageTableSizeOf (countLines t)
  done_le : done ≤ 3 * ld
  resident : ∀ k, (pid,k) ∈ cache → k < ld ∧
    (∀ j, (p.pageTable k).validBit j = decide (j < 3 ∧ 3 * k + j < (readLines t).length)) ∧
    ∀ j, (p.pageTable k).index j = (p.pageTable k).index 0 + j
  absent : ∀ k, (pid,k) ∉ cache → (∀ j, (p.pageTable k).validBit j = false) ∧
    (k < ld → 3 * k + 3 ≤ done ∨ done = countLines t)

namespace Proc
variable {t : CString} {cache cache' : List PageRef} {pid done ld : ℕ} {p : PCB}

theorem of_mem_iff (h : Proc t cache pid p done ld) (hmem : ∀ k, (pid,k) ∈ cache' ↔ (pid,k) ∈ cache) :
    Proc t cache' pid p done ld :=
  { h with
    resident := fun k hk => h.resident k ((hmem k).mp hk)
    absent := fun k hk => h.absent k fun hc => hk ((hmem k).mpr hc) }

theorem currentPage_eq (h : Proc t cache pid p done ld) (hlt : done < countLines t) : currentPage p = done / 3 := by
  have hfind : (List.range p.pageTableSize).find? (fun i => p.programCounter i != 3) = some (done / 3) := by
    rw [List.find?_range_eq_some]
    refine ⟨?_,List.mem_range.mpr ?_,fun k hk => ?_⟩
    · rw [bne_iff_ne,h.counter]
      omega
    · rw [h.table,pageTableSizeOf_eq]
      omega
    · rw [h.counter,show min 3 (done - 3 * k) = 3 by omega]
      rfl
  rw [currentPage,hfind,Option.getD_some]

/-- The next line is in memory, or its page is the next one to be loaded. -/
theorem next (h : Proc t cache pid p done ld) (hlt : done < countLines t)
    (hcomplete : countLines t ≤ (readLines t).length) :
    if (pid,done / 3) ∈ cache then (p.pageTable (done / 3)).validBit (p.programCounter (done / 3)) = true
    else (p.pageTable (done / 3)).validBit (p.programCounter (done / 3)) = false ∧ ld = done / 3 := by
  have hpc := h.counter (done / 3)
  split_ifs with hc
  · rw [(h.resident _ hc).2.1,hpc,decide_eq_true_eq]
    omega
  · obtain ⟨hv,hdone⟩ := h.absent _ hc
    refine ⟨hv _,?_⟩
    have hle := h.done_le
    by_contra hne
    rcases hdone (by omega) with hd | hd
    · omega
    · omega

theorem execute (h : Proc t cache pid p done ld) (hlt : done < countLines t) (hc : (pid,done / 3) ∈ cache) :
    Proc t cache pid { p with
      programCounter := Function.update p.programCounter (done / 3) (p.programCounter (done / 3) + 1)
      size := p.size - 1 } (done + 1) ld := by
  have hsize := h.size
  have hld := (h.resident _ hc).1
  refine { h with size := ?_, counter := fun k => ?_, done_le := by omega, absent := fun k hk => ?_ }
  · dsimp only
    omega
  · dsimp only
    rw [Function.update_apply,h.counter,h.counter]
    split_ifs with hk
    · subst hk
      omega
    · omega
  · obtain ⟨hv,hd⟩ := h.absent k hk
    refine ⟨hv,fun hlt' => ?_⟩
    rcases hd hlt' with hd | hd
    · exact .inl (by omega)
    · omega

end Proc

/-! ### The kernel -/

/-- Where a page begins in memory. -/
def Kernel.start (K : Kernel) (r : PageRef) : ℕ := ((K.pcb r.1).map fun p => (p.pageTable r.2).index 0).getD 0

/-- The processes run their scripts `text`; the pages in the LRU list have frames of their own, with
the lines of the script, and every other frame is free. -/
structure Core (border : ℕ) (text : ℕ → CString) (done ld : ℕ → ℕ) (K : Kernel) : Prop where
  procs : ∀ pid ∈ K.all, ∃ p, K.pcb pid = some p ∧ Proc (text pid) K.lru pid p (done pid) (ld pid)
  owner : ∀ r ∈ K.lru, r.1 ∈ K.all
  nodup : K.lru.Nodup
  aligned : ∀ r ∈ K.lru, K.start r % 3 = 0 ∧ K.start r + 3 ≤ border
  inj : ∀ r ∈ K.lru, ∀ r' ∈ K.lru, K.start r = K.start r' → r = r'
  free : ∀ pos < border, (∀ r ∈ K.lru, ¬ (K.start r ≤ pos ∧ pos < K.start r + 3)) → (K.mem pos).var = cstr "none"
  held : ∀ r ∈ K.lru, ∀ j < 3, (K.mem (K.start r + j)).var ≠ cstr "none" ∧
    (3 * r.2 + j < (readLines (text r.1)).length →
      (K.mem (K.start r + j)).value = (readLines (text r.1)).getD (3 * r.2 + j) [])

namespace Core
variable {border : ℕ} {text : ℕ → CString} {done ld : ℕ → ℕ} {K K' : Kernel} {pid : ℕ} {p : PCB}

theorem start_eq (K : Kernel) {r : PageRef} (hp : K.pcb r.1 = some p) : K.start r = (p.pageTable r.2).index 0 := by
  rw [Kernel.start,hp,Option.map_some,Option.getD_some]

theorem group (h : Core border text done ld K) (pos : ℕ) (hpos : 3 * (pos / 3) + 3 ≤ border)
    (hfree : (K.mem pos).var = cstr "none") (j : ℕ) (hj : j < 3) : (K.mem (3 * (pos / 3) + j)).var = cstr "none" := by
  refine h.free _ (by omega) fun r hr hc => ?_
  have hal := h.aligned r hr
  have hheld := (h.held r hr (pos - K.start r) (by omega)).1
  rw [show K.start r + (pos - K.start r) = pos by omega] at hheld
  exact hheld hfree

/-- The frames in use are as many as the pages in the list. -/
theorem full (h : Core border text done ld K) (hnone : findFrame border K.mem = none) :
    border / 3 ≤ K.lru.length := by
  have hsub : List.range (border / 3) ⊆ K.lru.map fun r => K.start r / 3 := by
    intro f hf
    have hf := List.mem_range.mp hf
    by_contra hc
    obtain ⟨j,hj,hne⟩ := findFrame_none (i := 3 * f) hnone (by omega)
    refine hne (h.free _ (by omega) fun r hr hcov => hc (List.mem_map.mpr ⟨r,hr,?_⟩))
    have := h.aligned r hr
    omega
  have := (List.nodup_range.subperm hsub).length_le
  rwa [List.length_range,List.length_map] at this

/-- Lists that are not looked at, and memory outside of the frames. -/
theorem of_perm (h : Core border text done ld K) (hpcb : K'.pcb = K.pcb) (hall : K'.all = K.all)
    (hlru : K'.lru.Perm K.lru) (hmem : ∀ pos < border, K'.mem pos = K.mem pos) : Core border text done ld K' := by
  have hstart : ∀ r, K'.start r = K.start r := fun r => by rw [Kernel.start,Kernel.start,hpcb]
  have hm : ∀ r, r ∈ K'.lru ↔ r ∈ K.lru := fun r => hlru.mem_iff
  refine ⟨fun pid hpid => ?_,fun r hr => ?_,hlru.nodup_iff.mpr h.nodup,fun r hr => ?_,fun r hr r' hr' he => ?_,
    fun pos hpos hfree => ?_,fun r hr j hj => ?_⟩
  · obtain ⟨p,hp,hproc⟩ := h.procs pid (hall ▸ hpid)
    exact ⟨p,hpcb ▸ hp,hproc.of_mem_iff fun k => hm _⟩
  · exact hall ▸ h.owner r ((hm r).mp hr)
  · rw [hstart]
    exact h.aligned r ((hm r).mp hr)
  · rw [hstart,hstart] at he
    exact h.inj r ((hm r).mp hr) r' ((hm r').mp hr') he
  · rw [hmem pos hpos]
    exact h.free pos hpos fun r hr => hstart r ▸ hfree r ((hm r).mpr hr)
  · have hr := (hm r).mp hr
    rw [hstart,hmem _ (by have := h.aligned r hr; omega)]
    exact h.held r hr j hj

theorem load (h : Core border text done ld K) (hpid : pid ∈ K.all) (hp : K.pcb pid = some p)
    (hk : ld pid < pageTableSizeOf (countLines (text pid))) {r : PCB × Memory}
    (hl : loadPage border p (ld pid) K.mem = some r) :
    Core border text done (Function.update ld pid (ld pid + 1))
      { K.setPcb pid r.1 with mem := r.2, lru := (pid,ld pid)::K.lru } := by
  obtain ⟨q,hq,hproc⟩ := h.procs pid hpid
  obtain rfl := Option.some.inj (hp.symm.trans hq)
  obtain ⟨start,hs⟩ : ∃ start, findFrame border K.mem = some start := by
    obtain ⟨start,hs,-⟩ := Option.map_eq_some_iff.mp hl
    exact ⟨start,hs⟩
  obtain ⟨hmod,hle,hnone⟩ := findFrame_aligned hs h.group
  obtain ⟨page,mem,hl',hindex,hvalid,hmem⟩ := loadPage_eq (k := ld pid) (p := p) hs
  obtain rfl := Option.some.inj (hl.symm.trans hl')
  have hnew : (pid,ld pid) ∉ K.lru := fun hc => lt_irrefl _ (hproc.resident _ hc).1
  have hapart : ∀ r ∈ K.lru, K.start r + 3 ≤ start ∨ start + 3 ≤ K.start r := by
    intro r hr
    have hal := h.aligned r hr
    rcases lt_trichotomy (K.start r) start with hlt | heq | hgt
    · omega
    · have := (h.held r hr 0 (by decide)).1
      rw [Nat.add_zero,heq] at this
      exact absurd hnone this
    · omega
  set p' : PCB := { p with pageTable := Function.update p.pageTable (ld pid) page, sourceFile := p.sourceFile.drop 3 }
  set K' : Kernel := { K.setPcb pid p' with mem := mem, lru := (pid,ld pid)::K.lru }
  have hpcb : K'.pcb pid = some p' := Kernel.setPcb_self K pid p'
  have hstart_new : K'.start (pid,ld pid) = start := by
    rw [start_eq K' hpcb,show p'.pageTable (ld pid) = page from Function.update_self _ _ _,hindex,Nat.add_zero]
  have hstart_old : ∀ r ∈ K.lru, K'.start r = K.start r := by
    intro r hr
    rcases eq_or_ne r.1 pid with he | he
    · have hp1 : K.pcb r.1 = some p := he ▸ hp
      have hp2 : K'.pcb r.1 = some p' := he ▸ hpcb
      rw [start_eq K' hp2,start_eq K hp1]
      refine congrArg (Page.index · 0) (Function.update_of_ne ?_ _ _)
      rintro hk2
      exact hnew (by rw [← hk2,← he]; exact hr)
    · rw [Kernel.start,Kernel.start,show K'.pcb r.1 = K.pcb r.1 from Kernel.setPcb_ne K p' he]
  have hin : ∀ r, r ∈ K'.lru ↔ r = (pid,ld pid) ∨ r ∈ K.lru := fun r => List.mem_cons
  have hsource : p.sourceFile.length = (readLines (text pid)).length - 3 * ld pid := by
    rw [hproc.source,List.length_drop]
  refine ⟨fun q hq => ?_,fun r hr => ?_,List.nodup_cons.mpr ⟨hnew,h.nodup⟩,fun r hr => ?_,fun r hr r' hr' he => ?_,
    fun pos hpos hfree => ?_,fun r hr j hj => ?_⟩
  · rcases eq_or_ne q pid with rfl | hne
    · refine ⟨p',hpcb,?_⟩
      rw [Function.update_self]
      refine { hproc with
        source := ?_, ld_le := hk, done_le := by have := hproc.done_le; omega
        resident := fun k hk' => ?_, absent := fun k hk' => ?_ }
      · rw [show p'.sourceFile = p.sourceFile.drop 3 from rfl,hproc.source,List.drop_drop]
        congr 1
      · rcases (hin _).mp hk' with he | hold
        · obtain rfl := congrArg Prod.snd he
          have hpage : p'.pageTable (ld q) = page := Function.update_self _ _ _
          refine ⟨Nat.lt_succ_self _,fun j => ?_,fun j => ?_⟩
          · rw [hpage,hvalid,hsource]
            exact decide_eq_decide.mpr (by omega)
          · rw [hpage,hindex,hindex,Nat.add_zero]
        · have hne : k ≠ ld q := fun hc => hnew (hc ▸ hold)
          obtain ⟨h1,h2,h3⟩ := hproc.resident k hold
          have hpage : p'.pageTable k = p.pageTable k := Function.update_of_ne hne _ _
          exact ⟨by omega,fun j => hpage ▸ h2 j,fun j => hpage ▸ h3 j⟩
      · have hold : (q,k) ∉ K.lru := fun hc => hk' ((hin _).mpr (.inr hc))
        have hne : k ≠ ld q := fun hc => hk' ((hin _).mpr (.inl (by rw [hc])))
        obtain ⟨h1,h2⟩ := hproc.absent k hold
        have hpage : p'.pageTable k = p.pageTable k := Function.update_of_ne hne _ _
        exact ⟨fun j => hpage ▸ h1 j,fun hlt => h2 (by omega)⟩
    · obtain ⟨p2,hp2,hproc2⟩ := h.procs q hq
      refine ⟨p2,(Kernel.setPcb_ne K p' hne).trans hp2,?_⟩
      rw [Function.update_of_ne hne]
      refine hproc2.of_mem_iff fun k => (hin _).trans ⟨fun hc => ?_,Or.inr⟩
      exact hc.resolve_left fun hc => hne (congrArg Prod.fst hc)
  · rcases (hin r).mp hr with rfl | hr
    · exact hpid
    · exact h.owner r hr
  · rcases (hin r).mp hr with rfl | hr
    · rw [hstart_new]
      exact ⟨hmod,hle⟩
    · rw [hstart_old r hr]
      exact h.aligned r hr
  · rcases (hin r).mp hr with rfl | hr <;> rcases (hin r').mp hr' with rfl | hr'
    · rfl
    · rw [hstart_new,hstart_old r' hr'] at he
      have := hapart r' hr'
      omega
    · rw [hstart_new,hstart_old r hr] at he
      have := hapart r hr
      omega
    · rw [hstart_old r hr,hstart_old r' hr'] at he
      exact h.inj r hr r' hr' he
  · have hout := hfree _ ((hin _).mpr (.inl rfl))
    rw [hstart_new] at hout
    rw [show K'.mem pos = mem pos from rfl,hmem,if_neg hout]
    exact h.free pos hpos fun r hr => hstart_old r hr ▸ hfree r ((hin r).mpr (.inr hr))
  · rcases (hin r).mp hr with rfl | hr
    · rw [hstart_new,show K'.mem (start + j) = mem (start + j) from rfl,hmem,if_pos (by omega)]
      refine ⟨decimal_ne_none _,fun hlt => ?_⟩
      dsimp only at hlt ⊢
      rw [Nat.add_sub_cancel_left,if_pos (by omega),hproc.source,List.getD_eq_getElem?_getD,List.getElem?_drop,
        ← List.getD_eq_getElem?_getD]
    · have := hapart r hr
      rw [hstart_old r hr,show K'.mem (K.start r + j) = mem (K.start r + j) from rfl,hmem,if_neg (by omega)]
      exact h.held r hr j hj

/-- The pages of a process whose script has been executed are finished, as are those before its current one. -/
def Finished (text : ℕ → CString) (done : ℕ → ℕ) (v : PageRef) : Prop :=
  3 * v.2 + 3 ≤ done v.1 ∨ done v.1 = countLines (text v.1)

theorem evict (h : Core border text done ld K) {v : PageRef} (hv : K.lru.getLast? = some v)
    (hfin : Finished text done v) : ∃ K', K.evictTail = some K' ∧ Core border text done ld K' ∧
      K'.lru = K.lru.dropLast ∧ K'.queue = K.queue ∧ K'.all = K.all ∧ findFrame border K'.mem ≠ none := by
  obtain ⟨init,hinit⟩ := List.getLast?_eq_some_iff.mp hv
  have hdrop : K.lru.dropLast = init := by rw [hinit,List.dropLast_concat]
  have hmem_iff : ∀ r, r ∈ K.lru ↔ r ∈ init ∨ r = v := fun r => by rw [hinit,List.mem_append,List.mem_singleton]
  have hvin : v ∈ K.lru := (hmem_iff v).mpr (.inr rfl)
  have hnodup := h.nodup
  rw [hinit,List.nodup_append] at hnodup
  have hnot : v ∉ init := fun hc => hnodup.2.2 v hc v (List.mem_singleton_self v) rfl
  have hall := h.owner v hvin
  obtain ⟨p,hp,hproc⟩ := h.procs v.1 hall
  obtain ⟨hvld,-,hindex⟩ := hproc.resident v.2 hvin
  have hstart := start_eq K hp
  obtain ⟨hmod,hle⟩ := h.aligned v hvin
  have hmem : ∀ pos, (pageEvict p v.2 K.mem).2 pos =
      if K.start v ≤ pos ∧ pos < K.start v + 3 then emptyCell else K.mem pos := by
    intro pos
    simp only [pageEvict,memFreeAt,Function.update_apply,hindex 1,hindex 2,← hstart]
    split_ifs <;> first | rfl | omega
  refine ⟨{ K.setPcb v.1 (pageEvict p v.2 K.mem).1 with mem := (pageEvict p v.2 K.mem).2, lru := K.lru.dropLast },
    ?_,?_,rfl,rfl,rfl,fun hnone => ?_⟩
  · rw [Kernel.evictTail,hv,Option.bind_some,if_pos hall,hp,Option.map_some]
  · rw [hdrop]
    set p' := (pageEvict p v.2 K.mem).1
    set K' : Kernel := { K.setPcb v.1 p' with mem := (pageEvict p v.2 K.mem).2, lru := init }
    have hpcb : K'.pcb v.1 = some p' := Kernel.setPcb_self K _ p'
    have hold : ∀ r ∈ init, K'.start r = K.start r := by
      intro r hr
      rcases eq_or_ne r.1 v.1 with he | he
      · have hp1 : K.pcb r.1 = some p := he ▸ hp
        have hp2 : K'.pcb r.1 = some p' := he ▸ hpcb
        rw [start_eq K' hp2,start_eq K hp1]
        refine congrArg (Page.index · 0) (pageEvict_ne p K.mem ?_)
        intro hk
        exact hnot ((Prod.ext he hk : r = v) ▸ hr)
      · rw [Kernel.start,Kernel.start,show K'.pcb r.1 = K.pcb r.1 from Kernel.setPcb_ne K p' he]
    have hapart : ∀ r ∈ init, ¬ (K.start v ≤ K.start r ∧ K.start r < K.start v + 3) := by
      intro r hr hc
      have hr' := (hmem_iff r).mpr (.inl hr)
      have hal := h.aligned r hr'
      exact hnot (h.inj r hr' v hvin (by omega) ▸ hr)
    refine ⟨fun q hq => ?_,fun r hr => h.owner r ((hmem_iff r).mpr (.inl hr)),hnodup.1,fun r hr => ?_,
      fun r hr r' hr' he => ?_,fun pos hpos hfree => ?_,fun r hr j hj => ?_⟩
    · rcases eq_or_ne q v.1 with rfl | hne
      · refine ⟨p',hpcb,{ hproc with resident := fun k hk => ?_, absent := fun k hk => ?_ }⟩
        · have hne : k ≠ v.2 := fun hc => hnot ((Prod.ext rfl hc : (v.1,k) = v) ▸ hk)
          have hpage : p'.pageTable k = p.pageTable k := pageEvict_ne p K.mem hne
          obtain ⟨h1,h2,h3⟩ := hproc.resident k ((hmem_iff _).mpr (.inl hk))
          exact ⟨h1,fun j => hpage ▸ h2 j,fun j => hpage ▸ h3 j⟩
        · rcases eq_or_ne k v.2 with rfl | hne
          · exact ⟨fun j => by rw [show p'.pageTable v.2 = _ from pageEvict_self p v.2 K.mem],fun _ => hfin⟩
          · have hpage : p'.pageTable k = p.pageTable k := pageEvict_ne p K.mem hne
            obtain ⟨h1,h2⟩ := hproc.absent k fun hc => ((hmem_iff _).mp hc).elim hk fun hc => hne (congrArg Prod.snd hc)
            exact ⟨fun j => hpage ▸ h1 j,h2⟩
      · obtain ⟨p2,hp2,hproc2⟩ := h.procs q hq
        refine ⟨p2,(Kernel.setPcb_ne K p' hne).trans hp2,hproc2.of_mem_iff fun k => ?_⟩
        rw [hmem_iff]
        exact ⟨Or.inl,fun hc => hc.resolve_right fun hc => hne (congrArg Prod.fst hc)⟩
    · rw [hold r hr]
      exact h.aligned r ((hmem_iff r).mpr (.inl hr))
    · rw [hold r hr,hold r' hr'] at he
      exact h.inj r ((hmem_iff r).mpr (.inl hr)) r' ((hmem_iff r').mpr (.inl hr')) he
    · rw [show K'.mem pos = _ from hmem pos]
      split_ifs with hc
      · rfl
      · refine h.free pos hpos fun r hr hcov => ?_
        rcases (hmem_iff r).mp hr with hr | rfl
        · exact hfree r hr (hold r hr ▸ hcov)
        · exact hc hcov
    · have hr' := (hmem_iff r).mpr (.inl hr)
      have hal := h.aligned r hr'
      have := hapart r hr
      rw [hold r hr,show K'.mem (K.start r + j) = _ from hmem _,if_neg (by omega)]
      exact h.held r hr' j hj
  · obtain ⟨j,hj,hc⟩ := findFrame_none hnone hle
    have hempty : (pageEvict p v.2 K.mem).2 (K.start v + j) = emptyCell := by rw [hmem,if_pos (by omega)]
    exact hc (congrArg Cell.var hempty)

/-- A page fault loads the next page, where the page at the tail of the list is finished if it has to go. -/
theorem pageFault (h : Core border text done ld K) (hpid : pid ∈ K.all)
    (hk : ld pid < pageTableSizeOf (countLines (text pid))) (hb : 3 ≤ border)
    (hvictim : findFrame border K.mem = none → ∀ v, K.lru.getLast? = some v → Finished text done v) :
    ∃ K', K.pageFault border pid (ld pid) = some K' ∧
      Core border text done (Function.update ld pid (ld pid + 1)) K' ∧ K'.queue = K.queue ++ [pid] ∧ K'.all = K.all ∧
      (K'.lru = (pid,ld pid)::K.lru ∨ K'.lru = (pid,ld pid)::K.lru.dropLast) := by
  obtain ⟨p,hp,hproc⟩ := h.procs pid hpid
  cases hf : findFrame border K.mem with
  | some start =>
    obtain ⟨r,hl⟩ : ∃ r, loadPage border p (ld pid) K.mem = some r := by
      rw [loadPage,hf]
      exact ⟨_,rfl⟩
    have hcore := h.load hpid hp hk hl
    refine ⟨{ K.setPcb pid r.1 with mem := r.2, lru := (pid,ld pid)::K.lru, queue := K.queue ++ [pid] },?_,
      hcore.of_perm rfl rfl (List.Perm.refl _) (fun _ _ => rfl),rfl,rfl,.inl rfl⟩
    rw [Kernel.pageFault,Kernel.loadPage,hp,Option.bind_some,hl]
    rfl
  | none =>
    have hlen := h.full hf
    have hne : K.lru ≠ [] := fun hc => by rw [hc,List.length_nil] at hlen; omega
    obtain ⟨v,hv⟩ : ∃ v, K.lru.getLast? = some v := ⟨_,List.getLast?_eq_some_getLast hne⟩
    obtain ⟨K1,hev,hcore1,hlru,hqueue,hall,hfree⟩ := h.evict hv (hvictim hf v hv)
    obtain ⟨p1,hp1,hproc1⟩ := hcore1.procs pid (hall ▸ hpid)
    obtain ⟨start,hs⟩ := Option.ne_none_iff_exists'.mp hfree
    obtain ⟨r,hl⟩ : ∃ r, loadPage border p1 (ld pid) K1.mem = some r := by
      rw [loadPage,hs]
      exact ⟨_,rfl⟩
    have hcore := hcore1.load (hall ▸ hpid) hp1 hk hl
    have hfail : K.loadPage border pid (ld pid) = none := by
      rw [Kernel.loadPage,hp,Option.bind_some,loadPage,hf]
      rfl
    have hload : K1.loadPage border pid (ld pid) = some { K1.setPcb pid r.1 with mem := r.2 } := by
      rw [Kernel.loadPage,hp1,Option.bind_some,hl]
      rfl
    refine ⟨{ K1.setPcb pid r.1 with mem := r.2, lru := (pid,ld pid)::K1.lru, queue := K1.queue ++ [pid] },?_,
      hcore.of_perm rfl rfl (List.Perm.refl _) (fun _ _ => rfl),by rw [hqueue],hall,.inr (by rw [hlru])⟩
    rw [Kernel.pageFault,hfail]
    dsimp only
    rw [hev,Option.map_some,hload]
    rfl

theorem find_unique {α : Type*} [BEq α] [LawfulBEq α] {l : List α} {f : α → Bool} {x : α} (hx : x ∈ l) (hf : f x = true)
    (hu : ∀ y ∈ l, f y = true → y = x) : l.find? f = some x ∧ l.eraseP f = l.erase x := by
  induction l with
  | nil => simp at hx
  | cons a l ih =>
    cases ha : f a with
    | true =>
      obtain rfl := hu a List.mem_cons_self ha
      rw [List.find?_cons_of_pos ha,List.eraseP_cons_of_pos ha,List.erase_cons_head]
      exact ⟨rfl,rfl⟩
    | false =>
      have hne : a ≠ x := fun hc => by rw [hc,hf] at ha; exact absurd ha (by decide)
      obtain ⟨h1,h2⟩ := ih ((List.mem_cons.mp hx).resolve_left hne.symm) fun y hy => hu y (List.mem_cons_of_mem _ hy)
      rw [List.find?_cons_of_neg (by simp [ha]),List.eraseP_cons_of_neg (by simp [ha]),h1,h2,
        List.erase_cons_tail (by simpa using hne)]
      exact ⟨rfl,rfl⟩

/-- A line that has been executed: the process has one more behind it, its page is at the front. -/
theorem execute (h : Core border text done ld K) (hpid : pid ∈ K.all) (hp : K.pcb pid = some p)
    (hlt : done pid < countLines (text pid)) (hres : (pid,done pid / 3) ∈ K.lru) :
    ∃ K', (K.setPcb pid { p with
        programCounter := Function.update p.programCounter (done pid / 3) (p.programCounter (done pid / 3) + 1)
        size := p.size - 1 }).moveToFront (pid,done pid / 3) = some K' ∧
      Core border text (Function.update done pid (done pid + 1)) ld K' ∧
      K'.lru = (pid,done pid / 3)::K.lru.erase (pid,done pid / 3) ∧ K'.queue = K.queue ∧ K'.all = K.all := by
  obtain ⟨q,hq,hproc⟩ := h.procs pid hpid
  obtain rfl := Option.some.inj (hp.symm.trans hq)
  set p' : PCB := { p with
    programCounter := Function.update p.programCounter (done pid / 3) (p.programCounter (done pid / 3) + 1)
    size := p.size - 1 }
  set x : PageRef := (pid,done pid / 3)
  have hstart : ∀ r, (K.setPcb pid p').start r = K.start r := by
    intro r
    rcases eq_or_ne r.1 pid with he | he
    · have hp1 : K.pcb r.1 = some p := he ▸ hp
      have hp2 : (K.setPcb pid p').pcb r.1 = some p' := he ▸ Kernel.setPcb_self K pid p'
      rw [start_eq _ hp2,start_eq K hp1]
    · rw [Kernel.start,Kernel.start,Kernel.setPcb_ne K p' he]
  have hcore : Core border text (Function.update done pid (done pid + 1)) ld (K.setPcb pid p') := by
    refine ⟨fun q hq => ?_,h.owner,h.nodup,fun r hr => ?_,fun r hr r' hr' he => ?_,fun pos hpos hfree => ?_,
      fun r hr j hj => ?_⟩
    · rcases eq_or_ne q pid with rfl | hne
      · refine ⟨p',Kernel.setPcb_self K _ p',?_⟩
        rw [Function.update_self]
        exact hproc.execute hlt hres
      · obtain ⟨p2,hp2,hproc2⟩ := h.procs q hq
        refine ⟨p2,(Kernel.setPcb_ne K p' hne).trans hp2,?_⟩
        rw [Function.update_of_ne hne]
        exact hproc2
    · rw [hstart]
      exact h.aligned r hr
    · rw [hstart,hstart] at he
      exact h.inj r hr r' hr' he
    · exact h.free pos hpos fun r hr => hstart r ▸ hfree r hr
    · rw [hstart]
      exact h.held r hr j hj
  have hsome : ∀ r ∈ K.lru, ∃ p, (K.setPcb pid p').pcb r.1 = some p := fun r hr => by
    obtain ⟨p,hp,-⟩ := hcore.procs r.1 (h.owner r hr)
    exact ⟨p,hp⟩
  obtain ⟨hfind,herase⟩ := find_unique (f := fun q => (K.setPcb pid p').pageEqual x q) hres
    (by rw [Kernel.pageEqual,beq_self_eq_true]) fun y hy he => by
      obtain ⟨p1,hp1⟩ := hsome x hres
      obtain ⟨p2,hp2⟩ := hsome y hy
      rw [Kernel.pageEqual,hp1,hp2,Option.map_some,Option.map_some,beq_iff_eq,Option.some_inj] at he
      refine hcore.inj y hy x hres ?_
      rw [start_eq _ hp1,start_eq _ hp2]
      exact he.symm
  refine ⟨{ K.setPcb pid p' with lru := x::K.lru.erase x },?_,
    hcore.of_perm rfl rfl (List.perm_cons_erase hres).symm (fun _ _ => rfl),rfl,rfl,rfl⟩
  rw [Kernel.moveToFront,show (K.setPcb pid p').lru = K.lru from rfl,hfind,herase]
  rfl

end Core
end ShellOS.Pager
