import ShellOS.Pager.Core

/-! The order in which round-robin uses pages. Until the first page fault all processes are in step;
at that fault the initial pages are finished. From then on an unfinished page is so far from the
tail of the LRU list that it is never the one to go. -/
namespace ShellOS.Pager
open CLib

theorem idxOf_erase_le {α : Type*} [BEq α] [LawfulBEq α] {l : List α} {x y : α} (h : y ≠ x) :
    (l.erase x).idxOf y ≤ l.idxOf y := by
  induction l with
  | nil => exact le_rfl
  | cons a l ih =>
    rcases eq_or_ne a x with rfl | hax
    · rw [List.erase_cons_head,List.idxOf_cons_ne _ h.symm]
      exact Nat.le_succ _
    · rw [List.erase_cons_tail (by simpa using hax)]
      rcases eq_or_ne a y with rfl | hay
      · rw [List.idxOf_cons_self,List.idxOf_cons_self]
      · rw [List.idxOf_cons_ne _ hay,List.idxOf_cons_ne _ hay]
        exact Nat.succ_le_succ ih

theorem idxOf_dropLast {α : Type*} [BEq α] [LawfulBEq α] {l : List α} {y : α} (h : y ∈ l.dropLast) :
    l.dropLast.idxOf y = l.idxOf y := by
  cases l using List.reverseRecOn with
  | nil => simp at h
  | append_singleton init v =>
    rw [List.dropLast_concat] at h ⊢
    exact (List.idxOf_append_of_mem h).symm

/-- A process with lines left to execute. -/
def unfinished (text : ℕ → CString) (done : ℕ → ℕ) (pid : ℕ) : Bool := decide (done pid < countLines (text pid))

/-- The processes that need more than the two pages loaded at first. -/
def long (text : ℕ → CString) (pid : ℕ) : Bool := decide (6 < countLines (text pid))

/-- The processes of a scheduler: those in `active` have a `run_proc`, the others are in the queue
or have executed all their lines. -/
structure Party (border : ℕ) (text : ℕ → CString) (active : List ℕ) (done ld : ℕ → ℕ) (K : Kernel) : Prop where
  core : Core border text done ld K
  nodup : (active ++ K.queue).Nodup
  known : ∀ pid ∈ active ++ K.queue, pid ∈ K.all
  rest : ∀ pid ∈ K.all, pid ∉ active ++ K.queue → done pid = countLines (text pid)
  frames : 2 * K.all.countP (long text) ≤ border / 3
  complete : ∀ pid ∈ K.all, countLines (text pid) ≤ (readLines (text pid)).length

/-- The processes in `before` have yet to take part in round `r`, those in `after` have done so. -/
structure InStep (text : ℕ → CString) (r : ℕ) (before after : List ℕ) (done ld : ℕ → ℕ) (K : Kernel) : Prop where
  round : r < 3
  queue : K.queue = before ++ after
  before : ∀ pid ∈ before, done pid = min (countLines (text pid)) (2 * r)
  after : ∀ pid ∈ after, done pid = min (countLines (text pid)) (2 * r + 2)
  initial : ∀ pid ∈ K.all, ld pid = min 2 (pageTableSizeOf (countLines (text pid))) ∧ ∀ k < ld pid, (pid,k) ∈ K.lru

/-- After the first rounds: the only unfinished page of a process is its current one, and each process
ahead in the queue may put two more pages before it in the LRU list, and `slack` of them at once. -/
structure Later (text : ℕ → CString) (slack : ℕ) (done ld : ℕ → ℕ) (K : Kernel) : Prop where
  six : ∀ pid ∈ K.all, min (countLines (text pid)) 6 ≤ done pid
  ahead : ∀ pid ∈ K.all, unfinished text done pid → 3 * (ld pid - 1) ≤ done pid
  recent : ∀ ahead pid behind, K.queue = ahead ++ pid::behind → unfinished text done pid →
    (pid,ld pid - 1) ∈ K.lru → done pid < 3 * ld pid →
    K.lru.idxOf (pid,ld pid - 1) + 1 + slack + 2 * ahead.countP (unfinished text done) ≤ 2 * K.all.countP (long text)

variable {border : ℕ} {text : ℕ → CString} {done ld : ℕ → ℕ} {K K' : Kernel} {pid slack : ℕ} {active : List ℕ}

theorem unfinished_iff : unfinished text done pid = true ↔ done pid < countLines (text pid) := decide_eq_true_iff

theorem Later.mono (h : Later text slack done ld K) {slack' : ℕ} (hle : slack' ≤ slack) : Later text slack' done ld K :=
  { h with recent := fun a q b hq hu hl hd => by have := h.recent a q b hq hu hl hd; omega }

theorem Later.long_of_unfinished (h : Later text slack done ld K) (hpid : pid ∈ K.all)
    (hu : unfinished text done pid) : long text pid = true := by
  have := h.six pid hpid
  have := unfinished_iff.mp hu
  exact decide_eq_true (by omega)

/-- The processes with lines left are at most the long ones. -/
theorem Later.countP_le (h : Later text slack done ld K) {pids : List ℕ} (hnodup : pids.Nodup)
    (hknown : ∀ pid ∈ pids, pid ∈ K.all) : pids.countP (unfinished text done) ≤ K.all.countP (long text) := by
  rw [List.countP_eq_length_filter,List.countP_eq_length_filter]
  refine ((hnodup.filter _).subperm fun pid hpid => ?_).length_le
  obtain ⟨hm,hu⟩ := List.mem_filter.mp hpid
  exact List.mem_filter.mpr ⟨hknown pid hm,h.long_of_unfinished (hknown pid hm) hu⟩

theorem countP_update (pids : List ℕ) (hpid : pid ∉ pids) (n : ℕ) :
    pids.countP (unfinished text (Function.update done pid n)) = pids.countP (unfinished text done) := by
  refine List.countP_congr fun q hq => ?_
  have hne : q ≠ pid := fun hc => hpid (hc ▸ hq)
  rw [unfinished,unfinished,Function.update_of_ne hne]

/-- The page at the tail of the list is finished when a page fault needs its frame. -/
theorem Later.victim (h : Later text slack done ld K) (hp : Party border text [pid] done ld K) (hslack : 1 ≤ slack)
    (hcur : ld pid = done pid / 3) (hnone : findFrame border K.mem = none) (v : PageRef)
    (hv : K.lru.getLast? = some v) : Core.Finished text done v := by
  obtain ⟨init,hinit⟩ := List.getLast?_eq_some_iff.mp hv
  have hvin : v ∈ K.lru := by rw [hinit]; simp
  have hfull := hp.core.full hnone
  obtain ⟨p,-,hproc⟩ := hp.core.procs v.1 (hp.core.owner v hvin)
  have hvld := (hproc.resident v.2 hvin).1
  have hsize := hproc.size
  by_contra hfin
  rw [Core.Finished,not_or] at hfin
  have hall := hp.core.owner v hvin
  have hu : unfinished text done v.1 = true := unfinished_iff.mpr (by omega)
  have hpid : v.1 ≠ pid := by
    intro hc
    rw [hc] at hfin hvld
    omega
  have hq : v.1 ∈ K.queue := by
    by_contra hc
    exact hfin.2 (hp.rest v.1 hall fun hm => (List.mem_cons.mp hm).elim hpid hc)
  have hahead := h.ahead v.1 hall hu
  have hlast : v = (v.1,ld v.1 - 1) := Prod.ext rfl (by dsimp only; omega)
  obtain ⟨a,b,hab⟩ := List.append_of_mem hq
  have hrecent := h.recent a v.1 b hab hu (hlast ▸ hvin) (by omega)
  have hidx : K.lru.idxOf v + 1 = K.lru.length := by
    have hnodup := hp.core.nodup
    rw [hinit,List.nodup_append] at hnodup
    have hnot : v ∉ init := fun hc => hnodup.2.2 v hc v (List.mem_singleton_self v) rfl
    rw [hinit,List.idxOf_append,if_neg hnot,List.idxOf_cons_self,List.length_append,List.length_singleton]
    omega
  rw [← hlast] at hrecent
  have := hp.frames
  omega

/-- One more line of the active process. -/
theorem Later.execute (h : Later text (slack + 1) done ld K) (hpid : pid ∉ K.queue) (hall : pid ∈ K.all)
    (hqueue : K'.queue = K.queue) (hK : K'.all = K.all)
    (hlru : K'.lru = (pid,done pid / 3)::K.lru.erase (pid,done pid / 3)) (hcur : 3 * (ld pid - 1) ≤ done pid) :
    Later text slack (Function.update done pid (done pid + 1)) ld K' := by
  refine ⟨fun q hq => ?_,fun q hq hu => ?_,fun a q b hab hu hl hd => ?_⟩
  · rw [hK] at hq
    have := h.six q hq
    rcases eq_or_ne q pid with rfl | hne
    · rw [Function.update_self]
      omega
    · rw [Function.update_of_ne hne]
      exact this
  · rw [hK] at hq
    rcases eq_or_ne q pid with rfl | hne
    · rw [Function.update_self]
      omega
    · rw [unfinished,Function.update_of_ne hne] at hu
      rw [Function.update_of_ne hne]
      exact h.ahead q hq hu
  · rw [hqueue] at hab
    have hne : q ≠ pid := fun hc => hpid (by rw [hab,hc]; simp)
    have hxy : (q,ld q - 1) ≠ (pid,done pid / 3) := fun hc => hne (congrArg Prod.fst hc)
    have ha : pid ∉ a := fun hc => hpid (by rw [hab]; simp [hc])
    rw [unfinished,Function.update_of_ne hne] at hu
    rw [Function.update_of_ne hne] at hd
    rw [hlru] at hl ⊢
    have hl' : (q,ld q - 1) ∈ K.lru := List.mem_of_mem_erase ((List.mem_cons.mp hl).resolve_left hxy)
    have hrecent := h.recent a q b hab hu hl' hd
    have hidx := idxOf_erase_le (l := K.lru) hxy
    rw [countP_update a ha,hK,List.idxOf_cons_ne _ hxy.symm]
    omega

/-- A page fault of the active process, which then is the last of the queue. -/
theorem Later.pageFault (h : Later text (slack + 1) done ld K) (hp : Party border text [pid] done ld K)
    (hslack : slack ≤ 1) (hu : unfinished text done pid) (hcur : ld pid = done pid / 3)
    (hqueue : K'.queue = K.queue ++ [pid]) (hK : K'.all = K.all)
    (hlru : K'.lru = (pid,ld pid)::K.lru ∨ K'.lru = (pid,ld pid)::K.lru.dropLast) :
    Later text slack done (Function.update ld pid (ld pid + 1)) K' := by
  have hpid : pid ∉ K.queue := (List.nodup_cons.mp hp.nodup).1
  refine ⟨fun q hq => h.six q (hK ▸ hq),fun q hq hu => ?_,fun a q b hab hu' hl hd => ?_⟩
  · rcases eq_or_ne q pid with rfl | hne
    · rw [Function.update_self]
      omega
    · rw [Function.update_of_ne hne]
      exact h.ahead q (hK ▸ hq) hu
  rcases eq_or_ne q pid with rfl | hne
  · -- the page just loaded is the first of the list
    have hidx : K'.lru.idxOf (q,ld q) = 0 := by
      rcases hlru with hlru | hlru <;> rw [hlru,List.idxOf_cons_self]
    have ha : a = K.queue := by
      rw [hqueue] at hab
      have hb : b = [] := by
        by_contra hb
        obtain ⟨b',c,rfl⟩ := (List.eq_nil_or_concat b).resolve_left hb
        rw [List.concat_eq_append,← List.cons_append,← List.append_assoc] at hab
        have := List.append_inj_left' hab rfl
        exact hpid (by rw [this]; simp)
      subst hb
      exact (List.append_inj_left' hab rfl).symm
    have hcount := h.countP_le hp.nodup hp.known
    rw [List.singleton_append,List.countP_cons,if_pos hu] at hcount
    rw [Function.update_self,Nat.add_sub_cancel,hidx,ha,hK]
    omega
  · rw [Function.update_of_ne hne] at hl hd ⊢
    have hxy : (q,ld q - 1) ≠ (pid,ld pid) := fun hc => hne (congrArg Prod.fst hc)
    obtain ⟨b',hb⟩ : ∃ b', K.queue = a ++ q::b' := by
      have hq : q ∈ K.queue := by
        have : q ∈ K.queue ++ [pid] := by rw [← hqueue,hab]; simp
        exact (List.mem_append.mp this).resolve_right fun hc => hne (List.mem_singleton.mp hc)
      rw [hqueue] at hab
      rcases List.eq_nil_or_concat b with rfl | ⟨b',c,rfl⟩
      · have := List.append_inj_right' hab rfl
        exact absurd (List.cons.inj this).1.symm hne
      · rw [List.concat_eq_append,← List.cons_append,← List.append_assoc] at hab
        exact ⟨b',List.append_inj_left' hab rfl⟩
    have hmem : (q,ld q - 1) ∈ K.lru ∧ K'.lru.idxOf (q,ld q - 1) = K.lru.idxOf (q,ld q - 1) + 1 := by
      rcases hlru with hlru | hlru
      · rw [hlru] at hl ⊢
        exact ⟨(List.mem_cons.mp hl).resolve_left hxy,List.idxOf_cons_ne _ hxy.symm⟩
      · rw [hlru] at hl ⊢
        have hm := (List.mem_cons.mp hl).resolve_left hxy
        refine ⟨List.dropLast_subset _ hm,?_⟩
        rw [List.idxOf_cons_ne _ hxy.symm,idxOf_dropLast hm]
    have hrecent := h.recent a q b' hb hu' hmem.1 hd
    rw [hmem.2,hK]
    omega

/-- The first of the queue gets its turn. -/
theorem Later.pop (h : Later text 0 done ld K) {queue : List ℕ} (hq : K.queue = pid::queue)
    (hu : unfinished text done pid) : Later text 2 done ld { K with queue := queue } := by
  refine ⟨h.six,h.ahead,fun a q b hab hu' hl hd => ?_⟩
  have := h.recent (pid::a) q b (by rw [hq]; exact congrArg _ hab) hu' hl hd
  rw [List.countP_cons,if_pos hu] at this
  dsimp only at hl ⊢
  omega

/-- The first of the queue has no lines left. -/
theorem Later.drop (h : Later text 0 done ld K) {queue : List ℕ} (hq : K.queue = pid::queue)
    (hu : ¬ unfinished text done pid) : Later text 0 done ld { K with queue := queue } := by
  refine ⟨h.six,h.ahead,fun a q b hab hu' hl hd => ?_⟩
  have := h.recent (pid::a) q b (by rw [hq]; exact congrArg _ hab) hu' hl hd
  rw [List.countP_cons,if_neg hu] at this
  dsimp only at hl ⊢
  omega

/-- The active process goes to the end of the queue, its current page being the first of the list. -/
theorem Later.requeue (h : Later text 0 done ld K) (hp : Party border text [pid] done ld K)
    (hfirst : unfinished text done pid → done pid < 3 * ld pid → K.lru.idxOf (pid,ld pid - 1) = 0) :
    Later text 0 done ld { K with queue := K.queue ++ [pid] } := by
  have hpid : pid ∉ K.queue := (List.nodup_cons.mp hp.nodup).1
  refine ⟨h.six,h.ahead,fun a q b hab hu hl hd => ?_⟩
  dsimp only at hab hl ⊢
  rcases List.eq_nil_or_concat b with rfl | ⟨b',c,rfl⟩
  · obtain ⟨ha,hq⟩ := List.append_inj' hab rfl
    obtain rfl := (List.cons.inj hq).1
    have hcount := h.countP_le hp.nodup hp.known
    rw [List.singleton_append,List.countP_cons,if_pos hu,ha] at hcount
    rw [hfirst hu hd]
    omega
  · rw [List.concat_eq_append,← List.cons_append,← List.append_assoc] at hab
    exact h.recent a q b' (List.append_inj_left' hab rfl) hu hl hd

/-- When three rounds are over, every page loaded at first is finished. -/
theorem later_of_rounds (hp : Party border text active done ld K)
    (hdone : ∀ pid ∈ active ++ K.queue, done pid = min (countLines (text pid)) 6)
    (hld : ∀ pid ∈ K.all, ld pid ≤ 2) : Later text slack done ld K := by
  have hall : ∀ pid ∈ K.all, min (countLines (text pid)) 6 ≤ done pid := by
    intro pid hpid
    by_cases hm : pid ∈ active ++ K.queue
    · exact (hdone pid hm).ge
    · rw [hp.rest pid hpid hm]
      exact min_le_left _ _
  refine ⟨hall,fun pid hpid hu => ?_,fun a pid b hab hu hl hd => ?_⟩
  · have := hld pid hpid
    have := hall pid hpid
    have := unfinished_iff.mp hu
    omega
  · have hm : pid ∈ active ++ K.queue := by rw [hab]; simp
    have := hld pid (hp.known pid hm)
    have := hdone pid hm
    have := unfinished_iff.mp hu
    omega

end ShellOS.Pager
