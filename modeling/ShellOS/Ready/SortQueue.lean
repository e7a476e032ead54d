import ShellOS.Lib.BubblePass
import ShellOS.Lib.Chain

/-! Sorting the ready queue by relinking its nodes. -/
namespace ShellOS.Ready
open Chain BubblePass

/-- What sorting reads of a `PCB`. -/
structure Job where
  priority : Bool
  jobLengthScore : ℤ
  deriving DecidableEq,Repr

structure JobNode where
  pcb : Job
  next : Option ℕ

/-- The nodes in memory and the global `head`; a node that was freed is `none`. -/
structure JobQueue where
  node : ℕ → Option JobNode
  head : Option ℕ

/-- `swap_needed` on the jobs of two neighbours. -/
def swapNeeded (cur next : Job) : Bool :=
  if cur.priority && next.priority then decide (next.jobLengthScore < cur.jobLengthScore)
  else if cur.priority && !next.priority then false
  else if !cur.priority && next.priority then true
  else decide (next.jobLengthScore < cur.jobLengthScore)

namespace JobQueue

def next (Q : JobQueue) (a : ℕ) : Option (Option ℕ) := (Q.node a).map JobNode.next

def pcb (Q : JobQueue) (a : ℕ) : Option Job := (Q.node a).map JobNode.pcb

def setNext (Q : JobQueue) (a : ℕ) (q : Option ℕ) : JobQueue :=
  { Q with node := Function.update Q.node a ((Q.node a).map fun n => { n with next := q }) }

/-- `ready_queue_swap_with_next`, where the search for the node before `toSwap` takes at most so many
rounds: `none` if it takes more, or where a pointer is followed that leads to no node. The search
starts at the `head` of before the first relinking and is made in any case. -/
def readyQueueSwapWithNext (rounds toSwap : ℕ) (Q : JobQueue) : Option JobQueue := do
  let R ← if Q.head = some toSwap then do
      let next ← (← Q.next toSwap)
      let after ← Q.next next
      pure { (Q.setNext toSwap after).setNext next (some toSwap) with head := some next }
    else pure Q
  match ← seek R.next toSwap rounds Q.head with
  | none => pure R
  | some cur =>
    let next ← (← R.next toSwap)
    let afterNext ← R.next next
    pure (((R.setNext cur (some next)).setNext next (some toSwap)).setNext toSwap afterNext)

/-- One round of the outer loop of `sort_ready_queue` from `cur` on, with what it leaves in `cur` and `sorted`. -/
def bubble (rounds : ℕ) : ℕ → JobQueue → ℕ → Bool → Option (JobQueue × ℕ × Bool)
  | 0,_,_,_ => none
  | n+1,Q,cur,sorted => do
    let c ← Q.node cur
    match c.next with
    | none => pure (Q,cur,sorted)
    | some b =>
      let d ← Q.node b
      if swapNeeded c.pcb d.pcb then
        let Q ← Q.readyQueueSwapWithNext rounds cur
        bubble rounds n Q cur false
      else bubble rounds n Q b sorted

/-- The outer loop; `cur` is not set back. -/
def sortLoop (rounds : ℕ) : ℕ → JobQueue → ℕ → Option JobQueue
  | 0,_,_ => none
  | n+1,Q,cur => do
    let (Q,cur,sorted) ← Q.bubble rounds rounds cur true
    if sorted then pure Q else sortLoop rounds n Q cur

/-- `sort_ready_queue` with at most so many rounds of each loop. -/
def sortReadyQueue (rounds : ℕ) (Q : JobQueue) : Option JobQueue :=
  match Q.head with
  | none => some Q
  | some cur => Q.sortLoop rounds rounds cur

def readyQueuePopHead (Q : JobQueue) : Option (Option ℕ × JobQueue) :=
  match Q.head with
  | none => some (none,Q)
  | some a => (Q.next a).map fun q => (some a,{ Q with head := q })

def readyQueuePopShortestJob (rounds : ℕ) (Q : JobQueue) : Option (Option ℕ × JobQueue) :=
  (Q.sortReadyQueue rounds).bind readyQueuePopHead

end JobQueue

def Job.rank (j : Job) : ℕ ×ₗ ℤ := toLex (if j.priority then 0 else 1,j.jobLengthScore)

/-- `j` may stand before `k`. -/
def Job.Before (j k : Job) : Prop :=
  (k.priority = true → j.priority = true) ∧ (j.priority = k.priority → j.jobLengthScore ≤ k.jobLengthScore)

theorem Job.before_iff (j k : Job) : j.Before k ↔ j.rank ≤ k.rank := by
  obtain ⟨p,s⟩ := j
  obtain ⟨q,t⟩ := k
  cases p <;> cases q <;> simp [Job.Before,Job.rank,Prod.Lex.toLex_le_toLex]

theorem swapNeeded_iff (j k : Job) : swapNeeded j k = true ↔ k.rank < j.rank := by
  obtain ⟨p,s⟩ := j
  obtain ⟨q,t⟩ := k
  cases p <;> cases q <;> simp [swapNeeded,Job.rank,Prod.Lex.toLex_lt_toLex]

namespace JobQueue
variable {Q R : JobQueue} {a b c : ℕ} {q r : Option ℕ} {l l' : List ℕ} {rounds : ℕ}

@[simp] theorem setNext_head : (Q.setNext a q).head = Q.head := rfl

@[simp] theorem setNext_pcb : (Q.setNext a q).pcb = Q.pcb := by
  funext b
  by_cases h : b = a
  · subst h
    cases hb : Q.node b <;> simp [pcb,setNext,hb]
  · simp [pcb,setNext,h]

theorem setNext_next_self (h : Q.next a = some r) : (Q.setNext a q).next a = some q := by
  obtain ⟨n,hn,-⟩ := Option.map_eq_some_iff.mp h
  simp [next,setNext,hn]

theorem setNext_next_ne (h : b ≠ a) : (Q.setNext a q).next b = Q.next b := by
  simp [next,setNext,h]

@[simp] theorem withHead_next : ({ Q with head := q } : JobQueue).next = Q.next := rfl

@[simp] theorem withHead_pcb : ({ Q with head := q } : JobQueue).pcb = Q.pcb := rfl

theorem swap_head (h : Linked Q.next Q.head (a::b::l)) :
    ∃ R, (∀ rounds > l.length, Q.readyQueueSwapWithNext rounds a = some R) ∧ Linked R.next R.head (b::a::l) ∧
      R.pcb = Q.pcb := by
  have hnodup := h.nodup
  obtain ⟨hhead,q,hq,rfl,r,hr,hl⟩ := h
  simp only [List.nodup_cons,List.mem_cons,not_or] at hnodup
  obtain ⟨⟨hab,hal⟩,hbl,-⟩ := hnodup
  have hne : ∀ c ∈ l, c ≠ a ∧ c ≠ b := fun c hc => ⟨fun e => hal (e ▸ hc),fun e => hbl (e ▸ hc)⟩
  let R : JobQueue := { (Q.setNext a r).setNext b (some a) with head := some b }
  have hbR : R.next b = some (some a) :=
    setNext_next_self (r := r) ((setNext_next_ne (Ne.symm hab)).trans hr)
  have haR : R.next a = some r := (setNext_next_ne hab).trans (setNext_next_self hq)
  have hlR : ∀ c ∈ l, R.next c = Q.next c := fun c hc =>
    (setNext_next_ne (hne c hc).2).trans (setNext_next_ne (hne c hc).1)
  have hrest : Linked R.next (some a) (a::l) := ⟨rfl,r,haR,hl.congr hlR⟩
  -- the search starts behind the new head and finds nothing
  have hseek : ∀ rounds > l.length, seek R.next a rounds (some a) = some none := fun rounds hn =>
    seek_off hrest (by simpa using hal) hn
  refine ⟨R,fun rounds hn => ?_,⟨rfl,_,hbR,hrest⟩,by simp [R]⟩
  have hseek := hseek rounds hn
  simp [readyQueueSwapWithNext,hhead,hq,hr,hseek,R] at hseek ⊢

theorem swap_behind (h : Linked Q.next Q.head (l ++ c::a::b::l')) :
    ∃ R, (∀ rounds > l.length, Q.readyQueueSwapWithNext rounds a = some R) ∧
      Linked R.next R.head (l ++ c::b::a::l') ∧ R.pcb = Q.pcb := by
  have hnodup := h.nodup
  obtain ⟨q,hq,hrest⟩ := h.suffix.2
  obtain ⟨rfl,q,hqa,rfl,r,hr,hl⟩ := hrest
  have ha : a ∉ l ++ [c] := by
    have happend : l ++ c::a::b::l' = (l ++ [c]) ++ a::b::l' := by simp
    rw [happend] at hnodup
    exact fun ha => List.disjoint_of_nodup_append hnodup ha List.mem_cons_self
  have hhead : Q.head ≠ some a := by
    rw [h.head_eq]
    intro he
    cases l with
    | nil => simp_all
    | cons d l => simp_all
  simp only [List.nodup_append,List.nodup_cons,List.mem_cons,not_or] at hnodup
  obtain ⟨-,⟨⟨hca,hcb,hcl⟩,⟨hab,hal⟩,hbl,-⟩,hdis⟩ := hnodup
  let R : JobQueue := ((Q.setNext c (some b)).setNext b (some a)).setNext a r
  have hcR : R.next c = some (some b) :=
    (setNext_next_ne hca).trans ((setNext_next_ne hcb).trans (setNext_next_self hq))
  have hbR : R.next b = some (some a) :=
    (setNext_next_ne (Ne.symm hab)).trans (setNext_next_self (r := r) ((setNext_next_ne (Ne.symm hcb)).trans hr))
  have haR : R.next a = some r :=
    setNext_next_self (r := some b) ((setNext_next_ne hab).trans ((setNext_next_ne (Ne.symm hca)).trans hqa))
  have hlR : ∀ d ∈ l ++ l', R.next d = Q.next d := by
    intro d hd
    have hne : d ≠ c ∧ d ≠ a ∧ d ≠ b := by
      cases List.mem_append.mp hd with
      | inl hd =>
        have hdis := hdis d hd
        simp_all
      | inr hd => exact ⟨fun e => hcl (e ▸ hd),fun e => hal (e ▸ hd),fun e => hbl (e ▸ hd)⟩
    exact (setNext_next_ne hne.2.1).trans ((setNext_next_ne hne.2.2).trans (setNext_next_ne hne.1))
  refine ⟨R,fun rounds hn => ?_,h.swap hcR hbR (haR.trans hr.symm) hlR,by simp [R]⟩
  have hseek : seek Q.next a rounds Q.head = some (some c) := seek_before h ha hn
  simp [readyQueueSwapWithNext,hhead,hseek,hqa,hr,R]

/-- What the comparison looks at, for a node of the queue. -/
def rankAt (Q : JobQueue) (a : ℕ) : ℕ ×ₗ ℤ := (Q.pcb a).elim (toLex (0,0)) Job.rank

theorem rankAt_eq {n : JobNode} (h : Q.node a = some n) : Q.rankAt a = n.pcb.rank := by
  simp [rankAt,pcb,h]

theorem swap_spec (h : Linked Q.next Q.head (l ++ a::b::l')) :
    ∃ R, (∀ rounds > l.length + l'.length, Q.readyQueueSwapWithNext rounds a = some R) ∧
      Linked R.next R.head (l ++ b::a::l') ∧ R.pcb = Q.pcb := by
  cases l using List.reverseRec with
  | nil =>
    obtain ⟨R,hswap,hR⟩ := swap_head h
    exact ⟨R,fun rounds hn => hswap rounds (by simpa using hn),hR⟩
  | append_singleton l c =>
    simp only [List.append_assoc,List.singleton_append] at h ⊢
    obtain ⟨R,hswap,hR⟩ := swap_behind h
    refine ⟨R,fun rounds hn => hswap rounds ?_,hR⟩
    simp only [List.length_append,List.length_singleton] at hn
    omega

/-- The rounds of one pass: each swaps or steps on. -/
theorem bubble_spec (sorted : Bool) (h : Linked Q.next Q.head (l ++ a::l')) :
    ∃ R last s, (∀ rounds > l.length + l'.length, ∀ n > l'.length,
      Q.bubble rounds n a sorted = some (R,last,s)) ∧ R.next last = some none ∧ Linked R.next R.head (l ++ onePass Q.rankAt a l') ∧
        R.pcb = Q.pcb := by
  induction l' generalizing Q a l sorted with
  | nil =>
    obtain ⟨q,hq,rfl⟩ := h.suffix.2
    obtain ⟨m,hm,hnone⟩ := Option.map_eq_some_iff.mp hq
    refine ⟨Q,a,sorted,fun rounds _ n hn => ?_,hq,h,rfl⟩
    obtain ⟨n,rfl⟩ := Nat.exists_eq_succ_of_ne_zero (Nat.ne_of_gt (Nat.zero_lt_of_lt hn))
    simp [bubble,hm,hnone]
  | cons b l' ih =>
    obtain ⟨q,hq,rfl,r,hr',-⟩ := h.suffix.2
    obtain ⟨m,hm,hnext⟩ := Option.map_eq_some_iff.mp hq
    obtain ⟨m',hm',-⟩ := Option.map_eq_some_iff.mp hr'
    by_cases hs : Q.rankAt b < Q.rankAt a
    · have hneeded : swapNeeded m.pcb m'.pcb = true := by
        rwa [swapNeeded_iff,← rankAt_eq hm,← rankAt_eq hm']
      obtain ⟨R,hswap,hR,hpcb⟩ := swap_spec h
      have happend : l ++ b::a::l' = (l ++ [b]) ++ a::l' := by simp
      rw [happend] at hR
      obtain ⟨S,last,s,hS,hlast,hl,hpcb'⟩ := ih false hR
      have hrank : R.rankAt = Q.rankAt := by funext x; simp [rankAt,hpcb]
      rw [hrank,List.append_assoc,List.singleton_append] at hl
      refine ⟨S,last,s,fun rounds hr n hn => ?_,hlast,?_,hpcb'.trans hpcb⟩
      · simp only [List.length_append,List.length_cons,List.length_nil] at hr hn hS
        obtain ⟨n,rfl⟩ := Nat.exists_eq_succ_of_ne_zero (Nat.ne_of_gt (Nat.zero_lt_of_lt hn))
        have hswap := hswap rounds (by omega)
        have hS := hS rounds (by omega) n (by omega)
        simp [bubble,hm,hnext,hm',hneeded,hswap,hS]
      · rwa [onePass,if_pos hs]
    · have hneeded : swapNeeded m.pcb m'.pcb = false := by
        rw [← Bool.not_eq_true,swapNeeded_iff,← rankAt_eq hm,← rankAt_eq hm']
        exact hs
      have happend : l ++ a::b::l' = (l ++ [a]) ++ b::l' := by simp
      rw [happend] at h
      obtain ⟨S,last,s,hS,hlast,hl,hpcb⟩ := ih sorted h
      rw [List.append_assoc,List.singleton_append] at hl
      refine ⟨S,last,s,fun rounds hr n hn => ?_,hlast,?_,hpcb⟩
      · simp only [List.length_append,List.length_cons,List.length_nil] at hr hn hS
        obtain ⟨n,rfl⟩ := Nat.exists_eq_succ_of_ne_zero (Nat.ne_of_gt (Nat.zero_lt_of_lt hn))
        have hS := hS rounds (by omega) n (by omega)
        simp [bubble,hm,hnext,hm',hneeded,hS]
      · rwa [onePass,if_neg hs]

/-- Both loops end, after one pass and one round of the outer loop that finds nothing left to do. -/
theorem sort_spec (h : Linked Q.next Q.head l) :
    ∃ R, (∀ rounds ≥ l.length + 2, Q.sortReadyQueue rounds = some R) ∧
      Linked R.next R.head (sweep Q.rankAt l) ∧ R.pcb = Q.pcb := by
  cases l with
  | nil =>
    have hhead : Q.head = none := h
    exact ⟨Q,fun _ _ => by simp [sortReadyQueue,hhead],h,rfl⟩
  | cons a l =>
    have hhead : Q.head = some a := h.1
    obtain ⟨R,last,s,hR,hlast,hl,hpcb⟩ := bubble_spec (l := []) true h
    refine ⟨R,fun rounds hr => ?_,hl,hpcb⟩
    simp only [List.length_cons] at hr
    obtain ⟨rounds,rfl⟩ := Nat.exists_eq_add_of_le' (by omega : 2 ≤ rounds)
    have hR := hR (rounds + 2) (by simp; omega) (rounds + 2) (by omega)
    obtain ⟨m,hm,hnone⟩ := Option.map_eq_some_iff.mp hlast
    have hagain : R.bubble (rounds + 2) (rounds + 2) last true = some (R,last,true) := by
      simp [bubble,hm,hnone]
    cases s with
    | true => simp [sortReadyQueue,hhead,sortLoop,hR]
    | false => simp [sortReadyQueue,hhead,sortLoop,hR,hagain]

/-- The order the queue is meant to have. -/
def Before (Q : JobQueue) (a b : ℕ) : Prop := ∀ j k, Q.pcb a = some j → Q.pcb b = some k → j.Before k

theorem before_iff (ha : ∃ q, Q.next a = some q) (hb : ∃ q, Q.next b = some q) :
    Q.Before a b ↔ Q.rankAt a ≤ Q.rankAt b := by
  obtain ⟨_,ha⟩ := ha
  obtain ⟨_,hb⟩ := hb
  obtain ⟨m,hm,-⟩ := Option.map_eq_some_iff.mp ha
  obtain ⟨n,hn,-⟩ := Option.map_eq_some_iff.mp hb
  rw [rankAt_eq hm,rankAt_eq hn,← Job.before_iff]
  simp [Before,pcb,hm,hn]

/-- `sort_ready_queue` returns and leaves the same nodes in order. -/
def Sorts (Q : JobQueue) (l : List ℕ) : Prop :=
  ∃ N R l', (∀ n ≥ N, Q.sortReadyQueue n = some R) ∧ Linked R.next R.head l' ∧ R.pcb = Q.pcb ∧ l'.Perm l ∧
    l'.Pairwise Q.Before

/-- `ready_queue_pop_shortest_job` removes a least node and keeps the others. -/
def PopsLeast (Q : JobQueue) (l : List ℕ) : Prop :=
  ∃ N R a rest, (∀ n ≥ N, Q.readyQueuePopShortestJob n = some (some a,R)) ∧ Linked R.next R.head rest ∧
    R.pcb = Q.pcb ∧ (a::rest).Perm l ∧ ∀ b ∈ rest, Q.Before a b

theorem pairwise_before_iff (h : Linked Q.next Q.head l) (hp : l'.Perm l) :
    l'.Pairwise Q.Before ↔ l'.Pairwise fun a b => Q.rankAt a ≤ Q.rankAt b := by
  refine List.Pairwise.iff_of_mem fun {a b} ha hb => ?_
  exact before_iff (h.allocated (hp.subset ha)) (h.allocated (hp.subset hb))

theorem sorts_iff (h : Linked Q.next Q.head l) : Q.Sorts l ↔ OneAhead Q.rankAt l := by
  obtain ⟨R,hR,hl,hpcb⟩ := sort_spec h
  rw [← sweep_sorted_iff,← pairwise_before_iff h (sweep_perm l)]
  constructor
  · rintro ⟨N,R',l',hR',hl',-,-,hsorted⟩
    have hR := hR (max N (l.length + 2)) (by omega)
    obtain rfl := Option.some.inj ((hR' _ (by omega)).symm.trans hR)
    rwa [hl.unique hl']
  · intro hsorted
    exact ⟨l.length + 2,R,_,hR,hl,hpcb,sweep_perm l,hsorted⟩

theorem Sorts.popsLeast (h : Q.Sorts l) (hl : l ≠ []) : Q.PopsLeast l := by
  obtain ⟨N,R,l',hR,hlinked,hpcb,hperm,hsorted⟩ := h
  cases l' with
  | nil => exact absurd hperm.symm.eq_nil hl
  | cons a rest =>
    obtain ⟨hhead,q,hq,hrest⟩ := hlinked
    refine ⟨N,{ R with head := q },a,rest,fun n hn => ?_,hrest,hpcb,hperm,(List.pairwise_cons.mp hsorted).1⟩
    simp [readyQueuePopShortestJob,hR n hn,readyQueuePopHead,hhead,hq]

theorem oneAhead_iff (h : Linked Q.next Q.head l) :
    OneAhead Q.rankAt l ↔ ∀ a b c, [a,b,c].Sublist l → Q.Before a c ∨ Q.Before b c := by
  refine forall₃_congr fun a b c => imp_congr_right fun hs => ?_
  have hin : ∀ x ∈ [a,b,c], ∃ q, Q.next x = some q := fun x hx => h.allocated (hs.subset hx)
  rw [before_iff (hin a (by simp)) (hin c (by simp)),before_iff (hin b (by simp)) (hin c (by simp))]

/-- The queue is sorted, and the least node popped, just when of any three nodes the last may stay
behind one of the two others: the cursor is not set back to the head, so that there is only one pass. -/
theorem sortReadyQueue_sorts_iff (h : Linked Q.next Q.head l) :
    (Q.Sorts l ∧ (l ≠ [] → Q.PopsLeast l)) ↔ ∀ a b c, [a,b,c].Sublist l → Q.Before a c ∨ Q.Before b c := by
  rw [← oneAhead_iff h,← sorts_iff h]
  exact ⟨fun h => h.1,fun h => ⟨h,h.popsLeast⟩⟩

/-- Nodes in a row from the address 0 on, with these jobs. -/
def ofJobs (jobs : List Job) : JobQueue where
  node a := jobs[a]?.map fun j => ⟨j,if a + 1 < jobs.length then some (a + 1) else none⟩
  head := if jobs = [] then none else some 0

/-- Three jobs, each shorter than the one before. -/
def descending : JobQueue := ofJobs [⟨false,3⟩,⟨false,2⟩,⟨false,1⟩]

theorem descending_linked : Linked descending.next descending.head [0,1,2] :=
  ⟨rfl,_,rfl,rfl,_,rfl,rfl,_,rfl,rfl⟩

theorem sortReadyQueue_descending :
    Linked descending.next descending.head [0,1,2] ∧
      (descending.sortReadyQueue 5).bind (fun R => walk R.next 3 R.head) = some [1,2,0] ∧
      ¬ (descending.Sorts [0,1,2] ∧ ([0,1,2] ≠ [] → descending.PopsLeast [0,1,2])) := by
  refine ⟨descending_linked,by decide,fun h => ?_⟩
  have hone := (sorts_iff descending_linked).mp h.1 0 1 2 (.refl _)
  exact absurd hone (by decide)

/-- A queue that one pass sorts. -/
def rising : JobQueue := ofJobs [⟨false,2⟩,⟨true,7⟩,⟨false,3⟩]

theorem rising_linked : Linked rising.next rising.head [0,1,2] := ⟨rfl,_,rfl,rfl,_,rfl,rfl,_,rfl,rfl⟩

theorem sortReadyQueue_rising : rising.Sorts [0,1,2] ∧ ([0,1,2] ≠ [] → rising.PopsLeast [0,1,2]) := by
  refine (sortReadyQueue_sorts_iff rising_linked).mpr fun a b c hs => ?_
  obtain ⟨rfl,rfl,rfl⟩ : a = 0 ∧ b = 1 ∧ c = 2 := by simpa using hs.eq_of_length rfl
  left
  intro j k hj hk
  obtain rfl := Option.some.inj hj
  obtain rfl := Option.some.inj hk
  simp [Job.Before]

end JobQueue
end ShellOS.Ready
