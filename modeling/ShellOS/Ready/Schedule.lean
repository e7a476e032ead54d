import ShellOS.Ready.Placed

/-! No run of the a2 shell loses or duplicates a process, whatever text its lines are found to have. -/
namespace ShellOS.Ready
open CLib Chain
variable {ω : Type} {cfg : Config} {H : Host ω} {K K' : Kernel ω} {script : ℕ → CString} {lines : ℕ → List CString}
  {q : List ℕ} {node left : ℕ} {stack rest : List Activation} {s s' : State ω} {ok ok' : State ω → Prop}

/-- The processes are where the invariant wants them. -/
def Settled (s : State ω) : Prop := ∃ script lines q, Placing s.kernel script lines q (executing s.stack) ∧
  Stacked s.kernel.progress (lineCount ∘ script) (List.length ∘ lines) s.stack

/-- The scripts have fewer than `MAX_INT` lines. -/
def ShortScripts (H : Host ω) : Prop := ∀ w filename text, H.file w filename = some text → lineCount text < 2147483646

/-- The command that `interpreter` is called for. -/
def State.command (s : State ω) : Option CString := match s.stack with
  | .line _ _ _ _ (.words array _::_)::_ => (array.map Shell.stripNewline).head?
  | .input (.words array _::_)::_ => (array.map Shell.stripNewline).head?
  | _ => none

/-- The next command is not `resetmem`. -/
def NoReset (s : State ω) : Prop := s.command ≠ some (cstr "resetmem")

instance : DecidablePred (NoReset (ω := ω)) := fun s => inferInstanceAs (Decidable (s.command ≠ _))

theorem Reach.mono (h : Reach cfg H ok s) (hok : ∀ s, ok s → ok' s) : Reach cfg H ok' s := by
  induction h with
  | start w => exact .start w
  | enter line _ hs ih => exact .enter line ih hs
  | tick _ hs ht ih => exact .tick ih (hok _ hs) ht

theorem Reach.ticksWith [DecidablePred ok] (h : Reach cfg H ok s) {n : ℕ} (hs : ticksWith cfg H ok n s = some s') :
    Reach cfg H ok s' := by
  induction n generalizing s with
  | zero => exact Option.some.inj hs ▸ h
  | succ n ih =>
    rw [ShellOS.Ready.ticksWith] at hs
    split_ifs at hs with hok
    obtain ⟨s₁,h1,hs⟩ := Option.bind_eq_some_iff.mp hs
    exact ih (h.tick hok h1) hs

theorem Settled.queues (h : Settled ⟨K,stack⟩) (hshort : ShortScripts H) (hq : Queues cfg H K K') : Settled ⟨K',stack⟩ := by
  induction hq with
  | alike halike =>
    have hsame := halike.same
    obtain ⟨script,lines,q,h,hs⟩ := h
    refine ⟨script,lines,q,h.same hsame,?_⟩
    dsimp only at hs ⊢
    rw [hsame.progress]
    exact hs
  | @enqueue K K₁ K' filename text hf he _ ih =>
    obtain ⟨script,lines,q,h,hs⟩ := h
    obtain ⟨h1,hold⟩ := h.enqueue (hshort _ _ _ hf) he
    refine ih ⟨_,_,_,h1,hs.congr fun pid hpid => ?_⟩
    obtain ⟨hp,hne⟩ := hold pid hpid
    exact ⟨hp,congrArg lineCount (Function.update_of_ne hne _ _),congrArg List.length (Function.update_of_ne hne _ _)⟩

theorem Settled.scheduler (h : Settled ⟨K,stack⟩) (policy : Policy) : Settled ⟨K,.scheduler policy::stack⟩ := by
  obtain ⟨script,lines,q,h,hs⟩ := h
  exact ⟨script,lines,q,h,.scheduler hs⟩

/-- A command, wherever `parseInput` was called. -/
theorem call_settled {back : List Call → Activation} {c : Call} {calls : List Call}
    (hback : ∀ calls calls' (K : Kernel ω), Settled ⟨K,back calls::rest⟩ → Settled ⟨K,back calls'::rest⟩)
    (hshort : ShortScripts H)
    (hquiet : ∀ array size, c = .words array size → (array.map Shell.stripNewline).head? ≠ some (cstr "resetmem"))
    (h : Settled ⟨K,back (c::calls)::rest⟩) (hc : call cfg H c calls back K rest = some s') : Settled s' := by
  cases c with
  | hang => exact Option.some.inj hc ▸ h
  | words array size =>
    obtain ⟨r,hr,rfl⟩ := Option.map_eq_some_iff.mp hc
    have hq := interpreter_queues (hquiet array size rfl) hr
    have hset := h.queues hshort hq
    cases r with
    | returned code K₁ => exact hback _ _ K₁ hset
    | scheduling policy code K₁ => exact (hback _ calls K₁ hset).scheduler policy

theorem line_back {last : Bool} {read : Reading} (calls calls' : List Call) (K : Kernel ω)
    (h : Settled ⟨K,.line node left last read calls::rest⟩) : Settled ⟨K,.line node left last read calls'::rest⟩ := by
  obtain ⟨script,lines,q,h,hs⟩ := h
  refine ⟨script,lines,q,h,?_⟩
  cases hs with
  | line below hp fetched hlast more => exact .line below hp fetched hlast more

theorem input_back (calls calls' : List Call) (K : Kernel ω) (h : Settled ⟨K,.input calls::rest⟩) :
    Settled ⟨K,.input calls'::rest⟩ := by
  obtain ⟨script,lines,q,h,hs⟩ := h
  refine ⟨script,lines,q,h,?_⟩
  cases hs with
  | input below => exact .input below

/-- The scheduler takes the head of the queue. -/
theorem pop_settled {policy : Policy} {r : ℕ × Kernel ω} (h : Settled ⟨K,.scheduler policy::rest⟩)
    (hr : K.readyQueuePopHead = some r) : Settled ⟨r.2,.execute r.1 policy.quanta::.scheduler policy::rest⟩ := by
  obtain ⟨script,lines,q,h,hs⟩ := h
  obtain ⟨a,hhead,hr⟩ := Option.bind_eq_some_iff.mp hr
  obtain ⟨v,hv,rfl⟩ := Option.map_eq_some_iff.mp hr
  obtain ⟨q',h',p,hp,hw⟩ := h.pop hhead hv
  have hborn := h.born a (by
    dsimp only
    rw [hp,Option.isSome_some])
  refine ⟨script,lines,q',h',?_⟩
  cases hs with
  | scheduler below =>
    refine .execute below hp hw fun hpolicy => ?_
    have := h.short a hborn.1 hborn.2
    rw [hpolicy]
    change lineCount (script a) ≤ (lines a).length + 2147483646
    omega

/-- A process goes back to the queue. -/
theorem push_settled {policy : Policy} {p : Progress} (h : Placing K script lines q (node::executing rest))
    (hs : Stacked K.progress (lineCount ∘ script) (List.length ∘ lines) rest) (hp : K.progress node = some p) (hw : Waits p (lineCount (script node)) (lines node).length)
    (hK : K.readyQueueAddToTail node = some K') : Settled ⟨K',.scheduler policy::rest⟩ := by
  obtain ⟨K₁,h1,hplace,hprog⟩ := h.push hp hw
  obtain rfl := Option.some.inj (h1.symm.trans hK)
  refine ⟨script,lines,_,hplace,.scheduler ?_⟩
  rw [hprog]
  exact hs

/-- A process with no rounds left is put back; under first come first served there is none. -/
theorem putBack_settled (h : Settled ⟨K,.execute node 0::rest⟩) (ht : putBack K node rest = some s') : Settled s' := by
  obtain ⟨script,lines,q,h,hs⟩ := h
  cases hs with
  | @execute policy stack node left p below hp waits rounds =>
    cases policy with
    | fcfs =>
      have hrounds := rounds rfl
      have hlt := waits.lt
      omega
    | rr =>
      obtain ⟨K₁,hK,rfl⟩ := Option.map_eq_some_iff.mp ht
      exact push_settled h below hp waits hK

theorem memGetValueAtLine_spec {index : ℕ} {r : CString × Kernel ω} (h : K.memGetValueAtLine cfg index = some r) :
    K.Same r.2 ∧ r.2.node = K.node := by
  unfold Kernel.memGetValueAtLine at h
  split_ifs at h
  obtain rfl := Option.some.inj h
  exact ⟨⟨rfl,rfl,rfl,rfl,rfl⟩,rfl⟩

/-- The process that is being executed changes; nothing else does. -/
theorem setPcb_settled (h : Placing K script lines q (node::executing rest)) (below : Stacked K.progress (lineCount ∘ script) (List.length ∘ lines) rest)
    (hsame : K.Same K') (hnode : (K'.node node).isSome) (p : PCB) :
    Placing (K'.setPcb node p) script lines q (node::executing rest) ∧
      (K'.setPcb node p).progress node = some p.progress ∧ Stacked (K'.setPcb node p).progress (lineCount ∘ script) (List.length ∘ lines) rest := by
  have hnot : node ∉ executing rest := (List.nodup_cons.mp (List.nodup_append.mp h.nodup).2.1).1
  have hprog := @Kernel.progress_setPcb _ K' node p hnode
  refine ⟨(h.same hsame).advance rfl (Kernel.next_setPcb K' node p) hprog rfl rfl,?_,below.congr fun pid hpid => ?_⟩
  · rw [hprog,Function.update_self]
  · have hne : pid ≠ node := fun he => hnot (he ▸ hpid)
    rw [hprog,Function.update_of_ne hne,hsame.progress]
    exact ⟨rfl,rfl,rfl⟩

/-- The process is out of the queue while it is executed. -/
theorem executeProcess_settled (h : Settled ⟨K,.execute node (left+1)::rest⟩)
    (ht : executeProcess cfg K node left rest = some s') : Settled s' := by
  obtain ⟨script,lines,q,h,hs⟩ := h
  obtain ⟨n,hn,ht⟩ := Option.bind_eq_some_iff.mp ht
  cases hs with
  | @execute policy stack node _ p below hp waits rounds =>
    have hself : K.progress node = some n.pcb.progress := by rw [Kernel.progress,hn,Option.map_some]
    obtain rfl := Option.some.inj (hp.symm.trans hself)
    have hsome : (K.node node).isSome := by rw [hn,Option.isSome_some]
    dsimp only at ht below
    have hnow : Placing K script lines q (node::executing stack) := h
    by_cases hv : n.pcb.validPage n.pcb.pc = true
    · rw [if_pos hv] at ht
      obtain ⟨r,hr,rfl⟩ := Option.map_eq_some_iff.mp ht
      obtain ⟨hsame,hnode⟩ := memGetValueAtLine_spec hr
      have hfetch := waits.fetch
      have hset := setPcb_settled hnow below hsame (hnode ▸ hsome)
      by_cases hend : ({ n.pcb with offset := n.pcb.offset + 1 } : PCB).atEnd = true
      · rw [if_pos hend] at hfetch ⊢
        obtain ⟨hplace,hprog,hstack⟩ := hset { n.pcb with offset := n.pcb.offset + 1 }
        exact ⟨script,lines,q,hplace,.line hstack hprog hfetch.1 (fun _ => hfetch.2) fun hc => by cases hc⟩
      · rw [if_neg hend] at hfetch ⊢
        obtain ⟨hplace,hprog,hstack⟩ := hset ({ n.pcb with offset := n.pcb.offset + 1 } : PCB).turnPage
        refine ⟨script,lines,q,hplace.same ⟨rfl,rfl,rfl,rfl,rfl⟩,
          .line hstack hprog hfetch.fetched (fun hc => by cases hc) fun _ => ⟨hfetch,fun hpolicy => ?_⟩⟩
        have := rounds hpolicy
        omega
    · rw [if_neg hv] at ht
      -- a page fault: the process has not got further, and is put back
      obtain ⟨r,hr,ht⟩ := Option.bind_eq_some_iff.mp ht
      obtain ⟨K₁,hK,rfl⟩ := Option.map_eq_some_iff.mp ht
      obtain ⟨hsame,hprogress⟩ := Kernel.replacePage_spec hr
      have hnode : (r.2.node node).isSome := by
        rw [← Kernel.isSome_progress,hsame.progress,Kernel.isSome_progress]
        exact hsome
      obtain ⟨hplace,hprog,hstack⟩ := setPcb_settled hnow below hsame hnode r.1
      exact push_settled hplace hstack hprog (by rw [hprogress]; exact waits) hK

/-- A line was executed; after the last one the process is terminated. -/
theorem lineDone_settled {last : Bool} {read : Reading} (h : Settled ⟨K,.line node left last read []::rest⟩)
    (ht : lineDone K node left last read.text rest = some s') : Settled s' := by
  obtain ⟨script,lines,q,h,hs⟩ := h
  obtain ⟨n,hn,rfl⟩ := Option.map_eq_some_iff.mp ht
  cases hs with
  | @line policy stack node _ last _ _ p below hp fetched hlast more =>
    have hself : K.progress node = some n.pcb.progress := by rw [Kernel.progress,hn,Option.map_some]
    obtain rfl := Option.some.inj (hp.symm.trans hself)
    dsimp only at below
    have hnow : Placing K script lines q (node::executing stack) := h
    have hnot : node ∉ executing stack := (List.nodup_cons.mp (List.nodup_append.mp hnow.nodup).2.1).1
    let lines' := Function.update lines node (lines node ++ [read.text])
    have hbelow : ∀ P : ℕ → Option Progress, (∀ pid, pid ≠ node → P pid = K.progress pid) →
        Stacked P (lineCount ∘ script) (List.length ∘ lines') stack := fun P hP =>
      below.congr fun pid hpid => by
        have hne : pid ≠ node := fun he => hnot (he ▸ hpid)
        exact ⟨hP pid hne,rfl,congrArg List.length (Function.update_of_ne hne _ _)⟩
    cases last with
    | true =>
      have hprog : ∀ b, (Kernel.terminateProcess { K with log := K.log ++ [.executed node read.text] } node).progress b =
          Function.update K.progress node none b := by
        intro b
        unfold Kernel.progress Kernel.terminateProcess
        dsimp only
        rw [Function.update_apply,Function.update_apply]
        split_ifs <;> rfl
      have hnext : ∀ b, b ≠ node → ((Function.update K.node node none) b).map QueueNode.next = K.next b := fun b hb =>
        congrArg (Option.map QueueNode.next) (Function.update_of_ne hb _ _)
      exact ⟨script,lines',q,hnow.terminated (hlast rfl) rfl hnext (funext hprog) rfl (List.append_assoc _ _ _),
        .scheduler (hbelow _ fun pid hne => (hprog pid).trans (Function.update_of_ne hne _ _))⟩
    | false =>
      obtain ⟨hwaits,hrounds⟩ := more rfl
      have hdone : (List.length ∘ lines') node = (List.length ∘ lines) node + 1 := by
        have hupdate : lines' node = lines node ++ [read.text] := Function.update_self _ _ _
        rw [Function.comp_apply,hupdate,List.length_append]
        rfl
      refine ⟨script,lines',q,hnow.executed hwaits.lt rfl rfl rfl rfl rfl,.execute (hbelow _ fun _ _ => rfl) hself ?_ ?_⟩
      · rw [hdone]
        exact hwaits
      · rw [hdone]
        exact hrounds

theorem tick_settled (h : Settled s) (hshort : ShortScripts H) (hquiet : NoReset s) (ht : tick cfg H s = some s') :
    Settled s' := by
  obtain ⟨K,stack⟩ := s
  unfold tick at ht
  cases stack with
  | nil => exact Option.some.inj ht ▸ h
  | cons top rest =>
    cases top with
    | scheduler policy =>
      dsimp only at ht
      cases hhead : K.head with
      | none =>
        rw [hhead] at ht
        obtain ⟨script,lines,q,h,hs⟩ := h
        cases hs with
        | scheduler below => exact Option.some.inj ht ▸ ⟨script,lines,q,h,below⟩
      | some a =>
        rw [hhead] at ht
        obtain ⟨r,hr,rfl⟩ := Option.map_eq_some_iff.mp ht
        exact pop_settled h hr
    | execute node left =>
      cases left with
      | zero => exact putBack_settled h ht
      | succ left => exact executeProcess_settled h ht
    | line node left last read calls =>
      cases calls with
      | nil => exact lineDone_settled h ht
      | cons c calls =>
        dsimp only at ht
        split_ifs at ht
        refine call_settled line_back hshort (fun array size hc => ?_) h ht
        subst hc
        exact hquiet
    | input calls =>
      cases calls with
      | nil =>
        obtain ⟨script,lines,q,h,hs⟩ := h
        cases hs with
        | input below => exact Option.some.inj ht ▸ ⟨script,lines,q,h,below⟩
      | cons c calls =>
        refine call_settled input_back hshort (fun array size hc => ?_) h ht
        subst hc
        exact hquiet

theorem start_settled (w : ω) : Settled (startShell w) := by
  have hnone : ∀ pid, (Kernel.start w).progress pid = none := fun _ => rfl
  refine ⟨fun _ => [],fun _ => [],[],⟨rfl,List.nodup_nil,fun pid => ?_,fun pid hs => ?_,le_rfl,fun pid => ?_,fun pid h1 h2 => ?_,
    fun pid h1 h2 => ?_,fun pid hpid => ?_⟩,.nil⟩
  · exact iff_of_false (List.not_mem_nil) (by simp [startShell,hnone])
  · simp [startShell,hnone] at hs
  · exact (if_neg fun hc => absurd hc.2 (not_lt.mpr hc.1)).symm
  · exact absurd h2 (not_lt.mpr h1)
  · exact absurd h2 (not_lt.mpr h1)
  · simp at hpid

theorem Reach.settled (h : Reach cfg H NoReset s) (hshort : ShortScripts H) : Settled s := by
  induction h with
  | start w => exact start_settled w
  | @enter s line _ hs ih =>
    obtain ⟨script,lines,q,hplace,-⟩ := ih
    rw [hs] at hplace
    exact ⟨script,lines,q,hplace,.input .nil⟩
  | tick _ hok ht ih => exact tick_settled ih hshort hok ht

/-! ### What is known of a settled shell -/

/-- The next process has no history. -/
theorem Settled.new (h : Settled s) : history s.kernel.pidCounter s.kernel.log = [] := by
  obtain ⟨script,lines,q,h,-⟩ := h
  rw [h.log,if_neg fun hc => lt_irrefl _ hc.2]

/-- Where the numbers of processes begin and end. -/
theorem Settled.born (h : Settled s) (hn : (s.kernel.node node).isSome) : 1 ≤ node ∧ node < s.kernel.pidCounter := by
  obtain ⟨script,lines,q,h,-⟩ := h
  exact h.born node (by rwa [Kernel.isSome_progress])

theorem Settled.nodup (h : Settled s) : (executing s.stack).Nodup := by
  obtain ⟨script,lines,q,h,-⟩ := h
  exact (List.nodup_append.mp h.nodup).2.1

theorem Settled.ne_new (h : Settled s) (hn : node ∈ executing s.stack) : s.kernel.pidCounter ≠ node := by
  obtain ⟨script,lines,q,h,-⟩ := h
  exact (h.born node ((h.live node).mp (List.mem_append_right q hn))).2.ne'

/-- A process in the loop of `execute_process` has come to the line behind those that were executed. -/
theorem Settled.waits {n : QueueNode} (h : Settled ⟨K,.execute node left::rest⟩) (hn : K.node node = some n) :
    ∃ script lines, history node K.log = lifetime node script lines ∧ Waits n.pcb.progress (lineCount script) lines.length := by
  obtain ⟨script,lines,q,h,hs⟩ := h
  have hself : K.progress node = some n.pcb.progress := by rw [Kernel.progress,hn,Option.map_some]
  cases hs with
  | @execute policy stack node _ p below hp waits rounds =>
    obtain rfl := Option.some.inj (hp.symm.trans hself)
    have hborn := h.born node (by
      dsimp only
      rw [hself,Option.isSome_some])
    exact ⟨script node,lines node,(h.log node).trans (if_pos hborn),waits⟩

/-- A directory with the one script `a`. -/
def oneScript (text : CString) : Host Unit := ⟨fun _ f => if f = cstr "a" then some text else none,fun w _ => (0,w),fun _ _ => none⟩

theorem oneScript_file {w : Unit} {text text' filename : CString} (h : (oneScript text).file w filename = some text') :
    text' = text := by
  change (if filename = cstr "a" then some text else none) = some text' at h
  split_ifs at h
  exact (Option.some.inj h).symm

end ShellOS.Ready
