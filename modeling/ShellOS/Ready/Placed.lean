import ShellOS.Lib.Lines
import ShellOS.Ready.Effects

/-! Where the processes of the a2 shell are. Every process that is not finished is in the ready queue
or is being executed, in one place. -/
namespace ShellOS.Ready
open CLib Chain Lines

def Event.pid : Event → ℕ
  | queued pid _ => pid
  | executed pid _ => pid
  | terminated pid => pid

variable {ω : Type} {cfg : Config} {H : Host ω} {K K' : Kernel ω} {total done : ℕ → ℕ} {script : ℕ → CString}
  {lines : ℕ → List CString} {q ex : List ℕ} {a pid n k : ℕ} {text line : CString} {ls : List CString} {log log' : List Event}
  {stack rest : List Activation} {s s' : State ω}

/-! ### Histories -/

/-- The events of one process. -/
def history (pid : ℕ) (log : List Event) : List Event := log.filter fun e => e.pid == pid

/-- A process of which some lines were executed: after as many as were counted it is terminated. -/
def lifetime (pid : ℕ) (script : CString) (lines : List CString) : List Event :=
  .queued pid script::(lines.map (Event.executed pid) ++ if lines.length = lineCount script then [.terminated pid] else [])

/-- The last line of the script was executed in its place. -/
def LastExecuted (script : CString) (lines : List CString) : Prop :=
  ∀ l, (linesOf 10 script).getLast? = some l → lines[(linesOf 10 script).length - 1]? = some l

/-- Every process was never started, or executed some lines; in the latter case it is in one place, either
in the list that begins at `head` or in one activation, until it has executed as many as were counted. Then
it is in none, and the last line of its script was executed. -/
def Placed (s : State ω) : Prop := ∃ q, Linked s.kernel.next s.kernel.head q ∧ ∀ pid,
  (history pid s.kernel.log = [] ∧ pid ∉ q ∧ pid ∉ executing s.stack) ∨
  ∃ script lines, lines.length ≤ lineCount script ∧ history pid s.kernel.log = lifetime pid script lines ∧
    q.count pid + (executing s.stack).count pid = (if lines.length < lineCount script then 1 else 0) ∧
    (lines.length = lineCount script → LastExecuted script lines)

theorem history_append (pid : ℕ) (log log' : List Event) : history pid (log ++ log') = history pid log ++ history pid log' :=
  List.filter_append log log'

theorem history_of_ne {log : List Event} (h : ∀ e ∈ log, e.pid ≠ pid) : history pid log = [] :=
  List.filter_eq_nil_iff.mpr fun e he hc => h e he (by simpa using hc)

theorem history_self {log : List Event} (h : ∀ e ∈ log, e.pid = pid) : history pid log = log :=
  List.filter_eq_self.mpr fun e he => by simpa using h e he

theorem lifetime_succ (h : ls.length + 1 < lineCount text) :
    lifetime pid text (ls ++ [line]) = lifetime pid text ls ++ [.executed pid line] := by
  have h1 : ls.length + 1 ≠ lineCount text := by omega
  have h2 : ls.length ≠ lineCount text := by omega
  simp [lifetime,h1,h2]

theorem lifetime_last (h : ls.length + 1 = lineCount text) :
    lifetime pid text (ls ++ [line]) = lifetime pid text ls ++ [.executed pid line,.terminated pid] := by
  have h2 : ls.length ≠ lineCount text := by omega
  simp [lifetime,h,h2]

/-- The script, where the process is queued. -/
def Event.scriptFor (pid : ℕ) : Event → Option CString
  | queued p script => if p = pid then some script else none
  | _ => none

/-- The line, where one of the process was executed. -/
def Event.lineFor (pid : ℕ) : Event → Option CString
  | executed p line => if p = pid then some line else none
  | _ => none

def scriptOf (pid : ℕ) (log : List Event) : Option CString := log.findSome? (Event.scriptFor pid)

def executedOf (pid : ℕ) (log : List Event) : List CString := log.filterMap (Event.lineFor pid)

theorem Event.for_of_ne {e : Event} (h : e.pid ≠ pid) : e.scriptFor pid = none ∧ e.lineFor pid = none := by
  cases e with
  | queued p script => exact ⟨if_neg h,rfl⟩
  | executed p line => exact ⟨rfl,if_neg h⟩
  | terminated p => exact ⟨rfl,rfl⟩

theorem scriptOf_history (pid : ℕ) (log : List Event) : scriptOf pid (history pid log) = scriptOf pid log := by
  induction log with
  | nil => rfl
  | cons e log ih =>
    by_cases he : e.pid = pid
    · rw [history,List.filter_cons_of_pos (by simpa using he),scriptOf,List.findSome?_cons,scriptOf,List.findSome?_cons]
      cases e.scriptFor pid with
      | some script => rfl
      | none => exact ih
    · rw [history,List.filter_cons_of_neg (by simpa using he),← history,ih,scriptOf,scriptOf,List.findSome?_cons,
        (Event.for_of_ne he).1]

theorem executedOf_history (pid : ℕ) (log : List Event) : executedOf pid (history pid log) = executedOf pid log := by
  rw [executedOf,history,List.filterMap_filter,executedOf]
  refine List.filterMap_congr fun e _ => ?_
  by_cases he : e.pid = pid
  · exact if_pos (by simpa using he)
  · rw [if_neg (by simpa using he),(Event.for_of_ne he).2]

theorem scriptOf_lifetime (h : history pid log = lifetime pid text ls) : scriptOf pid log = some text := by
  have hself : (Event.queued pid text).scriptFor pid = some text := if_pos rfl
  rw [← scriptOf_history,h,lifetime,scriptOf,List.findSome?_cons,hself]

theorem executedOf_lifetime (h : history pid log = lifetime pid text ls) : executedOf pid log = ls := by
  have hself : Event.lineFor pid ∘ Event.executed pid = some := funext fun _ => if_pos rfl
  have hend : (if ls.length = lineCount text then [.terminated pid] else []).filterMap (Event.lineFor pid) = [] := by
    split_ifs <;> rfl
  rw [← executedOf_history,h,lifetime,executedOf,List.filterMap_cons_none rfl,List.filterMap_append,List.filterMap_map,
    hself,List.filterMap_some,hend,List.append_nil]

/-! ### Progress of one process -/

/-- Of `n` lines `k` were fetched, and there is a next one. -/
structure Waits (p : Progress) (n k : ℕ) : Prop where
  lines : n = 3 * (p.pageCount - 1) + p.offsetEnd
  pages : 1 ≤ p.pageCount
  offsetEnd : 1 ≤ p.offsetEnd ∧ p.offsetEnd ≤ 3
  fetched : 3 * p.pc + p.offset = k
  offset : p.offset < 3
  lt : k < n

theorem waits_start (text : CString) :
    Waits ⟨0,pageCountOf (lineCount text),offsetEndOf (lineCount text),0⟩ (lineCount text) 0 := by
  have hpos : 1 ≤ lineCount text := Nat.le_add_right _ _
  have hoff : offsetEndOf (lineCount text) = if lineCount text % 3 = 0 then 3 else lineCount text % 3 := rfl
  have hpage : pageCountOf (lineCount text) = lineCount text / 3 + if offsetEndOf (lineCount text) = 3 then 0 else 1 := rfl
  by_cases h3 : lineCount text % 3 = 0
  · rw [if_pos h3] at hoff
    rw [if_pos hoff] at hpage
    refine ⟨?_,?_,?_,rfl,Nat.succ_pos 2,hpos⟩
    · dsimp only
      omega
    · dsimp only
      omega
    · dsimp only
      omega
  · rw [if_neg h3] at hoff
    rw [if_neg (by omega)] at hpage
    refine ⟨?_,?_,?_,rfl,Nat.succ_pos 2,hpos⟩
    · dsimp only
      omega
    · dsimp only
      omega
    · dsimp only
      omega

/-- The line that was fetched is the last one, or the process waits for the next. -/
theorem Waits.fetch {p : PCB} (h : Waits p.progress n k) :
    if ({ p with offset := p.offset + 1 } : PCB).atEnd then 3 * p.pc + (p.offset + 1) = k + 1 ∧ k + 1 = n
    else Waits ({ p with offset := p.offset + 1 } : PCB).turnPage.progress n (k + 1) := by
  obtain ⟨hn,hpages,⟨he1,he3⟩,hk,hoff,hlt⟩ := h
  dsimp only [PCB.progress] at hn hpages he1 he3 hk hoff
  unfold PCB.atEnd
  dsimp only
  split_ifs with hend
  · rw [Bool.and_eq_true,beq_iff_eq,beq_iff_eq] at hend
    omega
  · rw [Bool.and_eq_true,beq_iff_eq,beq_iff_eq] at hend
    have hmore : k + 1 < n := by omega
    unfold PCB.turnPage
    dsimp only
    split_ifs with hpage
    · exact ⟨hn,hpages,⟨he1,he3⟩,by dsimp only [PCB.progress]; omega,Nat.succ_pos 2,hmore⟩
    · exact ⟨hn,hpages,⟨he1,he3⟩,by dsimp only [PCB.progress]; omega,by dsimp only [PCB.progress]; omega,hmore⟩

/-! ### The invariant -/

/-- Every activation of `execute_process` belongs to a scheduler, and to a process that is far enough
for the rounds it has left. -/
inductive Stacked (P : ℕ → Option Progress) (total done : ℕ → ℕ) : List Activation → Prop
  | nil : Stacked P total done []
  | input {calls : List Call} {stack : List Activation} (below : Stacked P total done stack) :
    Stacked P total done (.input calls::stack)
  | scheduler {policy : Policy} {stack : List Activation} (below : Stacked P total done stack) :
    Stacked P total done (.scheduler policy::stack)
  | execute {policy : Policy} {stack : List Activation} {node left : ℕ} {p : Progress}
    (below : Stacked P total done stack) (hp : P node = some p) (waits : Waits p (total node) (done node))
    (rounds : policy = .fcfs → total node ≤ done node + left) :
    Stacked P total done (.execute node left::.scheduler policy::stack)
  | line {policy : Policy} {stack : List Activation} {node left : ℕ} {last : Bool} {read : Reading} {calls : List Call}
    {p : Progress} (below : Stacked P total done stack) (hp : P node = some p) (fetched : 3 * p.pc + p.offset = done node + 1)
    (hlast : last = true → done node + 1 = total node)
    (more : last = false → Waits p (total node) (done node + 1) ∧ (policy = .fcfs → total node ≤ done node + 1 + left)) :
    Stacked P total done (.line node left last read calls::.scheduler policy::stack)

theorem Stacked.congr {P P' : ℕ → Option Progress} {total' done' : ℕ → ℕ} (h : Stacked P total done stack)
    (hsame : ∀ pid ∈ executing stack, P' pid = P pid ∧ total' pid = total pid ∧ done' pid = done pid) :
    Stacked P' total' done' stack := by
  induction h with
  | nil => exact .nil
  | input below ih => exact .input (ih hsame)
  | scheduler below ih => exact .scheduler (ih hsame)
  | @execute policy stack node left p below hp waits rounds ih =>
    obtain ⟨h1,h2,h3⟩ := hsame node List.mem_cons_self
    exact .execute (ih fun pid hpid => hsame pid (List.mem_cons_of_mem node hpid)) (h1.trans hp)
      (by rw [h2,h3]; exact waits) (by rw [h2,h3]; exact rounds)
  | @line policy stack node left last read calls p below hp fetched hlast more ih =>
    obtain ⟨h1,h2,h3⟩ := hsame node List.mem_cons_self
    exact .line (ih fun pid hpid => hsame pid (List.mem_cons_of_mem node hpid)) (h1.trans hp)
      (by rw [h3]; exact fetched) (by rw [h2,h3]; exact hlast) (by rw [h2,h3]; exact more)

/-- The processes in the queue `q` and those that are being executed, with their scripts and the lines
that were executed. -/
structure Placing (K : Kernel ω) (script : ℕ → CString) (lines : ℕ → List CString) (q ex : List ℕ) : Prop where
  linked : Linked K.next K.head q
  nodup : (q ++ ex).Nodup
  live : ∀ pid, pid ∈ q ++ ex ↔ (K.progress pid).isSome
  born : ∀ pid, (K.progress pid).isSome → 1 ≤ pid ∧ pid < K.pidCounter
  counter : 1 ≤ K.pidCounter
  log : ∀ pid, history pid K.log = if 1 ≤ pid ∧ pid < K.pidCounter then lifetime pid (script pid) (lines pid) else []
  left : ∀ pid, 1 ≤ pid → pid < K.pidCounter → (lines pid).length ≤ lineCount (script pid) ∧
    ((lines pid).length < lineCount (script pid) ↔ (K.progress pid).isSome)
  short : ∀ pid, 1 ≤ pid → pid < K.pidCounter → lineCount (script pid) < 2147483646
  waits : ∀ pid ∈ q, ∃ p, K.progress pid = some p ∧ Waits p (lineCount (script pid)) (lines pid).length

namespace Placing

theorem length_le (h : Placing K script lines q ex) : q.length ≤ K.pidCounter := by
  have hnodup := (List.nodup_append.mp h.nodup).1
  have hsub : q ⊆ List.range K.pidCounter := fun pid hpid =>
    List.mem_range.mpr (h.born pid ((h.live pid).mp (List.mem_append_left ex hpid))).2
  have hlen := (hnodup.subperm hsub).length_le
  rwa [List.length_range] at hlen

theorem same (h : Placing K script lines q ex) (hs : K.Same K') : Placing K' script lines q ex := by
  obtain ⟨h1,h2,h3,h4,h5⟩ := hs
  refine ⟨by rw [h1,h2]; exact h.linked,h.nodup,?_,?_,?_,?_,?_,?_,?_⟩
  · rw [h3]
    exact h.live
  · rw [h3,h4]
    exact h.born
  · rw [h4]
    exact h.counter
  · rw [h4,h5]
    exact h.log
  · rw [h3,h4]
    exact h.left
  · rw [h4]
    exact h.short
  · rw [h3]
    exact h.waits

/-- The head of the queue is taken out. -/
theorem pop {v : Option ℕ} (h : Placing K script lines q ex) (hhead : K.head = some a) (hv : K.next a = some v) :
    ∃ q', Placing { K with head := v } script lines q' (a::ex) ∧
      ∃ p, K.progress a = some p ∧ Waits p (lineCount (script a)) (lines a).length := by
  have hl := h.linked
  cases q with
  | nil => exact absurd (hhead.symm.trans hl) (by simp)
  | cons b q' =>
    obtain ⟨hb,w,hw,hlinked⟩ := hl
    obtain rfl := Option.some.inj (hhead.symm.trans hb)
    obtain rfl := Option.some.inj (hv.symm.trans hw)
    have hperm : (q' ++ a::ex).Perm (a::q' ++ ex) := List.perm_middle
    refine ⟨q',⟨hlinked,hperm.nodup_iff.mpr h.nodup,fun pid => hperm.mem_iff.trans (h.live pid),h.born,h.counter,
      h.log,h.left,h.short,fun pid hpid => h.waits pid (List.mem_cons_of_mem a hpid)⟩,h.waits a List.mem_cons_self⟩

/-- A process that was executed goes to the tail of the queue. -/
theorem push {p : Progress} (h : Placing K script lines q (a::ex)) (hp : K.progress a = some p)
    (hw : Waits p (lineCount (script a)) (lines a).length) : ∃ K', K.readyQueueAddToTail a = some K' ∧
      Placing K' script lines (q ++ [a]) ex ∧ K'.progress = K.progress := by
  have hperm : (q ++ [a] ++ ex).Perm (q ++ a::ex) := by
    rw [List.append_assoc,List.singleton_append]
  have hnot : a ∉ q := fun hc =>
    (List.nodup_append.mp h.nodup).2.2 a hc a List.mem_cons_self rfl
  obtain ⟨K',hK,hlinked,hprog,hcnt,hlog⟩ := Kernel.addToTail_spec h.linked h.length_le hnot
    (by rw [← Kernel.isSome_progress,hp,Option.isSome_some])
  refine ⟨K',hK,⟨hlinked,hperm.nodup_iff.mpr h.nodup,?_,?_,?_,?_,?_,?_,?_⟩,hprog⟩
  · rw [hprog]
    exact fun pid => hperm.mem_iff.trans (h.live pid)
  · rw [hprog,hcnt]
    exact h.born
  · rw [hcnt]
    exact h.counter
  · rw [hcnt,hlog]
    exact h.log
  · rw [hprog,hcnt]
    exact h.left
  · rw [hcnt]
    exact h.short
  · rw [hprog]
    intro pid hpid
    cases List.mem_append.mp hpid with
    | inl hq => exact h.waits pid hq
    | inr ha =>
      obtain rfl := List.mem_singleton.mp ha
      exact ⟨p,hp,hw⟩

/-- A process that is being executed fetches a line. -/
theorem advance {p : Progress} (h : Placing K script lines q (a::ex)) (hhead : K'.head = K.head) (hnext : K'.next = K.next)
    (hprog : K'.progress = Function.update K.progress a (some p)) (hcnt : K'.pidCounter = K.pidCounter)
    (hlog : K'.log = K.log) : Placing K' script lines q (a::ex) := by
  have hsome : ∀ pid, (K'.progress pid).isSome = (K.progress pid).isSome := by
    intro pid
    rw [hprog,Function.update_apply]
    split_ifs with hpid
    · rw [hpid,(h.live a).mp (List.mem_append_right q List.mem_cons_self),Option.isSome_some]
    · rfl
  refine ⟨by rw [hhead,hnext]; exact h.linked,h.nodup,?_,?_,?_,?_,?_,?_,?_⟩
  · exact fun pid => by rw [hsome]; exact h.live pid
  · exact fun pid => by rw [hsome,hcnt]; exact h.born pid
  · rw [hcnt]
    exact h.counter
  · rw [hcnt,hlog]
    exact h.log
  · exact fun pid => by rw [hsome,hcnt]; exact h.left pid
  · rw [hcnt]
    exact h.short
  · intro pid hpid
    have hne : pid ≠ a := fun he => (List.nodup_append.mp h.nodup).2.2 pid hpid a List.mem_cons_self he
    rw [hprog,Function.update_of_ne hne]
    exact h.waits pid hpid

/-- A new process comes into the queue. -/
theorem enqueue {filename : CString} (h : Placing K script lines q ex) (hshort : lineCount text < 2147483646)
    (he : K.enqueue cfg filename text = some K') :
    Placing K' (Function.update script K.pidCounter text) (Function.update lines K.pidCounter [])
      (q ++ [K.pidCounter]) ex ∧ ∀ pid ∈ ex, K'.progress pid = K.progress pid ∧ pid ≠ K.pidCounter := by
  have hnew : K.pidCounter ∉ q ++ ex := fun hc => lt_irrefl _ (h.born _ ((h.live _).mp hc)).2
  obtain ⟨hlinked,hcnt,hprog,hlog⟩ := Kernel.enqueue_spec h.linked h.length_le
    (fun hc => hnew (List.mem_append_left ex hc)) he
  have hperm : (q ++ [K.pidCounter] ++ ex).Perm (K.pidCounter::(q ++ ex)) := by
    rw [List.append_assoc,List.singleton_append]
    exact List.perm_middle
  have hold : ∀ pid, pid ≠ K.pidCounter → K'.progress pid = K.progress pid := fun pid hne => by
    rw [hprog,Function.update_of_ne hne]
  have hself : K'.progress K.pidCounter = some ⟨0,pageCountOf (lineCount text),offsetEndOf (lineCount text),0⟩ := by
    rw [hprog,Function.update_self]
  have hne : ∀ pid ∈ q ++ ex, pid ≠ K.pidCounter := fun pid hpid he => hnew (he ▸ hpid)
  have hpos := h.counter
  refine ⟨⟨hlinked,?_,fun pid => ?_,fun pid => ?_,?_,fun pid => ?_,fun pid => ?_,fun pid => ?_,fun pid hpid => ?_⟩,
    fun pid hpid => ⟨hold pid (hne pid (List.mem_append_right q hpid)),hne pid (List.mem_append_right q hpid)⟩⟩
  · exact hperm.nodup_iff.mpr (List.nodup_cons.mpr ⟨hnew,h.nodup⟩)
  · rw [hperm.mem_iff,List.mem_cons,h.live pid]
    rcases eq_or_ne pid K.pidCounter with rfl | hpid
    · rw [hself,Option.isSome_some]
      simp
    · rw [hold pid hpid]
      exact or_iff_right hpid
  · rw [hcnt]
    rcases eq_or_ne pid K.pidCounter with rfl | hpid
    · intro _
      omega
    · rw [hold pid hpid]
      intro hs
      have := h.born pid hs
      omega
  · rw [hcnt]
    omega
  · rw [hlog,history_append,h.log pid,hcnt]
    rcases eq_or_ne pid K.pidCounter with rfl | hpid
    · have h1 : 1 ≤ lineCount text := Nat.le_add_right _ _
      have h0 : ¬ 0 = lineCount text := by omega
      rw [if_neg (by omega),if_pos (by omega),Function.update_self,Function.update_self]
      simp [history,lifetime,Event.pid,h0]
    · have hnil : history pid [.queued K.pidCounter text] = [] :=
        history_of_ne fun e he => by
          rw [List.mem_singleton.mp he]
          exact hpid.symm
      rw [hnil,List.append_nil,Function.update_of_ne hpid,Function.update_of_ne hpid]
      split_ifs with h1 h2
      · rfl
      · omega
      · omega
      · rfl
  · rw [hcnt]
    rcases eq_or_ne pid K.pidCounter with rfl | hpid
    · rw [hself,Function.update_self,Function.update_self]
      intro _ _
      have h1 : 1 ≤ lineCount text := Nat.le_add_right _ _
      exact ⟨Nat.zero_le _,iff_of_true h1 rfl⟩
    · rw [hold pid hpid,Function.update_of_ne hpid,Function.update_of_ne hpid]
      intro h1 h2
      exact h.left pid h1 (by omega)
  · rw [hcnt,Function.update_apply]
    split_ifs with hpid
    · exact fun _ _ => hshort
    · intro h1 h2
      exact h.short pid h1 (by omega)
  · cases List.mem_append.mp hpid with
    | inl hq =>
      have hpne := hne pid (List.mem_append_left ex hq)
      rw [hold pid hpne,Function.update_of_ne hpne,Function.update_of_ne hpne]
      exact h.waits pid hq
    | inr hn =>
      obtain rfl := List.mem_singleton.mp hn
      rw [Function.update_self,Function.update_self]
      exact ⟨_,hself,waits_start text⟩

/-- A line of the process in front was executed. -/
theorem executed (h : Placing K script lines q (a::ex)) (hmore : (lines a).length + 1 < lineCount (script a)) (hhead : K'.head = K.head)
    (hnext : K'.next = K.next) (hprog : K'.progress = K.progress) (hcnt : K'.pidCounter = K.pidCounter)
    (hlog : K'.log = K.log ++ [.executed a line]) :
    Placing K' script (Function.update lines a (lines a ++ [line])) q (a::ex) := by
  have hsome := (h.live a).mp (List.mem_append_right q List.mem_cons_self)
  have hborn := h.born a hsome
  have hnot : ∀ pid ∈ q, pid ≠ a := fun pid hpid he =>
    (List.nodup_append.mp h.nodup).2.2 pid hpid a List.mem_cons_self he
  refine ⟨by rw [hhead,hnext]; exact h.linked,h.nodup,by rw [hprog]; exact h.live,by rw [hprog,hcnt]; exact h.born,
    by rw [hcnt]; exact h.counter,fun pid => ?_,fun pid => ?_,by rw [hcnt]; exact h.short,fun pid hpid => ?_⟩
  · rw [hlog,history_append,h.log pid,hcnt]
    rcases eq_or_ne pid a with rfl | hpid
    · rw [if_pos hborn,Function.update_self,lifetime_succ hmore,history_self fun e he => by rw [List.mem_singleton.mp he]; rfl,
        if_pos hborn]
    · rw [Function.update_of_ne hpid,history_of_ne fun e he => by rw [List.mem_singleton.mp he]; exact hpid.symm,List.append_nil]
  · rw [hprog,hcnt]
    rcases eq_or_ne pid a with rfl | hpid
    · rw [Function.update_self,List.length_append,List.length_singleton]
      exact fun _ _ => ⟨hmore.le,iff_of_true hmore hsome⟩
    · rw [Function.update_of_ne hpid]
      exact h.left pid
  · rw [hprog,Function.update_of_ne (hnot pid hpid)]
    exact h.waits pid hpid

/-- The last line of the process in front was executed; it is terminated. -/
theorem terminated (h : Placing K script lines q (a::ex)) (hlast : (lines a).length + 1 = lineCount (script a)) (hhead : K'.head = K.head)
    (hnext : ∀ b, b ≠ a → K'.next b = K.next b) (hprog : K'.progress = Function.update K.progress a none)
    (hcnt : K'.pidCounter = K.pidCounter) (hlog : K'.log = K.log ++ [.executed a line,.terminated a]) :
    Placing K' script (Function.update lines a (lines a ++ [line])) q ex := by
  have hborn := h.born a ((h.live a).mp (List.mem_append_right q List.mem_cons_self))
  have hperm : (q ++ a::ex).Perm (a::(q ++ ex)) := List.perm_middle
  have hnodup := List.nodup_cons.mp (hperm.nodup_iff.mp h.nodup)
  have hne : ∀ pid ∈ q ++ ex, pid ≠ a := fun pid hpid he => hnodup.1 (he ▸ hpid)
  have hself : K'.progress a = none := by rw [hprog,Function.update_self]
  have hold : ∀ pid, pid ≠ a → K'.progress pid = K.progress pid := fun pid hpid => by
    rw [hprog,Function.update_of_ne hpid]
  refine ⟨?_,hnodup.2,fun pid => ?_,fun pid => ?_,by rw [hcnt]; exact h.counter,fun pid => ?_,fun pid => ?_,
    by rw [hcnt]; exact h.short,fun pid hpid => ?_⟩
  · rw [hhead]
    exact h.linked.congr fun b hb => hnext b (hne b (List.mem_append_left ex hb))
  · rcases eq_or_ne pid a with rfl | hpid
    · rw [hself]
      exact iff_of_false hnodup.1 (by simp)
    · rw [hold pid hpid,← h.live pid,hperm.mem_iff,List.mem_cons]
      exact (or_iff_right hpid).symm
  · rw [hcnt]
    rcases eq_or_ne pid a with rfl | hpid
    · exact fun _ => hborn
    · rw [hold pid hpid]
      exact h.born pid
  · rw [hlog,history_append,h.log pid,hcnt]
    rcases eq_or_ne pid a with rfl | hpid
    · have hend : history pid [.executed pid line,.terminated pid] = [.executed pid line,.terminated pid] :=
        history_self fun e he => by
          cases List.mem_cons.mp he with
          | inl h1 => rw [h1]; rfl
          | inr h2 => rw [List.mem_singleton.mp h2]; rfl
      rw [if_pos hborn,Function.update_self,lifetime_last hlast,hend,if_pos hborn]
    · have hnil : history pid [.executed a line,.terminated a] = [] :=
        history_of_ne fun e he => by
          cases List.mem_cons.mp he with
          | inl h1 => rw [h1]; exact hpid.symm
          | inr h2 => rw [List.mem_singleton.mp h2]; exact hpid.symm
      rw [hnil,List.append_nil,Function.update_of_ne hpid]
  · rw [hcnt]
    rcases eq_or_ne pid a with rfl | hpid
    · rw [hself,Function.update_self,List.length_append,List.length_singleton,hlast]
      exact fun _ _ => ⟨le_rfl,iff_of_false (lt_irrefl _) (by simp)⟩
    · rw [hold pid hpid,Function.update_of_ne hpid]
      exact h.left pid
  · have hpne := hne pid (List.mem_append_left ex hpid)
    rw [hold pid hpne,Function.update_of_ne hpne]
    exact h.waits pid hpid

end Placing
end ShellOS.Ready
