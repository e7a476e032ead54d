import ShellOS.Ready.Commands
import ShellOS.Ready.PageLoads
import ShellOS.Ready.Schedule

/-! No process ends before the last line of its script was executed, where that line is still in memory when
the process comes to it. -/
namespace ShellOS.Ready
open CLib Lines
variable {ω : Type} {cfg : Config} {H : Host ω} {K K' : Kernel ω} {p : PCB} {script text filename : CString} {a node left : ℕ}
  {log : List Event} {e : Event} {stack rest : List Activation} {s s' : State ω}

/-! ### When the last line is found -/

/-- If the line that the process comes to is the last one, its page was not evicted since it was loaded. If
the page of the last line has to be loaded, the file still holds the script. -/
def Kernel.FindsLast (K : Kernel ω) (p : PCB) (script : CString) : Prop :=
  if p.validPage p.pc then (lastAt script p.fetched).isSome → K.frees (p.pageTable p.pc) = p.stamp p.pc
  else ∀ j < 3, (lastAt script (3 * p.pc + j)).isSome → K.store p.filename = script

instance (K : Kernel ω) (p : PCB) (script : CString) : Decidable (K.FindsLast p script) := by
  unfold Kernel.FindsLast
  infer_instance

/-- The process for which `execute_process` begins a round. -/
def State.inLoop (s : State ω) : Option ℕ := match s.stack with
  | .execute node (_+1)::_ => some node
  | _ => none

/-- No `resetmem` is called, and a process that comes to its last line, or to the page of it, finds it. -/
def Undisturbed (s : State ω) : Prop := NoReset s ∧ ∀ node ∈ s.inLoop, ∀ p ∈ s.kernel.pcbAt node,
  ∀ script ∈ scriptOf node s.kernel.log, s.kernel.FindsLast p script

instance : DecidablePred (Undisturbed (ω := ω)) := fun s => by
  unfold Undisturbed
  infer_instance

/-- The scripts are read line by line. -/
def PlainScripts (H : Host ω) : Prop := ∀ w filename text, H.file w filename = some text → Plain text

/-! ### Histories that grow -/

theorem scriptOf_append (a : ℕ) (log : List Event) (e : Event) :
    scriptOf a (log ++ [e]) = (scriptOf a log).or (e.scriptFor a) := by
  rw [scriptOf,List.findSome?_append,List.findSome?_singleton]
  rfl

theorem executedOf_append (a : ℕ) (log : List Event) (e : Event) :
    executedOf a (log ++ [e]) = executedOf a log ++ (e.lineFor a).toList := by
  rw [executedOf,List.filterMap_append]
  cases h : e.lineFor a with
  | none => rw [List.filterMap_cons_none h]; rfl
  | some l => rw [List.filterMap_cons_some h]; rfl

theorem append_of_ne (log : List Event) (h : e.pid ≠ a) :
    scriptOf a (log ++ [e]) = scriptOf a log ∧ executedOf a (log ++ [e]) = executedOf a log := by
  obtain ⟨hs,hl⟩ := Event.for_of_ne h
  rw [scriptOf_append,executedOf_append,hs,hl,Option.or_none]
  exact ⟨rfl,List.append_nil _⟩

/-! ### The invariant -/

/-- What is known of the texts: the pages hold the last lines, and last lines that were executed were the
scripts' own. -/
structure Kernel.Worded (cfg : Config) (K : Kernel ω) : Prop where
  names : ∀ a p, K.pcbAt a = some p → p.filename ≠ cstr "none"
  pages : ∀ a p script, K.pcbAt a = some p → scriptOf a K.log = some script → Paged cfg K script p
  plain : ∀ a script, scriptOf a K.log = some script → Plain script
  past : ∀ a script k l l', scriptOf a K.log = some script → lastAt script k = some l →
    (executedOf a K.log)[k]? = some l' → l' = l

/-- A last line that is being executed is the script's own. -/
def Reads (log : List Event) (stack : List Activation) : Prop := ∀ node left last read calls script l,
  Activation.line node left last read calls ∈ stack → scriptOf node log = some script →
    lastAt script (executedOf node log).length = some l → read.text = l

theorem mem_executing {last : Bool} {read : Reading} {calls : List Call}
    (h : Activation.line node left last read calls ∈ stack) : node ∈ executing stack :=
  List.mem_filterMap.mpr ⟨_,h,rfl⟩

theorem Reads.append (h : Reads log stack) (hne : ∀ node ∈ executing stack, e.pid ≠ node) : Reads (log ++ [e]) stack := by
  intro node left last read calls script l hmem hscript hlast
  obtain ⟨hs,hl⟩ := append_of_ne log (hne node (mem_executing hmem))
  exact h node left last read calls script l hmem (hs ▸ hscript) (hl ▸ hlast)

theorem Reads.sub {stack' : List Activation} (h : Reads log stack) (hsub : ∀ node left last read calls,
    Activation.line node left last read calls ∈ stack' → ∃ calls', Activation.line node left last read calls' ∈ stack) :
    Reads log stack' := by
  intro node left last read calls script l hmem
  obtain ⟨calls',hmem'⟩ := hsub node left last read calls hmem
  exact h node left last read calls' script l hmem'

namespace Kernel.Worded

theorem loses (h : K.Worded cfg) (hl : Loses cfg K K') : K'.Worded cfg := by
  refine ⟨fun a q hq => ?_,fun a q script hq hs => ?_,?_,?_⟩
  · obtain ⟨p,hp,hfewer⟩ := hl.pcbs a q hq
    exact hfewer.filename ▸ h.names a p hp
  · obtain ⟨p,hp,hfewer⟩ := hl.pcbs a q hq
    exact ((h.pages a p script hp (hl.log ▸ hs)).fewer hfewer).evolves hl.frames
  · rw [hl.log]
    exact h.plain
  · rw [hl.log]
    exact h.past

/-- A process that is being executed changes. -/
theorem setPcb (h : K.Worded cfg) (ha : (K.pcbAt a).isSome) (hname : p.filename ≠ cstr "none")
    (hpages : ∀ script, scriptOf a K.log = some script → Paged cfg K script p) : (K.setPcb a p).Worded cfg := by
  have hsame : Evolves cfg K (K.setPcb a p) := evolves_of_mem (fun _ _ => rfl) rfl
  refine ⟨fun b q hq => ?_,fun b q script hq hs => ?_,h.plain,h.past⟩
  · by_cases hb : b = a
    · subst hb
      exact Option.some.inj ((pcbAt_setPcb ha p).symm.trans hq) ▸ hname
    · exact h.names b q ((pcbAt_setPcb_of_ne hb p).symm.trans hq)
  · by_cases hb : b = a
    · subst hb
      exact Option.some.inj ((pcbAt_setPcb ha p).symm.trans hq) ▸ (hpages script hs).evolves hsame
    · exact (h.pages b q script ((pcbAt_setPcb_of_ne hb p).symm.trans hq) hs).evolves hsame

/-- A new process and its script. -/
theorem queued (h : K.Worded cfg) (hplain : Plain text) (hname : p.filename ≠ cstr "none") (hpages : Paged cfg K text p)
    (hscript : scriptOf a K.log = none) (hlines : executedOf a K.log = []) :
    Kernel.Worded cfg { K with
      node := Function.update K.node a (some ⟨p,none⟩)
      log := K.log ++ [.queued a text] } := by
  let K' : Kernel ω := { K with
    node := Function.update K.node a (some ⟨p,none⟩)
    log := K.log ++ [.queued a text] }
  have hsame : Evolves cfg K K' := evolves_of_mem (fun _ _ => rfl) rfl
  have hself : K'.pcbAt a = some p := by
    change (Function.update K.node a (some ⟨p,none⟩) a).map QueueNode.pcb = some p
    rw [Function.update_self]
    rfl
  have hold : ∀ b, b ≠ a → K'.pcbAt b = K.pcbAt b := fun b hb =>
    congrArg (Option.map QueueNode.pcb) (Function.update_of_ne hb _ _)
  have hnew : scriptOf a K'.log = some text := by
    rw [scriptOf_append,hscript,Option.none_or]
    exact if_pos rfl
  have hother : ∀ b, b ≠ a → scriptOf b K'.log = scriptOf b K.log ∧ executedOf b K'.log = executedOf b K.log := fun b hb =>
    append_of_ne K.log hb.symm
  refine ⟨fun b q hq => ?_,fun b q script hq hs => ?_,fun b script hs => ?_,fun b script k l l' hs hl hl' => ?_⟩
  · by_cases hb : b = a
    · subst hb
      exact Option.some.inj (hself.symm.trans hq) ▸ hname
    · exact h.names b q ((hold b hb).symm.trans hq)
  · by_cases hb : b = a
    · subst hb
      obtain rfl := Option.some.inj (hself.symm.trans hq)
      obtain rfl := Option.some.inj (hnew.symm.trans hs)
      exact hpages.evolves hsame
    · exact (h.pages b q script ((hold b hb).symm.trans hq) ((hother b hb).1.symm.trans hs)).evolves hsame
  · by_cases hb : b = a
    · subst hb
      exact Option.some.inj (hnew.symm.trans hs) ▸ hplain
    · exact h.plain b script ((hother b hb).1.symm.trans hs)
  · by_cases hb : b = a
    · subst hb
      have hnil : executedOf b K'.log = [] := (executedOf_append b K.log _).trans (by rw [hlines]; rfl)
      rw [hnil] at hl'
      cases hl'
    · exact h.past b script k l l' ((hother b hb).1.symm.trans hs) hl ((hother b hb).2 ▸ hl')

theorem enqueue (h : K.Worded cfg) (hpos : 0 < cfg.frameSize) (hplain : Plain text)
    (hscript : scriptOf K.pidCounter K.log = none) (hlines : executedOf K.pidCounter K.log = [])
    (he : K.enqueue cfg filename text = some K') : K'.Worded cfg := by
  obtain ⟨r,hr,he⟩ := Option.bind_eq_some_iff.mp he
  have hcopy : Function.update K.store (backingName filename K.pidCounter) (copyText text)
      (backingName filename K.pidCounter) = text := by rw [Function.update_self,copyText_of_not_mem hplain.no_eof]
  obtain ⟨hpaged,hloses,hname⟩ := loadFile_paged hpos hplain rfl (fun _ => rfl) (backingName_ne filename K.pidCounter) hcopy hr
  have hcopied : Loses cfg K { K with
    store := Function.update K.store (backingName filename K.pidCounter) (copyText text)
    pidCounter := K.pidCounter + 1 } := loses_of_same (fun _ _ => rfl) rfl rfl rfl
  have hbefore := (h.loses hcopied).loses hloses
  have hlog : r.2.log = K.log := hloses.log
  have hqueued := hbefore.queued hplain (hname ▸ backingName_ne filename K.pidCounter) hpaged (hlog ▸ hscript) (hlog ▸ hlines)
  exact hqueued.loses (addToTail_loses he)

/-- A line was executed. -/
theorem executed {line : CString} (h : K.Worded cfg) (hline : ∀ script l, scriptOf a K.log = some script →
    lastAt script (executedOf a K.log).length = some l → line = l) :
    Kernel.Worded cfg { K with log := K.log ++ [.executed a line] } := by
  have hscripts : ∀ b, scriptOf b (K.log ++ [.executed a line]) = scriptOf b K.log := fun b => by
    rw [scriptOf_append]
    exact Option.or_none
  refine ⟨h.names,fun b q script hq hs => ?_,fun b script hs => h.plain b script (hscripts b ▸ hs),
    fun b script k l l' hs hl hl' => ?_⟩
  · exact (h.pages b q script hq (hscripts b ▸ hs)).evolves (evolves_of_mem (fun _ _ => rfl) rfl)
  · have hs' : scriptOf b K.log = some script := hscripts b ▸ hs
    by_cases hb : b = a
    · subst hb
      have hself : (Event.executed b line).lineFor b = some line := if_pos rfl
      have hsnoc : (executedOf b K.log ++ [line])[k]? = some l' := by
        have happend := executedOf_append b K.log (.executed b line)
        rw [hself] at happend
        exact happend ▸ hl'
      by_cases hk : k < (executedOf b K.log).length
      · rw [List.getElem?_append_left hk] at hsnoc
        exact h.past b script k l l' hs' hl hsnoc
      · rw [List.getElem?_append_right (not_lt.mp hk),List.getElem?_singleton] at hsnoc
        split_ifs at hsnoc with hzero
        obtain rfl := Option.some.inj hsnoc
        have hend : k = (executedOf b K.log).length := by omega
        exact hline script l hs' (hend ▸ hl)
    · have hold : executedOf b (K.log ++ [.executed a line]) = executedOf b K.log := (append_of_ne K.log fun h => hb h.symm).2
      exact h.past b script k l l' hs' hl (hold ▸ hl')

theorem terminated (h : K.Worded cfg) (a : ℕ) : (K.terminateProcess a).Worded cfg := by
  have hpcb : ∀ b q, (K.terminateProcess a).pcbAt b = some q → K.pcbAt b = some q := by
    intro b q hq
    have hb : b ≠ a := by
      rintro rfl
      have hnone : (Function.update K.node b none b).map QueueNode.pcb = some q := hq
      rw [Function.update_self] at hnone
      cases hnone
    exact (congrArg (Option.map QueueNode.pcb) (Function.update_of_ne hb _ _)).symm.trans hq
  have hscripts : ∀ b, scriptOf b (K.log ++ [.terminated a]) = scriptOf b K.log := fun b =>
    (scriptOf_append b K.log _).trans Option.or_none
  have hlines : ∀ b, executedOf b (K.log ++ [.terminated a]) = executedOf b K.log := fun b =>
    (executedOf_append b K.log _).trans (List.append_nil _)
  refine ⟨fun b q hq => h.names b q (hpcb b q hq),fun b q script hq hs => ?_,fun b script hs => h.plain b script (hscripts b ▸ hs),
    fun b script k l l' hs hl hl' => h.past b script k l l' (hscripts b ▸ hs) hl (hlines b ▸ hl')⟩
  exact (h.pages b q script (hpcb b q hq) (hscripts b ▸ hs)).evolves (evolves_of_mem (fun _ _ => rfl) rfl)

end Kernel.Worded

/-! ### Steps -/

/-- The invariant of the texts in a state of the shell. -/
structure Worded (cfg : Config) (s : State ω) : Prop where
  kernel : s.kernel.Worded cfg
  reads : Reads s.kernel.log s.stack

theorem Kernel.Alike.loses (h : K.Alike cfg K') : Loses cfg K K' :=
  loses_of_same h.mem h.frees (funext fun a => by rw [Kernel.pcbAt,h.node,Kernel.pcbAt]) h.log

theorem Reads.cons {last : Bool} {read : Reading} {calls : List Call} (h : Reads log rest)
    (hline : ∀ script l, scriptOf node log = some script → lastAt script (executedOf node log).length = some l → read.text = l) :
    Reads log (.line node left last read calls::rest) := by
  intro node' left' last' read' calls' script l hmem hs hl
  cases List.mem_cons.mp hmem with
  | inl heq =>
    obtain ⟨rfl,-,-,rfl,-⟩ := Activation.line.inj heq
    exact hline script l hs hl
  | inr hrest => exact h node' left' last' read' calls' script l hrest hs hl

/-- An activation that executes no line. -/
theorem Reads.push (h : Reads log rest) {act : Activation} (hact : ∀ node left last read calls, act ≠ .line node left last read calls) :
    Reads log (act::rest) := by
  intro node left last read calls script l hmem
  cases List.mem_cons.mp hmem with
  | inl heq => exact absurd heq.symm (hact node left last read calls)
  | inr hrest => exact h node left last read calls script l hrest

theorem Reads.tail {act : Activation} (h : Reads log (act::rest)) : Reads log rest :=
  h.sub fun _ _ _ _ calls hmem => ⟨calls,List.mem_cons_of_mem act hmem⟩

theorem Worded.queues (hset : Settled ⟨K,stack⟩) (h : Worded cfg ⟨K,stack⟩) (hpos : 0 < cfg.frameSize) (hshort : ShortScripts H)
    (hplain : PlainScripts H) (hq : Queues cfg H K K') : Worded cfg ⟨K',stack⟩ := by
  induction hq with
  | alike ha => exact ⟨h.kernel.loses ha.loses,by dsimp only; rw [ha.log]; exact h.reads⟩
  | @enqueue K K₁ K' filename text hf he _ ih =>
    have hnew : scriptOf K.pidCounter K.log = none ∧ executedOf K.pidCounter K.log = [] := by
      have hnil : history K.pidCounter K.log = [] := hset.new
      rw [← scriptOf_history,← executedOf_history,hnil]
      exact ⟨rfl,rfl⟩
    refine ih (hset.queues hshort (.enqueue hf he (.alike (.refl K₁)))) ⟨?_,?_⟩
    · exact h.kernel.enqueue hpos (hplain _ _ _ hf) hnew.1 hnew.2 he
    · dsimp only
      rw [enqueue_log he]
      exact h.reads.append fun node hn => hset.ne_new hn

/-- A last line that is fetched is the script's own. -/
theorem Paged.fetch (h : Paged cfg K script p) (hvalid : p.validPage p.pc = true) (hfinds : K.FindsLast p script)
    (hoff : p.offset < 3) {l : CString} (hl : lastAt script p.fetched = some l) :
    (K.mem (p.pageTable p.pc + p.offset)).value = l := by
  obtain ⟨i,-,ht,-,hlast⟩ := h p.pc hvalid
  unfold Kernel.FindsLast at hfinds
  rw [if_pos hvalid,ht] at hfinds
  rw [ht]
  exact (hlast (hfinds (Option.isSome_iff_exists.mpr ⟨l,hl⟩)) p.offset hoff l hl).2

theorem length_le_lineCount (h : 255 ∉ script) : (linesOf 10 script).length ≤ lineCount script := by
  rw [length_linesOf,lineCount,copyText_of_not_mem h]
  split_ifs <;> omega

/-- After all its lines a process has executed the last one of its script. -/
theorem Kernel.Worded.lastExecuted {lines : List CString} (h : K.Worded cfg) (hhistory : history a K.log = lifetime a script lines)
    (hall : lines.length = lineCount script) : LastExecuted script lines := by
  intro l hl
  have hscript := scriptOf_lifetime hhistory
  have hpos : 0 < (linesOf 10 script).length := List.length_pos_of_mem (List.mem_of_getLast? hl)
  have hle := length_le_lineCount (h.plain a script hscript).no_eof
  have hlast : lastAt script ((linesOf 10 script).length - 1) = some l :=
    lastAt_eq_some_iff.mpr ⟨by omega,List.getLast?_eq_getElem? ▸ hl⟩
  obtain ⟨l',hline⟩ : ∃ l', lines[(linesOf 10 script).length - 1]? = some l' := ⟨_,List.getElem?_eq_getElem (by omega)⟩
  have hexecuted : (executedOf a K.log)[(linesOf 10 script).length - 1]? = some l' := by
    rw [executedOf_lifetime hhistory]
    exact hline
  rw [hline,h.past a script _ l l' hscript hlast hexecuted]

theorem Settled.placed (h : Settled s) (hw : s.kernel.Worded cfg) : Placed s := by
  obtain ⟨script,lines,q,h,-⟩ := h
  refine ⟨q,h.linked,fun pid => ?_⟩
  have hlog := h.log pid
  by_cases hborn : 1 ≤ pid ∧ pid < s.kernel.pidCounter
  · rw [if_pos hborn] at hlog
    obtain ⟨hle,hiff⟩ := h.left pid hborn.1 hborn.2
    refine .inr ⟨script pid,lines pid,hle,hlog,?_,hw.lastExecuted hlog⟩
    rw [← List.count_append]
    split_ifs with hlt
    · exact List.count_eq_one_of_mem h.nodup ((h.live pid).mpr (hiff.mp hlt))
    · exact List.count_eq_zero.mpr fun hm => hlt (hiff.mpr ((h.live pid).mp hm))
  · rw [if_neg hborn] at hlog
    have hout : pid ∉ q ++ executing s.stack := fun hm => hborn (h.born pid ((h.live pid).mp hm))
    rw [List.mem_append,not_or] at hout
    exact .inl ⟨hlog,hout⟩

def sevenLines : CString := cstr "a\nb\nc\nd\ne\nf\ng"

end ShellOS.Ready
