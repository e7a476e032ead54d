import ShellOS.Lib.Lines
import ShellOS.Ready.Recency
import ShellOS.Ready.Placed
import ShellOS.Pager.LineCount

/-! The lines that the process of a script executes. -/
namespace ShellOS.Ready
open CLib Lines
open Pager (Memory fgets fgets_line)

/-- `newfile`. -/
def backingName (filename : CString) (pid : ℕ) : CString := cstr "./backing_store/" ++ (filename ++ Shell.decimal pid)

section
variable {ω : Type}

namespace Kernel

def pcbAt (K : Kernel ω) (a : ℕ) : Option PCB := (K.node a).map QueueNode.pcb

/-- The line that a process comes to, if its page is loaded. -/
def currentLine (K : Kernel ω) (a : ℕ) : Option CString :=
  (K.pcbAt a).bind fun p => if p.validPage p.pc then some (K.mem (p.pageTable p.pc + p.offset)).value else none

/-- No frame that holds a page is changed. -/
def KeepsFrames (cfg : Config) (K K' : Kernel ω) : Prop :=
  ∀ i ∈ frames cfg, (K.mem (cfg.varMemSize + i)).var ≠ cstr "none" →
    ∀ j < 3, K'.mem (cfg.varMemSize + i + j) = K.mem (cfg.varMemSize + i + j)

/-- There are free frames for the pages that are loaded at the start, two at most. -/
def HasSpace (cfg : Config) (K : Kernel ω) (pageCount : ℕ) : Prop :=
  ∃ i ∈ frames cfg, ∃ j ∈ frames cfg, (K.mem (cfg.varMemSize + i)).var = cstr "none" ∧
    (K.mem (cfg.varMemSize + j)).var = cstr "none" ∧ (1 < pageCount → i ≠ j)

end Kernel

/-- The process of a script, and the lines that were passed to `parseInput` for it so far. Nothing is evicted,
and no other script is copied to its file; between its steps all the rest may change. -/
inductive Life (cfg : Config) (filename text : CString) (pid : ℕ) : Kernel ω → List CString → Prop
  | start {K K' : Kernel ω} (hpid : K.pidCounter = pid) (hspace : K.HasSpace cfg (pageCountOf (lineCount text)))
      (h : K.enqueue cfg filename text = some K') : Life cfg filename text pid K' []
  | step {K : Kernel ω} {L : List CString} {left : ℕ} {rest : List Activation} {s : State ω}
      (h : Life cfg filename text pid K L) (hmore : ∀ p, K.pcbAt pid = some p → p.atEnd = false)
      (hspace : K.currentLine pid = none → K.findSpace cfg ≠ none)
      (hs : executeProcess cfg K pid left rest = some s) :
      Life cfg filename text pid s.kernel (L ++ (K.currentLine pid).toList)
  | other {K K' : Kernel ω} {L : List CString} (h : Life cfg filename text pid K L) (hpcb : K'.pcbAt pid = K.pcbAt pid)
      (hmem : K.KeepsFrames cfg K') (hstore : K'.store (backingName filename pid) = K.store (backingName filename pid)) :
      Life cfg filename text pid K' L

/-- The process executes the lines of the script in order, and after the last one it ends. -/
def ExecutesLines (cfg : Config) (filename text : CString) (pid : ℕ) (K : Kernel ω) (L : List CString) : Prop :=
  Life cfg filename text pid K L → ∃ p, K.pcbAt pid = some p ∧ L <+: linesOf 10 text ∧
    (p.atEnd = true ↔ L = linesOf 10 text)

end

/-- Scripts that are read as they were counted. -/
structure Clean (text : CString) : Prop where
  no_eof : 255 ∉ text
  ne_nil : text ≠ []
  not_ended : text.getLast? ≠ some 10
  short : ∀ l ∈ linesOf 10 text, l.length ≤ 99

/-! ### Reading the lines -/

theorem linesOf_fgets {s : CString} (hs : ∀ l ∈ linesOf 10 s, l.length ≤ 99) :
    linesOf 10 (fgets 99 s).2 = (linesOf 10 s).tail := by
  cases h : linesOf 10 s with
  | nil =>
    obtain rfl := linesOf_eq_nil_iff.mp h
    rfl
  | cons l ls => exact (fgets_line h (hs l (by rw [h]; exact List.mem_cons_self))).2

/-- Skipping lines skips lines of the file. -/
theorem linesOf_skipLines : ∀ (n : ℕ) (s : CString), (∀ l ∈ linesOf 10 s, l.length ≤ 99) →
    linesOf 10 (skipLines n s) = (linesOf 10 s).drop n := by
  intro n
  induction n with
  | zero => exact fun s _ => rfl
  | succ n ih =>
    intro s hs
    have htail := linesOf_fgets hs
    rw [skipLines,ih _ fun l hl => hs l (List.mem_of_mem_tail (htail ▸ hl)),htail,List.drop_tail]

/-- The lines are stored in a row; where there are none the slots are left as they were. -/
theorem copyLines_line (name : CString) : ∀ (n j : ℕ) (s : CString) (m : Memory),
    (∀ l ∈ linesOf 10 s, l.length ≤ 99 ∧ 0 ∉ l) → ∀ t < n, ∀ l, (linesOf 10 s)[t]? = some l →
      copyLines name n j s m (j + t) = ⟨name,l⟩ := by
  intro n
  induction n with
  | zero => exact fun j s m _ t ht => absurd ht (Nat.not_lt_zero t)
  | succ n ih =>
    intro j s m hs t ht l hl
    have htail := linesOf_fgets fun l hl => (hs l hl).1
    rw [copyLines]
    cases t with
    | zero =>
      cases hlines : linesOf 10 s with
      | nil =>
        rw [hlines] at hl
        cases hl
      | cons l' ls =>
        rw [hlines] at hl
        obtain rfl := Option.some.inj hl
        have hl' := hs l' (by rw [hlines]; exact List.mem_cons_self)
        have hne : s ≠ [] := fun h => by rw [h] at hlines; cases hlines
        have hword : l'.takeWhile (· != 0) = l' := by
          rw [List.takeWhile_eq_self_iff]
          exact fun c hc => bne_iff_ne.mpr fun h => hl'.2 (h ▸ hc)
        have hfirst : j < j + 1 := Nat.lt_succ_self j
        change copyLines name n (j + 1) _ _ j = _
        rw [copyLines_of_not_mem name _ _ _ _ (.inl hfirst),if_neg hne,Function.update_self,(fgets_line hlines hl'.1).1,hword]
    | succ t =>
      rw [Nat.add_comm t,← Nat.add_assoc]
      refine ih (j + 1) _ _ (fun l hl => hs l (List.mem_of_mem_tail (htail ▸ hl))) t (Nat.lt_of_succ_lt_succ ht) l ?_
      rw [htail,List.getElem?_tail]
      exact hl

theorem copyText_of_not_mem {text : CString} (h : 255 ∉ text) : copyText text = text := by
  rw [copyText,List.takeWhile_eq_self_iff]
  exact fun c hc => bne_iff_ne.mpr fun he => h (he ▸ hc)

theorem Clean.lineCount_eq {text : CString} (h : Clean text) : lineCount text = (linesOf 10 text).length := by
  rw [lineCount,copyText_of_not_mem h.no_eof,length_linesOf,if_neg (not_or.mpr ⟨h.ne_nil,h.not_ended⟩),Nat.add_comm]

/-! ### Pages in the frame store -/

variable {ω : Type} {cfg : Config} {K K' K₁ : Kernel ω} {p p' : PCB} {lines : List CString} {a page : ℕ}

namespace Kernel

/-- A page is stored line by line. -/
theorem copyToMem_line {text name l : CString} {slot t : ℕ} (hlines : ∀ l ∈ linesOf 10 text, l.length ≤ 99 ∧ 0 ∉ l)
    (hstore : K.store name = text) (ht : t < 3) (hl : (linesOf 10 text)[3 * page + t]? = some l) :
    (K.copyToMem cfg (page * 3) name slot).mem (slot + t) = ⟨name,l⟩ := by
  have hskip := linesOf_skipLines (page * 3) text fun l hl => (hlines l hl).1
  refine copyLines_line name 3 _ _ K.mem ?_ t ht l ?_
  · rw [hstore,hskip]
    exact fun l hl => hlines l (List.mem_of_mem_drop hl)
  · rw [hstore,hskip,List.getElem?_drop,Nat.mul_comm]
    exact hl

theorem keepsFrames_of_mem (h : K'.mem = K.mem) : K.KeepsFrames cfg K' := fun _ _ _ _ _ => by rw [h]

theorem findSpace_spec {slot : ℕ} (h : K.findSpace cfg = some slot) :
    ∃ i ∈ frames cfg, slot = cfg.varMemSize + i ∧ (K.mem (cfg.varMemSize + i)).var = cstr "none" := by
  have hlt := List.mem_range.mp (List.mem_of_find?_eq_some h)
  have hslot := List.find?_some h
  simp only [Bool.and_eq_true,decide_eq_true_eq,beq_iff_eq] at hslot
  obtain ⟨hle,hmod,hvar⟩ := hslot
  obtain ⟨i,rfl⟩ := Nat.exists_eq_add_of_le hle
  exact ⟨i,mem_frames.mpr ⟨Nat.lt_of_add_lt_add_left hlt,by omega⟩,rfl,hvar⟩

theorem replacePage_of_space {slot : ℕ} (h : K.findSpace cfg = some slot) : K.replacePage cfg p page =
    some ({ p with
      pageTable := Function.update p.pageTable page slot
      validPage := Function.update p.validPage page true
      stamp := Function.update p.stamp page (K.frees slot) },K.copyToMem cfg (p.pc * 3) p.filename slot) := by
  unfold replacePage
  rw [h]

/-- A page is put into a free frame. -/
theorem keepsFrames_copyToMem {i n : ℕ} {name : CString} (hi : i ∈ frames cfg)
    (hfree : (K.mem (cfg.varMemSize + i)).var = cstr "none") :
    K.KeepsFrames cfg (K.copyToMem cfg n name (cfg.varMemSize + i)) := by
  intro k hk hne j hj
  have hki : k ≠ i := fun h => hne (h ▸ hfree)
  have hmod := (mem_frames.mp hi).2
  have hmod' := (mem_frames.mp hk).2
  exact copyLines_of_not_mem name 3 _ _ _ (by omega)

theorem pcbAt_setNext (K : Kernel ω) (a b : ℕ) (q : Option ℕ) : (K.setNext a q).pcbAt b = K.pcbAt b := by
  unfold setNext pcbAt
  dsimp only
  by_cases h : b = a
  · subst h
    rw [Function.update_self]
    cases K.node b <;> rfl
  · rw [Function.update_of_ne h]

theorem pcbAt_setPcb_of_ne {b : ℕ} (h : b ≠ a) (p : PCB) : (K.setPcb a p).pcbAt b = K.pcbAt b :=
  congrArg (Option.map QueueNode.pcb) (Function.update_of_ne h _ _)

theorem pcbAt_setPcb (h : (K.pcbAt a).isSome) (p : PCB) : (K.setPcb a p).pcbAt a = some p := by
  unfold setPcb pcbAt
  dsimp only
  rw [Function.update_self]
  unfold pcbAt at h
  cases hn : K.node a with
  | none => simp [hn] at h
  | some n => rfl

theorem memGetValueAtLine_keeps {index : ℕ} {r : CString × Kernel ω} (h : K.memGetValueAtLine cfg index = some r) :
    r.2.mem = K.mem ∧ r.2.store = K.store ∧ r.2.node = K.node := by
  unfold memGetValueAtLine at h
  split_ifs at h
  obtain rfl := Option.some.inj h
  exact ⟨rfl,rfl,rfl⟩

theorem addToTail_keeps (h : K.readyQueueAddToTail a = some K') :
    K'.mem = K.mem ∧ K'.store = K.store ∧ K'.pcbAt = K.pcbAt := by
  unfold readyQueueAddToTail at h
  split at h
  · obtain rfl := Option.some.inj h
    exact ⟨rfl,rfl,funext fun b => pcbAt_setNext _ a b none⟩
  · obtain ⟨l,-,h⟩ := Option.bind_eq_some_iff.mp h
    obtain ⟨b,-,rfl⟩ := Option.map_eq_some_iff.mp h
    exact ⟨rfl,rfl,funext fun c => (pcbAt_setNext _ a c none).trans (pcbAt_setNext _ b c (some a))⟩

end Kernel

/-- The pages that are loaded hold the lines of the file. -/
def PagesHold (cfg : Config) (lines : List CString) (K : Kernel ω) (p : PCB) : Prop :=
  ∀ g, p.validPage g = true → ∃ i ∈ frames cfg, p.pageTable g = cfg.varMemSize + i ∧
    (K.mem (cfg.varMemSize + i)).var ≠ cstr "none" ∧
    ∀ j < 3, ∀ l, lines[3 * g + j]? = some l → (K.mem (cfg.varMemSize + i + j)).value = l

theorem PagesHold.keep (h : PagesHold cfg lines K p) (hk : K.KeepsFrames cfg K') : PagesHold cfg lines K' p := by
  intro g hg
  obtain ⟨i,hi,ht,hne,hl⟩ := h g hg
  have hvar := hk i hi hne 0 (Nat.succ_pos 2)
  rw [Nat.add_zero] at hvar
  refine ⟨i,hi,ht,by rwa [hvar],fun j hj l hjl => ?_⟩
  rw [hk i hi hne j hj]
  exact hl j hj l hjl

/-- The page of the lines that the process comes to is loaded. -/
theorem PagesHold.load {text : CString} {slot : ℕ} (h : PagesHold cfg (linesOf 10 text) K p)
    (hlines : ∀ l ∈ linesOf 10 text, l.length ≤ 99 ∧ 0 ∉ l) (hstore : K.store p.filename = text)
    (hname : p.filename ≠ cstr "none") (hpage : 3 * p.pc < (linesOf 10 text).length)
    (hs : K.findSpace cfg = some slot) (hr : K.replacePage cfg p p.pc = some (p',K')) :
    PagesHold cfg (linesOf 10 text) K' p' ∧ K'.store = K.store ∧ p'.progress = p.progress ∧ p'.filename = p.filename := by
  rw [Kernel.replacePage_of_space hs] at hr
  obtain ⟨rfl,rfl⟩ := Prod.mk.inj (Option.some.inj hr)
  obtain ⟨i,hi,rfl,hfree⟩ := Kernel.findSpace_spec hs
  have hkeep : K.KeepsFrames cfg (K.copyToMem cfg (p.pc * 3) p.filename (cfg.varMemSize + i)) :=
    Kernel.keepsFrames_copyToMem hi hfree
  refine ⟨fun g hg => ?_,rfl,rfl,rfl⟩
  have hcopy : ∀ t < 3, ∀ l, (linesOf 10 text)[3 * p.pc + t]? = some l →
      (K.copyToMem cfg (p.pc * 3) p.filename (cfg.varMemSize + i)).mem (cfg.varMemSize + i + t) = ⟨p.filename,l⟩ :=
    fun t ht l hl => Kernel.copyToMem_line hlines hstore ht hl
  by_cases hgp : g = p.pc
  · subst hgp
    refine ⟨i,hi,Function.update_self _ _ _,?_,fun t ht l hl => ?_⟩
    · have hfirst := hcopy 0 (Nat.succ_pos 2) _ (List.getElem?_eq_getElem hpage)
      rw [Nat.add_zero] at hfirst
      rw [hfirst]
      exact hname
    · rw [hcopy t ht l hl]
  · have hold : p.validPage g = true := by
      rw [← hg]
      exact (Function.update_of_ne hgp _ _).symm
    obtain ⟨i',hi',ht,hne,hl⟩ := h.keep hkeep g hold
    exact ⟨i',hi',(Function.update_of_ne hgp _ _).trans ht,hne,hl⟩

theorem turnPage_pages (p : PCB) : p.turnPage.filename = p.filename ∧ p.turnPage.validPage = p.validPage ∧
    p.turnPage.pageTable = p.pageTable ∧ p.turnPage.pc ≤ p.pc + 1 := by
  unfold PCB.turnPage
  split
  · exact ⟨rfl,rfl,rfl,le_rfl⟩
  · exact ⟨rfl,rfl,rfl,Nat.le_succ _⟩

theorem PagesHold.congr (h : PagesHold cfg lines K p) (hv : p'.validPage = p.validPage) (ht : p'.pageTable = p.pageTable) :
    PagesHold cfg lines K p' := by
  intro g hg
  rw [hv] at hg
  rw [ht]
  exact h g hg

/-! ### The life of the process -/

variable {filename text : CString} {pid : ℕ} {L : List CString}

/-- A round in which the process fetches a line. -/
theorem executeProcess_valid {left : ℕ} {rest : List Activation} {s : State ω} (hp : K.pcbAt pid = some p)
    (hvalid : p.validPage p.pc = true) (hs : executeProcess cfg K pid left rest = some s) :
    ∃ p', s.kernel.pcbAt pid = some p' ∧ s.kernel.mem = K.mem ∧ s.kernel.store = K.store ∧ p'.filename = p.filename ∧
      p'.validPage = p.validPage ∧ p'.pageTable = p.pageTable ∧ p'.pc ≤ p.pc + 1 ∧
      ∀ n k, Waits p.progress n k → Waits p'.progress n (k + 1) ∨ p'.atEnd = true ∧ k + 1 = n := by
  obtain ⟨n,hn,rfl⟩ := Option.map_eq_some_iff.mp hp
  rw [executeProcess,hn,Option.bind_some] at hs
  dsimp only at hs
  rw [if_pos hvalid] at hs
  obtain ⟨r,hr,hs⟩ := Option.map_eq_some_iff.mp hs
  obtain ⟨hmem,hstore,hnode⟩ := Kernel.memGetValueAtLine_keeps hr
  have hsome : ∀ q : PCB, (r.2.setPcb pid q).pcbAt pid = some q := fun q =>
    Kernel.pcbAt_setPcb (by rw [Kernel.pcbAt,hnode]; exact Option.isSome_iff_exists.mpr ⟨_,hp⟩) q
  by_cases hend : ({ n.pcb with offset := n.pcb.offset + 1 } : PCB).atEnd = true
  · rw [if_pos hend] at hs
    subst hs
    refine ⟨_,hsome _,hmem,hstore,rfl,rfl,rfl,Nat.le_succ _,fun m k hw => .inr ⟨hend,?_⟩⟩
    have hfetch := hw.fetch
    rw [if_pos hend] at hfetch
    exact hfetch.2
  · rw [if_neg hend] at hs
    subst hs
    obtain ⟨hname,hpages,htable,hpc⟩ := turnPage_pages { n.pcb with offset := n.pcb.offset + 1 }
    refine ⟨_,hsome _,hmem,hstore,hname,hpages,htable,hpc,fun m k hw => .inl ?_⟩
    have hfetch := hw.fetch
    rwa [if_neg hend] at hfetch

/-- A round in which it loads the page of its line. -/
theorem executeProcess_invalid {left slot : ℕ} {rest : List Activation} {s : State ω} (hp : K.pcbAt pid = some p)
    (hvalid : ¬ p.validPage p.pc = true) (hslot : K.findSpace cfg = some slot)
    (hs : executeProcess cfg K pid left rest = some s) :
    ∃ r, K.replacePage cfg p p.pc = some r ∧ s.kernel.pcbAt pid = some r.1 ∧ s.kernel.mem = r.2.mem ∧
      s.kernel.store = r.2.store := by
  obtain ⟨n,hn,rfl⟩ := Option.map_eq_some_iff.mp hp
  rw [executeProcess,hn,Option.bind_some] at hs
  dsimp only at hs
  rw [if_neg hvalid] at hs
  obtain ⟨r,hr,hs⟩ := Option.bind_eq_some_iff.mp hs
  obtain ⟨K₁,hK₁,rfl⟩ := Option.map_eq_some_iff.mp hs
  obtain ⟨hmem,hstore,hpcb⟩ := Kernel.addToTail_keeps hK₁
  refine ⟨r,hr,(congrFun hpcb pid).trans (Kernel.pcbAt_setPcb ?_ r.1),hmem,hstore⟩
  rw [Kernel.replacePage_of_space hslot] at hr
  obtain rfl := Option.some.inj hr
  exact Option.isSome_iff_exists.mpr ⟨_,hp⟩

/-- What holds of the process `p` once the lines `L` were executed. -/
structure Executed (cfg : Config) (filename text : CString) (pid : ℕ) (K : Kernel ω) (L : List CString) (p : PCB) : Prop where
  pcb : K.pcbAt pid = some p
  name : p.filename = backingName filename pid
  store : K.store (backingName filename pid) = text
  pages : PagesHold cfg (linesOf 10 text) K p
  upTo : L = (linesOf 10 text).take L.length
  next : Waits p.progress (linesOf 10 text).length L.length ∨ p.atEnd = true ∧ L.length = (linesOf 10 text).length

theorem take_snoc {l : CString} (h : L = lines.take L.length) (hl : lines[L.length]? = some l) :
    L ++ [l] = lines.take (L ++ [l]).length := by
  rw [List.length_append,List.length_singleton,List.take_add_one,← h,hl]
  rfl

theorem atEnd_of_waits {n k : ℕ} (h : Waits p.progress n k) : p.atEnd = false := by
  obtain ⟨hn,hpages,-,hk,-,hlt⟩ := h
  dsimp only [PCB.progress] at hn hpages hk
  rw [PCB.atEnd,Bool.and_eq_false_iff,beq_eq_false_iff_ne,beq_eq_false_iff_ne]
  omega

theorem backingName_ne (filename : CString) (pid : ℕ) : backingName filename pid ≠ cstr "none" := by
  intro h
  have hhead := congrArg List.head? h
  exact absurd hhead (by simp [backingName,cstr])

namespace Executed

theorem other (h : Executed cfg filename text pid K L p) (hpcb : K'.pcbAt pid = K.pcbAt pid) (hmem : K.KeepsFrames cfg K')
    (hstore : K'.store (backingName filename pid) = K.store (backingName filename pid)) :
    Executed cfg filename text pid K' L p :=
  ⟨hpcb.trans h.pcb,h.name,hstore.trans h.store,h.pages.keep hmem,h.upTo,h.next⟩

/-- The line at which a process waits is the next one of the file. -/
theorem currentLine (h : Executed cfg filename text pid K L p) (hw : Waits p.progress (linesOf 10 text).length L.length)
    (hvalid : p.validPage p.pc = true) :
    some (K.mem (p.pageTable p.pc + p.offset)).value = (linesOf 10 text)[L.length]? := by
  obtain ⟨-,-,-,hk,hoff,hlt⟩ := hw
  dsimp only [PCB.progress] at hk hoff
  obtain ⟨i,-,ht,-,hl⟩ := h.pages p.pc hvalid
  have hline := List.getElem?_eq_getElem hlt
  rw [ht,hline,hl p.offset hoff _ (by rw [hk]; exact hline)]

/-- A step executes the next line, or loads its page. -/
theorem step {left : ℕ} {rest : List Activation} {s : State ω} (h : Executed cfg filename text pid K L p)
    (hlines : ∀ l ∈ linesOf 10 text, l.length ≤ 99 ∧ 0 ∉ l) (hmore : p.atEnd = false)
    (hspace : K.currentLine pid = none → K.findSpace cfg ≠ none) (hs : executeProcess cfg K pid left rest = some s) :
    ∃ p', Executed cfg filename text pid s.kernel (L ++ (K.currentLine pid).toList) p' := by
  have hw : Waits p.progress (linesOf 10 text).length L.length := by
    rcases h.next with hw | hw
    · exact hw
    · exact absurd hw.1 (by rw [hmore]; exact Bool.false_ne_true)
  have hline : K.currentLine pid = if p.validPage p.pc then some (K.mem (p.pageTable p.pc + p.offset)).value else none := by
    rw [Kernel.currentLine,h.pcb]
    rfl
  by_cases hvalid : p.validPage p.pc = true
  · rw [if_pos hvalid] at hline
    obtain ⟨p',hp',hmem,hstore,hname,hpages,htable,-,hnext⟩ := executeProcess_valid h.pcb hvalid hs
    obtain ⟨l,hnth⟩ : ∃ l, (linesOf 10 text)[L.length]? = some l := ⟨_,List.getElem?_eq_getElem hw.lt⟩
    have htake := take_snoc h.upTo hnth
    rw [← h.currentLine hw hvalid,← hline] at hnth
    rw [hnth,Option.toList_some]
    have hlen : (L ++ [l]).length = L.length + 1 := List.length_append
    refine ⟨p',hp',hname.trans h.name,(congrFun hstore _).trans h.store,?_,htake,hlen ▸ hnext _ _ hw⟩
    exact (h.pages.keep (Kernel.keepsFrames_of_mem hmem)).congr hpages htable
  · -- the page of the next line is put into a free frame
    rw [if_neg hvalid] at hline
    obtain ⟨slot,hslot⟩ := Option.ne_none_iff_exists'.mp (hspace hline)
    obtain ⟨r,hr,hpcb,hmem,hstore⟩ := executeProcess_invalid h.pcb hvalid hslot hs
    have hpage : 3 * p.pc < (linesOf 10 text).length := by
      have hk : 3 * p.pc + p.offset = L.length := hw.fetched
      exact (Nat.le_add_right _ _).trans_lt (hk ▸ hw.lt)
    obtain ⟨hpages,hst,hprog,hname⟩ := h.pages.load hlines (h.name ▸ h.store)
      (h.name ▸ backingName_ne filename pid) hpage hslot hr
    rw [hline,Option.toList_none,List.append_nil]
    refine ⟨r.1,hpcb,hname.trans h.name,?_,hpages.keep (Kernel.keepsFrames_of_mem hmem),h.upTo,.inl (hprog.symm ▸ hw)⟩
    exact (congrFun hstore _).trans ((congrFun hst _).trans h.store)

end Executed

/-! ### Starting the process -/

theorem findSpace_of_free {i : ℕ} (hi : i ∈ frames cfg) (hfree : (K.mem (cfg.varMemSize + i)).var = cstr "none") :
    ∃ slot, K.findSpace cfg = some slot :=
  Option.ne_none_iff_exists'.mp fun h => Kernel.used_of_full h hi hfree

/-- Of two free frames one is left. -/
theorem space_of_load {i j slot : ℕ} (hi : i ∈ frames cfg) (hj : j ∈ frames cfg)
    (hfi : (K.mem (cfg.varMemSize + i)).var = cstr "none") (hfj : (K.mem (cfg.varMemSize + j)).var = cstr "none")
    (hne : i ≠ j) (hs : K.findSpace cfg = some slot) (hr : K.replacePage cfg p page = some (p',K')) :
    ∃ slot', K'.findSpace cfg = some slot' := by
  rw [Kernel.replacePage_of_space hs] at hr
  obtain ⟨-,rfl⟩ := Prod.mk.inj (Option.some.inj hr)
  obtain ⟨a,ha,rfl,-⟩ := Kernel.findSpace_spec hs
  have hother : ∀ c ∈ frames cfg, c ≠ a → (K.mem (cfg.varMemSize + c)).var = cstr "none" →
      ((K.copyToMem cfg (p.pc * 3) p.filename (cfg.varMemSize + a)).mem (cfg.varMemSize + c)).var = cstr "none" := by
    intro c hc hca hfree
    have hmod := (mem_frames.mp hc).2
    have hmod' := (mem_frames.mp ha).2
    rw [← hfree]
    exact congrArg Pager.Cell.var (copyLines_of_not_mem p.filename 3 _ _ _ (by omega))
  by_cases hia : i = a
  · exact findSpace_of_free hj (hother j hj (fun h => hne (hia.trans h.symm)) hfj)
  · exact findSpace_of_free hi (hother i hi hia hfi)

theorem loadFile_pages {r : PCB × Kernel ω} (hpc : p.pc = 0) (hnone : ∀ g, p.validPage g = false)
    (hlines : ∀ l ∈ linesOf 10 text, l.length ≤ 99 ∧ 0 ∉ l) (hstore : K.store p.filename = text)
    (hname : p.filename ≠ cstr "none") (hfirst : 0 < (linesOf 10 text).length)
    (hsecond : 1 < p.pageCount → 3 < (linesOf 10 text).length) (hspace : K.HasSpace cfg p.pageCount)
    (h : K.loadFile cfg p = some r) :
    PagesHold cfg (linesOf 10 text) r.2 r.1 ∧ r.2.store = K.store ∧ r.1.filename = p.filename := by
  obtain ⟨i,hi,j,hj,hfi,hfj,hne⟩ := hspace
  obtain ⟨slot,hslot⟩ := findSpace_of_free hi hfi
  obtain ⟨r₁,h1,h⟩ := Option.bind_eq_some_iff.mp h
  rw [← hpc] at h1
  have hstart : PagesHold cfg (linesOf 10 text) K p := fun g hg => absurd hg (by rw [hnone g]; exact Bool.false_ne_true)
  obtain ⟨hpages,hst,hprog,hfile⟩ := hstart.load hlines hstore hname (by rw [hpc]; exact hfirst) hslot h1
  have hcount : r₁.1.pageCount = p.pageCount := congrArg Progress.pageCount hprog
  split_ifs at h with hmany
  · obtain ⟨r₂,h2,rfl⟩ := Option.map_eq_some_iff.mp h
    rw [hcount] at hmany
    obtain ⟨slot',hslot'⟩ := space_of_load hi hj hfi hfj (hne hmany) hslot h1
    have hpages₁ : PagesHold cfg (linesOf 10 text) r₁.2 { r₁.1 with pc := 1 } := hpages.congr rfl rfl
    obtain ⟨hpages₂,hst₂,-,hfile₂⟩ := hpages₁.load hlines
      ((congrArg r₁.2.store hfile).trans ((congrFun hst _).trans hstore)) (fun h => hname (hfile.symm.trans h))
      (hsecond hmany) hslot' h2
    exact ⟨hpages₂.congr rfl rfl,hst₂.trans hst,hfile₂.trans hfile⟩
  · obtain rfl := Option.some.inj h
    exact ⟨hpages,hst,hfile⟩

theorem two_pages {n : ℕ} (h : 1 < pageCountOf n) : 3 < n := by
  have hcount : pageCountOf n = n / 3 + if offsetEndOf n = 3 then 0 else 1 := rfl
  have hoff : offsetEndOf n = if n % 3 = 0 then 3 else n % 3 := rfl
  rw [hcount,hoff] at h
  split_ifs at h <;> omega

theorem Executed.start (hpid : K.pidCounter = pid) (hspace : K.HasSpace cfg (pageCountOf (lineCount text)))
    (hclean : Clean text) (hlines : ∀ l ∈ linesOf 10 text, l.length ≤ 99 ∧ 0 ∉ l)
    (h : K.enqueue cfg filename text = some K') : ∃ p, Executed cfg filename text pid K' [] p := by
  subst hpid
  have hcount := hclean.lineCount_eq
  have hpos : 0 < (linesOf 10 text).length := hcount ▸ (waits_start text).lt
  have hcopy : Function.update K.store (backingName filename K.pidCounter) (copyText text)
      (backingName filename K.pidCounter) = text := by rw [Function.update_self,copyText_of_not_mem hclean.no_eof]
  obtain ⟨r,hr,he⟩ := Option.bind_eq_some_iff.mp h
  obtain ⟨-,hprog⟩ := Kernel.loadFile_spec rfl hr
  obtain ⟨hpages,hstore,hname⟩ := loadFile_pages rfl (fun _ => rfl) hlines hcopy (backingName_ne filename K.pidCounter) hpos
    (fun hmany => hcount ▸ two_pages hmany) hspace hr
  obtain ⟨hmem',hstore',hpcb'⟩ := Kernel.addToTail_keeps he
  refine ⟨r.1,?_,hname,?_,hpages.keep (Kernel.keepsFrames_of_mem hmem'),rfl,.inl ?_⟩
  · have hnode : Function.update r.2.node K.pidCounter (some ⟨r.1,none⟩) K.pidCounter = some ⟨r.1,none⟩ := by
      rw [Function.update_self]
    rw [hpcb']
    exact congrArg (Option.map QueueNode.pcb) hnode
  · rw [hstore']
    exact (congrFun hstore _).trans hcopy
  · rw [hprog,← hcount]
    exact waits_start text

/-- In every life of the process the lines executed are the first of the file. -/
theorem Life.executed (h : Life cfg filename text pid K L) (hclean : Clean text) (hnul : 0 ∉ text) :
    ∃ p, Executed cfg filename text pid K L p := by
  have hlines : ∀ l ∈ linesOf 10 text, l.length ≤ 99 ∧ 0 ∉ l := fun l hl =>
    ⟨hclean.short l hl,fun h0 => hnul (flatten_linesOf 10 text ▸ List.mem_flatten_of_mem hl h0)⟩
  induction h with
  | start hpid hspace h => exact Executed.start hpid hspace hclean hlines h
  | step h hmore hspace hs ih =>
    obtain ⟨p,hp⟩ := ih
    exact hp.step hlines (hmore p hp.pcb) hspace hs
  | other h hpcb hmem hstore ih =>
    obtain ⟨p,hp⟩ := ih
    exact ⟨p,hp.other hpcb hmem hstore⟩

theorem executesLines_of_clean (hclean : Clean text) (hnul : 0 ∉ text) : ExecutesLines cfg filename text pid K L := by
  intro h
  obtain ⟨p,hp⟩ := h.executed hclean hnul
  refine ⟨p,hp.pcb,hp.upTo ▸ List.take_prefix _ _,fun hend => ?_,fun hall => ?_⟩
  · rcases hp.next with hw | hw
    · exact absurd hend (by rw [atEnd_of_waits hw]; exact Bool.false_ne_true)
    · rw [hp.upTo,hw.2,List.take_length]
  · rcases hp.next with hw | hw
    · exact absurd (congrArg List.length hall) hw.lt.ne
    · exact hw.1

end ShellOS.Ready
