import ShellOS.Ready.Script

/-! A script that is executed to its end by a shell that does nothing else. -/
namespace ShellOS.Ready
open CLib Lines
open Pager (Memory fgets fgets_spec emptyCell)

/-- What can be the line of a slot. -/
def Fetched (l : CString) : Prop := l.length ≤ 99 ∧ 255 ∉ l

theorem fetched_none : Fetched (cstr "none") := ⟨by decide,by decide⟩

theorem not_mem_fgets {c : UInt8} {s : CString} (h : c ∉ s) (n : ℕ) : c ∉ (fgets n s).1 ∧ c ∉ (fgets n s).2 := by
  rw [← (fgets_spec n s).2,List.mem_append,not_or] at h
  exact h

theorem not_mem_skipLines {c : UInt8} : ∀ (n : ℕ) (s : CString), c ∉ s → c ∉ skipLines n s := by
  intro n
  induction n with
  | zero => exact fun s h => h
  | succ n ih => exact fun s h => ih _ (not_mem_fgets h 99).2

theorem copyLines_fetched (name : CString) : ∀ (n j : ℕ) (s : CString) (m : Memory), 255 ∉ s →
    (∀ k, Fetched (m k).value) → ∀ k, Fetched (copyLines name n j s m k).value := by
  intro n
  induction n with
  | zero => exact fun j s m _ hm => hm
  | succ n ih =>
    intro j s m hs hm
    refine ih (j + 1) _ _ (not_mem_fgets hs 99).2 fun k => ?_
    split
    · exact hm k
    · by_cases hk : k = j
      · rw [hk,Function.update_self]
        have hsub : (fgets 99 s).1.takeWhile (· != 0) <+: (fgets 99 s).1 := List.takeWhile_prefix _
        exact ⟨hsub.length_le.trans (fgets_spec 99 s).1,fun h => (not_mem_fgets hs 99).1 (hsub.subset h)⟩
      · rw [Function.update_of_ne hk]
        exact hm k

theorem not_mem_copyText (text : CString) : 255 ∉ copyText text := by
  intro h
  have hne := List.mem_takeWhile_imp h
  exact absurd hne (by decide)

section
variable {ω : Type} {cfg : Config} {K K' : Kernel ω} {p p' : PCB} {filename text : CString} {pid : ℕ} {L : List CString}

/-- The first `v` pages of the process were loaded, and the frames from there on are free. -/
structure Room (cfg : Config) (v : ℕ) (K : Kernel ω) (p : PCB) : Prop where
  fetched : ∀ k, Fetched (K.mem k).value
  valid : ∀ g, p.validPage g = true ↔ g < v
  inside : ∀ g, p.validPage g = true → p.pageTable g + 3 ≤ cfg.shellMemLength
  free : ∀ i ∈ frames cfg, 3 * v ≤ i → (K.mem (cfg.varMemSize + i)).var = cstr "none"

/-- The next page is loaded into the first free frame. -/
theorem Room.load {v m : ℕ} (h : Room cfg v K p) (hcfg : cfg.frameSize = 3 * m) (hv : v < m) (hs : 255 ∉ K.store p.filename) :
    ∃ slot p' K', K.findSpace cfg = some slot ∧ K.replacePage cfg p v = some (p',K') ∧ Room cfg (v + 1) K' p' ∧
      K'.store = K.store ∧ K'.node = K.node ∧ K'.head = K.head ∧ p'.progress = p.progress ∧ p'.filename = p.filename := by
  have hframe : 3 * v ∈ frames cfg := mem_frames.mpr ⟨by omega,by omega⟩
  obtain ⟨slot,hslot⟩ := findSpace_of_free hframe (h.free _ hframe le_rfl)
  obtain ⟨a,ha,rfl,hfa⟩ := Kernel.findSpace_spec hslot
  have hmod := mem_frames.mp ha
  -- the frame found is not behind the one that is known to be free
  have hle : a ≤ 3 * v := by
    by_contra hlt
    have hfirst := (List.find?_range_eq_some.mp hslot).2.2 (cfg.varMemSize + 3 * v) (by omega)
    simp [h.free _ hframe le_rfl] at hfirst
  refine ⟨_,_,_,hslot,Kernel.replacePage_of_space hslot,⟨?_,fun g => ?_,fun g hg => ?_,fun i hi hle' => ?_⟩,
    rfl,rfl,rfl,rfl,rfl⟩
  · exact copyLines_fetched _ 3 _ _ _ (not_mem_skipLines _ _ hs) h.fetched
  · by_cases hgv : g = v
    · rw [hgv]
      exact iff_of_true (Function.update_self _ _ _) (Nat.lt_succ_self v)
    · have hold : Function.update p.validPage v true g = p.validPage g := Function.update_of_ne hgv _ _
      change Function.update p.validPage v true g = true ↔ _
      rw [hold,h.valid g]
      omega
  · by_cases hgv : g = v
    · subst hgv
      have htable : Function.update p.pageTable g (cfg.varMemSize + a) g = cfg.varMemSize + a := Function.update_self _ _ _
      change Function.update p.pageTable g (cfg.varMemSize + a) g + 3 ≤ cfg.varMemSize + cfg.frameSize
      rw [htable]
      omega
    · have hold : p.validPage g = true := hg ▸ (Function.update_of_ne hgv _ _).symm
      have htable : Function.update p.pageTable v (cfg.varMemSize + a) g = p.pageTable g := Function.update_of_ne hgv _ _
      change Function.update p.pageTable v (cfg.varMemSize + a) g + 3 ≤ _
      rw [htable]
      exact h.inside g hold
  · rw [← h.free i hi (by omega)]
    exact congrArg Pager.Cell.var (copyLines_of_not_mem p.filename 3 _ _ _ (by omega))

theorem Room.congr {v : ℕ} (h : Room cfg v K p) (hmem : K'.mem = K.mem) (hv : p'.validPage = p.validPage)
    (ht : p'.pageTable = p.pageTable) : Room cfg v K' p' :=
  ⟨hmem ▸ h.fetched,hv ▸ h.valid,ht ▸ hv ▸ h.inside,hmem ▸ h.free⟩

/-- What holds of the only process. -/
structure Alone (cfg : Config) (filename text : CString) (pid v : ℕ) (K : Kernel ω) (L : List CString) (p : PCB) : Prop where
  pcb : K.pcbAt pid = some p
  name : p.filename = backingName filename pid
  store : K.store (backingName filename pid) = copyText text
  room : Room cfg v K p
  pc : p.pc ≤ v
  lines : ∀ l ∈ L, Fetched l
  next : Waits p.progress (lineCount text) L.length ∨ p.atEnd = true ∧ L.length = lineCount text

theorem addToTail_of_empty (h : K.head = none) (a : ℕ) : K.readyQueueAddToTail a = some ({ K with head := some a }.setNext a none) := by
  rw [Kernel.readyQueueAddToTail,h]

/-- The pages of a script that has just been copied. -/
theorem exists_loadFile {m : ℕ} (hcfg : cfg.frameSize = 3 * m) (hpages : p.pageCount < m) (hpos : 0 < p.pageCount)
    (hs : 255 ∉ K.store p.filename) (hroom : Room cfg 0 K p) :
    ∃ v r, K.loadFile cfg p = some r ∧ Room cfg v r.2 r.1 ∧ r.2.store = K.store ∧ r.2.head = K.head ∧
      r.1.filename = p.filename := by
  obtain ⟨slot,p₁,K₁,-,h1,hroom₁,hst,-,hhead,hprog,hname⟩ := hroom.load hcfg (by omega) hs
  have hcount : p₁.pageCount = p.pageCount := congrArg Progress.pageCount hprog
  by_cases hmany : 1 < p₁.pageCount
  · have hroom' : Room cfg 1 K₁ { p₁ with pc := 1 } := hroom₁.congr rfl rfl rfl
    have hs' : 255 ∉ K₁.store p₁.filename := by rwa [hst,hname]
    obtain ⟨slot',p₂,K₂,-,h2,hroom₂,hst₂,-,hhead₂,-,hname₂⟩ := hroom'.load hcfg (by omega) hs'
    refine ⟨2,({ p₂ with pc := 0 },K₂),?_,hroom₂.congr rfl rfl rfl,hst₂.trans hst,hhead₂.trans hhead,hname₂.trans hname⟩
    rw [Kernel.loadFile,h1,Option.bind_some]
    dsimp only
    rw [if_pos hmany,h2]
    rfl
  · refine ⟨1,(p₁,K₁),?_,hroom₁,hst,hhead,hname⟩
    rw [Kernel.loadFile,h1,Option.bind_some]
    dsimp only
    rw [if_neg hmany]

theorem exists_start {m : ℕ} (w : ω) (filename : CString) (hcfg : cfg.frameSize = 3 * m) (hm : pageCountOf (lineCount text) < m) :
    ∃ (v : ℕ) (K : Kernel ω) (p : PCB), Life cfg filename text 1 K [] ∧ Alone cfg filename text 1 v K [] p := by
  have hpages : 0 < pageCountOf (lineCount text) := (waits_start text).pages
  have hnone : ∀ k, ((Kernel.start w).mem k).var = cstr "none" := fun _ => rfl
  have hspace : (Kernel.start w).HasSpace cfg (pageCountOf (lineCount text)) :=
    ⟨0,mem_frames.mpr ⟨by omega,rfl⟩,3,mem_frames.mpr ⟨by omega,rfl⟩,hnone _,hnone _,fun _ => by decide⟩
  have hcopy : Function.update (Kernel.start w).store (backingName filename 1) (copyText text) (backingName filename 1) =
      copyText text := by rw [Function.update_self]
  let K₀ : Kernel ω := { Kernel.start w with
    store := Function.update (Kernel.start w).store (backingName filename 1) (copyText text)
    pidCounter := 2 }
  let p₀ := makePCB 1 (pageCountOf (lineCount text)) (offsetEndOf (lineCount text)) (backingName filename 1)
  have hroom₀ : Room cfg 0 K₀ p₀ :=
    ⟨fun _ => fetched_none,fun g => iff_of_false Bool.false_ne_true (Nat.not_lt_zero g),fun g hg => Bool.noConfusion hg,fun _ _ _ => rfl⟩
  have heof : 255 ∉ Function.update (Kernel.start w).store (backingName filename 1) (copyText text) (backingName filename 1) := by
    rw [hcopy]
    exact not_mem_copyText text
  obtain ⟨v,r,hr,hroom,hst,hhead,hname⟩ := exists_loadFile hcfg hm hpages heof hroom₀
  obtain ⟨-,hprog⟩ := Kernel.loadFile_spec rfl hr
  let K₁ : Kernel ω := { r.2 with
    node := Function.update r.2.node 1 (some ⟨r.1,none⟩)
    log := r.2.log ++ [.queued 1 text] }
  have hadd := addToTail_of_empty (K := K₁) hhead 1
  obtain ⟨hmem,hstore,hpcb⟩ := Kernel.addToTail_keeps hadd
  have henq : (Kernel.start w).enqueue cfg filename text = some ({ K₁ with head := some 1 }.setNext 1 none) := by
    change (K₀.loadFile cfg p₀).bind _ = _
    rw [hr]
    exact hadd
  have hnode : Function.update r.2.node 1 (some ⟨r.1,none⟩) 1 = some ⟨r.1,none⟩ := by rw [Function.update_self]
  refine ⟨v,_,r.1,.start rfl hspace henq,?_,hname,?_,hroom.congr hmem rfl rfl,?_,nofun,.inl ?_⟩
  · rw [hpcb]
    exact congrArg (Option.map QueueNode.pcb) hnode
  · rw [hstore]
    exact (congrFun hst _).trans hcopy
  · have hpc : r.1.pc = 0 := congrArg Progress.pc hprog
    rw [hpc]
    exact Nat.zero_le v
  · rw [hprog]
    exact waits_start text

theorem lt_pageCountOf {v n : ℕ} (h : 3 * v < n) : v < pageCountOf n := by
  have hcount : pageCountOf n = n / 3 + if offsetEndOf n = 3 then 0 else 1 := rfl
  have hoff : offsetEndOf n = if n % 3 = 0 then 3 else n % 3 := rfl
  rw [hcount,hoff]
  split_ifs <;> omega

/-- The page of the next line is loaded. -/
theorem exists_loaded {v m : ℕ} (hcfg : cfg.frameSize = 3 * m) (hm : pageCountOf (lineCount text) < m)
    (hl : Life cfg filename text pid K L) (h : Alone cfg filename text pid v K L p)
    (hw : Waits p.progress (lineCount text) L.length) :
    ∃ (v : ℕ) (K' : Kernel ω) (p' : PCB), Life cfg filename text pid K' L ∧ Alone cfg filename text pid v K' L p' ∧
      Waits p'.progress (lineCount text) L.length ∧ p'.validPage p'.pc = true := by
  by_cases hvalid : p.validPage p.pc = true
  · exact ⟨v,K,p,hl,h,hw,hvalid⟩
  -- the process has been taken from the queue
  let K₁ : Kernel ω := { K with head := none }
  have hpcb₁ : K₁.pcbAt pid = some p := h.pcb
  have hl₁ : Life cfg filename text pid K₁ L := hl.other rfl (Kernel.keepsFrames_of_mem rfl) rfl
  have hroom₁ : Room cfg v K₁ p := h.room.congr rfl rfl rfl
  have hpc : p.pc = v := by
    refine le_antisymm h.pc (not_lt.mp fun hlt => hvalid ((h.room.valid _).mpr hlt))
  have hv : v < m := by
    have hk : 3 * p.pc + p.offset = L.length := hw.fetched
    have hlt := hw.lt
    exact (lt_pageCountOf (n := lineCount text) (by omega)).trans hm
  have heof : 255 ∉ K₁.store p.filename := by
    have hcopy : K.store p.filename = copyText text := h.name ▸ h.store
    exact hcopy ▸ not_mem_copyText text
  obtain ⟨slot,p',K',hslot,hr,hroom',hst,hnode,hhead,hprog,hname⟩ := hroom₁.load hcfg hv heof
  rw [← hpc] at hr
  obtain ⟨n,hn,hnp⟩ := Option.map_eq_some_iff.mp hpcb₁
  have hadd := addToTail_of_empty (K := K'.setPcb pid p') hhead pid
  have hs : ∃ s, executeProcess cfg K₁ pid 0 [] = some s := by
    rw [executeProcess,hn,Option.bind_some,hnp]
    dsimp only
    rw [if_neg hvalid,hr,Option.bind_some,hadd]
    exact ⟨_,rfl⟩
  obtain ⟨s,hs⟩ := hs
  have hline : K₁.currentLine pid = none := by
    rw [Kernel.currentLine,hpcb₁,Option.bind_some,if_neg hvalid]
  have hlife := hl₁.step (fun q hq => Option.some.inj (hpcb₁.symm.trans hq) ▸ atEnd_of_waits hw)
    (fun _ => Option.ne_none_iff_exists'.mpr ⟨slot,hslot⟩) hs
  rw [hline,Option.toList_none,List.append_nil] at hlife
  obtain ⟨r,hr',hpcb,hmem,hstore⟩ := executeProcess_invalid hpcb₁ hvalid hslot hs
  obtain rfl := Option.some.inj (hr.symm.trans hr')
  have hwaits : Waits p'.progress (lineCount text) L.length := hprog.symm ▸ hw
  have hpc' : p'.pc = p.pc := congrArg Progress.pc hprog
  refine ⟨v + 1,s.kernel,p',hlife,⟨hpcb,hname.trans h.name,?_,hroom'.congr hmem rfl rfl,?_,h.lines,.inl hwaits⟩,hwaits,?_⟩
  · exact (congrFun hstore _).trans ((congrFun hst _).trans h.store)
  · rw [hpc',hpc]
    exact Nat.le_succ v
  · exact (hroom'.valid _).mpr (by omega)

/-- One more line is fetched. -/
theorem exists_step {v m : ℕ} (hcfg : cfg.frameSize = 3 * m) (hm : pageCountOf (lineCount text) < m)
    (hl : Life cfg filename text pid K L) (h : Alone cfg filename text pid v K L p) (hlt : L.length < lineCount text) :
    ∃ (v : ℕ) (K' : Kernel ω) (l : CString) (p' : PCB), Life cfg filename text pid K' (L ++ [l]) ∧
      Alone cfg filename text pid v K' (L ++ [l]) p' := by
  have hw : Waits p.progress (lineCount text) L.length := h.next.resolve_right fun hend => hlt.ne hend.2
  obtain ⟨v,K,p,hl,h,hw,hvalid⟩ := exists_loaded hcfg hm hl h hw
  obtain ⟨n,hn,hnp⟩ := Option.map_eq_some_iff.mp h.pcb
  have hindex : ¬ cfg.shellMemLength < p.pageTable p.pc + p.offset := by
    have hin := h.room.inside p.pc hvalid
    have hoff : p.offset < 3 := hw.offset
    omega
  have hs : ∃ s, executeProcess cfg K pid 0 [] = some s := by
    rw [executeProcess,hn,Option.bind_some,hnp]
    dsimp only
    rw [if_pos hvalid,Kernel.memGetValueAtLine,if_neg hindex]
    exact ⟨_,rfl⟩
  obtain ⟨s,hs⟩ := hs
  have hline : K.currentLine pid = some (K.mem (p.pageTable p.pc + p.offset)).value := by
    rw [Kernel.currentLine,h.pcb,Option.bind_some,if_pos hvalid]
  have hlife := hl.step (fun q hq => Option.some.inj (h.pcb.symm.trans hq) ▸ atEnd_of_waits hw)
    (fun hnone => absurd hnone (by rw [hline]; exact Option.some_ne_none _)) hs
  rw [hline,Option.toList_some] at hlife
  obtain ⟨p',hp',hmem,hstore,hname,hpages,htable,hpc,hnext⟩ := executeProcess_valid h.pcb hvalid hs
  refine ⟨v,s.kernel,_,p',hlife,hp',hname.trans h.name,(congrFun hstore _).trans h.store,h.room.congr hmem hpages htable,?_,?_,?_⟩
  · exact hpc.trans ((h.room.valid _).mp hvalid)
  · exact List.forall_mem_append.mpr ⟨h.lines,List.forall_mem_singleton.mpr (h.room.fetched _)⟩
  · rw [List.length_append,List.length_singleton]
    exact hnext _ _ hw

/-- The script is executed to its end. -/
theorem exists_life {m : ℕ} (w : ω) (filename : CString) (hcfg : cfg.frameSize = 3 * m) (hm : pageCountOf (lineCount text) < m) :
    ∀ k ≤ lineCount text, ∃ (v : ℕ) (K : Kernel ω) (L : List CString) (p : PCB), L.length = k ∧
      Life cfg filename text 1 K L ∧ Alone cfg filename text 1 v K L p := by
  intro k
  induction k with
  | zero =>
    intro _
    obtain ⟨v,K,p,hl,h⟩ := exists_start w filename hcfg hm
    exact ⟨v,K,[],p,rfl,hl,h⟩
  | succ k ih =>
    intro hk
    obtain ⟨v,K,L,p,hlen,hl,h⟩ := ih (Nat.le_of_succ_le hk)
    obtain ⟨v',K',l,p',hl',h'⟩ := exists_step hcfg hm hl h (hlen ▸ hk)
    exact ⟨v',K',L ++ [l],p',by rw [List.length_append,hlen]; rfl,hl',h'⟩

end

/-- What is executed to the end like the file has been read as it was counted. -/
theorem clean_of_lines {text : CString} (h : ∀ l ∈ linesOf 10 text, Fetched l) (hlen : (linesOf 10 text).length = lineCount text) :
    Clean text := by
  have heof : 255 ∉ text := by
    intro hmem
    rw [← flatten_linesOf 10 text] at hmem
    obtain ⟨l,hl,hc⟩ := List.mem_flatten.mp hmem
    exact (h l hl).2 hc
  have hended : ¬ (text = [] ∨ text.getLast? = some 10) := by
    intro hend
    rw [length_linesOf,if_pos hend,lineCount,copyText_of_not_mem heof] at hlen
    omega
  exact ⟨heof,fun h => hended (.inl h),fun h => hended (.inr h),fun l hl => (h l hl).1⟩

/-- The process of a script executes the lines of the file, in every life, just when the file is not empty,
ends without an end of line, has lines of at most 99 bytes and no byte 255. -/
theorem executesLines_iff {ω : Type} [Inhabited ω] (text : CString) (hnul : 0 ∉ text) :
    (∀ (cfg : Config) (filename : CString) (pid : ℕ) (K : Kernel ω) (L : List CString),
      ExecutesLines cfg filename text pid K L) ↔ Clean text := by
  constructor
  · intro h
    let cfg : Config := ⟨0,3 * (pageCountOf (lineCount text) + 1)⟩
    have hcfg : cfg.frameSize = 3 * (pageCountOf (lineCount text) + 1) := rfl
    obtain ⟨v,K,L,p,hlen,hl,ha⟩ := exists_life (default : ω) [] hcfg (Nat.lt_succ_self _) (lineCount text) le_rfl
    obtain ⟨q,hq,-,hend⟩ := h _ _ _ _ _ hl
    obtain rfl := Option.some.inj (ha.pcb.symm.trans hq)
    have hdone : p.atEnd = true := by
      rcases ha.next with hw | hw
      · exact absurd hlen hw.lt.ne
      · exact hw.1
    have hlines := hend.mp hdone
    exact clean_of_lines (hlines ▸ ha.lines) (hlines ▸ hlen)
  · exact fun hclean cfg filename pid K L => executesLines_of_clean hclean hnul

/-! ### With and without an end of line -/

/-- The shell once a script was put into the queue. -/
def queued (text : CString) : Kernel Unit := ((Kernel.start ()).enqueue ⟨0,6⟩ (cstr "f") text).getD (Kernel.start ())

/-- What a round of the only process leaves. -/
def nextRound (K : Kernel Unit) : Kernel Unit := ((executeProcess ⟨0,6⟩ K 1 0 []).map State.kernel).getD K

theorem life_nextRound {text : CString} {K : Kernel Unit} {L : List CString} (h : Life ⟨0,6⟩ (cstr "f") text 1 K L)
    (hmore : ((K.pcbAt 1).all fun p => !p.atEnd) = true) (hline : (K.currentLine 1).isSome)
    (hs : (executeProcess ⟨0,6⟩ K 1 0 []).isSome) :
    Life ⟨0,6⟩ (cstr "f") text 1 (nextRound K) (L ++ (K.currentLine 1).toList) := by
  obtain ⟨s,hs⟩ := Option.isSome_iff_exists.mp hs
  have hkernel : nextRound K = s.kernel := by rw [nextRound,hs]; rfl
  rw [hkernel]
  refine h.step (fun p hp => ?_) (fun hnone => ?_) hs
  · rw [hp,Option.all_some,Bool.not_eq_true'] at hmore
    exact hmore
  · rw [hnone] at hline
    cases hline

theorem life_queued {text : CString}
    (h : ((Kernel.start ()).enqueue ⟨0,6⟩ (cstr "f") text).isSome) : Life ⟨0,6⟩ (cstr "f") text 1 (queued text) [] := by
  obtain ⟨K,hK⟩ := Option.isSome_iff_exists.mp h
  have hspace : (Kernel.start ()).HasSpace ⟨0,6⟩ (pageCountOf (lineCount text)) :=
    ⟨0,by decide,3,by decide,rfl,rfl,fun _ => by decide⟩
  refine .start rfl hspace ?_
  rw [queued,hK]
  rfl

theorem executesLines_ls : Life ⟨0,6⟩ (cstr "f") (cstr "ls") 1 (nextRound (queued (cstr "ls"))) [cstr "ls"] ∧
    ExecutesLines ⟨0,6⟩ (cstr "f") (cstr "ls") 1 (nextRound (queued (cstr "ls"))) [cstr "ls"] := by
  have hstart : Life ⟨0,6⟩ (cstr "f") (cstr "ls") 1 (queued (cstr "ls")) [] := life_queued (by decide)
  have hlife := life_nextRound hstart (by decide) (by decide) (by decide)
  have hlines : [] ++ ((queued (cstr "ls")).currentLine 1).toList = [cstr "ls"] := by decide
  rw [hlines] at hlife
  exact ⟨hlife,(executesLines_iff (cstr "ls") (by decide)).mpr ⟨by decide,by decide,by decide,by decide⟩ _ _ _ _ _⟩

/-- A line is counted behind the last end of line, and what is in its slot is executed. -/
theorem executesLines_final_newline :
    Life ⟨0,6⟩ (cstr "f") (cstr "ls\n") 1 (nextRound (nextRound (queued (cstr "ls\n")))) [cstr "ls\n",cstr "none"] ∧
      linesOf 10 (cstr "ls\n") = [cstr "ls\n"] ∧
      ¬ ExecutesLines ⟨0,6⟩ (cstr "f") (cstr "ls\n") 1 (nextRound (nextRound (queued (cstr "ls\n"))))
        [cstr "ls\n",cstr "none"] := by
  have hlife : Life ⟨0,6⟩ (cstr "f") (cstr "ls\n") 1 (queued (cstr "ls\n")) [] := life_queued (by decide)
  have hlife₁ := life_nextRound hlife (by decide) (by decide) (by decide)
  have hlife₂ := life_nextRound hlife₁ (by decide) (by decide) (by decide)
  have hlines : [] ++ ((queued (cstr "ls\n")).currentLine 1).toList ++
      ((nextRound (queued (cstr "ls\n"))).currentLine 1).toList = [cstr "ls\n",cstr "none"] := by decide
  rw [hlines] at hlife₂
  refine ⟨hlife₂,by decide,fun h => ?_⟩
  obtain ⟨p,-,hfirst,-⟩ := h hlife₂
  exact absurd hfirst (by decide)

end ShellOS.Ready
