import ShellOS.Ready.FrameShape

/-! What page loads do to the pages that are in memory. A page that makes room for another is still marked
valid, but its frame was freed once more than when it was loaded. -/
namespace ShellOS.Ready
open CLib Lines
variable {ω : Type} {cfg : Config} {K K' K₁ K₂ : Kernel ω} {p p' q : PCB} {r : PCB × Kernel ω} {script : CString}
  {i page index : ℕ}

/-! ### Frames -/

/-- In every frame either the page was evicted, or lines that were there are still there. -/
def Evolves (cfg : Config) (K K' : Kernel ω) : Prop := ∀ i ∈ frames cfg,
  K.frees (cfg.varMemSize + i) < K'.frees (cfg.varMemSize + i) ∨
    K'.frees (cfg.varMemSize + i) = K.frees (cfg.varMemSize + i) ∧ ((K.mem (cfg.varMemSize + i)).var ≠ cstr "none" →
      ∀ j < 3, K'.mem (cfg.varMemSize + i + j) = K.mem (cfg.varMemSize + i + j))

theorem evolves_of_mem (hmem : ∀ i, cfg.varMemSize ≤ i → K'.mem i = K.mem i) (hfrees : K'.frees = K.frees) :
    Evolves cfg K K' := fun _ _ => .inr ⟨congrFun hfrees _,fun _ _ _ => hmem _ (by omega)⟩

theorem Evolves.trans (h : Evolves cfg K K₁) (h' : Evolves cfg K₁ K₂) : Evolves cfg K K₂ := by
  intro i hi
  cases h i hi with
  | inl hlt =>
    cases h' i hi with
    | inl hlt' => exact .inl (hlt.trans hlt')
    | inr hsame => exact .inl (hsame.1 ▸ hlt)
  | inr hold =>
    obtain ⟨hfrees,hmem⟩ := hold
    cases h' i hi with
    | inl hlt' => exact .inl (hfrees ▸ hlt')
    | inr hsame =>
      obtain ⟨hfrees',hmem'⟩ := hsame
      refine .inr ⟨hfrees'.trans hfrees,fun hne j hj => ?_⟩
      have hfirst : K₁.mem (cfg.varMemSize + i) = K.mem (cfg.varMemSize + i) := hmem hne 0 (Nat.succ_pos 2)
      exact (hmem' (hfirst ▸ hne) j hj).trans (hmem hne j hj)

/-! ### Processes -/

/-- A process with no more valid pages than another, all of them in the same frames. -/
structure Fewer (q p : PCB) : Prop where
  filename : q.filename = p.filename
  pages : ∀ g, q.validPage g = true → p.validPage g = true ∧ q.pageTable g = p.pageTable g ∧ q.stamp g = p.stamp g

theorem Fewer.refl (p : PCB) : Fewer p p := ⟨rfl,fun _ hg => ⟨hg,rfl,rfl⟩⟩

theorem Fewer.trans {p₁ p₂ : PCB} (h : Fewer p₂ p₁) (h' : Fewer p₁ p) : Fewer p₂ p := by
  refine ⟨h.filename.trans h'.filename,fun g hg => ?_⟩
  obtain ⟨hv,ht,hs⟩ := h.pages g hg
  obtain ⟨hv',ht',hs'⟩ := h'.pages g hv
  exact ⟨hv',ht.trans ht',hs.trans hs'⟩

theorem fewer_dropPage (index : ℕ) (p : PCB) : Fewer (dropPage index p) p := by
  unfold dropPage
  cases (List.range p.pageCount).find? fun i => p.pageTable i == index with
  | none => exact .refl p
  | some i =>
    refine ⟨rfl,fun g hg => ⟨?_,rfl,rfl⟩⟩
    have hvalid : Function.update p.validPage i false g = true := hg
    by_cases hgi : g = i
    · rw [hgi,Function.update_self] at hvalid
      exact absurd hvalid Bool.false_ne_true
    · rwa [Function.update_of_ne hgi] at hvalid

/-- Frames may have been taken from processes. -/
structure Loses (cfg : Config) (K K' : Kernel ω) : Prop where
  frames : Evolves cfg K K'
  pcbs : ∀ a q, K'.pcbAt a = some q → ∃ p, K.pcbAt a = some p ∧ Fewer q p
  log : K'.log = K.log

theorem loses_of_same (hmem : ∀ i, cfg.varMemSize ≤ i → K'.mem i = K.mem i) (hfrees : K'.frees = K.frees)
    (hpcb : K'.pcbAt = K.pcbAt) (hlog : K'.log = K.log) : Loses cfg K K' :=
  ⟨evolves_of_mem hmem hfrees,fun _ q hq => ⟨q,hpcb ▸ hq,.refl q⟩,hlog⟩

theorem Loses.trans (h : Loses cfg K K₁) (h' : Loses cfg K₁ K₂) : Loses cfg K K₂ := by
  refine ⟨h.frames.trans h'.frames,fun a q hq => ?_,h'.log.trans h.log⟩
  obtain ⟨p₁,h1,hfewer⟩ := h'.pcbs a q hq
  obtain ⟨p,h2,hfewer'⟩ := h.pcbs a p₁ h1
  exact ⟨p,h2,hfewer.trans hfewer'⟩

theorem addToTail_loses {a : ℕ} (h : K.readyQueueAddToTail a = some K') : Loses cfg K K' := by
  obtain ⟨hmem,-,hpcb⟩ := Kernel.addToTail_keeps h
  have hrest : K'.frees = K.frees ∧ K'.log = K.log := by
    unfold Kernel.readyQueueAddToTail at h
    cases hh : K.head with
    | none =>
      rw [hh] at h
      exact Option.some.inj h ▸ ⟨rfl,rfl⟩
    | some b =>
      rw [hh] at h
      obtain ⟨l,-,h⟩ := Option.bind_eq_some_iff.mp h
      obtain ⟨c,-,rfl⟩ := Option.map_eq_some_iff.mp h
      exact ⟨rfl,rfl⟩
  exact loses_of_same (fun _ _ => congrFun hmem _) hrest.1 hpcb hrest.2

/-! ### Making room -/

theorem Kernel.pcbAt_dropVictim (h : K.dropVictim index p = some r) : r.2.frees = K.frees ∧ Fewer r.1 p ∧
    ∀ a q, r.2.pcbAt a = some q → ∃ p, K.pcbAt a = some p ∧ Fewer q p := by
  unfold dropVictim at h
  split_ifs at h
  · obtain rfl := Option.some.inj h
    exact ⟨rfl,fewer_dropPage index p,fun _ q hq => ⟨q,hq,.refl q⟩⟩
  · obtain ⟨prev,-,rfl⟩ := Option.map_eq_some_iff.mp h
    cases prev with
    | none => exact ⟨rfl,.refl p,fun _ q hq => ⟨q,hq,.refl q⟩⟩
    | some b =>
      dsimp only
      cases hn : K.node b with
      | none => exact ⟨rfl,.refl p,fun _ q hq => ⟨q,hq,.refl q⟩⟩
      | some n =>
        have hb : K.pcbAt b = some n.pcb := congrArg (Option.map QueueNode.pcb) hn
        refine ⟨rfl,.refl p,fun a q hq => ?_⟩
        by_cases hab : a = b
        · subst hab
          have hself := Kernel.pcbAt_setPcb (Option.isSome_iff_exists.mpr ⟨_,hb⟩) (dropPage index n.pcb)
          exact ⟨_,hb,Option.some.inj (hq.symm.trans hself) ▸ fewer_dropPage index n.pcb⟩
        · exact ⟨q,(Kernel.pcbAt_setPcb_of_ne hab _).symm.trans hq,.refl q⟩

/-- The frame `i` has room, either because it was free or because what it held was evicted. -/
structure MakesRoom (cfg : Config) (i : ℕ) (p : PCB) (K : Kernel ω) (r : PCB × Kernel ω) : Prop where
  frame : i ∈ frames cfg
  pc : r.1.pc = p.pc
  own : Fewer r.1 p
  pcbs : ∀ a q, r.2.pcbAt a = some q → ∃ p, K.pcbAt a = some p ∧ Fewer q p
  store : r.2.store = K.store
  log : r.2.log = K.log
  others : ∀ k ∈ frames cfg, k ≠ i → r.2.frees (cfg.varMemSize + k) = K.frees (cfg.varMemSize + k) ∧
    ∀ j < 3, r.2.mem (cfg.varMemSize + k + j) = K.mem (cfg.varMemSize + k + j)
  victim : K.frees (cfg.varMemSize + i) < r.2.frees (cfg.varMemSize + i) ∨
    r.2.frees (cfg.varMemSize + i) = K.frees (cfg.varMemSize + i) ∧ (K.mem (cfg.varMemSize + i)).var = cstr "none"

/-- The frame that is evicted has a line in its first slot. -/
theorem Kernel.freeStop_bounds (h : (K.mem (K.lruIndex cfg)).var ≠ cstr "none") :
    K.lruIndex cfg < K.freeStop cfg ∧ K.freeStop cfg ≤ K.lruIndex cfg + 3 := by
  have hcount : (List.range 3).countP (fun j => (K.mem (K.lruIndex cfg + j)).var == cstr "none") ≤ 2 := by
    have hrange : List.range 3 = 0::[1,2] := rfl
    rw [hrange,List.countP_cons_of_neg (by simpa using h)]
    exact List.countP_le_length
  unfold Kernel.freeStop
  omega

theorem Kernel.replacePage_room (hpos : 0 < cfg.frameSize) (h : K.replacePage cfg p page = some (p',K')) :
    ∃ i r, MakesRoom cfg i p K r ∧ p' = { r.1 with
      pageTable := Function.update r.1.pageTable page (cfg.varMemSize + i)
      validPage := Function.update r.1.validPage page true
      stamp := Function.update r.1.stamp page (r.2.frees (cfg.varMemSize + i)) } ∧
      K' = r.2.copyToMem cfg (p.pc * 3) p.filename (cfg.varMemSize + i) := by
  cases hs : K.findSpace cfg with
  | some slot =>
    obtain ⟨i,hi,rfl,hfree⟩ := Kernel.findSpace_spec hs
    rw [Kernel.replacePage_of_space hs] at h
    obtain ⟨rfl,rfl⟩ := Prod.mk.inj (Option.some.inj h)
    exact ⟨i,(p,K),⟨hi,rfl,.refl p,fun _ q hq => ⟨q,hq,.refl q⟩,rfl,rfl,fun _ _ _ => ⟨rfl,fun _ _ => rfl⟩,.inr ⟨rfl,hfree⟩⟩,
      rfl,rfl⟩
  | none =>
    have hi := (K.getOldest_spec hpos).1
    have hlru : K.lruIndex cfg = cfg.varMemSize + K.getOldest cfg := Nat.add_comm _ _
    have hmod := mem_frames.mp hi
    have hused : (K.mem (K.lruIndex cfg)).var ≠ cstr "none" := hlru ▸ Kernel.used_of_full hs hi
    obtain ⟨hfirst,hlast⟩ := Kernel.freeStop_bounds hused
    rw [Kernel.replacePage_full hs] at h
    obtain ⟨r,hr,he⟩ := Option.map_eq_some_iff.mp h
    obtain ⟨rfl,rfl⟩ := Prod.mk.inj he
    obtain ⟨hmem,-,-⟩ := Kernel.dropVictim_memory hr
    obtain ⟨hpc,hname,hstore⟩ := Kernel.dropVictim_reads hr
    obtain ⟨hfrees,hown,hpcbs⟩ := Kernel.pcbAt_dropVictim hr
    rw [hlru] at hfirst hlast hmem hfrees ⊢
    refine ⟨K.getOldest cfg,r,⟨hi,hpc,hown,hpcbs,hstore,(Kernel.dropVictim_spec hr).1.log,fun k hk hki => ⟨?_,fun j hj => ?_⟩,
      .inl ?_⟩,rfl,by rw [hpc,hname]⟩
    · have hk3 := (mem_frames.mp hk).2
      rw [hfrees]
      exact if_neg (by omega)
    · have hk3 := (mem_frames.mp hk).2
      rw [hmem]
      exact if_neg (by omega)
    · have hin : cfg.varMemSize + K.getOldest cfg < cfg.shellMemLength := Nat.add_lt_add_left hmod.1 _
      rw [hfrees]
      exact (Nat.lt_succ_self _).trans_eq (if_pos ⟨le_rfl,hfirst,hin⟩).symm

theorem MakesRoom.loses (h : MakesRoom cfg i p K r) (n : ℕ) (name : CString) :
    Loses cfg K (r.2.copyToMem cfg n name (cfg.varMemSize + i)) := by
  refine ⟨fun k hk => ?_,h.pcbs,h.log⟩
  by_cases hki : k = i
  · subst hki
    cases h.victim with
    | inl hlt => exact .inl hlt
    | inr hfree => exact .inr ⟨hfree.1,fun hne => absurd hfree.2 hne⟩
  · obtain ⟨hfrees,hmem⟩ := h.others k hk hki
    have hk3 := (mem_frames.mp hk).2
    have hi3 := (mem_frames.mp h.frame).2
    refine .inr ⟨hfrees,fun _ j hj => ?_⟩
    exact (copyLines_of_not_mem name 3 _ _ _ (by omega)).trans (hmem j hj)

/-! ### The page with the last line -/

/-- The line with this number, if it is the last one. -/
def lastAt (script : CString) (k : ℕ) : Option CString :=
  if k + 1 = (linesOf 10 script).length then (linesOf 10 script)[k]? else none

theorem lastAt_eq_some_iff {k : ℕ} {l : CString} :
    lastAt script k = some l ↔ k + 1 = (linesOf 10 script).length ∧ (linesOf 10 script)[k]? = some l := by
  unfold lastAt
  split_ifs with h
  · exact (and_iff_right h).symm
  · exact iff_of_false nofun fun hc => h hc.1

/-- The valid pages are in frames. If one has the last line and was not evicted since it was loaded, the
line is in its frame. -/
def Paged (cfg : Config) (K : Kernel ω) (script : CString) (p : PCB) : Prop := ∀ g, p.validPage g = true →
  ∃ i ∈ frames cfg, p.pageTable g = cfg.varMemSize + i ∧ p.stamp g ≤ K.frees (cfg.varMemSize + i) ∧
    (K.frees (cfg.varMemSize + i) = p.stamp g → ∀ j < 3, ∀ l, lastAt script (3 * g + j) = some l →
      (K.mem (cfg.varMemSize + i)).var ≠ cstr "none" ∧ (K.mem (cfg.varMemSize + i + j)).value = l)

theorem Paged.fewer (h : Paged cfg K script p) (hq : Fewer q p) : Paged cfg K script q := by
  intro g hg
  obtain ⟨hv,ht,hs⟩ := hq.pages g hg
  rw [ht,hs]
  exact h g hv

theorem Paged.evolves (h : Paged cfg K script p) (hK : Evolves cfg K K') : Paged cfg K' script p := by
  intro g hg
  obtain ⟨i,hi,ht,hle,hl⟩ := h g hg
  cases hK i hi with
  | inl hlt => exact ⟨i,hi,ht,(hle.trans_lt hlt).le,fun hnow => absurd hnow (hle.trans_lt hlt).ne'⟩
  | inr hsame =>
    obtain ⟨hfrees,hmem⟩ := hsame
    refine ⟨i,hi,ht,hfrees.symm ▸ hle,fun hnow j hj l hlast => ?_⟩
    obtain ⟨hne,hline⟩ := hl (hfrees.symm.trans hnow) j hj l hlast
    have hfirst : K'.mem (cfg.varMemSize + i) = K.mem (cfg.varMemSize + i) := hmem hne 0 (Nat.succ_pos 2)
    exact ⟨hfirst ▸ hne,hmem hne j hj ▸ hline⟩

/-- Scripts that are read line by line. -/
structure Plain (text : CString) : Prop where
  no_eof : 255 ∉ text
  no_nul : 0 ∉ text
  short : ∀ l ∈ linesOf 10 text, l.length ≤ 99

theorem Plain.lines (h : Plain script) : ∀ l ∈ linesOf 10 script, l.length ≤ 99 ∧ 0 ∉ l := fun l hl =>
  ⟨h.short l hl,fun h0 => h.no_nul (flatten_linesOf 10 script ▸ List.mem_flatten_of_mem hl h0)⟩

/-- The page of the line that a process comes to is loaded. -/
theorem Paged.load (h : Paged cfg K script p) (hpos : 0 < cfg.frameSize) (hplain : Plain script)
    (hname : p.filename ≠ cstr "none")
    (hstore : ∀ j < 3, (lastAt script (3 * p.pc + j)).isSome → K.store p.filename = script)
    (hr : K.replacePage cfg p p.pc = some (p',K')) :
    Paged cfg K' script p' ∧ Loses cfg K K' ∧ p'.filename = p.filename ∧ K'.store = K.store := by
  obtain ⟨i,r,hroom,rfl,rfl⟩ := Kernel.replacePage_room hpos hr
  have hloses := hroom.loses (p.pc * 3) p.filename
  refine ⟨fun g hg => ?_,hloses,hroom.own.filename,hroom.store⟩
  by_cases hgp : g = p.pc
  · subst hgp
    refine ⟨i,hroom.frame,Function.update_self _ _ _,(Function.update_self _ _ _).le,fun _ j hj l hlast => ?_⟩
    have hfile : r.2.store p.filename = script :=
      (congrFun hroom.store _).trans (hstore j hj (Option.isSome_iff_exists.mpr ⟨l,hlast⟩))
    obtain ⟨hlen,hl⟩ := lastAt_eq_some_iff.mp hlast
    have hfirst := List.getElem?_eq_getElem (l := linesOf 10 script) (i := 3 * p.pc + 0) (by omega)
    have hslot : (r.2.copyToMem cfg (p.pc * 3) p.filename (cfg.varMemSize + i)).mem (cfg.varMemSize + i) = ⟨p.filename,_⟩ :=
      Kernel.copyToMem_line hplain.lines hfile (Nat.succ_pos 2) hfirst
    have hline : (r.2.copyToMem cfg (p.pc * 3) p.filename (cfg.varMemSize + i)).mem (cfg.varMemSize + i + j) = ⟨p.filename,l⟩ :=
      Kernel.copyToMem_line hplain.lines hfile hj hl
    exact ⟨by rw [hslot]; exact hname,by rw [hline]⟩
  · have hold : r.1.validPage g = true := by
      rw [← hg]
      exact (Function.update_of_ne hgp _ _).symm
    obtain ⟨k,hk,ht,hs⟩ := (h.fewer hroom.own).evolves hloses.frames g hold
    have hstamp : Function.update r.1.stamp p.pc (r.2.frees (cfg.varMemSize + i)) g = r.1.stamp g :=
      Function.update_of_ne hgp _ _
    refine ⟨k,hk,(Function.update_of_ne hgp _ _).trans ht,?_⟩
    dsimp only
    rw [hstamp]
    exact hs

/-- The first two pages of a script that was just copied. -/
theorem loadFile_paged (hpos : 0 < cfg.frameSize) (hplain : Plain script) (hpc : p.pc = 0)
    (hnone : ∀ g, p.validPage g = false) (hname : p.filename ≠ cstr "none") (hstore : K.store p.filename = script)
    (h : K.loadFile cfg p = some r) : Paged cfg r.2 script r.1 ∧ Loses cfg K r.2 ∧ r.1.filename = p.filename := by
  have hstart : Paged cfg K script p := fun g hg => absurd hg (by rw [hnone g]; exact Bool.false_ne_true)
  obtain ⟨r₁,h1,h⟩ := Option.bind_eq_some_iff.mp h
  rw [← hpc] at h1
  obtain ⟨hpaged,hloses,hfile,hst⟩ := hstart.load hpos hplain hname (fun _ _ _ => hstore) h1
  split_ifs at h
  · obtain ⟨r₂,h2,rfl⟩ := Option.map_eq_some_iff.mp h
    have hpaged₁ : Paged cfg r₁.2 script { r₁.1 with pc := 1 } := hpaged
    have hfile₁ : ({ r₁.1 with pc := 1 } : PCB).filename = p.filename := hfile
    obtain ⟨hpaged₂,hloses₂,hfile₂,-⟩ := hpaged₁.load hpos hplain (hfile₁ ▸ hname)
      (fun _ _ _ => by rw [hfile₁,hst]; exact hstore) h2
    exact ⟨hpaged₂,hloses.trans hloses₂,hfile₂.trans hfile⟩
  · obtain rfl := Option.some.inj h
    exact ⟨hpaged,hloses,hfile⟩

end ShellOS.Ready
