import ShellOS.Ready.Script

/-! Which slots of the frame store hold allocated strings. In each frame they are the first ones, so
the slots that are freed when a page is replaced are among them. -/
namespace ShellOS.Ready
open CLib
open Pager (Memory fgets)

/-- The slots whose two strings were allocated; in the others both are the static string `none`. -/
abbrev Allocated := ℕ → Bool

/-- The slots that `copyLines` stores lines in, as copies made by `strdup` and `strndup`. -/
def copyAllocated : ℕ → ℕ → CString → Allocated → Allocated
  | 0,_,_,o => o
  | n+1,j,s,o => copyAllocated n (j + 1) (fgets 99 s).2 (if s = [] then o else Function.update o j true)

namespace Kernel
variable {ω : Type}

/-- The first slot of the frame that makes room. -/
def lruIndex (cfg : Config) (K : Kernel ω) : ℕ := K.getOldest cfg + cfg.varMemSize

/-- The slots that `replace_page` passes to `mem_free_lines_between` end before this one: it counts
the empty slots of the frame. -/
def freeStop (cfg : Config) (K : Kernel ω) : ℕ :=
  K.lruIndex cfg + (3 - (List.range 3).countP fun j => (K.mem (K.lruIndex cfg + j)).var == cstr "none")

/-- What is allocated after `mem_init`. -/
def memInitAllocated (cfg : Config) (o : Allocated) : Allocated := fun i => if i < cfg.shellMemLength then false else o i

/-- What is allocated after `mem_free_lines_between`. -/
def freeAllocated (cfg : Config) (start stop : ℕ) (o : Allocated) : Allocated := fun i =>
  if start ≤ i ∧ i < stop ∧ i < cfg.shellMemLength then false else o i

/-- What is allocated after `replace_page`. -/
def replaceAllocated (cfg : Config) (p : PCB) (K : Kernel ω) (o : Allocated) : Allocated :=
  let page := skipLines (p.pc * 3) (K.store p.filename)
  match K.findSpace cfg with
  | some i => copyAllocated 3 i page o
  | none => copyAllocated 3 (K.lruIndex cfg) page (freeAllocated cfg (K.lruIndex cfg) (K.freeStop cfg) o)

end Kernel

variable {ω : Type}

/-- The memory is set up, which `resetmem` does too, pages of processes are loaded, and all the rest
may change that is not in the frame store. -/
inductive FrameRun (cfg : Config) : Kernel ω → Allocated → Prop
  | init (K : Kernel ω) (o : Allocated) : FrameRun cfg (K.memInit cfg) (Kernel.memInitAllocated cfg o)
  | load {K K' : Kernel ω} {o : Allocated} {p p' : PCB} {page pid : ℕ} {filename : CString} (h : FrameRun cfg K o)
      (hname : p.filename = backingName filename pid) (hl : K.replacePage cfg p page = some (p',K')) :
      FrameRun cfg K' (K.replaceAllocated cfg p o)
  | other {K K' : Kernel ω} {o o' : Allocated} (h : FrameRun cfg K o) (hmem : ∀ i, cfg.varMemSize ≤ i → K'.mem i = K.mem i)
      (ho : ∀ i, cfg.varMemSize ≤ i → o' i = o i) : FrameRun cfg K' o'

/-- The first `n` of the three slots from `b` on are allocated, and the others read `none`. -/
def Shape (m : Memory) (o : Allocated) (b n : ℕ) : Prop :=
  ∀ j < 3, (o (b + j) = true ↔ j < n) ∧ ((m (b + j)).var = cstr "none" ↔ n ≤ j)

variable {cfg : Config} {K K' : Kernel ω} {o o' : Allocated} {m m' : Memory} {b n : ℕ}

theorem Shape.congr (h : Shape m o b n) (hm : ∀ j < 3, m' (b + j) = m (b + j)) (ho : ∀ j < 3, o' (b + j) = o (b + j)) :
    Shape m' o' b n := fun j hj => by
  rw [hm j hj,ho j hj]
  exact h j hj

/-! ### Copying -/

theorem copyAllocated_of_not_mem {k : ℕ} : ∀ (n j : ℕ) (s : CString) (o : Allocated), k < j ∨ j + n ≤ k →
    copyAllocated n j s o k = o k := by
  intro n
  induction n with
  | zero => exact fun j s o _ => rfl
  | succ n ih =>
    intro j s o hk
    rw [copyAllocated,ih _ _ _ (by omega)]
    split
    · rfl
    · exact Function.update_of_ne (by omega) _ _

/-- Nothing is stored once the file is read. -/
theorem copy_nil (name : CString) : ∀ (n j : ℕ) (m : Memory) (o : Allocated),
    copyLines name n j [] m = m ∧ copyAllocated n j [] o = o := by
  intro n
  induction n with
  | zero => exact fun j m o => ⟨rfl,rfl⟩
  | succ n ih => exact fun j m o => ih (j + 1) m o

/-- Lines are stored from the first slot on without a gap. -/
theorem copy_shape {name : CString} (hname : name ≠ cstr "none") : ∀ (c j : ℕ) (s : CString) (m : Memory) (o : Allocated),
    (∀ i, j ≤ i → i < j + c → o i = false ∧ (m i).var = cstr "none") →
    ∃ n ≤ c, ∀ i, j ≤ i → i < j + c → (copyAllocated c j s o i = true ↔ i < j + n) ∧
      ((copyLines name c j s m i).var = cstr "none" ↔ j + n ≤ i) := by
  intro c
  induction c with
  | zero => exact fun j s m o _ => ⟨0,le_rfl,fun i hi hi' => absurd hi' (by omega)⟩
  | succ c ih =>
    intro j s m o hfree
    by_cases hs : s = []
    · refine ⟨0,Nat.zero_le _,fun i hi hi' => ?_⟩
      obtain ⟨ho,hm⟩ := hfree i hi hi'
      rw [hs,(copy_nil name _ j m o).1,(copy_nil name _ j m o).2,ho,hm]
      exact ⟨iff_of_false (by decide) (by omega),iff_of_true rfl (by omega)⟩
    · obtain ⟨n,hn,hrest⟩ := ih (j + 1) (fgets 99 s).2 (Function.update m j ⟨name,(fgets 99 s).1.takeWhile (· != 0)⟩)
        (Function.update o j true) fun i hi hi' => by
          rw [Function.update_of_ne (by omega),Function.update_of_ne (by omega)]
          exact hfree i (by omega) (by omega)
      refine ⟨n + 1,by omega,fun i hi hi' => ?_⟩
      rw [copyAllocated,copyLines,if_neg hs,if_neg hs]
      by_cases hij : i = j
      · -- the slot that was just stored
        rw [hij,copyAllocated_of_not_mem _ _ _ _ (.inl (by omega)),copyLines_of_not_mem name _ _ _ _ (.inl (by omega)),
          Function.update_self,Function.update_self]
        exact ⟨iff_of_true rfl (by omega),iff_of_false hname (by omega)⟩
      · obtain ⟨ho,hm⟩ := hrest i (by omega) (by omega)
        rw [ho,hm]
        exact ⟨by omega,by omega⟩

theorem Shape.copy {name : CString} (hname : name ≠ cstr "none") (s : CString) (h : Shape m o b 0) :
    ∃ n ≤ 3, Shape (copyLines name 3 b s m) (copyAllocated 3 b s o) b n := by
  obtain ⟨n,hn,hall⟩ := copy_shape hname 3 b s m o fun i hi hi' => by
    obtain ⟨j,rfl⟩ := Nat.exists_eq_add_of_le hi
    obtain ⟨ho,hm⟩ := h j (by omega)
    exact ⟨by simpa using ho,hm.mpr (Nat.zero_le j)⟩
  refine ⟨n,hn,fun j hj => ?_⟩
  obtain ⟨ho,hm⟩ := hall (b + j) (Nat.le_add_right b j) (by omega)
  exact ⟨ho.trans (by omega),hm.trans (by omega)⟩

/-! ### Making room -/

theorem Shape.countP (h : Shape m o b n) (hn : n ≤ 3) :
    (List.range 3).countP (fun j => (m (b + j)).var == cstr "none") = 3 - n := by
  have hcount : (List.range 3).countP (fun j => (m (b + j)).var == cstr "none") =
      (List.range 3).countP (fun j => decide (n ≤ j)) := by
    refine List.countP_congr fun j hj => ?_
    rw [beq_iff_eq,decide_eq_true_eq]
    exact (h j (List.mem_range.mp hj)).2
  rw [hcount]
  interval_cases n <;> decide

theorem Shape.freeStop (h : Shape K.mem o (K.lruIndex cfg) n) (hn : n ≤ 3) :
    K.freeStop cfg = K.lruIndex cfg + n := by
  rw [Kernel.freeStop,h.countP hn]
  omega

/-- All that is allocated in the frame is freed. -/
theorem Shape.free (h : Shape K.mem o b n) (hb : b + 3 ≤ cfg.shellMemLength) :
    Shape (K.memFreeLinesBetween cfg b (b + n)).mem (Kernel.freeAllocated cfg b (b + n) o) b 0 := fun j hj => by
  obtain ⟨ho,hm⟩ := h j hj
  change ((if b ≤ b + j ∧ b + j < b + n ∧ b + j < cfg.shellMemLength then false else o (b + j)) = true ↔ _) ∧
    ((if b ≤ b + j ∧ b + j < b + n ∧ b + j < cfg.shellMemLength then Pager.emptyCell else K.mem (b + j)).var = _ ↔ _)
  by_cases hjn : j < n
  · rw [if_pos ⟨by omega,by omega,by omega⟩,if_pos ⟨by omega,by omega,by omega⟩]
    exact ⟨iff_of_false (by decide) (Nat.not_lt_zero j),iff_of_true rfl (Nat.zero_le j)⟩
  · rw [if_neg (by omega),if_neg (by omega)]
    exact ⟨ho.trans (iff_of_false hjn (Nat.not_lt_zero j)),hm.trans (iff_of_true (Nat.not_lt.mp hjn) (Nat.zero_le j))⟩

/-- The slots that are passed on to be freed are those of `freeStop`. -/
theorem Kernel.replacePage_full {p : PCB} {page : ℕ} (hfull : K.findSpace cfg = none) : K.replacePage cfg p page =
    ((K.memFreeLinesBetween cfg (K.lruIndex cfg) (K.freeStop cfg)).dropVictim (K.lruIndex cfg) p).map fun r =>
      ({ r.1 with pageTable := Function.update r.1.pageTable page (K.lruIndex cfg),
                  validPage := Function.update r.1.validPage page true,
                  stamp := Function.update r.1.stamp page (r.2.frees (K.lruIndex cfg)) },
        r.2.copyToMem cfg (r.1.pc * 3) r.1.filename (K.lruIndex cfg)) := by
  unfold Kernel.replacePage
  rw [hfull]
  rfl

/-! ### Runs -/

/-- Every frame has this shape. -/
def Shaped (cfg : Config) (K : Kernel ω) (o : Allocated) : Prop :=
  ∀ i ∈ frames cfg, ∃ n ≤ 3, Shape K.mem o (cfg.varMemSize + i) n

/-- A frame lies in the memory as a whole. -/
theorem frame_inside (hsize : cfg.frameSize % 3 = 0) {i : ℕ} (hi : i ∈ frames cfg) :
    cfg.varMemSize + i + 3 ≤ cfg.shellMemLength := by
  obtain ⟨hlt,hmod⟩ := mem_frames.mp hi
  rw [Config.shellMemLength]
  omega

theorem Shaped.init (hsize : cfg.frameSize % 3 = 0) (K : Kernel ω) (o : Allocated) :
    Shaped cfg (K.memInit cfg) (Kernel.memInitAllocated cfg o) := fun i hi => by
  refine ⟨0,Nat.zero_le 3,fun j hj => ?_⟩
  have hin := frame_inside hsize hi
  have hlt : cfg.varMemSize + i + j < cfg.shellMemLength := by omega
  have hmem : (K.memInit cfg).mem (cfg.varMemSize + i + j) = Pager.emptyCell := if_pos hlt
  rw [Kernel.memInitAllocated,if_pos hlt,hmem]
  exact ⟨iff_of_false (by decide) (Nat.not_lt_zero j),iff_of_true rfl (Nat.zero_le j)⟩

/-- A page is copied to a frame with nothing in it, and the other frames stay as they are. -/
theorem Shaped.copy {name : CString} (hname : name ≠ cstr "none") (s : CString) {i : ℕ} (hi : i % 3 = 0)
    (hempty : Shape m o (cfg.varMemSize + i) 0)
    (hother : ∀ k ∈ frames cfg, k ≠ i → ∃ n ≤ 3, Shape m o (cfg.varMemSize + k) n)
    (hmem : K'.mem = copyLines name 3 (cfg.varMemSize + i) s m) :
    Shaped cfg K' (copyAllocated 3 (cfg.varMemSize + i) s o) := fun k hk => by
  rw [hmem]
  by_cases hki : k = i
  · rw [hki]
    exact hempty.copy hname s
  · have hmod := (mem_frames.mp hk).2
    obtain ⟨n,hn,hshape⟩ := hother k hk hki
    exact ⟨n,hn,hshape.congr (fun j hj => copyLines_of_not_mem name 3 _ _ _ (by omega))
      fun j hj => copyAllocated_of_not_mem 3 _ _ _ (by omega)⟩

theorem dropPage_reads (index : ℕ) (p : PCB) : (dropPage index p).pc = p.pc ∧ (dropPage index p).filename = p.filename := by
  unfold dropPage
  cases (List.range p.pageCount).find? fun i => p.pageTable i == index with
  | none => exact ⟨rfl,rfl⟩
  | some i => exact ⟨rfl,rfl⟩

/-- What is copied next is not changed by dropping the victim. -/
theorem Kernel.dropVictim_reads {index : ℕ} {p : PCB} {r : PCB × Kernel ω} (h : K.dropVictim index p = some r) :
    r.1.pc = p.pc ∧ r.1.filename = p.filename ∧ r.2.store = K.store := by
  unfold Kernel.dropVictim at h
  split_ifs at h
  · obtain rfl := Option.some.inj h
    obtain ⟨hpc,hname⟩ := dropPage_reads index p
    exact ⟨hpc,hname,rfl⟩
  · obtain ⟨prev,-,rfl⟩ := Option.map_eq_some_iff.mp h
    cases prev with
    | none => exact ⟨rfl,rfl,rfl⟩
    | some a =>
      dsimp only
      cases K.node a with
      | none => exact ⟨rfl,rfl,rfl⟩
      | some n => exact ⟨rfl,rfl,rfl⟩

theorem Kernel.replaceAllocated_of_space {p : PCB} {slot : ℕ} (hs : K.findSpace cfg = some slot) :
    K.replaceAllocated cfg p o = copyAllocated 3 slot (skipLines (p.pc * 3) (K.store p.filename)) o := by
  unfold Kernel.replaceAllocated
  rw [hs]

theorem Kernel.replaceAllocated_full {p : PCB} (hfull : K.findSpace cfg = none) : K.replaceAllocated cfg p o =
    copyAllocated 3 (K.lruIndex cfg) (skipLines (p.pc * 3) (K.store p.filename))
      (Kernel.freeAllocated cfg (K.lruIndex cfg) (K.freeStop cfg) o) := by
  unfold Kernel.replaceAllocated
  rw [hfull]

theorem Shaped.load_space {p p' : PCB} {page slot : ℕ} (h : Shaped cfg K o) (hname : p.filename ≠ cstr "none")
    (hs : K.findSpace cfg = some slot) (hl : K.replacePage cfg p page = some (p',K')) :
    Shaped cfg K' (K.replaceAllocated cfg p o) := by
  obtain ⟨i,hi,rfl,hfree⟩ := Kernel.findSpace_spec hs
  obtain ⟨n,hn,hshape⟩ := h i hi
  -- the first slot reads `none`, so nothing in the frame is allocated
  obtain rfl : n = 0 := Nat.le_zero.mp ((hshape 0 (by decide)).2.mp hfree)
  rw [Kernel.replacePage_of_space hs] at hl
  obtain ⟨-,rfl⟩ := Prod.mk.inj (Option.some.inj hl)
  rw [Kernel.replaceAllocated_of_space hs]
  exact Shaped.copy hname _ (mem_frames.mp hi).2 hshape (fun k hk _ => h k hk) rfl

/-- The frame that makes room, with all the slots that are allocated in it. -/
theorem Shaped.victim (h : Shaped cfg K o) (hpos : 0 < cfg.frameSize) : ∃ v ∈ frames cfg, ∃ n ≤ 3,
    K.lruIndex cfg = cfg.varMemSize + v ∧ Shape K.mem o (cfg.varMemSize + v) n ∧
      K.freeStop cfg = cfg.varMemSize + v + n := by
  have hlru : K.lruIndex cfg = cfg.varMemSize + K.getOldest cfg := Nat.add_comm _ _
  have hv := (K.getOldest_spec hpos).1
  obtain ⟨n,hn,hshape⟩ := h _ hv
  rw [← hlru] at hshape
  have hstop := hshape.freeStop hn
  rw [hlru] at hshape hstop
  exact ⟨_,hv,n,hn,hlru,hshape,hstop⟩

theorem Shaped.load_full {p p' : PCB} {page : ℕ} (h : Shaped cfg K o) (hsize : cfg.frameSize % 3 = 0)
    (hname : p.filename ≠ cstr "none") (hs : K.findSpace cfg = none)
    (hl : K.replacePage cfg p page = some (p',K')) : Shaped cfg K' (K.replaceAllocated cfg p o) := fun i hi => by
  obtain ⟨v,hv,n,hn,hlru,hshape,hstop⟩ := h.victim (Nat.zero_lt_of_lt (mem_frames.mp hi).1)
  have hmod := (mem_frames.mp hv).2
  rw [Kernel.replacePage_full hs] at hl
  obtain ⟨r,hr,he⟩ := Option.map_eq_some_iff.mp hl
  obtain ⟨-,rfl⟩ := Prod.mk.inj he
  obtain ⟨hmem,-,-⟩ := Kernel.dropVictim_memory hr
  obtain ⟨hpc,hfile,hstore⟩ := Kernel.dropVictim_reads hr
  rw [Kernel.replaceAllocated_full hs,hlru,hstop]
  rw [hlru,hstop] at hmem
  have hfree := hshape.free (frame_inside hsize hv)
  rw [← hmem] at hfree
  refine Shaped.copy hname _ hmod hfree (fun k hk hkv => ?_) ?_ i hi
  · -- the other frames are not touched
    obtain ⟨c,hc,hother⟩ := h k hk
    have hk3 := (mem_frames.mp hk).2
    refine ⟨c,hc,hother.congr (fun j hj => ?_) fun j hj => if_neg (by omega)⟩
    rw [hmem]
    exact if_neg (by omega)
  · change copyLines r.1.filename 3 _ (skipLines (r.1.pc * 3) (r.2.store r.1.filename)) r.2.mem = _
    rw [hpc,hfile,hstore]
    rfl

theorem Shaped.load {p p' : PCB} {page : ℕ} (h : Shaped cfg K o) (hsize : cfg.frameSize % 3 = 0)
    (hname : p.filename ≠ cstr "none") (hl : K.replacePage cfg p page = some (p',K')) :
    Shaped cfg K' (K.replaceAllocated cfg p o) := by
  cases hs : K.findSpace cfg with
  | some slot => exact h.load_space hname hs hl
  | none => exact h.load_full hsize hname hs hl

theorem FrameRun.shaped (h : FrameRun cfg K o) (hsize : cfg.frameSize % 3 = 0) : Shaped cfg K o := by
  induction h with
  | init K o => exact Shaped.init hsize K o
  | load h hname hl ih => exact ih.load hsize (hname ▸ backingName_ne _ _) hl
  | other h hmem ho ih =>
    intro i hi
    obtain ⟨n,hn,hshape⟩ := ih i hi
    exact ⟨n,hn,hshape.congr (fun j _ => hmem _ (by omega)) fun j _ => ho _ (by omega)⟩

/-- In every run the allocated slots of a frame are its first ones, and those that are freed to make
room for a page are allocated. -/
theorem frame_frees_allocated (h : FrameRun cfg K o) (hsize : cfg.frameSize % 3 = 0) :
    (∀ i ∈ frames cfg, ∃ n ≤ 3, Shape K.mem o (cfg.varMemSize + i) n) ∧
    ∀ k, K.lruIndex cfg ≤ k → k < K.freeStop cfg → k < cfg.shellMemLength → o k = true := by
  have hshaped := h.shaped hsize
  refine ⟨hshaped,fun k hk hstop hlt => ?_⟩
  have hpos : 0 < cfg.frameSize := by
    rw [Config.shellMemLength] at hlt
    unfold Kernel.lruIndex at hk
    omega
  obtain ⟨v,-,n,hn,hlru,hshape,hend⟩ := hshaped.victim hpos
  rw [hlru] at hk
  rw [hend] at hstop
  obtain ⟨j,rfl⟩ := Nat.exists_eq_add_of_le hk
  exact (hshape j (by omega)).1.mpr (by omega)

/-! ### One frame -/

def twoLines : PCB := makePCB 1 1 2 (backingName (cstr "f") 1)

/-- The kernel with one frame, and scripts of two lines. -/
def oneFrame : Kernel Unit := Kernel.memInit ⟨0,3⟩ { Kernel.start () with store := fun _ => cstr "ls\nls\n" }

def oneFrameLoaded : PCB × Kernel Unit := (oneFrame.replacePage ⟨0,3⟩ twoLines 0).getD (twoLines,oneFrame)

def oneFrameAllocated : Allocated :=
  oneFrame.replaceAllocated ⟨0,3⟩ twoLines (Kernel.memInitAllocated ⟨0,3⟩ fun _ => false)

theorem oneFrame_run : FrameRun ⟨0,3⟩ oneFrameLoaded.2 oneFrameAllocated := by
  have hsome : (oneFrame.replacePage ⟨0,3⟩ twoLines 0).isSome := by decide
  obtain ⟨r,hr⟩ := Option.isSome_iff_exists.mp hsome
  have hloaded : oneFrameLoaded = r := by rw [oneFrameLoaded,hr,Option.getD_some]
  rw [hloaded]
  exact .load (.init _ _) rfl hr

/-- The page of two lines is full, and these two slots are freed for the next page. -/
theorem frame_frees_allocated_one_frame : oneFrameLoaded.2.findSpace ⟨0,3⟩ = none ∧
    oneFrameLoaded.2.lruIndex ⟨0,3⟩ = 0 ∧ oneFrameLoaded.2.freeStop ⟨0,3⟩ = 2 ∧
    (∀ i ∈ frames ⟨0,3⟩, ∃ n ≤ 3, Shape oneFrameLoaded.2.mem oneFrameAllocated (0 + i) n) ∧
    ∀ k, oneFrameLoaded.2.lruIndex ⟨0,3⟩ ≤ k → k < oneFrameLoaded.2.freeStop ⟨0,3⟩ →
      k < Config.shellMemLength ⟨0,3⟩ → oneFrameAllocated k = true :=
  ⟨by decide,by decide,by decide,frame_frees_allocated oneFrame_run (by decide)⟩

end ShellOS.Ready
