import ShellOS.Lib.Recency
import ShellOS.Ready.Kernel

/-! Which frame makes room for a page. -/
namespace ShellOS.Ready
open CLib Recency

/-- The frames by their first slots, counted from the start of the frame store. -/
def frames (cfg : Config) : Finset ℕ := (Finset.range cfg.frameSize).filter fun i => i % 3 = 0

/-- The frame of a slot. -/
def frameOf (cfg : Config) (index : ℕ) : ℕ := index - cfg.varMemSize - (index - cfg.varMemSize) % 3

variable {ω : Type}

/-- The page loads and line fetches since the memory was set up, the latest first. Between them everything
may change that is not in the frame store. -/
inductive PageRun (cfg : Config) : Kernel ω → List (Use ℕ) → Prop
  | init (K : Kernel ω) : PageRun cfg (K.memInit cfg) []
  | load {K K' : Kernel ω} {H : List (Use ℕ)} {p p' : PCB} {page : ℕ} (h : PageRun cfg K H)
      (hl : K.replacePage cfg p page = some (p',K')) : PageRun cfg K' (.load (p'.pageTable page - cfg.varMemSize)::H)
  | fetch {K K' : Kernel ω} {H : List (Use ℕ)} {index : ℕ} {line : CString} (h : PageRun cfg K H)
      (hi : cfg.varMemSize ≤ index) (hi' : index < cfg.shellMemLength)
      (hf : K.memGetValueAtLine cfg index = some (line,K')) : PageRun cfg K' (.fetch (frameOf cfg index)::H)
  | other {K K' : Kernel ω} {H : List (Use ℕ)} (h : PageRun cfg K H)
      (hmem : ∀ i, cfg.varMemSize ≤ i → K'.mem i = K.mem i) (hage : K'.age = K.age)
      (hnow : K'.currentAge = K.currentAge) : PageRun cfg K' H

/-- `r` was used last before every other frame. -/
def LeastRecent (cfg : Config) (H : List (Use ℕ)) (r : ℕ) : Prop :=
  r ∈ frames cfg ∧ ∀ i ∈ frames cfg, i ≠ r → Before H r i

/-- If the frame used last before the others was loaded then, the frames loaded with no fetch in between
lie behind it. -/
def TiesInOrder (cfg : Config) (H : List (Use ℕ)) : Prop :=
  ∀ i j, LeastRecent cfg H i → j ∈ frames cfg → Tied H i j → i < j

variable {cfg : Config} {K K' : Kernel ω} {H : List (Use ℕ)} {p : PCB} {page index : ℕ}

theorem mem_frames {i : ℕ} : i ∈ frames cfg ↔ i < cfg.frameSize ∧ i % 3 = 0 := by simp [frames]

theorem copyLines_of_not_mem (name : CString) {k : ℕ} : ∀ (n j : ℕ) (s : CString) (m : Pager.Memory), k < j ∨ j + n ≤ k →
    copyLines name n j s m k = m k := by
  intro n
  induction n with
  | zero => exact fun j s m _ => rfl
  | succ n ih =>
    intro j s m hk
    rw [copyLines,ih _ _ _ (by omega)]
    split
    · rfl
    · exact Function.update_of_ne (by omega) _ _

namespace Kernel

/-- The scan for the oldest frame finds the first of them. -/
theorem getOldest_spec (hpos : 0 < cfg.frameSize) (K : Kernel ω) : K.getOldest cfg ∈ frames cfg ∧
    ∀ i ∈ frames cfg, K.age (K.getOldest cfg) ≤ K.age i ∧ (K.age (K.getOldest cfg) = K.age i → K.getOldest cfg ≤ i) := by
  have hsorted : ((List.range cfg.frameSize).filter (· % 3 == 0)).Pairwise (· ≤ ·) :=
    (List.pairwise_le_range.filter _)
  obtain ⟨hmem,hleast⟩ := foldl_least K.age _ 0 (fun b _ => Nat.zero_le b) hsorted
  have hlist : ∀ i, i ∈ 0::(List.range cfg.frameSize).filter (· % 3 == 0) ↔ i ∈ frames cfg := by
    intro i
    rw [mem_frames,List.mem_cons,List.mem_filter,List.mem_range,beq_iff_eq]
    constructor
    · rintro (rfl | h)
      · exact ⟨hpos,rfl⟩
      · exact h
    · exact .inr
  exact ⟨(hlist _).mp hmem,fun i hi => hleast i ((hlist i).mpr hi)⟩

theorem getOldest_mod (cfg : Config) (K : Kernel ω) : K.getOldest cfg % 3 = 0 := by
  by_cases hpos : 0 < cfg.frameSize
  · exact (mem_frames.mp (K.getOldest_spec hpos).1).2
  · have hzero : cfg.frameSize = 0 := by omega
    rw [getOldest,hzero]
    rfl

theorem used_of_full (hfull : K.findSpace cfg = none) {i : ℕ} (hi : i ∈ frames cfg) :
    (K.mem (cfg.varMemSize + i)).var ≠ cstr "none" := by
  obtain ⟨hlt,hmod⟩ := mem_frames.mp hi
  intro hfree
  have hnone := List.find?_eq_none.mp hfull (cfg.varMemSize + i) (List.mem_range.mpr (Nat.add_lt_add_left hlt _))
  simp [hmod,hfree] at hnone

theorem dropVictim_memory {r : PCB × Kernel ω} (h : K.dropVictim index p = some r) :
    r.2.mem = K.mem ∧ r.2.age = K.age ∧ r.2.currentAge = K.currentAge := by
  unfold dropVictim at h
  split_ifs at h
  · obtain rfl := Option.some.inj h
    exact ⟨rfl,rfl,rfl⟩
  · obtain ⟨prev,-,rfl⟩ := Option.map_eq_some_iff.mp h
    cases prev with
    | none => exact ⟨rfl,rfl,rfl⟩
    | some a =>
      dsimp only
      cases K.node a with
      | none => exact ⟨rfl,rfl,rfl⟩
      | some n => exact ⟨rfl,rfl,rfl⟩

/-- What a page load does to the frame store. -/
structure Loads (cfg : Config) (i : ℕ) (K K' : Kernel ω) : Prop where
  frame : i % 3 = 0
  now : K'.currentAge = K.currentAge
  age : ∀ j, j % 3 = 0 → K'.age j = Function.update K.age i K.currentAge j
  mem : ∀ j, j < cfg.varMemSize + i ∨ cfg.varMemSize + i + 3 ≤ j → K'.mem j = K.mem j

theorem copyToMem_loads {lines i : ℕ} {name : CString} {K₁ : Kernel ω} (hi : i % 3 = 0) (hnow : K₁.currentAge = K.currentAge)
    (hage : K₁.age = K.age) (hmem : ∀ j, j < cfg.varMemSize + i ∨ cfg.varMemSize + i + 3 ≤ j → K₁.mem j = K.mem j) :
    Loads cfg i K (K₁.copyToMem cfg lines name (cfg.varMemSize + i)) where
  frame := hi
  now := hnow
  age j hj := by
    change (if _ then K₁.currentAge else K₁.age j) = _
    rw [hnow,hage,Function.update_apply]
    exact if_congr (by omega) rfl rfl
  mem j hj := (copyLines_of_not_mem name 3 _ _ _ hj).trans (hmem j hj)

theorem replacePage_loads {p' : PCB} (h : K.replacePage cfg p page = some (p',K')) :
    ∃ i, p'.pageTable page = cfg.varMemSize + i ∧ Loads cfg i K K' := by
  unfold replacePage at h
  dsimp only at h
  cases hs : K.findSpace cfg with
  | some slot =>
    rw [hs] at h
    obtain ⟨rfl,rfl⟩ := Prod.mk.inj (Option.some.inj h)
    have hslot := List.find?_some hs
    simp only [Bool.and_eq_true,decide_eq_true_eq,beq_iff_eq] at hslot
    obtain ⟨i,rfl⟩ := Nat.exists_eq_add_of_le hslot.1
    refine ⟨i,Function.update_self _ _ _,copyToMem_loads (by omega) rfl rfl fun _ _ => rfl⟩
  | none =>
    rw [hs] at h
    obtain ⟨r,hr,he⟩ := Option.map_eq_some_iff.mp h
    obtain ⟨rfl,rfl⟩ := Prod.mk.inj he
    obtain ⟨hmem,hage,hnow⟩ := dropVictim_memory hr
    rw [Nat.add_comm] at hmem hage hnow
    refine ⟨K.getOldest cfg,?_,?_⟩
    · rw [Nat.add_comm]
      exact Function.update_self _ _ _
    · rw [Nat.add_comm (K.getOldest cfg)]
      refine copyToMem_loads (getOldest_mod cfg K) hnow hage fun j hj => ?_
      rw [hmem]
      exact if_neg (by omega)

end Kernel

/-- The ages of the frames are those of a clock, and only frames that were used hold lines. -/
structure Clocked (cfg : Config) (C : Clock ℕ) (K : Kernel ω) (H : List (Use ℕ)) : Prop where
  now : K.currentAge = (C.after 1 3 H).now
  age : ∀ i, i % 3 = 0 → K.age i = (C.after 1 3 H).age i
  used : ∀ i ∈ frames cfg, (K.mem (cfg.varMemSize + i)).var ≠ cstr "none" → Used H i

theorem Clocked.load {C : Clock ℕ} {i : ℕ} (h : Clocked cfg C K H) (hl : Kernel.Loads cfg i K K') :
    Clocked cfg C K' (.load i::H) where
  now := hl.now.trans h.now
  age j hj := by
    rw [hl.age j hj,Function.update_apply,h.now,h.age j hj]
    exact (Function.update_apply _ _ _ _).symm
  used j hj hne := by
    by_cases hji : j = i
    · exact used_cons_iff.mpr (.inl hji.symm)
    · have hmod := (mem_frames.mp hj).2
      have hi := hl.frame
      rw [hl.mem _ (by omega)] at hne
      exact used_cons_iff.mpr (.inr (h.used j hj hne))

theorem Clocked.fetch {C : Clock ℕ} {line : CString} (h : Clocked cfg C K H)
    (hf : K.memGetValueAtLine cfg index = some (line,K')) : Clocked cfg C K' (.fetch (frameOf cfg index)::H) := by
  unfold Kernel.memGetValueAtLine at hf
  split_ifs at hf
  obtain ⟨-,rfl⟩ := Prod.mk.inj (Option.some.inj hf)
  have hframe : frameOf cfg index % 3 = 0 := by unfold frameOf; omega
  refine ⟨congrArg (· + 3) h.now,fun j hj => ?_,fun j hj hne => used_cons_iff.mpr (.inr (h.used j hj hne))⟩
  change (if j = frameOf cfg index then K.currentAge + 1 else if j = frameOf cfg index + 1 then K.currentAge + 2
    else if j = frameOf cfg index + 2 then K.currentAge + 3 else K.age j) = _
  have hupdate : ((C.after 1 3 (.fetch (frameOf cfg index)::H)).age j) =
      if j = frameOf cfg index then (C.after 1 3 H).now + 1 else (C.after 1 3 H).age j := Function.update_apply _ _ _ _
  rw [hupdate,h.now,h.age j hj]
  by_cases hji : j = frameOf cfg index
  · rw [if_pos hji,if_pos hji]
  · rw [if_neg hji,if_neg (by omega),if_neg (by omega),if_neg hji]

/-- Every run keeps the ages of a clock that fetches set on by 3. -/
theorem PageRun.clocked (h : PageRun cfg K H) : ∃ C, Clocked cfg C K H := by
  induction h with
  | init K =>
    refine ⟨⟨(K.memInit cfg).age,K.currentAge⟩,rfl,fun _ _ => rfl,fun i hi hne => absurd ?_ hne⟩
    have hlt : cfg.varMemSize + i < cfg.shellMemLength := Nat.add_lt_add_left (mem_frames.mp hi).1 _
    have hempty : (K.memInit cfg).mem (cfg.varMemSize + i) = Pager.emptyCell := if_pos hlt
    rw [hempty]
    rfl
  | load h hl ih =>
    obtain ⟨C,hC⟩ := ih
    obtain ⟨i,hi,hl⟩ := Kernel.replacePage_loads hl
    rw [hi,Nat.add_sub_cancel_left]
    exact ⟨C,hC.load hl⟩
  | fetch h hi hi' hf ih =>
    obtain ⟨C,hC⟩ := ih
    exact ⟨C,hC.fetch hf⟩
  | other h hmem hage hnow ih =>
    obtain ⟨C,hC⟩ := ih
    refine ⟨C,hnow.trans hC.now,fun i hi => hage ▸ hC.age i hi,fun i hi hne => hC.used i hi ?_⟩
    rwa [hmem _ (Nat.le_add_right _ _)] at hne

/-- In every run, when no frame is free, the frame that makes room is the one used last before the others
just when the frames tied with that one lie behind it. -/
theorem getOldest_leastRecent_iff (h : PageRun cfg K H) (hpos : 0 < cfg.frameSize) (hfull : K.findSpace cfg = none) :
    LeastRecent cfg H (K.getOldest cfg) ↔ TiesInOrder cfg H := by
  obtain ⟨C,hC⟩ := h.clocked
  obtain ⟨hmem,hleast⟩ := K.getOldest_spec hpos
  have hage : ∀ i ∈ frames cfg, K.age i = (C.after 1 3 H).age i := fun i hi => hC.age i (mem_frames.mp hi).2
  have hclock := leastRecent_iff (C := C) (by decide : (0 : ℤ) < 1) (by decide : (1 : ℤ) < 3)
    (fun i hi => hC.used i hi (Kernel.used_of_full hfull hi)) hmem
    fun j hj => by rw [← hage j hj,← hage _ hmem]; exact hleast j hj
  rw [LeastRecent,and_iff_right hmem,hclock]
  exact ⟨fun h i j hi hj => h i hi.1 j hj hi.2,fun h i hi j hj hrecent => h i j ⟨hi,hrecent⟩ hj⟩

/-! ### Two frames -/

/-- A process whose script has nine lines. -/
def nineLines : PCB := makePCB 1 3 3 (cstr "f")

/-- The kernel with two frames before any page is loaded. -/
def twoFrames : Kernel Unit := Kernel.memInit ⟨3,6⟩
  { Kernel.start () with store := fun _ => cstr "ls\nls\nls\nls\nls\nls\nls\nls\nls\n" }

/-- What is left after so many pages were loaded one after the other. -/
def loadPages : ℕ → PCB × Kernel Unit
  | 0 => (nineLines,twoFrames)
  | n+1 => ((loadPages n).2.replacePage ⟨3,6⟩ (loadPages n).1 n).getD (loadPages n)

theorem loadPages_succ {n : ℕ} (h : ((loadPages n).2.replacePage ⟨3,6⟩ (loadPages n).1 n).isSome) :
    (loadPages n).2.replacePage ⟨3,6⟩ (loadPages n).1 n = some (loadPages (n + 1)) := by
  obtain ⟨r,hr⟩ := Option.isSome_iff_exists.mp h
  rw [loadPages,hr]
  rfl

theorem mem_twoFrames {i : ℕ} (h : i ∈ frames ⟨3,6⟩) : i = 0 ∨ i = 3 := by
  have hi : i < 6 ∧ i % 3 = 0 := mem_frames.mp h
  omega

theorem pageRun_two : PageRun ⟨3,6⟩ (loadPages 2).2 [.load 3,.load 0] :=
  .load (.load (.init _) (loadPages_succ (n := 0) (by decide))) (loadPages_succ (n := 1) (by decide))

/-- With both frames loaded and no line fetched the first one makes room. -/
theorem getOldest_two_loads : LeastRecent ⟨3,6⟩ [.load 3,.load 0] ((loadPages 2).2.getOldest ⟨3,6⟩) := by
  refine (getOldest_leastRecent_iff pageRun_two (by decide) (by decide)).mpr fun i j hi hj htied => ?_
  have hi0 : i = 0 := by
    rcases mem_twoFrames hi.1 with rfl | rfl
    · rfl
    · exact absurd (hi.2 0 (by decide) (by decide)) not_used_nil
  have hj3 : j = 3 := by
    rcases mem_twoFrames hj with rfl | rfl
    · exact absurd (hi0 ▸ htied.1) not_before_self
    · rfl
  omega

/-- With a third page in it the first frame still does, though the other one was used last before. -/
theorem getOldest_three_loads : PageRun ⟨3,6⟩ (loadPages 3).2 [.load 0,.load 3,.load 0] ∧
    (loadPages 3).2.findSpace ⟨3,6⟩ = none ∧ (loadPages 3).2.getOldest ⟨3,6⟩ = 0 ∧
    LeastRecent ⟨3,6⟩ [.load 0,.load 3,.load 0] 3 ∧ ¬ LeastRecent ⟨3,6⟩ [.load 0,.load 3,.load 0] 0 := by
  refine ⟨?_,by decide,by decide,⟨by decide,fun i hi hne => ?_⟩,fun h => ?_⟩
  · exact .load pageRun_two (loadPages_succ (n := 2) (by decide))
  · obtain rfl := (mem_twoFrames hi).resolve_right hne
    exact ⟨.load 0,by decide,rfl⟩
  · exact not_used_nil (h.2 3 (by decide) (by decide))

end ShellOS.Ready
