import ShellOS.Shell.Chaining
import ShellOS.Lib.Runs

/-! The words that a line is split into. A space behind a space, or in front of the end of line,
makes an empty word. -/
namespace ShellOS.Shell
open CLib Runs
variable {tmp s line : CString}

/-- What separates words. -/
def blank (c : UInt8) : Bool := c == 32 || c == 10

/-- No space is followed by one, nor by the end of the line. -/
def SingleSpaces (s : CString) : Prop := ¬ [32,32] <:+: s ∧ ¬ [32,10] <:+: s

/-- A line without `;` is one section: its words are those of the first call of `interpreter`, and
the interpreter cuts off their newlines. -/
def SplitsIntoRuns (line : CString) : Prop :=
  ∀ (σ : Type) (k : Kernel σ) (fuel : ℕ) (st : State σ) (out : Outcome σ), parseInput k fuel line st = some out →
    (out.calls.headD []).map stripNewline = runs blank line

/-! ### The words of a section -/

theorem stripNewline_eq_self {w : CString} (h13 : 13 ∉ w) (h10 : 10 ∉ w) : stripNewline w = w := by
  refine List.takeWhile_eq_self_iff.mpr fun c hc => ?_
  have hne : c ≠ 13 ∧ c ≠ 10 := ⟨fun he => h13 (he ▸ hc),fun he => h10 (he ▸ hc)⟩
  simp [hne]

theorem stripNewline_newline {w : CString} (h13 : 13 ∉ w) (h10 : 10 ∉ w) : stripNewline (w ++ [10]) = w := by
  have hw : w.takeWhile (fun c => c != 13 && c != 10) = w := stripNewline_eq_self h13 h10
  have hall : ∀ c ∈ w, (c != 13 && c != 10) = true := List.takeWhile_eq_self_iff.mp hw
  rw [stripNewline,List.takeWhile_append_of_pos hall]
  exact List.append_nil w

theorem singleSpaces_space (s : CString) : SingleSpaces (32::s) ↔
    s.head? ≠ some 32 ∧ s.head? ≠ some 10 ∧ SingleSpaces s := by
  cases s with
  | nil => simp [SingleSpaces,List.infix_cons_iff]
  | cons c s =>
    have h32 : 32 = c ↔ c = 32 := eq_comm
    have h10 : 10 = c ↔ c = 10 := eq_comm
    simp only [SingleSpaces,List.infix_cons_iff (a := (32 : UInt8)),List.cons_prefix_cons,List.nil_prefix,and_true,true_and,
      List.head?_cons,ne_eq,Option.some.injEq,h32,h10]
    tauto

theorem singleSpaces_cons {c : UInt8} (hc : c ≠ 32) (s : CString) : SingleSpaces (c::s) ↔ SingleSpaces s := by
  simp only [SingleSpaces,List.infix_cons_iff (a := c),List.cons_prefix_cons,Ne.symm hc,false_and,false_or]

theorem runs_word {w : CString} (hw : ∀ c ∈ w, c ≠ 32 ∧ c ≠ 10) (hne : w ≠ []) : runs blank w = [w] :=
  runs_run (fun c hc => by simp [blank,hw c hc]) hne

/-- The loop, with `tmp` begun: an empty word is one too many. -/
theorem splitWords_eq_runs_iff (htmp : ∀ c ∈ tmp, c ≠ 32 ∧ c ≠ 10) (htmp13 : 13 ∉ tmp) (hs13 : 13 ∉ s)
    (hs10 : 10 ∉ s.dropLast) : (splitWords tmp s).map stripNewline = runs blank (tmp ++ s) ↔
      (tmp = [] → s ≠ [] ∧ s.head? ≠ some 32 ∧ s.head? ≠ some 10) ∧ SingleSpaces s := by
  have hstrip : stripNewline tmp = tmp := stripNewline_eq_self htmp13 fun h => (htmp 10 h).2 rfl
  induction s generalizing tmp with
  | nil =>
    rw [splitWords,List.append_nil,List.map_singleton,hstrip]
    by_cases hne : tmp = []
    · subst hne
      simp
    · simp [runs_word htmp hne,hne,SingleSpaces]
  | cons c s ih =>
    have hs13' : 13 ∉ s := fun h => hs13 (List.mem_cons_of_mem c h)
    have hs10' : 10 ∉ s.dropLast := fun h => hs10 (List.mem_of_mem_tail (by
      cases s with
      | nil => cases h
      | cons d s => exact h))
    by_cases hc : c = 32
    · subst hc
      rw [splitWords,if_pos rfl,List.map_cons,hstrip,runs_append (by rfl),singleSpaces_space]
      by_cases hne : tmp = []
      · subst hne
        refine iff_of_false (fun h => ?_) fun h => (h.1 rfl).2.1 rfl
        rw [runs_nil,List.nil_append] at h
        have hmem : [] ∈ runs blank s := h ▸ List.mem_cons_self
        exact (mem_runs hmem).1 rfl
      · rw [runs_word htmp hne,List.singleton_append,List.cons.injEq,eq_self_iff_true,true_and]
        have hrest := @ih [] (by simp) (by simp) hs13' hs10' rfl
        rw [List.nil_append] at hrest
        by_cases hs : s = []
        · subst hs
          simp [hne,SingleSpaces]
        · rw [if_neg hs]
          refine hrest.trans ?_
          simp only [hne,hs,false_imp_iff,true_and,ne_eq,not_false_eq_true,forall_const,and_assoc]
    · by_cases hnl : c = 10
      · -- the newline is the end of the line
        obtain rfl : s = [] := by
          by_contra hs
          rw [hnl,List.dropLast_cons_of_ne_nil hs] at hs10
          exact hs10 List.mem_cons_self
        subst hnl
        rw [splitWords,if_neg hc,splitWords,List.map_singleton,stripNewline_newline htmp13 fun h => (htmp 10 h).2 rfl,
          runs_append (by rfl),runs_nil,List.append_nil]
        by_cases hne : tmp = []
        · subst hne
          simp
        · simp [runs_word htmp hne,hne,SingleSpaces,List.infix_cons_iff]
      · have htmp' : ∀ d ∈ tmp ++ [c], d ≠ 32 ∧ d ≠ 10 := fun d hd => by
          cases List.mem_append.mp hd with
          | inl hd => exact htmp d hd
          | inr hd =>
            rw [List.mem_singleton.mp hd]
            exact ⟨hc,hnl⟩
        have h13 : 13 ∉ tmp ++ [c] := fun hd => by
          cases List.mem_append.mp hd with
          | inl hd => exact htmp13 hd
          | inr hd => exact hs13 (List.mem_singleton.mp hd ▸ List.mem_cons_self)
        have hrest := ih htmp' h13 hs13' hs10' (stripNewline_eq_self h13 fun h => (htmp' 10 h).2 rfl)
        rw [List.append_assoc,List.singleton_append] at hrest
        rw [splitWords,if_neg hc,singleSpaces_cons hc]
        refine hrest.trans ?_
        simp [hc,hnl]

/-- The words are the runs just if the line has no carriage return, which the interpreter cuts off
with what follows it, and no empty word. -/
theorem words_eq_runs_iff (h : 10 ∉ line.dropLast) : (words line).map stripNewline = runs blank line ↔
    13 ∉ line ∧ (line.dropWhile (· == 32)).head? ≠ some 10 ∧ SingleSpaces (line.dropWhile (· == 32)) := by
  have hruns : runs blank (line.dropWhile (· == 32)) = runs blank line :=
    runs_dropWhile (fun c hc => by simp [blank,hc]) line
  by_cases h13 : 13 ∈ line
  · refine iff_of_false (fun he => ?_) fun hc => hc.1 h13
    have hmem : 13 ∈ (runs blank line).flatten := mem_flatten_runs.mpr ⟨h13,rfl⟩
    rw [← he] at hmem
    obtain ⟨w,hw,h13w⟩ := List.mem_flatten.mp hmem
    obtain ⟨u,-,rfl⟩ := List.mem_map.mp hw
    have := List.mem_takeWhile_imp h13w
    cases this
  · rw [← hruns,words]
    cases hs : line.dropWhile (· == 32) with
    | nil => simp [h13,SingleSpaces]
    | cons c s =>
      have hsub : c::s <:+ line := hs ▸ List.dropWhile_suffix _
      have hdrop : 10 ∉ (c::s).dropLast := fun hm => h (by
        obtain ⟨front,hfront⟩ := hsub
        rw [← hfront,List.dropLast_append_of_ne_nil (List.cons_ne_nil c s)]
        exact List.mem_append_right front hm)
      have hhead : (c::s).head? ≠ some 32 := by
        have := List.head?_dropWhile_not (· == 32) line
        rw [hs] at this
        simpa using this
      have hloop := @splitWords_eq_runs_iff [] (c::s) (by simp) (by simp) (fun hm => h13 (hsub.subset hm)) hdrop
      rw [List.nil_append] at hloop
      rw [hloop]
      simp only [h13,hhead,ne_eq,reduceCtorEq,not_false_eq_true,true_and,forall_const]

/-! ### The first call of `interpreter` -/

theorem parseLoop_calls {σ : Type} {interp : List CString → State σ → Option (ℤ × State σ)} {rounds : ℕ}
    {token : Option CString} {out out' : Outcome σ} (h : parseLoop interp rounds token out = some out') :
    out.calls <+: out'.calls := by
  induction rounds generalizing token out with
  | zero =>
    cases token with
    | none => exact (Option.some.inj h) ▸ List.prefix_rfl
    | some token => cases h
  | succ rounds ih =>
    cases token with
    | none => exact (Option.some.inj h) ▸ List.prefix_rfl
    | some token =>
      rw [parseLoop] at h
      obtain ⟨r,-,h⟩ := Option.bind_eq_some_iff.mp h
      refine (List.prefix_append out.calls [words token]).trans ?_
      split at h
      · rw [← Option.some.inj h]
      · exact ih h

theorem strtok_no_delim {delim : UInt8} {cursor : CString} (hne : line ≠ []) (h : delim ∉ line) :
    strtok delim (some line) cursor = (some line,[]) := by
  have := strtok_joinTokens ⟨hne,h⟩ [] cursor
  rwa [show joinTokens delim [line] = line by simp [joinTokens,List.intercalate]] at this

theorem parseInput_first_call {σ : Type} {k : Kernel σ} {fuel : ℕ} {st : State σ} {out : Outcome σ} (h : 59 ∉ line)
    (hout : parseInput k fuel line st = some out) : out.calls.headD [] = words line := by
  cases fuel with
  | zero => cases hout
  | succ fuel =>
    by_cases hne : line = []
    · subst hne
      rw [parseInput,strtok_nil] at hout
      rw [← Option.some.inj hout]
      rfl
    · rw [parseInput,strtok_no_delim hne h,parseLoop] at hout
      obtain ⟨r,-,hout⟩ := Option.bind_eq_some_iff.mp hout
      have hcalls : [words line] <+: out.calls := by
        split at hout
        · rw [← Option.some.inj hout]
          exact List.prefix_rfl
        · exact parseLoop_calls hout
      obtain ⟨later,hlater⟩ := hcalls
      rw [← hlater]
      rfl

/-- A shell whose commands do nothing, and which refuses every script. -/
def idleKernel : Kernel Unit where
  command _ s := some (0,s)
  copy _ s := s
  newProc _ s := some (false,s)
  queueDone _ := true
  dispatch s := (none,s)
  advance _ s := some s
  teardown s := s
  clean s := s

theorem execute_idle (parse : Parser Unit) (rounds : ℕ) (args : List CString) (st : State Unit) :
    ∃ r, execute idleKernel parse rounds args st = some r ∧ r.2.cursor = st.cursor := by
  unfold execute
  split
  · exact ⟨_,rfl,rfl⟩
  · rename_i name scripts _
    split
    · split
      · exact ⟨_,rfl,rfl⟩
      · rename_i hlen
        split
        · exact ⟨_,rfl,rfl⟩
        · unfold withScripts runScripts
          cases scripts with
          | nil => exact absurd Nat.zero_lt_one hlen
          | cons script scripts =>
            split <;> exact ⟨_,rfl,rfl⟩
    · exact ⟨_,rfl,rfl⟩

theorem parseInput_idle (h : 59 ∉ line) : ∃ out, parseInput idleKernel 1 line ⟨[],[],()⟩ = some out := by
  by_cases hne : line = []
  · subst hne
    exact ⟨_,rfl⟩
  · obtain ⟨r,hr,hcursor⟩ := execute_idle (fun line st => (parseInput idleKernel 0 line st).map fun o => (o.ret,o.state)) 0
      (words line) ⟨[],[],()⟩
    rw [parseInput,strtok_no_delim hne h,parseLoop,interpreter,hr,Option.map_some,Option.bind_some]
    split
    · exact ⟨_,rfl⟩
    · rw [hcursor,strtok_end]
      exact ⟨_,rfl⟩

/-- A line gives the runs between its spaces as words just if it has no carriage return, does not
begin with the end of line, and no space behind the first word is followed by another one or by the
end of line. -/
theorem splits_into_runs_iff (line : CString) (hsemicolon : 59 ∉ line) (hnewline : 10 ∉ line.dropLast) :
    SplitsIntoRuns line ↔ 13 ∉ line ∧ (line.dropWhile (· == 32)).head? ≠ some 10 ∧
      SingleSpaces (line.dropWhile (· == 32)) := by
  rw [← words_eq_runs_iff hnewline]
  constructor
  · intro h
    obtain ⟨out,hout⟩ := parseInput_idle hsemicolon
    rw [← parseInput_first_call hsemicolon hout]
    exact h Unit idleKernel 1 _ out hout
  · intro h σ k fuel st out hout
    rw [parseInput_first_call hsemicolon hout]
    exact h

theorem splits_into_runs_iff_echo : SplitsIntoRuns (cstr "  echo a\n") ↔ 13 ∉ cstr "  echo a\n" ∧
    ((cstr "  echo a\n").dropWhile (· == 32)).head? ≠ some 10 ∧
      SingleSpaces ((cstr "  echo a\n").dropWhile (· == 32)) :=
  splits_into_runs_iff (cstr "  echo a\n") (by decide) (by decide)

/-- Two spaces between two words: there is an empty word. -/
theorem splits_into_runs_two_spaces : ¬ ∀ line : CString, 59 ∉ line → 10 ∉ line.dropLast → SplitsIntoRuns line :=
  fun h => by
    have hsplit := (@words_eq_runs_iff (cstr "a  b") (by decide)).not.mpr (by
      simp only [SingleSpaces]
      decide)
    obtain ⟨out,hout⟩ := @parseInput_idle (cstr "a  b") (by decide)
    refine hsplit ?_
    rw [← parseInput_first_call (by decide) hout]
    exact h (cstr "a  b") (by decide) (by decide) Unit idleKernel 1 _ out hout

end ShellOS.Shell
