import ShellOS.Shell.ParseInput

/-! Command chaining. A nested `parseInput` runs the cursor of `strtok` to the end of its own line, so
the sections of the outer line that follow are lost. -/
namespace ShellOS.Shell
open CLib

section
variable {σ : Type} {k : Kernel σ}

/-- No line may be parsed. -/
def noParser : Parser σ := fun _ _ => none

/-- A parser that leaves the cursor at the end, unless some command returned -1 on the way. -/
def Exhausts (parse : Parser σ) : Prop :=
  ∀ line st r, parse line st = some r → st.returned <+: r.2.returned ∧ (-1 ∉ r.2.returned → r.2.cursor = [])

/-- What a piece of the interpreter does to the cursor: it parses nothing and leaves the cursor
alone, or it leaves it at the end. -/
def Effect (quiet : Option (ℤ × State σ)) (st : State σ) (r : ℤ × State σ) : Prop :=
  st.returned <+: r.2.returned ∧
    (-1 ∉ r.2.returned → quiet = some r ∧ r.2.cursor = st.cursor ∨ r.2.cursor = [])

theorem Exhausts.runProcRR {parse : Parser σ} (h : Exhausts parse) (rounds : ℕ) {st : State σ} {r : ℤ × State σ}
    (hr : runProcRR k parse rounds st = some r) : Effect (runProcRR k noParser rounds st) st r := by
  induction rounds generalizing st with
  | zero => simp [Shell.runProcRR] at hr
  | succ rounds ih =>
    simp only [Shell.runProcRR] at hr ⊢
    split at hr
    · obtain rfl := Option.some.inj hr
      exact ⟨List.prefix_rfl,fun _ => .inl (by simp_all)⟩
    · rename_i hq
      rw [if_neg hq]
      obtain ⟨c,hc,hr⟩ := Option.bind_eq_some_iff.mp hr
      obtain ⟨s,hs,hr⟩ := Option.bind_eq_some_iff.mp hr
      obtain ⟨hp,hcur⟩ := ih hr
      cases hd : (k.dispatch st.rest).1 with
      | none =>
        -- a page fault parses nothing
        rw [hd,cpuRun] at hc
        obtain rfl := Option.some.inj hc
        refine ⟨hp,fun hm => (hcur hm).imp_left fun hq => ⟨?_,hq.2⟩⟩
        simp [cpuRun,hs,hq.1]
      | some line =>
        rw [hd,cpuRun] at hc
        obtain ⟨hp',hcur'⟩ := h line _ c hc
        refine ⟨hp'.trans hp,fun hm => .inr ?_⟩
        have hend := hcur' fun hm' => hm (hp.subset hm')
        cases hcur hm with
        | inl hq => exact hq.2.trans hend
        | inr he => exact he

theorem Exhausts.withScripts {parse : Parser σ} (h : Exhausts parse) (rounds : ℕ) {scripts : List CString}
    {st : State σ} {r : ℤ × State σ} (hr : withScripts k parse rounds scripts st = some r) :
    Effect (withScripts k noParser rounds scripts st) st r := by
  simp only [Shell.withScripts,runScripts] at hr ⊢
  obtain ⟨a,ha,rfl⟩ := Option.map_eq_some_iff.mp hr
  split at ha
  · obtain rfl := Option.some.inj ha
    exact ⟨List.prefix_rfl,fun _ => .inl (by simp_all)⟩
  · rename_i hlen
    rw [if_neg hlen]
    obtain ⟨b,hb,ha⟩ := Option.bind_eq_some_iff.mp ha
    rw [hb,Option.bind_some]
    cases hok : b.1 with
    | false =>
      rw [hok] at ha
      obtain rfl := Option.some.inj ha
      exact ⟨List.prefix_rfl,fun _ => .inl ⟨rfl,rfl⟩⟩
    | true =>
      rw [hok,if_pos rfl] at ha
      obtain ⟨hp,hcur⟩ := h.runProcRR rounds ha
      refine ⟨hp,fun hm => (hcur hm).imp_left fun hq => ⟨?_,hq.2⟩⟩
      rw [if_pos rfl,hq.1]
      rfl

theorem Exhausts.execute {parse : Parser σ} (h : Exhausts parse) (rounds : ℕ) {args : List CString}
    {st : State σ} {r : ℤ × State σ} (hr : execute k parse rounds args st = some r) :
    Effect (execute k noParser rounds args st) st r := by
  simp only [Shell.execute] at hr ⊢
  cases hargs : args.map stripNewline with
  | nil =>
    simp only [hargs] at hr
    obtain rfl := Option.some.inj hr
    exact ⟨List.prefix_rfl,fun _ => .inl ⟨rfl,rfl⟩⟩
  | cons name scripts =>
    simp only [hargs] at hr ⊢
    split_ifs at hr ⊢
    · obtain rfl := Option.some.inj hr
      exact ⟨List.prefix_rfl,fun _ => .inl ⟨rfl,rfl⟩⟩
    · obtain rfl := Option.some.inj hr
      exact ⟨List.prefix_rfl,fun _ => .inl ⟨rfl,rfl⟩⟩
    · exact h.withScripts rounds hr
    · obtain ⟨a,ha,rfl⟩ := Option.map_eq_some_iff.mp hr
      exact ⟨List.prefix_rfl,fun _ => .inl ⟨by rw [ha]; rfl,rfl⟩⟩

theorem Exhausts.interpreter {parse : Parser σ} (h : Exhausts parse) (rounds : ℕ) {args : List CString}
    {st : State σ} {r : ℤ × State σ} (hr : interpreter k parse rounds args st = some r) :
    Effect (interpreter k noParser rounds args st) st r ∧ r.1 ∈ r.2.returned := by
  simp only [Shell.interpreter] at hr ⊢
  obtain ⟨a,ha,rfl⟩ := Option.map_eq_some_iff.mp hr
  obtain ⟨hp,hcur⟩ := h.execute rounds ha
  refine ⟨⟨hp.trans (List.prefix_append _ _),fun hm => ?_⟩,by simp⟩
  refine (hcur fun hm' => hm (List.mem_append_left _ hm')).imp_left fun hq => ⟨?_,hq.2⟩
  rw [hq.1]
  rfl

/-- The loop of `parseInput` ends with the cursor at the end of a line. -/
theorem Exhausts.parseLoop {parse : Parser σ} (h : Exhausts parse) (fuel rounds : ℕ) {token : Option CString}
    {out out' : Outcome σ} (ht : token = none → out.state.cursor = [])
    (hr : parseLoop (Shell.interpreter k parse fuel) rounds token out = some out') :
    out.state.returned <+: out'.state.returned ∧ (-1 ∉ out'.state.returned → out'.state.cursor = []) := by
  induction rounds generalizing token out with
  | zero =>
    cases token with
    | none =>
      obtain rfl := Option.some.inj hr
      exact ⟨List.prefix_rfl,fun _ => ht rfl⟩
    | some token => simp [Shell.parseLoop] at hr
  | succ rounds ih =>
    cases token with
    | none =>
      obtain rfl := Option.some.inj hr
      exact ⟨List.prefix_rfl,fun _ => ht rfl⟩
    | some token =>
      simp only [Shell.parseLoop] at hr
      obtain ⟨r,hi,hr⟩ := Option.bind_eq_some_iff.mp hr
      obtain ⟨⟨hp,-⟩,hmem⟩ := h.interpreter fuel hi
      split at hr
      · rename_i hret
        obtain rfl := Option.some.inj hr
        exact ⟨hp,fun hm => absurd (hret ▸ hmem) hm⟩
      · obtain ⟨hp',hcur⟩ := ih (fun hn => strtok_none (Prod.ext hn rfl)) hr
        exact ⟨hp.trans hp',hcur⟩

/-- Nested calls of `parseInput` to any depth leave the cursor at the end. -/
theorem exhausts_parseInput (k : Kernel σ) (fuel : ℕ) : Exhausts (nested k fuel) := by
  induction fuel with
  | zero => intro line st r hr; simp [parseInput] at hr
  | succ fuel ih =>
    intro line st r hr
    obtain ⟨out,ho,rfl⟩ := Option.map_eq_some_iff.mp hr
    exact ih.parseLoop fuel (fuel+1) (fun hn => strtok_none (Prod.ext hn rfl)) ho

/-! ### More fuel -/

/-- What the first gives, the second gives too. -/
def Below {α : Type} (x y : Option α) : Prop := ∀ a, x = some a → y = some a

theorem Below.refl {α : Type} (x : Option α) : Below x x := fun _ h => h

theorem Below.bind {α β : Type} {x y : Option α} {f g : α → Option β} (h : Below x y) (hf : ∀ a, Below (f a) (g a)) :
    Below (x.bind f) (y.bind g) := by
  intro b hb
  obtain ⟨a,ha,hfa⟩ := Option.bind_eq_some_iff.mp hb
  rw [h a ha,Option.bind_some]
  exact hf a b hfa

theorem Below.map {α β : Type} {x y : Option α} (h : Below x y) (f : α → β) : Below (x.map f) (y.map f) := by
  intro b hb
  obtain ⟨a,ha,rfl⟩ := Option.map_eq_some_iff.mp hb
  rw [h a ha,Option.map_some]

section
variable {parse parse' : Parser σ} {n m : ℕ}

theorem cpuRun_below (h : ∀ line st, Below (parse line st) (parse' line st)) (line : Option CString) (st : State σ) :
    Below (cpuRun parse line st) (cpuRun parse' line st) := by
  cases line with
  | none => exact .refl _
  | some line => exact h line st

theorem runProcRR_below (h : ∀ line st, Below (parse line st) (parse' line st)) (hle : n ≤ m) (st : State σ) :
    Below (runProcRR k parse n st) (runProcRR k parse' m st) := by
  induction n generalizing m st with
  | zero => exact fun r hr => absurd hr (by simp [runProcRR])
  | succ n ih =>
    obtain ⟨m,rfl⟩ := Nat.exists_eq_succ_of_ne_zero (Nat.ne_of_gt (Nat.lt_of_lt_of_le n.succ_pos hle))
    simp only [runProcRR]
    split
    · exact .refl _
    · exact (cpuRun_below h _ _).bind fun r => (Below.refl _).bind fun s => ih (Nat.le_of_succ_le_succ hle) _

theorem withScripts_below (h : ∀ line st, Below (parse line st) (parse' line st)) (hle : n ≤ m) (scripts : List CString)
    (st : State σ) : Below (withScripts k parse n scripts st) (withScripts k parse' m scripts st) := by
  simp only [withScripts,runScripts]
  refine Below.map ?_ _
  split
  · exact .refl _
  · refine (Below.refl _).bind fun r => ?_
    split
    · exact runProcRR_below h hle _
    · exact .refl _

theorem interpreter_below (h : ∀ line st, Below (parse line st) (parse' line st)) (hle : n ≤ m) (args : List CString)
    (st : State σ) : Below (interpreter k parse n args st) (interpreter k parse' m args st) := by
  simp only [interpreter,execute]
  refine Below.map ?_ _
  cases args.map stripNewline with
  | nil => exact .refl _
  | cons name scripts =>
    dsimp only
    split_ifs
    · exact .refl _
    · exact .refl _
    · exact withScripts_below h hle scripts st
    · exact .refl _

end

theorem parseLoop_below {interp interp' : List CString → State σ → Option (ℤ × State σ)}
    (h : ∀ args st, Below (interp args st) (interp' args st)) {n m : ℕ} (hle : n ≤ m) (token : Option CString)
    (out : Outcome σ) : Below (parseLoop interp n token out) (parseLoop interp' m token out) := by
  induction n generalizing m token out with
  | zero =>
    cases token with
    | none => cases m <;> exact .refl _
    | some token => exact fun r hr => absurd hr (by simp [parseLoop])
  | succ n ih =>
    obtain ⟨m,rfl⟩ := Nat.exists_eq_succ_of_ne_zero (Nat.ne_of_gt (Nat.lt_of_lt_of_le n.succ_pos hle))
    cases token with
    | none => exact .refl _
    | some token =>
      simp only [parseLoop]
      refine (h _ _).bind fun r => ?_
      split
      · exact .refl _
      · exact ih (Nat.le_of_succ_le_succ hle) _ _

/-- A line that is done is done in the same way when deeper calls are allowed. -/
theorem parseInput_below (k : Kernel σ) {n m : ℕ} (hle : n ≤ m) (line : CString) (st : State σ) :
    Below (parseInput k n line st) (parseInput k m line st) := by
  induction n generalizing m line st with
  | zero => exact fun r hr => absurd hr (by simp [parseInput])
  | succ n ih =>
    obtain ⟨m,rfl⟩ := Nat.exists_eq_succ_of_ne_zero (Nat.ne_of_gt (Nat.lt_of_lt_of_le n.succ_pos hle))
    have hnested := fun line st => (ih (Nat.le_of_succ_le_succ hle) line st).map fun o => (o.ret,o.state)
    simp only [parseInput]
    exact parseLoop_below (interpreter_below hnested (Nat.le_of_succ_le_succ hle)) hle _ _

/-! ### Lines that end -/

/-- Each command, run in turn from the state before it, comes back with no -1 on the way. Once one of
them has run a line of a script, nothing is left to run. -/
def Returns (k : Kernel σ) : List CString → State σ → Prop
  | [],_ => True
  | c::cs,st => ∃ fuel r,
      interpreter k (nested k fuel) fuel (words c) { st with cursor := joinTokens 59 cs } = some r ∧
        -1 ∉ r.2.returned ∧ (r.2.cursor ≠ [] → Returns k cs r.2)

theorem parseLoop_returns_iff {cs : List CString} (hcs : ∀ c ∈ cs, Token 59 c) (cursor : CString) (ret : ℤ)
    (calls : List (List CString)) {st : State σ} (hst : -1 ∉ st.returned) :
    (∃ fuel rounds out, parseLoop (interpreter k (nested k fuel) fuel) rounds (strtok 59 (some (joinTokens 59 cs)) cursor).1
      ⟨ret,calls,{ st with cursor := (strtok 59 (some (joinTokens 59 cs)) cursor).2 }⟩ = some out ∧
        -1 ∉ out.state.returned) ↔ Returns k cs st := by
  induction cs generalizing cursor ret calls st with
  | nil => exact iff_of_true ⟨0,0,_,rfl,hst⟩ trivial
  | cons c cs ih =>
    rw [strtok_joinTokens (hcs c (by simp)) cs cursor]
    have ih := ih fun d hd => hcs d (by simp [hd])
    constructor
    · rintro ⟨fuel,rounds,out,hr,hm⟩
      cases rounds with
      | zero => simp [parseLoop] at hr
      | succ rounds =>
        simp only [parseLoop] at hr
        obtain ⟨r,hi,hr⟩ := Option.bind_eq_some_iff.mp hr
        obtain ⟨⟨-,hcur⟩,hmem⟩ := (exhausts_parseInput k fuel).interpreter fuel hi
        split at hr
        · rename_i hret
          obtain rfl := Option.some.inj hr
          exact absurd (hret ▸ hmem) hm
        · obtain ⟨hp,-⟩ := (exhausts_parseInput k fuel).parseLoop fuel rounds (fun hn => strtok_none (Prod.ext hn rfl)) hr
          have hm' : -1 ∉ r.2.returned := fun h => hm (hp.subset h)
          refine ⟨fuel,r,hi,hm',fun hne => ?_⟩
          have hcursor : r.2.cursor = joinTokens 59 cs := (hcur hm').elim (fun h => h.2) fun h => absurd h hne
          rw [hcursor,strtok_cursor] at hr
          exact (ih [] _ _ hm').mp ⟨fuel,rounds,out,hr,hm⟩
    · rintro ⟨fuel,r,hi,hm,hrest⟩
      obtain ⟨⟨-,hcur⟩,hmem⟩ := (exhausts_parseInput k fuel).interpreter fuel hi
      have hret : r.1 ≠ -1 := fun he => hm (he ▸ hmem)
      by_cases hend : r.2.cursor = []
      · refine ⟨fuel,1,⟨r.1,calls ++ [words c],{ r.2 with cursor := [] }⟩,?_,hm⟩
        simp only [parseLoop,hi,Option.bind_some,if_neg hret,hend,strtok_end]
      · have hcursor : r.2.cursor = joinTokens 59 cs := (hcur hm).elim (fun h => h.2) fun h => absurd h hend
        obtain ⟨fuel',rounds,out,hr,hout⟩ := (ih [] r.1 (calls ++ [words c]) hm).mpr (hrest hend)
        -- enough for the command and for the rest of the line
        have hfst : fuel ≤ max fuel fuel' := le_max_left _ _
        have hsnd : fuel' ≤ max fuel fuel' := le_max_right _ _
        have hbelow := fun {n m : ℕ} (hle : n ≤ m) => interpreter_below (k := k)
          (fun line st => (parseInput_below k hle line st).map fun o => (o.ret,o.state)) hle
        refine ⟨max fuel fuel',rounds + 1,out,?_,hout⟩
        simp only [parseLoop,hbelow hfst _ _ r hi,Option.bind_some,if_neg hret,hcursor,strtok_cursor]
        exact parseLoop_below (hbelow hsnd) le_rfl _ _ out hr

/-- `parseInput` comes to the end of the line just when its commands come back. -/
theorem parseInput_returns_iff (k : Kernel σ) {commands : List CString} (hcommands : ∀ c ∈ commands, Token 59 c)
    {st : State σ} (hst : -1 ∉ st.returned) :
    (∃ fuel out, parseInput k fuel (joinTokens 59 commands) st = some out ∧ -1 ∉ out.state.returned) ↔
      Returns k commands st := by
  rw [← parseLoop_returns_iff hcommands st.cursor 0 [] hst]
  constructor
  · rintro ⟨fuel,out,hr,hm⟩
    cases fuel with
    | zero => simp [parseInput] at hr
    | succ fuel => exact ⟨fuel,fuel + 1,out,hr,hm⟩
  · rintro ⟨fuel,rounds,out,hr,hm⟩
    have hle : fuel ≤ max fuel rounds := le_max_left _ _
    have hnested := fun line st => (parseInput_below k hle line st).map fun o => (o.ret,o.state)
    refine ⟨max fuel rounds + 1,out,?_,hm⟩
    exact parseLoop_below (interpreter_below hnested hle) (le_max_right fuel rounds |>.trans (Nat.le_succ _)) _ _ out hr

/-! ### Commands that parse nothing -/

theorem runProcRR_quiet {parse : Parser σ} {n m : ℕ} {st : State σ} {x y : ℤ × State σ}
    (hx : runProcRR k noParser n st = some x) (hy : runProcRR k parse m st = some y) :
    x = y ∧ x.2.cursor = st.cursor := by
  induction n generalizing m st with
  | zero => simp [runProcRR] at hx
  | succ n ih =>
    cases m with
    | zero => simp [runProcRR] at hy
    | succ m =>
      simp only [runProcRR] at hx hy
      split_ifs at hx hy
      · obtain rfl := Option.some.inj hx
        obtain rfl := Option.some.inj hy
        exact ⟨rfl,rfl⟩
      · cases hd : (k.dispatch st.rest).1 with
        | none =>
          simp only [hd,cpuRun,Option.bind_some] at hx hy
          obtain ⟨s,hs,hx⟩ := Option.bind_eq_some_iff.mp hx
          rw [hs,Option.bind_some] at hy
          obtain ⟨he,hc⟩ := ih hx hy
          exact ⟨he,hc⟩
        | some line => simp [hd,cpuRun,noParser] at hx

theorem withScripts_quiet {parse : Parser σ} {n m : ℕ} {scripts : List CString} {st : State σ} {x y : ℤ × State σ}
    (hx : withScripts k noParser n scripts st = some x) (hy : withScripts k parse m scripts st = some y) :
    x = y ∧ x.2.cursor = st.cursor := by
  simp only [withScripts,runScripts] at hx hy
  obtain ⟨a,ha,rfl⟩ := Option.map_eq_some_iff.mp hx
  obtain ⟨b,hb,rfl⟩ := Option.map_eq_some_iff.mp hy
  suffices hab : a = b ∧ a.2.cursor = st.cursor by
    obtain ⟨rfl,hc⟩ := hab
    exact ⟨rfl,hc⟩
  split_ifs at ha hb
  · obtain rfl := Option.some.inj ha
    obtain rfl := Option.some.inj hb
    exact ⟨rfl,rfl⟩
  · obtain ⟨c,hc,ha⟩ := Option.bind_eq_some_iff.mp ha
    rw [hc,Option.bind_some] at hb
    split_ifs at ha hb
    · obtain ⟨he,hc⟩ := runProcRR_quiet ha hb
      exact ⟨he,hc⟩
    · obtain rfl := Option.some.inj ha
      obtain rfl := Option.some.inj hb
      exact ⟨rfl,rfl⟩

/-- A command that returns without parsing a line does the same whatever parses lines. -/
theorem interpreter_quiet {parse : Parser σ} {n m : ℕ} {args : List CString} {st : State σ} {x y : ℤ × State σ}
    (hx : interpreter k noParser n args st = some x) (hy : interpreter k parse m args st = some y) :
    x = y ∧ x.2.cursor = st.cursor := by
  simp only [interpreter,execute] at hx hy
  obtain ⟨a,ha,rfl⟩ := Option.map_eq_some_iff.mp hx
  obtain ⟨b,hb,rfl⟩ := Option.map_eq_some_iff.mp hy
  suffices hab : a = b ∧ a.2.cursor = st.cursor by
    obtain ⟨rfl,hc⟩ := hab
    exact ⟨rfl,hc⟩
  cases hargs : args.map stripNewline with
  | nil =>
    simp only [hargs] at ha hb
    obtain rfl := Option.some.inj ha
    obtain rfl := Option.some.inj hb
    exact ⟨rfl,rfl⟩
  | cons name scripts =>
    simp only [hargs] at ha hb
    split_ifs at ha hb
    · obtain rfl := Option.some.inj ha
      obtain rfl := Option.some.inj hb
      exact ⟨rfl,rfl⟩
    · obtain rfl := Option.some.inj ha
      obtain rfl := Option.some.inj hb
      exact ⟨rfl,rfl⟩
    · exact withScripts_quiet ha hb
    · obtain ⟨c,hc,rfl⟩ := Option.map_eq_some_iff.mp ha
      rw [hc] at hb
      obtain rfl := Option.some.inj hb
      exact ⟨rfl,rfl⟩

/-! ### The chain -/

/-- Each command but the last, run in turn from the state before it, returns without a line being
passed to `parseInput`. -/
def Chains (k : Kernel σ) : List CString → State σ → Prop
  | c::d::cs,st => ∃ rounds r,
      interpreter k noParser rounds (words c) { st with cursor := joinTokens 59 (d::cs) } = some r ∧
        Chains k (d::cs) r.2
  | _,_ => True

/-- The loop of `parseInput` over the sections that are left. -/
theorem parseLoop_chains {parse : Parser σ} (h : Exhausts parse) (fuel : ℕ) {rounds : ℕ} {cs : List CString}
    (hcs : ∀ c ∈ cs, Token 59 c) {cursor : CString} {ret : ℤ} {calls : List (List CString)} {st : State σ}
    {out : Outcome σ}
    (hr : parseLoop (interpreter k parse fuel) rounds (strtok 59 (some (joinTokens 59 cs)) cursor).1
      ⟨ret,calls,{ st with cursor := (strtok 59 (some (joinTokens 59 cs)) cursor).2 }⟩ = some out)
    (hm : -1 ∉ out.state.returned) : out.calls = calls ++ cs.map words ↔ Chains k cs st := by
  induction cs generalizing rounds cursor ret calls st with
  | nil =>
    have hout : parseLoop (interpreter k parse fuel) rounds none ⟨ret,calls,{ st with cursor := [] }⟩ =
        some ⟨ret,calls,{ st with cursor := [] }⟩ := by cases rounds <;> rfl
    obtain rfl := Option.some.inj (hout.symm.trans hr)
    simp [Chains]
  | cons c cs ih =>
    rw [strtok_joinTokens (hcs c (by simp)) cs cursor] at hr
    cases rounds with
    | zero => simp [parseLoop] at hr
    | succ rounds =>
      simp only [parseLoop] at hr
      obtain ⟨r,hi,hr⟩ := Option.bind_eq_some_iff.mp hr
      obtain ⟨⟨-,hcur⟩,hmem⟩ := h.interpreter fuel hi
      split at hr
      · rename_i hret
        obtain rfl := Option.some.inj hr
        exact absurd (hret ▸ hmem) hm
      obtain ⟨hp,-⟩ := h.parseLoop fuel rounds (fun hn => strtok_none (Prod.ext hn rfl)) hr
      cases hcur fun hm' => hm (hp.subset hm') with
      | inl hq =>
        -- the outer chain goes on behind the command
        obtain ⟨hq,hcursor⟩ := hq
        rw [hcursor,strtok_cursor] at hr
        have ih := ih (fun d hd => hcs d (by simp [hd])) hr
        rw [List.map_cons,List.append_cons,ih]
        cases cs with
        | nil => simp [Chains]
        | cons d ds =>
          constructor
          · exact fun hc => ⟨fuel,r,hq,hc⟩
          · intro hc
            obtain ⟨n,x,hx,hc⟩ := hc
            obtain ⟨rfl,-⟩ := interpreter_quiet hx hi
            exact hc
      | inr hend =>
        -- a nested line took the cursor to its end
        rw [hend,strtok_end] at hr
        have hout : out.calls = calls ++ [words c] := by
          cases rounds <;> exact congrArg Outcome.calls (Option.some.inj hr).symm
        rw [hout]
        cases cs with
        | nil => simp [Chains]
        | cons d ds =>
          refine iff_of_false (by simp) fun hc => ?_
          obtain ⟨n,x,hx,-⟩ := hc
          obtain ⟨rfl,hcx⟩ := interpreter_quiet hx hi
          rw [hend] at hcx
          exact joinTokens_ne_nil ds (hcs d (by simp)).ne_nil hcx.symm

end

/-- A line `c1;...;cn` runs all of its commands exactly when none but the last runs a line of a
script. -/
theorem parseInput_calls_iff {σ : Type} (k : Kernel σ) (fuel : ℕ) (commands : List CString)
    (hcommands : ∀ c ∈ commands, Token 59 c) (st : State σ) (out : Outcome σ)
    (hreturns : parseInput k fuel (joinTokens 59 commands) st = some out)
    (hret : -1 ∉ out.state.returned) : out.calls = commands.map words ↔ Chains k commands st := by
  cases fuel with
  | zero => simp [parseInput] at hreturns
  | succ fuel => simpa using parseLoop_chains (exhausts_parseInput k fuel) fuel hcommands hreturns hret

/-- A shell whose scripts all have the given lines, and whose commands do nothing. -/
def scriptKernel (script : List CString) : Kernel (List CString) where
  command _ s := some (0,s)
  copy _ s := s
  newProc _ s := some (true,s ++ script)
  queueDone s := s.isEmpty
  dispatch s := (s.head?,s)
  advance _ s := some s.tail
  teardown s := s
  clean s := s

theorem parseInput_calls_iff_echo : ∃ out,
    parseInput (scriptKernel [cstr "echo b"]) 5 (joinTokens 59 [cstr "echo a",cstr "run s"]) ⟨[],[],[]⟩ = some out ∧
      (out.calls = [cstr "echo a",cstr "run s"].map words ↔
        Chains (scriptKernel [cstr "echo b"]) [cstr "echo a",cstr "run s"] ⟨[],[],[]⟩) := by
  have hrun : (parseInput (scriptKernel [cstr "echo b"]) 5 (joinTokens 59 [cstr "echo a",cstr "run s"])
      ⟨[],[],[]⟩).map (fun o => o.state.returned) = some [0,0,0] := by decide +kernel
  obtain ⟨out,ho,hret⟩ := Option.map_eq_some_iff.mp hrun
  have htokens : ∀ c ∈ [cstr "echo a",cstr "run s"], c ≠ [] ∧ 59 ∉ c := by decide +kernel
  refine ⟨out,ho,parseInput_calls_iff _ 5 _ (fun c hc => ⟨(htokens c hc).1,(htokens c hc).2⟩) _ out ho ?_⟩
  rw [hret]
  decide

/-- `run s;echo a`, where the script `s` is the line `echo b`, never gets to `echo a`. -/
theorem parseInput_loses_command : ∃ out,
    parseInput (scriptKernel [cstr "echo b"]) 5 (joinTokens 59 [cstr "run s",cstr "echo a"]) ⟨[],[],[]⟩ = some out ∧
      -1 ∉ out.state.returned ∧ out.calls = [[cstr "run",cstr "s"]] ∧
      out.calls ≠ [cstr "run s",cstr "echo a"].map words := by
  have hrun : (parseInput (scriptKernel [cstr "echo b"]) 5 (joinTokens 59 [cstr "run s",cstr "echo a"])
      ⟨[],[],[]⟩).map (fun o => (o.state.returned,o.calls)) = some ([0,0],[[cstr "run",cstr "s"]]) := by
    decide +kernel
  obtain ⟨out,ho,hout⟩ := Option.map_eq_some_iff.mp hrun
  obtain ⟨hret,hcalls⟩ := Prod.mk.inj hout
  refine ⟨out,?_⟩
  rw [hcalls,hret]
  exact ⟨ho,by decide,rfl,by decide +kernel⟩

end ShellOS.Shell
