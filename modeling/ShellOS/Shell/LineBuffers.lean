import ShellOS.Lib.Buffer
import ShellOS.Shell.Arguments

/-! `parseInput` of the a3 shell with the sizes of its arrays, and the buffer in which `set` puts its
value together. -/
namespace ShellOS.Shell
open CLib

/-! ### The words of a section -/

/-- The inner loop of `parseInput`, as `splitWords`, with `tmp` and `words` as the arrays they are. -/
def storeWords (tmp : Buffer 1000) (words : Slots 100) : CString → Option (Slots 100)
  | [] => words.push tmp.text
  | c::rest =>
    if c = 32 then (words.push tmp.text).bind fun words =>
      if rest = [] then some words else storeWords ⟨[],by decide⟩ words rest
    else (tmp.strcat [c]).bind fun tmp => storeWords tmp words rest

/-- One section of the line. -/
def storeSection (token : CString) : Option (Slots 100) :=
  match token.dropWhile (· == 32) with
  | [] => some ⟨[],by decide⟩
  | s => storeWords ⟨[],by decide⟩ ⟨[],by decide⟩ s

theorem exists_splitWords (tmp s : CString) : ∃ w ∈ splitWords tmp s, tmp.length ≤ w.length := by
  induction s generalizing tmp with
  | nil => exact ⟨tmp,by simp [splitWords],le_rfl⟩
  | cons c rest ih =>
    by_cases hc : c = 32
    · exact ⟨tmp,by simp [splitWords,hc],le_rfl⟩
    · obtain ⟨w,hw,hle⟩ := ih (tmp ++ [c])
      rw [List.length_append] at hle
      exact ⟨w,by rwa [splitWords,if_neg hc],by omega⟩

theorem length_le_of_mem_splitWords {tmp s w : CString} (h : w ∈ splitWords tmp s) : w.length ≤ tmp.length + s.length := by
  induction s generalizing tmp with
  | nil =>
    rw [splitWords,List.mem_singleton] at h
    simp [h]
  | cons c rest ih =>
    rw [splitWords] at h
    by_cases hc : c = 32
    · rw [if_pos hc] at h
      cases List.mem_cons.mp h with
      | inl he => simp [he]
      | inr hm =>
        by_cases hrest : rest = []
        · simp [hrest] at hm
        · rw [if_neg hrest] at hm
          have hle := ih hm
          simp only [List.length_nil,List.length_cons] at hle ⊢
          omega
    · rw [if_neg hc] at h
      have hle := ih h
      simp only [List.length_append,List.length_cons,List.length_nil] at hle ⊢
      omega

/-- The arrays hold the words just when there are not too many and none is too long. -/
theorem storeWords_eq_some_iff {tmp : Buffer 1000} {words r : Slots 100} {s : CString} :
    storeWords tmp words s = some r ↔
      r.list = words.list ++ splitWords tmp.text s ∧ ∀ w ∈ splitWords tmp.text s, w.length < 1000 := by
  induction s generalizing tmp words with
  | nil =>
    rw [storeWords,Slots.push_eq_some_iff,splitWords]
    refine ⟨fun h => ⟨h,fun w hw => ?_⟩,And.left⟩
    exact List.mem_singleton.mp hw ▸ tmp.fits
  | cons c rest ih =>
    by_cases hc : c = 32
    · rw [storeWords,if_pos hc,Option.bind_eq_some_iff,splitWords,if_pos hc]
      by_cases hrest : rest = []
      · simp only [hrest,if_true,Option.some.injEq,exists_eq_right,Slots.push_eq_some_iff]
        refine ⟨fun h => ⟨h,fun w hw => ?_⟩,And.left⟩
        exact List.mem_singleton.mp hw ▸ tmp.fits
      · simp only [hrest,if_false,ih,Slots.push_eq_some_iff]
        constructor
        · rintro ⟨words',hpush,hr,hlen⟩
          refine ⟨by rw [hr,hpush]; simp,fun w hw => ?_⟩
          cases List.mem_cons.mp hw with
          | inl he => exact he ▸ tmp.fits
          | inr hm => exact hlen w hm
        · rintro ⟨hr,hlen⟩
          have hfits := r.fits
          rw [hr,List.length_append,List.length_cons] at hfits
          obtain ⟨words',hwords⟩ := (Slots.exists_list 100 (words.list ++ [tmp.text])).mpr
            (by rw [List.length_append,List.length_singleton]; omega)
          exact ⟨words',hwords,by rw [hr,hwords]; simp,fun w hw => hlen w (List.mem_cons_of_mem _ hw)⟩
    · rw [storeWords,if_neg hc,Option.bind_eq_some_iff,splitWords,if_neg hc]
      simp only [ih,Buffer.strcat_eq_some_iff]
      constructor
      · rintro ⟨tmp',htmp,h⟩
        rwa [htmp] at h
      · intro h
        obtain ⟨w,hw,hle⟩ := exists_splitWords (tmp.text ++ [c]) rest
        obtain ⟨tmp',htmp⟩ := (Buffer.exists_text 1000 (tmp.text ++ [c])).mpr (hle.trans_lt (h.2 w hw))
        exact ⟨tmp',htmp,htmp ▸ h⟩

/-- A word is no longer than the line, so that only their number matters. -/
theorem storeSection_isSome_iff {token : CString} (h : token.length ≤ 998) :
    (storeSection token).isSome ↔ (words token).length ≤ 100 := by
  unfold storeSection words
  have hdrop : (token.dropWhile (· == 32)).length ≤ token.length := List.length_dropWhile_le _ _
  cases hs : token.dropWhile (· == 32) with
  | nil => simp
  | cons c s =>
    rw [hs] at hdrop
    simp only [Option.isSome_iff_exists,storeWords_eq_some_iff,List.nil_append]
    constructor
    · rintro ⟨r,hr,-⟩
      exact hr ▸ r.fits
    · intro hle
      obtain ⟨r,hr⟩ := (Slots.exists_list _ _).mpr hle
      refine ⟨r,hr,fun w hw => ?_⟩
      have hlen := length_le_of_mem_splitWords hw
      simp only [List.length_nil] at hlen
      omega

/-! ### The value of `set` -/

/-- The loop of `set` over the words of the value, in its buffer; at a word that is not alphanumeric
it gives up. -/
def storeValue (buffer : Buffer 505) : List CString → Option (Buffer 505)
  | [] => some buffer
  | w::ws =>
    if isAlphaNumStr w then (buffer.strcat w).bind fun buffer =>
      if ws = [] then some buffer else (buffer.strcat (cstr " ")).bind fun buffer => storeValue buffer ws
    else some buffer

/-- What the loop puts together. -/
def valueText : List CString → CString
  | [] => []
  | w::ws => if isAlphaNumStr w then w ++ (if ws = [] then [] else 32::valueText ws) else []

theorem valueText_eq_spaced {ws : List CString} (h : ∀ w ∈ ws, isAlphaNumStr w = true) : valueText ws = spaced ws := by
  induction ws with
  | nil => rfl
  | cons w ws ih =>
    obtain ⟨hw,hws⟩ := List.forall_mem_cons.mp h
    rw [valueText,if_pos hw,ih hws]
    cases ws with
    | nil => simp [spaced]
    | cons w' ws => simp [spaced,List.intercalate]

theorem storeValue_eq_some_iff {buffer c : Buffer 505} {ws : List CString} :
    storeValue buffer ws = some c ↔ c.text = buffer.text ++ valueText ws := by
  have hsame : ∀ {b : Buffer 505}, some b = some c ↔ c.text = b.text := fun {b} =>
    ⟨fun h => by rw [← Option.some.inj h],fun h => congrArg some (Buffer.text_injective h.symm)⟩
  induction ws generalizing buffer with
  | nil => rw [storeValue,hsame,valueText,List.append_nil]
  | cons w ws ih =>
    by_cases hw : isAlphaNumStr w = true
    · rw [storeValue,if_pos hw,Option.bind_eq_some_iff,valueText,if_pos hw]
      by_cases hws : ws = []
      · simp only [hws,if_true,hsame,List.append_nil,Buffer.strcat_eq_some_iff]
        exact ⟨fun ⟨b,hb,hc⟩ => hc.trans hb,fun h => ⟨c,h,rfl⟩⟩
      · simp only [hws,if_false,Option.bind_eq_some_iff,Buffer.strcat_eq_some_iff,ih]
        have hspace : cstr " " = [32] := rfl
        constructor
        · rintro ⟨b,hb,b',hb',hc⟩
          rw [hc,hb',hb,hspace]
          simp
        · intro h
          have hfits := c.fits
          rw [h] at hfits
          simp only [List.length_append,List.length_cons] at hfits
          obtain ⟨b,hb⟩ := (Buffer.exists_text 505 (buffer.text ++ w)).mpr (by rw [List.length_append]; omega)
          obtain ⟨b',hb'⟩ := (Buffer.exists_text 505 (b.text ++ cstr " ")).mpr
            (by rw [hb,hspace,List.length_append,List.length_append,List.length_singleton]; omega)
          refine ⟨b,hb,b',hb',?_⟩
          rw [h,hb',hb,hspace]
          simp
    · rw [storeValue,if_neg hw,hsame,valueText,if_neg hw,List.append_nil]

/-- The branch of `set`; a command that does not come to its loop has no buffer. -/
def setValue (args : List CString) : Option (Buffer 505) :=
  match args.map stripNewline with
  | name::var::ws =>
    if name = cstr "set" ∧ ws ≠ [] ∧ isAlphaNumStr var then storeValue ⟨[],by decide⟩ ws else some ⟨[],by decide⟩
  | _ => some ⟨[],by decide⟩

/-- A `set` puts together at most 504 characters. -/
def ValueFits (args : List CString) : Prop := ∀ var ws, args.map stripNewline = cstr "set"::var::ws → ws ≠ [] →
  isAlphaNumStr var = true → (valueText ws).length ≤ 504

theorem setValue_isSome_iff (args : List CString) : (setValue args).isSome ↔ ValueFits args := by
  unfold setValue ValueFits
  cases hargs : args.map stripNewline with
  | nil => simp
  | cons name rest =>
    cases rest with
    | nil => simp
    | cons var ws =>
      simp only [List.cons.injEq]
      by_cases hset : name = cstr "set" ∧ ws ≠ [] ∧ isAlphaNumStr var = true
      · obtain ⟨rfl,hws,hvar⟩ := hset
        rw [if_pos ⟨rfl,hws,hvar⟩]
        simp only [Option.isSome_iff_exists,storeValue_eq_some_iff,List.nil_append,Buffer.exists_text]
        constructor
        · rintro h _ _ ⟨-,rfl,rfl⟩ - -
          omega
        · intro h
          have hle := h var ws ⟨trivial,rfl,rfl⟩ hws hvar
          omega
      · rw [if_neg hset]
        refine iff_of_true rfl ?_
        rintro _ _ ⟨rfl,rfl,rfl⟩ hws hvar
        exact absurd ⟨rfl,hws,hvar⟩ hset

/-! ### The whole line -/

/-- `interpreter`: its value, and what becomes of the cursor of `strtok` and the rest of the shell. -/
abbrev Interp (σ : Type) := List CString → CString × σ → ℤ × (CString × σ)

/-- The arrays are not overrun in so many rounds of the outer loop of `parseInput`. -/
def Within {σ : Type} (interp : Interp σ) : ℕ → Option CString → CString × σ → Prop
  | 0,_,_ => True
  | _,none,_ => True
  | n+1,some token,st =>
    (storeSection token).isSome ∧ (setValue (words token)).isSome ∧
      ((interp (words token) st).1 ≠ -1 → Within interp n (strtok 59 none (interp (words token) st).2.1).1
        ((strtok 59 none (interp (words token) st).2.1).2,(interp (words token) st).2.2))

/-- The parts of the line between semicolons. -/
def sections (ui : CString) : List CString := (ui.splitOnP (· == 59)).filter (· ≠ [])

/-- No section of the line overruns an array. -/
def Fits (ui : CString) : Prop := ∀ token ∈ sections ui, (storeSection token).isSome ∧ (setValue (words token)).isSome

/-- The cursor is left alone, or somewhere in a line of a script that itself fits. -/
def KeepsCursor {σ : Type} (interp : Interp σ) : Prop :=
  ∀ args st, (interp args st).2.1 = st.1 ∨ Fits (interp args st).2.1

/-- However the commands of the line turn out, `parseInput` and `set` stay within their arrays. -/
def StaysWithin (ui : CString) : Prop := ∀ (σ : Type) (interp : Interp σ), KeepsCursor interp → ∀ n cursor s,
  Within interp n (strtok 59 (some ui) cursor).1 ((strtok 59 (some ui) cursor).2,s)

theorem sections_semicolon (s : CString) : sections (59::s) = sections s := by
  rw [sections,List.splitOnP_cons_eq_if_modifyHead]
  simp [sections]

theorem sections_dropWhile (s : CString) : sections (s.dropWhile (· == 59)) = sections s := by
  induction s with
  | nil => rfl
  | cons c s ih =>
    by_cases hc : c = 59
    · subst hc
      rw [sections_semicolon,← ih]
      simp
    · simp [hc]

theorem sections_token {token : CString} (hne : token ≠ []) (h : ∀ c ∈ token, c ≠ 59) : sections token = [token] := by
  rw [sections,List.splitOnP_eq_singleton fun c hc => by simpa using h c hc]
  simp [hne]

theorem sections_append {token : CString} (hne : token ≠ []) (h : ∀ c ∈ token, c ≠ 59) (rest : CString) :
    sections (token ++ 59::rest) = token::sections rest := by
  rw [sections,List.splitOnP_append_cons_of_forall_mem (fun c hc => by simpa using h c hc) 59 (by rfl)]
  simp [sections,hne]

/-- What `strtok` finds, and what it goes on with. -/
theorem sections_strtok (s : Option CString) (cursor : CString) : sections (s.getD cursor) =
    match strtok 59 s cursor with
    | (none,_) => []
    | (some token,rest) => token::sections rest := by
  rw [← sections_dropWhile,strtok]
  generalize hs : (s.getD cursor).dropWhile (· == 59) = s'
  cases s' with
  | nil => rfl
  | cons c s' =>
    have hc : c ≠ 59 := fun he => by
      have hhead := List.head?_dropWhile_not (· == (59 : UInt8)) (s.getD cursor)
      rw [hs] at hhead
      simp [he] at hhead
    have htoken : ∀ x ∈ (c::s').takeWhile (· != 59), x ≠ 59 := fun x hx => by
      simpa using List.mem_takeWhile_imp hx
    have hne : (c::s').takeWhile (· != 59) ≠ [] := by simp [hc]
    have happ := List.takeWhile_append_dropWhile (p := (· != (59 : UInt8))) (l := c::s')
    simp only [List.cons_ne_nil,if_false]
    cases hrest : (c::s').dropWhile (· != 59) with
    | nil =>
      rw [hrest,List.append_nil] at happ
      rw [happ] at htoken hne ⊢
      rw [sections_token hne htoken]
      rfl
    | cons d rest =>
      have hd : d = 59 := by
        have hhead := List.head?_dropWhile_not (· != (59 : UInt8)) (c::s')
        rw [hrest] at hhead
        simpa using hhead
      rw [hrest,hd] at happ
      rw [List.tail_cons,← sections_append hne htoken rest,happ]

/-- What is behind a token of a line that fits. -/
theorem Fits.strtok {s : Option CString} {cursor : CString} (h : Fits (s.getD cursor)) : Fits (strtok 59 s cursor).2 := by
  rw [Fits,sections_strtok] at h
  cases hstep : CLib.strtok 59 s cursor with
  | mk token rest =>
    rw [hstep] at h
    cases token with
    | none => exact fun t ht => absurd ht (by simp [strtok_none hstep,sections])
    | some token => exact fun t ht => h t (List.mem_cons_of_mem token ht)

/-- With sections that fit, no round overruns an array. -/
theorem Fits.within {σ : Type} {interp : Interp σ} (hkeep : KeepsCursor interp) (n : ℕ) {s : Option CString}
    {cursor : CString} (st : σ) (h : Fits (s.getD cursor)) :
    Within interp n (CLib.strtok 59 s cursor).1 ((CLib.strtok 59 s cursor).2,st) := by
  induction n generalizing s cursor st with
  | zero => trivial
  | succ n ih =>
    have hrest := h.strtok
    rw [Fits,sections_strtok] at h
    cases hstep : CLib.strtok 59 s cursor with
    | mk token rest =>
      rw [hstep] at h hrest
      cases token with
      | none => trivial
      | some token =>
        obtain ⟨hstore,hset⟩ := h token List.mem_cons_self
        refine ⟨hstore,hset,fun _ => ?_⟩
        cases hkeep (words token) (rest,st) with
        | inl hsame =>
          rw [hsame]
          exact ih _ hrest
        | inr hfits => exact ih _ hfits

/-- Where every command lets the line go on, all sections are read. -/
theorem sections_of_within (n : ℕ) (s : Option CString) (cursor : CString) (hn : (sections (s.getD cursor)).length ≤ n)
    (h : Within (σ := Unit) (fun _ st => (0,st)) n (strtok 59 s cursor).1 ((strtok 59 s cursor).2,())) :
    Fits (s.getD cursor) := by
  rw [Fits]
  induction n generalizing s cursor with
  | zero => simp [List.eq_nil_of_length_eq_zero (Nat.le_zero.mp hn)]
  | succ n ih =>
    have hsec := sections_strtok s cursor
    cases hstep : strtok 59 s cursor with
    | mk token rest =>
      rw [hstep] at h hsec
      cases token with
      | none => simp [hsec]
      | some token =>
        obtain ⟨hstore,hset,hgo⟩ := h
        rw [hsec,List.length_cons] at hn
        have hrest := ih none rest (by simpa using hn) (hgo (by simp))
        rw [hsec]
        exact List.forall_mem_cons.mpr ⟨⟨hstore,hset⟩,hrest⟩

theorem length_le_of_mem_sections {ui token : CString} (h : token ∈ sections ui) : token.length ≤ ui.length := by
  have hparts : ∀ s : CString, ∀ t ∈ s.splitOnP (· == 59), t.length ≤ s.length := by
    intro s
    induction s with
    | nil => simp
    | cons c s ih =>
      intro t ht
      rw [List.splitOnP_cons_eq_if_modifyHead] at ht
      obtain ⟨hd,tl,hs⟩ := List.exists_cons_of_ne_nil (List.splitOnP_ne_nil (fun c : UInt8 => c == 59) s)
      rw [hs] at ht ih
      rw [List.length_cons]
      split at ht
      · cases List.mem_cons.mp ht with
        | inl he => simp [he]
        | inr hm => exact (ih t hm).trans (by omega)
      · cases List.mem_cons.mp ht with
        | inl he => exact he ▸ Nat.succ_le_succ (ih hd List.mem_cons_self)
        | inr hm => exact (ih t (List.mem_cons_of_mem hd hm)).trans (by omega)
  exact hparts ui token (List.mem_filter.mp h).1

/-- At most a hundred words in every section, and at most 504 characters for a value. -/
def Roomy (ui : CString) : Prop := ∀ token ∈ sections ui, (words token).length ≤ 100 ∧ ValueFits (words token)

theorem staysWithin_iff {ui : CString} (h : ui.length ≤ 998) : StaysWithin ui ↔ Roomy ui := by
  have hsections : Fits ui ↔ Roomy ui := by
    refine forall₂_congr fun token hmem => ?_
    rw [storeSection_isSome_iff ((length_le_of_mem_sections hmem).trans h),setValue_isSome_iff]
  rw [← hsections]
  constructor
  · intro hall
    exact sections_of_within _ (some ui) [] le_rfl (hall Unit (fun _ st => (0,st)) (fun _ _ => .inl rfl) _ [] ())
  · intro hall σ interp hkeep n cursor s
    exact Fits.within hkeep n s hall

/-! ### The interpreter with its scripts -/

section
variable {σ : Type} {k : Kernel σ}

/-- Every line that a process has to run fits. -/
def FittingScripts (k : Kernel σ) : Prop := ∀ s line, (k.dispatch s).1 = some line → Fits line

/-- From a line that fits, the cursor is left somewhere in one. -/
def StaysFitting (parse : Parser σ) : Prop := ∀ line st r, Fits line → parse line st = some r → Fits r.2.cursor

theorem StaysFitting.runProcRR {parse : Parser σ} (h : StaysFitting parse) (hscripts : FittingScripts k) (rounds : ℕ)
    {st : State σ} {r : ℤ × State σ} (hr : runProcRR k parse rounds st = some r) :
    r.2.cursor = st.cursor ∨ Fits r.2.cursor := by
  induction rounds generalizing st with
  | zero => simp [Shell.runProcRR] at hr
  | succ rounds ih =>
    simp only [Shell.runProcRR] at hr
    split at hr
    · obtain rfl := Option.some.inj hr
      exact .inl rfl
    · obtain ⟨c,hc,hr⟩ := Option.bind_eq_some_iff.mp hr
      obtain ⟨s,-,hr⟩ := Option.bind_eq_some_iff.mp hr
      cases hd : (k.dispatch st.rest).1 with
      | none =>
        rw [hd,cpuRun] at hc
        obtain rfl := Option.some.inj hc
        have hrest := ih hr
        exact hrest
      | some line =>
        rw [hd,cpuRun] at hc
        have hline := h line _ c (hscripts _ line hd) hc
        cases ih hr with
        | inl hsame => exact .inr (hsame ▸ hline)
        | inr hfits => exact .inr hfits

theorem StaysFitting.withScripts {parse : Parser σ} (h : StaysFitting parse) (hscripts : FittingScripts k) (rounds : ℕ)
    {scripts : List CString} {st : State σ} {r : ℤ × State σ} (hr : withScripts k parse rounds scripts st = some r) :
    r.2.cursor = st.cursor ∨ Fits r.2.cursor := by
  simp only [Shell.withScripts,runScripts] at hr
  obtain ⟨a,ha,rfl⟩ := Option.map_eq_some_iff.mp hr
  split at ha
  · obtain rfl := Option.some.inj ha
    exact .inl rfl
  · obtain ⟨b,-,ha⟩ := Option.bind_eq_some_iff.mp ha
    split at ha
    · have hrun := h.runProcRR hscripts rounds ha
      exact hrun
    · obtain rfl := Option.some.inj ha
      exact .inl rfl

theorem StaysFitting.interpreter {parse : Parser σ} (h : StaysFitting parse) (hscripts : FittingScripts k) (rounds : ℕ)
    {args : List CString} {st : State σ} {r : ℤ × State σ} (hr : interpreter k parse rounds args st = some r) :
    r.2.cursor = st.cursor ∨ Fits r.2.cursor := by
  simp only [Shell.interpreter,execute] at hr
  obtain ⟨a,ha,rfl⟩ := Option.map_eq_some_iff.mp hr
  cases hargs : args.map stripNewline with
  | nil =>
    simp only [hargs] at ha
    obtain rfl := Option.some.inj ha
    exact .inl rfl
  | cons name scripts =>
    simp only [hargs] at ha
    split_ifs at ha
    · obtain rfl := Option.some.inj ha
      exact .inl rfl
    · obtain rfl := Option.some.inj ha
      exact .inl rfl
    · have hrun := h.withScripts hscripts rounds ha
      exact hrun
    · obtain ⟨c,-,rfl⟩ := Option.map_eq_some_iff.mp ha
      exact .inl rfl

theorem StaysFitting.parseLoop {parse : Parser σ} (h : StaysFitting parse) (hscripts : FittingScripts k) (fuel rounds : ℕ)
    {token : Option CString} {out out' : Outcome σ} (hout : Fits out.state.cursor)
    (hr : parseLoop (Shell.interpreter k parse fuel) rounds token out = some out') : Fits out'.state.cursor := by
  induction rounds generalizing token out with
  | zero =>
    cases token with
    | none => exact Option.some.inj hr ▸ hout
    | some token => simp [Shell.parseLoop] at hr
  | succ rounds ih =>
    cases token with
    | none => exact Option.some.inj hr ▸ hout
    | some token =>
      simp only [Shell.parseLoop] at hr
      obtain ⟨r,hi,hr⟩ := Option.bind_eq_some_iff.mp hr
      have hcursor : Fits r.2.cursor := (h.interpreter hscripts fuel hi).elim (fun hsame => hsame ▸ hout) id
      have hnext : Fits (strtok 59 none r.2.cursor).2 := Fits.strtok (s := none) hcursor
      split at hr
      · exact Option.some.inj hr ▸ hnext
      · exact ih hnext hr

theorem staysFitting_parseInput (hscripts : FittingScripts k) (fuel : ℕ) : StaysFitting (nested k fuel) := by
  induction fuel with
  | zero => intro line st r _ hr; simp [parseInput] at hr
  | succ fuel ih =>
    intro line st r hline hr
    obtain ⟨out,ho,rfl⟩ := Option.map_eq_some_iff.mp hr
    exact ih.parseLoop hscripts fuel (fuel+1) (Fits.strtok (s := some line) hline) ho

/-- `interpreter` with calls of `parseInput` nested so deep; where it does not come back the line is left. -/
def shellInterp (k : Kernel σ) (fuel : ℕ) : Interp (List ℤ × σ) := fun args st =>
  match interpreter k (nested k fuel) fuel args ⟨st.1,st.2.1,st.2.2⟩ with
  | some r => (r.1,r.2.cursor,r.2.returned,r.2.rest)
  | none => (-1,st)

/-- What is asked of the commands of a line is true of those that run scripts whose lines fit. -/
theorem keepsCursor_shellInterp (hscripts : FittingScripts k) (fuel : ℕ) : KeepsCursor (shellInterp k fuel) := by
  intro args st
  rw [shellInterp]
  split
  · rename_i r hr
    exact (staysFitting_parseInput hscripts fuel).interpreter hscripts fuel hr
  · exact .inl rfl

end

end ShellOS.Shell
