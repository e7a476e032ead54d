import ShellOS.Ready.Interpreter

/-! `parseInput` of the a2 shell as the loop it is: one index, moved by several scans, and a round of
the outer loop that need not move it. -/
namespace ShellOS.Ready.LineScan
open CLib

/-! ### The loop -/

/-- `ui[a]`, where the terminating 0 ends the line. -/
def charAt (ui : CString) (a : ℕ) : UInt8 := ui[a]?.getD 0

def isWordChar (c : UInt8) : Bool := c != 59 && c != 10 && c != 32

/-- `for(; ui[a]==' ' && a<1000; a++);` -/
def skipSpaces (ui : CString) (a : ℕ) : ℕ := a + (((ui.take 1000).drop a).takeWhile (· == 32)).length

/-- The variables of `parseInput`, with the calls of `interpreter` made so far and what these
calls work on. -/
structure Scan (σ : Type) where
  a : ℕ
  w : ℕ
  words : List CString
  calls : List (List CString)
  host : σ

/-- What a round of the outer loop leads to. -/
inductive Round (σ : Type)
  | again (st : Scan σ)
  /-- the loop is left for the last call of `interpreter` -/
  | left (st : Scan σ)
  /-- a call has returned -1 -/
  | returned (st : Scan σ)
  /-- an array is overrun, or `interpreter` does not come back -/
  | stuck

/-- `interpreter`: the array of words, how many of them count, and its value. -/
abbrev Interp (σ : Type) := List CString → ℕ → σ → Option (ℤ × σ)

section
variable {σ : Type} (interp : Interp σ) (ui : CString)

/-- A call of `interpreter` with the first `w` words. -/
def Scan.call (st : Scan σ) : Option (ℤ × Scan σ) :=
  (interp st.words st.w st.host).map fun r => (r.1,{ st with calls := st.calls ++ [st.words.take st.w],host := r.2 })

/-- The body of the outer loop once the word `tmp` is copied, with `a` behind it. -/
def wordEnd (tmp : CString) (st : Scan σ) : Round σ :=
  let st := { st with words := storeWord st.words st.w tmp,w := st.w + 1 }
  if charAt ui st.a = 59 then
    match st.call interp with
    | none => .stuck
    | some (code,st) => if code = -1 then .returned st else .again { st with a := skipSpaces ui (st.a + 1),w := 0 }
  else .again { st with a := st.a + 1 }

def round (st : Scan σ) : Round σ :=
  if ¬ (st.a < 1000 ∧ st.a < ui.length ∧ charAt ui st.a ≠ 10 ∧ charAt ui st.a ≠ 0) then .left st else
  let a := st.a + ((ui.drop st.a).takeWhile (· == 32)).length
  if charAt ui a = 0 then .left { st with a := a } else
  let tmp := ((ui.take 1000).drop a).takeWhile isWordChar
  -- `tmp` has room for 199 characters and the terminator, `words` for 100 words
  if 200 ≤ tmp.length then .stuck else
  if tmp.length = 0 then .again { st with a := a } else
  if 100 ≤ st.w then .stuck else wordEnd interp ui tmp { st with a := a + tmp.length }

/-- How `parseInput` comes back: from its last line, or with the -1 of a call. -/
inductive Ending (σ : Type)
  | reached (calls : List (List CString)) (code : ℤ) (host : σ)
  | early (calls : List (List CString)) (host : σ)

def lastCall (st : Scan σ) : Option (Ending σ) :=
  (st.call interp).map fun r => .reached r.2.calls r.1 r.2.host

/-- At most so many rounds of the outer loop. -/
def rounds : ℕ → Scan σ → Option (Ending σ)
  | 0,_ => none
  | n+1,st => match round interp ui st with
    | .again st => rounds n st
    | .left st => lastCall interp st
    | .returned st => some (.early st.calls st.host)
    | .stuck => none

/-- `parseInput`, if it is done after so many rounds. -/
def parseInput (n : ℕ) (host : σ) : Option (Ending σ) :=
  rounds interp ui n ⟨skipSpaces ui 0,0,[],[],host⟩

end

/-! ### The commands of a line -/

/-- The maximal runs of characters other than a space and a newline. -/
def wordsOf (command : CString) : List CString :=
  (command.splitOnP fun c => c == 32 || c == 10).filter (· ≠ [])

/-- The words of each command of the line. -/
def commands (line : CString) : List (List CString) := (line.splitOnP (· == 59)).map wordsOf

/-- Whether the line is read to its end, after a character of a word or not: every semicolon comes
right after a word, and a newline that does not has only spaces and newlines behind it. -/
def separated : Bool → CString → Bool
  | _,[] => true
  | inWord,c::rest =>
    if c = 59 then inWord && separated false rest
    else if c = 10 then if inWord then separated false rest else rest.all fun c => c == 32 || c == 10
    else separated (c != 32) rest

theorem wordsOf_word {tmp : CString} (h : ∀ c ∈ tmp, isWordChar c = true) (hne : tmp ≠ []) : wordsOf tmp = [tmp] := by
  have hp : ∀ c ∈ tmp, (c == 32 || c == 10) = false := fun c hc => by
    have := h c hc
    simp only [isWordChar,Bool.and_eq_true,bne_iff_ne,ne_eq] at this
    simp [this.1.2,this.2]
  rw [wordsOf,List.splitOnP_eq_singleton hp]
  simp [hne]

theorem wordsOf_append {blank : UInt8} (hb : (blank == 32 || blank == 10) = true) (s t : CString) :
    wordsOf (s ++ blank::t) = wordsOf s ++ wordsOf t := by
  have hsplit := List.splitOnP_append_cons (p := fun c : UInt8 => c == 32 || c == 10) s t hb
  rw [wordsOf,hsplit,List.filter_append]
  rfl

theorem wordsOf_eq_nil (s : CString) : wordsOf s = [] ↔ ∀ c ∈ s, (c == 32 || c == 10) = true := by
  induction s with
  | nil => simp [wordsOf]
  | cons c s ih =>
    cases hc : (c == 32 || c == 10) with
    | true =>
      have happ : wordsOf (c::s) = wordsOf s := wordsOf_append hc [] s
      rw [happ,ih,List.forall_mem_cons]
      exact ⟨fun h => ⟨hc,h⟩,fun h => h.2⟩
    | false =>
      obtain ⟨hd,tl,hs⟩ := List.exists_cons_of_ne_nil (List.splitOnP_ne_nil (fun c : UInt8 => c == 32 || c == 10) s)
      refine ⟨fun h => ?_,fun h => absurd (h c (List.mem_cons_self ..)) (by simp [hc])⟩
      rw [wordsOf,List.splitOnP_cons_eq_if_modifyHead,hc,hs] at h
      simp at h

theorem commands_ne_nil (line : CString) : commands line ≠ [] := fun h =>
  List.splitOnP_ne_nil _ line (List.map_eq_nil_iff.mp h)

theorem commands_single {s : CString} (h : ∀ c ∈ s, c ≠ 59) : commands s = [wordsOf s] := by
  rw [commands,List.splitOnP_eq_singleton fun c hc => by simpa using h c hc,List.map_singleton]

theorem commands_semicolon {s : CString} (h : ∀ c ∈ s, c ≠ 59) (t : CString) :
    commands (s ++ 59::t) = wordsOf s::commands t := by
  rw [commands,List.splitOnP_append_cons_of_forall_mem (fun c hc => by simpa using h c hc) 59 (by rfl),List.map_cons]
  rfl

/-- A line has a semicolon or not. -/
theorem semicolon_cases (t : CString) : (∀ c ∈ t, c ≠ 59) ∨ ∃ u v, (∀ c ∈ u, c ≠ 59) ∧ t = u ++ 59::v := by
  by_cases hm : (59 : UInt8) ∈ t
  · obtain ⟨u,v,ht,hu⟩ := List.eq_append_cons_of_mem hm
    exact .inr ⟨u,v,fun c hc he => hu (he ▸ hc),ht⟩
  · exact .inl fun c hc he => hm (he ▸ hc)

theorem commands_blank {blank : UInt8} (hb : (blank == 32 || blank == 10) = true) {s : CString} (h : ∀ c ∈ s, c ≠ 59)
    (t : CString) : commands (s ++ blank::t) = (commands t).modifyHead (wordsOf s ++ ·) := by
  have hne : blank ≠ 59 := fun he => by subst he; exact absurd hb (by decide)
  have hs : ∀ u : CString, (∀ c ∈ u, c ≠ 59) → ∀ c ∈ s ++ blank::u, c ≠ 59 := fun u hu c hc => by
    rcases List.mem_append.mp hc with hc | hc
    · exact h c hc
    · exact (List.mem_cons.mp hc).elim (fun he => he ▸ hne) (hu c)
  rcases semicolon_cases t with ht | ⟨u,v,hu,rfl⟩
  · rw [commands_single (hs t ht),commands_single ht,wordsOf_append hb]
    rfl
  · have happ : s ++ blank::(u ++ 59::v) = (s ++ blank::u) ++ 59::v := by simp
    rw [happ,commands_semicolon (hs u hu),commands_semicolon hu,wordsOf_append hb]
    rfl

/-- Blanks in front do not count. -/
theorem commands_blanks {blanks : CString} (hb : ∀ c ∈ blanks, (c == 32 || c == 10) = true) (t : CString) :
    commands (blanks ++ t) = commands t := by
  induction blanks with
  | nil => rfl
  | cons c blanks ih =>
    obtain ⟨hc,hbs⟩ := List.forall_mem_cons.mp hb
    have hhead : commands (c::(blanks ++ t)) = (commands (blanks ++ t)).modifyHead (wordsOf [] ++ ·) :=
      commands_blank hc (s := []) (List.forall_mem_nil _) (blanks ++ t)
    rw [List.cons_append,hhead,ih hbs]
    obtain ⟨hd,tl,ht⟩ := List.exists_cons_of_ne_nil (commands_ne_nil t)
    rw [ht]
    rfl

/-- A line without words and semicolons. -/
theorem commands_eq_empty (t : CString) : commands t = [[]] ↔ t.all (fun c => c == 32 || c == 10) = true := by
  rcases semicolon_cases t with ht | ⟨u,v,hu,rfl⟩
  · rw [commands_single ht,List.all_eq_true,← wordsOf_eq_nil]
    simp
  · rw [commands_semicolon hu]
    refine ⟨fun h => absurd (List.cons.inj h).2 (commands_ne_nil v),fun h => ?_⟩
    exact absurd (List.all_eq_true.mp h 59 (by simp)) (by decide)

/-! ### What a round sees -/

theorem separated_spaces (k : ℕ) (r : CString) : separated false (List.replicate k 32 ++ r) = separated false r := by
  induction k with
  | zero => rfl
  | succ k ih => exact ih

theorem separated_word {tmp : CString} (h : ∀ c ∈ tmp, isWordChar c = true) (r : CString) (inWord : Bool) :
    separated inWord (tmp ++ r) = separated (inWord || tmp ≠ []) r := by
  induction tmp generalizing inWord with
  | nil => simp
  | cons c tmp ih =>
    obtain ⟨hc,ht⟩ := List.forall_mem_cons.mp h
    simp only [isWordChar,Bool.and_eq_true,bne_iff_ne,ne_eq] at hc
    have hword : (c != 32) = true := bne_iff_ne.mpr hc.2
    rw [List.cons_append,separated,if_neg hc.1.1,if_neg hc.1.2,hword,ih ht]
    simp

/-- What the line is like behind some spaces. -/
inductive Ahead : CString → Prop
  | done : Ahead []
  | semicolon (t : CString) : Ahead (59::t)
  | newline (t : CString) : Ahead (10::t)
  | last (tmp : CString) : tmp ≠ [] → (∀ c ∈ tmp, isWordChar c = true) → Ahead tmp
  | command (tmp t : CString) : tmp ≠ [] → (∀ c ∈ tmp, isWordChar c = true) → Ahead (tmp ++ 59::t)
  | word (tmp : CString) (blank : UInt8) (t : CString) : tmp ≠ [] → (∀ c ∈ tmp, isWordChar c = true) →
      (blank == 32 || blank == 10) = true → Ahead (tmp ++ blank::t)

theorem ahead_cons {c : UInt8} (hc : isWordChar c = true) {r : CString} (h : Ahead r ∨ ∃ t, r = 32::t) : Ahead (c::r) := by
  have hone : ∀ x ∈ [c], isWordChar x = true := fun x hx => List.mem_singleton.mp hx ▸ hc
  have hcons : ∀ {tmp : CString}, (∀ x ∈ tmp, isWordChar x = true) → ∀ x ∈ c::tmp, isWordChar x = true := fun h =>
    List.forall_mem_cons.mpr ⟨hc,h⟩
  rcases h with h | ⟨t,rfl⟩
  · cases h with
    | done => exact .last [c] (List.cons_ne_nil _ _) hone
    | semicolon t => exact .command [c] t (List.cons_ne_nil _ _) hone
    | newline t => exact .word [c] 10 t (List.cons_ne_nil _ _) hone rfl
    | last tmp _ hw => exact .last (c::_) (List.cons_ne_nil _ _) (hcons hw)
    | command tmp t _ hw => exact .command (c::tmp) t (List.cons_ne_nil _ _) (hcons hw)
    | word tmp blank t _ hw hb => exact .word (c::tmp) blank t (List.cons_ne_nil _ _) (hcons hw) hb
  · exact .word [c] 32 t (List.cons_ne_nil _ _) hone rfl

theorem ahead (r : CString) : ∃ k t, r = List.replicate k 32 ++ t ∧ Ahead t := by
  induction r with
  | nil => exact ⟨0,[],rfl,.done⟩
  | cons c r ih =>
    obtain ⟨k,t,hr,ht⟩ := ih
    by_cases hsp : c = 32
    · exact ⟨k + 1,t,by rw [hsp,hr]; rfl,ht⟩
    · refine ⟨0,c::r,rfl,?_⟩
      by_cases hsemi : c = 59
      · exact hsemi ▸ .semicolon r
      · by_cases hnl : c = 10
        · exact hnl ▸ .newline r
        · refine ahead_cons (by simp [isWordChar,hsp,hsemi,hnl]) ?_
          cases k with
          | zero => exact .inl (by rw [hr]; exact ht)
          | succ k => exact .inr ⟨List.replicate k 32 ++ t,by rw [hr]; rfl⟩

theorem charAt_drop (ui : CString) (a : ℕ) : charAt ui a = (ui.drop a).head?.getD 0 := by
  rw [charAt,List.head?_drop]

theorem takeWhile_word {tmp : CString} (h : ∀ c ∈ tmp, isWordChar c = true) {c : UInt8} (hc : isWordChar c = false)
    (r : CString) : (tmp ++ c::r).takeWhile isWordChar = tmp := by
  rw [List.takeWhile_append_of_pos h,List.takeWhile_cons,hc]
  exact List.append_nil tmp

theorem takeWhile_words {tmp : CString} (h : ∀ c ∈ tmp, isWordChar c = true) : tmp.takeWhile isWordChar = tmp :=
  List.takeWhile_eq_self_iff.mpr h

theorem takeWhile_spaces (k : ℕ) {t : CString} (h : Ahead t) :
    (List.replicate k 32 ++ t).takeWhile (· == 32) = List.replicate k 32 := by
  have hstop : t.takeWhile (· == 32) = [] := by
    have hword : ∀ {tmp r : CString}, tmp ≠ [] → (∀ c ∈ tmp, isWordChar c = true) → (tmp ++ r).takeWhile (· == 32) = [] := by
      intro tmp r hne hw
      obtain ⟨c,tmp,rfl⟩ := List.exists_cons_of_ne_nil hne
      have hc := hw c (List.mem_cons_self ..)
      simp only [isWordChar,Bool.and_eq_true,bne_iff_ne,ne_eq] at hc
      rw [List.cons_append,List.takeWhile_cons,if_neg (by simpa using hc.2)]
    cases h with
    | done | semicolon | newline => rfl
    | last tmp hne hw => exact List.append_nil t ▸ hword hne hw
    | command tmp t hne hw => exact hword hne hw
    | word tmp blank t hne hw => exact hword hne hw
  have hsp : ∀ c ∈ List.replicate k (32 : UInt8), (c == 32) = true := fun c hc => by
    rw [(List.mem_replicate.mp hc).2]
    rfl
  rw [List.takeWhile_append_of_pos hsp,hstop,List.append_nil]

section
variable {σ : Type} {interp : Interp σ} {ui : CString} {st : Scan σ} {k : ℕ} {r t tmp : CString}

/-- Where the line is used up, and where a newline comes first. -/
theorem round_left (hr : ui.drop st.a = [] ∨ ∃ t, ui.drop st.a = 10::t) : round interp ui st = .left st := by
  refine if_pos fun hc => ?_
  rcases hr with hr | ⟨t,hr⟩
  · exact absurd (List.drop_eq_nil_iff.mp hr) (Nat.not_le.mpr hc.2.1)
  · refine hc.2.2.1 ?_
    rw [charAt_drop,hr]
    rfl

/-- The loop is not left at its head. -/
theorem round_enter (hlen : ui.length ≤ 999) (hnul : (0 : UInt8) ∉ ui) {c : UInt8} (hr : ui.drop st.a = c::r) (hc : c ≠ 10) :
    st.a < 1000 ∧ st.a < ui.length ∧ charAt ui st.a ≠ 10 ∧ charAt ui st.a ≠ 0 := by
  have hlt : st.a < ui.length := Nat.not_le.mp fun hle => by
    rw [List.drop_eq_nil_of_le hle] at hr
    exact List.cons_ne_nil _ _ hr.symm
  have hchar : charAt ui st.a = c := by
    rw [charAt_drop,hr]
    rfl
  have hmem : c ∈ ui := List.mem_of_mem_drop (hr ▸ List.mem_cons_self ..)
  exact ⟨by omega,hlt,hchar ▸ hc,hchar ▸ fun h0 => hnul (h0 ▸ hmem)⟩

theorem drop_spaces {a : ℕ} (hr : ui.drop a = List.replicate k 32 ++ t) : ui.drop (a + k) = t := by
  rw [← List.drop_drop,hr]
  exact List.drop_left' (List.length_replicate ..)

theorem skipSpaces_drop (hlen : ui.length ≤ 999) {a : ℕ} (hr : ui.drop a = List.replicate k 32 ++ t) (ht : Ahead t) :
    skipSpaces ui a = a + k := by
  rw [skipSpaces,List.take_of_length_le (by omega),hr,takeWhile_spaces k ht,List.length_replicate]

/-- Only spaces are left. -/
theorem round_blank (hlen : ui.length ≤ 999) (hnul : (0 : UInt8) ∉ ui) (hr : ui.drop st.a = List.replicate (k + 1) 32) :
    round interp ui st = .left { st with a := st.a + (k + 1) } := by
  have hr' : ui.drop st.a = List.replicate (k + 1) 32 ++ [] := by rw [hr,List.append_nil]
  have henter := @round_enter σ ui st _ hlen hnul 32 (hr.trans List.replicate_succ) (by decide)
  have h0 : charAt ui (st.a + (k + 1)) = 0 := by
    rw [charAt_drop,drop_spaces hr']
    rfl
  rw [round,if_neg (not_not_intro henter)]
  simp only [hr',takeWhile_spaces (k + 1) .done,List.length_replicate,h0,if_true]

/-- Something other than spaces is left, and the head of the loop does not see a newline. -/
theorem round_tmp (hlen : ui.length ≤ 999) (hnul : (0 : UInt8) ∉ ui) (hr : ui.drop st.a = List.replicate k 32 ++ t)
    (ht : Ahead t) (hne : t ≠ []) (hnl : k = 0 → t.head? ≠ some 10) (htmp : t.takeWhile isWordChar = tmp) :
    round interp ui st = if 200 ≤ tmp.length then .stuck else if tmp.length = 0 then .again { st with a := st.a + k } else
      if 100 ≤ st.w then .stuck else wordEnd interp ui tmp { st with a := st.a + k + tmp.length } := by
  obtain ⟨c,t,rfl⟩ := List.exists_cons_of_ne_nil hne
  have henter : st.a < 1000 ∧ st.a < ui.length ∧ charAt ui st.a ≠ 10 ∧ charAt ui st.a ≠ 0 := by
    cases k with
    | zero => exact round_enter hlen hnul (r := t) hr fun hc => hnl rfl (congrArg some hc)
    | succ k => exact round_enter hlen hnul (c := 32) (r := List.replicate k 32 ++ c::t) (by rw [hr]; rfl) (by decide)
  have hd := drop_spaces hr
  have hmem : c ∈ ui := List.mem_of_mem_drop (hd ▸ List.mem_cons_self ..)
  have h0 : charAt ui (st.a + k) ≠ 0 := by
    rw [charAt_drop,hd]
    exact fun he => hnul (he ▸ hmem)
  rw [round,if_neg (not_not_intro henter)]
  simp only [hr,takeWhile_spaces k ht,List.length_replicate,if_neg h0,List.take_of_length_le (show ui.length ≤ 1000 by omega),
    hd,htmp]

/-- The loop stands still at a semicolon that does not come right after a word. -/
theorem round_semicolon (hlen : ui.length ≤ 999) (hnul : (0 : UInt8) ∉ ui) (hr : ui.drop st.a = List.replicate k 32 ++ 59::t) :
    round interp ui st = .again { st with a := st.a + k } :=
  (round_tmp hlen hnul hr (.semicolon t) (List.cons_ne_nil _ _) (fun _ he => absurd (Option.some.inj he) (by decide)) rfl).trans rfl

/-- A newline behind spaces is left for the next round. -/
theorem round_newline (hlen : ui.length ≤ 999) (hnul : (0 : UInt8) ∉ ui) (hr : ui.drop st.a = List.replicate (k + 1) 32 ++ 10::t) :
    round interp ui st = .again { st with a := st.a + (k + 1) } :=
  (round_tmp hlen hnul hr (.newline t) (List.cons_ne_nil _ _) (fun hk => absurd hk (Nat.succ_ne_zero k)) rfl).trans rfl

/-- What comes behind a word. -/
theorem behind_word {a : ℕ} (hr : ui.drop a = List.replicate k 32 ++ (tmp ++ r)) :
    charAt ui (a + k + tmp.length) = r.head?.getD 0 ∧ ui.drop (a + k + tmp.length + 1) = r.tail := by
  have hend : ui.drop (a + k + tmp.length) = r := by rw [← List.drop_drop,drop_spaces hr,List.drop_left]
  exact ⟨by rw [charAt_drop,hend],by rw [← List.drop_drop,hend,List.drop_one]⟩

theorem isWordChar_blank {blank : UInt8} (hb : (blank == 32 || blank == 10) = true) : isWordChar blank = false := by
  rcases (Bool.or_eq_true _ _).mp hb with h | h <;> rw [eq_of_beq h] <;> rfl

theorem blank_ne_semicolon {blank : UInt8} (hb : (blank == 32 || blank == 10) = true) : blank ≠ 59 := fun he =>
  absurd hb (by rw [he]; decide)

/-! ### A run of the loop -/

/-- The loop comes to its end with the given outcome. -/
def Ends (interp : Interp σ) (ui : CString) (st : Scan σ) (e : Ending σ) : Prop := ∃ n, rounds interp ui n st = some e

theorem ends_left {st' : Scan σ} {e : Ending σ} (h : round interp ui st = .left st') :
    Ends interp ui st e ↔ lastCall interp st' = some e := by
  constructor
  · rintro ⟨n,hn⟩
    cases n with
    | zero => cases hn
    | succ n =>
      rw [rounds,h] at hn
      exact hn
  · exact fun hl => ⟨1,by rw [rounds,h]; exact hl⟩

theorem ends_again {st' : Scan σ} {e : Ending σ} (h : round interp ui st = .again st') :
    Ends interp ui st e ↔ Ends interp ui st' e := by
  constructor
  · rintro ⟨n,hn⟩
    cases n with
    | zero => cases hn
    | succ n =>
      rw [rounds,h] at hn
      exact ⟨n,hn⟩
  · rintro ⟨n,hn⟩
    exact ⟨n + 1,by rw [rounds,h]; exact hn⟩

/-- A round that moves nothing is the last that the shell makes. -/
theorem not_ends_self {e : Ending σ} (h : round interp ui st = .again st) : ¬ Ends interp ui st e := by
  rintro ⟨n,hn⟩
  induction n with
  | zero => cases hn
  | succ n ih =>
    rw [rounds,h] at hn
    exact ih hn

theorem not_ends_stuck {e : Ending σ} (h : round interp ui st = .stuck) : ¬ Ends interp ui st e := by
  rintro ⟨n,hn⟩
  cases n with
  | zero => cases hn
  | succ n =>
    rw [rounds,h] at hn
    cases hn

theorem ends_returned {st' : Scan σ} {e : Ending σ} (h : round interp ui st = .returned st') :
    Ends interp ui st e ↔ e = .early st'.calls st'.host := by
  constructor
  · rintro ⟨n,hn⟩
    cases n with
    | zero => cases hn
    | succ n =>
      rw [rounds,h] at hn
      exact (Option.some.inj hn).symm
  · exact fun he => ⟨1,by rw [rounds,h,he]⟩

/-! ### The commands still to come -/

/-- The commands of the rest of the line, where the first of them has begun with the words `pre`. -/
def pending (pre : List CString) (r : CString) : List (List CString) := (commands r).modifyHead (pre ++ ·)

variable {pre array : List CString}

theorem spaces_blank (k : ℕ) : ∀ c ∈ List.replicate k (32 : UInt8), (c == 32 || c == 10) = true := fun c hc => by
  rw [(List.mem_replicate.mp hc).2]
  rfl

theorem pending_nil (t : CString) : pending [] t = commands t := by
  obtain ⟨c,cs,h⟩ := List.exists_cons_of_ne_nil (commands_ne_nil t)
  rw [pending,h]
  rfl

theorem pending_done : pending pre [] = [pre] := by
  rw [pending,commands_single (List.forall_mem_nil _)]
  simp [wordsOf]

theorem pending_blanks {blanks : CString} (hb : ∀ c ∈ blanks, (c == 32 || c == 10) = true) :
    pending pre (blanks ++ t) = pending pre t := by
  rw [pending,commands_blanks hb,pending]

theorem pending_newline_iff : pending pre (10::t) = [pre] ↔ separated false (10::t) = true := by
  have hone : ∀ c ∈ [(10 : UInt8)], (c == 32 || c == 10) = true := fun c hc => by
    rw [List.mem_singleton.mp hc]
    rfl
  have hskip : pending pre (10::t) = pending pre t := pending_blanks hone
  have hsep : separated false (10::t) = t.all fun c => c == 32 || c == 10 := rfl
  obtain ⟨c,cs,hc⟩ := List.exists_cons_of_ne_nil (commands_ne_nil t)
  rw [hskip,hsep,← commands_eq_empty,pending,hc,List.modifyHead_cons]
  simp

theorem word_ne_semicolon (hw : ∀ c ∈ tmp, isWordChar c = true) : ∀ c ∈ tmp, c ≠ 59 := fun c hc he =>
  absurd (hw c hc) (by rw [he]; decide)

theorem pending_last (hne : tmp ≠ []) (hw : ∀ c ∈ tmp, isWordChar c = true) : pending pre tmp = [pre ++ [tmp]] := by
  rw [pending,commands_single (word_ne_semicolon hw),wordsOf_word hw hne,List.modifyHead_cons]

theorem pending_command (hne : tmp ≠ []) (hw : ∀ c ∈ tmp, isWordChar c = true) :
    pending pre (tmp ++ 59::t) = (pre ++ [tmp])::commands t := by
  rw [pending,commands_semicolon (word_ne_semicolon hw),wordsOf_word hw hne,List.modifyHead_cons]

theorem pending_word (hne : tmp ≠ []) (hw : ∀ c ∈ tmp, isWordChar c = true) {blank : UInt8}
    (hb : (blank == 32 || blank == 10) = true) : pending pre (tmp ++ blank::t) = pending (pre ++ [tmp]) t := by
  obtain ⟨c,cs,h⟩ := List.exists_cons_of_ne_nil (commands_ne_nil t)
  rw [pending,commands_blank hb (word_ne_semicolon hw),wordsOf_word hw hne,pending,h]
  simp

/-- The values of the calls let the loop go on: each comes back, and none but the last with -1.
The array keeps words of earlier commands behind the words that count. -/
def Answered (interp : Interp σ) : List CString → List (List CString) → σ → Prop
  | _,[],_ => True
  | array,c::cs,host => ∃ r, interp (c ++ array.drop c.length) c.length host = some r ∧ (cs ≠ [] → r.1 ≠ -1) ∧
      Answered interp (c ++ array.drop c.length) cs r.2

/-- The words of the command begun lie in front of those of earlier commands. -/
structure Holds (array pre : List CString) (st : Scan σ) : Prop where
  count : st.w = pre.length
  stored : st.words = pre ++ array.drop pre.length

theorem Holds.take (h : Holds array pre st) : st.words.take st.w = pre := by
  rw [h.stored,h.count,List.take_left]

theorem Holds.call (h : Holds array pre st) : st.call interp =
    (interp (pre ++ array.drop pre.length) pre.length st.host).map fun r =>
      (r.1,{ st with calls := st.calls ++ [pre],host := r.2 }) := by
  rw [Scan.call,h.take,h.stored,h.count]

theorem Holds.store (h : Holds array pre st) (tmp : CString) :
    Holds array (pre ++ [tmp]) { st with words := storeWord st.words st.w tmp,w := st.w + 1 } := by
  refine ⟨by simp [h.count],?_⟩
  have htake : (pre ++ array.drop pre.length).take pre.length = pre := List.take_left
  have hdrop : (pre ++ array.drop pre.length).drop (pre.length + 1) = array.drop (pre.length + 1) := by
    rw [← List.drop_drop,List.drop_left,List.drop_drop]
  have hlen : (pre ++ [tmp]).length = pre.length + 1 := List.length_append
  change storeWord st.words st.w tmp = _
  rw [storeWord,h.stored,h.count,htake,hdrop,hlen,List.append_assoc]
  rfl

theorem lastCall_iff (h : Holds array pre st) {calls : List (List CString)} :
    (∃ code host, lastCall interp st = some (.reached calls code host)) ↔
      calls = st.calls ++ [pre] ∧ Answered interp array [pre] st.host := by
  rw [lastCall,h.call]
  cases hi : interp (pre ++ array.drop pre.length) pre.length st.host with
  | none =>
    refine ⟨fun ⟨_,_,hn⟩ => absurd hn (by simp),fun ⟨_,r,hr,_⟩ => ?_⟩
    rw [hi] at hr
    cases hr
  | some r =>
    refine ⟨fun ⟨_,_,hn⟩ => ?_,fun ⟨hc,_⟩ => ⟨r.1,r.2,by rw [hc]; rfl⟩⟩
    have hcalls := Option.some.inj hn
    exact ⟨(Ending.reached.inj hcalls).1.symm,r,hi,fun hc => absurd rfl hc,trivial⟩

/-! ### The whole loop -/

/-- The line is as long as the array of the shell allows. -/
structure Line (ui : CString) : Prop where
  length_le : ui.length ≤ 999
  no_nul : (0 : UInt8) ∉ ui

/-- The commands fit into the arrays of words. -/
def Fits (cs : List (List CString)) : Prop := ∀ c ∈ cs, c.length < 100 ∧ ∀ w ∈ c, w.length < 200

theorem loop_left (hw : Holds array pre st) (hr : ui.drop st.a = [] ∨ ∃ t, ui.drop st.a = 10::t) :
    (∃ code host, Ends interp ui st (.reached (st.calls ++ pending pre (ui.drop st.a)) code host)) ↔
      separated false (ui.drop st.a) = true ∧ Answered interp array (pending pre (ui.drop st.a)) st.host := by
  have hpend : pending pre (ui.drop st.a) = [pre] ↔ separated false (ui.drop st.a) = true := by
    rcases hr with hr | ⟨t,hr⟩
    · rw [hr,pending_done]
      exact iff_of_true rfl rfl
    · rw [hr]
      exact pending_newline_iff
  simp only [ends_left (round_left hr)]
  rw [lastCall_iff hw,List.append_cancel_left_eq,← hpend]
  exact and_congr_right fun he => by rw [he]

/-- A word is copied where there is room for it. -/
theorem round_of_word (hline : Line ui) (hr : ui.drop st.a = List.replicate k 32 ++ (tmp ++ r)) (ht : Ahead (tmp ++ r))
    (hne : tmp ≠ []) (hw : ∀ c ∈ tmp, isWordChar c = true) (hstop : (tmp ++ r).takeWhile isWordChar = tmp) :
    round interp ui st = if 200 ≤ tmp.length then .stuck else if 100 ≤ st.w then .stuck else
      wordEnd interp ui tmp { st with a := st.a + k + tmp.length } := by
  have hhead : k = 0 → (tmp ++ r).head? ≠ some 10 := fun _ he => by
    obtain ⟨c,tmp,rfl⟩ := List.exists_cons_of_ne_nil hne
    have hc : c = 10 := Option.some.inj he
    exact absurd (hw c (List.mem_cons_self ..)) (by rw [hc]; decide)
  have happ : tmp ++ r ≠ [] := fun he => hne (List.append_eq_nil_iff.mp he).1
  have hlen : ¬ tmp.length = 0 := fun h0 => hne (List.length_eq_zero_iff.mp h0)
  rw [round_tmp hline.length_le hline.no_nul hr ht happ hhead hstop,if_neg hlen]

/-- The line goes on behind a word for which there is room. -/
theorem round_word (hline : Line ui) (hr : ui.drop st.a = List.replicate k 32 ++ (tmp ++ r)) (ht : Ahead (tmp ++ r))
    (hne : tmp ≠ []) (hw : ∀ c ∈ tmp, isWordChar c = true) (hstop : (tmp ++ r).takeWhile isWordChar = tmp)
    (hshort : tmp.length < 200) (hfew : st.w < 100) :
    round interp ui st = wordEnd interp ui tmp { st with a := st.a + k + tmp.length } := by
  rw [round_of_word hline hr ht hne hw hstop,if_neg (Nat.not_le.mpr hshort),if_neg (Nat.not_le.mpr hfew)]

/-- Behind the word there is no semicolon. -/
theorem wordEnd_blank {c : UInt8} (hc : charAt ui st.a = c) (hne : c ≠ 59) : wordEnd interp ui tmp st =
    .again { st with words := storeWord st.words st.w tmp,w := st.w + 1,a := st.a + 1 } :=
  if_neg (hc ▸ hne)

theorem wordEnd_semicolon (hc : charAt ui st.a = 59) : wordEnd interp ui tmp st =
    match ({ st with words := storeWord st.words st.w tmp,w := st.w + 1 } : Scan σ).call interp with
    | none => .stuck
    | some (code,st) => if code = -1 then .returned st else .again { st with a := skipSpaces ui (st.a + 1),w := 0 } :=
  if_pos hc

theorem fits_word (h : Fits (pending (pre ++ [tmp]) t)) : pre.length < 100 ∧ tmp.length < 200 := by
  obtain ⟨c,cs,hc⟩ := List.exists_cons_of_ne_nil (commands_ne_nil t)
  rw [pending,hc,List.modifyHead_cons] at h
  obtain ⟨hlen,hshort⟩ := h _ (List.mem_cons_self ..)
  rw [List.length_append,List.length_append,List.length_singleton] at hlen
  exact ⟨by omega,hshort tmp (by simp)⟩

theorem loop_iff (hline : Line ui) (n : ℕ) : ∀ {r : CString}, r.length ≤ n → ∀ {array pre : List CString} {st : Scan σ},
    ui.drop st.a = r → Holds array pre st → Fits (pending pre r) →
    ((∃ code host, Ends interp ui st (.reached (st.calls ++ pending pre r) code host)) ↔
      separated false r = true ∧ Answered interp array (pending pre r) st.host) := by
  induction n with
  | zero =>
    intro r hn array pre st hr hw hfit
    have hnil : r = [] := List.length_eq_zero_iff.mp (Nat.le_zero.mp hn)
    subst hr
    exact loop_left hw (.inl hnil)
  | succ n ih =>
    intro r hn array pre st hr hw hfit
    obtain ⟨k,t,hkt,ht⟩ := ahead r
    have hr' := hr.trans hkt
    have hpend : pending pre r = pending pre t := by rw [hkt,pending_blanks (spaces_blank k)]
    have hsep : separated false r = separated false t := by rw [hkt,separated_spaces]
    have hd := drop_spaces hr'
    have hlen : t.length ≤ n + 1 := le_trans (by rw [hkt,List.length_append]; omega) hn
    rw [hpend] at hfit
    rw [hpend,hsep]
    -- one case for each thing that the round can find behind the spaces
    cases ht with
    | done =>
      cases k with
      | zero => exact hd ▸ loop_left hw (.inl hd)
      | succ k =>
        have hround := @round_blank σ interp ui st k hline.length_le hline.no_nul (hr'.trans (List.append_nil _))
        have hw' : Holds array pre { st with a := st.a + (k + 1) } := ⟨hw.count,hw.stored⟩
        have hleft := @loop_left σ interp ui _ pre array hw' (.inl hd)
        rw [hd] at hleft
        simp only [ends_left hround]
        have hagain : round interp ui { st with a := st.a + (k + 1) } = .left { st with a := st.a + (k + 1) } :=
          round_left (.inl hd)
        simpa only [ends_left hagain] using hleft
    | semicolon t =>
      have hround := @round_semicolon σ interp ui st k t hline.length_le hline.no_nul hr'
      have hself := @round_semicolon σ interp ui { st with a := st.a + k } 0 t hline.length_le hline.no_nul hd
      refine ⟨fun ⟨code,host,he⟩ => ?_,fun h => absurd h.1 Bool.false_ne_true⟩
      exact absurd ((ends_again hround).mp he) (not_ends_self hself)
    | newline t =>
      have hw' : Holds array pre { st with a := st.a + k } := ⟨hw.count,hw.stored⟩
      have hleft := @loop_left σ interp ui _ pre array hw' (.inr ⟨t,hd⟩)
      rw [hd] at hleft
      cases k with
      | zero => exact hleft
      | succ k =>
        have hround := @round_newline σ interp ui st k t hline.length_le hline.no_nul hr'
        simpa only [ends_again hround] using hleft
    | last _ hne hword =>
      have hfit' : Fits (pending (pre ++ [t]) []) := by rwa [pending_done,← pending_last hne hword]
      obtain ⟨hfew,hshort⟩ := fits_word hfit'
      have happ : t ++ [] = t := List.append_nil t
      have hround := @round_word σ interp ui st k [] t hline (happ.symm ▸ hr') (happ.symm ▸ .last t hne hword) hne hword
        (happ.symm ▸ takeWhile_words hword) hshort (hw.count ▸ hfew)
      obtain ⟨hchar,hend⟩ := behind_word (happ.symm ▸ hr')
      rw [wordEnd_blank hchar (by decide)] at hround
      have hstore := hw.store t
      have hih := @ih [] (Nat.zero_le n) _ _ ⟨st.a + k + t.length + 1,st.w + 1,storeWord st.words st.w t,st.calls,st.host⟩
        hend ⟨hstore.count,hstore.stored⟩ hfit'
      have hsept : separated false t = separated false [] := by
        rw [← happ,separated_word hword]
        rfl
      rw [pending_last hne hword,hsept,← @pending_done (pre ++ [t])]
      simpa only [ends_again hround] using hih
    | command tmp t hne hword =>
      have hcmd : pending pre (tmp ++ 59::t) = (pre ++ [tmp])::commands t := pending_command hne hword
      rw [hcmd] at hfit ⊢
      obtain ⟨hfew,hshort⟩ := hfit _ (List.mem_cons_self ..)
      have hround := @round_word σ interp ui st k _ tmp hline hr' (.command tmp t hne hword) hne hword
        (takeWhile_word hword (by decide) t) (hshort tmp (by simp)) (by rw [hw.count]; simp at hfew; omega)
      obtain ⟨hchar,hend⟩ := behind_word hr'
      have hsept : separated false (tmp ++ 59::t) = separated false t := by
        rw [separated_word hword]
        simp [separated,hne]
      have hstore := hw.store tmp
      have hcall := @Holds.call σ interp ⟨st.a + k + tmp.length,st.w + 1,storeWord st.words st.w tmp,st.calls,st.host⟩ _ _
        ⟨hstore.count,hstore.stored⟩
      have hround := hround.trans (@wordEnd_semicolon σ interp ui _ tmp hchar)
      rw [hcall] at hround
      rw [hsept]
      cases hi : interp (pre ++ [tmp] ++ array.drop (pre ++ [tmp]).length) (pre ++ [tmp]).length st.host with
      | none =>
        rw [hi] at hround
        refine ⟨fun ⟨_,_,he⟩ => absurd he (not_ends_stuck hround),fun ⟨_,r,hr,_⟩ => ?_⟩
        rw [hi] at hr
        cases hr
      | some r =>
        obtain ⟨code,host⟩ := r
        rw [hi] at hround
        have hans : Answered interp array ((pre ++ [tmp])::commands t) st.host ↔
            code ≠ -1 ∧ Answered interp (pre ++ [tmp] ++ array.drop (pre ++ [tmp]).length) (commands t) host := by
          refine ⟨fun ⟨r,hr,hgo,hrest⟩ => ?_,fun h => ⟨(code,host),hi,fun _ => h.1,h.2⟩⟩
          cases hi.symm.trans hr
          exact ⟨hgo (commands_ne_nil t),hrest⟩
        rw [hans]
        by_cases hcode : code = -1
        · have hret : round interp ui st = .returned _ := hround.trans (if_pos hcode)
          exact ⟨fun ⟨_,_,he⟩ => absurd ((ends_returned hret).mp he) (by simp),fun h => absurd hcode h.2.1⟩
        · have hgo : round interp ui st = .again _ := hround.trans (if_neg hcode)
          obtain ⟨k',t',ht',hahead⟩ := ahead t
          have hskip := skipSpaces_drop hline.length_le (hend.trans ht') hahead
          have hpend' : pending [] t' = commands t := by rw [pending_nil,ht',commands_blanks (spaces_blank k')]
          have hlen' : t'.length ≤ n := by
            rw [ht'] at hlen
            simp only [List.length_append,List.length_cons] at hlen
            omega
          have hih := @ih t' hlen' (pre ++ [tmp] ++ array.drop (pre ++ [tmp]).length) []
            ⟨skipSpaces ui (st.a + k + tmp.length + 1),0,pre ++ [tmp] ++ array.drop (pre ++ [tmp]).length,
              st.calls ++ [pre ++ [tmp]],host⟩
            (hskip ▸ drop_spaces (hend.trans ht')) ⟨rfl,rfl⟩ (hpend' ▸ fun c hc => hfit c (List.mem_cons_of_mem _ hc))
          rw [hpend',← separated_spaces k' t',← ht'] at hih
          simp only [hcode,ne_eq,not_false_eq_true,true_and]
          rw [← hih]
          have hst : storeWord st.words st.w tmp = pre ++ [tmp] ++ array.drop (pre ++ [tmp]).length := hstore.stored
          simp only [ends_again hgo]
          rw [hst,List.append_cons st.calls (pre ++ [tmp]) (commands t)]
    | word tmp blank t hne hword hb =>
      rw [pending_word hne hword hb] at hfit ⊢
      obtain ⟨hfew,hshort⟩ := fits_word hfit
      have hround := @round_word σ interp ui st k _ tmp hline hr' (.word tmp blank t hne hword hb) hne hword
        (takeWhile_word hword (isWordChar_blank hb) t) hshort (hw.count ▸ hfew)
      have hsemi := blank_ne_semicolon hb
      obtain ⟨hchar,hend⟩ := behind_word hr'
      rw [wordEnd_blank hchar hsemi] at hround
      have hstore := hw.store tmp
      have hlen' : t.length ≤ n := by
        simp only [List.length_append,List.length_cons] at hlen
        omega
      have hih := @ih t hlen' _ _ ⟨st.a + k + tmp.length + 1,st.w + 1,storeWord st.words st.w tmp,st.calls,st.host⟩
        hend ⟨hstore.count,hstore.stored⟩ hfit
      have hsept : separated false (tmp ++ blank::t) = separated false t := by
        rw [separated_word hword,separated,if_neg hsemi]
        rcases (Bool.or_eq_true _ _).mp hb with h | h <;> rw [eq_of_beq h] <;> simp [hne]
      rw [hsept]
      simpa only [ends_again hround] using hih

/-- A line that fits is read to its end by the calls it asks for just where it is separated and the
calls let the loop go on. -/
theorem parseInput_iff (hline : Line ui) (hfit : Fits (commands ui)) (host : σ) :
    (∃ n code last, parseInput interp ui n host = some (.reached (commands ui) code last)) ↔
      separated false ui = true ∧ Answered interp [] (commands ui) host := by
  obtain ⟨k,t,ht,hahead⟩ := ahead ui
  have hzero : ui.drop 0 = List.replicate k 32 ++ t := ht
  have hskip := skipSpaces_drop hline.length_le hzero hahead
  have hpend : pending [] t = commands ui := by rw [pending_nil,ht,commands_blanks (spaces_blank k)]
  have hloop := @loop_iff σ interp ui hline t.length t le_rfl [] [] ⟨skipSpaces ui 0,0,[],[],host⟩ (hskip ▸ drop_spaces hzero) ⟨rfl,rfl⟩ (hpend ▸ hfit)
  rw [hpend,← separated_spaces k t,← ht] at hloop
  rw [← hloop]
  exact ⟨fun ⟨n,code,last,h⟩ => ⟨code,last,n,h⟩,fun ⟨code,last,n,h⟩ => ⟨n,code,last,h⟩⟩

end

/-- The line is read to its end, with one call for each command and the words of that command, just
where every semicolon comes right after a word, nothing but blanks stands behind a newline that does
not, and the calls let the loop go on. -/
theorem parseInput_complete_iff {σ : Type} (interp : Interp σ) (ui : CString) (hline : Line ui) (hfit : Fits (commands ui))
    (host : σ) : (∃ n code last, parseInput interp ui n host = some (.reached (commands ui) code last)) ↔
      separated false ui = true ∧ Answered interp [] (commands ui) host :=
  parseInput_iff hline hfit host

theorem parseInput_complete_iff_run : ∃ n code last,
    parseInput (fun _ _ host => some (0,host)) (cstr "set x 1;print x\n") n () = some (.reached
      (commands (cstr "set x 1;print x\n")) code last) :=
  (parseInput_complete_iff _ _ ⟨by decide,by decide⟩ (by unfold Fits; decide) ()).mpr
    ⟨by decide,(_,()),rfl,fun _ => by decide,(_,()),rfl,fun _ => by decide,trivial⟩

/-- A space before a semicolon: the loop stands still at the semicolon. -/
theorem parseInput_space_semicolon : Line (cstr "my_ls ;quit\n") ∧ Fits (commands (cstr "my_ls ;quit\n")) ∧
    ∀ n, parseInput (fun _ _ host => some (0,host)) (cstr "my_ls ;quit\n") n () = none := by
  refine ⟨⟨by decide,by decide⟩,by unfold Fits; decide,fun n => ?_⟩
  cases hrun : parseInput (fun _ _ host => some (0,host)) (cstr "my_ls ;quit\n") n () with
  | none => rfl
  | some e =>
    have hfirst : round (fun _ _ host => some (0,host)) (cstr "my_ls ;quit\n") ⟨0,0,[],[],()⟩ =
      .again ⟨6,1,[cstr "my_ls"],[],()⟩ := rfl
    have hself : round (fun _ _ host => some (0,host)) (cstr "my_ls ;quit\n") ⟨6,1,[cstr "my_ls"],[],()⟩ =
      .again ⟨6,1,[cstr "my_ls"],[],()⟩ := rfl
    exact absurd ((ends_again hfirst).mp ⟨n,hrun⟩) (not_ends_self hself)

end ShellOS.Ready.LineScan
