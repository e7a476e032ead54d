import ShellOS.Ready.LineScan
import ShellOS.Shell.LineBuffers

/-! `parseInput` of the a2 shell and the arrays `tmp` and `words`: where a round of its loop overruns
one of them, the round is stuck. -/
namespace ShellOS.Ready.LineScan
open CLib

/-! ### The rounds of the loop -/

/-- Rounds from one state to a later one. -/
inductive Reaches {σ : Type} (interp : Interp σ) (ui : CString) : Scan σ → Scan σ → Prop
  | refl (st : Scan σ) : Reaches interp ui st st
  | step {st st' st'' : Scan σ} : round interp ui st = .again st' → Reaches interp ui st' st'' → Reaches interp ui st st''

/-- No round from here on overruns an array, if commands come back. -/
def Safe {σ : Type} (interp : Interp σ) (ui : CString) (st : Scan σ) : Prop :=
  ∀ st', Reaches interp ui st st' → round interp ui st' ≠ .stuck

/-- However the commands turn out, the loop stays within `tmp` and `words`. -/
def StaysWithin (ui : CString) : Prop := ∀ (σ : Type) (interp : List CString → ℕ → σ → ℤ × σ) (host : σ),
  Safe (fun words w s => some (interp words w s)) ui ⟨skipSpaces ui 0,0,[],[],host⟩

section
variable {σ : Type} {interp : Interp σ} {ui : CString} {st st' : Scan σ}

theorem safe_left (h : round interp ui st = .left st') : Safe interp ui st := by
  intro s hs
  cases hs with
  | refl => rw [h]; nofun
  | step hstep _ => rw [h] at hstep; cases hstep

theorem safe_again (h : round interp ui st = .again st') : Safe interp ui st ↔ Safe interp ui st' := by
  refine ⟨fun hs s hr => hs s (.step h hr),fun hs s hr => ?_⟩
  cases hr with
  | refl => rw [h]; nofun
  | step hstep hr =>
    rw [h] at hstep
    cases hstep
    exact hs s hr

theorem not_safe_stuck (h : round interp ui st = .stuck) : ¬ Safe interp ui st := fun hs => hs st (.refl st) h

/-- A round that changes nothing is repeated for ever. -/
theorem safe_self (h : round interp ui st = .again st) : Safe interp ui st := by
  intro s hs
  suffices hsame : s = st by
    rw [hsame,h]
    nofun
  induction hs with
  | refl => rfl
  | step hstep _ ih =>
    rw [h] at hstep
    cases hstep
    exact ih h

/-- Whether a round is stuck, and where the next one begins, does not depend on the commands. -/
theorem round_same {f : List CString → ℕ → σ → ℤ × σ} {st₀ : Scan Unit} (ha : st.a = st₀.a) (hw : st.w = st₀.w) :
    (round (fun words w s => some (f words w s)) ui st = .stuck → round (fun _ _ s => some (0,s)) ui st₀ = .stuck) ∧
    ∀ st', round (fun words w s => some (f words w s)) ui st = .again st' →
      ∃ st₀', round (fun _ _ s => some (0,s)) ui st₀ = .again st₀' ∧ st'.a = st₀'.a ∧ st'.w = st₀'.w := by
  have hgo : ¬ (0 : ℤ) = -1 := by decide
  simp only [round,wordEnd,Scan.call,Option.map_some,ha,hw,if_neg hgo]
  constructor
  · split_ifs <;> simp
  · intro st'
    split_ifs <;> simp only [Round.again.injEq,false_implies]
    all_goals
      rintro rfl
      exact ⟨_,rfl,rfl,rfl⟩

/-- The loop is safe if it is where every command lets it go on. -/
theorem safe_of_zero {f : List CString → ℕ → σ → ℤ × σ} {st₀ : Scan Unit} (ha : st.a = st₀.a) (hw : st.w = st₀.w)
    (h : Safe (fun _ _ s => some (0,s)) ui st₀) : Safe (fun words w s => some (f words w s)) ui st := by
  intro s hs
  induction hs generalizing st₀ with
  | refl => exact fun hstuck => h st₀ (.refl st₀) ((round_same ha hw).1 hstuck)
  | step hstep _ ih =>
    obtain ⟨st₁,hround,ha',hw'⟩ := (round_same ha hw).2 _ hstep
    exact ih ha' hw' ((safe_again hround).mp h)

end

/-! ### What the loop comes to see -/

/-- The line up to where the loop stands still or is left: a semicolon or a newline that does not come
right after a word. -/
def reached : Bool → CString → CString
  | _,[] => []
  | inWord,c::rest =>
    if c = 59 ∨ c = 10 then if inWord then c::reached false rest else [] else c::reached (c != 32) rest

/-- A command for which there is room. -/
def RoomyCommand (c : List CString) : Prop := c.length ≤ 100 ∧ ∀ w ∈ c, w.length < 200

/-- At most a hundred words in every command that the loop comes to, each of at most 199 characters. -/
def Roomy (ui : CString) : Prop := ∀ c ∈ commands (reached false ui), RoomyCommand c

theorem reached_spaces (k : ℕ) (r : CString) :
    reached false (List.replicate k 32 ++ r) = List.replicate k 32 ++ reached false r := by
  induction k with
  | zero => rfl
  | succ k ih =>
    rw [List.replicate_succ,List.cons_append,reached,if_neg (by decide)]
    exact congrArg (32::·) ih

theorem reached_word {tmp : CString} (h : ∀ c ∈ tmp, isWordChar c = true) (r : CString) (inWord : Bool) :
    reached inWord (tmp ++ r) = tmp ++ reached (inWord || tmp ≠ []) r := by
  induction tmp generalizing inWord with
  | nil => simp
  | cons c tmp ih =>
    obtain ⟨hc,ht⟩ := List.forall_mem_cons.mp h
    simp only [isWordChar,Bool.and_eq_true,bne_iff_ne,ne_eq] at hc
    have hword : (c != 32) = true := bne_iff_ne.mpr hc.2
    rw [List.cons_append,reached,if_neg (not_or.mpr ⟨hc.1.1,hc.1.2⟩),hword,ih ht]
    simp

section
variable {ui : CString} {st : Scan Unit} {pre : List CString} {r t tmp : CString} {k : ℕ}

theorem reached_blank {blank : UInt8} (hb : (blank == 32 || blank == 10) = true) (t : CString) :
    reached true (blank::t) = blank::reached false t := by
  rcases (Bool.or_eq_true _ _).mp hb with h | h <;> rw [eq_of_beq h] <;> simp [reached]

/-- A command has no room if its first words have none. -/
theorem not_roomy_of_prefix {c : List CString} (h : ¬ RoomyCommand pre) (hp : pre <+: c) : ¬ RoomyCommand c :=
  fun hc => h ⟨hp.length_le.trans hc.1,fun w hw => hc.2 w (hp.subset hw)⟩

theorem exists_prefix_pending (pre : List CString) (r : CString) : ∃ c ∈ pending pre r, pre <+: c := by
  obtain ⟨c,cs,hc⟩ := List.exists_cons_of_ne_nil (commands_ne_nil r)
  exact ⟨pre ++ c,by simp [pending,hc],List.prefix_append pre c⟩

/-- The commands at the last word, with and without a semicolon behind it. -/
theorem roomy_snoc (h : RoomyCommand pre) : RoomyCommand (pre ++ [tmp]) ↔ pre.length < 100 ∧ tmp.length < 200 := by
  simp only [RoomyCommand,List.length_append,List.length_singleton,List.forall_mem_append,List.mem_singleton,forall_eq]
  exact ⟨fun hr => ⟨by omega,hr.2.2⟩,fun hr => ⟨by omega,h.2,hr.2⟩⟩

/-- A word without room gets the round stuck. -/
theorem round_stuck {interp : Interp Unit} (hline : Line ui) (hr : ui.drop st.a = List.replicate k 32 ++ (tmp ++ r))
    (ht : Ahead (tmp ++ r)) (hne : tmp ≠ []) (hw : ∀ c ∈ tmp, isWordChar c = true)
    (hstop : (tmp ++ r).takeWhile isWordChar = tmp) (hfull : ¬ (st.w < 100 ∧ tmp.length < 200)) :
    round interp ui st = .stuck := by
  rw [round_of_word hline hr ht hne hw hstop]
  by_cases hlong : 200 ≤ tmp.length
  · rw [if_pos hlong]
  · rw [if_neg hlong,if_pos (by omega)]

/-- Commands that always come back with 0. -/
def zero : Interp Unit := fun _ _ s => some (0,s)

/-- The round goes past the word, if there is room for it. -/
theorem safe_word (hline : Line ui) (hr : ui.drop st.a = List.replicate k 32 ++ (tmp ++ r)) (ht : Ahead (tmp ++ r))
    (hne : tmp ≠ []) (hw : ∀ c ∈ tmp, isWordChar c = true) (hstop : (tmp ++ r).takeWhile isWordChar = tmp)
    (hpre : st.w = pre.length) (hroom : RoomyCommand pre) {cs : List (List CString)}
    (hcs : ∃ c ∈ cs, pre ++ [tmp] <+: c)
    (hgo : RoomyCommand (pre ++ [tmp]) → ∃ st', wordEnd zero ui tmp { st with a := st.a + k + tmp.length } = .again st' ∧
      (Safe zero ui st' ↔ ∀ c ∈ cs, RoomyCommand c)) :
    Safe zero ui st ↔ ∀ c ∈ cs, RoomyCommand c := by
  by_cases hfull : st.w < 100 ∧ tmp.length < 200
  · obtain ⟨st',hagain,hsafe⟩ := hgo ((roomy_snoc hroom).mpr (hpre ▸ hfull))
    have hround : round zero ui st = _ := round_word hline hr ht hne hw hstop hfull.2 hfull.1
    rw [safe_again (hround.trans hagain),hsafe]
  · obtain ⟨c,hc,hp⟩ := hcs
    refine iff_of_false (not_safe_stuck (round_stuck hline hr ht hne hw hstop hfull)) fun hall => ?_
    exact not_roomy_of_prefix (fun h => hfull (hpre ▸ (roomy_snoc hroom).mp h)) hp (hall c hc)

/-- Behind the word comes a blank or the end of the line. -/
theorem again_blank {c : UInt8} (hend : charAt ui (st.a + k + tmp.length) = c) (hc : c ≠ 59) :
    wordEnd zero ui tmp { st with a := st.a + k + tmp.length } =
      .again ⟨st.a + k + tmp.length + 1,st.w + 1,storeWord st.words st.w tmp,st.calls,st.host⟩ :=
  wordEnd_blank hend hc

theorem again_semicolon (hend : charAt ui (st.a + k + tmp.length) = 59) :
    ∃ calls host, wordEnd zero ui tmp { st with a := st.a + k + tmp.length } =
      .again ⟨skipSpaces ui (st.a + k + tmp.length + 1),0,storeWord st.words st.w tmp,calls,host⟩ :=
  ⟨_,_,wordEnd_semicolon hend⟩

theorem loop_safe_iff (hline : Line ui) (n : ℕ) : ∀ {r : CString}, r.length ≤ n → ∀ {pre : List CString} {st : Scan Unit},
    ui.drop st.a = r → st.w = pre.length → RoomyCommand pre →
    (Safe zero ui st ↔ ∀ c ∈ pending pre (reached false r), RoomyCommand c) := by
  induction n with
  | zero =>
    intro r hn pre st hr hpre hroom
    have hnil : r = [] := List.length_eq_zero_iff.mp (Nat.le_zero.mp hn)
    subst hnil
    refine iff_of_true (safe_left (round_left (.inl hr))) ?_
    rw [reached,pending_done,List.forall_mem_singleton]
    exact hroom
  | succ n ih =>
    intro r hn pre st hr hpre hroom
    obtain ⟨k,t,hkt,ht⟩ := ahead r
    have hr' := hr.trans hkt
    have hpend : pending pre (reached false r) = pending pre (reached false t) := by
      rw [hkt,reached_spaces,pending_blanks (spaces_blank k)]
    have hd := drop_spaces hr'
    have hlen : t.length ≤ n + 1 := le_trans (by rw [hkt,List.length_append]; omega) hn
    have hstay : reached false t = [] → ∀ c ∈ pending pre (reached false t), RoomyCommand c := fun h => by
      rw [h,pending_done,List.forall_mem_singleton]
      exact hroom
    rw [hpend]
    cases ht with
    | done =>
      refine iff_of_true ?_ (hstay rfl)
      cases k with
      | zero => exact safe_left (round_left (.inl (hr.trans hkt)))
      | succ k => exact safe_left (round_blank hline.length_le hline.no_nul (hr'.trans (List.append_nil _)))
    | semicolon t =>
      refine iff_of_true ?_ (hstay rfl)
      have hround : round zero ui st = _ := round_semicolon hline.length_le hline.no_nul hr'
      have hself : round zero ui { st with a := st.a + k } = _ := @round_semicolon _ _ _ _ 0 t hline.length_le hline.no_nul hd
      exact (safe_again hround).mpr (safe_self hself)
    | newline t =>
      refine iff_of_true ?_ (hstay rfl)
      cases k with
      | zero => exact safe_left (round_left (.inr ⟨t,hr'⟩))
      | succ k =>
        have hround : round zero ui st = _ := round_newline hline.length_le hline.no_nul hr'
        exact (safe_again hround).mpr (safe_left (round_left (.inr ⟨t,hd⟩)))
    | last _ hne hword =>
      have happ : t ++ [] = t := List.append_nil t
      have hreached : reached false t = t := by
        rw [← happ,reached_word hword]
        rfl
      obtain ⟨hchar,hend⟩ := behind_word (happ.symm ▸ hr')
      rw [hreached,pending_last hne hword]
      refine safe_word hline (happ.symm ▸ hr') (happ.symm ▸ .last t hne hword) hne hword
        (happ.symm ▸ takeWhile_words hword) hpre hroom ⟨_,List.mem_singleton_self _,List.prefix_refl _⟩ fun hsnoc => ?_
      refine ⟨_,again_blank hchar (by decide),iff_of_true (safe_left (round_left (.inl hend))) ?_⟩
      exact List.forall_mem_singleton.mpr hsnoc
    | command tmp t hne hword =>
      have hreached : reached false (tmp ++ 59::t) = tmp ++ 59::reached false t := by
        rw [reached_word hword]
        simp [reached,hne]
      obtain ⟨hchar,hend⟩ := behind_word hr'
      rw [hreached,pending_command hne hword]
      refine safe_word hline hr' (.command tmp t hne hword) hne hword (takeWhile_word hword (by decide) t) hpre hroom
        ⟨_,List.mem_cons_self,List.prefix_refl _⟩ fun hsnoc => ?_
      obtain ⟨calls,host,hagain⟩ := again_semicolon hchar
      obtain ⟨k',t',ht',hahead⟩ := ahead t
      have hskip := skipSpaces_drop hline.length_le (hend.trans ht') hahead
      have hlen' : t'.length ≤ n := by
        rw [ht'] at hlen
        simp only [List.length_append,List.length_cons] at hlen
        omega
      refine ⟨_,hagain,?_⟩
      have hnone : RoomyCommand [] := ⟨by simp,by simp⟩
      have hih : Safe zero ui ⟨skipSpaces ui (st.a + k + tmp.length + 1),0,storeWord st.words st.w tmp,calls,host⟩ ↔ _ :=
        ih hlen' (hskip ▸ drop_spaces (hend.trans ht')) rfl hnone
      have hcommands : pending [] (reached false t') = commands (reached false t) := by
        rw [pending_nil,ht',reached_spaces,commands_blanks (spaces_blank k')]
      rw [hih,hcommands,List.forall_mem_cons]
      exact (and_iff_right hsnoc).symm
    | word tmp blank t hne hword hb =>
      have hreached : reached false (tmp ++ blank::t) = tmp ++ blank::reached false t := by
        rw [reached_word hword,decide_eq_true hne,Bool.false_or,reached_blank hb]
      obtain ⟨hchar,hend⟩ := behind_word hr'
      have hlen' : t.length ≤ n := by
        simp only [List.length_append,List.length_cons] at hlen
        omega
      rw [hreached,pending_word hne hword hb]
      refine safe_word hline hr' (.word tmp blank t hne hword hb) hne hword (takeWhile_word hword (isWordChar_blank hb) t) hpre hroom
        (exists_prefix_pending _ _) fun hsnoc => ?_
      refine ⟨_,again_blank hchar (blank_ne_semicolon hb),ih hlen' hend ?_ hsnoc⟩
      rw [List.length_append,List.length_singleton,hpre]

/-- The loop stays within its arrays just when there is room for every command it comes to. -/
theorem staysWithin_iff (hline : Line ui) : StaysWithin ui ↔ Roomy ui := by
  obtain ⟨k,t,ht,hahead⟩ := ahead ui
  have hzero : ui.drop 0 = List.replicate k 32 ++ t := ht
  have hskip := skipSpaces_drop hline.length_le hzero hahead
  have hnone : RoomyCommand [] := ⟨by simp,by simp⟩
  have hloop : Safe zero ui ⟨skipSpaces ui 0,0,[],[],()⟩ ↔ _ :=
    loop_safe_iff hline t.length le_rfl (hskip ▸ drop_spaces hzero) rfl hnone
  have hcommands : pending [] (reached false t) = commands (reached false ui) := by
    rw [pending_nil,ht,reached_spaces,commands_blanks (spaces_blank k)]
  rw [hcommands] at hloop
  unfold Roomy
  rw [← hloop]
  refine ⟨fun h => h Unit (fun _ _ s => (0,s)) (),fun h σ interp host => ?_⟩
  exact safe_of_zero rfl rfl h

end

/-! ### The value of `set` -/

/-- The size of the buffer that `set` allocates for the words of the value. -/
def totalLen (ws : List CString) : ℕ := (ws.map fun w => w.length + 1).sum

/-- The value, put together in the buffer allocated for it. -/
def setValue (ws : List CString) : Option (Buffer (totalLen ws)) :=
  if h : 0 < totalLen ws then (ws.intersperse (cstr " ")).foldlM Buffer.strcat ⟨[],h⟩ else none

theorem length_spaced {ws : List CString} (h : ws ≠ []) : (Shell.spaced ws).length + 1 = totalLen ws := by
  induction ws with
  | nil => exact absurd rfl h
  | cons w ws ih =>
    cases ws with
    | nil => simp [Shell.spaced,totalLen]
    | cons w' ws =>
      have hrest := ih (List.cons_ne_nil _ _)
      have hspaced : Shell.spaced (w::w'::ws) = w ++ 32::Shell.spaced (w'::ws) := by
        simp [Shell.spaced,List.intercalate]
      rw [hspaced,totalLen,List.map_cons,List.sum_cons,List.length_append,List.length_cons]
      rw [totalLen] at hrest
      omega

/-- The buffer has just the size of the value. -/
theorem setValue_isSome {ws : List CString} (h : ws ≠ []) : (setValue ws).isSome := by
  have hlen := length_spaced h
  have hpos : 0 < totalLen ws := by omega
  obtain ⟨b,hb⟩ := (Buffer.exists_text (totalLen ws) (Shell.spaced ws)).mpr (by omega)
  have hvalue : (ws.intersperse (cstr " ")).foldlM Buffer.strcat (⟨[],hpos⟩ : Buffer (totalLen ws)) = some b :=
    Buffer.foldlM_strcat_eq_some_iff.mpr hb
  rw [setValue,dif_pos hpos,hvalue]
  rfl

/-- The a2 shell stays within its arrays just when the commands it comes to have at most a hundred words
of at most 199 characters; the a3 shell when the sections have at most a hundred words and the values of
`set` at most 504 characters. -/
theorem parse_stays_within_iff (ui : CString) (hlen : ui.length ≤ 998) (hnul : (0 : UInt8) ∉ ui) :
    ((StaysWithin ui ∧ ∀ ws ≠ [], (setValue ws).isSome) ↔ Roomy ui) ∧ (Shell.StaysWithin ui ↔ Shell.Roomy ui) := by
  have hline : Line ui := ⟨by omega,hnul⟩
  rw [staysWithin_iff hline]
  exact ⟨and_iff_left fun ws h => setValue_isSome h,Shell.staysWithin_iff hlen⟩

theorem parse_stays_within_set : StaysWithin (cstr "set x 1;ls") ∧ Shell.StaysWithin (cstr "set x 1;ls") := by
  have h := parse_stays_within_iff (cstr "set x 1;ls") (by decide) (by decide)
  refine ⟨(h.1.mpr ?_).1,h.2.mpr fun token htoken => ?_⟩
  · unfold Roomy RoomyCommand
    decide
  · have hsections : token ∈ [cstr "set x 1",cstr "ls"] := htoken
    simp only [List.mem_cons,List.not_mem_nil,or_false] at hsections
    obtain rfl | rfl := hsections
    · refine ⟨by decide,fun var ws he _ _ => ?_⟩
      have hargs : ([cstr "set",cstr "x",cstr "1"] : List CString) = cstr "set"::var::ws := he
      obtain ⟨-,-,rfl⟩ := hargs
      decide
    · exact ⟨by decide,fun var ws he => absurd (congrArg List.length he) (by simp [show (Shell.words (cstr "ls")).length = 1 from rfl])⟩

/-- `set` with a value of 505 letters: too long a word for one shell, too long a value for the other. -/
theorem parse_overrun :
    let ui := cstr "set x " ++ List.replicate 505 97
    ui.length ≤ 998 ∧ (0 : UInt8) ∉ ui ∧ ¬ StaysWithin ui ∧ ¬ Shell.StaysWithin ui := by
  intro ui
  have hlen : ui.length = 511 := by
    rw [List.length_append,List.length_replicate]
    rfl
  have hnul : (0 : UInt8) ∉ ui := by
    simp only [ui,List.mem_append,List.mem_replicate,not_or]
    exact ⟨by decide,by decide⟩
  refine ⟨by omega,hnul,?_,?_⟩
  · rw [staysWithin_iff ⟨by omega,hnul⟩]
    unfold Roomy RoomyCommand
    decide +kernel
  · rw [Shell.staysWithin_iff (by omega)]
    intro h
    have hsection : Shell.sections ui = [ui] := by decide +kernel
    have hwords : Shell.words ui = [cstr "set",cstr "x",List.replicate 505 97] := by decide +kernel
    have hfits := (h ui (hsection ▸ List.mem_singleton_self ui)).2
    rw [hwords] at hfits
    have hvalue := hfits (cstr "x") [List.replicate 505 97] (by decide +kernel) (List.cons_ne_nil _ _) (by decide)
    exact absurd hvalue (by decide +kernel)

end ShellOS.Ready.LineScan
