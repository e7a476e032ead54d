import ShellOS.Ready.LineScan

/-! The loop of `parseInput` makes the calls that are listed for the line beforehand. -/
namespace ShellOS.Ready.LineScan
open CLib

/-- The calls of a line one after the other, as far as their values let the line go on. -/
def makeCalls {σ : Type} (interp : Interp σ) : List Call → List (List CString) → σ → Option (Ending σ)
  | .words array w::rest,calls,host => (interp array w host).bind fun r =>
      if rest = [] then some (.reached (calls ++ [array.take w]) r.1 r.2)
      else if r.1 = -1 then some (.early (calls ++ [array.take w]) r.2)
      else makeCalls interp rest (calls ++ [array.take w]) r.2
  | _,_,_ => none

/-! ### The list of calls -/

section
variable {n k w : ℕ} {array : List CString} {r t tmp : CString}

theorem parseFrom_nil : parseFrom (n + 1) array w [] = [.words array w] := rfl

theorem parseFrom_newline : parseFrom (n + 1) array w (10::t) = [.words array w] := rfl

theorem parseFrom_semicolon : parseFrom (n + 1) array w (59::t) = [.hang] := rfl

theorem dropWhile_spaces (k : ℕ) (ht : Ahead t) : (List.replicate k 32 ++ t).dropWhile (· == 32) = t := by
  have hsplit := List.takeWhile_append_dropWhile (p := (· == (32 : UInt8))) (l := List.replicate k 32 ++ t)
  rw [takeWhile_spaces k ht] at hsplit
  exact List.append_cancel_left hsplit

theorem parseFrom_spaces (k : ℕ) (ht : Ahead t) :
    parseFrom (n + 1) array w (List.replicate k 32 ++ t) = parseFrom (n + 1) array w t := by
  cases k with
  | zero => rfl
  | succ k =>
    have hdrop := dropWhile_spaces (k + 1) ht
    have hself := dropWhile_spaces 0 ht
    rw [List.replicate_zero,List.nil_append] at hself
    have hhead : ¬ (List.replicate (k + 1) 32 ++ t = [] ∨ (List.replicate (k + 1) 32 ++ t).head? = some 10) := by
      simp [List.replicate_succ]
    rw [parseFrom,if_neg hhead,hdrop]
    by_cases hnil : t = []
    · simp [hnil,parseFrom]
    · by_cases hnl : t.head? = some 10
      · obtain ⟨r,rfl⟩ := List.head?_eq_some_iff.mp hnl
        rfl
      · rw [parseFrom,if_neg (not_or.mpr ⟨hnil,hnl⟩),hself]

/-- A word is taken off. -/
theorem parseFrom_word (hne : tmp ≠ []) (hw : ∀ c ∈ tmp, isWordChar c = true) (ht : Ahead (tmp ++ r))
    (hstop : (tmp ++ r).takeWhile isWordChar = tmp) : parseFrom (n + 1) array w (tmp ++ r) =
      if r.head? = some 59 then
        .words (storeWord array w tmp) (w + 1)::parseFrom n (storeWord array w tmp) 0 (r.tail.dropWhile (· == 32))
      else parseFrom n (storeWord array w tmp) (w + 1) r.tail := by
  have hrest : (tmp ++ r).dropWhile isWordChar = r := by
    have hsplit := List.takeWhile_append_dropWhile (p := isWordChar) (l := tmp ++ r)
    rw [hstop] at hsplit
    exact List.append_cancel_left hsplit
  have hself := dropWhile_spaces 0 ht
  rw [List.replicate_zero,List.nil_append] at hself
  have hnil : tmp ++ r ≠ [] := fun he => hne (List.append_eq_nil_iff.mp he).1
  obtain ⟨c,cs,rfl⟩ := List.exists_cons_of_ne_nil hne
  have hc : (c::cs ++ r).head? ≠ some 10 := fun he => by
    have hword := hw c List.mem_cons_self
    rw [Option.some.inj he] at hword
    cases hword
  have htake : (c::cs ++ r).takeWhile (fun c => c != 59 && c != 10 && c != 32) = c::cs := hstop
  have hdrop : (c::cs ++ r).dropWhile (fun c => c != 59 && c != 10 && c != 32) = r := hrest
  rw [parseFrom,if_neg (not_or.mpr ⟨hnil,hc⟩)]
  dsimp only
  rw [hself,if_neg hnil,htake,hdrop]
  cases r with
  | nil => rfl
  | cons d r =>
    by_cases hd : d = 59
    · subst hd
      rfl
    · rw [if_neg (show ¬ (d::r).head? = some 59 from fun he => hd (Option.some.inj he))]
      split
      · rename_i h _
        cases h
      · rename_i h _
        cases h
      · rename_i h _
        exact absurd (List.cons.inj h).1 hd
      · rfl

/-- The list ends with a call that is made at the end of the line, unless the loop hangs. -/
theorem parseFrom_ne_nil (h : r.length < n) : parseFrom n array w r ≠ [] := by
  induction n generalizing array w r with
  | zero => omega
  | succ n ih =>
    obtain ⟨k,t,rfl,ht⟩ := ahead r
    rw [parseFrom_spaces k ht]
    rw [List.length_append] at h
    cases ht with
    | done => simp [parseFrom_nil]
    | semicolon t => simp [parseFrom_semicolon]
    | newline t => simp [parseFrom_newline]
    | last _ hne hw =>
      have happ : t ++ [] = t := List.append_nil t
      rw [← happ,parseFrom_word hne hw (happ.symm ▸ .last t hne hw) (happ.symm ▸ takeWhile_words hw)]
      exact ih (lt_of_lt_of_le (List.length_pos_of_ne_nil hne) (by omega))
    | command tmp t hne hw =>
      rw [parseFrom_word hne hw (.command tmp t hne hw) (takeWhile_word hw (by decide) t)]
      exact List.cons_ne_nil _ _
    | word tmp blank t hne hw hb =>
      have hsemi : (blank::t).head? ≠ some 59 := fun he => blank_ne_semicolon hb (Option.some.inj he)
      rw [parseFrom_word hne hw (.word tmp blank t hne hw hb) (takeWhile_word hw (isWordChar_blank hb) t),if_neg hsemi]
      simp only [List.length_append,List.length_cons] at h
      exact ih (show t.length < n by omega)

end

/-! ### The loop and the list -/

section
variable {σ : Type} {interp : Interp σ} {ui : CString}

theorem lastCall_eq (st : Scan σ) : lastCall interp st = makeCalls interp [.words st.words st.w] st.calls st.host := by
  rw [lastCall,Scan.call,makeCalls]
  cases interp st.words st.w st.host <;> rfl

/-- From every state of the loop on, the calls still to come are those listed for the rest of the line. -/
theorem ends_iff_makeCalls (hline : Line ui) {e : Ending σ} (n : ℕ) : ∀ {r : CString}, r.length ≤ n →
    ∀ {m : ℕ} {pre : List CString} {st : Scan σ}, ui.drop st.a = r → st.w = pre.length → Fits (pending pre r) → r.length < m →
    (Ends interp ui st e ↔ makeCalls interp (parseFrom m st.words st.w r) st.calls st.host = some e) := by
  induction n with
  | zero =>
    intro r hn m pre st hr hw hfit hm
    have hnil : r = [] := List.length_eq_zero_iff.mp (Nat.le_zero.mp hn)
    obtain ⟨m,rfl⟩ := Nat.exists_eq_succ_of_ne_zero (Nat.ne_of_gt (Nat.lt_of_le_of_lt (Nat.zero_le _) hm))
    rw [ends_left (round_left (.inl (hr.trans hnil))),hnil,parseFrom_nil,lastCall_eq]
  | succ n ih =>
    intro r hn m pre st hr hw hfit hm
    obtain ⟨m,rfl⟩ := Nat.exists_eq_succ_of_ne_zero (Nat.ne_of_gt (Nat.lt_of_le_of_lt (Nat.zero_le _) hm))
    obtain ⟨k,t,hkt,ht⟩ := ahead r
    have hr' := hr.trans hkt
    have hd := drop_spaces hr'
    have hlen : k + t.length ≤ n + 1 := by
      rw [hkt,List.length_append,List.length_replicate] at hn
      exact hn
    have hfuel : k + t.length < m + 1 := by
      rw [hkt,List.length_append,List.length_replicate] at hm
      exact hm
    rw [hkt,pending_blanks (spaces_blank k)] at hfit
    rw [hkt,parseFrom_spaces k ht]
    -- one case for each thing that the round can find behind the spaces
    cases ht with
    | done =>
      rw [parseFrom_nil]
      cases k with
      | zero => rw [ends_left (round_left (.inl hd)),lastCall_eq]
      | succ k =>
        rw [ends_left (round_blank hline.length_le hline.no_nul (hr'.trans (List.append_nil _))),lastCall_eq]
    | semicolon t =>
      have hround := @round_semicolon σ interp ui st k t hline.length_le hline.no_nul hr'
      have hself := @round_semicolon σ interp ui { st with a := st.a + k } 0 t hline.length_le hline.no_nul hd
      rw [ends_again hround,parseFrom_semicolon]
      exact iff_of_false (not_ends_self hself) (by simp [makeCalls])
    | newline t =>
      have hleft := @ends_left σ interp ui { st with a := st.a + k } _ e (round_left (.inr ⟨t,hd⟩))
      rw [parseFrom_newline]
      cases k with
      | zero => rw [ends_left (round_left (.inr ⟨t,hd⟩)),lastCall_eq]
      | succ k =>
        have hround := @round_newline σ interp ui st k t hline.length_le hline.no_nul hr'
        rw [ends_again hround,hleft,lastCall_eq]
    | last _ hne hword =>
      rw [pending_last hne hword] at hfit
      have hfit' : Fits (pending (pre ++ [t]) []) := by rwa [pending_done]
      obtain ⟨hfew,hshort⟩ := fits_word hfit'
      have happ : t ++ [] = t := List.append_nil t
      have hahead : Ahead (t ++ []) := happ.symm ▸ .last t hne hword
      have hstop : (t ++ []).takeWhile isWordChar = t := happ.symm ▸ takeWhile_words hword
      have hround := @round_word σ interp ui st k [] t hline (happ.symm ▸ hr') hahead hne hword hstop hshort (hw ▸ hfew)
      obtain ⟨hchar,hend⟩ := behind_word (happ.symm ▸ hr')
      have hfrom := @parseFrom_word m st.w st.words [] t hne hword hahead hstop
      rw [happ] at hfrom
      rw [ends_again (hround.trans (wordEnd_blank hchar (by decide))),hfrom]
      have hpos := List.length_pos_of_ne_nil hne
      have hzero : ([] : CString).length < m := by
        simp only [List.length_nil]
        omega
      exact ih (r := []) (Nat.zero_le n) hend (by simp [hw]) hfit' hzero
    | command tmp t hne hword =>
      rw [pending_command hne hword] at hfit
      obtain ⟨hfew,hshort⟩ := hfit _ List.mem_cons_self
      rw [List.length_append,List.length_singleton] at hfew
      have hstop : (tmp ++ 59::t).takeWhile isWordChar = tmp := takeWhile_word hword (by decide) t
      have hround := @round_word σ interp ui st k _ tmp hline hr' (.command tmp t hne hword) hne hword hstop
        (hshort tmp (by simp)) (by omega)
      obtain ⟨hchar,hend⟩ := behind_word hr'
      obtain ⟨k',t',rfl,hahead⟩ := ahead t
      have hskip := skipSpaces_drop hline.length_le hend hahead
      have hdrop : ((59::(List.replicate k' 32 ++ t')).tail).dropWhile (· == 32) = t' := dropWhile_spaces k' hahead
      have hmore : t'.length < m ∧ t'.length ≤ n := by
        simp only [List.length_append,List.length_cons,List.length_replicate] at hlen hfuel
        omega
      have hround := hround.trans (wordEnd_semicolon hchar)
      rw [Scan.call] at hround
      dsimp only at hround
      rw [parseFrom_word hne hword (.command tmp _ hne hword) hstop,List.head?_cons,if_pos rfl,hdrop,makeCalls]
      cases hi : interp (storeWord st.words st.w tmp) (st.w + 1) st.host with
      | none =>
        rw [hi] at hround
        exact iff_of_false (not_ends_stuck hround) (by simp)
      | some r =>
        rw [hi] at hround
        rw [Option.bind_some,if_neg (parseFrom_ne_nil hmore.1)]
        by_cases hcode : r.1 = -1
        · rw [if_pos hcode,ends_returned (hround.trans (if_pos hcode))]
          exact ⟨fun he => by rw [he],fun he => (Option.some.inj he).symm⟩
        · rw [if_neg hcode,ends_again (hround.trans (if_neg hcode))]
          have hrest : Fits (pending [] t') := by
            rw [pending_nil,← commands_blanks (spaces_blank k')]
            exact fun c hc => hfit c (List.mem_cons_of_mem _ hc)
          exact ih hmore.2 (hskip ▸ drop_spaces hend) rfl hrest hmore.1
    | word tmp blank t hne hword hb =>
      rw [pending_word hne hword hb] at hfit
      obtain ⟨hfew,hshort⟩ := fits_word hfit
      have hsemi := blank_ne_semicolon hb
      have hstop : (tmp ++ blank::t).takeWhile isWordChar = tmp := takeWhile_word hword (isWordChar_blank hb) t
      have hround := @round_word σ interp ui st k _ tmp hline hr' (.word tmp blank t hne hword hb) hne hword hstop hshort
        (hw ▸ hfew)
      obtain ⟨hchar,hend⟩ := behind_word hr'
      have hmore : t.length < m ∧ t.length ≤ n := by
        simp only [List.length_append,List.length_cons] at hlen hfuel
        omega
      rw [ends_again (hround.trans (wordEnd_blank hchar hsemi)),parseFrom_word hne hword (.word tmp blank t hne hword hb) hstop,
        if_neg (show ¬ (blank::t).head? = some 59 from fun he => hsemi (Option.some.inj he))]
      exact ih hmore.2 hend (by simp [hw]) hfit hmore.1

/-- The loop over the characters of a line that fits makes the listed calls, and comes back as they do. -/
theorem parseInput_iff_makeCalls (hline : Line ui) (hfit : Fits (commands ui)) (host : σ) (e : Ending σ) :
    (∃ n, parseInput interp ui n host = some e) ↔ makeCalls interp (Ready.parseInput ui) [] host = some e := by
  obtain ⟨k,t,rfl,ht⟩ := ahead ui
  have hzero : (List.replicate k 32 ++ t).drop 0 = List.replicate k 32 ++ t := rfl
  have hskip := skipSpaces_drop hline.length_le hzero ht
  have hrest : Fits (pending [] t) := by rwa [pending_nil,← commands_blanks (spaces_blank k)]
  rw [Ready.parseInput,dropWhile_spaces k ht]
  have hcalls := @ends_iff_makeCalls σ interp _ hline e t.length t le_rfl ((List.replicate k 32 ++ t).length + 1) []
    ⟨skipSpaces (List.replicate k 32 ++ t) 0,0,[],[],host⟩
  exact hcalls (hskip ▸ drop_spaces hzero) rfl hrest (by rw [List.length_append]; omega)

end

end ShellOS.Ready.LineScan
