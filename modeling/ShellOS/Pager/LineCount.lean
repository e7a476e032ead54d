import ShellOS.Lib.Lines
import ShellOS.Pager.Machine

/-! The lines that `count_lines` counts, and those that `fgets` delivers. -/
namespace ShellOS.Pager
open CLib Lines
variable {text : CString}

/-! ### Reading -/

theorem fgets_spec (n : ℕ) (s : CString) : (fgets n s).1.length ≤ n ∧ (fgets n s).1 ++ (fgets n s).2 = s := by
  induction s generalizing n with
  | nil => cases n <;> exact ⟨Nat.zero_le _,rfl⟩
  | cons c s ih =>
    cases n with
    | zero => exact ⟨le_rfl,rfl⟩
    | succ n =>
      obtain ⟨hlen,happ⟩ := ih n
      by_cases hc : c = 10
      · simp [fgets,hc]
      · simp only [fgets,hc,if_false,List.length_cons,List.cons_append,happ]
        exact ⟨Nat.succ_le_succ hlen,trivial⟩

theorem fgets_line {n : ℕ} {s l : CString} {ls : List CString} (h : linesOf 10 s = l::ls) (hlen : l.length ≤ n) :
    (fgets n s).1 = l ∧ linesOf 10 (fgets n s).2 = ls := by
  induction s generalizing n l ls with
  | nil => cases h
  | cons c s ih =>
    by_cases hc : c = 10
    · subst hc
      rw [linesOf_cons_eol] at h
      obtain ⟨rfl,rfl⟩ := List.cons.inj h
      obtain ⟨m,rfl⟩ := Nat.exists_eq_succ_of_ne_zero (Nat.one_le_iff_ne_zero.mp hlen)
      exact ⟨rfl,rfl⟩
    · cases hs : linesOf 10 s with
      | nil =>
        rw [linesOf_cons_of_nil hc hs] at h
        obtain ⟨rfl,rfl⟩ := List.cons.inj h
        obtain rfl := linesOf_eq_nil_iff.mp hs
        obtain ⟨m,rfl⟩ := Nat.exists_eq_succ_of_ne_zero (Nat.one_le_iff_ne_zero.mp hlen)
        have hnil : fgets m [] = ([],[]) := by cases m <;> rfl
        simp [fgets,hc,hnil]
      | cons l' ls' =>
        rw [linesOf_cons_of_cons hc hs] at h
        obtain ⟨rfl,rfl⟩ := List.cons.inj h
        obtain ⟨m,rfl⟩ := Nat.exists_eq_succ_of_ne_zero (Nat.one_le_iff_ne_zero.mp (Nat.le_trans (Nat.succ_pos _) hlen))
        obtain ⟨h1,h2⟩ := ih hs (Nat.le_of_succ_le_succ hlen)
        simp [fgets,hc,h1,h2]

/-- Every `fgets` reads a line, if none is too long. -/
theorem length_readLinesFrom {n : ℕ} {s : CString} (hn : s.length ≤ n) (hs : ∀ l ∈ linesOf 10 s, l.length ≤ 998) :
    (readLinesFrom n s).length = (linesOf 10 s).length := by
  induction n generalizing s with
  | zero =>
    rw [List.length_eq_zero_iff.mp (Nat.le_zero.mp hn)]
    rfl
  | succ n ih =>
    cases s with
    | nil => rfl
    | cons c s =>
      cases hl : linesOf 10 (c::s) with
      | nil => cases linesOf_eq_nil_iff.mp hl
      | cons l ls =>
        obtain ⟨hline,hrest⟩ := fgets_line hl (hs l (by rw [hl]; exact List.mem_cons_self))
        have hsplit := congrArg List.length (fgets_spec 998 (c::s)).2
        have hpos := List.length_pos_of_ne_nil (ne_nil_of_mem_linesOf (hl ▸ List.mem_cons_self))
        rw [readLinesFrom,List.length_cons,List.length_cons,ih (by rw [List.length_append,hline] at hsplit; omega),hrest]
        · intro m hm
          rw [hrest] at hm
          exact hs m (by rw [hl]; exact List.mem_cons_of_mem l hm)
        · exact List.cons_ne_nil c s

theorem length_readLines (h : ∀ l ∈ linesOf 10 text, l.length ≤ 998) :
    (readLines text).length = (linesOf 10 text).length := length_readLinesFrom le_rfl h

/-! ### Counting -/

/-- The lines with nothing on them. -/
def blankLines (text : CString) : ℕ := (linesOf 10 text).count [10]

theorem blankLines_cons_eol (s : CString) : blankLines (10::s) = blankLines s + 1 := by
  rw [blankLines,linesOf_cons_eol,List.count_cons_self]
  rfl

/-- A character in front of a blank line makes it one that is not. -/
theorem blankLines_cons {c : UInt8} (hc : c ≠ 10) (s : CString) :
    blankLines (c::s) + (if s.head? = some 10 then 1 else 0) = blankLines s := by
  have hne (l : CString) : c::l ≠ [10] := fun he => hc (List.cons.inj he).1
  cases s with
  | nil => simp [blankLines,linesOf,hc]
  | cons d s =>
    by_cases hd : d = 10
    · subst hd
      rw [blankLines_cons_eol,blankLines,linesOf_cons_of_cons hc (linesOf_cons_eol s),List.count_cons_of_ne (hne [10]),
        if_pos List.head?_cons]
      rfl
    · cases hl : linesOf 10 s with
      | nil => simp [blankLines,linesOf,hc,hd,hl]
      | cons l ls =>
        have hlines := linesOf_cons_of_cons hd hl
        have hd' : d::l ≠ [10] := fun he => hd (List.cons.inj he).1
        rw [blankLines,linesOf_cons_of_cons hc hlines,List.count_cons_of_ne (hne (d::l)),blankLines,hlines,
          List.count_cons_of_ne hd',if_neg (by simpa using hd)]
        rfl

/-- Each newline is counted, but for those of blank lines; the first line is blank only if there is
nothing in front of it either. -/
theorem countNewlines_add_blankLines (last : UInt8) (s : CString) : countNewlines last s + blankLines s =
    s.count 10 + if last ≠ 10 ∧ s.head? = some 10 then 1 else 0 := by
  induction s generalizing last with
  | nil => simp [countNewlines,blankLines]
  | cons c s ih =>
    have hs := ih c
    by_cases hc : c = 10
    · subst hc
      rw [if_neg (fun h => h.1 rfl)] at hs
      rw [countNewlines,blankLines_cons_eol,List.count_cons_self]
      simp only [List.head?_cons,true_and,and_true]
      omega
    · have hb := blankLines_cons hc s
      simp only [ne_eq,hc,not_false_eq_true,true_and] at hs
      rw [countNewlines,if_neg (fun h => hc h.1),List.count_cons_of_ne hc,if_neg (fun h => hc (Option.some.inj h.2))]
      omega

theorem countLines_add_blankLines (text : CString) : countLines text + blankLines text = text.count 10 + 1 := by
  have := countNewlines_add_blankLines 10 text
  rw [if_neg (fun h => h.1 rfl)] at this
  rw [countLines]
  omega

/-- The count is that of the lines that are read just if the last line is not ended and no line is
blank, or it is and one line is. -/
theorem count_lines_eq_reads_iff (text : CString) (h : ∀ l ∈ linesOf 10 text, l.length ≤ 998) :
    countLines text = (readLines text).length ↔
      text ≠ [] ∧ text.getLast? ≠ some 10 ∧ blankLines text = 0 ∨ text.getLast? = some 10 ∧ blankLines text = 1 := by
  have hcount := countLines_add_blankLines text
  rw [length_readLines h,length_linesOf]
  by_cases hne : text = []
  · subst hne
    simp [countLines,countNewlines]
  · by_cases hlast : text.getLast? = some 10
    · simp only [hne,hlast,or_true,if_true,ne_eq,not_true_eq_false,false_and,and_false,false_or,true_and]
      omega
    · simp only [hne,hlast,or_self,if_false,ne_eq,not_false_eq_true,true_and,false_and,or_false]
      omega

/-- Two lines, the last one without an end of line. -/
theorem count_lines_eq_reads_iff_two : countLines (cstr "a\nb") = (readLines (cstr "a\nb")).length ↔
    cstr "a\nb" ≠ [] ∧ (cstr "a\nb").getLast? ≠ some 10 ∧ blankLines (cstr "a\nb") = 0 ∨
      (cstr "a\nb").getLast? = some 10 ∧ blankLines (cstr "a\nb") = 1 :=
  count_lines_eq_reads_iff (cstr "a\nb") (by decide)

/-- One line that is ended: two are counted. -/
theorem count_lines_ended : ¬ ∀ text : CString, (∀ l ∈ linesOf 10 text, l.length ≤ 998) →
    countLines text = (readLines text).length := fun h =>
  absurd (h (cstr "a\n") (by decide)) (by decide)

end ShellOS.Pager
