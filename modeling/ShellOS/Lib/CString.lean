import Mathlib

/-! C strings and the tokenizer of the C library. -/
namespace CLib

/-- The bytes of a C string before its terminator. -/
abbrev CString := List UInt8

instance : LawfulBEq CString := inferInstance

/-- The bytes of a literal. -/
def cstr (s : String) : CString := s.toList.map fun c => UInt8.ofNat c.toNat

/-- `strtok` and `strtok_r` with a single delimiter: the token, or `none` for a null pointer, and
the cursor left behind. A null argument (`none`) goes on from the cursor. -/
def strtok (delim : UInt8) (s : Option CString) (cursor : CString) : Option CString × CString :=
  let s := (s.getD cursor).dropWhile (· == delim)
  if s = [] then (none,[])
  else (some (s.takeWhile (· != delim)),(s.dropWhile (· != delim)).tail)

/-- A string of tokens `c1;c2;...;cn` with its delimiters. -/
def joinTokens (delim : UInt8) (tokens : List CString) : CString := [delim].intercalate tokens

/-- What `strtok` can give back one after the other. -/
structure Token (delim : UInt8) (c : CString) : Prop where
  ne_nil : c ≠ []
  no_delim : delim ∉ c

variable {delim : UInt8}

theorem joinTokens_cons (c : CString) {cs : List CString} (h : cs ≠ []) :
    joinTokens delim (c::cs) = c ++ delim::joinTokens delim cs := by
  cases cs with
  | nil => exact absurd rfl h
  | cons d ds => simp [joinTokens,List.intercalate]

theorem joinTokens_ne_nil {c : CString} (cs : List CString) (h : c ≠ []) : joinTokens delim (c::cs) ≠ [] := by
  cases cs with
  | nil => simpa [joinTokens,List.intercalate] using h
  | cons d ds => simp [joinTokens_cons]

theorem Token.dropWhile_append {c : CString} (h : Token delim c) (rest : CString) :
    (c ++ rest).dropWhile (· == delim) = c ++ rest := by
  obtain ⟨hne,hd⟩ := h
  cases c with
  | nil => exact absurd rfl hne
  | cons a as =>
    have ha : a ≠ delim := fun he => hd (by simp [he])
    simp [ha]

theorem takeWhile_token {c : CString} (h : delim ∉ c) (rest : CString) :
    (c ++ delim::rest).takeWhile (· != delim) = c ∧ (c ++ delim::rest).dropWhile (· != delim) = delim::rest := by
  induction c with
  | nil => simp
  | cons a as ih =>
    have ha : a ≠ delim := fun he => h (by simp [he])
    have hs := ih fun hm => h (by simp [hm])
    simp [ha,hs.1,hs.2]

theorem takeWhile_last {c : CString} (h : delim ∉ c) :
    c.takeWhile (· != delim) = c ∧ c.dropWhile (· != delim) = [] := by
  induction c with
  | nil => simp
  | cons a as ih =>
    have ha : a ≠ delim := fun he => h (by simp [he])
    have hs := ih fun hm => h (by simp [hm])
    simp [ha,hs.1,hs.2]

@[simp] theorem strtok_nil (cursor : CString) : strtok delim (some []) cursor = (none,[]) := rfl

/-- At the end of the string `strtok` gives a null pointer, and stays there. -/
@[simp] theorem strtok_end : strtok delim none [] = (none,[]) := rfl

/-- The first token of a chain. -/
theorem strtok_joinTokens {c : CString} (h : Token delim c) (cs : List CString) (cursor : CString) :
    strtok delim (some (joinTokens delim (c::cs))) cursor = (some c,joinTokens delim cs) := by
  cases cs with
  | nil =>
    have hj : joinTokens delim [c] = c := by simp [joinTokens,List.intercalate]
    have hd := h.dropWhile_append []
    have ht := takeWhile_last h.no_delim
    simp only [List.append_nil] at hd
    simp only [strtok,Option.getD_some,hj,hd,if_neg h.ne_nil,ht.1,ht.2]
    rfl
  | cons d ds =>
    have hj := @joinTokens_cons delim c _ (List.cons_ne_nil d ds)
    have ht := takeWhile_token h.no_delim (joinTokens delim (d::ds))
    have hne : c ++ delim::joinTokens delim (d::ds) ≠ [] := by simp
    simp only [strtok,Option.getD_some,hj,h.dropWhile_append,if_neg hne,ht.1,ht.2,List.tail_cons]

/-- A call with a null pointer reads the cursor. -/
theorem strtok_cursor (s : CString) : strtok delim none s = strtok delim (some s) [] := rfl

/-- Once `strtok` has given a null pointer its cursor is at the end. -/
theorem strtok_none {s : Option CString} {cursor rest : CString} (h : strtok delim s cursor = (none,rest)) :
    rest = [] := by
  simp only [strtok] at h
  split at h
  · exact (Prod.mk.inj h).2.symm
  · simp at h

end CLib
