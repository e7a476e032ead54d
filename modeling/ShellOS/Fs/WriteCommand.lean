import ShellOS.Fs.Requests
import ShellOS.Fs.OneFile

/-! The `write` command of the shell: the words become one text with two terminators, and a second
`write` goes on where the text of the first ended. -/
namespace ShellOS.Fs
open CLib SlotTable BlockTree

/-! ### The buffer -/

/-- `strcpy(buf + i, s)`; `none` where it leaves the buffer. -/
def strcpyAt (buf : List UInt8) (i : ℕ) (s : CString) : Option (List UInt8) :=
  if i + s.length + 1 ≤ buf.length then some (buf.take i ++ s ++ 0::buf.drop (i + s.length + 1)) else none

/-- The loop over the words, each with a space behind it. -/
def joinLoop : List CString → ℕ → List UInt8 → Option (ℕ × List UInt8)
  | [],i,buf => some (i,buf)
  | w::words,i,buf => (strcpyAt buf i w).bind fun buf => (strcpyAt buf (i + w.length) [32]).bind fun buf =>
      joinLoop words (i + w.length + 1) buf

/-- `size`, where `args_size - 1` counts the words and the name of the file. -/
def wordsSize (words : List CString) : ℕ := (words.map List.length).sum + (words.length + 1)

/-- The buffer that a `write` with these words allocates and fills. -/
def writeBuffer (words : List CString) : Option (List UInt8) :=
  (joinLoop words 0 (List.replicate (wordsSize words) 0)).bind fun r =>
    if r.1 - 1 < r.2.length then some (r.2.set (r.1 - 1) 0) else none

/-- The words of a `write`: one at least, and their length is an `int`. -/
structure WordList (words : List CString) : Prop where
  ne_nil : words ≠ []
  no_nul : ∀ w ∈ words, (0 : UInt8) ∉ w
  size_lt : (wordsSize words : ℤ) < 2147483648

/-- `write` with the given words: the bytes written. -/
def System.writeCommand (name : CString) (words : List CString) (S : System) : Option (ℤ × System) :=
  (writeBuffer words).bind fun buf => S.fsutilWrite name buf (wordsSize words)

/-- One `write` after the other, up to the first that cannot write all its bytes. -/
def System.writeAll (name : CString) : List (List CString) → System → Option (Bool × System)
  | [],S => some (true,S)
  | words::rest,S => (S.writeCommand name words).bind fun r =>
      if r.1 = wordsSize words then System.writeAll name rest r.2 else some (false,r.2)

/-- The position of a file; one that is not in the table is opened at its start. -/
def System.position (S : System) (name : CString) : ℤ := ((S.getFileByFname name).map File.pos).getD 0

theorem strcpyAt_zeros (text : List UInt8) {n : ℕ} {s : CString} (h : s.length + 1 ≤ n) :
    strcpyAt (text ++ List.replicate n 0) text.length s = some (text ++ s ++ List.replicate (n - s.length) 0) := by
  have hfit : text.length + s.length + 1 ≤ (text ++ List.replicate n (0 : UInt8)).length := by
    rw [List.length_append,List.length_replicate]
    omega
  have hdrop : (text ++ List.replicate n (0 : UInt8)).drop (text.length + s.length + 1) = List.replicate (n - s.length - 1) 0 := by
    rw [Nat.add_assoc,← List.drop_drop,List.drop_left,List.drop_replicate,Nat.sub_sub]
  have hn : n - s.length = (n - s.length - 1) + 1 := by omega
  rw [strcpyAt,if_pos hfit,List.take_left,hdrop,hn,List.replicate_succ,Nat.add_sub_cancel]

theorem joinLoop_eq (words : List CString) : ∀ (text : List UInt8) (n : ℕ),
    (words.map List.length).sum + words.length < n →
    joinLoop words text.length (text ++ List.replicate n 0) =
      some (text.length + ((words.map List.length).sum + words.length),
        text ++ words.flatMap (· ++ [32]) ++ List.replicate (n - ((words.map List.length).sum + words.length)) 0) := by
  induction words with
  | nil => exact fun text n _ => by simp [joinLoop]
  | cons w words ih =>
    intro text n hn
    rw [List.map_cons,List.sum_cons,List.length_cons] at hn ⊢
    have hspace := strcpyAt_zeros (text ++ w) (n := n - w.length) (s := [32]) (by rw [List.length_singleton]; omega)
    have hih := ih (text ++ w ++ [32]) (n - w.length - 1) (by omega)
    have hlen : (text ++ w ++ [32]).length = text.length + w.length + 1 := by simp [Nat.add_assoc]
    rw [List.length_append,List.length_singleton] at hspace
    rw [hlen] at hih
    rw [joinLoop,strcpyAt_zeros text (by omega),Option.bind_some,hspace,Option.bind_some,hih]
    congr 2
    · omega
    · rw [List.flatMap_cons]
      simp only [List.append_assoc]
      congr 5
      omega

theorem joined_words {words : List CString} (h : words ≠ []) : words.flatMap (· ++ [32]) = joinTokens 32 words ++ [32] := by
  induction words with
  | nil => exact absurd rfl h
  | cons w words ih =>
    cases words with
    | nil => simp [joinTokens,List.intercalate]
    | cons x rest =>
      rw [List.flatMap_cons,ih (List.cons_ne_nil x rest),joinTokens_cons w (List.cons_ne_nil x rest)]
      simp

theorem length_joined {words : List CString} (h : words ≠ []) : (joinTokens 32 words).length + 2 = wordsSize words := by
  have hlen := congrArg List.length (joined_words h)
  have hsum : (words.flatMap (· ++ [(32 : UInt8)])).length = (words.map List.length).sum + words.length := by
    induction words with
    | nil => rfl
    | cons w words ih =>
      cases words with
      | nil => simp
      | cons x rest =>
        have hih := ih (List.cons_ne_nil x rest) (congrArg List.length (joined_words (List.cons_ne_nil x rest)))
        rw [List.flatMap_cons,List.length_append,hih]
        simp
        omega
  rw [hsum,List.length_append,List.length_singleton] at hlen
  rw [wordsSize]
  omega

/-- The text with two terminators fills the buffer. -/
theorem writeBuffer_eq {words : List CString} (h : words ≠ []) : writeBuffer words = some (joinTokens 32 words ++ [0,0]) := by
  have hlen := length_joined h
  have hloop := joinLoop_eq words [] (wordsSize words) (by rw [wordsSize]; omega)
  rw [List.nil_append,List.nil_append,List.length_nil,Nat.zero_add,joined_words h] at hloop
  have hrest : wordsSize words - ((words.map List.length).sum + words.length) = 1 := by
    rw [wordsSize]
    omega
  have hpos : (words.map List.length).sum + words.length - 1 = (joinTokens 32 words).length := by
    rw [wordsSize] at hlen
    omega
  rw [hrest] at hloop
  rw [writeBuffer,hloop,Option.bind_some]
  dsimp only
  rw [hpos,List.append_assoc,if_pos (by simp),List.set_append_right _ _ (le_refl _),Nat.sub_self]
  rfl

/-! ### One command -/

/-- A second text goes over the terminators of the first. -/
theorem overwrite_overwrite (b t u : List UInt8) (p : ℕ) :
    overwrite (overwrite b p (t ++ [0,0])) (p + t.length) (u ++ [0,0]) = overwrite b p (t ++ u ++ [0,0]) := by
  have hl : (overwrite (overwrite b p (t ++ [0,0])) (p + t.length) (u ++ [0,0])).length =
      (overwrite b p (t ++ u ++ [0,0])).length := by
    simp only [length_overwrite,List.length_append,List.length_cons,List.length_nil]
    omega
  refine List.ext_getElem hl fun k h1 h2 => ?_
  rw [← List.getD_eq_getElem _ 0,← List.getD_eq_getElem _ 0]
  rw [length_overwrite] at h1 h2
  rw [getD_overwrite h1,getD_overwrite h2]
  have hu : (u ++ [(0 : UInt8),0]).length = u.length + 2 := List.length_append
  have ht : (t ++ [(0 : UInt8),0]).length = t.length + 2 := List.length_append
  have htu : (t ++ u ++ [(0 : UInt8),0]).length = t.length + u.length + 2 := by rw [List.length_append,List.length_append]; rfl
  rw [length_overwrite,hu,ht] at h1
  rw [htu] at h2
  rw [hu,htu]
  by_cases hk : p + t.length ≤ k
  · -- the second text, and what lies behind both
    by_cases hin : k < p + t.length + (u.length + 2)
    · rw [if_pos ⟨hk,hin⟩,if_pos (by omega),List.append_assoc,List.getD_append_right t (u ++ [0,0]) 0 (k - p) (by omega),Nat.sub_sub]
    · have hold : k < max b.length (p + (t ++ [(0 : UInt8),0]).length) := by omega
      rw [if_neg (by omega),getD_overwrite hold,ht,if_neg (by omega),if_neg (by omega)]
  · have hold : k < max b.length (p + (t ++ [(0 : UInt8),0]).length) := by omega
    rw [if_neg (by omega),getD_overwrite hold,ht]
    by_cases hp : p ≤ k
    · rw [if_pos (by omega),if_pos (by omega),List.append_assoc,List.getD_append _ _ _ _ (by omega),
        List.getD_append _ _ _ _ (by omega)]
    · rw [if_neg (by omega),if_neg (by omega)]

section
variable {S S' : System} {live : Set BlockSector} {root : Option Dir} {name : CString} {words : List CString} {b : List UInt8}

theorem System.terminated_text (text : List UInt8) : System.terminated (text ++ [0,0]) (text.length + 2 : ℕ) = text ++ [0,0] := by
  rw [System.terminated,if_pos (by omega)]
  have hi : ((text.length + 2 : ℕ) - 1 : ℤ).toNat = text.length + 1 := by omega
  rw [hi,List.set_append_right _ _ (by omega),Nat.add_sub_cancel_left]
  rfl

theorem getFile_update {S : System} {f g : File} (hf : S.getFileByFname name = some f)
    (htab : S'.fileTable = Keyed.update FileTableEntry.fname ⟨name,g⟩ S.fileTable) : S'.getFileByFname name = some g := by
  have hset : (S.setFile name g).getFileByFname name = some g := System.getFileByFname_setFile hf
  rw [← hset,System.getFileByFname,htab,System.getFileByFname,System.setFile]

theorem fileWrite_table {S : System} {f : File} {n : ℤ} (hf : S.getFileByFname name = some f)
    (htab : S'.fileTable = Keyed.update FileTableEntry.fname ⟨name,{ f with pos := n }⟩ S.fileTable) : S'.position name = n := by
  rw [System.position,getFile_update hf htab]
  rfl

/-- One `write`: all of the text with its terminators, or nothing. -/
theorem Session.writeCommand (h : Session S live root) (hn : Ordinary name) (hw : WordList words)
    (hb : S.fileOf name = some b) (h0 : 0 ≤ S.position name) (ho : S.position name < 2147483648) :
    ∃ ok S', S.writeCommand name words = some (if ok then (wordsSize words : ℤ) else 0,S') ∧ Session S' live root ∧
      (ok = true → S'.position name = S.position name + (joinTokens 32 words).length ∧
        S.position name + wordsSize words ≤ 8517120 ∧ ∀ other, S'.fileOf other = if other = name then
          some (overwrite b (S.position name).toNat (joinTokens 32 words ++ [0,0])) else S.fileOf other) := by
  have hlen := length_joined hw.ne_nil
  rw [System.writeCommand,writeBuffer_eq hw.ne_nil,Option.bind_some,System.fsutilWrite]
  cases h.tableFile hn.plain with
  | inl hno => exact absurd (hb.symm.trans hno.1) (Option.some_ne_none b)
  | inr htab =>
    obtain ⟨f,S₁,htab,h₁,hbytes,-,hf,hor⟩ := htab
    have hpos : S.position name = f.pos := by
      rcases hor with rfl | ⟨hz,hnone,-⟩
      · rw [System.position,hf,Option.map_some,Option.getD_some]
      · rw [System.position,hnone,Option.map_none,Option.getD_none,hz]
    have hsame : ∀ other, S₁.fileOf other = S.fileOf other := fun other =>
      h.fileOf_congr (by rw [System.entries,hbytes,System.entries]) fun p _ _ => hbytes p
    rw [hpos] at h0 ho ⊢
    have hsize : (wordsSize words : ℤ) ≤ (joinTokens 32 words ++ [(0 : UInt8),0]).length := by
      rw [List.length_append,← hlen]
      simp
    obtain ⟨ok,b',S',hb',hwr,hS,hft,hof,hmax⟩ := h₁.fileWrite hf (joinTokens 32 words ++ [0,0]) h0 ho (by omega) hw.size_lt hsize
    obtain rfl : b = b' := Option.some.inj (hb.symm.trans ((hsame name).symm.trans hb'))
    rw [htab,Option.bind_some]
    refine ⟨ok,S',hwr,hS,fun hok => ?_⟩
    subst hok
    have hroom := hmax rfl
    rw [if_pos rfl] at hft
    refine ⟨?_,hroom,fun other => ?_⟩
    · rw [fileWrite_table hf hft,wrap32_of_mem (by omega) (by omega)]
      omega
    · have hterm : System.terminated (joinTokens 32 words ++ [0,0]) (wordsSize words) = joinTokens 32 words ++ [0,0] := by
        rw [← hlen]
        exact System.terminated_text _
      have htake : (joinTokens 32 words ++ [(0 : UInt8),0]).take (wordsSize words : ℤ).toNat = joinTokens 32 words ++ [0,0] := by
        refine List.take_of_length_le ?_
        rw [Int.toNat_natCast,List.length_append,← hlen]
        exact le_refl _
      rw [hof other,hsame other,if_pos rfl,hterm,htake]

/-! ### One command after the other -/

/-- The texts of the commands, one behind the other. -/
def joinedText (commands : List (List CString)) : List UInt8 := (commands.map (joinTokens 32)).flatten

theorem Session.writeAll {commands : List (List CString)} (h : Session S live root) (hn : Ordinary name)
    (hw : ∀ words ∈ commands, WordList words) (hb : S.fileOf name = some b) (h0 : 0 ≤ S.position name)
    (ho : S.position name < 2147483648) (hne : commands ≠ []) :
    ∃ ok S', S.writeAll name commands = some (ok,S') ∧ Session S' live root ∧
      (ok = true → S'.position name = S.position name + (joinedText commands).length ∧
        ∀ other, S'.fileOf other = if other = name then
          some (overwrite b (S.position name).toNat (joinedText commands ++ [0,0])) else S.fileOf other) := by
  induction commands generalizing S b with
  | nil => exact absurd rfl hne
  | cons words rest ih =>
    obtain ⟨hwords,hrest⟩ := List.forall_mem_cons.mp hw
    obtain ⟨ok,S₁,hc,h₁,hok⟩ := h.writeCommand hn hwords hb h0 ho
    have hpos : (0 : ℤ) < wordsSize words := by
      rw [wordsSize]
      omega
    rw [System.writeAll,hc,Option.bind_some]
    cases ok with
    | false =>
      refine ⟨false,S₁,?_,h₁,fun hc => absurd hc Bool.false_ne_true⟩
      rw [if_neg Bool.false_ne_true]
      exact if_neg (by omega)
    | true =>
      obtain ⟨hp,hmax,hof⟩ := hok rfl
      have hlen := length_joined hwords.ne_nil
      rw [if_pos rfl]
      dsimp only
      rw [if_pos rfl]
      cases rest with
      | nil =>
        have hone : joinedText [words] = joinTokens 32 words := List.append_nil _
        exact ⟨true,S₁,rfl,h₁,fun _ => by rw [hone]; exact ⟨hp,hof⟩⟩
      | cons x rest =>
        have hb₁ := (hof name).trans (if_pos rfl)
        obtain ⟨ok,S₂,hrun,h₂,hfin⟩ := ih h₁ hrest hb₁ (by omega) (by omega) (List.cons_ne_nil x rest)
        refine ⟨ok,S₂,hrun,h₂,fun hok => ?_⟩
        obtain ⟨hp₂,hof₂⟩ := hfin hok
        have htext : joinedText (words::x::rest) = joinTokens 32 words ++ joinedText (x::rest) := List.flatten_cons
        have hnat : (S₁.position name).toNat = (S.position name).toNat + (joinTokens 32 words).length := by omega
        refine ⟨?_,fun other => ?_⟩
        · rw [htext,List.length_append]
          omega
        · rw [hof₂ other,htext,hof other,hnat,overwrite_overwrite]
          split
          · rfl
          · rfl

theorem getElem?_overwrite_of_ge {a bytes : List UInt8} {offset k : ℕ} (h : offset + bytes.length ≤ k) :
    (overwrite a offset bytes)[k]? = a[k]? := by
  by_cases hk : k < a.length
  · have hlt : k < max a.length (offset + bytes.length) := lt_max_of_lt_left hk
    have hget := @getD_overwrite a bytes offset k hlt
    rw [if_neg (by omega)] at hget
    have hlt' : k < (overwrite a offset bytes).length := by rwa [length_overwrite]
    rw [List.getElem?_eq_getElem hlt',List.getElem?_eq_getElem hk,← List.getD_eq_getElem _ 0 hlt',hget,List.getD_eq_getElem _ 0 hk]
  · rw [List.getElem?_eq_none (by rw [length_overwrite]; omega),List.getElem?_eq_none (by omega)]

theorem take_drop_overwrite (a bytes : List UInt8) (offset : ℕ) :
    ((overwrite a offset bytes).drop offset).take bytes.length = bytes := by
  have hlen : (overwrite a offset bytes).length = max a.length (offset + bytes.length) := length_overwrite _ _ _
  refine List.ext_getElem (by rw [List.length_take,List.length_drop,hlen]; omega) fun k h1 h2 => ?_
  have hlt : offset + k < max a.length (offset + bytes.length) := by omega
  have hget := @getD_overwrite a bytes offset (offset + k) hlt
  rw [if_pos ⟨Nat.le_add_right _ _,by omega⟩,Nat.add_sub_cancel_left,List.getD_eq_getElem _ 0 h2,
    List.getD_eq_getElem _ 0 (by omega)] at hget
  rw [List.getElem_take,List.getElem_drop]
  exact hget

/-- Several `write` commands make one text with two terminators behind it, from the position on. -/
theorem writes_concatenate {commands : List (List CString)} (h : Session S live root) (hn : Ordinary name)
    (hw : ∀ words ∈ commands, WordList words) (hb : S.fileOf name = some b) (h0 : 0 ≤ S.position name)
    (ho : S.position name < 2147483648) (hne : commands ≠ []) :
    (∀ words ∈ commands, writeBuffer words = some (joinTokens 32 words ++ [0,0])) ∧
    ∃ ok S', S.writeAll name commands = some (ok,S') ∧ (ok = true →
      S'.position name = S.position name + (joinedText commands).length ∧
      (∃ b', S'.fileOf name = some b' ∧
        (b'.drop (S.position name).toNat).take ((joinedText commands).length + 2) = joinedText commands ++ [0,0] ∧
        (∀ k < (S.position name).toNat, b'.getD k 0 = b.getD k 0) ∧
        ∀ k, (S.position name).toNat + (joinedText commands).length + 2 ≤ k → b'[k]? = b[k]?) ∧
      ∀ other, other ≠ name → S'.fileOf other = S.fileOf other) := by
  obtain ⟨ok,S',hrun,-,hok⟩ := h.writeAll hn hw hb h0 ho hne
  refine ⟨fun words hm => writeBuffer_eq (hw words hm).ne_nil,ok,S',hrun,fun he => ?_⟩
  obtain ⟨hpos,hof⟩ := hok he
  have hlen : (joinedText commands ++ [(0 : UInt8),0]).length = (joinedText commands).length + 2 := List.length_append
  refine ⟨hpos,⟨_,(hof name).trans (if_pos rfl),?_,fun k hk => ?_,fun k hk => ?_⟩,fun other hother => (hof other).trans (if_neg hother)⟩
  · rw [← hlen]
    exact take_drop_overwrite _ _ _
  · rw [getD_overwrite (by omega),if_neg (by omega)]
  · exact getElem?_overwrite_of_ge (by omega)

theorem oneFileDisk_writeAll : ∃ S', (oneFileDisk (cstr "a") []).writeAll (cstr "a") [[cstr "x",cstr "y"],[cstr "z"]] = some (true,S') := by
  have h : ((oneFileDisk (cstr "a") []).writeAll (cstr "a") [[cstr "x",cstr "y"],[cstr "z"]]).map Prod.fst = some true := by
    decide +kernel
  obtain ⟨r,hr,he⟩ := Option.map_eq_some_iff.mp h
  exact ⟨r.2,hr.trans (congrArg some (Prod.ext he rfl))⟩

/-- `x y` and then `z` into an empty file. -/
theorem writes_concatenate_two : ∃ S', (oneFileDisk (cstr "a") []).writeAll (cstr "a") [[cstr "x",cstr "y"],[cstr "z"]] = some (true,S') ∧
    S'.position (cstr "a") = 4 ∧ ∃ c, S'.fileOf (cstr "a") = some c ∧ c.take 6 = [120,32,121,122,0,0] := by
  have hwords : ∀ words ∈ [[cstr "x",cstr "y"],[cstr "z"]], WordList words := by
    intro words hm
    rcases List.mem_cons.mp hm with rfl | hm
    · exact ⟨by decide,by decide,by decide⟩
    · obtain rfl := List.mem_singleton.mp hm
      exact ⟨by decide,by decide,by decide⟩
  have hfile : (oneFileDisk (cstr "a") []).fileOf (cstr "a") = some [] := (oneFileDisk_fileOf ordinary_a (by decide)).trans (if_pos rfl)
  have hpos : (oneFileDisk (cstr "a") []).position (cstr "a") = 0 := rfl
  obtain ⟨-,ok,S',hrun,hok⟩ := writes_concatenate (oneFileDisk_session ordinary_a (Nat.zero_le _)) ordinary_a hwords hfile
    (le_of_eq hpos.symm) (by rw [hpos]; decide) (by decide)
  obtain ⟨S'',hrun'⟩ := oneFileDisk_writeAll
  obtain ⟨rfl,rfl⟩ := Prod.mk.inj (Option.some.inj (hrun.symm.trans hrun'))
  obtain ⟨hp,⟨c,hc,htext,-⟩,-⟩ := hok rfl
  rw [hpos] at hp htext
  exact ⟨S',hrun,hp,c,hc,htext⟩

end
end ShellOS.Fs
