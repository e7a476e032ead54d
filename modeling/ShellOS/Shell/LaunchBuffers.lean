import ShellOS.Lib.Buffer
import ShellOS.Shell.Backing

/-! The strings that both shells put together in fixed arrays when a script is started. -/
namespace ShellOS.Shell
open CLib

/-- `cmd` and `new_name` as `run` and `exec` of the a3 shell build them; `count` is `new_name_count`. -/
def cpCommand (count : ℕ) (script : CString) : Option (Buffer 100 × Buffer 100) := do
  let oldName ← (⟨[],by decide⟩ : Buffer 100).strcat script
  let cmd ← (⟨cstr "cp ./",by decide⟩ : Buffer 100).strcat script
  let cmd ← cmd.strcat (cstr " ")
  let oldName ← (List.replicate count (cstr "a")).foldlM Buffer.strcat oldName
  let newName ← (⟨cstr "./backing_store/",by decide⟩ : Buffer 100).strcat oldName.text
  let cmd ← cmd.strcat newName.text
  pure (cmd,newName)

/-- `pid`, as `process_initialize` of the a2 shell prints it. -/
def pidString (count : ℕ) (_script : CString) : Option (Buffer 3) := (⟨[],by decide⟩ : Buffer 3).strcat (decimal count)

/-- The counter after a session in which each started script builds its strings, `none` once one of
them does not fit. As in `prepare`, a script that does not exist counts where `always` holds. -/
def launches {β : Type} (build : ℕ → CString → Option β) (always : Bool) : List Event → ℕ → Option ℕ
  | [],count => some count
  | .launch l::evs,count =>
    if l.contents = none ∧ always = false then launches build always evs count
    else (build count l.script).bind fun _ => launches build always evs (count + 1)
  | .clean::evs,count => launches build always evs count

theorem cpCommand_eq_some_iff {count : ℕ} {script : CString} {cmd newName : Buffer 100} :
    cpCommand count script = some (cmd,newName) ↔
      newName.text = cstr "./backing_store/" ++ (script ++ List.replicate count 97) ∧
      cmd.text = cstr "cp ./" ++ script ++ cstr " " ++ newName.text := by
  have hletters : (List.replicate count (cstr "a")).flatten = List.replicate count 97 := List.flatten_replicate_singleton
  simp only [cpCommand,Option.bind_eq_bind,Option.bind_eq_some_iff,Buffer.strcat_eq_some_iff,
    Buffer.foldlM_strcat_eq_some_iff,hletters,Option.pure_def,Option.some.injEq,Prod.mk.injEq]
  constructor
  · rintro ⟨old,hold,c,hc,c',hc',old',hold',new,hnew,c'',hc'',rfl,rfl⟩
    rw [hold,List.nil_append] at hold'
    rw [hold'] at hnew
    rw [hc] at hc'
    rw [hc'] at hc''
    exact ⟨hnew,hc''⟩
  · rintro ⟨hnew,hcmd⟩
    have hlen := cmd.fits
    rw [hcmd] at hlen
    simp only [List.length_append,hnew,List.length_replicate] at hlen
    obtain ⟨old,hold⟩ := (Buffer.exists_text 100 script).mpr (by omega)
    obtain ⟨c,hc⟩ := (Buffer.exists_text 100 (cstr "cp ./" ++ script)).mpr (by rw [List.length_append]; omega)
    obtain ⟨c',hc'⟩ := (Buffer.exists_text 100 (cstr "cp ./" ++ script ++ cstr " ")).mpr
      (by rw [List.length_append,List.length_append]; omega)
    obtain ⟨old',hold'⟩ := (Buffer.exists_text 100 (script ++ List.replicate count 97)).mpr
      (by rw [List.length_append,List.length_replicate]; omega)
    refine ⟨old,hold,c,hc,c',hc'.trans (by rw [hc]),old',hold'.trans (by rw [hold]),newName,?_,cmd,?_,rfl,rfl⟩
    · rw [hnew,hold']
    · rw [hcmd,hc']

/-- The command is the longest of the strings: it has the script's name twice. -/
theorem cpCommand_isSome_iff (count : ℕ) (script : CString) :
    (cpCommand count script).isSome ↔ 2 * script.length + count ≤ 77 := by
  have hcp : (cstr "cp ./").length = 5 := rfl
  have hspace : (cstr " ").length = 1 := rfl
  have hdir : (cstr "./backing_store/").length = 16 := rfl
  rw [Option.isSome_iff_exists,Prod.exists]
  simp only [cpCommand_eq_some_iff]
  constructor
  · rintro ⟨cmd,newName,hnew,hcmd⟩
    have hlen := cmd.fits
    rw [hcmd] at hlen
    simp only [List.length_append,hnew,List.length_replicate] at hlen
    omega
  · intro hle
    obtain ⟨newName,hnew⟩ := (Buffer.exists_text 100 (cstr "./backing_store/" ++ (script ++ List.replicate count 97))).mpr
      (by simp only [List.length_append,List.length_replicate]; omega)
    obtain ⟨cmd,hcmd⟩ := (Buffer.exists_text 100 (cstr "cp ./" ++ script ++ cstr " " ++ newName.text)).mpr
      (by simp only [List.length_append,hnew,List.length_replicate]; omega)
    exact ⟨cmd,newName,hnew,hcmd⟩

theorem decimal_length_le_iff {n : ℕ} (hn : 0 < n) : (decimal n).length < 3 ↔ n ≤ 99 := by
  have hdigits : (Nat.digits 10 n).length < 3 ↔ n < 10 ^ 2 := by
    rw [Nat.lt_succ_iff]
    exact Nat.digits_length_le_iff (by omega) n
  unfold decimal
  rw [if_neg hn.ne',List.length_map,List.length_reverse,hdigits]
  omega

theorem pidString_isSome_iff {count : ℕ} (hcount : 0 < count) (script : CString) :
    (pidString count script).isSome ↔ count ≤ 99 := by
  rw [← decimal_length_le_iff hcount,pidString,Buffer.strcat]
  simp

section
variable {β : Type} {build : ℕ → CString → Option β} {always : Bool}

/-- The counter is that of the names. -/
theorem launches_counter {k : Copying} (home : List CString) (host : ℕ → Host) (evs : List Event) (st : Store) {count : ℕ}
    (h : launches build k.always evs st.counter = some count) :
    count = (session home (k.prepare host) evs st).counter := by
  induction evs generalizing st with
  | nil => exact (Option.some.inj h).symm
  | cons ev evs ih =>
    cases ev with
    | clean => exact ih (Event.apply home (k.prepare host) st .clean) h
    | launch l =>
      by_cases hskip : k.Skips l
      · rw [launches,if_pos (show l.contents = none ∧ k.always = false from hskip)] at h
        have hstep : Event.apply home (k.prepare host) st (.launch l) = st := by
          rw [Event.apply,Copying.prepare,if_pos hskip]
        rw [session,List.foldl_cons,hstep]
        exact ih st h
      · rw [launches,if_neg (show ¬ (l.contents = none ∧ k.always = false) from hskip)] at h
        obtain ⟨_,_,h⟩ := Option.bind_eq_some_iff.mp h
        have hstep : (Event.apply home (k.prepare host) st (.launch l)).counter = st.counter + 1 := prepare_counter hskip st
        rw [← hstep] at h
        exact ih _ h

/-- A session goes through if each of the scripts it starts does. -/
theorem launches_isSome_iff (evs : List Event) (count : ℕ) : (launches build always evs count).isSome ↔
    ∀ i s, (launched always evs)[i]? = some s → (build (count + i) s).isSome := by
  induction evs generalizing count with
  | nil => simp [launches,launched]
  | cons ev evs ih =>
    cases ev with
    | clean => exact ih count
    | launch l =>
      by_cases hskip : l.contents = none ∧ always = false
      · rw [launches,if_pos hskip,launched,if_pos hskip,List.nil_append]
        exact ih count
      · rw [launches,if_neg hskip,launched,if_neg hskip,List.singleton_append]
        constructor
        · intro h i s hs
          cases hb : build count l.script with
          | none => simp [hb] at h
          | some b =>
            cases i with
            | zero =>
              obtain rfl := Option.some.inj hs
              simp [hb]
            | succ i =>
              rw [hb,Option.bind_some] at h
              have hrest := (ih (count + 1)).mp h i s hs
              rwa [show count + (i + 1) = count + 1 + i by omega]
        · intro h
          obtain ⟨b,hb⟩ := Option.isSome_iff_exists.mp (h 0 l.script rfl)
          rw [Nat.add_zero] at hb
          rw [hb,Option.bind_some]
          refine (ih (count + 1)).mpr fun i s hs => ?_
          have hnext := h (i + 1) s hs
          rwa [show count + (i + 1) = count + 1 + i by omega] at hnext

end

theorem launches_cpCommand_iff (evs : List Event) : (launches cpCommand true evs 1).isSome ↔
    ∀ i s, (launched true evs)[i]? = some s → 2 * s.length + (i + 1) ≤ 77 := by
  rw [launches_isSome_iff]
  refine forall₃_congr fun i s _ => ?_
  rw [cpCommand_isSome_iff]
  omega

theorem launches_pidString_iff (evs : List Event) :
    (launches pidString false evs 1).isSome ↔ (launched false evs).length ≤ 99 := by
  rw [launches_isSome_iff]
  constructor
  · intro h
    by_contra hlong
    have hlt : 99 < (launched false evs).length := by omega
    have hfits := (pidString_isSome_iff (by omega) _).mp (h 99 _ (List.getElem?_eq_getElem hlt))
    omega
  · intro h i s hs
    have hi : i < (launched false evs).length := (List.getElem?_eq_some_iff.mp hs).1
    exact (pidString_isSome_iff (by omega) s).mpr (by omega)

/-- The strings of a session fit just when, in the a3 shell, twice the length of every name and the
number of scripts started up to it are at most 77, and when the a2 shell starts at most 99 scripts. -/
theorem launch_strings_fit_iff (evs : List Event) :
    ((launches cpCommand true evs 1).isSome ↔
      ∀ i s, (launched true evs)[i]? = some s → 2 * s.length + (i + 1) ≤ 77) ∧
    ((launches pidString false evs 1).isSome ↔ (launched false evs).length ≤ 99) :=
  ⟨launches_cpCommand_iff evs,launches_pidString_iff evs⟩

/-- A name of 39 letters does not fit at all, and no name does in the hundredth place. -/
theorem launch_strings_overflow :
    (launches cpCommand true [.launch ⟨List.replicate 39 97,none⟩] 1).isSome = false ∧
    (launches pidString false (List.replicate 100 (.launch ⟨cstr "x",some []⟩)) 1).isSome = false := by
  constructor
  · rw [← Bool.not_eq_true,launches_isSome_iff]
    intro h
    exact absurd ((cpCommand_isSome_iff _ _).mp (h 0 _ rfl)) (by decide)
  · rw [← Bool.not_eq_true,launches_isSome_iff]
    intro h
    exact absurd ((pidString_isSome_iff (by omega) _).mp (h 99 (cstr "x") rfl)) (by decide)

end ShellOS.Shell
