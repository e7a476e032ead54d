import ShellOS.Lib.MarkedSlots
import ShellOS.Pager.Machine

/-! The variables of the a3 shell: the slots of the shell memory behind the frame store. -/
namespace ShellOS.Pager
open CLib MarkedSlots

/-- The first slot of the variables with this name; `border` is `FRAME_VAR_BORDER` and `size` is
`VAR_STORE_SIZE`. -/
def findVar (border size : ℕ) (m : Memory) (var : CString) : Option ℕ :=
  (List.range' border size).find? fun i => (m i).var == var

def memSetValue (border size : ℕ) (var value : CString) (m : Memory) : Memory :=
  match findVar border size m var with
  | some i => Function.update m i ⟨(m i).var,value⟩
  | none => match findVar border size m (cstr "none") with
    | some i => Function.update m i ⟨var,value⟩
    | none => m

/-- What `mem_get_value` gives its caller, `p` for `print`, if there is no such variable. -/
def notFound (caller : Char) : CString := if caller = 'p' then cstr "Variable does not exist" else []

def memGetValue (border size : ℕ) (var : CString) (caller : Char) (m : Memory) : CString :=
  match findVar border size m var with
  | some i => (m i).value
  | none => notFound caller

def resetVarZone (border size : ℕ) (m : Memory) : Memory :=
  (List.range' border size).foldl (fun m i => memFreeAt i m) m

/-- The operations of the shell on its variables. -/
def applyVar (border size : ℕ) (m : Memory) : Op CString CString → Memory
  | .set var value => memSetValue border size var value m
  | .get _ => m
  | .reset => resetVarZone border size m

/-- Slots in a row as a map with free slots marked. -/
def varLayout (border size : ℕ) : Layout Cell CString CString where
  slots := List.range' border size
  nodup := List.nodup_range'
  key := Cell.var
  value := Cell.value
  cell := Cell.mk
  marker := cstr "none"
  empty := emptyCell
  key_cell _ _ := rfl
  value_cell _ _ := rfl
  key_empty := rfl

variable {border size : ℕ} {m : Memory}

theorem findVar_eq (var : CString) : findVar border size m var = (varLayout border size).find m var := by
  refine congrArg (List.find? · _) (funext fun i => ?_)
  exact Bool.eq_iff_iff.mpr (by rw [beq_iff_eq,decide_eq_true_iff]; rfl)

theorem memSetValue_eq (var value : CString) (m : Memory) :
    memSetValue border size var value m = (varLayout border size).set var value m := by
  rw [memSetValue,Layout.set,findVar_eq,findVar_eq]
  cases hf : (varLayout border size).find m var with
  | none => rfl
  | some i =>
    have hkey : (m i).var = var := (Layout.mem_of_find hf).2
    change Function.update m i ⟨(m i).var,value⟩ = Function.update m i ⟨var,value⟩
    rw [hkey]

theorem memFreeAt_foldl (slots : List ℕ) (m : Memory) :
    slots.foldl (fun m i => memFreeAt i m) m = fun i => if i ∈ slots then emptyCell else m i := by
  induction slots generalizing m with
  | nil => simp
  | cons a slots ih =>
    rw [List.foldl_cons,ih]
    funext i
    by_cases hi : i ∈ slots
    · simp [hi]
    · by_cases ha : i = a <;> simp [memFreeAt,hi,ha]

theorem resetVarZone_eq (m : Memory) : resetVarZone border size m = (varLayout border size).reset m :=
  memFreeAt_foldl _ m

theorem applyVar_eq : applyVar border size = (varLayout border size).apply := by
  funext m op
  cases op with
  | set var value => exact memSetValue_eq var value m
  | get _ => rfl
  | reset => exact resetVarZone_eq m

theorem memGetValue_eq (var : CString) (caller : Char) :
    memGetValue border size var caller m = ((varLayout border size).get m var).getD (notFound caller) := by
  rw [memGetValue,findVar_eq,Layout.get]
  cases (varLayout border size).find m var <;> rfl

/-- What the a3 shell reads after any operations on variables since a reset. -/
theorem memGetValue_run (ops : List (Op CString CString)) (m : Memory) (hfits : Fits size ops) {var : CString}
    (hvar : var ≠ cstr "none") (caller : Char) :
    memGetValue border size var caller (ops.foldl (applyVar border size) (resetVarZone border size m)) =
      (latest ops var).getD (notFound caller) := by
  have hlength : (varLayout border size).slots.length = size := List.length_range'
  have hrun := (Layout.get_run (varLayout border size) ops m (by rwa [hlength])).2 var hvar
  rw [memGetValue_eq,applyVar_eq,resetVarZone_eq]
  exact congrArg (Option.getD · (notFound caller)) hrun

end ShellOS.Pager
