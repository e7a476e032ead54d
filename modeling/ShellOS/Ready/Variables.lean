import ShellOS.Pager.Variables
import ShellOS.Ready.Kernel

/-! The variables of the a2 shell, and the law that both shells' stores obey. -/
namespace ShellOS.Ready
open CLib MarkedSlots
open Pager (emptyCell)

variable {ω : Type}

namespace Kernel

def memReset (cfg : Config) (K : Kernel ω) : Kernel ω :=
  { K with mem := fun i => if i < cfg.varMemSize then emptyCell else K.mem i }

/-- The operations of the shell on its variables. -/
def applyVar (cfg : Config) (K : Kernel ω) : Op CString CString → Kernel ω
  | .set var value => K.memSetValue cfg var value
  | .get _ => K
  | .reset => K.memReset cfg

variable {cfg : Config} {K : Kernel ω}

/-- The variables of a2 lie in front. -/
theorem findVar_eq (var : CString) : K.findVar cfg var = Pager.findVar 0 cfg.varMemSize K.mem var := by
  rw [findVar,Pager.findVar,List.range_eq_range']

theorem mem_memSetValue (var value : CString) :
    (K.memSetValue cfg var value).mem = Pager.memSetValue 0 cfg.varMemSize var value K.mem := by
  rw [memSetValue,Pager.memSetValue,findVar_eq,findVar_eq]
  cases Pager.findVar 0 cfg.varMemSize K.mem var with
  | some i => rfl
  | none => cases Pager.findVar 0 cfg.varMemSize K.mem (cstr "none") <;> rfl

theorem mem_memReset : (K.memReset cfg).mem = Pager.resetVarZone 0 cfg.varMemSize K.mem := by
  rw [Pager.resetVarZone,Pager.memFreeAt_foldl]
  funext i
  simp [memReset]

theorem mem_applyVar (op : Op CString CString) :
    (K.applyVar cfg op).mem = Pager.applyVar 0 cfg.varMemSize K.mem op := by
  cases op with
  | set var value => exact mem_memSetValue var value
  | get _ => rfl
  | reset => exact mem_memReset

theorem mem_foldl (ops : List (Op CString CString)) (K : Kernel ω) :
    (ops.foldl (applyVar cfg) K).mem = ops.foldl (Pager.applyVar 0 cfg.varMemSize) K.mem := by
  induction ops generalizing K with
  | nil => rfl
  | cons op ops ih => rw [List.foldl_cons,List.foldl_cons,ih,mem_applyVar]

theorem memGetValue_eq (var : CString) :
    K.memGetValue cfg var = (Pager.varLayout 0 cfg.varMemSize).get K.mem var := by
  rw [memGetValue,findVar_eq,Pager.findVar_eq]
  rfl

/-- What the a2 shell reads after any operations on variables since a reset. -/
theorem memGetValue_run (ops : List (Op CString CString)) (K : Kernel ω) (hfits : Fits cfg.varMemSize ops) {var : CString}
    (hvar : var ≠ cstr "none") :
    (ops.foldl (applyVar cfg) (K.memReset cfg)).memGetValue cfg var = latest ops var := by
  have hlength : (Pager.varLayout 0 cfg.varMemSize).slots.length = cfg.varMemSize := List.length_range'
  have hrun := (Layout.get_run (Pager.varLayout 0 cfg.varMemSize) ops K.mem (by rwa [hlength])).2 var hvar
  rw [memGetValue_eq,mem_foldl,mem_memReset,Pager.applyVar_eq,Pager.resetVarZone_eq]
  exact hrun

end Kernel

/-- In both shells a name other than the one that marks free slots reads what it was set to last since
the last reset, whatever was set, read and reset on the way. -/
theorem variable_reads_latest (ops : List (Op CString CString)) (var : CString) (hvar : var ≠ cstr "none") :
    (∀ border size m caller, Fits size ops →
      Pager.memGetValue border size var caller
        (ops.foldl (Pager.applyVar border size) (Pager.resetVarZone border size m)) =
          (latest ops var).getD (Pager.notFound caller)) ∧
    ∀ (cfg : Config) (K : Kernel ω), Fits cfg.varMemSize ops →
      (ops.foldl (Kernel.applyVar cfg) (K.memReset cfg)).memGetValue cfg var = latest ops var :=
  ⟨fun _ _ m caller hfits => Pager.memGetValue_run ops m hfits hvar caller,
    fun _ K hfits => K.memGetValue_run ops hfits hvar⟩

theorem variable_reads_latest_x :
    let ops : List (Op CString CString) := [.set (cstr "x") (cstr "1"),.set (cstr "none") (cstr "2"),.get (cstr "x")]
    Pager.memGetValue 0 3 (cstr "x") 'p' (ops.foldl (Pager.applyVar 0 3) (Pager.resetVarZone 0 3 fun _ => emptyCell)) =
      (latest ops (cstr "x")).getD (Pager.notFound 'p') :=
  (variable_reads_latest (ω := Unit) _ (cstr "x") (by decide)).1 0 3 (fun _ => emptyCell) 'p' (fits_of_length_le (by simp))

/-- The name that marks free slots is found though it was never set, and loses the value it was set to
when another name takes the free slot. -/
theorem marker_reads_free_slot :
    let ops : List (Op CString CString) := [.set (cstr "none") (cstr "2"),.set (cstr "x") (cstr "1")]
    let m := Pager.resetVarZone 0 3 fun _ => emptyCell
    let K : Kernel Unit := (Kernel.start ()).memReset ⟨3,3⟩
    Fits 3 ops ∧ latest ops (cstr "none") = some (cstr "2") ∧
      (Pager.memGetValue 0 3 (cstr "none") 'p' m = cstr "none" ∧
        Pager.memGetValue 0 3 (cstr "none") 'p' (ops.foldl (Pager.applyVar 0 3) m) = cstr "none") ∧
      K.memGetValue ⟨3,3⟩ (cstr "none") = some (cstr "none") ∧
      (ops.foldl (Kernel.applyVar ⟨3,3⟩) K).memGetValue ⟨3,3⟩ (cstr "none") = some (cstr "none") :=
  ⟨fits_of_length_le (by simp),by decide,⟨by decide,by decide⟩,by decide,by decide⟩

end ShellOS.Ready
