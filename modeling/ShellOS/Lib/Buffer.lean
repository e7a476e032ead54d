import ShellOS.Lib.CString

/-! Character arrays of a fixed size, into which strings are put with their terminator. -/
namespace CLib

/-- A string in an array of so many bytes. -/
structure Buffer (size : ℕ) where
  text : CString
  fits : text.length < size

namespace Buffer
variable {size : ℕ}

/-- `strcat`, `none` where it writes past the end of the array. -/
def strcat (b : Buffer size) (s : CString) : Option (Buffer size) :=
  if h : b.text.length + s.length < size then some ⟨b.text ++ s,by rwa [List.length_append]⟩ else none

theorem text_injective : Function.Injective (text : Buffer size → CString) := by
  rintro ⟨s,hs⟩ ⟨t,ht⟩ rfl
  rfl

theorem strcat_eq_some_iff {b c : Buffer size} {s : CString} : b.strcat s = some c ↔ c.text = b.text ++ s := by
  unfold strcat
  split
  · refine ⟨fun h => by rw [← Option.some.inj h],fun h => ?_⟩
    exact congrArg some (text_injective h.symm)
  · refine iff_of_false (by simp) fun h => ?_
    have hlen := c.fits
    rw [h,List.length_append] at hlen
    contradiction

/-- Several strings one after the other: what was there in between fitted if the whole does. -/
theorem foldlM_strcat_eq_some_iff {b c : Buffer size} {parts : List CString} :
    parts.foldlM strcat b = some c ↔ c.text = b.text ++ parts.flatten := by
  induction parts generalizing b with
  | nil =>
    rw [List.foldlM_nil,List.flatten_nil,List.append_nil]
    exact ⟨fun h => by rw [← Option.some.inj h],fun h => congrArg some (text_injective h.symm)⟩
  | cons s parts ih =>
    rw [List.foldlM_cons,List.flatten_cons,← List.append_assoc]
    constructor
    · intro h
      obtain ⟨d,hd,hc⟩ := Option.bind_eq_some_iff.mp h
      rw [ih.mp hc,strcat_eq_some_iff.mp hd]
    · intro h
      have hlen : (b.text ++ s).length < size := by
        have hfits := c.fits
        rw [h,List.length_append] at hfits
        omega
      exact Option.bind_eq_some_iff.mpr ⟨⟨b.text ++ s,hlen⟩,strcat_eq_some_iff.mpr rfl,ih.mpr h⟩

/-- Room for the string is all that is needed. -/
theorem exists_text (size : ℕ) (s : CString) : (∃ b : Buffer size, b.text = s) ↔ s.length < size :=
  ⟨fun ⟨b,h⟩ => h ▸ b.fits,fun h => ⟨⟨s,h⟩,rfl⟩⟩

end Buffer

/-- An array of so many pointers to strings, filled from the front. -/
structure Slots (size : ℕ) where
  list : List CString
  fits : list.length ≤ size

namespace Slots
variable {size : ℕ}

/-- A string is put into the next slot, `none` where that is past the end of the array. -/
def push (a : Slots size) (s : CString) : Option (Slots size) :=
  if h : a.list.length < size then some ⟨a.list ++ [s],by rw [List.length_append]; exact h⟩ else none

theorem list_injective : Function.Injective (list : Slots size → List CString) := by
  rintro ⟨s,hs⟩ ⟨t,ht⟩ rfl
  rfl

theorem push_eq_some_iff {a b : Slots size} {s : CString} : a.push s = some b ↔ b.list = a.list ++ [s] := by
  unfold push
  split
  · refine ⟨fun h => by rw [← Option.some.inj h],fun h => ?_⟩
    exact congrArg some (list_injective h.symm)
  · refine iff_of_false (by simp) fun h => ?_
    have hlen := b.fits
    rw [h,List.length_append,List.length_singleton] at hlen
    contradiction

theorem exists_list (size : ℕ) (l : List CString) : (∃ a : Slots size, a.list = l) ↔ l.length ≤ size :=
  ⟨fun ⟨a,h⟩ => h ▸ a.fits,fun h => ⟨⟨l,h⟩,rfl⟩⟩

end Slots
end CLib
