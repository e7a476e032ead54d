import ShellOS.Fs.Directory
import ShellOS.Lib.SlotTable

/-! The bytes of a directory as a table of entries, and what the loops over it find. -/
namespace ShellOS.Fs
open CLib SlotTable

namespace DirEntry

theorem length_encode (e : DirEntry) : e.encode.length = 36 := by
  simp [encode]

theorem getD_encode_sector (e : DirEntry) {i : ℕ} (hi : i < 4) :
    e.encode.getD i 0 = Sector.wordByte e.inodeSector i := by
  unfold encode
  rw [List.append_assoc,List.getD_append _ _ _ _ (by simpa using hi),List.getD_eq_getElem _ _ (by simpa using hi)]
  simp

theorem getD_encode_name (e : DirEntry) (i : Fin 31) : e.encode.getD (4 + i) 0 = e.name[i] := by
  unfold encode
  rw [List.append_assoc,List.getD_append_right _ _ _ _ (by simp),List.getD_append _ _ _ _ (by simp)]
  simp

theorem getD_encode_inUse (e : DirEntry) : e.encode.getD 35 0 = if e.inUse then 1 else 0 := by
  unfold encode
  rw [List.getD_append_right _ _ _ _ (by simp)]
  simp

theorem decode_encode (e : DirEntry) : decode e.encode = e := by
  obtain ⟨s,name,used⟩ := e
  have hs : Sector.packWord (fun i => (encode ⟨s,name,used⟩).getD i 0) = s := by
    refine Eq.trans ?_ (Sector.packWord_wordByte s)
    simp only [Sector.packWord,getD_encode_sector _ (show 0 < 4 by decide),getD_encode_sector _ (show 1 < 4 by decide),
      getD_encode_sector _ (show 2 < 4 by decide),getD_encode_sector _ (show 3 < 4 by decide)]
  have hn : (Vector.ofFn fun i : Fin 31 => (encode ⟨s,name,used⟩).getD (4 + i) 0) = name := by
    apply Vector.ext
    intro i hi
    rw [Vector.getElem_ofFn]
    exact getD_encode_name ⟨s,name,used⟩ ⟨i,hi⟩
  have hu : ((encode ⟨s,name,used⟩).getD 35 0 != 0) = used := by
    rw [getD_encode_inUse]
    cases used <;> rfl
  rw [decode,hs,hn,hu]

/-- An entry is made of its 36 bytes. -/
theorem decode_congr {a b : List UInt8} (h : ∀ i < 36, a.getD i 0 = b.getD i 0) : decode a = decode b := by
  have hn : (Vector.ofFn fun i : Fin 31 => a.getD (4 + i) 0) = Vector.ofFn fun i : Fin 31 => b.getD (4 + i) 0 :=
    congrArg Vector.ofFn (funext fun i => h _ (by omega))
  unfold decode
  rw [hn,h 35 (by decide)]
  simp only [Sector.packWord,h 0 (by decide),h 1 (by decide),h 2 (by decide),h 3 (by decide)]

theorem decode_take (b : List UInt8) : decode (b.take 36) = decode b := by
  refine decode_congr fun i hi => ?_
  rw [List.getD_eq_getElem?_getD,List.getD_eq_getElem?_getD,List.getElem?_take_of_lt hi]

end DirEntry

/-- The entries stored in the bytes of a directory. -/
def slots (b : List UInt8) : List DirEntry :=
  (List.range (b.length / 36)).map fun k => DirEntry.decode (b.drop (36 * k))

theorem length_slots (b : List UInt8) : (slots b).length = b.length / 36 := by
  rw [slots,List.length_map,List.length_range]

theorem getElem?_slots (b : List UInt8) (k : ℕ) :
    (slots b)[k]? = if 36 * k + 36 ≤ b.length then some (DirEntry.decode (b.drop (36 * k))) else none := by
  rw [slots,List.getElem?_map]
  split_ifs with h
  · rw [List.getElem?_range (by omega)]
    rfl
  · rw [List.getElem?_eq_none (by rw [List.length_range]; omega)]
    rfl

theorem length_overwrite (a : List UInt8) (offset : ℕ) (bytes : List UInt8) :
    (overwrite a offset bytes).length = max a.length (offset + bytes.length) := by
  rw [overwrite,List.length_map,List.length_range]

theorem getD_overwrite {a bytes : List UInt8} {offset k : ℕ} (h : k < max a.length (offset + bytes.length)) :
    (overwrite a offset bytes).getD k 0 =
      if offset ≤ k ∧ k < offset + bytes.length then bytes.getD (k - offset) 0 else a.getD k 0 := by
  rw [List.getD_eq_getElem _ _ (by rw [length_overwrite]; exact h)]
  unfold overwrite
  rw [List.getElem_map,List.getElem_range]

/-- Writing an entry changes one slot, or adds one at the end. -/
theorem slots_overwrite {b : List UInt8} {k : ℕ} (hk : k ≤ (slots b).length) (e : DirEntry) :
    slots (overwrite b (36 * k) e.encode) = put (slots b) k e := by
  rw [length_slots] at hk
  have hlen := length_overwrite b (36 * k) e.encode
  rw [e.length_encode] at hlen
  refine List.ext_getElem? fun j => ?_
  rw [getElem?_put (by rw [length_slots]; exact hk),getElem?_slots,getElem?_slots,hlen]
  by_cases hj : j = k
  · subst hj
    rw [if_pos (by omega),if_pos rfl]
    refine congrArg some ((DirEntry.decode_congr fun i hi => ?_).trans e.decode_encode)
    rw [List.getD_eq_getElem?_getD,List.getElem?_drop,← List.getD_eq_getElem?_getD,
      getD_overwrite (by rw [e.length_encode]; omega),e.length_encode,if_pos (by omega)]
    congr 1
    omega
  · rw [if_neg hj]
    by_cases hin : 36 * j + 36 ≤ b.length
    · rw [if_pos (by omega),if_pos hin]
      refine congrArg some (DirEntry.decode_congr fun i hi => ?_)
      simp only [List.getD_eq_getElem?_getD,List.getElem?_drop]
      rw [← List.getD_eq_getElem?_getD,getD_overwrite (by omega),e.length_encode,if_neg (by omega),
        List.getD_eq_getElem?_getD]
    · rw [if_neg (by omega),if_neg hin]

section
variable {d : InodeDisk} {p : DirEntry → Bool}

theorem readEntry_eq (v : Volume) (h : 0 ≤ d.length) {k : ℕ} (hk : k ≤ (slots (storedBytes v d)).length) :
    readEntry v d (36 * k) = (slots (storedBytes v d))[k]? := by
  have hmax := (InodeDisk.length_range d).2
  rw [length_slots,length_storedBytes] at hk
  unfold readEntry
  rw [inodeReadAt_stored v h (by omega) (by omega)]
  have ho : ((36 : ℤ) * k).toNat = 36 * k := by omega
  have hs : entrySize.toNat = 36 := rfl
  dsimp only
  rw [ho,hs,getElem?_slots,List.length_take,List.length_drop,length_storedBytes]
  by_cases hin : 36 * k + 36 ≤ d.length.toNat
  · rw [if_pos (by omega),if_pos hin]
    exact congrArg some (DirEntry.decode_take _)
  · rw [if_neg (by omega),if_neg hin]

/-- The loops over the entries find the first slot with the property. -/
theorem scanEntries_eq (v : Volume) (h : 0 ≤ d.length) (rounds : ℕ) {k : ℕ}
    (hk : k ≤ (slots (storedBytes v d)).length) (hr : (slots (storedBytes v d)).length < k + rounds) :
    scanEntries v d p rounds (36 * k) = ((slots (storedBytes v d))[scan p (slots (storedBytes v d)) k]?,
      36 * (scan p (slots (storedBytes v d)) k : ℤ)) := by
  induction rounds generalizing k with
  | zero => omega
  | succ rounds ih =>
    unfold scanEntries
    rw [readEntry_eq v h hk]
    cases he : (slots (storedBytes v d))[k]? with
    | none =>
      have hge : (slots (storedBytes v d)).length ≤ k := List.getElem?_eq_none_iff.mp he
      rw [scan_of_ge hge,he]
    | some e =>
      dsimp only
      have hlt : k < (slots (storedBytes v d)).length := (List.getElem?_eq_some_iff.mp he).1
      cases hp : p e with
      | true => rw [if_pos rfl,scan_of_true he hp,he]
      | false =>
        rw [if_neg (by decide),scan_of_false he hp]
        have hofs : (36 : ℤ) * k + entrySize = 36 * ((k + 1 : ℕ) : ℤ) := by
          push_cast
          ring
        rw [hofs]
        exact ih (by omega) (by omega)

/-- More rounds than there are entries. -/
theorem scanEntries_all (v : Volume) (h : 0 ≤ d.length) {k : ℕ} (hk : k ≤ (slots (storedBytes v d)).length) :
    scanEntries v d p (entryRounds d) (36 * k) = ((slots (storedBytes v d))[scan p (slots (storedBytes v d)) k]?,
      36 * (scan p (slots (storedBytes v d)) k : ℤ)) := by
  refine scanEntries_eq v h _ hk ?_
  rw [length_slots,length_storedBytes,entryRounds]
  omega

end
end ShellOS.Fs
