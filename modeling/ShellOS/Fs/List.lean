import ShellOS.Lib.Thread
import ShellOS.Lib.Refinement
import ShellOS.Lib.RunSort

/-! The lists of `list.c`, whose cells are the `struct list_elem` inside the entries of the file table, the open inodes and
the files that `defragment` keeps. An assertion that fails prints a line and goes on; `none` is a null pointer that is
followed, or a loop that does not end within so many rounds. -/
namespace ShellOS.Fs
open Thread Refinement RunSort

/-- `struct list`: the cell before the first and the cell after the last. -/
abbrev ListHeader (α : Type) := Ends α

section
variable {α : Type} [DecidableEq α]

def llistInit (L : ListHeader α) (m : Links α) : Links α :=
  (((m.setPrev L.head none).setNext L.head (some L.tail)).setPrev L.tail (some L.head)).setNext L.tail none

def listBegin (L : ListHeader α) (m : Links α) : Option α := m.next L.head

def listFront (L : ListHeader α) (m : Links α) : Option α := m.next L.head

def listBack (L : ListHeader α) (m : Links α) : Option α := m.prev L.tail

def listEmpty (L : ListHeader α) (m : Links α) : Bool := listBegin L m == some L.tail

def listInsert (before elem : α) (m : Links α) : Option (Links α) :=
  let m := (m.setPrev elem (m.prev before)).setNext elem (some before)
  (m.prev before).map fun p => (m.setNext p (some elem)).setPrev before (some elem)

def listSplice (before first last : α) (m : Links α) : Option (Links α) :=
  if first = last then some m
  else (m.prev last).bind fun last => (m.prev first).bind fun p =>
    let m := m.setNext p (m.next last)
    (m.next last).bind fun n =>
      let m := m.setPrev n (m.prev first)
      let m := (m.setPrev first (m.prev before)).setNext last (some before)
      (m.prev before).map fun p => (m.setNext p (some first)).setPrev before (some last)

def listPushFront (L : ListHeader α) (elem : α) (m : Links α) : Option (Links α) :=
  (listBegin L m).bind fun before => listInsert before elem m

def listPushBack (L : ListHeader α) (elem : α) (m : Links α) : Option (Links α) := listInsert L.tail elem m

/-- The cell after the one removed is returned, which still leads to its neighbours. -/
def listRemove (elem : α) (m : Links α) : Option (Option α × Links α) :=
  (m.prev elem).bind fun p =>
    let m := m.setNext p (m.next elem)
    (m.next elem).map fun n =>
      let m := m.setPrev n (m.prev elem)
      (m.next elem,m)

def listPopFront (L : ListHeader α) (m : Links α) : Option (α × Links α) :=
  (listFront L m).bind fun front => (listRemove front m).map fun r => (front,r.2)

def listPopBack (L : ListHeader α) (m : Links α) : Option (α × Links α) :=
  (listBack L m).bind fun back => (listRemove back m).map fun r => (back,r.2)

/-- The cells that `for (e = …; e != list_end(list); e = list_next(e))` visits. -/
def visited (t : α) (m : Links α) : ℕ → Option α → Option (List α)
  | _,none => none
  | 0,some a => if a = t then some [] else none
  | n+1,some a => if a = t then some [] else (visited t m n (m.next a)).map (a::·)

/-- The cell at which such a loop stops, where its body leaves it at the first cell of some kind. -/
def search (found : α → Bool) (t : α) (m : Links α) : ℕ → Option α → Option α
  | _,none => none
  | 0,some a => if a = t then some t else none
  | n+1,some a => if a = t then some t else if found a then some a else search found t m n (m.next a)

def listSize (n : ℕ) (L : ListHeader α) (m : Links α) : Option ℕ := (visited L.tail m n (listBegin L m)).map List.length

/-- The loop of `list_reverse`, which follows the pointer that was the other one. -/
def reverseLoop (t : α) : ℕ → Option α → Links α → Option (Links α)
  | _,none,_ => none
  | 0,some a,m => if a = t then some m else none
  | n+1,some a,m => if a = t then some m else
    let m := (m.setPrev a (m.next a)).setNext a (m.prev a)
    reverseLoop t n (m.prev a) m

def listReverse (n : ℕ) (L : ListHeader α) (m : Links α) : Option (Links α) :=
  if listEmpty L m then some m
  else (reverseLoop L.tail n (listBegin L m) m).bind fun m =>
    let m := (m.setNext L.head (m.prev L.tail)).setPrev L.tail (m.next L.head)
    (m.next L.head).bind fun a => (m.prev L.tail).map fun b => (m.setPrev a (m.next b)).setNext b (m.prev a)

section
variable (less : α → α → Bool)

def findEndOfRun (b : α) (m : Links α) : ℕ → α → Option α
  | 0,_ => none
  | n+1,a => (m.next a).bind fun a => if a = b then some b
    else (m.prev a).bind fun p => if less a p then some a else findEndOfRun b m n a

def inplaceMerge (b1 : α) : ℕ → α → α → Links α → Option (Links α)
  | n,a0,a1b0,m => if a0 = a1b0 ∨ a1b0 = b1 then some m
    else match n with
    | 0 => none
    | n+1 => if !less a1b0 a0 then (m.next a0).bind fun a0 => inplaceMerge b1 n a0 a1b0 m
      else (m.next a1b0).bind fun a1b0 => (m.prev a1b0).bind fun first => (listSplice a0 first a1b0 m).bind fun m =>
        inplaceMerge b1 n a0 a1b0 m

/-- One pass of `list_sort`, with the number of runs it leaves. -/
def sortPass (n : ℕ) (t : α) : ℕ → α → Links α → Option (ℕ × Links α)
  | k,a0,m => if a0 = t then some (0,m)
    else match k with
    | 0 => none
    | k+1 => (findEndOfRun less t m n a0).bind fun a1b0 => if a1b0 = t then some (1,m)
      else (findEndOfRun less t m n a1b0).bind fun b1 => (inplaceMerge less b1 n a0 a1b0 m).bind fun m =>
        (sortPass n t k b1 m).map fun r => (r.1 + 1,r.2)

def listSort (n : ℕ) (L : ListHeader α) : ℕ → Links α → Option (Links α)
  | 0,_ => none
  | k+1,m => (listBegin L m).bind fun a0 => (sortPass less n L.tail n a0 m).bind fun r =>
    if r.1 > 1 then listSort n L k r.2 else some r.2

def listInsertOrdered (n : ℕ) (L : ListHeader α) (elem : α) (m : Links α) : Option (Links α) :=
  (search (fun e => less elem e) L.tail m n (listBegin L m)).bind fun e => listInsert e elem m

def uniqueLoop (t : α) (duplicates : Option (ListHeader α)) : ℕ → α → Links α → Option (Links α)
  | n,elem,m => (m.next elem).bind fun next => if next = t then some m
    else match n with
    | 0 => none
    | n+1 => if !less elem next && !less next elem then (listRemove next m).bind fun r =>
        match duplicates with
        | none => uniqueLoop t duplicates n elem r.2
        | some D => (listPushBack D next r.2).bind fun m => uniqueLoop t duplicates n elem m
      else uniqueLoop t duplicates n next m

def listUnique (n : ℕ) (L : ListHeader α) (duplicates : Option (ListHeader α)) (m : Links α) : Option (Links α) :=
  if listEmpty L m then some m else (listBegin L m).bind fun elem => uniqueLoop less L.tail duplicates n elem m

def listMax (n : ℕ) (L : ListHeader α) (m : Links α) : Option α :=
  (listBegin L m).bind fun max => if max = L.tail then some max
    else (visited L.tail m n (m.next max)).map fun l => l.foldl (fun max e => if less max e then e else max) max

def listMin (n : ℕ) (L : ListHeader α) (m : Links α) : Option α :=
  (listBegin L m).bind fun min => if min = L.tail then some min
    else (visited L.tail m n (m.next min)).map fun l => l.foldl (fun min e => if less e min then e else min) min

end

/-- The loop of `free_file_table`, which removes every entry twice. -/
def freeEntries (L : ListHeader α) : ℕ → Links α → Option (Links α)
  | n,m => if listEmpty L m then some m
    else match n with
    | 0 => none
    | n+1 => (listPopFront L m).bind fun r => (listRemove r.1 r.2).bind fun r => freeEntries L n r.2

/-! ### What one call does to its list -/

variable {L : ListHeader α} {m m' : Links α} {a b e n p h t : α} {l r s u v : List α} {k : ℕ} {found : α → Bool}

theorem listInsert_eq (hp : m.prev b = some p) (hb : b ≠ e) (hpe : p ≠ e) : listInsert b e m = some ((m.link p e).link e b) := by
  have hprev : ((m.setPrev e (m.prev b)).setNext e (some b)).prev b = some p := by
    rw [setNext_prev,setPrev_prev,if_neg hb,hp]
  unfold listInsert
  dsimp only
  rw [hprev,Option.map_some,Links.link,Links.link,Links.setNext,Links.setNext,Links.setNext,Links.setNext,hp]
  simp only [Links.setPrev,Option.some.injEq,Links.mk.injEq,and_true]
  exact Function.update_comm (Ne.symm hpe) _ _ _

theorem listRemove_eq (hp : m.prev e = some p) (hn : m.next e = some n) (hpe : p ≠ e) : listRemove e m = some (some n,m.link p n) := by
  have hnext : (m.setNext p (m.next e)).next e = some n := by rw [setNext_next,if_neg (Ne.symm hpe),hn]
  unfold listRemove
  rw [hp,Option.bind_some]
  dsimp only
  rw [hnext,Option.map_some,setPrev_next,hnext,setNext_prev,hp,hn]
  rfl

/-- A list is empty from its initialisation on. -/
theorem holds_llistInit (hne : L.head ≠ L.tail) : Spans (llistInit L m) L.head L.tail [] where
  threaded := threaded_cons_cons.mpr ⟨⟨by simp [llistInit,hne],by simp [llistInit]⟩,.singleton L.tail⟩
  nodup := by simpa using hne
  prev_head := by simp [llistInit,hne]
  next_tail := by simp [llistInit]

theorem listEmpty_eq (hm : Spans m L.head L.tail l) : listEmpty L m = l.isEmpty := by
  rw [listEmpty,listBegin,hm.next_head]
  cases l with
  | nil => simp
  | cons a l =>
    have hne := hm.ne_tail (List.mem_cons_of_mem L.head (List.mem_cons_self (a := a) (l := l)))
    simpa using hne

/-- The cell comes just before the one it is inserted at, which may be the end. -/
theorem listInsert_spans (hm : Spans m h t (l ++ r)) (he : e ∉ h::(l ++ r ++ [t])) (hb : (r ++ [t]).head? = some b) :
    ∃ m', listInsert b e m = some m' ∧ Spans m' h t (l ++ e::r) ∧ SameOutside (e::h::(l ++ r ++ [t])) m m' := by
  obtain ⟨p,n,hp,-,hpe,hne,-,hhead,hsame,hm'⟩ := hm.link he
  obtain rfl : n = b := Option.some.inj (hhead.symm.trans hb)
  exact ⟨_,listInsert_eq hp hne hpe,hm',hsame⟩

theorem listRemove_spans (hm : Spans m h t (l ++ e::r)) : ∃ m', listRemove e m = some ((r ++ [t]).head?,m') ∧ Spans m' h t (l ++ r) ∧
    SameOutside (h::(l ++ r ++ [t])) m m' := by
  obtain ⟨p,n,hp,hn,hpe,-,hhead,hsame,hm'⟩ := hm.unlink
  exact ⟨_,by rw [listRemove_eq hp hn hpe,hhead],hm',hsame⟩

/-- The end of a list is no cell that can be removed. -/
theorem listRemove_tail (hm : Spans m h t l) : listRemove t m = none := by
  obtain ⟨u,p,hu⟩ := exists_last h l
  have hp : m.prev t = some p := by rw [hm.prev_tail,hu,List.getLast?_concat]
  have hpt : t ≠ p := (hm.ne_tail (hu ▸ by simp)).symm
  have hnext : (m.setNext p (m.next t)).next t = none := by rw [setNext_next,if_neg hpt,hm.next_tail]
  unfold listRemove
  rw [hp,Option.bind_some]
  dsimp only
  rw [hnext,Option.map_none]

theorem visited_eq (hm : Threaded m (a::(l ++ [t]))) (ht : t ∉ l) (hk : l.length ≤ k) : visited t m k (m.next a) = some l := by
  induction l generalizing a k with
  | nil =>
    rw [(threaded_cons_cons.mp hm).1.1]
    cases k <;> simp [visited]
  | cons b l ih =>
    obtain ⟨hj,hl⟩ := threaded_cons_cons.mp hm
    obtain ⟨htb,htl⟩ := not_or.mp (mt List.mem_cons.mpr ht)
    cases k with
    | zero => simp at hk
    | succ k => rw [hj.1,visited,if_neg (Ne.symm htb),ih hl htl (by simpa using hk),Option.map_some]

theorem search_eq (hm : Threaded m (a::(l ++ [t]))) (ht : t ∉ l) (hk : l.length ≤ k) :
    search found t m k (m.next a) = (l.dropWhile (fun c => !found c) ++ [t]).head? := by
  induction l generalizing a k with
  | nil =>
    rw [(threaded_cons_cons.mp hm).1.1]
    cases k <;> simp [search]
  | cons b l ih =>
    obtain ⟨hj,hl⟩ := threaded_cons_cons.mp hm
    obtain ⟨htb,htl⟩ := not_or.mp (mt List.mem_cons.mpr ht)
    cases k with
    | zero => simp at hk
    | succ k =>
      rw [hj.1,search,if_neg (Ne.symm htb),List.dropWhile_cons]
      cases hf : found b with
      | true => simp
      | false => simpa using ih hl htl (by simpa using hk)

theorem visited_spans (hm : Spans m h t l) (hk : l.length ≤ k) : visited t m k (m.next h) = some l :=
  visited_eq hm.threaded hm.tail_not_mem hk

theorem listSize_eq (hm : Spans m L.head L.tail l) (hk : l.length ≤ k) : listSize k L m = some l.length := by
  rw [listSize,listBegin,visited_spans hm hk,Option.map_some]

/-! ### Reversal -/

/-- The loop of `list_reverse` exchanges the two pointers of every cell. -/
theorem reverseLoop_eq (hm : Threaded m (l ++ [t])) (hn : (l ++ [t]).Nodup) (hk : l.length ≤ k) :
    ∃ m', reverseLoop t k (l ++ [t]).head? m = some m' ∧ SameOutside l m m' ∧ ∀ c ∈ l, m'.next c = m.prev c ∧ m'.prev c = m.next c := by
  induction l generalizing m k with
  | nil =>
    refine ⟨m,?_,.refl,by simp⟩
    cases k <;> simp [reverseLoop]
  | cons a l ih =>
    obtain ⟨hat,hnl⟩ := List.nodup_cons.mp hn
    have hne : a ≠ t := fun hc => hat (hc ▸ by simp)
    have hrest : Threaded m (l ++ [t]) ∧ m.next a = (l ++ [t]).head? := by
      obtain ⟨n,v,hv⟩ := exists_first l t
      rw [List.cons_append,hv] at hm
      rw [hv]
      exact ⟨(threaded_cons_cons.mp hm).2,(threaded_cons_cons.mp hm).1.1⟩
    cases k with
    | zero => simp at hk
    | succ k =>
      obtain ⟨m₁,hm₁⟩ : ∃ m₁, m₁ = (m.setPrev a (m.next a)).setNext a (m.prev a) := ⟨_,rfl⟩
      have hself : m₁.next a = m.prev a ∧ m₁.prev a = m.next a := by simp [hm₁]
      have hother : ∀ c, c ≠ a → m₁.next c = m.next c ∧ m₁.prev c = m.prev c := fun c hc => by simp [hm₁,hc]
      obtain ⟨m',hrun,hsame,hswap⟩ := @ih m₁ k
        (hrest.1.congr fun c hc => hother c fun he => hat (he ▸ hc)) hnl (by simpa using hk)
      refine ⟨m',?_,fun c hc => ?_,fun c hc => ?_⟩
      · rw [List.cons_append,List.head?_cons,reverseLoop,if_neg hne]
        dsimp only
        rw [← hm₁,hself.2,hrest.2,hrun]
      · obtain ⟨hca,hcl⟩ := not_or.mp (mt List.mem_cons.mpr hc)
        exact ⟨(hsame c hcl).1.trans (hother c hca).1,(hsame c hcl).2.trans (hother c hca).2⟩
      · by_cases hca : c = a
        · have hal : a ∉ l := fun hm => hat (List.mem_append_left _ hm)
          rw [hca]
          exact ⟨(hsame a hal).1.trans hself.1,(hsame a hal).2.trans hself.2⟩
        · obtain ⟨h₁,h₂⟩ := hswap c ((List.mem_cons.mp hc).resolve_left hca)
          exact ⟨h₁.trans (hother c hca).2,h₂.trans (hother c hca).1⟩

theorem listReverse_spans (hm : Spans m L.head L.tail l) (hk : l.length ≤ k) : ∃ m', listReverse k L m = some m' ∧
    Spans m' L.head L.tail l.reverse ∧ SameOutside (L.head::(l ++ [L.tail])) m m' := by
  unfold listReverse
  rw [listEmpty_eq hm]
  by_cases hl : l = []
  · subst hl
    exact ⟨m,rfl,hm,.refl⟩
  · rw [if_neg (by simpa using hl)]
    obtain ⟨hhead,hnl⟩ := List.nodup_cons.mp hm.nodup
    have hcells : Threaded m (l ++ [L.tail]) := (List.isChain_cons.mp hm.threaded).2
    obtain ⟨m₁,hrun,hsame,hswap⟩ := reverseLoop_eq hcells hnl hk
    obtain ⟨f,hf⟩ := Option.isSome_iff_exists.mp (by simpa using hl : l.head?.isSome)
    obtain ⟨z,hz⟩ := Option.isSome_iff_exists.mp (by simpa using hl : l.getLast?.isSome)
    have hfl := List.mem_of_head? hf
    have hzl := List.mem_of_getLast? hz
    have hht : L.head ≠ L.tail := fun hc => hhead (by simp [hc])
    have hhl : L.head ∉ l := fun hc => hhead (List.mem_append_left _ hc)
    have htl := hm.tail_not_mem
    have hfirst : m.next L.head = some f := by rw [hm.next_head,List.head?_append,hf]; rfl
    have hlast : m.prev L.tail = some z := by
      rw [hm.prev_tail,List.getLast?_cons,hz]
      rfl
    have hjf : Joined m L.head f := (List.isChain_cons.mp hm.threaded).1 f (by simp [List.head?_append,hf])
    have hjz : Joined m z L.tail := (List.isChain_append.mp hcells).2.2 z hz L.tail rfl
    obtain ⟨m₂,hm₂⟩ : ∃ m₂, m₂ = (m₁.setNext L.head (m₁.prev L.tail)).setPrev L.tail (m₁.next L.head) := ⟨_,rfl⟩
    have hne : ∀ c ∈ l, c ≠ L.head ∧ c ≠ L.tail := fun c hc => ⟨fun he => hhl (he ▸ hc),fun he => htl (he ▸ hc)⟩
    have hnext : ∀ c ∈ l, m₂.next c = m.prev c := fun c hc => by
      rw [hm₂,setPrev_next,setNext_next,if_neg (hne c hc).1,(hswap c hc).1]
    have hprev : ∀ c ∈ l, m₂.prev c = m.next c := fun c hc => by
      rw [hm₂,setPrev_prev,if_neg (hne c hc).2,setNext_prev,(hswap c hc).2]
    have hnh : m₂.next L.head = some z := by
      rw [hm₂,setPrev_next,setNext_next,if_pos rfl,(hsame L.tail htl).2,hlast]
    have hpt : m₂.prev L.tail = some f := by
      rw [hm₂,setPrev_prev,if_pos rfl,(hsame L.head hhl).1,hfirst]
    obtain ⟨m₃,hm₃⟩ : ∃ m₃, m₃ = (m₂.setPrev z (m₂.next f)).setNext f (m₂.prev z) := ⟨_,rfl⟩
    have hrun₃ : ((reverseLoop L.tail k (listBegin L m) m).bind fun m =>
        let m := (m.setNext L.head (m.prev L.tail)).setPrev L.tail (m.next L.head)
        (m.next L.head).bind fun a => (m.prev L.tail).map fun b => (m.setPrev a (m.next b)).setNext b (m.prev a)) = some m₃ := by
      rw [listBegin,hm.next_head,hrun,Option.bind_some]
      dsimp only
      rw [← hm₂,hnh,Option.bind_some,hpt,Option.map_some,hm₃]
    refine ⟨m₃,hrun₃,⟨?_,?_,?_,?_⟩,?_⟩
    · refine List.isChain_cons.mpr ⟨fun c hc => ?_,List.isChain_append.mpr ⟨?_,.singleton _,fun c hc d hd => ?_⟩⟩
      · obtain rfl : z = c := by simpa [List.head?_append,hz] using hc
        refine ⟨?_,?_⟩
        · rw [hm₃,setNext_next,if_neg (hne f hfl).1.symm,setPrev_next,hnh]
        · rw [hm₃,setNext_prev,setPrev_prev,if_pos rfl,hnext f hfl,hjf.2]
      · refine List.isChain_reverse.mpr (List.IsChain.imp_of_mem_imp (fun c d hc hd hj => ⟨?_,?_⟩)
          (List.isChain_append.mp hcells).1)
        · have hdf : d ≠ f := fun he => hhl (Option.some.inj ((he ▸ hj.2).symm.trans hjf.2) ▸ hc)
          rw [hm₃,setNext_next,if_neg hdf,setPrev_next,hnext d hd,hj.2]
        · have hcz : c ≠ z := fun he => htl (Option.some.inj ((he ▸ hj.1).symm.trans hjz.1) ▸ hd)
          rw [hm₃,setNext_prev,setPrev_prev,if_neg hcz,hprev c hc,hj.1]
      · obtain rfl : f = c := by simpa [hf] using hc
        obtain rfl : L.tail = d := by simpa using hd
        refine ⟨?_,?_⟩
        · rw [hm₃,setNext_next,if_pos rfl,hprev z hzl,hjz.1]
        · rw [hm₃,setNext_prev,setPrev_prev,if_neg (hne z hzl).2.symm,hpt]
    · have hperm : (L.head::(l.reverse ++ [L.tail])).Perm (L.head::(l ++ [L.tail])) := ((List.reverse_perm l).append_right _).cons _
      exact hperm.nodup_iff.mpr hm.nodup
    · rw [hm₃,setNext_prev,setPrev_prev,if_neg (hne z hzl).1.symm,hm₂,setPrev_prev,if_neg hht,setNext_prev,(hsame _ hhl).2,hm.prev_head]
    · rw [hm₃,setNext_next,if_neg (hne f hfl).2.symm,setPrev_next,hm₂,setPrev_next,setNext_next,if_neg hht.symm,(hsame _ htl).1,hm.next_tail]
    · intro c hc
      obtain ⟨hch,hcl⟩ := not_or.mp (mt List.mem_cons.mpr hc)
      obtain ⟨hcl,hct⟩ := not_or.mp (mt List.mem_append.mpr hcl)
      have hct : c ≠ L.tail := by simpa using hct
      have hcf : c ≠ f := fun he => hcl (he ▸ hfl)
      have hcz : c ≠ z := fun he => hcl (he ▸ hzl)
      obtain ⟨hn',hp'⟩ := hsame c hcl
      rw [hm₃,setNext_next,if_neg hcf,setNext_prev,setPrev_next,setPrev_prev,if_neg hcz,hm₂,setPrev_next,setNext_next,if_neg hch,
        setPrev_prev,if_neg hct,setNext_prev]
      exact ⟨hn',hp'⟩

/-! ### Sorting -/

/-- Removing a cell and inserting it before another one of its list. -/
theorem listSplice_eq (hne : a ≠ b) (hp : m.prev b = some a) :
    listSplice e a b m = (listRemove a m).bind fun r => listInsert e a r.2 := by
  unfold listSplice listRemove listInsert
  rw [if_neg hne,hp,Option.bind_some]
  cases m.prev a with
  | none => rfl
  | some p =>
    dsimp only
    rw [Option.bind_some,Option.bind_some]
    cases (m.setNext p (m.next a)).next a with
    | none => rfl
    | some n => rfl

theorem listSplice_spans (hm : Spans m h t (l ++ a::(u ++ b::r))) (hn : (r ++ [t]).head? = some n) :
    ∃ m', listSplice a b n m = some m' ∧ Spans m' h t (l ++ b::a::(u ++ r)) ∧ SameOutside (h::(l ++ a::(u ++ b::r) ++ [t])) m m' := by
  rw [show l ++ a::(u ++ b::r) = (l ++ a::u) ++ b::r by simp] at hm ⊢
  obtain ⟨p,v,hp⟩ := exists_last h (l ++ a::u)
  obtain ⟨n',w,hw⟩ := exists_first r t
  obtain rfl : n' = n := by rw [hw] at hn; exact Option.some.inj hn
  have hcells : h::((l ++ a::u) ++ b::r ++ [t]) = (h::(l ++ a::u)) ++ b::n'::w := by simp [hw]
  have hbn := hm.joined hcells
  have hnd := hm.nodup
  have hne : b ≠ n' := fun hc => by
    rw [hcells,hc] at hnd
    exact (List.nodup_cons.mp (List.nodup_append.mp hnd).2.1).1 List.mem_cons_self
  obtain ⟨m₁,hrm,hm₁,hsame⟩ := listRemove_spans hm
  have hperm : (h::((l ++ a::u) ++ b::r ++ [t])).Perm (b::h::((l ++ a::u) ++ r ++ [t])) := by
    have h₁ : (h::((l ++ a::u) ++ b::r ++ [t])).Perm (h::b::((l ++ a::u) ++ r ++ [t])) := by
      simpa using (@List.perm_middle _ b (l ++ a::u) (r ++ [t])).cons h
    exact h₁.trans (.swap b h _)
  have hb : b ∉ h::(l ++ (a::u ++ r) ++ [t]) := by
    simpa using (List.nodup_cons.mp (hperm.nodup_iff.mp hnd)).1
  rw [show (l ++ a::u) ++ r = l ++ (a::u ++ r) by simp] at hm₁
  obtain ⟨m₂,hin,hm₂,hsame₂⟩ := listInsert_spans hm₁ hb (b := a) (by simp)
  refine ⟨m₂,by rw [listSplice_eq hne hbn.2,hrm,Option.bind_some,hin],by simpa using hm₂,?_⟩
  refine (hsame.mono fun c hc => ?_).trans (hsame₂.mono fun c hc => ?_)
  · exact hperm.mem_iff.mpr (List.mem_cons_of_mem b hc)
  · exact hperm.mem_iff.mpr (by simpa using hc)

section
variable {less : α → α → Bool}

/-- `inplace_merge` merges two neighbouring parts of the list. -/
theorem inplaceMerge_spans {a₀ a₁ b₁ : α} {A B r : List α} (hm : Spans m h t (l ++ A ++ B ++ r))
    (h₀ : (A ++ B ++ r ++ [t]).head? = some a₀) (h₁ : (B ++ r ++ [t]).head? = some a₁) (h₂ : (r ++ [t]).head? = some b₁)
    (hk : A.length + B.length ≤ k) : ∃ m', inplaceMerge less b₁ k a₀ a₁ m = some m' ∧
      Spans m' h t (l ++ A.merge B (notLess less) ++ r) ∧ SameOutside (h::(l ++ A ++ B ++ r ++ [t])) m m' := by
  induction k generalizing l A B a₀ a₁ m with
  | zero =>
    obtain ⟨rfl,rfl⟩ : A = [] ∧ B = [] := by
      constructor <;> exact List.length_eq_zero_iff.mp (by omega)
    obtain rfl : a₀ = a₁ := Option.some.inj (h₀.symm.trans h₁)
    exact ⟨m,by rw [inplaceMerge,if_pos (.inl rfl)],by simpa using hm,.refl⟩
  | succ k ih =>
    cases A with
    | nil =>
      obtain rfl : a₀ = a₁ := Option.some.inj (h₀.symm.trans h₁)
      exact ⟨m,by rw [inplaceMerge,if_pos (.inl rfl)],by simpa using hm,.refl⟩
    | cons x A =>
      cases B with
      | nil =>
        obtain rfl : a₁ = b₁ := Option.some.inj (h₁.symm.trans h₂)
        exact ⟨m,by rw [inplaceMerge,if_pos (.inr rfl)],by simpa using hm,.refl⟩
      | cons y B =>
        obtain rfl : x = a₀ := by simpa using h₀
        obtain rfl : y = a₁ := by simpa using h₁
        have hnd : (h::l ++ x::(A ++ y::(B ++ (r ++ [t])))).Nodup := by simpa using hm.nodup
        have hright := (List.nodup_append.mp hnd).2.1
        have hxy : x ≠ y := fun hc => (List.nodup_cons.mp hright).1 (hc ▸ by simp)
        have hyb : y ≠ b₁ := fun hc => by
          have hmem : b₁ ∈ r ++ [t] := List.mem_of_head? h₂
          exact (List.nodup_cons.mp (List.nodup_append.mp (List.nodup_cons.mp hright).2).2.1).1
            (hc ▸ List.mem_append_right B hmem)
        rw [inplaceMerge,if_neg (not_or.mpr ⟨hxy,hyb⟩)]
        cases hlt : less y x with
        | false =>
          obtain ⟨c,v,hv⟩ := exists_first (A ++ y::B ++ r) t
          have hcells : h::((l ++ x::A ++ y::B ++ r) ++ [t]) = (h::l) ++ x::c::v := by
            rw [← hv]
            simp
          have hnext := (hm.joined hcells).1
          obtain ⟨m',hrun,hm',hsame⟩ := @ih m (l ++ [x]) c y A (y::B) (by simpa using hm)
            (by rw [hv,List.head?_cons]) (by simp) (by simp at hk ⊢; omega)
          refine ⟨m',?_,?_,?_⟩
          · simpa [hnext] using hrun
          · rw [List.cons_merge_cons_pos _ _ _ (by simp [notLess,hlt])]
            simpa using hm'
          · simpa using hsame
        | true =>
          obtain ⟨c,v,hv⟩ := exists_first (B ++ r) t
          have hcells : h::((l ++ x::A ++ y::B ++ r) ++ [t]) = (h::(l ++ x::A)) ++ y::c::v := by
            rw [← hv]
            simp
          have hj := hm.joined hcells
          obtain ⟨m₁,hsp,hm₁,hsame₁⟩ := @listSplice_spans α _ m x y c h t l (B ++ r) A (by simpa using hm)
            (by rw [hv,List.head?_cons])
          obtain ⟨m',hrun,hm',hsame⟩ := @ih m₁ (l ++ [y]) x c (x::A) B (by simpa using hm₁) (by simp)
            (by rw [hv,List.head?_cons]) (by simp at hk ⊢; omega)
          refine ⟨m',?_,?_,?_⟩
          · simpa [hj.1,hj.2,hsp] using hrun
          · rw [List.cons_merge_cons_neg _ _ _ (by simp [notLess,hlt])]
            simpa using hm'
          · refine (hsame₁.mono fun c hc => by simpa using hc).trans (hsame.mono fun c hc => ?_)
            simp at hc ⊢
            tauto

end

section
variable {less : α → α → Bool}

/-- `find_end_of_run` stops where the first run without a descent ends. -/
theorem findEndOfRun_eq (less : α → α → Bool) (hm : Threaded m (a::(r ++ [t]))) (ht : t ∉ r) (hk : r.length + 1 ≤ k) :
    ∃ A B, r = A ++ B ∧ findEndOfRun less t m k a = (B ++ [t]).head? ∧ (a::A).IsChain (notLess less · ·) ∧
      descents less (a::r) = if B = [] then 0 else 1 + descents less B := by
  induction r generalizing a k with
  | nil =>
    obtain ⟨k,rfl⟩ := Nat.exists_eq_add_of_lt hk
    have hj := (threaded_cons_cons.mp hm).1
    refine ⟨[],[],rfl,?_,.singleton a,rfl⟩
    rw [findEndOfRun,hj.1,Option.bind_some,if_pos rfl]
    rfl
  | cons b r ih =>
    obtain ⟨hj,hl⟩ := threaded_cons_cons.mp hm
    obtain ⟨htb,htr⟩ := not_or.mp (mt List.mem_cons.mpr ht)
    cases k with
    | zero => simp at hk
    | succ k =>
      rw [findEndOfRun,hj.1,Option.bind_some,if_neg (Ne.symm htb),hj.2,Option.bind_some]
      cases hlt : less b a with
      | true => exact ⟨[],b::r,rfl,by simp,.singleton a,by simp [descents,hlt]⟩
      | false =>
        obtain ⟨A,B,rfl,hrun,hsorted,hcount⟩ := @ih b k hl htr (by simpa using hk)
        refine ⟨b::A,B,rfl,by simpa using hrun,List.isChain_cons_cons.mpr ⟨by simp [notLess,hlt],hsorted⟩,?_⟩
        rw [descents,hcount,hlt]
        simp

/-- A pass of `list_sort` merges the runs two by two, so that at most half of the descents are left. -/
theorem sortPass_spans {a₀ : α} (hw : Weak less) (i : α → ℕ) (hm : Spans m h t (l ++ r)) (h₀ : (r ++ [t]).head? = some a₀)
    (hi : InOrder less i r) (hk : r.length ≤ k) {N : ℕ} (hN : r.length ≤ N) : ∃ c s m', sortPass less N t k a₀ m = some (c,m') ∧
      Spans m' h t (l ++ s) ∧ SameOutside (h::(l ++ r ++ [t])) m m' ∧ s.Perm r ∧ InOrder less i s ∧
      (r = [] → c = 0) ∧ (r ≠ [] → descents less s + 1 ≤ c ∧ 2*c ≤ descents less r + 2) := by
  induction k generalizing l r a₀ m with
  | zero =>
    obtain rfl : r = [] := List.length_eq_zero_iff.mp (by omega)
    obtain rfl : t = a₀ := by simpa using h₀
    exact ⟨0,[],m,by rw [sortPass,if_pos rfl],hm,.refl,.refl _,hi,fun _ => rfl,fun hc => absurd rfl hc⟩
  | succ k ih =>
    cases r with
    | nil =>
      obtain rfl : t = a₀ := by simpa using h₀
      exact ⟨0,[],m,by rw [sortPass,if_pos rfl],hm,.refl,.refl _,hi,fun _ => rfl,fun hc => absurd rfl hc⟩
    | cons a r =>
      obtain rfl : a = a₀ := by simpa using h₀
      have htl := hm.tail_not_mem
      have hat : a ≠ t := fun hc => htl (hc ▸ by simp)
      have hcells : h::((l ++ a::r) ++ [t]) = (h::l) ++ a::(r ++ [t]) := by simp
      have hthread := (threaded_split.mp (hcells ▸ hm.threaded)).2
      obtain ⟨A,B,rfl,hrunA,hA,hcountA⟩ := findEndOfRun_eq less hthread (fun hc => htl (by simp [hc]))
        (k := N) (by simpa using hN)
      rw [sortPass,if_neg hat,hrunA]
      cases B with
      | nil =>
        refine ⟨1,a::(A ++ []),m,by simp,hm,.refl,.refl _,hi,fun hc => by simp at hc,fun _ => ?_⟩
        rw [hcountA,if_pos rfl]
        omega
      | cons b B =>
        have hbt : b ≠ t := fun hc => htl (hc ▸ by simp)
        have hcellsB : h::((l ++ a::(A ++ b::B)) ++ [t]) = (h::(l ++ a::A)) ++ b::(B ++ [t]) := by simp
        have hthreadB := (threaded_split.mp (hcellsB ▸ hm.threaded)).2
        obtain ⟨A₂,C,rfl,hrunB,hA₂,hcountB⟩ := findEndOfRun_eq less hthreadB (fun hc => htl (by simp [hc]))
          (k := N) (by simp at hN ⊢; omega)
        obtain ⟨b₁,v,hv⟩ := exists_first C t
        obtain ⟨m₁,hmerge,hm₁,hsame₁⟩ := @inplaceMerge_spans α _ m h t l N less a b b₁ (a::A) (b::A₂) C (by simpa using hm)
          (by simp) (by simp) (by rw [hv,List.head?_cons]) (by simp at hN ⊢; omega)
        have hparts : InOrder less i ((a::A ++ b::A₂) ++ C) := by simpa using hi
        obtain ⟨hiAB,hiC,hcross⟩ := List.pairwise_append.mp hparts
        obtain ⟨M,hM⟩ : ∃ M, M = (a::A).merge (b::A₂) (notLess less) := ⟨_,rfl⟩
        have hMperm : M.Perm (a::A ++ b::A₂) := hM ▸ List.merge_perm_append _
        have hMplaced : M.Pairwise (placed less i · ·) := hM ▸ hw.merge hA hA₂ hiAB
        have hMlow : descents less M = 0 := descents_eq_zero (hMplaced.imp fun h => (placed_iff.mp h).1).isChain
        rw [← hM] at hm₁
        obtain ⟨c,s,m',hrun,hm',hsame,hperm,his,hnil,hcons⟩ := @ih m₁ (l ++ M) C b₁ hm₁ (by rw [hv,List.head?_cons]) hiC
          (by simp at hk ⊢; omega) (by simp at hN ⊢; omega)
        refine ⟨c + 1,M ++ s,m',?_,by simpa using hm',?_,?_,?_,fun hc => by simp at hc,fun _ => ?_⟩
        · rw [List.cons_append,List.head?_cons,Option.bind_some,if_neg hbt,hrunB,hv,List.head?_cons,Option.bind_some,hmerge,
            Option.bind_some,hrun,Option.map_some]
        · have hall := (((hMperm.append_left l).append_right C).append_right [t]).cons h
          refine (hsame₁.mono fun c hc => by simpa using hc).trans (hsame.mono fun c hc => ?_)
          simpa using hall.mem_iff.mp hc
        · have hboth : (M ++ s).Perm ((a::A ++ b::A₂) ++ C) := hMperm.append hperm
          simpa using hboth
        · refine List.pairwise_append.mpr ⟨hMplaced.imp fun h => (placed_iff.mp h).2,his,fun x hx y hy => ?_⟩
          exact hcross x (hMperm.mem_iff.mp hx) y (hperm.mem_iff.mp hy)
        · rw [hcountA,if_neg (List.cons_ne_nil _ _),hcountB]
          by_cases hC : C = []
          · obtain rfl : s = [] := List.perm_nil.mp (hC ▸ hperm)
            rw [hnil hC,if_pos hC,List.append_nil,hMlow]
            omega
          · obtain ⟨h₁,h₂⟩ := hcons hC
            have happ := descents_append_le less M s
            rw [if_neg hC]
            omega

/-- `list_sort` ends, with the elements of the list in order, and those of the same rank in the order in which they were. -/
theorem listSort_spans (hw : Weak less) (i : α → ℕ) (hm : Spans m L.head L.tail l) (hi : InOrder less i l) {N : ℕ} (hN : l.length ≤ N)
    (h0 : 0 < k) (hk : descents less l < 2^k) : ∃ s m', listSort less N L k m = some m' ∧ Spans m' L.head L.tail s ∧
      SameOutside (L.head::(l ++ [L.tail])) m m' ∧ s.Perm l ∧ s.Pairwise (placed less i · ·) := by
  induction k generalizing l m with
  | zero => exact absurd h0 (lt_irrefl 0)
  | succ k ih =>
    obtain ⟨a,v,hv⟩ := exists_first l L.tail
    obtain ⟨c,s,m₁,hpass,hm₁,hsame₁,hperm,his,hnil,hcons⟩ := sortPass_spans (l := []) hw i hm (by rw [hv,List.head?_cons]) hi hN hN
    have hstep : listSort less N L (k + 1) m = if c > 1 then listSort less N L k m₁ else some m₁ := by
      rw [listSort,listBegin,hm.next_head,hv,List.head?_cons,Option.bind_some,hpass,Option.bind_some]
    by_cases hc : c > 1
    · have hl : l ≠ [] := fun hc' => by
        rw [hnil hc'] at hc
        omega
      obtain ⟨h₁,h₂⟩ := hcons hl
      rw [pow_succ] at hk
      have hk0 : 0 < k := Nat.pos_of_ne_zero fun hz => by
        rw [hz] at hk
        omega
      obtain ⟨s',m',hrun,hm',hsame,hperm',hsorted⟩ := @ih m₁ s hm₁ his (by rw [hperm.length_eq]; exact hN) hk0 (by omega)
      refine ⟨s',m',by rw [hstep,if_pos hc,hrun],hm',?_,hperm'.trans hperm,hsorted⟩
      exact hsame₁.trans (hsame.mono fun x hx => ((hperm.append_right [L.tail]).cons L.head).mem_iff.mp hx)
    · refine ⟨s,m₁,by rw [hstep,if_neg hc],hm₁,hsame₁,hperm,?_⟩
      have hlow : descents less s = 0 := by
        by_cases hl : l = []
        · rw [(List.perm_nil.mp (hl ▸ hperm) : s = [])]
          rfl
        · have hle := (hcons hl).1
          omega
      exact (List.Pairwise.and (hw.pairwise (isChain_of_descents hlow)) his).imp fun h => placed_iff.mpr h

end

/-- `list_sort` sorts its list as a stable sort does; every pass halves the descents. -/
theorem listSort_eq {less : α → α → Bool} (hw : Weak less) (hm : Spans m L.head L.tail l) {N : ℕ} (hN : l.length ≤ N) (h0 : 0 < k)
    (hk : l.length < 2^k) : ∃ m', listSort less N L k m = some m' ∧ Spans m' L.head L.tail (l.mergeSort (notLess less)) ∧
      SameOutside (L.head::(l ++ [L.tail])) m m' := by
  have hnd : l.Nodup := (List.nodup_append.mp (List.nodup_cons.mp hm.nodup).2).1
  have hle := descents_le less l
  obtain ⟨s,m',hrun,hm',hsame,hperm,hsorted⟩ := listSort_spans hw l.idxOf hm (inOrder_idxOf hnd) hN h0 (hle.trans_lt hk)
  exact ⟨m',hrun,hw.eq_mergeSort hnd hperm hsorted ▸ hm',hsame⟩

/-- The passes of `list_sort` are no more than the logarithm of the length, and one. -/
theorem list_sort_passes {less : α → α → Bool} (hw : Weak less) (hm : Spans m L.head L.tail l) :
    ∃ m', listSort less l.length L (l.length.log2 + 1) m = some m' ∧ Spans m' L.head L.tail (l.mergeSort (notLess less)) ∧
      ∀ c ∉ L.head::(l ++ [L.tail]), m'.next c = m.next c ∧ m'.prev c = m.prev c :=
  listSort_eq hw hm le_rfl (Nat.succ_pos _) Nat.lt_log2_self

theorem list_sort_passes_five : ∃ m m' : Links (Fin 7), Spans m 0 6 [4,2,3,1,5] ∧
    listSort (fun a b => decide (a.val/2 < b.val/2)) 5 ⟨0,6⟩ 3 m = some m' ∧ Spans m' 0 6 [1,2,3,4,5] := by
  obtain ⟨m,hm⟩ : ∃ m : Links (Fin 7), m = ⟨fun c => [some 4,some 5,some 3,some 1,some 2,some 6,none].getD c.val none,
    fun c => [none,some 3,some 4,some 2,some 0,some 1,some 5].getD c.val none⟩ := ⟨_,rfl⟩
  have hholds : Spans m 0 6 [4,2,3,1,5] := by
    refine ⟨?_,by decide,by rw [hm]; decide,by rw [hm]; decide⟩
    rw [hm]
    simp [Threaded,Thread.Joined]
  have hweak : Weak fun a b : Fin 7 => decide (a.val/2 < b.val/2) := by
    refine ⟨fun a b c hab hbc => ?_,fun a b => ?_⟩
    · simp [notLess] at hab hbc ⊢
      omega
    · simp [notLess]
      omega
  obtain ⟨m',hrun,hm',-⟩ := list_sort_passes (L := ⟨0,6⟩) hweak hholds
  refine ⟨m,m',hholds,hrun,?_⟩
  have hsorted : [4,2,3,1,5].mergeSort (notLess fun a b : Fin 7 => decide (a.val/2 < b.val/2)) = [1,2,3,4,5] := by
    simp [notLess,List.mergeSort]
  exact hsorted ▸ hm'

/-! ### The other loops -/

theorem search_spans (hm : Spans m h t l) (hk : l.length ≤ k) : search found t m k (m.next h) = some ((l.find? found).getD t) := by
  rw [search_eq hm.threaded hm.tail_not_mem hk,List.head?_append,List.find?_eq_head?_dropWhile_not]
  cases (l.dropWhile fun c => !found c).head? <;> rfl

theorem listInsertOrdered_spans (less : α → α → Bool) (hm : Spans m L.head L.tail l) (he : e ∉ L.head::(l ++ [L.tail])) (hk : l.length ≤ k) :
    ∃ m', listInsertOrdered less k L e m = some m' ∧ Spans m' L.head L.tail (l.orderedInsert (less · ·) e) ∧
      SameOutside (e::L.head::(l ++ [L.tail])) m m' := by
  obtain ⟨u,hu⟩ : ∃ u, u = l.takeWhile fun c => !less e c := ⟨_,rfl⟩
  obtain ⟨r,hr⟩ : ∃ r, r = l.dropWhile fun c => !less e c := ⟨_,rfl⟩
  have hl : l = u ++ r := by rw [hu,hr,List.takeWhile_append_dropWhile]
  obtain ⟨n,v,hv⟩ := exists_first r L.tail
  have hfind : search (fun c => less e c) L.tail m k (listBegin L m) = some n := by
    rw [listBegin,search_eq hm.threaded hm.tail_not_mem hk,← hr,hv,List.head?_cons]
  obtain ⟨m',hrun,hm',hsame⟩ := listInsert_spans (hl ▸ hm) (hl ▸ he) (b := n) (by rw [hv,List.head?_cons])
  refine ⟨m',by rw [listInsertOrdered,hfind,Option.bind_some,hrun],?_,hl ▸ hsame⟩
  rw [List.orderedInsert_eq_take_drop]
  simpa [hu,hr] using hm'

/-- The first greatest element, or the end of an empty list. -/
def greatest (less : α → α → Bool) (t : α) : List α → α
  | [] => t
  | a::l => l.foldl (fun max e => if less max e then e else max) a

theorem listMax_eq {less : α → α → Bool} (hm : Spans m L.head L.tail l) (hk : l.length ≤ k) :
    listMax less k L m = some (greatest less L.tail l) := by
  unfold listMax
  rw [listBegin,hm.next_head]
  cases l with
  | nil => simp [greatest]
  | cons a l =>
    have hne : a ≠ L.tail := hm.ne_tail (List.mem_cons_of_mem _ List.mem_cons_self)
    have hrest : Threaded m (a::(l ++ [L.tail])) := (threaded_cons_cons.mp hm.threaded).2
    have hvis := visited_eq hrest (fun hc => hm.tail_not_mem (List.mem_cons_of_mem a hc)) (k := k) (by simp at hk; omega)
    rw [List.cons_append,List.head?_cons,Option.bind_some,if_neg hne,hvis,Option.map_some,greatest]

theorem listMin_eq {less : α → α → Bool} (hm : Spans m L.head L.tail l) (hk : l.length ≤ k) :
    listMin less k L m = some (greatest (fun a b => less b a) L.tail l) :=
  @listMax_eq _ _ L m l k (fun a b => less b a) hm hk

end
end ShellOS.Fs
