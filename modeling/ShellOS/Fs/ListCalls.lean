import ShellOS.Fs.List

/-! Runs of calls on several lists, as the file table, the open inodes and the files kept by `defragment` are used side by
side. The pointers do to each list what its sequence of cells says. -/
namespace ShellOS.Fs
open Thread Refinement RunSort

theorem insertIdx_length {α : Type} (u r : List α) (e : α) : (u ++ r).insertIdx u.length e = u ++ e::r := by
  induction u with
  | nil => rfl
  | cons a u ih => rw [List.cons_append,List.length_cons,List.insertIdx_succ_cons,ih,List.cons_append]

section
variable {α ι : Type} [DecidableEq ι] [DecidableEq α] {H : ι → ListHeader α} {less : α → α → Bool} {m m' : Links α}
  {ls : ι → List α} {l s r u : List α} {i j : ι} {a b e : α} {k : ℕ}

/-- A cell leaves its list, and can go to another one; removing it again would change nothing. -/
theorem remove_lists (hls : Lists H m ls) (hi : ls i = u ++ a::r) : ∃ m', listRemove a m = some ((r ++ [(H i).tail]).head?,m') ∧
    Lists H m' (Function.update ls i (u ++ r)) ∧ Outside H (Function.update ls i (u ++ r)) a ∧
    listRemove a m' = some ((r ++ [(H i).tail]).head?,m') := by
  obtain ⟨p,n,hp,hn,hpa,hna,hhead,hls',hf⟩ := hls.unlink hi
  have hp' : (m.link p n).prev a = some p := by rw [link_prev,if_neg (Ne.symm hna),hp]
  have hn' : (m.link p n).next a = some n := by rw [link_next,if_neg (Ne.symm hpa),hn]
  refine ⟨m.link p n,by rw [listRemove_eq hp hn hpa,hhead],hls',hf,?_⟩
  rw [listRemove_eq hp' hn' hpa,hhead,link_idem]

/-- A cell comes just before another one, which may be the end. -/
theorem insert_lists (hls : Lists H m ls) (hi : ls i = u ++ r) (he : Outside H ls e) (hb : (r ++ [(H i).tail]).head? = some b) :
    ∃ m', listInsert b e m = some m' ∧ Lists H m' (Function.update ls i (u ++ e::r)) := by
  obtain ⟨p,n,hp,-,hpe,hne,-,hhead,hls'⟩ := hls.link hi he
  obtain rfl : n = b := Option.some.inj (hhead.symm.trans hb)
  exact ⟨_,listInsert_eq hp hne hpe,hls'⟩

theorem pushBack_lists (hls : Lists H m ls) (he : Outside H ls e) : ∃ m', listPushBack (H i) e m = some m' ∧
    Lists H m' (Function.update ls i (ls i ++ [e])) :=
  insert_lists hls (List.append_nil _).symm he rfl

theorem pushFront_lists (hls : Lists H m ls) (he : Outside H ls e) : ∃ m', listPushFront (H i) e m = some m' ∧
    Lists H m' (Function.update ls i (e::ls i)) := by
  obtain ⟨n,v,hv⟩ := exists_first (ls i) (H i).tail
  obtain ⟨m',hrun,hls'⟩ := insert_lists hls (u := []) rfl he (by rw [hv,List.head?_cons])
  have hnext : m.next (H i).head = some n := by rw [(hls.holds i).next_head,hv,List.head?_cons]
  exact ⟨m',by rw [listPushFront,listBegin,hnext,Option.bind_some,hrun],hls'⟩

theorem popFront_lists (hls : Lists H m ls) (hi : ls i = a::r) : ∃ m', listPopFront (H i) m = some (a,m') ∧
    Lists H m' (Function.update ls i r) ∧ ∃ q, listRemove a m' = some (q,m') := by
  obtain ⟨m',hrun,hls',-,hagain⟩ := remove_lists hls (u := []) hi
  have hnext : listFront (H i) m = some a := by rw [listFront,(hls.holds i).next_head,hi]; rfl
  exact ⟨m',by rw [listPopFront,hnext,Option.bind_some,hrun,Option.map_some],hls',_,hagain⟩

theorem popBack_lists (hls : Lists H m ls) (hi : ls i = u ++ [a]) : ∃ m', listPopBack (H i) m = some (a,m') ∧
    Lists H m' (Function.update ls i u) := by
  obtain ⟨m',hrun,hls',-⟩ := remove_lists hls hi
  have hprev : listBack (H i) m = some a := by
    rw [listBack,(hls.holds i).prev_tail,hi,← List.cons_append,List.getLast?_concat]
  exact ⟨m',by rw [listPopBack,hprev,Option.bind_some,hrun,Option.map_some],by simpa using hls'⟩

/-- `free_file_table` empties the table: its second removal of an entry does nothing. -/
theorem freeEntries_lists (hls : Lists H m ls) (hk : (ls i).length ≤ k) : ∃ m', freeEntries (H i) k m = some m' ∧
    Lists H m' (Function.update ls i []) := by
  induction k generalizing m ls with
  | zero =>
    have hnil : ls i = [] := List.length_eq_zero_iff.mp (by omega)
    refine ⟨m,by rw [freeEntries,listEmpty_eq (hls.holds i),hnil]; rfl,?_⟩
    rwa [← hnil,Function.update_eq_self]
  | succ k ih =>
    cases hi : ls i with
    | nil =>
      refine ⟨m,by rw [freeEntries,listEmpty_eq (hls.holds i),hi]; rfl,?_⟩
      rwa [← hi,Function.update_eq_self]
    | cons a r =>
      obtain ⟨m₁,hpop,hls₁,q,hagain⟩ := popFront_lists hls hi
      obtain ⟨m',hrun,hls'⟩ := @ih m₁ _ hls₁ (by rw [Function.update_self]; rw [hi] at hk; simpa using hk)
      refine ⟨m',?_,by rwa [Function.update_idem] at hls'⟩
      rw [freeEntries,listEmpty_eq (hls.holds i),hi]
      simp [hpop,hagain,hrun]

/-- What `list_unique` keeps after the element `a`, and what it takes out. -/
def uniqueSplit (less : α → α → Bool) (a : α) : List α → List α × List α
  | [] => ([],[])
  | b::l => if !less a b && !less b a then ((uniqueSplit less a l).1,b::(uniqueSplit less a l).2)
    else (b::(uniqueSplit less b l).1,(uniqueSplit less b l).2)

/-- Cells come to the end of the second list, where there is one. -/
def appendTo (dup : Option ι) (d : List α) (ls : ι → List α) : ι → List α :=
  match dup with
  | none => ls
  | some j => Function.update ls j (ls j ++ d)

theorem uniqueLoop_lists (less : α → α → Bool) {dup : Option ι} (hdup : ∀ j ∈ dup, j ≠ i) (hls : Lists H m ls) (hi : ls i = u ++ a::r) (hk : r.length ≤ k) :
    ∃ m', uniqueLoop less (H i).tail (dup.map H) k a m = some m' ∧
      Lists H m' (appendTo dup (uniqueSplit less a r).2 (Function.update ls i (u ++ a::(uniqueSplit less a r).1))) := by
  induction r generalizing a u ls m k with
  | nil =>
    have hcells : (H i).head::(ls i ++ [(H i).tail]) = ((H i).head::u) ++ a::(H i).tail::[] := by simp [hi]
    have hj := (hls.holds i).joined hcells
    have hsame : appendTo dup [] (Function.update ls i (u ++ [a])) = ls := by
      rw [← hi,Function.update_eq_self]
      cases dup with
      | none => rfl
      | some j => rw [appendTo,List.append_nil,Function.update_eq_self]
    refine ⟨m,?_,by rwa [uniqueSplit,hsame]⟩
    rw [uniqueLoop.eq_def]
    dsimp only
    rw [hj.1,Option.bind_some,if_pos rfl]
  | cons b r ih =>
    have hcells : (H i).head::(ls i ++ [(H i).tail]) = ((H i).head::u) ++ a::b::(r ++ [(H i).tail]) := by simp [hi]
    have hj := (hls.holds i).joined hcells
    have hbt : b ≠ (H i).tail := fun hc => (hls.holds i).tail_not_mem (by rw [hi,← hc]; simp)
    cases k with
    | zero => simp at hk
    | succ k =>
      rw [uniqueLoop,hj.1,Option.bind_some,if_neg hbt]
      dsimp only
      by_cases heq : (!less a b && !less b a) = true
      · obtain ⟨m₁,hrm,hls₁,hf,-⟩ := remove_lists hls (i := i) (u := u ++ [a]) (a := b) (r := r) (by simp [hi])
        rw [if_pos heq,hrm,Option.bind_some,uniqueSplit,if_pos heq]
        have hi₁ : Function.update ls i (u ++ [a] ++ r) i = u ++ a::r := by simp
        cases dup with
        | none =>
          obtain ⟨m',hrun,hls'⟩ := @ih m₁ _ u a k hls₁ hi₁ (by simpa using hk)
          rw [Function.update_idem] at hls'
          exact ⟨m',hrun,hls'⟩
        | some j =>
          have hji := hdup j rfl
          obtain ⟨m₂,hpush,hls₂⟩ := pushBack_lists hls₁ (i := j) hf
          obtain ⟨m',hrun,hls'⟩ := @ih m₂ _ u a k hls₂ (by rw [Function.update_of_ne hji.symm,hi₁]) (by simpa using hk)
          refine ⟨m',?_,?_⟩
          · simpa [hpush] using hrun
          · have hfinal : appendTo (some j) (uniqueSplit less a r).2 (Function.update (Function.update (Function.update ls i (u ++ [a] ++ r)) j
                (Function.update ls i (u ++ [a] ++ r) j ++ [b])) i (u ++ a::(uniqueSplit less a r).1)) =
                appendTo (some j) (b::(uniqueSplit less a r).2) (Function.update ls i (u ++ a::(uniqueSplit less a r).1)) := by
              funext x
              by_cases hxj : x = j
              · subst hxj
                simp [appendTo,hji]
              · by_cases hxi : x = i
                · subst hxi
                  simp [appendTo,hxj]
                · simp [appendTo,hxj,hxi]
            rwa [hfinal] at hls'
      · rw [if_neg heq,uniqueSplit,if_neg heq]
        obtain ⟨m',hrun,hls'⟩ := @ih m ls (u ++ [a]) b k hls (by simp [hi]) (by simpa using hk)
        exact ⟨m',hrun,by simpa using hls'⟩

/-! ### Runs of calls -/

/-- The calls, with the list that they are made on. -/
inductive ListCall (ι α : Type)
  | init (i : ι)
  | insert (i : ι) (before elem : α)
  | pushFront (i : ι) (elem : α)
  | pushBack (i : ι) (elem : α)
  | remove (i : ι) (elem : α)
  | popFront (i : ι)
  | popBack (i : ι)
  | front (i : ι)
  | back (i : ι)
  | size (i : ι)
  | empty (i : ι)
  | search (i : ι) (found : α → Bool)
  | reverse (i : ι)
  | sort (i : ι)
  | insertOrdered (i : ι) (elem : α)
  | unique (i : ι) (duplicates : Option ι)
  | max (i : ι)
  | min (i : ι)
  | freeEntries (i : ι)

/-- What a call returns. -/
inductive ListResult (α : Type)
  | done
  | cell (c : Option α)
  | number (n : ℕ)
  | bool (b : Bool)

/-- The calls on the cells; a loop that takes more rounds than there are cells does not end. -/
def callLinks [Fintype α] (less : α → α → Bool) (H : ι → ListHeader α) : ListCall ι α → Links α → Option (ListResult α × Links α)
  | .init i,m => some (.done,llistInit (H i) m)
  | .insert _ before elem,m => (listInsert before elem m).map fun m => (.done,m)
  | .pushFront i elem,m => (listPushFront (H i) elem m).map fun m => (.done,m)
  | .pushBack i elem,m => (listPushBack (H i) elem m).map fun m => (.done,m)
  | .remove _ elem,m => (listRemove elem m).map fun r => (.cell r.1,r.2)
  | .popFront i,m => (listPopFront (H i) m).map fun r => (.cell (some r.1),r.2)
  | .popBack i,m => (listPopBack (H i) m).map fun r => (.cell (some r.1),r.2)
  | .front i,m => some (.cell (listFront (H i) m),m)
  | .back i,m => some (.cell (listBack (H i) m),m)
  | .size i,m => (listSize (Fintype.card α) (H i) m).map fun n => (.number n,m)
  | .empty i,m => some (.bool (listEmpty (H i) m),m)
  | .search i found,m => (search found (H i).tail m (Fintype.card α) (listBegin (H i) m)).map fun c => (.cell (some c),m)
  | .reverse i,m => (listReverse (Fintype.card α) (H i) m).map fun m => (.done,m)
  | .sort i,m => (listSort less (Fintype.card α) (H i) (Fintype.card α) m).map fun m => (.done,m)
  | .insertOrdered i elem,m => (listInsertOrdered less (Fintype.card α) (H i) elem m).map fun m => (.done,m)
  | .unique i duplicates,m => (listUnique less (Fintype.card α) (H i) (duplicates.map H) m).map fun m => (.done,m)
  | .max i,m => (listMax less (Fintype.card α) (H i) m).map fun c => (.cell (some c),m)
  | .min i,m => (listMin less (Fintype.card α) (H i) m).map fun c => (.cell (some c),m)
  | .freeEntries i,m => (freeEntries (H i) (Fintype.card α) m).map fun m => (.done,m)

open Classical in
/-- What the calls do to the sequences of cells. Nothing is said of a cell that is inserted while it is in a list, or
removed while it is in none, and of an order that is no weak order. -/
noncomputable def callSeqs (less : α → α → Bool) (H : ι → ListHeader α) :
    Unit → ListCall ι α → (ι → List α) → Outcome (ListResult α × (ι → List α))
  | _,.init i,ls => .ret (.done,Function.update ls i [])
  | _,.insert i before elem,ls =>
    if Outside H ls elem ∧ before ∈ ls i ++ [(H i).tail] then
      .ret (.done,Function.update ls i ((ls i).insertIdx ((ls i).idxOf before) elem))
    else .any
  | _,.pushFront i elem,ls => if Outside H ls elem then .ret (.done,Function.update ls i (elem::ls i)) else .any
  | _,.pushBack i elem,ls => if Outside H ls elem then .ret (.done,Function.update ls i (ls i ++ [elem])) else .any
  | _,.remove i elem,ls =>
    if elem ∈ ls i then
      .ret (.cell ((ls i ++ [(H i).tail])[(ls i).idxOf elem + 1]?),Function.update ls i ((ls i).erase elem))
    else .any
  | _,.popFront i,ls => match ls i with
    | [] => .stop
    | a::l => .ret (.cell (some a),Function.update ls i l)
  | _,.popBack i,ls => match (ls i).getLast? with
    | none => .stop
    | some a => .ret (.cell (some a),Function.update ls i (ls i).dropLast)
  | _,.front i,ls => .ret (.cell (ls i ++ [(H i).tail]).head?,ls)
  | _,.back i,ls => .ret (.cell ((H i).head::ls i).getLast?,ls)
  | _,.size i,ls => .ret (.number (ls i).length,ls)
  | _,.empty i,ls => .ret (.bool (ls i).isEmpty,ls)
  | _,.search i found,ls => .ret (.cell (some (((ls i).find? found).getD (H i).tail)),ls)
  | _,.reverse i,ls => .ret (.done,Function.update ls i (ls i).reverse)
  | _,.sort i,ls => if Weak less then .ret (.done,Function.update ls i ((ls i).mergeSort (notLess less))) else .any
  | _,.insertOrdered i elem,ls =>
    if Outside H ls elem then .ret (.done,Function.update ls i ((ls i).orderedInsert (less · ·) elem)) else .any
  | _,.unique i duplicates,ls =>
    if ∀ j ∈ duplicates, j ≠ i then
      match ls i with
      | [] => .ret (.done,ls)
      | a::l => .ret (.done,appendTo duplicates (uniqueSplit less a l).2 (Function.update ls i (a::(uniqueSplit less a l).1)))
    else .any
  | _,.max i,ls => .ret (.cell (some (greatest less (H i).tail (ls i))),ls)
  | _,.min i,ls => .ret (.cell (some (greatest (fun a b => less b a) (H i).tail (ls i))),ls)
  | _,.freeEntries i,ls => .ret (.done,Function.update ls i [])

theorem llistInit_lists (hls : Lists H m ls) : Lists H (llistInit (H i) m) (Function.update ls i []) := by
  have hne : (H i).head ≠ (H i).tail := (hls.holds i).ne_tail List.mem_cons_self
  refine hls.update (s := [(H i).head,(H i).tail]) (holds_llistInit hne) (fun c hc => ?_) (fun c hc => .inl ?_) (by simp)
  · obtain ⟨hch,hct⟩ : c ≠ (H i).head ∧ c ≠ (H i).tail := by simpa using hc
    simp [llistInit,hch,hct]
  · simp [cells] at hc ⊢
    tauto

/-- Every call does to the sequences what it says. -/
theorem callLinks_refines [Fintype α] (less : α → α → Bool) (H : ι → ListHeader α) :
    Refines (callLinks less H) (callSeqs less H) fun m ls => Lists H m ls := by
  intro c m ls hls
  refine ⟨(),?_⟩
  have hcard : ∀ i, (ls i).length ≤ Fintype.card α := fun i => by
    have hlt := hls.length_lt i
    omega
  cases c with
  | init i => exact .ret _ (llistInit_lists hls)
  | insert i before elem =>
    rw [callSeqs]
    split
    · next hok =>
      obtain ⟨he,hb⟩ := hok
      obtain ⟨u,r,hi,hr,hu⟩ : ∃ u r, ls i = u ++ r ∧ (r ++ [(H i).tail]).head? = some before ∧ before ∉ u := by
        by_cases hmem : before ∈ ls i
        · obtain ⟨u,r,hi,hu⟩ := List.eq_append_cons_of_mem hmem
          exact ⟨u,before::r,hi,rfl,hu⟩
        · obtain rfl : before = (H i).tail := by simpa [hmem] using hb
          exact ⟨ls i,[],(List.append_nil _).symm,rfl,hmem⟩
      obtain ⟨m',hrun,hls'⟩ := insert_lists hls hi he hr
      have hplace : (ls i).insertIdx ((ls i).idxOf before) elem = u ++ elem::r := by
        have hidx : (ls i).idxOf before = u.length := by
          rw [hi,List.idxOf_append_of_notMem hu]
          cases r with
          | nil => simp
          | cons a r =>
            obtain rfl : a = before := by simpa using hr
            simp
        rw [hidx,hi,insertIdx_length]
      rw [callLinks,hrun,hplace]
      exact .ret _ hls'
    · exact .any _
  | pushFront i elem =>
    rw [callSeqs]
    split
    · next he =>
      obtain ⟨m',hrun,hls'⟩ := pushFront_lists hls (i := i) he
      rw [callLinks,hrun]
      exact .ret _ hls'
    · exact .any _
  | pushBack i elem =>
    rw [callSeqs]
    split
    · next he =>
      obtain ⟨m',hrun,hls'⟩ := pushBack_lists hls (i := i) he
      rw [callLinks,hrun]
      exact .ret _ hls'
    · exact .any _
  | remove i elem =>
    rw [callSeqs]
    split
    · next hmem =>
      obtain ⟨u,r,hi,hu⟩ := List.eq_append_cons_of_mem hmem
      obtain ⟨m',hrun,hls',-⟩ := remove_lists hls hi
      have hidx : (ls i).idxOf elem = u.length := by rw [hi,List.idxOf_append_of_notMem hu]; simp
      have hafter : (ls i ++ [(H i).tail])[(ls i).idxOf elem + 1]? = (r ++ [(H i).tail]).head? := by
        rw [hidx,hi,List.head?_eq_getElem?]
        simp
      have herase : (ls i).erase elem = u ++ r := by
        rw [hi,List.erase_append_right _ hu,List.erase_cons_head]
      rw [callLinks,hrun,hafter,herase]
      exact .ret _ hls'
    · exact .any _
  | popFront i =>
    rw [callSeqs]
    cases hi : ls i with
    | nil =>
      have hfront : listFront (H i) m = some (H i).tail := by rw [listFront,(hls.holds i).next_head,hi]; rfl
      rw [callLinks,listPopFront,hfront,Option.bind_some,listRemove_tail (hls.holds i)]
      exact .stop
    | cons a r =>
      obtain ⟨m',hrun,hls',-⟩ := popFront_lists hls hi
      rw [callLinks,hrun]
      exact .ret _ hls'
  | popBack i =>
    rw [callSeqs]
    cases hi : (ls i).getLast? with
    | none =>
      have hnil : ls i = [] := List.getLast?_eq_none_iff.mp hi
      have hback : listBack (H i) m = some (H i).head := by rw [listBack,(hls.holds i).prev_tail,hnil]; rfl
      rw [callLinks,listPopBack,hback,Option.bind_some,listRemove,(hls.holds i).prev_head]
      exact .stop
    | some a =>
      have hsplit : ls i = (ls i).dropLast ++ [a] := (List.dropLast_append_getLast? a hi).symm
      obtain ⟨m',hrun,hls'⟩ := popBack_lists hls hsplit
      rw [callLinks,hrun]
      exact .ret _ hls'
  | front i =>
    rw [callSeqs,callLinks,listFront,(hls.holds i).next_head]
    exact .ret _ hls
  | back i =>
    rw [callSeqs,callLinks,listBack,(hls.holds i).prev_tail]
    exact .ret _ hls
  | size i =>
    rw [callSeqs,callLinks,listSize_eq (hls.holds i) (hcard i)]
    exact .ret _ hls
  | empty i =>
    rw [callSeqs,callLinks,listEmpty_eq (hls.holds i)]
    exact .ret _ hls
  | search i found =>
    rw [callSeqs,callLinks,listBegin,search_spans (hls.holds i) (hcard i)]
    exact .ret _ hls
  | reverse i =>
    obtain ⟨m',hrun,hm',hsame⟩ := listReverse_spans (hls.holds i) (hcard i)
    rw [callSeqs,callLinks,hrun]
    exact .ret _ (hls.update_perm hm' hsame fun c hc => List.mem_reverse.mp hc)
  | sort i =>
    rw [callSeqs]
    split
    · next hw =>
      obtain ⟨m',hrun,hm',hsame⟩ := listSort_eq hw (hls.holds i) (hcard i) (by have hlt := hls.length_lt i; omega) ((hcard i).trans_lt Nat.lt_two_pow_self)
      rw [callLinks,hrun]
      exact .ret _ (hls.update_perm hm' hsame fun c hc => List.mem_mergeSort.mp hc)
    · exact .any _
  | insertOrdered i elem =>
    rw [callSeqs]
    split
    · next he =>
      obtain ⟨m',hrun,hm',hsame⟩ := listInsertOrdered_spans less (hls.holds i) (he i) (hcard i)
      rw [callLinks,hrun]
      refine .ret _ (hls.update hm' hsame (fun c hc => ?_) fun c hc => ?_)
      · rcases List.mem_cons.mp hc with rfl | hc
        · exact .inr he
        · exact .inl hc
      · rcases (List.mem_orderedInsert _).mp hc with rfl | hc
        · exact .inr he
        · exact .inl hc
    · exact .any _
  | unique i duplicates =>
    rw [callSeqs]
    split
    · next hdup =>
      cases hi : ls i with
      | nil =>
        rw [callLinks,listUnique,listEmpty_eq (hls.holds i),hi]
        exact .ret _ hls
      | cons a r =>
        obtain ⟨m',hrun,hls'⟩ := uniqueLoop_lists less (u := []) (k := Fintype.card α) hdup hls hi
          (by have hle := hcard i; rw [hi] at hle; simp at hle; omega)
        have hbegin : listBegin (H i) m = some a := by rw [listBegin,(hls.holds i).next_head,hi]; rfl
        rw [callLinks,listUnique,listEmpty_eq (hls.holds i),hi,hbegin]
        simp only [List.isEmpty_cons,Bool.false_eq_true,if_false,Option.bind_some,hrun]
        exact .ret _ hls'
    · exact .any _
  | max i =>
    rw [callSeqs,callLinks,listMax_eq (hls.holds i) (hcard i)]
    exact .ret _ hls
  | min i =>
    rw [callSeqs,callLinks,listMin_eq (hls.holds i) (hcard i)]
    exact .ret _ hls
  | freeEntries i =>
    obtain ⟨m',hrun,hls'⟩ := freeEntries_lists hls (hcard i)
    rw [callSeqs,callLinks,hrun]
    exact .ret _ hls'

/-- Whatever is called on lists that begin empty, the pointers stand for the sequences of cells after every call. -/
theorem list_calls_refine_sequences [Fintype α] (less : α → α → Bool) (h : Lists H m fun _ => []) (cs : List (ListCall ι α)) :
    ∃ ωs : List Unit, ωs.length = cs.length ∧
      Meets (fun m ls => Lists H m ls) (run (callLinks less H) cs m) (specRun (callSeqs less H) (ωs.zip cs) fun _ => []) :=
  (callLinks_refines less H).run h cs

theorem list_calls_refine_sequences_two : ∃ (m : Links (Fin 8)) (H : Bool → ListHeader (Fin 8)) (ωs : List Unit), ωs.length = 4 ∧
    Meets (fun m ls => Lists H m ls)
      (run (callLinks (fun a b => decide (a < b)) H) [.pushBack true 6,.pushFront true 5,.popFront true,.insertOrdered false 5] m)
      (specRun (callSeqs (fun a b => decide (a < b)) H)
        (ωs.zip [.pushBack true 6,.pushFront true 5,.popFront true,.insertOrdered false 5]) fun _ => []) := by
  obtain ⟨H,hH⟩ : ∃ H : Bool → ListHeader (Fin 8), H = fun i => if i then ⟨0,1⟩ else ⟨2,3⟩ := ⟨_,rfl⟩
  obtain ⟨m,hm⟩ : ∃ m : Links (Fin 8), m = llistInit (H false) ⟨fun _ => none,fun _ => none⟩ := ⟨_,rfl⟩
  have hfalse : Spans m (H false).head (H false).tail [] := hm ▸ holds_llistInit (by rw [hH]; decide)
  have hsame : SameOutside [(H true).head,(H true).tail] m (llistInit (H true) m) := fun c hc => by
    obtain ⟨hch,hct⟩ : c ≠ (H true).head ∧ c ≠ (H true).tail := by simpa using hc
    simp [llistInit,hch,hct]
  have hlists : Lists H (llistInit (H true) m) fun _ => [] := by
    refine ⟨fun i => ?_,fun i j c hi hj => ?_⟩
    · cases i with
      | true => exact holds_llistInit (by rw [hH]; decide)
      | false => exact hfalse.congr hsame (by rw [hH]; decide)
    · subst hH
      revert i j c
      decide
  obtain ⟨ωs,hlen,hmeets⟩ := list_calls_refine_sequences (fun a b => decide (a < b)) hlists
    [.pushBack true 6,.pushFront true 5,.popFront true,.insertOrdered false 5]
  exact ⟨_,H,ωs,hlen,hmeets⟩

end
end ShellOS.Fs
