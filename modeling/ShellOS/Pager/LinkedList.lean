import ShellOS.Lib.Thread
import ShellOS.Lib.Refinement

/-! The lists of `linked_list.c` in which the kernel keeps its processes and pages. `none` is a null pointer, or one that
was never set, that is followed, and the exit of a `pop` on an empty list. -/
namespace ShellOS.Pager
open Thread Refinement

section model
variable {δ : Type}

/-- `LINKED_LIST`, without the function `equal`. -/
structure LinkedList where
  size : ℤ
  dummyHead : ℕ
  dummyTail : ℕ

/-- The nodes. The next node that `malloc` gives is `brk`; no node is freed. -/
structure Nodes (δ : Type) where
  links : Links ℕ
  data : ℕ → Option δ
  brk : ℕ

def listInit (s : Nodes δ) : LinkedList × Nodes δ :=
  let dummyHead := s.brk
  let dummyTail := s.brk + 1
  let m := (s.links.setNext dummyTail none).setNext dummyHead (some dummyTail)
  (⟨0,dummyHead,dummyTail⟩,⟨m.setPrev dummyTail (some dummyHead),s.data,s.brk + 2⟩)

def listClear (L : LinkedList) (s : Nodes δ) : LinkedList × Nodes δ :=
  ({ L with size := 0 },
    { s with links := (s.links.setNext L.dummyHead (some L.dummyTail)).setPrev L.dummyTail (some L.dummyHead) })

def addTail (data : δ) (L : LinkedList) (s : Nodes δ) : Option (LinkedList × Nodes δ) :=
  let newNode := s.brk
  (s.links.prev L.dummyTail).map fun oldTail =>
    let m := (s.links.setNext oldTail (some newNode)).setPrev newNode (some oldTail)
    let m := (m.setNext newNode (some L.dummyTail)).setPrev L.dummyTail (some newNode)
    ({ L with size := L.size + 1 },⟨m,Function.update s.data newNode (some data),s.brk + 1⟩)

def addHead (data : δ) (L : LinkedList) (s : Nodes δ) : Option (LinkedList × Nodes δ) :=
  let newNode := s.brk
  (s.links.next L.dummyHead).map fun oldHead =>
    let m := (s.links.setPrev oldHead (some newNode)).setNext newNode (some oldHead)
    let m := (m.setPrev newNode (some L.dummyHead)).setNext L.dummyHead (some newNode)
    ({ L with size := L.size + 1 },⟨m,Function.update s.data newNode (some data),s.brk + 1⟩)

/-- The neighbours of a node lead to each other, as at the end of `pop_head`, `pop_tail` and `remove_elem`. -/
def deleteNode (node : ℕ) (L : LinkedList) (s : Nodes δ) : Option (Option δ × LinkedList × Nodes δ) :=
  (s.links.prev node).bind fun p =>
    let m := s.links.setNext p (s.links.next node)
    (m.next node).map fun n => (s.data node,{ L with size := L.size - 1 },{ s with links := m.setPrev n (m.prev node) })

def popHead (L : LinkedList) (s : Nodes δ) : Option (Option δ × LinkedList × Nodes δ) :=
  if L.size ≤ 0 then none else (s.links.next L.dummyHead).bind fun node => deleteNode node L s

def popTail (L : LinkedList) (s : Nodes δ) : Option (Option δ × LinkedList × Nodes δ) :=
  if L.size ≤ 0 then none else (s.links.prev L.dummyTail).bind fun node => deleteNode node L s

/-- The loop of `get_node_by_value`. It goes on to the end of the list, whose data was never set. -/
def getNodeByValue (equal : δ → δ → Bool) (target : δ) (s : Nodes δ) : ℕ → Option ℕ → Option (Option ℕ)
  | _,none => some none
  | 0,some _ => none
  | n+1,some curr => (s.data curr).bind fun d =>
    if equal target d then some (some curr) else getNodeByValue equal target s n (s.links.next curr)

def removeElem (equal : δ → δ → Bool) (dataToDel : δ) (L : LinkedList) (s : Nodes δ) : Option (Option δ × LinkedList × Nodes δ) :=
  (getNodeByValue equal dataToDel s s.brk (s.links.next L.dummyHead)).bind fun node => node.bind fun node => deleteNode node L s

/-- The data that `while (has_next(&curr)) … next(&curr)` comes by. -/
def nextLoop (s : Nodes δ) : ℕ → ℕ → Option (List (Option δ))
  | n,curr => match s.links.next curr with
    | none => some []
    | some after => match n with
      | 0 => none
      | n+1 => (nextLoop s n after).map (s.data curr::·)

/-- The lists of the kernel. -/
inductive KernelList
  | queue
  | lruCache
  | allPcb
deriving DecidableEq

/-- The nodes and the three lists. -/
structure KernelLists (δ : Type) where
  nodes : Nodes δ
  list : KernelList → LinkedList

def kernelSetup : KernelLists δ :=
  let (queue,s) := listInit ⟨⟨fun _ => none,fun _ => none⟩,fun _ => none,0⟩
  let (lruCache,s) := listInit s
  let (allPcb,s) := listInit s
  ⟨s,fun
    | .queue => queue
    | .lruCache => lruCache
    | .allPcb => allPcb⟩

/-- What the kernel does with a list. -/
inductive ListCall (δ : Type)
  | addTail (i : KernelList) (data : δ)
  | addHead (i : KernelList) (data : δ)
  | popHead (i : KernelList)
  | popTail (i : KernelList)
  | removeElem (i : KernelList) (data : δ)
  | visit (i : KernelList)
  | clear (i : KernelList)

inductive ListReply (δ : Type)
  | done
  | data (d : Option δ)
  | all (l : List (Option δ))

def KernelLists.set (i : KernelList) (r : LinkedList × Nodes δ) (K : KernelLists δ) : KernelLists δ :=
  ⟨r.2,Function.update K.list i r.1⟩

def KernelLists.call (equal : KernelList → δ → δ → Bool) : ListCall δ → KernelLists δ → Option (ListReply δ × KernelLists δ)
  | .addTail i data,K => (Pager.addTail data (K.list i) K.nodes).map fun r => (.done,K.set i r)
  | .addHead i data,K => (Pager.addHead data (K.list i) K.nodes).map fun r => (.done,K.set i r)
  | .popHead i,K => (Pager.popHead (K.list i) K.nodes).map fun r => (.data r.1,K.set i r.2)
  | .popTail i,K => (Pager.popTail (K.list i) K.nodes).map fun r => (.data r.1,K.set i r.2)
  | .removeElem i data,K => (Pager.removeElem (equal i) data (K.list i) K.nodes).map fun r => (.data r.1,K.set i r.2)
  | .visit i,K => (K.nodes.links.next (K.list i).dummyHead).bind fun curr =>
    (nextLoop K.nodes K.nodes.brk curr).map fun l => (.all l,K)
  | .clear i,K => some (.done,K.set i (listClear (K.list i) K.nodes))

end model

/-! ### The sequences -/

section
variable {δ : Type} {equal : KernelList → δ → δ → Bool} {K : KernelLists δ} {s : Nodes δ} {seqs : KernelList → List δ}
  {i : KernelList} {d : δ} {m m' : Links ℕ}

/-- What the calls do to the sequences of data. Nothing is said of the removal of what is not there. -/
def callOnSeqs (equal : KernelList → δ → δ → Bool) :
    Unit → ListCall δ → (KernelList → List δ) → Outcome (ListReply δ × (KernelList → List δ))
  | _,.addTail i data,seqs => .ret (.done,Function.update seqs i (seqs i ++ [data]))
  | _,.addHead i data,seqs => .ret (.done,Function.update seqs i (data::seqs i))
  | _,.popHead i,seqs => match seqs i with
    | [] => .stop
    | d::l => .ret (.data (some d),Function.update seqs i l)
  | _,.popTail i,seqs => match (seqs i).getLast? with
    | none => .stop
    | some d => .ret (.data (some d),Function.update seqs i (seqs i).dropLast)
  | _,.removeElem i data,seqs => match (seqs i).find? (equal i data) with
    | none => .any
    | some d => .ret (.data (some d),Function.update seqs i ((seqs i).eraseP (equal i data)))
  | _,.visit i,seqs => .ret (.all ((seqs i).map some),seqs)
  | _,.clear i,seqs => .ret (.done,Function.update seqs i [])

/-- The nodes a list runs between. -/
def KernelLists.ends (K : KernelLists δ) (i : KernelList) : Ends ℕ := ⟨(K.list i).dummyHead,(K.list i).dummyTail⟩

/-- The lists of nodes `ls` have the data of the sequences. -/
structure Carries (K : KernelLists δ) (ls : KernelList → List ℕ) (seqs : KernelList → List δ) : Prop where
  lists : Lists K.ends K.nodes.links ls
  data : ∀ i, (ls i).map K.nodes.data = (seqs i).map some
  size : ∀ i, (K.list i).size = (seqs i).length
  below : ∀ i, ∀ c ∈ cells (K.ends i) (ls i), c < K.nodes.brk

variable {ls : KernelList → List ℕ} {L : LinkedList} {l u r : List ℕ} {l' : List δ} {a : ℕ}

theorem Carries.outside (h : Carries K ls seqs) : Outside K.ends ls K.nodes.brk := fun i hc => lt_irrefl _ (h.below i _ hc)

theorem Carries.length_eq (h : Carries K ls seqs) (i : KernelList) : (ls i).length = (seqs i).length := by
  have hlen := congrArg List.length (h.data i)
  rwa [List.length_map,List.length_map] at hlen

@[simp] theorem set_list (r : LinkedList × Nodes δ) (j : KernelList) : (K.set i r).list j = if j = i then r.1 else K.list j :=
  Function.update_apply ..

theorem ends_set (hL : L.dummyHead = (K.list i).dummyHead) (hL' : L.dummyTail = (K.list i).dummyTail) :
    (K.set i (L,s)).ends = K.ends := by
  funext j
  by_cases hji : j = i
  · subst hji
    rw [KernelLists.ends,KernelLists.ends,set_list,if_pos rfl,hL,hL']
  · rw [KernelLists.ends,KernelLists.ends,set_list,if_neg hji]

/-- One list changed, with its size and perhaps a new node. -/
theorem Carries.set (h : Carries K ls seqs) (hL : L.dummyHead = (K.list i).dummyHead) (hL' : L.dummyTail = (K.list i).dummyTail)
    (hlists : Lists K.ends s.links (Function.update ls i l)) (hkept : ∀ c < K.nodes.brk, s.data c = K.nodes.data c)
    (hdata : l.map s.data = l'.map some) (hsize : L.size = l'.length) (hbrk : K.nodes.brk ≤ s.brk) (hl : ∀ c ∈ l, c < s.brk) :
    Carries (K.set i (L,s)) (Function.update ls i l) (Function.update seqs i l') where
  lists := (ends_set hL hL').symm ▸ hlists
  data j := by
    by_cases hji : j = i
    · subst hji
      rw [Function.update_self,Function.update_self]
      exact hdata
    · rw [Function.update_of_ne hji,Function.update_of_ne hji,← h.data j]
      refine List.map_congr_left fun c hc => hkept c (h.below j c ?_)
      exact List.mem_cons_of_mem _ (List.mem_append_left _ hc)
  size j := by
    by_cases hji : j = i
    · subst hji
      rw [set_list,if_pos rfl,Function.update_self]
      exact hsize
    · rw [set_list,if_neg hji,Function.update_of_ne hji]
      exact h.size j
  below j c hc := by
    rw [ends_set hL hL'] at hc
    have hold : ∀ c ∈ cells (K.ends j) (ls j), c < s.brk := fun c hc => (h.below j c hc).trans_le hbrk
    by_cases hji : j = i
    · subst hji
      rw [Function.update_self,cells,List.mem_cons,List.mem_append] at hc
      rcases hc with hc | hc | hc
      · exact hold c (by simp [cells,hc])
      · exact hl c hc
      · exact hold c (by simp [cells,List.mem_singleton.mp hc])
    · rw [Function.update_of_ne hji] at hc
      exact hold c hc

/-- A new node is linked in between two others. -/
theorem Carries.link (h : Carries K ls seqs) (hi : ls i = u ++ r) {u' r' : List δ} (hseq : seqs i = u' ++ r') (hu : u.length = u'.length)
    (hlists : Lists K.ends m (Function.update ls i (u ++ K.nodes.brk::r))) :
    Carries (K.set i ({ K.list i with size := (K.list i).size + 1 },
      ⟨m,Function.update K.nodes.data K.nodes.brk (some d),K.nodes.brk + 1⟩)) (Function.update ls i (u ++ K.nodes.brk::r))
      (Function.update seqs i (u' ++ d::r')) := by
  have hkept : ∀ c < K.nodes.brk, Function.update K.nodes.data K.nodes.brk (some d) c = K.nodes.data c := fun c hc =>
    Function.update_of_ne hc.ne _ _
  have hcell : ∀ c ∈ ls i, c < K.nodes.brk := fun c hc => h.below i c (List.mem_cons_of_mem _ (List.mem_append_left _ hc))
  have hold := h.data i
  rw [hi,hseq,List.map_append,List.map_append] at hold
  obtain ⟨hleft,hright⟩ := List.append_inj hold (by rw [List.length_map,List.length_map,hu])
  refine h.set rfl rfl hlists hkept ?_ ?_ (Nat.le_succ _) fun c hc => ?_
  · dsimp only
    rw [List.map_append,List.map_append,List.map_cons,List.map_cons,Function.update_self,← hleft,← hright]
    congr 1
    · exact List.map_congr_left fun c hc => hkept c (hcell c (hi ▸ List.mem_append_left _ hc))
    · congr 1
      exact List.map_congr_left fun c hc => hkept c (hcell c (hi ▸ List.mem_append_right _ hc))
  · rw [h.size,hseq]
    simp
    omega
  · rcases List.mem_append.mp hc with hc | hc
    · exact (hcell c (hi ▸ List.mem_append_left _ hc)).trans (Nat.lt_succ_self _)
    · rcases List.mem_cons.mp hc with rfl | hc
      · exact Nat.lt_succ_self _
      · exact (hcell c (hi ▸ List.mem_append_right _ hc)).trans (Nat.lt_succ_self _)

/-- A node is deleted, and its data returned. -/
theorem Carries.delete (h : Carries K ls seqs) (hi : ls i = u ++ a::r) {u' r' : List δ} (hseq : seqs i = u' ++ d::r')
    (hu : u.length = u'.length) : ∃ q, deleteNode a (K.list i) K.nodes = some (some d,q) ∧
      Carries (K.set i q) (Function.update ls i (u ++ r)) (Function.update seqs i (u' ++ r')) := by
  obtain ⟨p,n,hp,hn,hpa,-,-,hlists,-⟩ := h.lists.unlink hi
  have hold := h.data i
  rw [hi,hseq,List.map_append,List.map_append,List.map_cons,List.map_cons] at hold
  obtain ⟨hleft,hright⟩ := List.append_inj hold (by rw [List.length_map,List.length_map,hu])
  obtain ⟨hd,hright⟩ := List.cons_eq_cons.mp hright
  have hnext : (K.nodes.links.setNext p (some n)).next a = some n := by rw [setNext_next,if_neg (Ne.symm hpa),hn]
  have hrun : deleteNode a (K.list i) K.nodes =
      some (some d,{ K.list i with size := (K.list i).size - 1 },{ K.nodes with links := K.nodes.links.link p n }) := by
    unfold deleteNode
    rw [hp,hn,Option.bind_some]
    dsimp only
    rw [hnext,Option.map_some,setNext_prev,hp,hd]
    rfl
  refine ⟨_,hrun,h.set rfl rfl hlists (fun _ _ => rfl) ?_ ?_ le_rfl fun c hc => ?_⟩
  · rw [List.map_append,List.map_append,hleft,hright]
  · rw [h.size,hseq]
    simp
    omega
  · refine h.below i c (List.mem_cons_of_mem _ (List.mem_append_left _ ?_))
    rw [hi]
    simp at hc ⊢
    tauto

theorem Carries.addTail (h : Carries K ls seqs) : ∃ q, Pager.addTail d (K.list i) K.nodes = some q ∧
    Carries (K.set i q) (Function.update ls i (ls i ++ [K.nodes.brk])) (Function.update seqs i (seqs i ++ [d])) := by
  obtain ⟨p,n,hp,-,-,-,-,hhead,hlists⟩ := h.lists.link (List.append_nil _).symm h.outside
  obtain rfl : (K.list i).dummyTail = n := Option.some.inj hhead
  refine ⟨_,?_,h.link (List.append_nil _).symm (List.append_nil _).symm (h.length_eq i) hlists⟩
  rw [Pager.addTail,hp]
  rfl

theorem Carries.addHead (h : Carries K ls seqs) : ∃ q, Pager.addHead d (K.list i) K.nodes = some q ∧
    Carries (K.set i q) (Function.update ls i (K.nodes.brk::ls i)) (Function.update seqs i (d::seqs i)) := by
  obtain ⟨p,n,-,hn,hpe,hne,hlast,-,hlists⟩ := h.lists.link (i := i) (u := []) (List.nil_append _).symm h.outside
  obtain rfl : (K.list i).dummyHead = p := Option.some.inj hlast
  refine ⟨_,?_,h.link (List.nil_append _).symm (List.nil_append _).symm rfl hlists⟩
  have hlinks : (((K.nodes.links.setPrev n (some K.nodes.brk)).setNext K.nodes.brk (some n)).setPrev K.nodes.brk
      (some (K.list i).dummyHead)).setNext (K.list i).dummyHead (some K.nodes.brk) =
      (K.nodes.links.link (K.list i).dummyHead K.nodes.brk).link K.nodes.brk n := by
    simp only [Links.link,Links.setNext,Links.setPrev,Links.mk.injEq]
    exact ⟨Function.update_comm hpe.symm _ _ _,Function.update_comm hne _ _ _⟩
  rw [Pager.addHead,hn,Option.map_some]
  dsimp only
  rw [hlinks]

theorem Carries.popHead (h : Carries K ls seqs) (hi : seqs i = d::l') : ∃ q ls', Pager.popHead (K.list i) K.nodes = some (some d,q) ∧
    Carries (K.set i q) ls' (Function.update seqs i l') := by
  obtain ⟨a,r,hl⟩ : ∃ a r, ls i = a::r := List.exists_cons_of_length_pos (by rw [h.length_eq,hi]; simp)
  obtain ⟨q,hrun,hq⟩ := h.delete (u := []) hl (show seqs i = [] ++ d::l' from hi) rfl
  have hsize : ¬(K.list i).size ≤ 0 := by
    rw [h.size,hi]
    simp
  have hnext : K.nodes.links.next (K.list i).dummyHead = some a := by
    have hhead := (h.lists.holds i).next_head
    rw [hl] at hhead
    exact hhead
  exact ⟨q,_,by rw [Pager.popHead,if_neg hsize,hnext,Option.bind_some,hrun],hq⟩

theorem Carries.popTail (h : Carries K ls seqs) (hi : seqs i = l' ++ [d]) : ∃ q ls', Pager.popTail (K.list i) K.nodes = some (some d,q) ∧
    Carries (K.set i q) ls' (Function.update seqs i l') := by
  have hne : ls i ≠ [] := List.ne_nil_of_length_pos (by rw [h.length_eq,hi]; simp)
  obtain ⟨r,a,hl⟩ := (List.eq_nil_or_concat' (ls i)).resolve_left hne
  have hlen := h.length_eq i
  rw [hl,hi,List.length_append,List.length_append] at hlen
  obtain ⟨q,hrun,hq⟩ := h.delete hl hi (Nat.add_right_cancel hlen)
  have hsize : ¬(K.list i).size ≤ 0 := by
    rw [h.size,hi]
    simp
  have hprev : K.nodes.links.prev (K.list i).dummyTail = some a := by
    have hlast := (h.lists.holds i).prev_tail
    rw [hl,← List.cons_append,List.getLast?_concat] at hlast
    exact hlast
  rw [List.append_nil l'] at hq
  exact ⟨q,_,by rw [Pager.popTail,if_neg hsize,hprev,Option.bind_some,hrun],hq⟩

/-- The loop finds the first node whose data is equal. -/
theorem getNodeByValue_eq {eq : δ → δ → Bool} {x t k : ℕ} {target : δ} (hm : Threaded s.links (x::(l ++ [t])))
    (hdata : l.map s.data = l'.map some) (hfind : l'.find? (eq target) = some d) (hk : l.length ≤ k) :
    ∃ u a r u' r', l = u ++ a::r ∧ l' = u' ++ d::r' ∧ u.length = u'.length ∧ l'.eraseP (eq target) = u' ++ r' ∧
      getNodeByValue eq target s k (s.links.next x) = some (some a) := by
  induction l generalizing x l' k with
  | nil =>
    obtain rfl : l' = [] := by simpa using hdata.symm
    simp at hfind
  | cons a l ih =>
    cases l' with
    | nil => simp at hfind
    | cons b l' =>
      obtain ⟨hj,hrest⟩ := threaded_cons_cons.mp hm
      obtain ⟨hb,hdata⟩ := List.cons_eq_cons.mp hdata
      cases k with
      | zero => simp at hk
      | succ k =>
        rw [hj.1,getNodeByValue,hb,Option.bind_some]
        by_cases heq : eq target b = true
        · obtain rfl : b = d := by simpa [List.find?_cons,heq] using hfind
          exact ⟨[],a,l,[],l',rfl,rfl,rfl,by rw [List.eraseP_cons_of_pos heq]; rfl,if_pos heq⟩
        · rw [List.find?_cons_of_neg heq] at hfind
          obtain ⟨u,a',r,u',r',rfl,rfl,hlen,herase,hrun⟩ := ih hrest hdata hfind (by simpa using hk)
          refine ⟨a::u,a',r,b::u',r',rfl,rfl,by simp [hlen],?_,by rw [if_neg heq,hrun]⟩
          rw [List.eraseP_cons_of_neg heq,herase]
          rfl

theorem Carries.length_le_brk (h : Carries K ls seqs) (i : KernelList) : (ls i).length ≤ K.nodes.brk := by
  have hnd : (ls i).Nodup := (List.nodup_append.mp (List.nodup_cons.mp (h.lists.holds i).nodup).2).1
  have hsub : ls i ⊆ List.range K.nodes.brk := fun c hc =>
    List.mem_range.mpr (h.below i c (List.mem_cons_of_mem _ (List.mem_append_left _ hc)))
  simpa using (hnd.subperm hsub).length_le

theorem Carries.removeElem {target : δ} (h : Carries K ls seqs) (hfind : (seqs i).find? (equal i target) = some d) :
    ∃ q ls', Pager.removeElem (equal i) target (K.list i) K.nodes = some (some d,q) ∧
      Carries (K.set i q) ls' (Function.update seqs i ((seqs i).eraseP (equal i target))) := by
  obtain ⟨u,a,r,u',r',hl,hl',hlen,herase,hnode⟩ := getNodeByValue_eq (h.lists.holds i).threaded (h.data i) hfind (h.length_le_brk i)
  obtain ⟨q,hrun,hq⟩ := h.delete hl hl' hlen
  have hnode : getNodeByValue (equal i) target K.nodes K.nodes.brk (K.nodes.links.next (K.list i).dummyHead) = some (some a) := hnode
  rw [herase]
  exact ⟨q,_,by rw [Pager.removeElem,hnode,Option.bind_some,Option.bind_some,hrun],hq⟩

theorem nextLoop_eq {x t k : ℕ} (hm : Threaded s.links (x::(l ++ [t]))) (ht : s.links.next t = none) (hk : l.length ≤ k) :
    ∃ y, s.links.next x = some y ∧ nextLoop s k y = some (l.map s.data) := by
  induction l generalizing x k with
  | nil =>
    refine ⟨t,(threaded_cons_cons.mp hm).1.1,?_⟩
    rw [nextLoop.eq_def]
    dsimp only
    rw [ht]
    rfl
  | cons a l ih =>
    obtain ⟨hj,hrest⟩ := threaded_cons_cons.mp hm
    cases k with
    | zero => simp at hk
    | succ k =>
      obtain ⟨y,hy,hrun⟩ := @ih a k hrest (by simpa using hk)
      refine ⟨a,hj.1,?_⟩
      rw [nextLoop,hy]
      dsimp only
      rw [hrun,Option.map_some,List.map_cons]

theorem Carries.clear (h : Carries K ls seqs) : Carries (K.set i (listClear (K.list i) K.nodes)) (Function.update ls i [])
    (Function.update seqs i []) :=
  h.set rfl rfl h.lists.clear (fun _ _ => rfl) rfl rfl le_rfl (by simp)

/-- The nodes of the three empty lists. -/
theorem cells_kernelSetup (i : KernelList) : cells ((kernelSetup : KernelLists δ).ends i) [] = match i with
    | .queue => [0,1]
    | .lruCache => [2,3]
    | .allPcb => [4,5] := by
  cases i <;> rfl

theorem carries_kernelSetup : Carries (kernelSetup : KernelLists δ) (fun _ => []) fun _ => [] where
  lists := by
    refine ⟨fun i => ⟨?_,?_,?_,?_⟩,fun i j c hi hj => ?_⟩
    · cases i <;> exact threaded_cons_cons.mpr ⟨⟨rfl,rfl⟩,.singleton _⟩
    · change (cells ((kernelSetup : KernelLists δ).ends i) []).Nodup
      rw [cells_kernelSetup]
      cases i <;> decide
    · cases i <;> rfl
    · cases i <;> rfl
    · rw [cells_kernelSetup] at hi hj
      cases i <;> cases j <;> simp at hi hj ⊢ <;> omega
  data _ := rfl
  size i := by cases i <;> rfl
  below i c hc := by
    change c < 6
    rw [cells_kernelSetup] at hc
    cases i <;> simp at hc <;> omega

/-- The pointers of the kernel's lists do to the sequences what the calls say. -/
theorem call_refines (equal : KernelList → δ → δ → Bool) :
    Refines (KernelLists.call equal) (callOnSeqs equal) fun K seqs => ∃ ls, Carries K ls seqs := by
  rintro c K seqs ⟨ls,h⟩
  refine ⟨(),?_⟩
  cases c with
  | addTail i d =>
    obtain ⟨q,hrun,hq⟩ := h.addTail (i := i) (d := d)
    rw [KernelLists.call,hrun]
    exact .ret _ ⟨_,hq⟩
  | addHead i d =>
    obtain ⟨q,hrun,hq⟩ := h.addHead (i := i) (d := d)
    rw [KernelLists.call,hrun]
    exact .ret _ ⟨_,hq⟩
  | popHead i =>
    rw [callOnSeqs]
    cases hi : seqs i with
    | nil =>
      have hsize : (K.list i).size ≤ 0 := by rw [h.size,hi]; rfl
      rw [KernelLists.call,popHead,if_pos hsize]
      exact .stop
    | cons d l =>
      obtain ⟨q,ls',hrun,hq⟩ := h.popHead hi
      rw [KernelLists.call,hrun]
      exact .ret _ ⟨_,hq⟩
  | popTail i =>
    rw [callOnSeqs]
    cases hi : (seqs i).getLast? with
    | none =>
      have hsize : (K.list i).size ≤ 0 := by rw [h.size,List.getLast?_eq_none_iff.mp hi]; rfl
      rw [KernelLists.call,popTail,if_pos hsize]
      exact .stop
    | some d =>
      obtain ⟨q,ls',hrun,hq⟩ := h.popTail (List.dropLast_append_getLast? d hi).symm
      rw [KernelLists.call,hrun]
      exact .ret _ ⟨_,hq⟩
  | removeElem i d =>
    rw [callOnSeqs]
    cases hfind : (seqs i).find? (equal i d) with
    | none => exact .any _
    | some x =>
      obtain ⟨q,ls',hrun,hq⟩ := h.removeElem hfind
      rw [KernelLists.call,hrun]
      exact .ret _ ⟨_,hq⟩
  | visit i =>
    obtain ⟨y,hy,hrun⟩ := nextLoop_eq (h.lists.holds i).threaded (h.lists.holds i).next_tail (h.length_le_brk i)
    have hy : K.nodes.links.next (K.list i).dummyHead = some y := hy
    rw [KernelLists.call,callOnSeqs,hy,Option.bind_some,hrun,h.data]
    exact .ret _ ⟨_,h⟩
  | clear i => exact .ret _ ⟨_,h.clear⟩

/-- Whatever the kernel does with its lists from their initialisation on, they stand for sequences of data. -/
theorem kernel_lists_refine_sequences (equal : KernelList → δ → δ → Bool) (cs : List (ListCall δ)) :
    ∃ ωs : List Unit, ωs.length = cs.length ∧ Meets (fun K seqs => ∃ ls, Carries K ls seqs)
      (run (KernelLists.call equal) cs kernelSetup) (specRun (callOnSeqs equal) (ωs.zip cs) fun _ => []) :=
  (call_refines equal).run ⟨_,carries_kernelSetup⟩ cs

end
end ShellOS.Pager
