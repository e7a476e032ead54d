import ShellOS.Fs.Growth

/-! `inode_reserve`: which places it fills, and how many sectors it takes doing so. -/
namespace ShellOS.Fs
open BlockTree

section
variable {ι κ : Type} {σ : ι → Kind} {τ : κ → Kind} {u v w : Volume} {T T' T'' : ι → BlockSector}

/-- The sectors missing at the places `L`, in order; `true` for an indirect block. -/
def demand (σ : ι → Kind) (L : List ι) (T : ι → BlockSector) : List Bool :=
  (L.filter fun s => T s = 0).map fun s => decide (σ s = .block)

/-- The allocations `D` were asked for one after the other: `ok` if there were enough free
sectors. Otherwise all of them are gone, and sector 0 was written if and only if the first
allocation to fail was for an indirect block. -/
def Takes (D : List Bool) (v w : Volume) (ok : Bool) : Prop :=
  if D.length ≤ numFreeSectors v then
    ok = true ∧ numFreeSectors w + D.length = numFreeSectors v ∧ Same v w 0
  else ok = false ∧ numFreeSectors w = 0 ∧
    if D[numFreeSectors v]? = some true then v.writes 0 < w.writes 0 else Same v w 0

theorem Takes.count_eq {D : List Bool} {ok : Bool} (h : Takes D v w ok) (hroom : D.length ≤ numFreeSectors v) :
    numFreeSectors w + D.length = numFreeSectors v := by
  rw [Takes,if_pos hroom] at h
  exact h.2.1

theorem Takes.nil (v : Volume) : Takes [] v v true := by
  rw [Takes,List.length_nil,if_pos (Nat.zero_le _)]
  exact ⟨rfl,rfl,Same.refl v 0⟩

theorem Takes.writes_le {D : List Bool} {ok : Bool} (h : Takes D v w ok) : v.writes 0 ≤ w.writes 0 := by
  unfold Takes at h
  split_ifs at h
  · exact h.2.2.2.ge
  · exact h.2.2.le
  · exact h.2.2.2.ge

theorem Takes.append {D E : List Bool} {ok : Bool} (h : Takes D u v true) (g : Takes E v w ok) :
    Takes (D ++ E) u w ok := by
  unfold Takes at h
  split_ifs at h with hD
  · obtain ⟨-,hn,hs⟩ := h
    unfold Takes at g ⊢
    rw [List.length_append]
    by_cases hE : E.length ≤ numFreeSectors v
    · rw [if_pos hE] at g
      rw [if_pos (by omega)]
      exact ⟨g.1,by omega,hs.trans g.2.2⟩
    · rw [if_neg hE] at g
      rw [if_neg (by omega),List.getElem?_append_right hD,
        show numFreeSectors u - D.length = numFreeSectors v by omega]
      refine ⟨g.1,g.2.1,?_⟩
      have g3 := g.2.2
      split_ifs at g3 ⊢
      · rw [← hs.2]
        exact g3
      · exact hs.trans g3
  · exact absurd h.1 (by decide)
  · exact absurd h.1 (by decide)

theorem Takes.append_fail {D : List Bool} (E : List Bool) (h : Takes D u v false) :
    Takes (D ++ E) u v false := by
  unfold Takes at h ⊢
  by_cases hD : D.length ≤ numFreeSectors u
  · rw [if_pos hD] at h
    exact absurd h.1 (by decide)
  · rw [if_neg hD] at h
    rw [List.length_append,if_neg (by omega),List.getElem?_append_left (by omega)]
    exact h

theorem demand_append (L M : List ι) : demand σ (L ++ M) T = demand σ L T ++ demand σ M T := by
  simp only [demand,List.filter_append,List.map_append]

theorem demand_congr {L : List ι} (h : ∀ s ∈ L, T' s = T s) : demand σ L T' = demand σ L T := by
  unfold demand
  rw [List.filter_congr fun s hs => by rw [h s hs]]

theorem demand_map {S : κ → BlockSector} (e : κ → ι) {L : List κ} (hσ : ∀ k, σ (e k) = τ k)
    (hT : ∀ k ∈ L, T (e k) = S k) : demand σ (L.map e) T = demand τ L S := by
  unfold demand
  rw [List.filter_map,List.map_map]
  rw [List.filter_congr (q := fun k => decide (S k = 0)) fun k hk => by
    simp only [Function.comp_apply,hT k hk]]
  exact List.map_congr_left fun k _ => by simp only [Function.comp_apply,hσ]

/-- A part of the code that fills the places `L`, with result `ok`. -/
structure Reserves (σ : ι → Kind) (L : List ι) (v w : Volume) (T T' : ι → BlockSector) (ok : Bool) :
    Prop where
  grows : Grows σ v w T T'
  takes : Takes (demand σ L T) v w ok
  mapped : ok = true → ∀ s ∈ L, T' s ≠ 0

theorem Reserves.nil (h : v.Ok) (ho : Owns v σ T) : Reserves σ [] v v T T true :=
  ⟨Grows.refl h ho,Takes.nil v,fun _ _ hs => absurd hs List.not_mem_nil⟩

/-- Nothing is missing. -/
theorem Reserves.done (h : v.Ok) (ho : Owns v σ T) {L : List ι} (hL : ∀ s ∈ L, T s ≠ 0) :
    Reserves σ L v v T T true := by
  refine ⟨Grows.refl h ho,?_,fun _ => hL⟩
  have hd : demand σ L T = [] := by
    unfold demand
    rw [List.filter_eq_nil_iff.mpr fun s hs => by simpa using hL s hs,List.map_nil]
  rw [hd]
  exact Takes.nil v

theorem Reserves.append {L M : List ι} {ok : Bool} (hu : u.Ok) (hL : ∀ s ∈ L, σ s ≠ .absent)
    (hM : ∀ s ∈ M, T' s = T s) (h : Reserves σ L u v T T' true) (g : Reserves σ M v w T' T'' ok) :
    Reserves σ (L ++ M) u w T T'' ok := by
  refine ⟨h.grows.trans hu g.grows,?_,?_⟩
  · rw [demand_append,← demand_congr hM]
    exact h.takes.append g.takes
  · intro hok s hs
    rcases List.mem_append.mp hs with hs | hs
    · have h1 := h.mapped rfl s hs
      rw [g.grows.keep s (hL s hs) h1]
      exact h1
    · exact g.mapped hok s hs

theorem Reserves.append_fail {L : List ι} (M : List ι) (h : Reserves σ L u v T T' false) :
    Reserves σ (L ++ M) u v T T' false := by
  refine ⟨h.grows,?_,fun hc => absurd hc (by decide)⟩
  rw [demand_append]
  exact h.takes.append_fail _

theorem Reserves.congr {L : List ι} {ok : Bool} (hL : ∀ s ∈ L, σ s ≠ .absent)
    (h : Reserves σ L v w T T' ok) (he : ∀ s, σ s ≠ .absent → T'' s = T' s) :
    Reserves σ L v w T T'' ok :=
  ⟨h.grows.congr he,h.takes,fun hok s hs => by rw [he s (hL s hs)]; exact h.mapped hok s hs⟩

theorem Reserves.lift {S S' : κ → BlockSector} (e : κ → ι) {L : List κ} {ok : Bool}
    (hσ : ∀ k, σ (e k) = τ k) (hL : ∀ k ∈ L, τ k ≠ .absent)
    (hT : ∀ k, τ k ≠ .absent → T (e k) = S k) (hT' : ∀ k, τ k ≠ .absent → T' (e k) = S' k)
    (hout : ∀ s, (∀ k, s ≠ e k) → σ s ≠ .absent → T' s = T s) (ho : Owns v σ T)
    (g : Reserves τ L v w S S' ok) : Reserves σ (L.map e) v w T T' ok := by
  refine ⟨g.grows.lift e hσ hT hT' hout ho,?_,?_⟩
  · rw [demand_map e hσ fun k hk => hT k (hL k hk)]
    exact g.takes
  · intro hok s hs
    obtain ⟨k,hk,rfl⟩ := List.mem_map.mp hs
    rw [hT' k (hL k hk)]
    exact g.mapped hok k hk

/-- One allocation for an empty place, or none because the map is full. -/
theorem alloc_reserves (h : v.Ok) (ho : Owns v σ T) {s : ι} (hs : σ s ≠ .absent) (h0 : T s = 0)
    [DecidableEq ι] :
    (freeMapAllocate 1 v = (none,v) ∧ numFreeSectors v = 0) ∨
    ∃ p v', freeMapAllocate 1 v = (some p,v') ∧ p ≠ 0 ∧
      (bufferCacheWrite p Sector.zeros v').sectors p = Sector.zeros ∧
      Reserves σ [s] v (bufferCacheWrite p Sector.zeros v') T (Function.update T s p) true := by
  have hz := h.zero_used
  rcases freeMapAllocate_spec h with ⟨he,hc⟩ | ⟨p,v',he,hp,-,hmap,hrel,hk⟩
  · exact Or.inl ⟨he,by rw [numFreeSectors,Bitmap.count_clear,hc,Finset.card_empty]⟩
  right
  have hp0 : p ≠ 0 := fun hc => hz.not_free (hc ▸ hp)
  have htest := Bitmap.test_setMultiple v.freeMap p.toNat 1 true (by have := hp.1; omega)
  have hused : ∀ t, Used v t → Used v' t := by
    intro t ht
    refine ⟨hk.bitCnt ▸ ht.1,?_⟩
    rw [hmap,htest]
    split
    · rfl
    · exact ht.2
  have hpu : Used v' p := by
    refine ⟨hk.bitCnt ▸ hp.1,?_⟩
    rw [hmap,htest,if_pos (by omega)]
  have hpn : ¬ FmNode v' p := by
    rw [hk.fmNode_iff]
    exact fun hc => (hc.used h.ready).not_free hp
  have hT : ∀ t, σ t ≠ .absent → T t ≠ p := by
    rintro t ht rfl
    exact (ho.used t ht hp0).not_free hp
  refine ⟨p,v',he,hp0,Function.update_self _ _ _,?_,?_,?_⟩
  · refine ⟨?_,hused,hrel,?_,?_,?_,?_⟩
    · refine Keeps.trans (hk.mono fun t ht => ht.elim) ((keeps_write hk.ok Sector.zeros hpn).mono ?_)
      rintro t rfl
      exact Or.inr (Or.inl ⟨hp,hpu⟩)
    · intro t ht ht0
      rw [Function.update_of_ne]
      rintro rfl
      exact ht0 h0
    · intro t ht ht0 ht1
      by_cases hts : t = s
      · rw [hts,Function.update_self]
        exact ⟨hp,hpu⟩
      · rw [Function.update_of_ne hts] at ht1
        exact absurd ht0 ht1
    · intro t t' ht ht' he ht0
      by_cases h1 : t = s <;> by_cases h2 : t' = s
      · rw [h1,h2]
      · rw [h1,Function.update_self,Function.update_of_ne h2] at he
        exact absurd he.symm (hT t' ht')
      · rw [h2,Function.update_self,Function.update_of_ne h1] at he
        exact absurd he (hT t ht)
      · rw [Function.update_of_ne h1] at he ht0
        rw [Function.update_of_ne h2] at he
        exact ho.inj t t' ht ht' he ht0
    · intro t ht ht0 ht1
      by_cases hts : t = s
      · rw [hts,Function.update_self]
        exact Function.update_self _ _ _
      · rw [Function.update_of_ne hts] at ht1
        exact absurd ht0 ht1
  · have hd : demand σ [s] T = [decide (σ s = .block)] := by simp [demand,h0]
    have hmem : p.toNat ∈ v.freeMap.clearBits := (Bitmap.mem_clearBits _ _).mpr hp
    have hpos : 0 < v.freeMap.clearBits.card := Finset.card_pos.mpr ⟨_,hmem⟩
    have hn : numFreeSectors (bufferCacheWrite p Sector.zeros v') + 1 = numFreeSectors v := by
      rw [numFreeSectors,numFreeSectors,Bitmap.count_clear,Bitmap.count_clear,
        show (bufferCacheWrite p Sector.zeros v').freeMap = v'.freeMap from rfl,hmap,
        Bitmap.clearBits_setMultiple_one _ hp.1,Finset.card_erase_of_mem hmem]
      omega
    have h00 : ¬ FmLeaf v 0 := fun hc => (hc.node h.ready).1 rfl
    rw [hd,Takes,if_pos (by simp only [List.length_singleton]; omega)]
    exact ⟨rfl,hn,(hk.frame 0 (fun hc => hc) h00).trans (same_write v' _ hp0.symm)⟩
  · intro _ t ht
    rw [List.mem_singleton.mp ht,Function.update_self]
    exact hp0

end

/-! ### Trees -/

/-- The sectors of a forest. -/
def forestPtr (v : Volume) (roots : ℕ → BlockSector) (s : Slot) : BlockSector :=
  node (childOf v) roots s.1 s.2

/-- What `inode_reserve_indirect` does to the tree below one pointer. -/
def ReservesTree (level m : ℕ) (v : Volume) (p : BlockSector) (r : Reserved) : Prop :=
  Reserves (treeShape level) (walk unitOf level m) v r.2.2 (follow (childOf v) p)
    (follow (childOf r.2.2) r.2.1) r.1

theorem walk_place {level m : ℕ} {π : List ℕ} (h : π ∈ walk unitOf level m) :
    treeShape level π ≠ .absent := treeShape_ne_absent.mpr (length_le_of_mem_walk h)

/-- Growth of one tree of a forest leaves the others alone. -/
theorem Grows.other_tree {v w : Volume} {lev : ℕ → ℕ} {roots : ℕ → BlockSector} {i : ℕ}
    {S' : List ℕ → BlockSector} (hv : v.Ok) (ho : Owns v (forestShape lev) (forestPtr v roots))
    (g : Grows (treeShape (lev i)) v w (follow (childOf v) (roots i)) S') {j : ℕ} {π : List ℕ}
    (hj : j ≠ i) (hπ : π.length ≤ lev j) :
    follow (childOf w) (roots j) π = follow (childOf v) (roots j) π := by
  apply follow_congr
  intro ρ a τ he
  have hρ : ρ.length < lev j := by
    have := congrArg List.length he
    simp only [List.length_append,List.length_cons] at this
    omega
  have hp : forestShape lev (j,ρ) ≠ .absent := treeShape_ne_absent.mpr hρ.le
  by_cases h0 : follow (childOf v) (roots j) ρ = 0
  · rw [h0,childOf_null v,childOf_null w]
  rw [childOf_of_ne w h0,childOf_of_ne v h0,(g.same h0 (ho.used (j,ρ) hp h0) ?_ ?_).1]
  · intro t ht he
    have hpt : forestShape lev (i,t) ≠ .absent := by
      rw [forestShape,ht]
      decide
    exact hj (Prod.mk.inj (ho.inj (i,t) (j,ρ) hpt hp he (fun h => h0 (he.symm.trans h)))).1.symm
  · exact fun hl => ho.apart (j,ρ) hp (hl.node hv.ready)

theorem Owns.tree {v : Volume} {lev : ℕ → ℕ} {roots : ℕ → BlockSector}
    (ho : Owns v (forestShape lev) (forestPtr v roots)) (i : ℕ) :
    Owns v (treeShape (lev i)) (follow (childOf v) (roots i)) where
  used π hπ h0 := ho.used (i,π) hπ h0
  apart π hπ := ho.apart (i,π) hπ
  inj π ρ hπ hρ he h0 := (Prod.mk.inj (ho.inj (i,π) (i,ρ) hπ hρ he h0)).2

/-- Growth of one tree as growth of the forest with the new root. -/
theorem Reserves.forest {v w : Volume} {lev : ℕ → ℕ} {roots : ℕ → BlockSector} (roots' : ℕ → BlockSector)
    {i : ℕ} {L : List (List ℕ)} {ok : Bool} (hv : v.Ok) (ho : Owns v (forestShape lev) (forestPtr v roots))
    (hL : ∀ π ∈ L, treeShape (lev i) π ≠ .absent)
    (g : Reserves (treeShape (lev i)) L v w (follow (childOf v) (roots i)) (follow (childOf w) (roots' i)) ok)
    (hr : ∀ j, j ≠ i → roots' j = roots j) :
    Reserves (forestShape lev) (L.map fun π => (i,π)) v w (forestPtr v roots) (forestPtr w roots') ok ∧
      ∀ s, forestShape lev s ≠ .absent → s.1 ≠ i → forestPtr w roots' s = forestPtr v roots s := by
  have hout : ∀ s, forestShape lev s ≠ .absent → s.1 ≠ i →
      forestPtr w roots' s = forestPtr v roots s := by
    rintro ⟨j,π⟩ hs hj
    unfold forestPtr node
    rw [hr j hj]
    exact g.grows.other_tree hv ho hj (treeShape_ne_absent.mp hs)
  refine ⟨g.lift (fun π => (i,π)) (fun _ => rfl) hL (fun _ _ => rfl) (fun _ _ => rfl) ?_ ho,hout⟩
  rintro ⟨j,π⟩ hs hp
  apply hout _ hp
  rintro rfl
  exact hs π rfl

/-- The places visited by the loop over the entries of a block. -/
def entryPlaces (level unit : ℕ) : ℕ → ℕ → ℕ → List Slot
  | 0,_,_ => []
  | k+1,i,m => (walk unitOf level (min m unit)).map (fun π => (i,π)) ++
      entryPlaces level unit k (i+1) (m - min m unit)

theorem mem_entryPlaces {level unit k i m : ℕ} {s : Slot} (h : s ∈ entryPlaces level unit k i m) :
    i ≤ s.1 ∧ s.1 < i + k ∧ s.2.length ≤ level := by
  induction k generalizing i m with
  | zero => simp [entryPlaces] at h
  | succ k ih =>
    rcases List.mem_append.mp h with h | h
    · obtain ⟨π,hπ,rfl⟩ := List.mem_map.mp h
      exact ⟨le_rfl,by omega,length_le_of_mem_walk hπ⟩
    · obtain ⟨h1,h2,h3⟩ := ih h
      exact ⟨by omega,by omega,h3⟩

/-- The loop over the entries, from what it does for one of them. -/
theorem reserveEntries_spec {alloc : Allocator} (roots : Sector → ℕ → BlockSector) (lev : ℕ → ℕ)
    {N level unit : ℕ} (hN : N ≤ 128) (hu : 0 < unit)
    (hroot : ∀ j < N, ∀ b, roots b j = Sector.word b j)
    (hset : ∀ i < N, ∀ b p j, j ≠ i → roots (Sector.setWord b i p) j = roots b j)
    (hentry : ∀ v p m, 0 < m → m ≤ unit → v.Ok → Owns v (treeShape level) (follow (childOf v) p) →
      ReservesTree level m v p (inodeReserveIndirect alloc level m p v))
    (k i m : ℕ) (blocks : Sector) (v : Volume) (hi : i + k ≤ N)
    (hlev : ∀ j, i ≤ j → j < i + k → lev j = level) (hm : unit * k < m + unit) (hv : v.Ok)
    (ho : Owns v (forestShape lev) (forestPtr v (roots blocks))) :
    let r := reserveEntries (inodeReserveIndirect alloc level) unit k i m blocks v
    Reserves (forestShape lev) (entryPlaces level unit k i m) v r.2.2 (forestPtr v (roots blocks))
        (forestPtr r.2.2 (roots r.2.1)) r.1 ∧
      (∀ s, forestShape lev s ≠ .absent → s.1 < i ∨ i + k ≤ s.1 →
        forestPtr r.2.2 (roots r.2.1) s = forestPtr v (roots blocks) s) ∧
      ∀ j, j < i ∨ i + k ≤ j → Sector.word r.2.1 j = Sector.word blocks j := by
  induction k generalizing i m blocks v with
  | zero => exact ⟨Reserves.nil hv ho,fun _ _ _ => rfl,fun _ _ => rfl⟩
  | succ k ih =>
    rw [Nat.mul_succ] at hm
    have hl := hlev i le_rfl (by omega)
    have htree := ho.tree i
    rw [hl,hroot i (by omega)] at htree
    have he := hentry v (Sector.word blocks i) (min m unit) (by omega) (by omega) hv htree
    rw [reserveEntries]
    rcases hr : inodeReserveIndirect alloc level (min m unit) (Sector.word blocks i) v with ⟨ok,p,w⟩
    rw [hr] at he
    -- this entry, as a step of the whole block
    obtain ⟨hstep,hother⟩ := Reserves.forest (roots (Sector.setWord blocks i p)) (i := i) hv ho
      (L := walk unitOf level (min m unit)) (w := w)
      (fun π hπ => by rw [hl]; exact walk_place hπ)
      (by rw [hl,hroot i (by omega),hroot i (by omega),Sector.word_setWord_self _ _ (by omega)]; exact he)
      (hset i (by omega) blocks p)
    have hplaces : ∀ s ∈ (walk unitOf level (min m unit)).map fun π => (i,π),
        forestShape lev s ≠ .absent := by
      intro s hs
      obtain ⟨π,hπ,rfl⟩ := List.mem_map.mp hs
      rw [forestShape,hl]
      exact walk_place hπ
    cases ok with
    | false =>
      refine ⟨hstep.append_fail _,fun s hs hj => hother s hs (by omega),fun j hj => ?_⟩
      exact Sector.word_setWord_ne _ _ (by omega)
    | true =>
      obtain ⟨h1,h2,h3⟩ := ih (i+1) (m - min m unit) (Sector.setWord blocks i p) w (by omega)
        (fun j hj hj' => hlev j (by omega) (by omega)) (by omega) hstep.grows.keeps.ok
        (hstep.grows.owns ho hv)
      refine ⟨hstep.append hv hplaces ?_ h1,?_,?_⟩
      · intro s hs
        obtain ⟨hs1,hs2,hs3⟩ := mem_entryPlaces hs
        refine hother s ?_ (by omega)
        rw [forestShape,hlev s.1 (by omega) (by omega)]
        exact treeShape_ne_absent.mpr hs3
      · intro s hs hj
        exact (h2 s hs (by omega)).trans (hother s hs (by omega))
      · intro j hj
        rw [h3 j (by omega),Sector.word_setWord_ne _ _ (by omega)]

theorem entryPlaces_eq (level unit k i m : ℕ) :
    (entryPlaces level unit k i m).map (fun s => s.1 :: s.2) = (List.range k).flatMap fun j =>
      (walk unitOf level (min (m - j * unit) unit)).map ((i + j) :: ·) := by
  induction k generalizing i m with
  | zero => rfl
  | succ k ih =>
    have hsub : ∀ j, m - min m unit - j * unit = m - (j + 1) * unit := by
      intro j
      rw [Nat.succ_mul]
      omega
    have hidx : ∀ j, i + 1 + j = i + (j + 1) := by omega
    rw [entryPlaces,List.map_append,ih,List.range_succ_eq_map,List.flatMap_cons,List.flatMap_map,
      List.map_map]
    simp only [Function.comp_def,Nat.zero_mul,Nat.sub_zero,Nat.add_zero,hsub,hidx,Nat.succ_eq_add_one]

theorem walk_succ (level m : ℕ) : walk unitOf (level+1) m = [] ::
    (entryPlaces level (unitOf (level+1)) (divRoundUp m (unitOf (level+1))) 0 m).map
      (fun s => s.1 :: s.2) := by
  rw [entryPlaces_eq,walk]
  simp only [divRoundUp,Nat.zero_add]

theorem tree_congr {level : ℕ} {T T' : List ℕ → BlockSector} (h0 : T' [] = T [])
    (h : ∀ i ρ, treeShape level ρ ≠ .absent → T' (i::ρ) = T (i::ρ)) :
    ∀ π, treeShape (level+1) π ≠ .absent → T' π = T π := by
  intro π hπ
  cases π with
  | nil => exact h0
  | cons i ρ => exact h i ρ (by rwa [treeShape_cons] at hπ)

theorem Owns.entries {v : Volume} {level : ℕ} {p : BlockSector} (hp : p ≠ 0)
    (ho : Owns v (treeShape (level+1)) (follow (childOf v) p)) :
    Owns v (forestShape fun _ => level) (forestPtr v (Sector.word (v.sectors p))) := by
  have hT : ∀ s : Slot, forestPtr v (Sector.word (v.sectors p)) s = follow (childOf v) p (s.1 :: s.2) := by
    intro s
    rw [follow_cons,childOf_of_ne v hp]
    rfl
  have hσ : ∀ s : Slot, treeShape (level+1) (s.1 :: s.2) = forestShape (fun _ => level) s :=
    fun s => treeShape_cons level s.1 s.2
  refine ⟨fun s hs h0 => ?_,fun s hs => ?_,fun s t hs ht he h0 => ?_⟩
  · rw [hT] at h0 ⊢
    exact ho.used _ (by rwa [hσ]) h0
  · rw [hT]
    exact ho.apart _ (by rwa [hσ])
  · rw [hT,hT] at he
    rw [hT] at h0
    have := ho.inj _ _ (by rwa [hσ]) (by rwa [hσ]) he h0
    exact Prod.ext (List.cons.inj this).1 (List.cons.inj this).2

/-- Growth of the entries of an existing block: on success the block is written back, otherwise
new entries are lost. -/
theorem Reserves.block {v w : Volume} {level : ℕ} {p : BlockSector} {blocks : Sector} {L : List Slot}
    {ok : Bool} (hv : v.Ok) (hp : p ≠ 0) (ho : Owns v (treeShape (level+1)) (follow (childOf v) p))
    (hL : ∀ s ∈ L, forestShape (fun _ => level) s ≠ .absent)
    (g : Reserves (forestShape fun _ => level) L v w (forestPtr v (Sector.word (v.sectors p)))
      (forestPtr w (Sector.word blocks)) ok) :
    Reserves (treeShape (level+1)) (L.map fun s => s.1 :: s.2) v
      (if ok then bufferCacheWrite p blocks w else w) (follow (childOf v) p)
      (follow (childOf (if ok then bufferCacheWrite p blocks w else w)) p) ok := by
  have hplace : ∀ s : Slot, treeShape (level+1) (s.1 :: s.2) = forestShape (fun _ => level) s :=
    fun s => treeShape_cons level s.1 s.2
  have hold : ∀ i ρ, follow (childOf v) p (i::ρ) = forestPtr v (Sector.word (v.sectors p)) (i,ρ) := by
    intro i ρ
    rw [follow_cons,childOf_of_ne v hp]
    rfl
  have hroot : treeShape (level+1) ([] : List ℕ) = .block := treeShape_block.mpr (Nat.succ_pos _)
  have hroot' : treeShape (level+1) ([] : List ℕ) ≠ .absent := by rw [hroot]; decide
  -- the tree with the new entries in place
  let T : List ℕ → BlockSector
    | [] => p
    | i::ρ => forestPtr w (Sector.word blocks) (i,ρ)
  have hlift : Reserves (treeShape (level+1)) (L.map fun s => s.1 :: s.2) v w (follow (childOf v) p) T
      ok := by
    have hT : ∀ s : Slot, forestShape (fun _ => level) s ≠ .absent →
        T (s.1 :: s.2) = forestPtr w (Sector.word blocks) s := fun _ _ => rfl
    refine g.lift (fun s => s.1 :: s.2) hplace hL ?_ hT ?_ ho
    · exact fun s _ => hold s.1 s.2
    · intro π hπ _
      cases π with
      | nil => rfl
      | cons i ρ => exact absurd rfl (hπ (i,ρ))
  have hL' : ∀ π ∈ L.map (fun s => s.1 :: s.2), treeShape (level+1) π ≠ .absent := by
    intro π hπ
    obtain ⟨s,hs,rfl⟩ := List.mem_map.mp hπ
    rw [hplace]
    exact hL s hs
  have how := hlift.grows.owns ho hv
  cases ok with
  | true =>
    have hwr := Grows.write hlift.grows.keeps.ok how hroot blocks
    have hgrow : Reserves (treeShape (level+1)) (L.map fun s => s.1 :: s.2) v (bufferCacheWrite p blocks w)
        (follow (childOf v) p) T true := by
      refine ⟨hlift.grows.trans hv hwr,?_,hlift.mapped⟩
      have ht := hlift.takes
      unfold Takes at ht ⊢
      split_ifs at ht ⊢
      · exact ⟨ht.1,ht.2.1,ht.2.2.trans (same_write w blocks hp.symm)⟩
      · exact absurd ht.1 (by decide)
      · exact absurd ht.1 (by decide)
    refine hgrow.congr hL' (tree_congr rfl ?_)
    intro i ρ hρ
    have hself : childOf (bufferCacheWrite p blocks w) p i = Sector.word blocks i := by
      rw [childOf_of_ne _ hp,bufferCacheWrite]
      dsimp only
      rw [Function.update_self]
    simp only [if_true]
    rw [follow_cons,hself]
    apply follow_congr
    intro τ j τ' he
    have hτ : treeShape (level+1) (i::τ) ≠ .absent := by
      have hlen := congrArg List.length he
      simp only [List.length_append,List.length_cons] at hlen
      rw [treeShape_ne_absent] at hρ ⊢
      simp only [List.length_cons]
      omega
    by_cases h0 : follow (childOf w) (Sector.word blocks i) τ = 0
    · rw [h0,childOf_null,childOf_null]
    · rw [childOf_of_ne _ h0,childOf_of_ne _ h0]
      have hne : follow (childOf w) (Sector.word blocks i) τ ≠ p := by
        intro hc
        have := how.inj (i::τ) [] hτ hroot' hc h0
        simp at this
      rw [(same_write w blocks hne).1]
  | false =>
    refine ⟨hlift.grows.forget ?_,hlift.takes,fun hc => absurd hc (by decide)⟩
    -- the block itself was not written, and neither were the pointers in it
    have hsame : w.sectors p = v.sectors p := by
      refine (g.grows.same hp (ho.used [] hroot' hp) ?_ ?_).1
      · intro s hs he
        have hs' : treeShape (level+1) (s.1 :: s.2) ≠ .absent := by
          rw [hplace,hs]
          decide
        have h1 : follow (childOf v) p (s.1 :: s.2) = follow (childOf v) p [] :=
          (hold s.1 s.2).trans he
        have := ho.inj _ _ hs' hroot' h1 (by rw [h1]; exact hp)
        simp at this
      · exact fun hl => ho.apart [] hroot' (hl.node hv.ready)
    intro π hπ
    cases π with
    | nil => exact Or.inl rfl
    | cons i ρ =>
      have hi : forestShape (fun _ => level) (i,[]) ≠ .absent :=
        treeShape_ne_absent.mpr (Nat.zero_le _)
      simp only [Bool.false_eq_true,if_false,hold]
      rw [follow_cons,childOf_of_ne w hp,hsame]
      by_cases h0 : Sector.word (v.sectors p) i = 0
      · right
        rw [forestPtr,node,h0]
        exact ⟨follow_null (childOf_null v) _,follow_null (childOf_null w) _⟩
      · left
        have hk : Sector.word blocks i = Sector.word (v.sectors p) i := g.grows.keep (i,[]) hi h0
        change _ = follow (childOf w) (Sector.word blocks i) ρ
        rw [hk]

end ShellOS.Fs
