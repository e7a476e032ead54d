import ShellOS.Shell.LaunchBuffers

/-! When the names of the backing store identify the launches of a session. -/
namespace ShellOS.Shell
open CLib

section
variable (home : List CString) (host : ℕ → Host) (prep : Launch → Store → Option CString × Store)

/-- The file that a launch's name stands for holds the script, as copied by this launch, until a
cleaning removes it. Where there was no script there is no file either. -/
def Kept (evs : List Event) : Prop := ∀ before l after rest name count,
  evs = before ++ .launch l::(after ++ rest) → count = (session home prep before .start).counter →
  (prep l (session home prep before .start)).1 = some name →
  (∀ file, (host count).locate name = some file → ¬ Removed home after file) →
  ((host count).locate name).bind (session home prep (before ++ .launch l::after) .start).files =
    l.contents.map fun c => (count,c)

end

section
variable (k : Copying) (home : List CString) (host : ℕ → Host)

/-- The counter after some events of a session. -/
def Copying.number (before : List Event) : ℕ := 1 + (launched k.always before).length

/-- A script can be copied as a whole to the file that its new name stands for. -/
def Copyable (host : Host) (count : ℕ) (script c : CString) : Prop :=
  (∀ b ∈ c, some b ≠ k.eof) ∧ ∃ file, host.locate (k.newName count script) = some file ∧
    (k.word host (k.newName count script)).bind host.locate = some file ∧ host.isDir file = false

/-- What the scripts of a session have to meet, of which `s` or `l` is launched before `t` or `m`. -/
structure Separate (evs : List Event) : Prop where
  names : ∀ i d s t x, (launched k.always evs)[i]? = some s → (launched k.always evs)[i + (d + 1)]? = some t →
    k.tag (1 + (i + (d + 1))) = x ++ k.tag (1 + i) → s ≠ t ++ x
  copied : ∀ before l after c, evs = before ++ .launch l::after → l.contents = some c →
    Copyable k (host (k.number before)) (k.number before) l.script c
  apart : ∀ before l mid m after i j dir x, evs = before ++ .launch l::(mid ++ .launch m::after) →
    ¬ k.Skips l → ¬ k.Skips m → (l.contents ≠ none ∨ m.contents ≠ none) →
    i = k.number before → j = k.number (before ++ .launch l::mid) →
    (host i).directory (storePath l.script) = some dir → (host j).directory (storePath m.script) = some dir →
    ¬ Removed home mid (dir ++ [baseName l.script ++ k.tag i]) →
    k.tag j = x ++ k.tag i → baseName l.script ≠ baseName m.script ++ x

/-- What the letters of the a3 shell and the digits of the a2 shell have in common. -/
structure Copying.Tagged : Prop where
  no_slash : ∀ n, 47 ∉ k.tag n
  grows : ∀ m n, 0 < m → m ≤ n → (k.tag m).length ≤ (k.tag n).length

end

/-- A name ends with the shorter tag, so the rest of it is that of the other name with what the longer
tag has more. -/
theorem Copying.Tagged.append_eq_iff {k : Copying} (hk : k.Tagged) {m n : ℕ} (hm : 0 < m) (h : m ≤ n) (s t : CString) :
    s ++ k.tag m = t ++ k.tag n ↔ ∃ x, k.tag n = x ++ k.tag m ∧ s = t ++ x := by
  constructor
  · intro he
    rcases List.append_eq_append_iff.mp he with ⟨x,rfl,hx⟩ | ⟨x,rfl,hx⟩
    · have hlen := hk.grows m n hm h
      obtain rfl : x = [] := by
        apply List.eq_nil_of_length_eq_zero
        have := congrArg List.length hx
        rw [List.length_append] at this
        omega
      exact ⟨[],by simpa using hx.symm,by simp⟩
    · exact ⟨x,hx,rfl⟩
  · rintro ⟨x,hx,rfl⟩
    rw [hx,List.append_assoc]

/-- The slash of the directory ends the name. -/
theorem baseName_storePath (script : CString) : baseName (storePath script) = baseName script := by
  have hstore : (storePath script).reverse = script.reverse ++ 47::(cstr "./backing_store").reverse := by
    rw [storePath,List.reverse_append]
    rfl
  rw [baseName,hstore,baseName,List.takeWhile_append]
  split_ifs with h
  · rw [List.takeWhile_cons_of_neg (by decide),List.append_nil,(List.takeWhile_prefix _).eq_of_length h]
  · rfl

section
variable {k : Copying} {home : List CString} {host : ℕ → Host}

theorem Copying.number_eq (before : List Event) :
    (session home (k.prepare host) before .start).counter = k.number before := session_counter _ _

theorem Copying.number_lt {l : Launch} (h : ¬ k.Skips l) (before mid : List Event) :
    k.number before < k.number (before ++ .launch l::mid) := by
  rw [number,number,launched_append,launched_launch h,List.length_append,List.length_cons]
  omega

theorem locate_newName (hk : k.Tagged) (h : Host) (count : ℕ) (script : CString) (file : List CString) :
    h.locate (k.newName count script) = some file ↔
      ∃ dir, h.directory (storePath script) = some dir ∧ file = dir ++ [baseName script ++ k.tag count] := by
  rw [Copying.newName,locate_storePath (hk.no_slash count),Option.map_eq_some_iff,baseName_storePath]
  exact exists_congr fun dir => and_congr_right fun _ => eq_comm

theorem target_eq_some_iff (h : Host) (count : ℕ) (script : CString) (file : List CString) :
    k.target h count script = some file ↔
      (k.word h (k.newName count script)).bind h.locate = some file ∧ h.isDir file = false := by
  rw [Copying.target,Option.filter_eq_some_iff,Bool.not_eq_true']

theorem copied_eq_iff (c : CString) : k.copied c = c ↔ ∀ b ∈ c, some b ≠ k.eof := by
  rw [Copying.copied,List.takeWhile_eq_self_iff]
  exact forall₂_congr fun b _ => bne_iff_ne

/-- The file that a launch writes is the one of its name. -/
theorem Copyable.locate_of_writes {l : Launch} {count : ℕ} {file : List CString}
    (h : ∀ c, l.contents = some c → Copyable k (host count) count l.script c) (hw : Writes k host count l file) :
    (host count).locate (k.newName count l.script) = some file := by
  obtain ⟨c,hc⟩ := Option.ne_none_iff_exists'.mp hw.1
  obtain ⟨-,own,hown,hword,-⟩ := h c hc
  have hfile := ((target_eq_some_iff _ _ _ _).mp hw.2).1
  rw [hword] at hfile
  rw [hown,hfile]

theorem Copyable.writes {l : Launch} {count : ℕ} {c : CString} {file : List CString} (hc : l.contents = some c)
    (h : Copyable k (host count) count l.script c) (hfile : (host count).locate (k.newName count l.script) = some file) :
    Writes k host count l file := by
  obtain ⟨-,own,hown,hword,hdir⟩ := h
  obtain rfl := Option.some.inj (hown.symm.trans hfile)
  exact ⟨by simp [hc],(target_eq_some_iff _ _ _ _).mpr ⟨hword,hdir⟩⟩

/-! ### The names -/

theorem nodup_iff (hk : k.Tagged) (scripts : List CString) :
    (scripts.mapIdx fun i s => k.newName (1 + i) s).Nodup ↔ ∀ i d s t x, scripts[i]? = some s →
      scripts[i + (d + 1)]? = some t → k.tag (1 + (i + (d + 1))) = x ++ k.tag (1 + i) → s ≠ t ++ x := by
  rw [List.nodup_iff_getElem?_ne_getElem?]
  simp only [List.length_mapIdx,List.getElem?_mapIdx]
  constructor
  · intro h i d s t x hs ht hx he
    have hlt : i + (d + 1) < scripts.length := (List.getElem?_eq_some_iff.mp ht).1
    have hsame := (hk.append_eq_iff (by omega) (by omega : 1 + i ≤ 1 + (i + (d + 1))) s t).mpr ⟨x,hx,he⟩
    refine h i (i + (d + 1)) (by omega) hlt ?_
    rw [hs,ht,Option.map_some,Option.map_some,Copying.newName,Copying.newName,storePath,storePath,
      List.append_assoc,List.append_assoc,hsame]
  · intro h i j hij hj he
    obtain ⟨d,rfl⟩ := Nat.exists_eq_add_of_lt hij
    have hi : i < scripts.length := by omega
    rw [List.getElem?_eq_getElem hi,List.getElem?_eq_getElem hj,Option.map_some,Option.map_some,Option.some.injEq,
      Copying.newName,Copying.newName,storePath,storePath,List.append_assoc,List.append_assoc] at he
    have hsame := List.append_cancel_left he
    obtain ⟨x,hx,hs⟩ := (hk.append_eq_iff (by omega) (by omega : 1 + i ≤ 1 + (i + d + 1)) _ _).mp hsame
    exact h i d _ _ x (List.getElem?_eq_getElem hi) (List.getElem?_eq_getElem hj) hx hs

/-! ### The files -/

theorem prepare_name {l : Launch} (h : ¬ k.Skips l) (st : Store) :
    (k.prepare host l st).1 = some (k.newName st.counter l.script) := by
  rw [Copying.prepare,if_neg h]

/-- What `Kept` says of a launch with a name. -/
theorem Kept.files {evs : List Event} (h : Kept home host (k.prepare host) evs) {before rest : List Event}
    {l : Launch} (after : List Event) (he : evs = before ++ .launch l::(after ++ rest)) (hl : ¬ k.Skips l)
    (hrem : ∀ file, (host (k.number before)).locate (k.newName (k.number before) l.script) = some file →
      ¬ Removed home after file) :
    ((host (k.number before)).locate (k.newName (k.number before) l.script)).bind
      (session home (k.prepare host) (before ++ .launch l::after) .start).files =
        l.contents.map fun c => (k.number before,c) := by
  have hcount := @Copying.number_eq k home host before
  refine h before l after rest _ _ he hcount.symm ?_ hrem
  rw [prepare_name hl,hcount]

theorem session_launch (before : List Event) (l : Launch) :
    session home (k.prepare host) (before ++ [.launch l]) .start =
      (k.prepare host l (session home (k.prepare host) before .start)).2 := by
  rw [session_append]
  rfl

theorem Kept.copied {evs : List Event} (h : Kept home host (k.prepare host) evs) {before after : List Event}
    {l : Launch} {c : CString} (he : evs = before ++ .launch l::after) (hc : l.contents = some c) :
    Copyable k (host (k.number before)) (k.number before) l.script c := by
  have hskip : ¬ k.Skips l := fun hs => by simp [hs.1] at hc
  have hown := h.files [] he hskip fun _ _ hr => by simp [Removed] at hr
  rw [hc,Option.map_some] at hown
  obtain ⟨file,hfile,htext⟩ := Option.bind_eq_some_iff.mp hown
  rw [session_launch] at htext
  have hcount := @Copying.number_eq k home host before
  by_cases hw : Writes k host (k.number before) l file
  · rw [← hcount] at hw htext
    rw [prepare_files hc hw.2,Option.some.injEq,Prod.mk.injEq] at htext
    obtain ⟨hword,hdir⟩ := (target_eq_some_iff _ _ _ _).mp hw.2
    rw [hcount] at hword
    exact ⟨(copied_eq_iff c).mp htext.2,file,hfile,hword,by rw [← hcount]; exact hdir⟩
  · -- the text was there before, from a launch with a smaller number
    rw [prepare_files_of_not (by rwa [hcount])] at htext
    obtain ⟨b,m,a,hb,hnum,hwm,-⟩ := exists_writer before htext
    rw [Copying.number_eq] at hnum
    have hlt := Copying.number_lt hwm.not_skips b a
    rw [← hb] at hlt
    omega

theorem Kept.apart (hk : k.Tagged) {evs : List Event} (h : Kept home host (k.prepare host) evs)
    {before mid after : List Event} {l m : Launch} {dir : List CString} {x : CString}
    (he : evs = before ++ .launch l::(mid ++ .launch m::after)) (hl : ¬ k.Skips l) (hm : ¬ k.Skips m)
    (hsome : l.contents ≠ none ∨ m.contents ≠ none)
    (hdl : (host (k.number before)).directory (storePath l.script) = some dir)
    (hdm : (host (k.number (before ++ .launch l::mid))).directory (storePath m.script) = some dir)
    (hrem : ¬ Removed home mid (dir ++ [baseName l.script ++ k.tag (k.number before)]))
    (hx : k.tag (k.number (before ++ .launch l::mid)) = x ++ k.tag (k.number before)) :
    baseName l.script ≠ baseName m.script ++ x := by
  intro hbase
  have hlt := Copying.number_lt hl before mid
  have hel : evs = before ++ .launch l::((mid ++ [.launch m]) ++ after) := by rw [he]; simp
  have hem : evs = (before ++ .launch l::mid) ++ .launch m::after := by rw [he]; simp
  have hlast : before ++ .launch l::(mid ++ [.launch m]) = (before ++ .launch l::mid) ++ [.launch m] := by simp
  have hsame : baseName l.script ++ k.tag (k.number before) =
      baseName m.script ++ k.tag (k.number (before ++ .launch l::mid)) := by rw [hbase,hx,List.append_assoc]
  have hfl := (locate_newName hk _ (k.number before) l.script _).mpr ⟨dir,hdl,rfl⟩
  have hfm := (locate_newName hk _ (k.number (before ++ .launch l::mid)) m.script _).mpr ⟨dir,hdm,rfl⟩
  rw [← hsame] at hfm
  generalize hi : k.number before = i at *
  generalize hj : k.number (before ++ .launch l::mid) = j at *
  generalize hfile : dir ++ [baseName l.script ++ k.tag i] = file at *
  have hnext : (session home (k.prepare host) (before ++ .launch l::mid) .start).counter = j := by
    rw [Copying.number_eq,hj]
  cases hc : m.contents with
  | some c =>
    -- the later launch has written the earlier one's file
    have hw := Copyable.writes hc (hj ▸ h.copied hem hc) hfm
    have hkept := h.files (mid ++ [.launch m]) hel hl (by
      rw [hi,hfl]
      intro found hfound hr
      obtain rfl := Option.some.inj hfound
      exact hrem ⟨by simpa using hr.1,hr.2⟩)
    rw [hi,hfl,Option.bind_some,hlast,session_launch,prepare_files hc (by rw [hnext]; exact hw.2),hnext] at hkept
    obtain ⟨_,-,hcl⟩ := Option.map_eq_some_iff.mp hkept.symm
    have := (Prod.mk.inj hcl).1
    omega
  | none =>
    -- the later launch has no script, and finds that of the earlier one
    have hcl : l.contents ≠ none := hsome.resolve_right (by simp [hc])
    obtain ⟨c,hcl⟩ := Option.ne_none_iff_exists'.mp hcl
    have hkept := h.files mid he hl (by
      rw [hi,hfl]
      intro found hfound
      obtain rfl := Option.some.inj hfound
      exact hrem)
    rw [hi,hfl,Option.bind_some,hcl,Option.map_some] at hkept
    have hempty := h.files [] hem hm fun _ _ hr => by simp [Removed] at hr
    rw [hj,hfm,Option.bind_some,session_launch,hc,Option.map_none,
      prepare_files_of_not (fun hw => hw.1 hc),hkept] at hempty
    exact absurd hempty (by simp)

/-- Of two launches neither of which is to be found under the other's name, the later does not write
the file that the earlier one finds, nor does the earlier leave one for the later. -/
theorem Separate.not_writes (hk : k.Tagged) {evs : List Event} (h : Separate k home host evs)
    {before mid after : List Event} {l m : Launch} {file : List CString}
    (he : evs = before ++ .launch l::(mid ++ .launch m::after)) (hl : ¬ k.Skips l) (hm : ¬ k.Skips m)
    (hsome : l.contents ≠ none ∨ m.contents ≠ none)
    (hfl : (host (k.number before)).locate (k.newName (k.number before) l.script) = some file)
    (hrem : ¬ Removed home mid file) :
    (host (k.number (before ++ .launch l::mid))).locate
      (k.newName (k.number (before ++ .launch l::mid)) m.script) ≠ some file := by
  intro hfm
  have hlt := Copying.number_lt hl before mid
  obtain ⟨dir,hdl,rfl⟩ := (locate_newName hk _ _ _ _).mp hfl
  obtain ⟨dir',hdm,hfile⟩ := (locate_newName hk _ _ _ _).mp hfm
  obtain ⟨rfl,hlast⟩ := List.append_inj' hfile rfl
  have hpos : 0 < k.number before := by rw [Copying.number]; omega
  obtain ⟨x,hx,hbase⟩ := (hk.append_eq_iff hpos hlt.le _ _).mp (List.cons.inj hlast).1
  exact h.apart before l mid m after _ _ dir x he hl hm hsome rfl rfl hdl hdm hrem hx hbase

theorem Separate.kept (hk : k.Tagged) {evs : List Event} (h : Separate k home host evs) :
    Kept home host (k.prepare host) evs := by
  rintro before l after rest name count he rfl hname hrem
  have hl : ¬ k.Skips l := fun hs => by simp [Copying.prepare,if_pos hs] at hname
  have hcount := @Copying.number_eq k home host before
  rw [prepare_name hl,hcount] at hname
  obtain rfl := Option.some.inj hname
  rw [hcount] at hrem ⊢
  have hcopied := fun c hc => h.copied before l (after ++ rest) c he hc
  cases hfile : (host (k.number before)).locate (k.newName (k.number before) l.script) with
  | none =>
    cases hc : l.contents with
    | none => rfl
    | some c =>
      obtain ⟨-,file,hown,-⟩ := hcopied c hc
      exact absurd (hfile.symm.trans hown) (by simp)
  | some file =>
    have hkeep := hrem file hfile
    -- no later launch writes the file
    have hafter : (session home (k.prepare host) (before ++ .launch l::after) .start).files file =
        (k.prepare host l (session home (k.prepare host) before .start)).2.files file := by
      rw [show before ++ .launch l::after = (before ++ [.launch l]) ++ after by simp,session_append,session_launch]
      refine session_files_of_not after _ hkeep fun b m a hb hw => ?_
      rw [← session_launch,← session_append,Copying.number_eq,
        show before ++ [.launch l] ++ b = before ++ .launch l::b by simp] at hw
      have hem : evs = before ++ .launch l::(b ++ .launch m::(a ++ rest)) := by rw [he,hb]; simp
      have hem' : evs = (before ++ .launch l::b) ++ .launch m::(a ++ rest) := by rw [hem]; simp
      have hfm := Copyable.locate_of_writes (fun c hc => h.copied _ m _ c hem' hc) hw
      refine h.not_writes hk hem hl hw.not_skips (.inr hw.1) hfile (fun hr => hkeep ?_) hfm
      exact hb ▸ ⟨List.mem_append_left _ hr.1,hr.2⟩
    rw [Option.bind_some,hafter]
    cases hc : l.contents with
    | some c =>
      obtain ⟨hw,ht⟩ := Copyable.writes hc (hcopied c hc) hfile
      rw [← hcount] at ht
      rw [prepare_files hc ht,hcount,(copied_eq_iff c).mpr (hcopied c hc).1,Option.map_some]
    | none =>
      rw [prepare_files_of_not fun hw => hw.1 hc,Option.map_none]
      -- nor has an earlier one left it
      cases htext : (session home (k.prepare host) before .start).files file with
      | none => rfl
      | some written =>
        obtain ⟨b,m,a,hb,hnum,hw,hkept⟩ := exists_writer before htext
        rw [hnum,Copying.number_eq] at hw
        have hem : evs = b ++ .launch m::(a ++ .launch l::(after ++ rest)) := by rw [he,hb]; simp
        have hfm := Copyable.locate_of_writes (fun c hc => h.copied b m _ c hem hc) hw
        have hfl := hfile
        rw [hb] at hfl
        exact absurd hfl (h.not_writes hk hem hw.not_skips hl (.inl hw.1) hfm hkept)

end

end ShellOS.Shell
