import TinyOs.Mm.Refs

namespace TinyOs

open Count List

namespace Keeps

variable {R R' : Nat → Nat} {ph ph' ph'' : Phys}

theorem of_same (h : ph.Same ph') : Keeps R ph ph' :=
  ⟨fun f _ => congrFun h.mem f,h.failed.ge,h.blocks⟩

theorem refl (R : Nat → Nat) (ph : Phys) : Keeps R ph ph := of_same (.refl ph)

theorem trans (h : Keeps R ph ph') (h' : Keeps R ph' ph'') : Keeps R ph ph'' :=
  ⟨fun f hf => (h'.mem f hf).trans (h.mem f hf),h.failed.trans h'.failed,
    h'.blocks.trans h.blocks⟩

theorem mono (h : Keeps R ph ph') (hle : ∀ f, 0 < R' f → 0 < R f) : Keeps R' ph ph' :=
  ⟨fun f hf => h.mem f (hle f hf),h.failed,h.blocks⟩

theorem putPage (R : Nat → Nat) (ph : Phys) (f : Nat) : Keeps R ph (ph.putPage f) :=
  of_same (ph.putPage_same f)

theorem getPage (R : Nat → Nat) (ph : Phys) (f : Nat) : Keeps R ph (ph.getPage f) :=
  of_same (ph.getPage_same f)

theorem of_fresh {K : Nat → Nat} {f : Nat} (h : ph.Fresh ph' R K f) : Keeps R ph ph' := by
  refine ⟨fun g hg => ?_,h.failed.ge,h.blocks⟩
  have hne : g ≠ f := by
    rintro rfl
    have := h.user
    omega
  rw [h.mem,Function.update_of_ne hne]

end Keeps

namespace Space

structure Ok (s : Space) (X Y : Nat → Nat) : Prop where
  phys : s.phys.Ok (s.pd.userRefs + X) (s.pd.dirRefs + Y)
  wf : s.pd.Wf

variable {s s' : Space} {X Y : Nat → Nat} {va a frame : Nat} {perm : Perm} {b : Bool}

structure Walked (s s' : Space) (X Y : Nat → Nat) : Prop where
  ok : s'.Ok X Y
  lookup : ∀ a, s'.pd.lookup a = s.pd.lookup a
  refs : s'.pd.userRefs = s.pd.userRefs
  keeps : Keeps (s.pd.userRefs + X) s.phys s'.phys
  spares : s.phys.Spares s'.phys

theorem walk_spec (h : s.Ok X Y) (hva : va < userEnd) (hw : s.walk va true true = (s',b)) :
    Walked s s' X Y ∧ if b then s'.pd (pdx va) ≠ none else s.phys.pmm.failed < s'.phys.pmm.failed := by
  simp only [walk,if_true] at hw
  split at hw
  · rename_i pde hpde
    cases hw
    exact ⟨⟨h,fun _ => rfl,rfl,Keeps.refl _ _,.refl _⟩,by simp [hpde]⟩
  rename_i hnone
  have hi := pdx_lt_of_user hva
  split at hw
  · rename_i ph hph
    cases hw
    obtain ⟨hok,hkeeps,hspares,hf⟩ := Phys.allocPage_none h.phys hph
    exact ⟨⟨⟨hok,h.wf⟩,fun _ => rfl,rfl,hkeeps,hspares⟩,by simpa using hf⟩
  rename_i ph f hph
  cases hw
  obtain ⟨hok,hfresh⟩ := Phys.allocPage_some h.phys hph
  obtain ⟨hu,hd⟩ := Pgdir.setPde_new_refs (f := f) hi hnone
  refine ⟨⟨⟨?_,h.wf.setPde hi rfl (by simp)⟩,Pgdir.lookup_setPde_new hnone,hu,Keeps.of_fresh hfresh,
    hfresh.spares.mem,hfresh.spares.held⟩,by simp [Pgdir.setPde_apply]⟩
  rw [hu,hd,add_right_comm]
  exact hok

structure Mapped (s s' : Space) (X Y : Nat → Nat) (a : Nat) (pte : Pte) : Prop where
  ok : s'.Ok X Y
  was : s.pd.lookup a = none
  lookup : ∀ a' < word,
    s'.pd.lookup a' = if a' / pgSize = a / pgSize then some pte else s.pd.lookup a'
  refs : s'.pd.userRefs = s.pd.userRefs + unit pte.frame
  keeps : Keeps (s.pd.userRefs + (unit pte.frame + X)) s.phys s'.phys
  spares : s.phys.Spares s'.phys

theorem mapPage_true (h : s.Ok (unit frame + X) Y) (ha : a < userEnd) (hu : perm.u = true)
    (hm : s.mapPage a frame perm true = (s',true)) : Mapped s s' X Y a ⟨frame,perm⟩ := by
  simp only [mapPage] at hm
  split at hm
  · cases hm
  rename_i t hw
  obtain ⟨hwalk,hpde⟩ := walk_spec h ha hw
  rw [if_pos rfl] at hpde
  split at hm
  · cases hm
  rename_i hnone
  cases hm
  have hlt := ha.trans userEnd_lt
  have hrefs := Pgdir.userRefs_setPte (e := some ⟨frame,perm⟩) hwalk.ok.wf ha hpde
  rw [hnone,pteRefs,pteRefs,add_zero] at hrefs
  refine ⟨⟨?_,hwalk.ok.wf.setPte ha (by rintro _ ⟨rfl⟩; exact hu)⟩,
    (hwalk.lookup a).symm.trans hnone,?_,by rw [hrefs,hwalk.refs],hwalk.keeps,hwalk.spares⟩
  · have hok := hwalk.ok.phys
    rw [← add_assoc,← hrefs] at hok
    rw [Pgdir.dirRefs_setPte]
    exact hok
  · intro a' ha'
    rw [Pgdir.lookup_setPte hpde hlt ha',hwalk.lookup]

theorem mapPage_false (h : s.Ok X Y) (ha : a < userEnd)
    (hm : s.mapPage a frame perm true = (s',false)) :
    Walked s s' X Y ∧ (s.phys.pmm.failed < s'.phys.pmm.failed ∨ s.pd.lookup a ≠ none) := by
  simp only [mapPage] at hm
  split at hm
  · rename_i t hw
    cases hm
    obtain ⟨hwalk,hf⟩ := walk_spec h ha hw
    exact ⟨hwalk,.inl (by simpa using hf)⟩
  rename_i t hw
  obtain ⟨hwalk,-⟩ := walk_spec h ha hw
  split at hm
  · rename_i pte hpte
    cases hm
    exact ⟨hwalk,.inr (by rw [← hwalk.lookup,hpte]; simp)⟩
  · cases hm

theorem uvmmap_page (ha : va % pgSize = 0) (hw : va < word) :
    s.uvmmap va frame pgSize perm = s.mapPage va frame { perm with u := true } true := by
  have hmod : va % word = va := Nat.mod_eq_of_lt hw
  have hone : List.range (pgSize / pgSize) = [0] := by decide
  have hif : ¬ (va % pgSize ≠ 0 ∨ pgSize = 0 ∨ pgSize % pgSize ≠ 0) := by
    rintro (h | h | h)
    · exact h ha
    · exact absurd h (by decide)
    · exact h (by decide)
  simp only [uvmmap,mappages,if_neg hif,hone,Loop.forEach,zero_mul,add_zero,hmod]
  rcases s.mapPage va frame { perm with u := true } true with ⟨t,b⟩
  cases b <;> rfl

theorem uvmmap_true (h : s.Ok (unit frame + X) Y) (ha : va % pgSize = 0) (hlt : va < userEnd)
    (hm : s.uvmmap va frame pgSize perm = (s',true)) :
    Mapped s s' X Y va ⟨frame,{ perm with u := true }⟩ := by
  rw [uvmmap_page ha (hlt.trans userEnd_lt)] at hm
  exact mapPage_true h hlt rfl hm

theorem uvmmap_false (h : s.Ok X Y) (ha : va % pgSize = 0) (hlt : va < userEnd)
    (hm : s.uvmmap va frame pgSize perm = (s',false)) :
    Walked s s' X Y ∧ (s.phys.pmm.failed < s'.phys.pmm.failed ∨ s.pd.lookup va ≠ none) := by
  rw [uvmmap_page ha (hlt.trans userEnd_lt)] at hm
  exact mapPage_false h hlt hm

theorem unmapPage_eq (hl : s.pd.lookup a = none) : s.unmapPage a true true = (s,true) := by
  simp [unmapPage,hl]

structure Unmapped (s s' : Space) (X Y : Nat → Nat) (gone : Nat → Prop) [DecidablePred gone] :
    Prop where
  ok : s'.Ok X Y
  lookup : ∀ a' < word, s'.pd.lookup a' = if gone (a' / pgSize) then none else s.pd.lookup a'
  refs : ∀ f, s'.pd.userRefs f ≤ s.pd.userRefs f
  pde : ∀ i, s.pd i ≠ none → s'.pd i ≠ none
  same : s.phys.Same s'.phys

namespace Unmapped

variable {s'' : Space} {gone gone' : Nat → Prop} [DecidablePred gone] [DecidablePred gone']

theorem refl (h : s.Ok X Y) (hnone : ∀ a < word, gone (a / pgSize) → s.pd.lookup a = none) :
    Unmapped s s X Y gone := by
  refine ⟨h,fun a ha => ?_,fun _ => le_rfl,fun _ => id,.refl _⟩
  split
  · exact hnone a ha ‹_›
  · rfl

theorem congr (h : Unmapped s s' X Y gone) (hiff : ∀ p, gone p ↔ gone' p) :
    Unmapped s s' X Y gone' :=
  ⟨h.ok,fun a ha => (h.lookup a ha).trans (if_congr (hiff _) rfl rfl),h.refs,h.pde,h.same⟩

theorem trans (h : Unmapped s s' X Y gone) (h' : Unmapped s' s'' X Y gone') :
    Unmapped s s'' X Y (fun p => gone p ∨ gone' p) := by
  refine ⟨h'.ok,fun a ha => ?_,fun f => (h'.refs f).trans (h.refs f),
    fun i hi => h'.pde i (h.pde i hi),h.same.trans h'.same⟩
  rw [h'.lookup a ha,h.lookup a ha]
  by_cases h1 : gone (a / pgSize) <;> by_cases h2 : gone' (a / pgSize) <;> simp [h1,h2]

end Unmapped

theorem unmapPage_spec (h : s.Ok X Y) (ha : a < userEnd) :
    ∃ s', s.unmapPage a true true = (s',true) ∧ Unmapped s s' X Y (· = a / pgSize) := by
  have hlt := ha.trans userEnd_lt
  rcases hl : s.pd.lookup a with _ | pte
  · refine ⟨s,unmapPage_eq hl,.refl h fun a' ha' he => ?_⟩
    rw [Pgdir.lookup_eq_of_page hlt ha' he,hl]
  obtain ⟨pde,hpde,-⟩ := Pgdir.pde_of_lookup hl
  have hpresent : s.pd (pdx a) ≠ none := by simp [hpde]
  have hrefs := Pgdir.userRefs_setPte (e := none) h.wf ha hpresent
  rw [hl,pteRefs,pteRefs,add_zero] at hrefs
  refine ⟨⟨s.phys.putPage pte.frame,s.pd.setPte a none⟩,by simp [unmapPage,hl],⟨?_,?_⟩,?_,
    fun f => ?_,fun i hi => Pgdir.setPte_ne_none hi,s.phys.putPage_same _⟩
  · have hok := h.phys
    rw [← hrefs,add_right_comm] at hok
    rw [Pgdir.dirRefs_setPte]
    exact Phys.putPage_user hok
  · exact h.wf.setPte ha (by simp)
  · intro a' ha'
    exact Pgdir.lookup_setPte hpresent hlt ha'
  · rw [← hrefs]
    exact Nat.le_add_right _ _

theorem unmapLoop_spec (h : s.Ok X Y) (as : List Nat) (has : ∀ a ∈ as, a < userEnd) :
    ∃ s', Loop.forEach (fun a s => s.unmapPage a true true) as s = (s',true) ∧
      Unmapped s s' X Y (· ∈ as.map (· / pgSize)) := by
  induction as generalizing s with
  | nil => exact ⟨s,rfl,.refl h (by simp)⟩
  | cons a as ih =>
    obtain ⟨t,ht,hspec⟩ := unmapPage_spec h (has a (by simp))
    obtain ⟨s',hs',hrest⟩ := ih hspec.ok (fun b hb => has b (by simp [hb]))
    refine ⟨s',?_,(hspec.trans hrest).congr fun p => mem_cons.symm⟩
    rw [Loop.forEach_cons_true ht,hs']

theorem mem_map_pageRange {start stop p : Nat} (hstart : start % pgSize = 0)
    (hstop : stop % pgSize = 0) :
    p ∈ (pageRange start stop).map (· / pgSize) ↔ start / pgSize ≤ p ∧ p < stop / pgSize := by
  simp only [mem_map,mem_pageRange,pgSize] at *
  constructor
  · rintro ⟨_,⟨i,rfl,hi⟩,he⟩
    omega
  · rintro ⟨h1,h2⟩
    exact ⟨p * 4096,⟨p - start / 4096,by omega,by omega⟩,by omega⟩

theorem uvmunmap_spec {n : Nat} (h : s.Ok X Y) (ha : va % pgSize = 0) (hn : 0 < n)
    (hend : va + n * pgSize ≤ userEnd) :
    ∃ s', s.uvmunmap va n true = (s',true) ∧
      Unmapped s s' X Y (fun p => va / pgSize ≤ p ∧ p < va / pgSize + n) := by
  have hmod : (va + n * pgSize) % word = va + n * pgSize :=
    Nat.mod_eq_of_lt (hend.trans_lt userEnd_lt)
  have hif : ¬ (va % pgSize ≠ 0 ∨ n = 0) := by omega
  obtain ⟨s',hs',hspec⟩ := unmapLoop_spec h (pageRange va (va + n * pgSize)) fun a ha' => by
    obtain ⟨i,rfl,hi⟩ := mem_pageRange.mp ha'
    omega
  refine ⟨s',?_,hspec.congr fun p => ?_⟩
  · simp only [uvmunmap,unmappages,if_neg hif,hmod,hs']
  · rw [mem_map_pageRange ha (by rw [Nat.add_mul_mod_self_right,ha]),
      Nat.add_mul_div_right _ _ (by decide)]

end Space

def Pgdir.Supervisor (pd : Pgdir) : Prop := ∀ i pde, pd i = some pde →
    pde.user = false ∧ ∀ j pte, pde.entries j = some pte → pte.perm.u = false ∧ pte.perm.cow = false

variable {ph ph' : Phys} {X Y U K : Nat → Nat} {pd kpd : Pgdir} {dir : Nat}

theorem uvmcreate_none (h : ph.Ok U K) (hc : uvmcreate ph kpd = (ph',none)) :
    ph'.Ok U K ∧ Keeps U ph ph' ∧ ph.Spares ph' ∧ ph.pmm.failed < ph'.pmm.failed := by
  simp only [uvmcreate] at hc
  split at hc
  · cases hc
    exact Phys.allocPage_none h ‹_›
  · cases hc

structure Created (ph ph' : Phys) (U K : Nat → Nat) (dir : Nat) (pd : Pgdir) : Prop where
  ok : ph'.Ok U (K + unit dir)
  keeps : Keeps U ph ph'
  failed : ph'.pmm.failed = ph.pmm.failed
  wf : pd.Wf
  userRefs : pd.userRefs = 0
  dirRefs : pd.dirRefs = 0
  lookup : ∀ va < userEnd, pd.lookup va = none

theorem uvmcreate_some (h : ph.Ok U K) (hk : kpd.Supervisor)
    (hc : uvmcreate ph kpd = (ph',some (dir,pd))) : Created ph ph' U K dir pd := by
  simp only [uvmcreate] at hc
  split at hc
  · cases hc
  rename_i q f hq
  cases hc
  obtain ⟨hok,hfresh⟩ := Phys.allocPage_some h hq
  have hlow : ∀ i < 768, (if pdx kernBase ≤ i ∧ i < maxKernelPt then kpd i else none) = none :=
    fun i hi => if_neg (by simp only [pdx,kernBase]; omega)
  refine ⟨hok,Keeps.of_fresh hfresh,hfresh.failed,⟨?_,?_⟩,?_,?_,?_⟩
  · intro i hi pde hpde
    rw [hlow i hi] at hpde
    cases hpde
  · intro i hi pde hpde
    split at hpde
    · exact hk i pde hpde
    · cases hpde
  · exact Finset.sum_eq_zero fun i hi => by
      simp only [hlow i (Finset.mem_range.mp hi)]
      rfl
  · exact Finset.sum_eq_zero fun i hi => by
      simp only [hlow i (Finset.mem_range.mp hi)]
      rfl
  · intro va hva
    simp only [Pgdir.lookup,hlow _ (pdx_lt_of_user hva)]

theorem foldl_release {u k : Nat → Nat → Nat} {step : Phys → Nat → Phys} (L : List Nat)
    (hstep : ∀ i ∈ L, ∀ ph X Y, ph.Ok (u i + X) (k i + Y) → (step ph i).Ok X Y)
    (h : ph.Ok ((L.map u).sum + X) ((L.map k).sum + Y)) : (L.foldl step ph).Ok X Y := by
  induction L generalizing ph with
  | nil => simpa using h
  | cons i L ih =>
    simp only [map_cons,sum_cons,add_assoc] at h
    exact ih (fun j hj => hstep j (by simp [hj])) (hstep i (by simp) ph _ _ h)

theorem foldl_same {step : Phys → Nat → Phys} (L : List Nat)
    (hstep : ∀ (ph : Phys) i, ph.Same (step ph i)) : ph.Same (L.foldl step ph) := by
  induction L generalizing ph with
  | nil => exact .refl ph
  | cons i L ih => exact (hstep ph i).trans ih

theorem uvmfreePde_ok (e : Option Pde) (h : ph.Ok (pdeRefs e + X) (pdeTable e + Y)) :
    (uvmfreePde e ph).Ok X Y := by
  cases e with
  | none => simpa [uvmfreePde,pdeRefs,pdeTable] using h
  | some pde =>
    simp only [uvmfreePde,pdeRefs,pdeTable] at h ⊢
    split
    · rename_i hu
      rw [if_pos hu,if_pos hu] at h
      refine Phys.putPage_kernel (foldl_release (u := fun j => pteRefs (pde.entries j))
        (k := fun _ => 0) (List.range 1024) ?_ ?_)
      · intro j _ ph X Y hok
        rcases he : pde.entries j with _ | pte
        · simpa [uvmfreePte,he,pteRefs] using hok
        simp only [he,pteRefs,zero_add] at hok
        rw [add_comm] at hok
        exact Phys.putPage_user hok
      · have hzero : ((List.range 1024).map fun _ => (0 : Nat → Nat)).sum = 0 :=
          sum_eq_zero fun x hx => by
            obtain ⟨_,-,rfl⟩ := mem_map.mp hx
            rfl
        rw [hzero,zero_add,add_comm Y]
        exact h
    · rename_i hu
      simpa [hu] using h

theorem uvmfreePde_same (e : Option Pde) (ph : Phys) : ph.Same (uvmfreePde e ph) := by
  cases e with
  | none => exact .refl ph
  | some pde =>
    simp only [uvmfreePde]
    split
    · refine (foldl_same _ fun ph j => ?_).trans (Phys.putPage_same _ _)
      cases pde.entries j with
      | none => exact .refl ph
      | some pte => exact ph.putPage_same _
    · exact .refl ph

theorem uvmfree_ok (h : ph.Ok (pd.userRefs + X) (pd.dirRefs + (unit dir + Y))) :
    (uvmfree ph dir pd).Ok X Y := by
  refine Phys.putPage_kernel (foldl_release (u := fun i => pdeRefs (pd i))
    (k := fun i => pdeTable (pd i)) _ (fun i _ ph X Y hok => uvmfreePde_ok (pd i) hok) ?_)
  have hn : pdx (userEnd - 1) + 1 = 768 := by decide
  rw [hn,add_comm Y]
  exact h

theorem uvmfree_same (ph : Phys) (dir : Nat) (pd : Pgdir) : ph.Same (uvmfree ph dir pd) :=
  (foldl_same _ fun ph i => uvmfreePde_same (pd i) ph).trans (Phys.putPage_same _ _)

end TinyOs
