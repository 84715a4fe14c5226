import TinyOs.Mm.Fault

namespace TinyOs

open Count

namespace Space

variable {s s' : Space} {X Y : Nat → Nat} {va f : Nat} {w : Bool} {ph : Phys} {pte : Pte}

structure Filled (s s' : Space) (X Y : Nat → Nat) (va f : Nat) (w : Bool) : Prop where
  ok : s'.Ok X Y
  was : s.pd.lookup va = none
  lookup : ∀ a < word, s'.pd.lookup a =
    if a / pgSize = va / pgSize then some ⟨f,⟨w,true,false⟩⟩ else s.pd.lookup a
  keeps : Keeps (s.pd.userRefs + X) s.phys s'.phys
  zeroed : s'.phys.mem f = fun _ => 0
  fresh : (s.pd.userRefs + X) f = 0
  refs : s'.pd.userRefs = s.pd.userRefs + unit f
  sole : (s'.pd.userRefs + X) f = 1
  spares : s.phys.Spares s'.phys

theorem Ok.given (h : s.Ok X Y) (hok : ph.Ok (s.pd.userRefs + X + unit f) (s.pd.dirRefs + Y)) :
    Space.Ok ⟨ph,s.pd⟩ (unit f + X) Y := by
  refine ⟨?_,h.wf⟩
  rw [add_comm (unit f),← add_assoc]
  exact hok

theorem Ok.back (h : s.Ok (unit f + X) Y) :
    s.phys.Ok (s.pd.userRefs + X + unit f) (s.pd.dirRefs + Y) := by
  rw [add_assoc,add_comm X]
  exact h.phys

theorem mapNewPage_some (h : s.Ok X Y) (ha : va % pgSize = 0) (hlt : va < userEnd)
    (hm : s.mapNewPage va w = (s',some f)) : Filled s s' X Y va f w := by
  simp only [mapNewPage] at hm
  split at hm
  · cases hm
  rename_i ph g hg
  obtain ⟨hok,hfresh⟩ := Phys.allocUser_some h.phys hg
  split at hm
  · rename_i t ht
    cases hm
    have hmap := Space.uvmmap_true (h.given hok) ha hlt ht
    have hself : 0 < (s.pd.userRefs + (unit f + X)) f := by simp
    refine ⟨hmap.ok,hmap.was,hmap.lookup,(Keeps.of_fresh hfresh).trans (hmap.keeps.mono ?_),?_,
      hfresh.user,hmap.refs,?_,hfresh.spares.trans hmap.spares⟩
    · intro g hg
      simp only [Pi.add_apply] at hg ⊢
      omega
    · rw [hmap.keeps.mem f hself]
      simp [hfresh.mem]
    · have hzero := hfresh.user
      simp only [hmap.refs,Pi.add_apply,unit_self] at hzero ⊢
      omega
  · cases hm

theorem mapNewPage_none (h : s.Ok X Y) (ha : va % pgSize = 0) (hlt : va < userEnd)
    (hm : s.mapNewPage va w = (s',none)) :
    Walked s s' X Y ∧ (s.phys.pmm.failed < s'.phys.pmm.failed ∨ s.pd.lookup va ≠ none) := by
  simp only [mapNewPage] at hm
  split at hm
  · rename_i ph hph
    cases hm
    obtain ⟨hok,hkeeps,hspares,hf⟩ := Phys.allocUser_none h.phys hph
    exact ⟨⟨⟨hok,h.wf⟩,fun _ => rfl,rfl,hkeeps,hspares⟩,.inl hf⟩
  rename_i ph g hg
  obtain ⟨hok,hfresh⟩ := Phys.allocUser_some h.phys hg
  split at hm
  · cases hm
  rename_i t ht
  cases hm
  obtain ⟨hwalk,hfail⟩ := Space.uvmmap_false (h.given hok) ha hlt ht
  have hto := hfresh.spares.trans hwalk.spares
  refine ⟨⟨⟨?_,hwalk.ok.wf⟩,hwalk.lookup,hwalk.refs,?_,fun k hk => ?_,fun k hk => ?_⟩,?_⟩
  · exact Phys.putPage_user hwalk.ok.back
  · refine ((Keeps.of_fresh hfresh).trans (hwalk.keeps.mono ?_)).trans (Keeps.putPage _ _ _)
    intro f hf
    simp only [Pi.add_apply] at hf ⊢
    omega
  · rw [Phys.putPage_mem]
    exact hto.mem k hk
  · refine Phys.putPage_held hwalk.ok.back (hto.held k hk) (.inl ?_)
    rintro rfl
    exact hk hfresh.free
  · rw [← hfresh.failed]
    simpa using hfail

structure CowBroken (s s' : Space) (X Y : Nat → Nat) (va : Nat) (pte : Pte) (f : Nat) : Prop where
  ok : s'.Ok X Y
  lookup : ∀ a < word, s'.pd.lookup a =
    if a / pgSize = va / pgSize then some ⟨f,⟨true,true,false⟩⟩ else s.pd.lookup a
  copy : ∀ i < pgSize, s'.phys.mem f i = s.phys.mem pte.frame i
  keeps : Keeps (s.pd.userRefs + X) s.phys s'.phys
  origin : f = pte.frame ∨ (s.pd.userRefs + X) f = 0
  refs : s'.pd.userRefs + unit pte.frame = s.pd.userRefs + unit f
  sole : (s'.pd.userRefs + X) f = 1
  spares : s.phys.Spares s'.phys

theorem cow_sole (h : s.Ok X Y) (hlt : va < userEnd) (hl : s.pd.lookup va = some pte)
    (href : s.phys.pageRefcount pte.frame = 1) : CowBroken s
      { s with pd := s.pd.setPte va (some { pte with perm := ⟨true,pte.perm.u,false⟩ }) }
      X Y va pte pte.frame := by
  have hw := hlt.trans userEnd_lt
  have hu := h.wf.lookup_user hlt hl
  have hpos := Pgdir.userRefs_pos h.wf hlt hl
  have hone : (s.pd.userRefs + X) pte.frame = 1 := by
    rw [← Phys.refcount_eq h.phys (by simp only [Pi.add_apply]; omega),href]
  have hrefs := Pgdir.userRefs_setPerm ⟨true,pte.perm.u,false⟩ h.wf hlt hl
  refine ⟨⟨?_,h.wf.setPte hlt (by rintro _ ⟨rfl⟩; exact hu)⟩,fun a ha => ?_,fun _ _ => rfl,
    Keeps.refl _ _,.inl rfl,congrArg (· + unit pte.frame) hrefs,?_,.refl _⟩
  · rw [hrefs,Pgdir.dirRefs_setPte]
    exact h.phys
  · rw [Pgdir.lookup_setPte_of_some hl hw ha,hu]
  · rw [hrefs]
    exact hone

theorem cow_refs (h : s.Ok X Y) (hlt : va < userEnd) (hl : s.pd.lookup va = some pte)
    (hok : ph.Ok (s.pd.userRefs + X + unit f) (s.pd.dirRefs + Y)) :
    (s.pd.setPte va (some ⟨f,⟨true,true,false⟩⟩)).userRefs + unit pte.frame =
        s.pd.userRefs + unit f ∧ (ph.copyFrame pte.frame f).Ok
        ((s.pd.setPte va (some ⟨f,⟨true,true,false⟩⟩)).userRefs + X + unit pte.frame)
        (s.pd.dirRefs + Y) := by
  obtain ⟨pde,hpde,-⟩ := Pgdir.pde_of_lookup hl
  have hrefs := Pgdir.userRefs_setPte (e := some ⟨f,⟨true,true,false⟩⟩) h.wf hlt (by simp [hpde])
  rw [hl,pteRefs,pteRefs] at hrefs
  refine ⟨hrefs,?_⟩
  rw [add_right_comm,hrefs,add_right_comm]
  exact ⟨hok.acct,hok.running⟩

theorem cow_copy (h : s.Ok X Y) (hlt : va < userEnd)
    (hl : s.pd.lookup va = some pte) (href : s.phys.pageRefcount pte.frame ≠ 1)
    (ha : s.phys.allocUser = (ph,some f)) :
    CowBroken s ⟨(ph.copyFrame pte.frame f).putPage pte.frame,
      s.pd.setPte va (some ⟨f,⟨true,true,false⟩⟩)⟩ X Y va pte f := by
  have hw := hlt.trans userEnd_lt
  obtain ⟨hok,hfresh⟩ := Phys.allocUser_some h.phys ha
  have hpos := Pgdir.userRefs_pos h.wf hlt hl
  obtain ⟨hrefs,hcopied⟩ := cow_refs h hlt hl hok
  have hzero := hfresh.user
  have hcount : s.phys.pageRefcount pte.frame = (s.pd.userRefs + X) pte.frame :=
    Phys.refcount_eq h.phys (Nat.add_pos_left hpos _)
  have hnew := congrFun hrefs pte.frame
  simp only [Pi.add_apply,unit_self] at hcount hnew
  have hne : f ≠ pte.frame := by
    rintro rfl
    simp only [Pi.add_apply] at hzero
    omega
  refine ⟨⟨?_,h.wf.setPte hlt (by rintro _ ⟨rfl⟩; rfl)⟩,fun a ha => ?_,fun i hi => ?_,?_,.inr hzero,
    hrefs,?_,fun g hg => ?_,fun g hg => ?_⟩
  · rw [Pgdir.dirRefs_setPte]
    exact Phys.putPage_user hcopied
  · exact Pgdir.lookup_setPte_of_some hl hw ha
  · simp [Phys.copyFrame,hi,hfresh.mem,Function.update_of_ne (Ne.symm hne)]
  · refine ⟨fun g hg => ?_,?_,(Phys.putPage_same _ _).blocks.trans hfresh.blocks⟩
    · have hgf : g ≠ f := by
        rintro rfl
        omega
      simp [Phys.copyFrame,hfresh.mem,Function.update_of_ne hgf]
    · rw [Phys.putPage_failed]
      exact hfresh.failed.ge
  · have h1 := congrFun hrefs f
    simp only [Pi.add_apply,unit_self,unit_of_ne hne] at h1 hzero ⊢
    omega
  · have hgf : g ≠ f := by
      rintro rfl
      exact hg hfresh.free
    rw [Phys.putPage_mem,Phys.copyFrame]
    simp only [Function.update_of_ne hgf]
    exact hfresh.spares.mem g hg
  · refine Phys.putPage_held hcopied (hfresh.spares.held g hg) (.inr ?_)
    simp only [Pi.add_apply]
    omega

theorem uvmCowFault_true {addr : Nat} (h : s.Ok X Y) (hw : addr < word)
    (hc : s.uvmCowFault addr = (s',true)) :
    ∃ pte f, addr < userEnd ∧ s.pd.lookup addr = some pte ∧ pte.perm.cow = true ∧
      CowBroken s s' X Y addr pte f := by
  have hpage : pgRoundDown addr / pgSize = addr / pgSize := by
    simp only [pgRoundDown,pgSize]
    omega
  have hwd : pgRoundDown addr < word := lt_of_le_of_lt (pgRoundDown_le addr) hw
  simp only [uvmCowFault] at hc
  split at hc
  · cases hc
  rename_i hrange
  have hlt : pgRoundDown addr < userEnd := by omega
  have hlt' : addr < userEnd := by
    simp only [pgRoundDown,pgSize,userEnd,kernBase] at *
    omega
  split at hc
  · cases hc
  rename_i pte hl
  have hl' : s.pd.lookup addr = some pte := by rw [Pgdir.lookup_eq_of_page hwd hw hpage.symm,hl]
  split at hc
  · rename_i hcow
    have hlift : ∀ {t f}, CowBroken s t X Y (pgRoundDown addr) pte f →
        CowBroken s t X Y addr pte f := fun hb =>
      ⟨hb.ok,fun a ha => hpage ▸ hb.lookup a ha,hb.copy,hb.keeps,hb.origin,hb.refs,hb.sole,
        hb.spares⟩
    split at hc
    · rename_i href
      cases hc
      exact ⟨pte,pte.frame,hlt',hl',hcow,hlift (cow_sole h hlt hl href)⟩
    rename_i href
    split at hc
    · cases hc
    rename_i ph f hf
    cases hc
    exact ⟨pte,f,hlt',hl',hcow,hlift (cow_copy h hlt hl href hf)⟩
  · cases hc

theorem uvmCowFault_false {addr : Nat} (h : s.Ok X Y) (hw : addr < word)
    (hc : s.uvmCowFault addr = (s',false)) :
    (Walked s s' X Y ∧ s.phys.pmm.failed < s'.phys.pmm.failed) ∨ (s' = s ∧ (userEnd ≤ addr ∨
        ∀ pte, s.pd.lookup addr = some pte → pte.perm.cow = false)) := by
  have hpage : addr / pgSize = pgRoundDown addr / pgSize := by
    simp only [pgRoundDown,pgSize]
    omega
  have hwd : pgRoundDown addr < word := lt_of_le_of_lt (pgRoundDown_le addr) hw
  simp only [uvmCowFault] at hc
  split at hc
  · rename_i hrange
    cases hc
    have hle := pgRoundDown_le addr
    refine .inr ⟨rfl,.inl ?_⟩
    simp only [userBase] at hrange
    omega
  split at hc
  · rename_i hnone
    cases hc
    refine .inr ⟨rfl,.inr fun pte hl => ?_⟩
    rw [Pgdir.lookup_eq_of_page hwd hw hpage,hnone] at hl
    cases hl
  rename_i pte hl
  split at hc
  · split at hc
    · cases hc
    split at hc
    · rename_i ph hph
      cases hc
      obtain ⟨hok,hkeeps,hspares,hf⟩ := Phys.allocUser_none h.phys hph
      exact .inl ⟨⟨⟨hok,h.wf⟩,fun _ => rfl,rfl,hkeeps,hspares⟩,hf⟩
    · cases hc
  · rename_i hcow
    cases hc
    refine .inr ⟨rfl,.inr fun q hq => ?_⟩
    rw [Pgdir.lookup_eq_of_page hwd hw hpage,hl] at hq
    cases hq
    simpa using hcow

theorem uvmunmap_one (h : s.Ok X Y) (ha : va % pgSize = 0) (hlt : va < userEnd) :
    ∃ t, s.uvmunmap va 1 true = (t,true) ∧ Unmapped s t X Y (· = va / pgSize) := by
  have hfit : va + 1 * pgSize ≤ userEnd := by
    simp only [pgSize,userEnd,kernBase] at *
    omega
  obtain ⟨t,ht,hspec⟩ := uvmunmap_spec h ha Nat.one_pos hfit
  exact ⟨t,ht,hspec.congr fun p => by omega⟩

theorem unmapEach_spec (h : s.Ok X Y) (as : List Nat)
    (has : ∀ a ∈ as, a % pgSize = 0 ∧ a < userEnd) :
    Unmapped s (as.foldl (fun s va => (s.uvmunmap va 1 true).1) s) X Y
      (· ∈ as.map (· / pgSize)) := by
  induction as generalizing s with
  | nil => exact .refl h (by simp)
  | cons a as ih =>
    obtain ⟨hal,hlt⟩ := has a (by simp)
    obtain ⟨t,ht,hspec⟩ := uvmunmap_one h hal hlt
    have hrest := ih hspec.ok (fun b hb => has b (by simp [hb]))
    simp only [List.foldl_cons,ht]
    exact (hspec.trans hrest).congr fun p => List.mem_cons.symm

theorem unmapRange_spec {start stop : Nat} (h : s.Ok X Y) (hstart : start % pgSize = 0)
    (hstop : stop % pgSize = 0) (hle : stop ≤ userEnd) :
    Unmapped s (unmapRange start stop s) X Y (fun p => start / pgSize ≤ p ∧ p < stop / pgSize) := by
  refine (unmapEach_spec h (pageRange start stop) fun a ha => ?_).congr fun p =>
    mem_map_pageRange hstart hstop
  obtain ⟨i,rfl,hlt⟩ := mem_pageRange.mp ha
  simp only [pgSize,userEnd,kernBase] at *
  omega

theorem uvmdealloc_spec {oldsz newsz : Nat} (h : s.Ok X Y) (hlt : newsz < oldsz)
    (hle : oldsz ≤ userHeapTop) :
    ∃ s', s.uvmdealloc oldsz newsz = (s',newsz) ∧ Unmapped s s' X Y
      (fun p => pgRoundUp newsz / pgSize ≤ p ∧ p < pgRoundUp oldsz / pgSize) := by
  simp only [uvmdealloc,if_neg (not_le.mpr hlt)]
  by_cases hr : pgRoundUp newsz < pgRoundUp oldsz
  · have hm := pgRoundUp_mod newsz
    have hm' := pgRoundUp_mod oldsz
    have hup : pgRoundUp oldsz ≤ userEnd := by
      simp only [pgRoundUp,pgSize,word,userHeapTop,userStackBottom,userStack,userStackSize,
        userStackGuard,userEnd,kernBase] at *
      omega
    simp only [pgSize] at hm hm'
    obtain ⟨s',hs',hspec⟩ := uvmunmap_spec (n := (pgRoundUp oldsz - pgRoundUp newsz) / pgSize) h
      (pgRoundUp_mod newsz) (by simp only [pgSize]; omega) (by simp only [pgSize]; omega)
    refine ⟨s',by rw [if_pos hr,hs'],hspec.congr fun p => ?_⟩
    simp only [pgSize]
    omega
  · refine ⟨s,by rw [if_neg hr],.refl h ?_⟩
    rintro a - ⟨h1,h2⟩
    have := Nat.div_le_div_right (c := pgSize) (Nat.le_of_not_lt hr)
    omega

end Space

end TinyOs
