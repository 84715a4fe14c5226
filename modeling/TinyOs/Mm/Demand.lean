import TinyOs.Ipc.Calls

namespace TinyOs

open Count Option

variable {va : Nat}

def Mm.demand (mm : Mm) (page : Nat) : Option Bool :=
  if page < mm.brk ∧ mm.brkStart < page + pgSize then some true
  else
    match mm.vmaLookup page with
    | none => none
    | some v => if (vmaShmid v).isSome || !protOk v.prot then none else some v.writable

theorem pgRoundDown_div (va : Nat) : pgRoundDown va / pgSize = va / pgSize :=
  Nat.mul_div_cancel _ (by decide)

theorem pgRoundDown_of_mod (h : va % pgSize = 0) : pgRoundDown va = va := by
  simp only [pgRoundDown,pgSize] at *
  omega

theorem pgRoundDown_lt_userEnd : pgRoundDown va < userEnd ↔ va < userEnd := by
  simp only [pgRoundDown,pgSize,userEnd,kernBase]
  omega

theorem pgRoundDown_lt_word (h : va < word) : pgRoundDown va < word :=
  (pgRoundDown_le va).trans_lt h

theorem Pgdir.lookup_pgRoundDown (pd : Pgdir) (h : va < word) :
    pd.lookup (pgRoundDown va) = pd.lookup va :=
  lookup_eq_of_page h (pgRoundDown_lt_word h) (pgRoundDown_div va)

theorem Pgdir.walkaddr_eq {pd : Pgdir} (h : pd.Wf) (hw : va < word) :
    pd.walkaddr va = if va < userEnd then (pd.lookup va).map Pte.frame else none := by
  rcases hl : pd.lookup va with _ | pte
  · simp [walkaddr,hl]
  by_cases hva : va < userEnd
  · simp [walkaddr,hl,hva,h.lookup_user hva hl]
  · simp [walkaddr,hl,hva,(h.lookup_kernel (not_lt.mp hva) hw hl).1]

theorem Pgdir.translate_eq {pd : Pgdir} (h : pd.Wf) (hw : va < word) (write : Bool) :
    pd.translate va write = if va < userEnd then
      (pd.lookup va).bind fun pte => if !write || pte.perm.w then some pte.frame else none
      else none := by
  rcases hpde : pd (pdx va) with _ | pde
  · simp [translate,lookup,hpde]
  rcases hpte : pde.entries (ptx va) with _ | pte
  · simp [translate,lookup,hpde,hpte]
  simp only [translate,lookup,hpde,hpte,bind_some]
  by_cases hva : va < userEnd
  · obtain ⟨hu,he⟩ := h.user _ (pdx_lt_of_user hva) pde hpde
    simp [hva,hu,he _ pte hpte]
  · obtain ⟨hu,-⟩ := h.kernel _ (pdx_ge_of_kernel (not_lt.mp hva) hw) pde hpde
    simp [hva,hu]

namespace Mm

variable {mm : Mm} {page va : Nat} {v : Vma} {w : Bool}

theorem vmaLookup_some (h : mm.vmaLookup va = some v) :
    ∃ i < nvma, v = mm.vmas i ∧ v.used = true ∧ v.start ≤ va ∧ va < v.stop := by
  simp only [vmaLookup,map_eq_some_iff] at h
  obtain ⟨i,hi,rfl⟩ := h
  have hmem := List.mem_range.mp (List.mem_of_find?_eq_some hi)
  have hp := List.find?_some hi
  simp only [Bool.and_eq_true,decide_eq_true_eq] at hp
  exact ⟨i,hmem,rfl,hp.1.1,hp.1.2,hp.2⟩

theorem Layout.demand_range (h : mm.Layout) (hal : page % pgSize = 0)
    (hd : mm.demand page = some w) : userLoad ≤ page ∧ page < userHeapTop := by
  have h1 := h.brkStart
  have h2 := h.brk
  have h3 := h.top
  simp only [demand] at hd
  split at hd
  · simp only [userLoad,pgSize] at *
    omega
  split at hd
  · cases hd
  rename_i v hv
  obtain ⟨i,hi,rfl,hu,hlo,hhi⟩ := vmaLookup_some hv
  have h4 := h.brk_le_start hi hu
  have h5 := (h.bounds i hi hu).2.2
  omega

end Mm

namespace Ctx

variable {x x' : Ctx} {X Y N : Nat → Nat} {va : Nat} {write w : Bool}

theorem Ok.uvmDemandFault_eq (h : x.Ok X Y N) (hw : va < word) (hnone : x.mm.pd.lookup va = none) :
    x.uvmDemandFault va write =
      match x.mm.demand (pgRoundDown va) with
      | none => (x,false)
      | some w => if write && !w then (x,false) else x.demandFill (pgRoundDown va) w := by
  have hmod := pgRoundDown_mod va
  have hlook := x.mm.pd.lookup_pgRoundDown hw
  have hlt := pgRoundDown_lt_word hw
  simp only [uvmDemandFault]
  generalize pgRoundDown va = page at hmod hlook hlt ⊢
  rw [hnone] at hlook
  have hwalk : x.mm.pd.walkaddr page = none := by
    rw [Pgdir.walkaddr_eq h.wf hlt,hlook]
    simp
  by_cases hrange : page < x.mm.userBase ∨ userEnd ≤ page
  · rw [if_pos hrange]
    rcases hd : x.mm.demand page with _ | w
    · rfl
    have := h.layout.demand_range hmod hd
    have h1 := h.layout.base
    have h2 := userHeapTop_le
    omega
  rw [if_neg hrange,hwalk,isSome_none,if_neg Bool.false_ne_true]
  by_cases hheap : page < x.mm.brk ∧ x.mm.brkStart < page + pgSize
  · have hd : x.mm.demand page = some true := if_pos hheap
    rw [if_pos hheap,hd]
    simp
  rw [if_neg hheap]
  rcases hv : x.mm.vmaLookup page with _ | v
  · have hd : x.mm.demand page = none := by simp only [Mm.demand,if_neg hheap,hv]
    rw [hd]
  obtain ⟨i,hi,hvi,hu,hlo,hhi⟩ := Mm.vmaLookup_some hv
  have hid : vmaShmid v = none := by
    rcases hid : vmaShmid v with _ | id
    · rfl
    · subst hvi
      exact absurd hlook (h.backed.mapped i hi id hid page hlo hhi)
  cases hp : protOk v.prot with
  | false =>
    have hd : x.mm.demand page = none := by simp [Mm.demand,hheap,hv,hp]
    simp [hd,hid,hp]
  | true =>
    have hd : x.mm.demand page = some v.writable := by simp [Mm.demand,hheap,hv,hp,hid]
    simp [hd,hid,hp]

inductive Served (x x' : Ctx) (X Y : Nat → Nat) (va : Nat) : Prop
  | same : x' = x → Served x x' X Y va
  | filled (f : Nat) (w : Bool) : x' = x.setSpace x'.space → va < userEnd →
      x.mm.demand (pgRoundDown va) = some w →
      Space.Filled x.space x'.space (x.shm.refs + X) Y va f w → Served x x' X Y va
  | broken (pte : Pte) (f : Nat) : x' = x.setSpace x'.space → va < userEnd →
      x.mm.pd.lookup va = some pte → pte.perm.cow = true →
      Space.CowBroken x.space x'.space (x.shm.refs + X) Y va pte f → Served x x' X Y va

structure NoMemory (x x' : Ctx) (X Y : Nat → Nat) : Prop where
  space : x' = x.setSpace x'.space
  walked : Space.Walked x.space x'.space (x.shm.refs + X) Y
  failed : x.phys.pmm.failed < x'.phys.pmm.failed

theorem demandFill_true (h : x.Ok X Y N) (hlt : va < userEnd)
    (hd : x.mm.demand (pgRoundDown va) = some w)
    (hf : x.demandFill (pgRoundDown va) w = (x',true)) :
    Served x x' X Y va ∧ ∃ f, x'.mm.pd.lookup va = some ⟨f,⟨w,true,false⟩⟩ := by
  simp only [demandFill] at hf
  rcases hm : x.space.mapNewPage (pgRoundDown va) w with ⟨s,_ | f⟩
  · simp [hm] at hf
  simp only [hm,isSome_some,Prod.mk.injEq,and_true] at hf
  subst hf
  have hfill := Space.mapNewPage_some h.space (pgRoundDown_mod va)
    (pgRoundDown_lt_userEnd.mpr hlt) hm
  have hw := hlt.trans userEnd_lt
  have hlook := hfill.lookup
  rw [pgRoundDown_div] at hlook
  refine ⟨.filled f w rfl hlt hd ⟨hfill.ok,?_,hlook,hfill.keeps,hfill.zeroed,hfill.fresh,hfill.refs,
    hfill.sole,hfill.spares⟩,f,(hlook va hw).trans (if_pos rfl)⟩
  rw [← hfill.was]
  exact (Pgdir.lookup_pgRoundDown _ hw).symm

theorem demandFill_false (h : x.Ok X Y N) (hlt : va < userEnd) (hnone : x.mm.pd.lookup va = none)
    (hf : x.demandFill (pgRoundDown va) w = (x',false)) : NoMemory x x' X Y := by
  simp only [demandFill] at hf
  rcases hm : x.space.mapNewPage (pgRoundDown va) w with ⟨s,_ | f⟩
  · simp only [hm,isSome_none,Prod.mk.injEq,and_true] at hf
    subst hf
    obtain ⟨hwalk,hfail⟩ := Space.mapNewPage_none h.space (pgRoundDown_mod va)
      (pgRoundDown_lt_userEnd.mpr hlt) hm
    refine ⟨rfl,hwalk,hfail.resolve_right fun hne => hne ?_⟩
    exact (Pgdir.lookup_pgRoundDown _ (hlt.trans userEnd_lt)).trans hnone
  · simp [hm] at hf

theorem uvmCowFault_served (h : x.Ok X Y N) (hw : va < word) (hc : x.uvmCowFault va = (x',true)) :
    Served x x' X Y va ∧ ∃ f, va < userEnd ∧
      (∀ pte, x.mm.pd.lookup va = some pte → pte.perm.cow = true) ∧
      x'.mm.pd.lookup va = some ⟨f,⟨true,true,false⟩⟩ := by
  simp only [Ctx.uvmCowFault] at hc
  rcases hs : x.space.uvmCowFault va with ⟨s,b⟩
  simp only [hs,Prod.mk.injEq] at hc
  obtain ⟨rfl,rfl⟩ := hc
  obtain ⟨pte,f,hlt,hl,hcow,hbroken⟩ := Space.uvmCowFault_true h.space hw hs
  refine ⟨.broken pte f rfl hlt hl hcow hbroken,f,hlt,fun q hq => ?_,?_⟩
  · cases hq.symm.trans hl
    exact hcow
  exact (hbroken.lookup va hw).trans (if_pos rfl)

theorem uvmCowFault_refused (h : x.Ok X Y N) (hw : va < word)
    (hc : x.uvmCowFault va = (x',false)) :
    NoMemory x x' X Y ∨ (x' = x ∧
      (userEnd ≤ va ∨ ∀ pte, x.mm.pd.lookup va = some pte → pte.perm.cow = false)) := by
  simp only [Ctx.uvmCowFault] at hc
  rcases hs : x.space.uvmCowFault va with ⟨s,b⟩
  simp only [hs,Prod.mk.injEq] at hc
  obtain ⟨rfl,rfl⟩ := hc
  rcases Space.uvmCowFault_false h.space hw hs with ⟨hwalk,hfail⟩ | ⟨rfl,hwhy⟩
  · exact .inl ⟨rfl,hwalk,hfail⟩
  · exact .inr ⟨rfl,hwhy⟩

theorem uvmDemandFault_true (h : x.Ok X Y N) (hw : va < word) (hnone : x.mm.pd.lookup va = none)
    (hd : x.uvmDemandFault va write = (x',true)) :
    ∃ w, x.mm.demand (pgRoundDown va) = some w ∧ (write = true → w = true) ∧ va < userEnd ∧
      x.demandFill (pgRoundDown va) w = (x',true) := by
  rw [h.uvmDemandFault_eq hw hnone] at hd
  split at hd
  · cases hd
  rename_i w hdem
  have hrange := h.layout.demand_range (pgRoundDown_mod va) hdem
  split at hd
  · cases hd
  rename_i hwr
  refine ⟨w,hdem,by simpa using hwr,?_,hd⟩
  exact pgRoundDown_lt_userEnd.mp (hrange.2.trans_le userHeapTop_le)

theorem uvmDemandFault_false (h : x.Ok X Y N) (hw : va < word) (hnone : x.mm.pd.lookup va = none)
    (hd : x.uvmDemandFault va write = (x',false)) :
    NoMemory x x' X Y ∨ (x' = x ∧ ∀ w, x.mm.demand (pgRoundDown va) = some w →
      write = true ∧ w = false) := by
  rw [h.uvmDemandFault_eq hw hnone] at hd
  split at hd
  · rename_i hdem
    cases hd
    exact .inr ⟨rfl,fun w hw => by simp [hdem] at hw⟩
  rename_i w hdem
  have hrange := h.layout.demand_range (pgRoundDown_mod va) hdem
  split at hd
  · rename_i hwr
    cases hd
    refine .inr ⟨rfl,fun w' hw' => ?_⟩
    rw [hdem] at hw'
    cases hw'
    simpa using hwr
  · refine .inl (demandFill_false h ?_ hnone hd)
    exact pgRoundDown_lt_userEnd.mp (hrange.2.trans_le userHeapTop_le)

end Ctx

def Mm.allows (mm : Mm) (va : Nat) (write : Bool) : Bool := decide (va < userEnd) &&
    match mm.pd.lookup va with
    | some pte => !write || pte.perm.w || pte.perm.cow
    | none =>
      match mm.demand (pgRoundDown va) with
      | some w => !write || w
      | none => false

namespace Ctx

variable {x x' : Ctx} {X Y N : Nat → Nat} {va f : Nat} {write w : Bool}

def Ready (x : Ctx) (va : Nat) (write : Bool) (f : Nat) : Prop :=
  va < userEnd ∧ ∃ pte, x.mm.pd.lookup va = some pte ∧ pte.frame = f ∧
    (write = true → pte.perm.w = true)

theorem translate_some (h : x.mm.pd.Wf) (hw : va < word) :
    x.mm.pd.translate va write = some f ↔ x.Ready va write f := by
  rw [Pgdir.translate_eq h hw,Ready]
  by_cases hva : va < userEnd
  · rcases hl : x.mm.pd.lookup va with _ | pte
    · simp [hva]
    · cases write <;> cases hpw : pte.perm.w <;> simp [hva,hpw]
  · simp [hva]

theorem translate_none (h : x.mm.pd.Wf) (hw : va < word)
    (ht : x.mm.pd.translate va write = none) (hlt : va < userEnd) {pte : Pte}
    (hl : x.mm.pd.lookup va = some pte) : write = true ∧ pte.perm.w = false := by
  rw [Pgdir.translate_eq h hw,if_pos hlt,hl] at ht
  simpa using ht

theorem allows_of_demand (hlt : va < userEnd) (hnone : x.mm.pd.lookup va = none)
    (hd : x.mm.demand (pgRoundDown va) = some w) (hwr : write = true → w = true) :
    x.mm.allows va write = true := by
  cases write
  · simp [Mm.allows,hlt,hnone,hd]
  · simp [Mm.allows,hlt,hnone,hd,hwr]

theorem not_allows_of_demand (hnone : x.mm.pd.lookup va = none)
    (hd : ∀ w, x.mm.demand (pgRoundDown va) = some w → write = true ∧ w = false) :
    x.mm.allows va write = false := by
  rcases hdem : x.mm.demand (pgRoundDown va) with _ | w
  · simp [Mm.allows,hnone,hdem]
  · obtain ⟨rfl,rfl⟩ := hd w hdem
    simp [Mm.allows,hnone,hdem]

theorem pageFaultHandler_true (h : x.Ok X Y N) (hw : va < word)
    (hp : x.pageFaultHandler va write = (x',true)) :
    x.mm.allows va write = true ∧ Served x x' X Y va ∧ ∃ f, x'.Ready va write f := by
  simp only [pageFaultHandler] at hp
  split at hp
  · rename_i hnone
    obtain ⟨w,hdem,hwr,hlt,hfill⟩ := uvmDemandFault_true h hw hnone hp
    obtain ⟨hserved,f,hf⟩ := demandFill_true h hlt hdem hfill
    exact ⟨allows_of_demand hlt hnone hdem hwr,hserved,f,hlt,_,hf,rfl,hwr⟩
  rename_i pte hl
  split at hp
  · obtain ⟨hserved,f,hlt,hcow,hf⟩ := uvmCowFault_served h hw hp
    refine ⟨?_,hserved,f,hlt,_,hf,rfl,fun _ => rfl⟩
    simp [Mm.allows,hlt,hl,hcow pte hl]
  · cases hp

theorem pageFaultHandler_false (h : x.Ok X Y N) (hw : va < word)
    (ht : x.mm.pd.translate va write = none) (hp : x.pageFaultHandler va write = (x',false)) :
    NoMemory x x' X Y ∨ (x' = x ∧ x.mm.allows va write = false) := by
  by_cases hlt : va < userEnd
  · simp only [pageFaultHandler] at hp
    split at hp
    · rename_i hnone
      exact (uvmDemandFault_false h hw hnone hp).imp_right fun ⟨hx,hwhy⟩ =>
        ⟨hx,not_allows_of_demand hnone hwhy⟩
    rename_i pte hl
    obtain ⟨rfl,hpw⟩ := translate_none h.wf hw ht hlt hl
    rw [if_pos ⟨rfl,Nat.zero_le _,h.layout.task ▸ hlt⟩] at hp
    refine (uvmCowFault_refused h hw hp).imp_right fun ⟨hx,hwhy⟩ => ⟨hx,?_⟩
    have hcow := hwhy.resolve_left (by omega) pte hl
    simp [Mm.allows,hl,hpw,hcow]
  · have hkernel : x.mm.allows va write = false := by simp [Mm.allows,hlt]
    simp only [pageFaultHandler] at hp
    split at hp
    · rename_i hnone
      exact (uvmDemandFault_false h hw hnone hp).imp_right fun hx => ⟨hx.1,hkernel⟩
    rw [if_neg (by rw [h.layout.task]; omega)] at hp
    cases hp
    exact .inr ⟨rfl,hkernel⟩

theorem Ready.allows (h : x.Ready va write f) : x.mm.allows va write = true := by
  obtain ⟨hlt,pte,hl,-,hwr⟩ := h
  cases write
  · simp [Mm.allows,hlt,hl]
  · simp [Mm.allows,hlt,hl,hwr]

theorem Served.ok (hs : Served x x' X Y va) (h : x.Ok X Y N) : x'.Ok X Y N := by
  cases hs with
  | same he => exact he ▸ h
  | filled f w he hlt hd hf =>
    rw [he]
    refine h.setSpace hf.ok fun a ha hne => ?_
    rw [hf.lookup a (ha.trans userEnd_lt)]
    split
    · exact some_ne_none _
    · exact hne
  | broken pte f he hlt hl hcow hb =>
    rw [he]
    refine h.setSpace hb.ok fun a ha hne => ?_
    rw [hb.lookup a (ha.trans userEnd_lt)]
    split
    · exact some_ne_none _
    · exact hne

theorem NoMemory.ok (hn : NoMemory x x' X Y) (h : x.Ok X Y N) : x'.Ok X Y N := by
  rw [hn.space]
  exact h.setSpace hn.walked.ok fun a _ hne => by rwa [hn.walked.lookup]

theorem access_cases (h : x.Ok X Y N) (hw : va < word) :
    (∃ x' f, x.access write va 2 = (x',.done f) ∧ x.mm.allows va write = true ∧
        Served x x' X Y va ∧ x'.Ready va write f) ∨
      (∃ x', x.access write va 2 = (x',.fatal) ∧
        (NoMemory x x' X Y ∨ (x' = x ∧ x.mm.allows va write = false))) := by
  rcases ht : x.mm.pd.translate va write with _ | f
  · rcases hp : x.pageFaultHandler va write with ⟨y,_ | _⟩
    · exact .inr ⟨y,by simp only [access,ht,hp],pageFaultHandler_false h hw ht hp⟩
    obtain ⟨hallow,hserved,f,hready⟩ := pageFaultHandler_true h hw hp
    have ht' := (translate_some (hserved.ok h).wf hw).mpr hready
    exact .inl ⟨y,f,by simp only [access,ht,hp,ht'],hallow,hserved,hready⟩
  · have hready := (translate_some h.wf hw).mp ht
    exact .inl ⟨x,f,by simp only [access,ht],hready.allows,.same rfl,hready⟩

theorem ensureUserPage_true {cur : Bool} (h : x.Ok X Y N) (hw : va < word)
    (hal : va % pgSize = 0) (he : x.ensureUserPage cur va write = (x',true)) :
    Served x x' X Y va ∧ ((x.mm.allows va write = true ∧ ∃ f, x'.Ready va write f) ∨
        (x' = x ∧ ∃ pte, x.mm.pd.lookup va = some pte ∧
          (userEnd ≤ va ∨ (write = true ∧ pte.perm.w = false ∧ pte.perm.cow = false)))) := by
  simp only [ensureUserPage,pgRoundDown_of_mod hal] at he
  split at he
  · rename_i pte hl
    split at he
    · rename_i hc
      rw [Bool.and_eq_true] at hc
      obtain ⟨rfl,hcow⟩ := hc
      obtain ⟨hserved,f,hlt,-,hf⟩ := uvmCowFault_served h hw he
      refine ⟨hserved,.inl ⟨by simp [Mm.allows,hlt,hl,hcow],f,hlt,_,hf,rfl,fun _ => rfl⟩⟩
    rename_i hc
    cases he
    refine ⟨.same rfl,?_⟩
    by_cases hlt : va < userEnd
    · cases hpw : !write || pte.perm.w with
      | true =>
        have hready : x.Ready va write pte.frame :=
          ⟨hlt,pte,hl,rfl,fun hwr => by simpa [hwr] using hpw⟩
        exact .inl ⟨hready.allows,_,hready⟩
      | false =>
        simp only [Bool.or_eq_false_iff,Bool.not_eq_false'] at hpw
        exact .inr ⟨rfl,pte,hl,.inr ⟨hpw.1,hpw.2,by simpa [hpw.1] using hc⟩⟩
    · exact .inr ⟨rfl,pte,hl,.inl (not_lt.mp hlt)⟩
  · rename_i hnone
    split at he
    · obtain ⟨w,hdem,hwr,hlt,hfill⟩ := uvmDemandFault_true h hw hnone he
      obtain ⟨hserved,f,hf⟩ := demandFill_true h hlt hdem hfill
      refine ⟨hserved,.inl ⟨?_,f,hlt,_,hf,rfl,hwr⟩⟩
      exact allows_of_demand hlt hnone hdem hwr
    · cases he

theorem ensureUserPage_false {cur : Bool} (h : x.Ok X Y N) (hw : va < word)
    (hal : va % pgSize = 0) (he : x.ensureUserPage cur va write = (x',false)) :
    NoMemory x x' X Y ∨ (x' = x ∧ x.mm.pd.lookup va = none ∧
      (cur = true → x.mm.allows va write = false)) := by
  simp only [ensureUserPage,pgRoundDown_of_mod hal] at he
  split at he
  · rename_i pte hl
    split at he
    · rename_i hc
      rw [Bool.and_eq_true] at hc
      refine (uvmCowFault_refused h hw he).imp_right fun hwhy => ?_
      rcases hwhy.2 with hge | hnot
      · have := (h.wf.lookup_kernel hge hw hl).2
        simp [this] at hc
      · simp [hnot pte hl] at hc
    · cases he
  · rename_i hnone
    split at he
    · refine (uvmDemandFault_false h hw hnone he).imp_right fun ⟨hx,hwhy⟩ => ⟨hx,hnone,fun _ => ?_⟩
      exact not_allows_of_demand hnone hwhy
    rename_i hcur
    cases he
    exact .inr ⟨rfl,hnone,fun hc => absurd hc hcur⟩

end Ctx

end TinyOs
