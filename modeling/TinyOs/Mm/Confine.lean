import TinyOs.Mm.Copy

namespace TinyOs

def Phys.setMem (ph : Phys) (mem : Nat → Nat → UInt8) : Phys := { ph with mem := mem }

def Space.setMem (s : Space) (mem : Nat → Nat → UInt8) : Space := { s with phys := s.phys.setMem mem }

def Ctx.setMem (x : Ctx) (mem : Nat → Nat → UInt8) : Ctx := { x with phys := x.phys.setMem mem }

namespace Phys

variable (ph : Phys) (mem : Nat → Nat → UInt8)

theorem allocPage_setMem : ∃ mem', (ph.setMem mem).allocPage =
    (ph.allocPage.1.setMem mem',ph.allocPage.2) := by
  have hp : (ph.setMem mem).pmm = ph.pmm := rfl
  simp only [allocPage,hp]
  rcases Buddy.allocPages ph.pmm 0 with ⟨s,_ | f⟩
  · exact ⟨_,rfl⟩
  · exact ⟨_,rfl⟩

theorem allocUser_setMem : ∃ mem', (ph.setMem mem).allocUser =
    (ph.allocUser.1.setMem mem',ph.allocUser.2) := by
  obtain ⟨mem',h⟩ := ph.allocPage_setMem mem
  simp only [allocUser,h]
  rcases ph.allocPage with ⟨q,_ | f⟩
  · exact ⟨_,rfl⟩
  · exact ⟨_,rfl⟩

theorem putPage_setMem (f : Nat) : (ph.setMem mem).putPage f = (ph.putPage f).setMem mem := by
  have hp : (ph.setMem mem).pmm = ph.pmm := rfl
  simp only [putPage,hp]
  rcases Buddy.putPage ph.pmm f with _ | s
  · rfl
  · rfl

end Phys

namespace Space

variable (s : Space) (mem : Nat → Nat → UInt8) {va : Nat} {w : Bool}

theorem walk_setMem (va : Nat) (alloc user : Bool) : ∃ mem', (s.setMem mem).walk va alloc user =
    ((s.walk va alloc user).1.setMem mem',(s.walk va alloc user).2) := by
  have hpd : (s.setMem mem).pd = s.pd := rfl
  have hph : (s.setMem mem).phys = s.phys.setMem mem := rfl
  obtain ⟨mem',h⟩ := s.phys.allocPage_setMem mem
  simp only [walk,hpd,hph,h]
  split
  · exact ⟨_,rfl⟩
  split
  · rcases s.phys.allocPage with ⟨q,_ | f⟩
    · exact ⟨_,rfl⟩
    · exact ⟨_,rfl⟩
  · exact ⟨_,rfl⟩

theorem mapPage_setMem (va frame : Nat) (perm : Perm) (user : Bool) :
    ∃ mem', (s.setMem mem).mapPage va frame perm user =
    ((s.mapPage va frame perm user).1.setMem mem',(s.mapPage va frame perm user).2) := by
  obtain ⟨mem',h⟩ := s.walk_setMem mem va true user
  simp only [mapPage,h]
  rcases s.walk va true user with ⟨t,_ | _⟩
  · exact ⟨_,rfl⟩
  have hpd : (t.setMem mem').pd = t.pd := rfl
  simp only [hpd]
  rcases t.pd.lookup va with _ | pte
  · exact ⟨_,rfl⟩
  · exact ⟨_,rfl⟩

theorem mapNewPage_setMem (ha : va % pgSize = 0) (hw : va < word) :
    ∃ mem', (s.setMem mem).mapNewPage va w =
      ((s.mapNewPage va w).1.setMem mem',(s.mapNewPage va w).2) := by
  have hpd : (s.setMem mem).pd = s.pd := rfl
  have hph : (s.setMem mem).phys = s.phys.setMem mem := rfl
  obtain ⟨mem₁,h₁⟩ := s.phys.allocUser_setMem mem
  simp only [mapNewPage,hpd,hph,h₁]
  rcases s.phys.allocUser with ⟨q,_ | f⟩
  · exact ⟨_,rfl⟩
  obtain ⟨mem₂,h₂⟩ := mapPage_setMem ⟨q,s.pd⟩ mem₁ va f ⟨w,true,false⟩ true
  have hq : Space.mk (q.setMem mem₁) s.pd = (Space.mk q s.pd).setMem mem₁ := rfl
  simp only [uvmmap_page ha hw,hq,h₂]
  rcases Space.mapPage ⟨q,s.pd⟩ va f ⟨w,true,false⟩ true with ⟨t,_ | _⟩
  · refine ⟨mem₂,?_⟩
    have ht : (t.setMem mem₂).phys = t.phys.setMem mem₂ := rfl
    simp only [ht,Phys.putPage_setMem]
    rfl
  · exact ⟨_,rfl⟩

theorem uvmCowFault_setMem (addr : Nat) : ∃ mem', (s.setMem mem).uvmCowFault addr =
    ((s.uvmCowFault addr).1.setMem mem',(s.uvmCowFault addr).2) := by
  have hpd : (s.setMem mem).pd = s.pd := rfl
  have hph : (s.setMem mem).phys = s.phys.setMem mem := rfl
  have hcount : ∀ f, (s.phys.setMem mem).pageRefcount f = s.phys.pageRefcount f := fun _ => rfl
  obtain ⟨mem',h⟩ := s.phys.allocUser_setMem mem
  simp only [uvmCowFault,hpd,hph,hcount,h]
  split
  · exact ⟨_,rfl⟩
  split
  · exact ⟨_,rfl⟩
  rename_i pte hl
  split
  · split
    · exact ⟨_,rfl⟩
    rcases s.phys.allocUser with ⟨q,_ | f⟩
    · exact ⟨_,rfl⟩
    obtain ⟨mem₂,hc⟩ : ∃ mem₂, (q.setMem mem').copyFrame pte.frame f =
      (q.copyFrame pte.frame f).setMem mem₂ := ⟨_,rfl⟩
    simp only [hc,Phys.putPage_setMem]
    exact ⟨mem₂,rfl⟩
  · exact ⟨_,rfl⟩

end Space

namespace Ctx

variable {x : Ctx} {X Y N : Nat → Nat} {va : Nat}

theorem Ok.setMem (h : x.Ok X Y N) (mem : Nat → Nat → UInt8) : (x.setMem mem).Ok X Y N :=
  ⟨⟨⟨h.space.phys.acct,h.space.phys.running⟩,h.space.wf⟩,h.shm,h.layout,h.backed,h.attach⟩

theorem demandFill_setMem (x : Ctx) (mem : Nat → Nat → UInt8) {page : Nat} {w : Bool}
    (ha : page % pgSize = 0) (hw : page < word) :
    ∃ mem', (x.setMem mem).demandFill page w =
      ((x.demandFill page w).1.setMem mem',(x.demandFill page w).2) := by
  have hs : (x.setMem mem).space = x.space.setMem mem := rfl
  obtain ⟨mem',h⟩ := x.space.mapNewPage_setMem (w := w) mem ha hw
  simp only [demandFill,hs,h]
  exact ⟨mem',rfl⟩

theorem uvmCowFault_setMem (x : Ctx) (mem : Nat → Nat → UInt8) (addr : Nat) :
    ∃ mem', (x.setMem mem).uvmCowFault addr =
      ((x.uvmCowFault addr).1.setMem mem',(x.uvmCowFault addr).2) := by
  have hs : (x.setMem mem).space = x.space.setMem mem := rfl
  obtain ⟨mem',h⟩ := x.space.uvmCowFault_setMem mem addr
  simp only [uvmCowFault,hs,h]
  exact ⟨mem',rfl⟩

theorem pin_setMem (cur write : Bool) (h : x.Ok X Y N) (mem : Nat → Nat → UInt8) (hw : va < word) :
    ∃ mem', (x.setMem mem).pin cur va write =
      ((x.pin cur va write).1.setMem mem',(x.pin cur va write).2) := by
  have hwd := pgRoundDown_lt_word hw
  have hdown := pgRoundDown_of_mod (pgRoundDown_mod va)
  have hmm : (x.setMem mem).mm = x.mm := rfl
  have hensure : ∃ mem', (x.setMem mem).ensureUserPage cur (pgRoundDown va) write =
      ((x.ensureUserPage cur (pgRoundDown va) write).1.setMem mem',
        (x.ensureUserPage cur (pgRoundDown va) write).2) := by
    simp only [ensureUserPage,hdown,hmm]
    split
    · split
      · exact x.uvmCowFault_setMem mem _
      · exact ⟨mem,rfl⟩
    rename_i hnone
    split
    · rw [h.uvmDemandFault_eq hwd hnone,(h.setMem mem).uvmDemandFault_eq hwd hnone,hmm]
      split
      · exact ⟨mem,rfl⟩
      split
      · exact ⟨mem,rfl⟩
      · rw [hdown]
        exact x.demandFill_setMem mem (pgRoundDown_mod va) hwd
    · exact ⟨mem,rfl⟩
  obtain ⟨mem',he⟩ := hensure
  simp only [pin,he]
  rcases x.ensureUserPage cur (pgRoundDown va) write with ⟨y,_ | _⟩
  · exact ⟨mem',rfl⟩
  · exact ⟨mem',rfl⟩

end Ctx

end TinyOs
