import TinyOs.Image
import TinyOs.Tidy

namespace TinyOs

open Count

variable {ph ph' : Phys} {shm shm' : ShmTable} {mm : Mm} {X Y N U K : Nat → Nat} {kpd : Pgdir}
  {old new : Option Mm} {kmem : Bool}

structure Torn (ph ph' : Phys) (shm shm' : ShmTable) (own X Y N : Nat → Nat) : Prop where
  ok : ph'.Ok (shm'.refs + X) Y
  wf : shm'.Wf
  attach : ∀ id, (shm' id).nattch = N id
  out : Outside shm shm' own 0 X N
  segs : ∀ f, shm'.refs f ≤ shm.refs f
  same : ph.Same ph'

theorem procDropMm_spec (h : Ctx.Ok ⟨ph,shm,mm⟩ X (unit mm.dir + Y) N) :
    Torn ph (procDropMm ph shm mm).1 shm (procDropMm ph shm mm).2 mm.pd.userRefs X Y N := by
  obtain ⟨hs,hnone⟩ := Ctx.shmDetachAll_spec h
  simp only [procDropMm,mmDestroy]
  generalize Ctx.shmDetachAll ⟨ph,shm,mm⟩ = y at hs hnone
  have hok : y.phys.Ok (y.mm.pd.userRefs + (y.shm.refs + X))
      (y.mm.pd.dirRefs + (unit y.mm.dir + Y)) := by
    have hd : y.mm.dir = mm.dir := hs.dir
    rw [hd]
    exact hs.ok.space.phys
  refine ⟨uvmfree_ok hok,hs.ok.shm,fun id => ?_,hs.out.trans ?_,hs.segs,
    hs.same.trans (uvmfree_same ..)⟩
  · rw [hs.ok.attach id,Mm.attached_zero hnone,zero_add]
  · exact Outside.of_refs fun _ _ _ _ => rfl

structure NewMm (ph ph' : Phys) (U K : Nat → Nat) (mm : Mm) : Prop where
  created : Created ph ph' U K mm.dir mm.pd
  layout : mm.Layout
  brk : mm.brk = userLoad
  vmas : ∀ i, mm.vmas i = Vma.empty

theorem mmCreate_none (h : ph.Ok U K) (hc : mmCreate ph kpd kmem = (ph',none)) :
    ph'.Ok U K ∧ Keeps U ph ph' ∧ (ph'.pmm.failed = 0 → kmem = false) := by
  simp only [mmCreate] at hc
  split at hc
  · rcases hu : uvmcreate ph kpd with ⟨q,_ | ⟨dir,pd⟩⟩
    · simp only [hu,Prod.mk.injEq,and_true] at hc
      subst hc
      obtain ⟨hok,hkeeps,-,hf⟩ := uvmcreate_none h hu
      exact ⟨hok,hkeeps,fun hno => absurd hno (Nat.ne_zero_of_lt hf)⟩
    · simp [hu] at hc
  · rename_i hk
    cases hc
    exact ⟨h,.refl _ _,fun _ => by simpa using hk⟩

theorem mmCreate_some (h : ph.Ok U K) (hk : kpd.Supervisor)
    (hc : mmCreate ph kpd kmem = (ph',some mm)) : NewMm ph ph' U K mm := by
  simp only [mmCreate] at hc
  split at hc
  · rcases hu : uvmcreate ph kpd with ⟨q,_ | ⟨dir,pd⟩⟩
    · simp [hu] at hc
    simp only [hu,Prod.mk.injEq,Option.some.injEq] at hc
    obtain ⟨rfl,rfl⟩ := hc
    refine ⟨uvmcreate_some h hk hu,?_,rfl,fun _ => rfl⟩
    have htop : userLoad ≤ userHeapTop := by decide
    exact ⟨rfl,rfl,rfl,le_rfl,le_rfl,htop,nofun,nofun,nofun⟩
  · cases hc

structure Mm.Ok (mm : Mm) (tbl : ShmTable) : Prop where
  wf : mm.pd.Wf
  layout : mm.Layout
  backed : mm.Backed tbl

def mmUser : Option Mm → Nat → Nat
  | none => 0
  | some mm => mm.pd.userRefs

def mmKernel : Option Mm → Nat → Nat
  | none => 0
  | some mm => mm.pd.dirRefs + unit mm.dir

def mmAttached : Option Mm → Nat → Nat
  | none => 0
  | some mm => mm.attached

structure Slot (ph : Phys) (shm : ShmTable) (o : Option Mm) (X Y N : Nat → Nat) : Prop where
  phys : ph.Ok (mmUser o + (shm.refs + X)) (mmKernel o + Y)
  table : shm.Wf
  mm : ∀ mm, o = some mm → mm.Ok shm
  attach : ∀ id, (shm id).nattch = (mmAttached o + N) id

theorem Slot.ctx (h : Slot ph shm (some mm) X Y N) : Ctx.Ok ⟨ph,shm,mm⟩ X (unit mm.dir + Y) N := by
  have hmm := h.mm mm rfl
  refine ⟨⟨?_,hmm.wf⟩,h.table,hmm.layout,hmm.backed,h.attach⟩
  have := h.phys
  rwa [mmKernel,add_assoc] at this

theorem Ctx.Ok.slot {x : Ctx} {dir : Nat} (h : x.Ok X (unit dir + Y) N) (hd : x.mm.dir = dir) :
    Slot x.phys x.shm (some x.mm) X Y N := by
  subst hd
  refine ⟨?_,h.shm,fun mm hmm => ?_,h.attach⟩
  · rw [mmKernel,add_assoc]
    exact h.space.phys
  · cases hmm
    exact ⟨h.wf,h.layout,h.backed⟩

theorem NewMm.space (h : NewMm ph ph' U K mm) : Space.Ok ⟨ph',mm.pd⟩ U (unit mm.dir + K) := by
  refine ⟨?_,h.created.wf⟩
  have := h.created.ok
  dsimp only
  rwa [h.created.userRefs,h.created.dirRefs,zero_add,zero_add,add_comm (unit mm.dir)]

theorem NewMm.sole (h : NewMm ph ph' U K mm) : Space.Sole ⟨ph',mm.pd⟩ U := by
  intro a ha pte hl
  have := h.created.lookup a ha
  simp_all

structure Execed (ph ph' : Phys) (shm shm' : ShmTable) (old new : Option Mm)
    (X Y N : Nat → Nat) : Prop where
  slot : Slot ph' shm' new X Y N
  out : Outside shm shm' (mmUser old) (mmUser new) X N
  keeps : Keeps X ph ph'

theorem execed_of_torn {ph₁ : Phys} {own : Nat → Nat}
    (hkeeps : Keeps X ph ph₁) (hmm : ∀ mm, new = some mm → mm.Ok shm')
    (hatt : mmAttached new = 0) (hnew : ∀ f, 0 < X f → mmUser new f = 0)
    (ht : Torn ph₁ ph' shm shm' own (mmUser new + X) (mmKernel new + Y) N)
    (hown : mmUser old = own) : Execed ph ph' shm shm' old new X Y N := by
  subst hown
  refine ⟨⟨?_,ht.wf,hmm,fun id => ?_⟩,⟨ht.out.stable,fun id j f hj => ?_,fun f hf h0 => ?_⟩,
    hkeeps.trans (.of_same ht.same)⟩
  · rw [add_left_comm]
    exact ht.ok
  · rw [hatt,zero_add]
    exact ht.attach id
  · exact (ht.out.slots id j f hj).imp_right fun h0 => (Nat.add_eq_zero_iff.mp h0).2
  · have h1 := ht.out.closed f (Nat.add_pos_right _ hf) h0
    rw [Pi.add_apply] at h1 ⊢
    rw [hnew f hf]
    exact h1

structure Fresh (mm : Mm) (U : Nat → Nat) : Prop where
  wf : mm.pd.Wf
  layout : mm.Layout
  vmas : ∀ i, mm.vmas i = Vma.empty
  sole : ∀ a < userEnd, ∀ pte, mm.pd.lookup a = some pte → (mm.pd.userRefs + U) pte.frame = 1
  pages : ∀ a < userEnd, mm.pd.lookup a ≠ none → a < pgRoundUp mm.brk ∨ userStackBottom ≤ a

namespace Fresh

theorem shmid (h : Fresh mm U) (i : Nat) : vmaShmid (mm.vmas i) = none := by
  rw [h.vmas]
  rfl

theorem ok (h : Fresh mm U) (tbl : ShmTable) : mm.Ok tbl :=
  ⟨h.wf,h.layout,⟨fun i _ id hid => by simp [h.shmid] at hid,
    fun i _ id hid => by simp [h.shmid] at hid⟩⟩

theorem attached (h : Fresh mm U) : mm.attached = 0 := Mm.attached_zero fun i _ => h.shmid i

theorem disjoint (h : Fresh mm U) {f : Nat} (hf : 0 < U f) : mm.pd.userRefs f = 0 := by
  by_contra hne
  obtain ⟨a,ha,pte,hl,rfl⟩ := Pgdir.exists_of_userRefs_pos (pos_of_ne_zero hne)
  have := h.sole a ha pte hl
  rw [Pi.add_apply] at this
  omega

theorem tidy (own : Nat → Nat) {V : Nat → Nat} (h : Fresh mm (own + (shm.refs + X))) (hwf : shm'.Wf)
    (hV : V = mm.pd.userRefs + X) (hout : Outside shm shm' own 0 V N) :
    mm.Tidy shm' (mm.pd.userRefs + (shm'.refs + X)) := by
  have hone : ∀ a < userEnd, ∀ pte, mm.pd.lookup a = some pte →
      mm.pd.userRefs pte.frame = 1 ∧ X pte.frame = 0 ∧ shm'.refs pte.frame = 0 := by
    intro a ha pte hl
    have h1 := h.sole a ha pte hl
    have h2 := Pgdir.userRefs_pos h.wf ha hl
    simp only [Pi.add_apply] at h1
    have h3 := hout.closed pte.frame (by rw [hV,Pi.add_apply]; omega) (by rw [Pi.add_apply]; omega)
    rw [zero_add] at h3
    exact ⟨by omega,by omega,h3⟩
  refine ⟨fun a ha pte hl id j hj => ?_,fun a ha pte hl _ => .inl ?_,fun a ha hne => ?_⟩
  · have h1 := (hone a ha pte hl).2.2
    have h2 := (hwf.slot_refs hj).2
    omega
  · obtain ⟨h1,h2,h3⟩ := hone a ha pte hl
    simp only [Pi.add_apply]
    omega
  · exact (h.pages a ha hne).imp_right .inl

end Fresh

theorem fresh_of_imaged {x' : Ctx} {heapEnd : Nat} {q : Phys} (hnew : NewMm ph q U K mm)
    (hi : Imaged ⟨q,shm,mm⟩ x' U Y (some heapEnd)) :
    Fresh { x'.mm with taskSize := userEnd, brk := heapEnd, brkStart := heapEnd } U := by
  have hmm : x'.mm = { mm with pd := x'.mm.pd } := hi.mm
  have hlow := hi.low heapEnd rfl
  have htop := hi.top heapEnd rfl
  have hvmas : ∀ i, x'.mm.vmas i = Vma.empty := fun i => by
    rw [hmm]
    exact hnew.vmas i
  have hunused : ∀ i, (x'.mm.vmas i).used ≠ true := fun i => by
    rw [hvmas]
    nofun
  refine ⟨hi.loaded.ok.wf,⟨?_,rfl,?_,hlow,le_rfl,htop,fun i _ hu => absurd hu (hunused i),
    fun i _ hu => absurd hu (hunused i),fun i _ j _ _ hu => absurd hu (hunused i)⟩,hvmas,
    fun a ha pte hl => (hi.loaded.sole a ha pte hl).1,fun a ha hne => ?_⟩
  · rw [hmm]
    exact hnew.layout.base
  · rw [hmm]
    exact hnew.layout.mmap
  rcases hi.pages heapEnd rfl a ha hne with hold | hlow | hstack
  · exact absurd (hnew.created.lookup a ha) hold
  · refine .inl ?_
    have := htop.trans userHeapTop_le
    simp only [pgRoundUp,pgSize,word,userEnd,kernBase] at *
    omega
  · have hal : userStackBottom % pgSize = 0 := by decide
    refine .inr ?_
    simp only [pgSize] at *
    omega

theorem Execed.failed (h : Slot ph shm old X Y N)
    (hok : ph'.Ok (mmUser old + (shm.refs + X)) (mmKernel old + Y)) (hk : Keeps X ph ph') :
    Execed ph ph' shm shm old old X Y N :=
  ⟨⟨hok,h.table,h.mm,h.attach⟩,Outside.refl _ _ _ _,hk⟩

theorem execLoad_spec {b : Bool} {blob name : List UInt8}
    {argv envp : List (List UInt8)} (h : Slot ph shm old X Y N) (hk : kpd.Supervisor)
    (he : execLoad ph shm old kpd kmem blob name argv envp = (ph',shm',new,b)) :
    Execed ph ph' shm shm' old new X Y N ∧ ((new = old ∧ shm' = shm) ∨ ∃ mm, new = some mm ∧
        mm.Tidy shm' (mm.pd.userRefs + (shm'.refs + X)) ∧ ∀ i, mm.vmas i = Vma.empty) := by
  have hkeep : ∀ {q : Phys}, Keeps (mmUser old + (shm.refs + X)) ph q → Keeps X ph q :=
    fun hq => hq.mono fun f hf => Nat.add_pos_right _ (Nat.add_pos_right _ hf)
  simp only [execLoad] at he
  split at he
  · cases he
    exact ⟨.failed h h.phys (.refl _ _),.inl ⟨rfl,rfl⟩⟩
  rcases hc : mmCreate ph kpd kmem with ⟨q,_ | mm⟩
  · simp only [hc,Prod.mk.injEq] at he
    obtain ⟨rfl,rfl,rfl,-⟩ := he
    obtain ⟨hok,hkeeps,-⟩ := mmCreate_none h.phys hc
    exact ⟨.failed h hok (hkeep hkeeps),.inl ⟨rfl,rfl⟩⟩
  have hnew := mmCreate_some h.phys hk hc
  simp only [hc] at he
  rcases hx : execImage ⟨q,shm,mm⟩ blob name argv envp with ⟨x,_ | heapEnd⟩
  · have hi := execImage_imaged (x := ⟨q,shm,mm⟩) hnew.space hnew.sole hx
    simp only [hx,Prod.mk.injEq] at he
    obtain ⟨rfl,rfl,rfl,-⟩ := he
    have hdir : x.mm.dir = mm.dir := by rw [hi.mm]
    have hload : Keeps (mmUser old + (shm.refs + X)) q x.phys := hi.loaded.keeps
    refine ⟨.failed h (uvmfree_ok (hdir ▸ hi.loaded.ok.phys)) ?_,.inl ⟨rfl,rfl⟩⟩
    exact hkeep ((hnew.created.keeps.trans hload).trans (.of_same (uvmfree_same ..)))
  have hi := execImage_imaged (x := ⟨q,shm,mm⟩) hnew.space hnew.sole hx
  have hfresh := fresh_of_imaged hnew hi
  have hdir : x.mm.dir = mm.dir := by rw [hi.mm]
  have hks : Keeps X ph x.phys := hkeep (hnew.created.keeps.trans hi.loaded.keeps)
  have hphys := hi.loaded.ok.phys
  rw [← hdir] at hphys
  simp only [hx] at he
  generalize hmm : { x.mm with taskSize := userEnd, brk := heapEnd, brkStart := heapEnd } = new'
    at he hfresh
  have hpd : x.space.pd = new'.pd := by rw [← hmm]; rfl
  have hd : x.mm.dir = new'.dir := by rw [← hmm]
  rw [hpd,hd] at hphys
  have hdis : ∀ f, 0 < X f → mmUser (some new') f = 0 := fun f hf =>
    hfresh.disjoint (Nat.add_pos_right _ (Nat.add_pos_right _ hf))
  have hatt : mmAttached (some new') = 0 := hfresh.attached
  have hall : ∀ tbl mm, some new' = some mm → mm.Ok tbl := by
    rintro tbl mm ⟨⟩
    exact hfresh.ok tbl
  rcases old with _ | old
  · simp only [Prod.mk.injEq] at he
    obtain ⟨rfl,rfl,rfl,-⟩ := he
    have ht : Torn x.phys x.phys shm shm 0 (mmUser (some new') + X) (mmKernel (some new') + Y) N := by
      refine ⟨?_,h.table,fun id => ?_,Outside.refl _ _ _ _,fun _ => le_rfl,.refl _⟩
      · have e : new'.pd.userRefs + (mmUser none + (shm.refs + X)) =
            shm.refs + (mmUser (some new') + X) := by
          simp only [mmUser]
          abel
        have e' : new'.pd.dirRefs + (unit new'.dir + (mmKernel none + Y)) =
            mmKernel (some new') + Y := by
          simp only [mmKernel]
          abel
        rwa [e,e'] at hphys
      · have := h.attach id
        rwa [mmAttached,zero_add] at this
    exact ⟨execed_of_torn hks (hall _) hatt hdis ht rfl,
      .inr ⟨new',rfl,hfresh.tidy 0 h.table rfl ht.out,hfresh.vmas⟩⟩
  simp only [Prod.mk.injEq] at he
  obtain ⟨rfl,rfl,rfl,-⟩ := he
  have hold := h.mm old rfl
  have hctx : Ctx.Ok ⟨x.phys,shm,old⟩ (mmUser (some new') + X)
      (unit old.dir + (mmKernel (some new') + Y)) N := by
    refine ⟨⟨?_,hold.wf⟩,h.table,hold.layout,hold.backed,h.attach⟩
    have e : new'.pd.userRefs + (mmUser (some old) + (shm.refs + X)) =
        old.pd.userRefs + (shm.refs + (mmUser (some new') + X)) := by
      simp only [mmUser]
      abel
    have e' : new'.pd.dirRefs + (unit new'.dir + (mmKernel (some old) + Y)) =
        old.pd.dirRefs + (unit old.dir + (mmKernel (some new') + Y)) := by
      simp only [mmKernel]
      abel
    rwa [e,e'] at hphys
  have ht := procDropMm_spec hctx
  exact ⟨execed_of_torn hks (hall _) hatt hdis ht rfl,
    .inr ⟨new',rfl,hfresh.tidy _ ht.wf rfl ht.out,hfresh.vmas⟩⟩

end TinyOs
