import TinyOs.Reachable

namespace TinyOs

open Option Finset

variable {ph ph' : Phys} {tbl tbl' : ShmTable} {marked : Nat → Prop}

namespace ShmTable

variable {tbl tbl' tbl'' : ShmTable} {id shmid : Nat} {seg : ShmSeg}

def Settled (tbl : ShmTable) : Prop :=
  ∀ id, (tbl id).inuse = true → (tbl id).dest = true → 0 < (tbl id).nattch

def UniqueKeys (tbl : ShmTable) : Prop :=
  ∀ id id', (tbl id).inuse = true → (tbl id').inuse = true → (tbl id).dest = false →
    (tbl id').dest = false → (tbl id).key = (tbl id').key → (tbl id).key ≠ ipcPrivate → id = id'

structure Moved (tbl tbl' : ShmTable) : Prop where
  alive : ∀ id, (tbl' id).inuse = true → (tbl id).inuse = true ∧ (tbl' id).key = (tbl id).key ∧
    (tbl' id).dest = (tbl id).dest
  freed : ∀ id, (tbl id).inuse = true → (tbl' id).inuse = false → (tbl id).dest = true
  settled : tbl.Settled → tbl'.Settled

theorem Moved.refl (tbl : ShmTable) : Moved tbl tbl :=
  ⟨fun _ hu => ⟨hu,rfl,rfl⟩,fun _ hu hn => absurd (hu.symm.trans hn) (by decide),id⟩

theorem Moved.trans (h : Moved tbl tbl') (h' : Moved tbl' tbl'') : Moved tbl tbl'' where
  alive id hu := by
    obtain ⟨hu',hk',hd'⟩ := h'.alive id hu
    obtain ⟨hu'',hk,hd⟩ := h.alive id hu'
    exact ⟨hu'',hk'.trans hk,hd'.trans hd⟩
  freed id hu hn := by
    cases hmid : (tbl' id).inuse with
    | false => exact h.freed id hu hmid
    | true =>
      rw [← (h.alive id hmid).2.2]
      exact h'.freed id hmid hn
  settled hs := h'.settled (h.settled hs)

theorem Moved.uniqueKeys (h : Moved tbl tbl') (hu : tbl.UniqueKeys) : tbl'.UniqueKeys := by
  intro id id' h1 h2 h3 h4 h5 h6
  obtain ⟨hu1,hk1,hd1⟩ := h.alive id h1
  obtain ⟨hu2,hk2,hd2⟩ := h.alive id' h2
  exact hu id id' hu1 hu2 (hd1 ▸ h3) (hd2 ▸ h4) (by rw [← hk1,← hk2,h5]) (hk1 ▸ h6)

theorem Moved.of_set (huse : (tbl id).inuse = true)
    (halive : seg.inuse = true → seg.key = (tbl id).key ∧ seg.dest = (tbl id).dest ∧
      (seg.dest = true → 0 < seg.nattch))
    (hfreed : seg.inuse = false → (tbl id).dest = true) : Moved tbl (tbl.set id seg) := by
  refine ⟨fun j hu => ?_,fun j hu hn => ?_,fun hs j hu hd => ?_⟩
  · by_cases hj : j = id
    · subst hj
      rw [set_self] at hu ⊢
      exact ⟨huse,(halive hu).1,(halive hu).2.1⟩
    · rw [set_of_ne hj] at hu ⊢
      exact ⟨hu,rfl,rfl⟩
  · by_cases hj : j = id
    · subst hj
      rw [set_self] at hn
      exact hfreed hn
    · rw [set_of_ne hj,hu] at hn
      cases hn
  · by_cases hj : j = id
    · subst hj
      rw [set_self] at hu hd ⊢
      exact (halive hu).2.2 hd
    · rw [set_of_ne hj] at hu hd ⊢
      exact hs j hu hd

theorem Moved.attach (hget : shmGet tbl shmid = some seg) :
    Moved tbl (tbl.set shmid { seg with nattch := seg.nattch + 1 }) := by
  obtain ⟨-,rfl,huse⟩ := shmGet_some hget
  refine .of_set huse (fun _ => ⟨rfl,rfl,fun _ => Nat.succ_pos _⟩) fun hn => ?_
  rw [show (tbl shmid).inuse = false from hn] at huse
  cases huse

structure Evolves (tbl tbl' : ShmTable) (marked : Nat → Prop) : Prop where
  alive : ∀ id, (tbl id).inuse = true → (tbl' id).inuse = true →
    ((tbl' id).dest = true ↔ (tbl id).dest = true ∨ marked id)
  freed : ∀ id, (tbl id).inuse = true → (tbl' id).inuse = false →
    (tbl id).dest = true ∨ marked id
  settled : tbl'.Settled
  unique : tbl'.UniqueKeys

theorem Moved.evolves (h : Moved tbl tbl') (hs : tbl.Settled)
    (hu : tbl.UniqueKeys) (hm : ∀ id, ¬ marked id) : Evolves tbl tbl' marked where
  alive id _ huse' := by
    rw [(h.alive id huse').2.2]
    exact ⟨.inl,fun hd => hd.resolve_right (hm id)⟩
  freed id huse hn := .inl (h.freed id huse hn)
  settled := h.settled hs
  unique := h.uniqueKeys hu

theorem Evolves.of_set (hs : tbl.Settled) (hu : tbl.UniqueKeys) (hmark : ∀ j, j ≠ id → ¬ marked j)
    (halive : (tbl id).inuse = true → seg.inuse = true →
      (seg.dest = true ↔ (tbl id).dest = true ∨ marked id))
    (hfreed : (tbl id).inuse = true → seg.inuse = false → (tbl id).dest = true ∨ marked id)
    (hpos : seg.inuse = true → seg.dest = true → 0 < seg.nattch)
    (hkey : seg.inuse = true → seg.dest = false → seg.key ≠ ipcPrivate →
      ∀ j, (tbl j).inuse = true → (tbl j).dest = false → j ≠ id → (tbl j).key ≠ seg.key) :
    Evolves tbl (tbl.set id seg) marked := by
  refine ⟨fun j huse huse' => ?_,fun j huse hn => ?_,fun j huse hd => ?_,
    fun i j hi hj hdi hdj hk hp => ?_⟩
  · by_cases hj : j = id
    · subst hj
      rw [set_self] at huse' ⊢
      exact halive huse huse'
    · rw [set_of_ne hj]
      exact ⟨.inl,fun hd => hd.resolve_right (hmark j hj)⟩
  · by_cases hj : j = id
    · subst hj
      rw [set_self] at hn
      exact hfreed huse hn
    · rw [set_of_ne hj,huse] at hn
      cases hn
  · by_cases hj : j = id
    · subst hj
      rw [set_self] at huse hd ⊢
      exact hpos huse hd
    · rw [set_of_ne hj] at huse hd ⊢
      exact hs j huse hd
  by_cases hei : i = id <;> by_cases hej : j = id
  · exact hei.trans hej.symm
  · subst hei
    rw [set_self] at hi hdi hk hp
    rw [set_of_ne hej] at hj hdj hk
    exact absurd hk.symm (hkey hi hdi hp j hj hdj hej)
  · subst hej
    rw [set_self] at hj hdj hk
    rw [set_of_ne hei] at hi hdi hk hp
    exact absurd hk (hkey hj hdj (hk ▸ hp) i hi hdi hei)
  · rw [set_of_ne hei] at hi hdi hk hp
    rw [set_of_ne hej] at hj hdj hk
    exact hu i j hi hj hdi hdj hk hp

end ShmTable

open ShmTable

theorem shmTryDestroyLocked_cases (ph : Phys) (seg : ShmSeg) (huse : seg.inuse = true) :
    ((shmTryDestroyLocked ph seg).2.inuse = false ∧ seg.dest = true ∧ seg.nattch = 0) ∨
      ((shmTryDestroyLocked ph seg).2 = seg ∧ (seg.dest = true → 0 < seg.nattch)) := by
  simp only [shmTryDestroyLocked]
  split
  · rename_i hc
    refine .inr ⟨rfl,fun hd => ?_⟩
    have : seg.nattch ≠ 0 := by simpa [huse,hd] using hc
    omega
  · rename_i hc
    simp only [Bool.or_eq_true,Bool.not_eq_true',bne_iff_ne,ne_eq,not_or,Decidable.not_not,
      Bool.not_eq_false] at hc
    exact .inl ⟨rfl,hc.1.2,hc.2⟩

namespace Ctx

variable {x : Ctx}

theorem detach_moved (x : Ctx) (shmid : Nat) : Moved x.shm (x.detach shmid).shm := by
  simp only [detach]
  split
  · exact .refl _
  rename_i seg hget
  obtain ⟨-,rfl,huse⟩ := shmGet_some hget
  dsimp only
  rcases shmTryDestroyLocked_cases x.phys
    { x.shm shmid with nattch := (x.shm shmid).nattch - 1 } huse with ⟨hfree,hdest,-⟩ | ⟨he,hpos⟩
  · refine .of_set huse (fun hu => ?_) fun _ => hdest
    rw [hfree] at hu
    cases hu
  rw [he]
  refine .of_set huse (fun _ => ⟨rfl,rfl,hpos⟩) fun hn => ?_
  rw [show (x.shm shmid).inuse = false from hn] at huse
  cases huse

theorem shmMunmapVma_moved (x : Ctx) (i : Nat) : Moved x.shm (x.shmMunmapVma i).1.shm := by
  simp only [shmMunmapVma]
  split
  · exact .refl _
  rename_i shmid _
  exact detach_moved ((x.unmapVma (x.mm.vmas i)).setVma i
    { x.mm.vmas i with used := false, flags := 0 }) shmid

theorem doShmdt_moved (x : Ctx) (shmaddr : Nat) : Moved x.shm (x.doShmdt shmaddr).1.shm := by
  simp only [doShmdt]
  split
  · exact .refl _
  split
  · exact .refl _
  · exact shmMunmapVma_moved x _

theorem doMunmap_moved (x : Ctx) (addr len : Nat) : Moved x.shm (x.doMunmap addr len).1.shm := by
  simp only [doMunmap]
  split
  · exact .refl _
  split
  · exact .refl _
  split
  · exact .refl _
  split
  · exact shmMunmapVma_moved x _
  · exact .refl _

theorem shmDetachAll_moved (x : Ctx) : Moved x.shm x.shmDetachAll.shm := by
  simp only [shmDetachAll]
  induction List.range nvma generalizing x with
  | nil => exact .refl _
  | cons i is ih =>
    rw [List.foldl_cons]
    refine Moved.trans ?_ (ih _)
    split
    · exact shmMunmapVma_moved x i
    · exact .refl _

theorem doShmat_moved (x : Ctx) (shmid shmaddr shmflg : Nat) :
    Moved x.shm (x.doShmat shmid shmaddr shmflg).1.shm := by
  simp only [doShmat]
  split
  · exact .refl _
  rename_i seg hget
  split
  · exact .refl _
  split
  · exact .refl _
  split
  · exact .refl _
  split
  · exact .refl _
  · exact .attach hget

end Ctx

theorem procDropMm_moved (ph : Phys) (shm : ShmTable) (mm : Mm) :
    Moved shm (procDropMm ph shm mm).2 := by
  simp only [procDropMm]
  exact Ctx.shmDetachAll_moved ⟨ph,shm,mm⟩

namespace Forking

theorem shmForkFixStep_moved (f : Forking) (i : Nat) : Moved f.shm (f.shmForkFixStep i).shm := by
  simp only [shmForkFixStep]
  split
  · exact .refl _
  split
  · exact .refl _
  rename_i seg hget
  split
  · exact .refl _
  split
  · exact .refl _
  dsimp only
  split
  · exact .attach hget
  · exact .refl _

theorem shmForkFix_moved (f : Forking) : Moved f.shm f.shmForkFix.shm := by
  simp only [shmForkFix]
  induction List.range nvma generalizing f with
  | nil => exact .refl _
  | cons i is ih =>
    rw [List.foldl_cons]
    exact (shmForkFixStep_moved f i).trans (ih _)

end Forking

theorem forkCopy_moved (ph : Phys) (shm : ShmTable) (mm : Mm) (kpd : Pgdir) (kmem : Bool) :
    Moved shm (forkCopy ph shm mm kpd kmem).2.1 := by
  simp only [forkCopy]
  rcases mmCreate ph kpd kmem with ⟨q,_ | m⟩
  · exact .refl _
  dsimp only
  rcases uvmcopy ⟨q,mm.pd,m.pd⟩ mm.taskSize with ⟨c,_ | _⟩
  · dsimp only
    exact procDropMm_moved c.phys shm { m with pd := c.new }
  dsimp only
  have hfix := Forking.shmForkFix_moved ⟨c.phys,shm,{ mm with pd := c.old },
    { mm with dir := m.dir, pd := c.new }⟩
  dsimp only at hfix
  generalize Forking.shmForkFix ⟨c.phys,shm,{ mm with pd := c.old },
    { mm with dir := m.dir, pd := c.new }⟩ = f at hfix ⊢
  rcases f.phys.allocPage with ⟨r,_ | kstack⟩
  · dsimp only
    exact hfix.trans (procDropMm_moved r f.shm f.child)
  · exact hfix

theorem execLoad_moved (ph : Phys) (shm : ShmTable) (old : Option Mm) (kpd : Pgdir) (kmem : Bool)
    (blob name : List UInt8) (argv envp : List (List UInt8)) :
    Moved shm (execLoad ph shm old kpd kmem blob name argv envp).2.1 := by
  simp only [execLoad]
  split
  · exact .refl _
  rcases mmCreate ph kpd kmem with ⟨q,_ | m⟩
  · exact .refl _
  dsimp only
  rcases execImage ⟨q,shm,m⟩ blob name argv envp with ⟨x,_ | heapEnd⟩
  · exact .refl _
  dsimp only
  cases old with
  | none => exact .refl _
  | some old =>
    dsimp only
    exact procDropMm_moved x.phys shm old

theorem shmAllocLoop_seg {seg seg' : ShmSeg} {js : List Nat} {b : Bool}
    (hr : Loop.forEach shmAllocPage js (ph,seg) = ((ph',seg'),b)) :
    seg'.key = seg.key ∧ seg'.dest = seg.dest := by
  have hbody : ∀ j ∈ js, ∀ ps : Phys × ShmSeg, ps.2.key = seg.key ∧ ps.2.dest = seg.dest →
      (shmAllocPage j ps).1.2.key = seg.key ∧ (shmAllocPage j ps).1.2.dest = seg.dest := by
    intro j _ ps hps
    simp only [shmAllocPage]
    rcases ps.1.allocUser with ⟨q,_ | f⟩
    · exact hps
    · exact hps
  have hinv := Loop.forEach_invariant hbody (s := (ph,seg)) ⟨rfl,rfl⟩
  rw [hr] at hinv
  exact hinv

theorem doShmget_table {key size shmflg r : Nat}
    (hr : doShmget ph tbl key size shmflg = (ph',tbl',r)) :
    tbl' = tbl ∨ ∃ id seg, tbl' = tbl.set id seg ∧ (tbl id).inuse = false ∧
      (seg.inuse = true → seg.dest = false ∧ (seg.key ≠ ipcPrivate →
        ∀ i < nshm, (tbl i).inuse = true → (tbl i).dest = false → (tbl i).key ≠ seg.key)) := by
  have hcreate : (key ≠ ipcPrivate → shmGetFind tbl key = none) →
      shmCreate ph tbl key size = (ph',tbl',r) →
      tbl' = tbl ∨ ∃ id seg, tbl' = tbl.set id seg ∧ (tbl id).inuse = false ∧
        (seg.inuse = true → seg.dest = false ∧ (seg.key ≠ ipcPrivate →
          ∀ i < nshm, (tbl i).inuse = true → (tbl i).dest = false → (tbl i).key ≠ seg.key)) := by
    intro hnone hc
    simp only [shmCreate] at hc
    split at hc
    · cases hc
      exact .inl rfl
    split at hc
    · cases hc
      exact .inl rfl
    split at hc
    · cases hc
      exact .inl rfl
    rename_i id hfind
    have hfree : (tbl id).inuse = false := by simpa using List.find?_some hfind
    split at hc
    · rename_i q seg hloop
      cases hc
      obtain ⟨hkey,hdest⟩ := shmAllocLoop_seg hloop
      dsimp only at hkey hdest
      refine .inr ⟨r,seg,rfl,hfree,fun _ => ⟨hdest,fun hne i hi huse hd he => ?_⟩⟩
      have hno := List.find?_eq_none.mp (hnone (hkey ▸ hne)) i (List.mem_range.mpr hi)
      rw [hkey] at he
      simp [huse,hd,he] at hno
    · cases hc
      exact .inr ⟨id,_,rfl,hfree,fun huse => by cases huse⟩
  simp only [doShmget] at hr
  split at hr
  · rcases hfind : shmGetFind tbl key with _ | i
    · simp only [hfind] at hr
      split at hr
      · cases hr
        exact .inl rfl
      · exact hcreate (fun _ => hfind) hr
    · simp only [hfind] at hr
      split at hr
      · cases hr
        exact .inl rfl
      · split at hr <;> cases hr <;> exact .inl rfl
  · rename_i hpriv
    exact hcreate (fun hne => absurd hne hpriv) hr

theorem doShmget_evolves {key size shmflg r : Nat} (hwf : tbl.Wf) (hs : tbl.Settled)
    (hu : tbl.UniqueKeys)
    (hm : ∀ id, ¬ marked id) (hr : doShmget ph tbl key size shmflg = (ph',tbl',r)) :
    Evolves tbl tbl' marked := by
  rcases doShmget_table hr with rfl | ⟨id,seg,rfl,hfree,hnew⟩
  · exact (Moved.refl tbl').evolves hs hu hm
  have hvacant : (tbl id).inuse = true → False := fun huse => Bool.noConfusion (hfree.symm.trans huse)
  refine .of_set hs hu (fun j _ => hm j) (fun huse => (hvacant huse).elim)
    (fun huse => (hvacant huse).elim) (fun huse hd => ?_) fun huse _ hp j hj hdj _ => ?_
  · rw [(hnew huse).1] at hd
    cases hd
  refine (hnew huse).2 hp j ?_ hj hdj
  by_contra hge
  rw [hwf.beyond j (not_lt.mp hge)] at hj
  cases hj

theorem doShmctl_evolves {shmid cmd : Nat} {b : Bool}
    (hwf : tbl.Wf) (hs : tbl.Settled) (hu : tbl.UniqueKeys)
    (hr : doShmctl ph tbl shmid cmd = (ph',tbl',b)) :
    Evolves tbl tbl' fun id => id = shmid ∧ cmd = ipcRmid := by
  simp only [doShmctl] at hr
  split at hr
  · rename_i hcmd
    cases hr
    exact (Moved.refl tbl).evolves hs hu fun id hm => hcmd hm.2
  rename_i hcmd
  split at hr
  · rename_i hget
    cases hr
    have hno : (tbl shmid).inuse = false := by
      rw [shmGet] at hget
      split at hget
      · rename_i hge
        rw [hwf.beyond shmid hge]
        rfl
      · split at hget
        · cases hget
        · simp_all
    refine ⟨fun id huse _ => ⟨.inl,fun hd => hd.resolve_right ?_⟩,fun id huse hn => ?_,hs,hu⟩
    · rintro ⟨rfl,-⟩
      rw [huse] at hno
      cases hno
    · rw [huse] at hn
      cases hn
  rename_i seg hget
  cases hr
  obtain ⟨-,rfl,huse⟩ := shmGet_some hget
  have hself : shmid = shmid ∧ cmd = ipcRmid := ⟨rfl,not_not.mp hcmd⟩
  refine .of_set hs hu (fun j hne hm => hne hm.1) ?_ (fun _ _ => .inr hself) ?_ ?_ <;>
    rcases shmTryDestroyLocked_cases ph { tbl shmid with dest := true } huse with
      ⟨hfree,-,-⟩ | ⟨he,hpos⟩
  · rw [hfree]
    rintro _ ⟨⟩
  · rw [he]
    exact fun _ _ => ⟨fun _ => .inr hself,fun _ => rfl⟩
  · rw [hfree]
    rintro ⟨⟩
  · rw [he]
    exact fun _ => hpos
  · rw [hfree]
    rintro ⟨⟩
  · rw [he]
    rintro _ ⟨⟩

def Op.editsTable : Op → Bool
  | .shmget _ _ _ | .shmctl _ _ => true
  | _ => false

def Op.marks : Op → Nat → Prop
  | .shmctl shmid cmd, id => id = shmid ∧ cmd = ipcRmid
  | _, _ => False

namespace Kernel

variable {k k' : Kernel} {op : Op} {out : Out} {p : Nat}

theorem killed_moved {mm : Mm} (h : k.killed p mm = some (k',out)) : Moved k.shm k'.shm := by
  obtain ⟨k₂,hexit,he⟩ := map_eq_some_iff.mp h
  obtain ⟨rfl,-⟩ := Prod.mk.inj he
  obtain ⟨-,hexit⟩ := ite_none_left_eq_some.mp hexit
  obtain rfl := Option.some.inj hexit
  dsimp only
  exact procDropMm_moved k.phys k.shm mm

theorem access_shm {mm : Mm} {va : Nat} (write : Bool) (h : k.Inv) (hc : k.current p = some mm)
    (hw : va < word) : ((k.ctx mm).access write va 2).1.shm = k.shm := by
  rcases @Ctx.access_cases _ _ _ _ va write (h.ctxOk hc) hw with
    ⟨x,f,he,-,hs,-⟩ | ⟨x,he,hno | ⟨rfl,-⟩⟩
  · rw [he]
    exact (hs.paged (h.ctxOk hc)).shm
  · rw [he]
    exact (hno.paged (h.ctxOk hc)).shm
  · rw [he]
    rfl

theorem step_moved (h : k.Inv) (hop : op.editsTable = false) (hs : k.step op = some (k',out)) :
    Moved k.shm k'.shm := by
  cases op with
  | fork p kmem =>
    obtain ⟨mm,-,rfl⟩ := map_current hs
    have hmoved := forkCopy_moved k.phys k.shm mm k.kernelPgdir kmem
    simp only [Kernel.fork]
    rcases k.procAlloc with _ | q
    · exact .refl _
    dsimp only
    rcases hf : forkCopy k.phys k.shm mm k.kernelPgdir kmem with ⟨ph,shm,parent,_ | ⟨child,kstack⟩⟩
    · rw [hf] at hmoved
      exact hmoved
    · rw [hf] at hmoved
      exact hmoved
  | exit p =>
    obtain ⟨mm,-,he⟩ := bind_current hs
    exact killed_moved he
  | reap p | kthreadExit p =>
    obtain ⟨-,rfl⟩ := ite_step hs
    rw [Kernel.zombieReap]
    split <;> exact .refl _
  | kthreadCreate =>
    obtain rfl := some_step hs
    rw [Kernel.kthreadCreate]
    split
    · exact .refl _
    · split <;> exact .refl _
  | execve p kmem blob name argv envp =>
    obtain ⟨-,rfl⟩ := ite_step hs
    exact execLoad_moved k.phys k.shm (k.procs p).mm k.kernelPgdir kmem blob name argv envp
  | brk p addr | mmap p addr len prot flags fd =>
    obtain ⟨mm,-,rfl⟩ := map_current hs
    exact .refl _
  | munmap p addr len =>
    obtain ⟨mm,-,rfl⟩ := map_current hs
    exact Ctx.doMunmap_moved (k.ctx mm) addr len
  | shmget key size shmflg | shmctl shmid cmd => cases hop
  | shmat p shmid shmaddr shmflg =>
    obtain ⟨mm,-,rfl⟩ := map_current hs
    exact Ctx.doShmat_moved (k.ctx mm) shmid shmaddr shmflg
  | shmdt p shmaddr =>
    obtain ⟨mm,-,rfl⟩ := map_current hs
    exact Ctx.doShmdt_moved (k.ctx mm) shmaddr
  | load p va =>
    obtain ⟨hw,he⟩ := ite_none_right_eq_some.mp hs
    obtain ⟨mm,hc,hl⟩ := bind_current he
    have hshm := access_shm false h hc hw
    rw [Kernel.load] at hl
    rcases ha : (k.ctx mm).access false va 2 with ⟨x,f | _ | _⟩ <;> rw [ha] at hl hshm
    · cases hl
      exact hshm ▸ .refl _
    · exact hshm ▸ killed_moved hl
    · cases hl
  | store p va b =>
    obtain ⟨hw,he⟩ := ite_none_right_eq_some.mp hs
    obtain ⟨mm,hc,hl⟩ := bind_current he
    have hshm := access_shm true h hc hw
    rw [Kernel.store] at hl
    rcases ha : (k.ctx mm).access true va 2 with ⟨x,f | _ | _⟩ <;> rw [ha] at hl hshm
    · cases hl
      exact hshm ▸ .refl _
    · exact hshm ▸ killed_moved hl
    · cases hl
  | copyin p srcva n =>
    obtain ⟨⟨hw,-⟩,he⟩ := ite_none_right_eq_some.mp hs
    obtain ⟨mm,hc,rfl⟩ := map_current he
    have hshm := (Ctx.copyin_paged true n (h.ctxOk hc) hw).shm
    exact (show _ = k.shm from hshm) ▸ .refl _
  | copyout p dstva src =>
    obtain ⟨⟨hw,-⟩,he⟩ := ite_none_right_eq_some.mp hs
    obtain ⟨mm,hc,rfl⟩ := map_current he
    have hshm := (Ctx.copyout_paged true src (h.ctxOk hc) hw).shm
    exact (show _ = k.shm from hshm) ▸ .refl _
  | kalloc order =>
    obtain rfl := some_step hs
    rw [Kernel.kalloc]
    split <;> exact .refl _
  | kfree b =>
    obtain ⟨-,rfl⟩ := ite_step hs
    rw [Kernel.kfree]
    split <;> exact .refl _

def attachments (k : Kernel) (id : Nat) : Finset (Nat × Nat) :=
  (Finset.range nproc ×ˢ Finset.range nvma).filter fun pi =>
    ((k.procs pi.1).mm.bind fun mm => vmaShmid (mm.vmas pi.2)) = some id

theorem card_attachments (k : Kernel) (id : Nat) :
    (k.attachments id).card = k.total procAttached id := by
  rw [attachments,card_filter,sum_product,total,Finset.sum_apply]
  refine sum_congr rfl fun p _ => ?_
  rw [procAttached]
  rcases hmm : (k.procs p).mm with _ | mm
  · simp [hmm,mmAttached]
  rw [mmAttached,Mm.attached,Finset.sum_apply]
  refine sum_congr rfl fun i _ => ?_
  rw [vmaAttach]
  rcases hid : vmaShmid (mm.vmas i) with _ | j
  · simp [hmm,hid]
  by_cases he : j = id
  · simp [hmm,hid,he]
  · simp [hmm,hid,he,Count.unit,Ne.symm he]

theorem step_evolves (hinv : k.Inv) (h : k.shm.Settled) (hu : k.shm.UniqueKeys)
    (hs : k.step op = some (k',out)) : Evolves k.shm k'.shm (Op.marks op) := by
  by_cases hop : op.editsTable = false
  · refine (step_moved hinv hop hs).evolves h hu fun id hm => ?_
    cases op <;> first | exact hm | cases hop
  cases op <;> try exact absurd rfl hop
  case shmget key size shmflg =>
    obtain rfl := some_step hs
    exact doShmget_evolves hinv.table h hu (fun _ => id) rfl
  case shmctl shmid cmd =>
    obtain rfl := some_step hs
    exact doShmctl_evolves hinv.table h hu rfl

theorem segments_run {k₀ : Kernel} {ops : List Op} (hrun : Transition.Run Next k₀ ops k)
    (hinv : k₀.Inv) (h : k₀.shm.Settled) (hu : k₀.shm.UniqueKeys) :
    k.shm.Settled ∧ k.shm.UniqueKeys := by
  have hstep : ∀ s op t, s.Inv ∧ s.shm.Settled ∧ s.shm.UniqueKeys → Next s op t →
      t.Inv ∧ t.shm.Settled ∧ t.shm.UniqueKeys := by
    rintro s op t ⟨hi,hs,hu⟩ hn
    refine ⟨inv_step hi hn,?_⟩
    obtain ⟨out,hout⟩ := hn
    have he := step_evolves hi hs hu hout
    exact ⟨he.settled,he.unique⟩
  exact (hrun.invariant hstep ⟨hinv,h,hu⟩).2

theorem boot_segments {kernelEnd top : Nat} {mem : Nat → Nat → UInt8} {kpd : Pgdir}
    (hb : boot kernelEnd top mem kpd = some k) : k.shm.Settled ∧ k.shm.UniqueKeys := by
  obtain ⟨s,-,rfl⟩ := map_eq_some_iff.mp hb
  exact ⟨nofun,nofun⟩

theorem Inv.card_eq_nattch (h : k.Inv) (id : Nat) :
    (k.attachments id).card = (k.shm id).nattch := by
  rw [card_attachments,h.attach]

theorem segment_counts_exact (kernelEnd top : Nat) (mem : Nat → Nat → UInt8) (kpd : Pgdir)
    (k₀ k : Kernel) (ops : List Op) (hk : kpd.Supervisor)
    (hboot : boot kernelEnd top mem kpd = some k₀) (hrun : Transition.Run Next k₀ ops k) :
    (∀ id, (k.shm id).inuse = true → (k.shm id).nattch = (k.attachments id).card) ∧
    (∀ id, k.attachments id ≠ ∅ → (k.shm id).inuse = true) ∧
    (∀ op k' out, k.step op = some (k',out) → ∀ id, (k.shm id).inuse = true →
      ((k'.shm id).inuse = false ↔
        ((k.shm id).dest = true ∨ op = .shmctl id ipcRmid) ∧ k'.attachments id = ∅)) ∧
    ∀ id id', (k.shm id).inuse = true → (k.shm id').inuse = true → (k.shm id).dest = false →
      (k.shm id').dest = false → (k.shm id).key = (k.shm id').key → (k.shm id).key ≠ ipcPrivate →
      id = id' := by
  have hinv := inv_run (boot_inv hk hboot) hrun
  have hseg := boot_segments hboot
  obtain ⟨hset,huniq⟩ := segments_run hrun (boot_inv hk hboot) hseg.1 hseg.2
  refine ⟨fun id _ => (hinv.card_eq_nattch id).symm,fun id hne => ?_,fun op k' out hs id huse => ?_,
    huniq⟩
  · by_contra hno
    refine hne (card_eq_zero.mp ?_)
    rw [hinv.card_eq_nattch]
    exact (hinv.table.seg id).idle (by simpa using hno)
  have hinv' := inv_step hinv ⟨out,hs⟩
  have hev := step_evolves hinv hset huniq hs
  have hmarks : op.marks id ↔ op = .shmctl id ipcRmid := by
    cases op <;> simp [Op.marks,eq_comm]
  rw [← hmarks]
  constructor
  · intro hn
    refine ⟨hev.freed id huse hn,card_eq_zero.mp ?_⟩
    rw [hinv'.card_eq_nattch]
    exact (hinv'.table.seg id).idle hn
  rintro ⟨hd,hempty⟩
  by_contra hno
  have huse' : (k'.shm id).inuse = true := by simpa using hno
  have hpos := hev.settled id huse' ((hev.alive id huse huse').mpr hd)
  rw [← hinv'.card_eq_nattch,hempty] at hpos
  exact absurd hpos (by simp)

theorem segment_counts_exact_removed :
    ∃ k₀ k : Kernel, boot 0x102000 0x180000 (fun _ _ => 0) (fun _ => none) = some k₀ ∧
      Transition.Run Next k₀ [.kthreadCreate,.execve 1 true [0x90] [] [] [],.shmget 5 4096 0x200,
        .shmat 1 0 0 0,.fork 1 true,.shmctl 0 0] k ∧
      (k.shm 0).dest = true ∧ (k.attachments 0).card = 2 ∧
      ∀ op k' out, k.step op = some (k',out) →
        ((k'.shm 0).inuse = false ↔ k'.attachments 0 = ∅) := by
  obtain ⟨k₀,k,hb,hr,ht⟩ := exists_run (boot 0x102000 0x180000 (fun _ _ => 0) fun _ => none)
    [.kthreadCreate,.execve 1 true [0x90] [] [] [],.shmget 5 4096 0x200,.shmat 1 0 0 0,.fork 1 true,
      .shmctl 0 0]
    (fun k => (k.shm 0).inuse = true ∧ (k.shm 0).dest = true ∧ (k.shm 0).nattch = 2)
    (by decide +kernel)
  obtain ⟨huse,hdest,hn⟩ := ht
  obtain ⟨hcount,-,hfree,-⟩ := segment_counts_exact _ _ _ _ k₀ k _ supervisor_empty hb hr
  refine ⟨k₀,k,hb,hr,hdest,(hcount 0 huse).symm.trans hn,fun op k' out hs => ?_⟩
  rw [hfree op k' out hs 0 huse]
  simp [hdest]

end Kernel

end TinyOs
