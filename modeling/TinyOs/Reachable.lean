import TinyOs.Library.Machine
import TinyOs.Steps

namespace TinyOs

open Count Option Finset
open Dyadic (Block)

def Op.actor : Op → Nat
  | .fork p _ | .exit p | .execve p _ _ _ _ _ | .brk p _ | .mmap p _ _ _ _ _ | .munmap p _ _
  | .shmat p _ _ _ | .shmdt p _ | .load p _ | .store p _ _ | .copyin p _ _ | .copyout p _ _ => p
  | .reap _ | .kthreadCreate | .kthreadExit _ | .shmget _ _ _ | .shmctl _ _ | .kalloc _ | .kfree _ =>
    nproc

namespace Kernel

variable {k k' : Kernel} {op : Op} {out : Out} {ops : List Op} {mem : Nat → Nat → UInt8}

theorem some_step {k₁ : Kernel} {o : Out} (h : some (k₁,o) = some (k',out)) : k₁ = k' :=
  (Prod.mk.inj (some.inj h)).1

theorem ite_step {c : Prop} [Decidable c] {k₁ : Kernel} {o : Out}
    (h : (if c then some (k₁,o) else none) = some (k',out)) : c ∧ k₁ = k' :=
  (ite_none_right_eq_some.mp h).imp_right some_step

theorem map_current {p : Nat} {f : Mm → Kernel × Out}
    (h : (k.current p).map f = some (k',out)) : ∃ mm, k.current p = some mm ∧ (f mm).1 = k' := by
  obtain ⟨mm,hc,he⟩ := map_eq_some_iff.mp h
  exact ⟨mm,hc,congrArg Prod.fst he⟩

theorem bind_current {p : Nat} {f : Mm → Option (Kernel × Out)}
    (h : (k.current p).bind f = some (k',out)) :
    ∃ mm, k.current p = some mm ∧ f mm = some (k',out) :=
  bind_eq_some_iff.mp h

theorem step_moves (h : k.Inv) (hs : k.step op = some (k',out)) :
    Moves k k' op.actor ∨ k' = k := by
  cases op with
  | fork p kmem =>
    obtain ⟨mm,hc,rfl⟩ := map_current hs
    exact h.fork hc
  | exit p =>
    obtain ⟨mm,hc,he⟩ := bind_current hs
    obtain ⟨k₂,hexit,he⟩ := map_eq_some_iff.mp he
    obtain ⟨rfl,-⟩ := Prod.mk.inj he
    obtain ⟨hinv,hch,ht⟩ := h.exit hc hexit
    exact .inl ⟨⟨hinv,0,hch⟩,fun hk _ => ht hk⟩
  | reap p =>
    obtain ⟨⟨hp,hst⟩,rfl⟩ := ite_step hs
    exact .inl (h.zombieReap hp (h.idle p hp (by rw [hst]; nofun)))
  | kthreadCreate =>
    obtain rfl := some_step hs
    exact .inl h.kthreadCreate
  | kthreadExit p =>
    obtain ⟨⟨-,hp,-,hmm⟩,rfl⟩ := ite_step hs
    exact .inl (h.zombieReap hp (isNone_iff_eq_none.mp hmm))
  | execve p kmem blob name argv envp =>
    obtain ⟨⟨hp,hst⟩,rfl⟩ := ite_step hs
    exact .inl (h.execve hp hst)
  | brk p addr =>
    obtain ⟨mm,hc,he⟩ := map_current hs
    rcases hb : mm.sysBrk k.phys addr with ⟨ph,mm',r⟩
    simp only [hb] at he
    obtain rfl := he
    exact .inl (h.moves hc (h.shrunk hc (Ctx.Ok.sysBrk (h.ctxOk hc) hb))
      fun ht _ => ht.sysBrk (h.ctxOk hc) hb)
  | mmap p addr len prot flags fd =>
    obtain ⟨mm,hc,he⟩ := map_current hs
    rcases hb : mm.doMmap addr len prot flags fd with ⟨mm',r⟩
    simp only [hb] at he
    obtain rfl := he
    exact .inl (h.moves hc (h.shrunk hc (Ctx.Ok.doMmap (h.ctxOk hc) hb)) fun ht _ => ht.doMmap hb)
  | munmap p addr len =>
    obtain ⟨mm,hc,rfl⟩ := map_current hs
    exact .inl (h.moves hc (h.shrunk hc (Ctx.Ok.doMunmap (h.ctxOk hc) addr len))
      fun ht _ => ht.doMunmap addr len (h.ctxOk hc))
  | shmget key size shmflg =>
    obtain rfl := some_step hs
    exact .inl (h.setTable (doShmget_spec h.table h.tableOk h.attach rfl))
  | shmat p shmid shmaddr shmflg =>
    obtain ⟨mm,hc,rfl⟩ := map_current hs
    exact .inl (h.moves hc (h.attaching shmid shmaddr shmflg hc) fun ht hf =>
      ht.doShmat shmid shmaddr shmflg (h.ctxOk hc)
        (fun g => (k.rest_procUser_le p g).trans (by decide)) hf)
  | shmdt p shmaddr =>
    obtain ⟨mm,hc,rfl⟩ := map_current hs
    exact .inl (h.moves hc (h.shrunk hc (Ctx.Ok.doShmdt (h.ctxOk hc) shmaddr))
      fun ht _ => ht.doShmdt shmaddr (h.ctxOk hc))
  | shmctl shmid cmd =>
    obtain rfl := some_step hs
    exact .inl (h.setTable (doShmctl_spec h.table h.tableOk h.attach rfl))
  | load p va =>
    obtain ⟨hw,he⟩ := ite_none_right_eq_some.mp hs
    obtain ⟨mm,hc,hl⟩ := bind_current he
    exact .inl (h.load hc hw hl)
  | store p va b =>
    obtain ⟨hw,he⟩ := ite_none_right_eq_some.mp hs
    obtain ⟨mm,hc,hl⟩ := bind_current he
    exact .inl (h.store hc hw hl)
  | copyin p srcva n =>
    obtain ⟨⟨hw,-⟩,he⟩ := ite_none_right_eq_some.mp hs
    obtain ⟨mm,hc,rfl⟩ := map_current he
    exact .inl (h.moves hc (h.paged hc (Ctx.copyin_paged true n (h.ctxOk hc) hw))
      fun ht _ => ht.copyin (h.ctxOk hc) hw)
  | copyout p dstva src =>
    obtain ⟨⟨hw,-⟩,he⟩ := ite_none_right_eq_some.mp hs
    obtain ⟨mm,hc,rfl⟩ := map_current he
    exact .inl (h.moves hc (h.paged hc (Ctx.copyout_paged true src (h.ctxOk hc) hw))
      fun ht _ => ht.copyout (h.ctxOk hc) hw)
  | kalloc order =>
    obtain rfl := some_step hs
    exact .inl h.kalloc
  | kfree b =>
    obtain ⟨hb,rfl⟩ := ite_step hs
    exact .inl (h.kfree hb)

def Next (k : Kernel) (op : Op) (k' : Kernel) : Prop := ∃ out, k.step op = some (k',out)

theorem inv_step (h : k.Inv) (hn : Next k op k') : k'.Inv := by
  obtain ⟨out,hs⟩ := hn
  rcases step_moves h hs with hm | rfl
  · exact hm.follows.1
  · exact h

theorem tidy_step (h : k.Inv) (hs : k.step op = some (k',out))
    (ht : k.phys.pmm.failed = 0 → k.Tidy) (hf : k'.phys.pmm.failed = 0) : k'.Tidy := by
  rcases step_moves h hs with ⟨⟨-,own,hc⟩,htidy⟩ | rfl
  · exact htidy (ht (Nat.le_zero.mp (hc.failed.trans_eq hf))) hf
  · exact ht hf

theorem boot_inv {kernelEnd top : Nat} {kpd : Pgdir}
    (hk : kpd.Supervisor) (hb : boot kernelEnd top mem kpd = some k) : k.Inv := by
  obtain ⟨s,hs,he⟩ := map_eq_some_iff.mp hb
  have hbooted := Buddy.pmmInit_booted hs
  have hmm : ∀ i, (k.procs i).mm = none ∧ (k.procs i).kstack = none := by
    intro i
    rw [← he]
    dsimp only
    split <;> exact ⟨rfl,rfl⟩
  have hpmm : k.phys.pmm = s := by rw [← he]
  have hrun : k.phys.panicked = false := by rw [← he]
  have hshm : k.shm = fun _ => ShmSeg.empty := by rw [← he]
  have hU : k.users = 0 := by
    have hrefs : k.shm.refs = 0 := by
      rw [hshm]
      exact sum_eq_zero fun _ _ => slotsRefs_none fun _ => rfl
    rw [users,hrefs,add_zero]
    exact sum_eq_zero fun i _ => by rw [procUser,(hmm i).1,mmUser]
  have hK : k.total procKernel + k.heldRefs = 0 := by
    have hheld : k.heldRefs = 0 := by
      rw [← he]
      rfl
    rw [hheld,add_zero]
    exact sum_eq_zero fun i _ => by
      rw [procKernel,(hmm i).1,(hmm i).2,mmKernel,stackRefs,add_zero]
  have hnil : ∀ b : Block, b ∉ k.phys.pmm.live := by simp [hpmm,hbooted.live]
  refine ⟨⟨⟨hpmm ▸ hbooted.wf,fun f hf => ?_,fun f hf => absurd hf (hnil _),
    fun f hf => absurd hf (hnil _),fun f hf => ?_⟩,hrun⟩,hshm ▸ ShmTable.wf_empty,
    fun p _ mm hm => ?_,fun id => ?_,fun p _ _ => (hmm p).1,fun p _ hst => ?_,?_⟩
  · rw [hU,hK] at hf
    exact absurd hf (lt_irrefl 0)
  · rw [hpmm,hbooted.user] at hf
    cases hf
  · rw [(hmm p).1] at hm
    cases hm
  · have hatt : k.total procAttached = 0 :=
      sum_eq_zero fun i _ => by rw [procAttached,(hmm i).1,mmAttached]
    rw [hshm,hatt]
    rfl
  · rw [← he] at hst ⊢
    dsimp only at hst ⊢
    split at hst
    · cases hst
    · rw [if_neg ‹_›]
  · rw [← he]
    exact hk

theorem inv_run {k₀ : Kernel} (h : k₀.Inv) (hrun : Transition.Run Next k₀ ops k) : k.Inv :=
  hrun.invariant (fun _ _ _ hi hn => inv_step hi hn) h

theorem tidy_run {k₀ : Kernel} (hrun : Transition.Run Next k₀ ops k)
    (hinv : k₀.Inv) (h : k₀.Tidy) (hf : k.phys.pmm.failed = 0) : k.Tidy := by
  have hstep : ∀ s op t, s.Inv ∧ (s.phys.pmm.failed = 0 → s.Tidy) → Next s op t →
      t.Inv ∧ (t.phys.pmm.failed = 0 → t.Tidy) := by
    rintro s op t ⟨hi,ht⟩ hn
    refine ⟨inv_step hi hn,fun hno => ?_⟩
    obtain ⟨out,hs⟩ := hn
    exact tidy_step hi hs ht hno
  exact (hrun.invariant hstep ⟨hinv,fun _ => h⟩).2 hf

theorem boot_tidy {kernelEnd top : Nat} {kpd : Pgdir}
    (hb : boot kernelEnd top mem kpd = some k) : k.Tidy := by
  obtain ⟨s,-,rfl⟩ := map_eq_some_iff.mp hb
  intro p _ mm hm
  dsimp only at hm
  split at hm <;> cases hm

def runOps (k : Kernel) (ops : List Op) : Option Kernel := (Machine.run step k ops).map Prod.fst

theorem run_of_runOps (h : k.runOps ops = some k') : Transition.Run Next k ops k' := by
  obtain ⟨⟨t,out⟩,hr,rfl⟩ := map_eq_some_iff.mp h
  exact .of_run (fun _ _ _ o hs => ⟨o,hs⟩) hr

theorem exists_run (o : Option Kernel) (ops : List Op) (P : Kernel → Prop) [DecidablePred P]
    (h : (o.bind (·.runOps ops)).any (fun k => P k) = true) :
    ∃ k₀ k, o = some k₀ ∧ Transition.Run Next k₀ ops k ∧ P k := by
  obtain ⟨k,hk,ht⟩ := Machine.exists_of_any h
  obtain ⟨k₀,ho,hr⟩ := bind_eq_some_iff.mp hk
  exact ⟨k₀,k,ho,run_of_runOps hr,ht⟩

theorem exists_current (o : Option Kernel) (ops : List Op) (P : Kernel → Mm → Prop)
    [∀ k, DecidablePred (P k)]
    (h : (o.bind (·.runOps ops)).any (fun k => (k.current 1).any fun mm => P k mm) = true) :
    ∃ k₀ k mm, o = some k₀ ∧ Transition.Run Next k₀ ops k ∧ k.current 1 = some mm ∧ P k mm := by
  obtain ⟨k₀,k,ho,hr,ht⟩ := exists_run o ops (fun k => (k.current 1).any (fun mm => P k mm) = true)
    (by simpa only [Bool.decide_eq_true] using h)
  obtain ⟨mm,hc,ht⟩ := Machine.exists_of_any ht
  exact ⟨k₀,k,mm,ho,hr,hc,ht⟩

theorem supervisor_empty : Pgdir.Supervisor fun _ => none := by
  intro i pde h
  cases h

theorem user_refcount_exact (kernelEnd top : Nat) (mem : Nat → Nat → UInt8) (kpd : Pgdir)
    (k₀ k : Kernel) (ops : List Op) (hk : kpd.Supervisor)
    (hboot : boot kernelEnd top mem kpd = some k₀) (hrun : Transition.Run Next k₀ ops k) :
    k.phys.panicked = false ∧ ∀ f, (0 < k.users f → k.phys.pmm.user f = true) ∧
      (k.phys.pmm.user f = true → k.phys.pmm.refcount f = k.users f ∧
        (k.phys.pmm.Free f ↔ k.users f = 0)) := by
  have hinv := inv_run (boot_inv hk hboot) hrun
  exact ⟨hinv.phys.running,fun f => ⟨fun hf => (hinv.phys.acct.user_eq hf).1,
    fun hu => hinv.phys.acct.refcount_eq hu⟩⟩

theorem user_refcount_exact_fork :
    ∃ k₀ k : Kernel, boot 0x102000 0x180000 (fun _ _ => 0) (fun _ => none) = some k₀ ∧
      Transition.Run Next k₀ [.kthreadCreate,.execve 1 true [0x90] [] [] [],.fork 1 true,
        .store 1 userLoad 7] k ∧
      k.phys.panicked = false ∧ ∀ f, (0 < k.users f → k.phys.pmm.user f = true) ∧
        (k.phys.pmm.user f = true → k.phys.pmm.refcount f = k.users f ∧
          (k.phys.pmm.Free f ↔ k.users f = 0)) := by
  obtain ⟨k₀,k,hb,hr,-⟩ := exists_run (boot 0x102000 0x180000 (fun _ _ => 0) fun _ => none)
    [.kthreadCreate,.execve 1 true [0x90] [] [] [],.fork 1 true,.store 1 userLoad 7]
    (fun _ => True) (by decide +kernel)
  exact ⟨k₀,k,hb,hr,user_refcount_exact _ _ _ _ k₀ k _ supervisor_empty hb hr⟩

theorem address_space_layout (kernelEnd top : Nat) (mem : Nat → Nat → UInt8) (kpd : Pgdir)
    (k₀ k : Kernel) (ops : List Op) (hk : kpd.Supervisor)
    (hboot : boot kernelEnd top mem kpd = some k₀) (hrun : Transition.Run Next k₀ ops k) :
    ∀ p < nproc, ∀ mm, (k.procs p).mm = some mm → (∀ i < nvma, (mm.vmas i).used = true →
        (mm.vmas i).start % pgSize = 0 ∧ (mm.vmas i).stop % pgSize = 0 ∧
        (mm.vmas i).start < (mm.vmas i).stop ∧
        pgRoundUp mm.brk ≤ (mm.vmas i).start ∧ (mm.vmas i).stop ≤ userHeapTop) ∧
      (∀ i < nvma, ∀ j < nvma, i ≠ j → (mm.vmas i).used = true → (mm.vmas j).used = true →
        (mm.vmas i).stop ≤ (mm.vmas j).start ∨ (mm.vmas j).stop ≤ (mm.vmas i).start) ∧
      mm.brkStart ≤ mm.brk ∧ mm.brk ≤ userHeapTop := by
  intro p hp mm hmm
  have hlay := ((inv_run (boot_inv hk hboot) hrun).mms p hp mm hmm).layout
  refine ⟨fun i hi hu => ?_,hlay.disjoint,hlay.brk,hlay.top⟩
  obtain ⟨hal,hal'⟩ := hlay.aligned i hi hu
  obtain ⟨hlo,hlt,hhi⟩ := hlay.bounds i hi hu
  exact ⟨hal,hal',hlt,hlo,hhi⟩

theorem address_space_layout_mmap :
    ∃ k₀ k : Kernel, ∃ mm, boot 0x102000 0x180000 (fun _ _ => 0) (fun _ => none) = some k₀ ∧
      Transition.Run Next k₀ [.kthreadCreate,.execve 1 true [0x90] [] [] [],
        .mmap 1 0 8192 3 0x22 0xffffffff,.brk 1 (userLoad + 5000)] k ∧
      (k.procs 1).mm = some mm ∧ (mm.vmas 0).used = true ∧
      pgRoundUp mm.brk ≤ (mm.vmas 0).start ∧ mm.brk ≤ userHeapTop := by
  obtain ⟨k₀,k,hb,hr,ht⟩ := exists_run (boot 0x102000 0x180000 (fun _ _ => 0) fun _ => none)
    [.kthreadCreate,.execve 1 true [0x90] [] [] [],.mmap 1 0 8192 3 0x22 0xffffffff,
      .brk 1 (userLoad + 5000)]
    (fun k => (k.procs 1).mm.map (fun mm => (mm.vmas 0).used) = some true) (by decide +kernel)
  obtain ⟨mm,hmm,hu⟩ := map_eq_some_iff.mp ht
  obtain ⟨hv,-,-,htop⟩ :=
    address_space_layout _ _ _ _ k₀ k _ supervisor_empty hb hr 1 (by decide) mm hmm
  exact ⟨k₀,k,mm,hb,hr,hmm,hu,(hv 0 (by decide) hu).2.2.2.1,htop⟩

end Kernel

end TinyOs
