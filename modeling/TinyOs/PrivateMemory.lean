import Mathlib.Data.List.Find
import TinyOs.Exec.Bytes
import TinyOs.UserCopy

namespace TinyOs

open Count Option

variable {a b : Nat} {x x' : Ctx} {X Y N : Nat → Nat}

theorem Mm.demand_of_vmas {mm mm' : Mm} (h : mm.Layout) (hbrk : mm'.brk = mm.brk)
    (hstart : mm'.brkStart = mm.brkStart) (hvmas : ∀ i, mm'.vmas i = mm.vmas i ∨
      ((mm'.vmas i).used = false ∧ (vmaShmid (mm.vmas i)).isSome = true)) (hns : ¬ mm.Shared a) :
    mm'.demand (pgRoundDown a) = mm.demand (pgRoundDown a) := by
  have hmiss : ∀ i < nvma, (vmaShmid (mm.vmas i)).isSome = true →
      ¬ ((mm.vmas i).start ≤ pgRoundDown a ∧ pgRoundDown a < (mm.vmas i).stop) := by
    intro i hi hid hin
    obtain ⟨id,hshm⟩ := isSome_iff_exists.mp hid
    obtain ⟨-,hal⟩ := h.aligned i hi (used_of_shmid hshm)
    refine hns ⟨i,hi,hid,?_⟩
    simp only [pgRoundDown,pgSize] at *
    omega
  have hlook : mm'.vmaLookup (pgRoundDown a) = mm.vmaLookup (pgRoundDown a) := by
    rw [vmaLookup,vmaLookup,List.find?_congr fun i hi => ?_]
    · refine map_congr fun i hi => ?_
      have hlt := List.mem_range.mp (List.mem_of_find?_eq_some hi)
      have hin := List.find?_some hi
      simp only [Bool.and_eq_true,decide_eq_true_eq] at hin
      exact (hvmas i).resolve_right fun hv => hmiss i hlt hv.2 ⟨hin.1.2,hin.2⟩
    · rcases hvmas i with he | ⟨hun,hid⟩
      · rw [he]
      · have hno := hmiss i (List.mem_range.mp hi) hid
        simp only [hun,Bool.false_and,Bool.and_assoc,← Bool.decide_and,hno,decide_false,
          Bool.and_false]
  simp only [demand,hbrk,hstart,hlook]

namespace Ctx

def SameAt (x x' : Ctx) (a : Nat) : Prop :=
  x'.reads a = x.reads a ∧ ∀ w, x'.mm.allows a w = x.mm.allows a w

theorem sameAt (hdem : x'.mm.demand (pgRoundDown a) = x.mm.demand (pgRoundDown a))
    (hlook : a < userEnd → x'.mm.pd.lookup a = x.mm.pd.lookup a ∨
      x'.mm.pd.lookup a = (x.mm.pd.lookup a).map Pte.share)
    (hmem : a < userEnd → ∀ pte, x.mm.pd.lookup a = some pte →
      x'.phys.mem pte.frame = x.phys.mem pte.frame) : x.SameAt x' a := by
  by_cases ha : a < userEnd
  swap
  · simp [SameAt,reads,Mm.allows,ha]
  rcases hl : x.mm.pd.lookup a with _ | pte
  · have hl' : x'.mm.pd.lookup a = none := by simpa [hl] using hlook ha
    simp [SameAt,reads,Mm.allows,hl,hl',hdem]
  · have hm := hmem ha pte hl
    rcases hlook ha with hl' | hl'
    · simp [SameAt,reads,Mm.allows,hl,hl',hm]
    · simp [SameAt,reads,Mm.allows,hl,hl',hm,Pte.share,Bool.or_assoc]

theorem write_reads {f : Nat} (v : UInt8) (h : x.Ok X Y N)
    (ht : x.Tidy X) (hr : x.Ready b true f) (hns : ¬ x.mm.Shared a) :
    { x with phys := x.phys.write f (b % pgSize) v }.reads a =
      if b = a then some v else x.reads a := by
  obtain ⟨hb,pte,hl,rfl,hw⟩ := hr
  split
  · subst a
    simp [reads,hb,hl,Phys.write]
  rename_i hne
  by_cases ha : a < userEnd
  swap
  · simp only [reads,if_neg ha]
  rcases hla : x.mm.pd.lookup a with _ | q
  · simp only [reads,hla]
  by_cases hf : q.frame = pte.frame
  swap
  · simp [reads,hla,Phys.write,hf]
  -- A frame that is mapped writable is mapped once, or it is a page of a segment.
  rcases ht.sole b hb pte hl (hw rfl) with hone | ⟨id,j,hj⟩
  · have hpage : a / pgSize = b / pgSize := by
      by_contra hpage
      have htwo := Pgdir.two_le_userRefs h.wf hb ha (Ne.symm hpage) hl hla hf.symm
      simp only [Pi.add_apply] at hone
      omega
    have hoff : a % pgSize ≠ b % pgSize := by
      simp only [pgSize] at *
      omega
    simp [reads,hla,Phys.write,hf,hoff]
  · rw [← hf] at hj
    exact absurd (ht.slot_shared ⟨h.wf,h.layout,h.backed⟩ h.shm ha hla hj) hns

theorem NoMemory.reads (hn : NoMemory x x' X Y) (h : x.Ok X Y N) : x'.reads a = x.reads a := by
  refine (sameAt ((hn.paged h).demand _) (fun _ => .inl (hn.walked.lookup a)) ?_).1
  intro ha pte hl
  exact hn.walked.keeps.mem _ (Nat.add_pos_left (Pgdir.userRefs_pos h.wf ha hl) _)

theorem copyin_view {srcva n : Nat} (h : x.Ok X Y N) (hw : srcva < word) :
    (x.copyin true srcva n).1.reads a = x.reads a := by
  refine (copyinLoop_rule (I := fun y => y.Ok X Y N ∧ y.reads a = x.reads a) (fun _ hy => hy.1)
    (fun _ _ _ hy hs => ⟨hs.ok hy.1,(hs.reads hy.1 a).trans hy.2⟩)
    (fun _ _ hy hn => ⟨hn.ok hy.1,(hn.reads hy.1).trans hy.2⟩) hw ⟨h,rfl⟩).2

end Ctx

theorem Parent.sameAt {own : Nat → Nat} (hwf : x'.mm.pd.Wf) (hns : ¬ x.mm.Shared a)
    (h : Parent x.phys x'.phys x.shm x'.shm x.mm x'.mm own X N) : x.SameAt x' a := by
  have hother := fun ha : a < userEnd => h.other a (ha.trans userEnd_lt) hns
  refine Ctx.sameAt (by rw [h.mm]; rfl) hother fun ha pte hl => h.mem pte.frame ?_
  refine Nat.add_pos_left ?_ _
  rcases hother ha with hl' | hl'
  · exact Pgdir.userRefs_pos hwf ha (hl'.trans hl)
  · rw [hl] at hl'
    exact (Pgdir.userRefs_pos hwf ha hl' :)

theorem Forked.sameAt {p' : Mm} {kstack : Nat} (hp : x.mm.Layout) (hns : ¬ x.mm.Shared a)
    (h : Forked x.phys x'.phys x.shm x'.shm x.mm p' x'.mm kstack X Y N) : x.SameAt x' a := by
  have hdem := Mm.demand_of_vmas hp (by rw [h.copy]) (by rw [h.copy]) h.vmas hns
  refine Ctx.sameAt hdem (fun ha => .inr (h.other a ha hns).2) fun ha pte hl => ?_
  refine h.parent.mem pte.frame (Nat.add_pos_right _ (Nat.add_pos_left ?_ _))
  have hl' := (h.other a ha hns).2
  rw [hl] at hl'
  exact (Pgdir.userRefs_pos h.childOk.wf ha hl' :)

namespace Kernel

variable {k k' : Kernel} {p q f va : Nat} {mm : Mm} {op : Op} {out : Out}

-- A copyout reaches a present page without looking at its write permission.
def Guarded (k : Kernel) : Op → Prop
  | .copyout p dstva src => ∀ mm, k.current p = some mm → ∀ i < src.length,
      (dstva + i) % word < userEnd → ∀ pte, mm.pd.lookup ((dstva + i) % word) = some pte →
        pte.perm.w = true ∨ pte.perm.cow = true
  | _ => True

def Writes (k : Kernel) (p f : Nat) : Prop :=
  ∃ x : Ctx, x.Tidy (k.rest procUser p) ∧ x.mm.pd.Wf ∧ x.shm = k.shm ∧
    ∃ a < userEnd, ∃ pte, x.mm.pd.lookup a = some pte ∧ pte.perm.w = true ∧ pte.frame = f

theorem users_pos (hf : 0 < k.rest procUser p f) : 0 < k.users f := by
  have hle : k.rest procUser p ≤ k.total procUser :=
    Finset.sum_le_sum_of_subset (Finset.erase_subset p _)
  exact Nat.add_pos_left (hf.trans_le (hle f)) _

theorem refs_pos (hf : 0 < X f) : 0 < (N + (Y + X)) f :=
  Nat.add_pos_right _ (Nat.add_pos_right _ hf)

theorem Inv.not_free (h : k.Inv) (hf : 0 < k.rest procUser p f) : ¬ k.phys.pmm.Free f :=
  fun hfree => (users_pos hf).ne' (h.phys.acct.zero_of_free hfree).1

theorem exit_mem (h : k.Inv) (hc : k.current p = some mm) (he : k.killed p mm = some (k',out)) :
    k'.phys.mem = k.phys.mem := by
  obtain ⟨k₁,hexit,hk⟩ := map_eq_some_iff.mp he
  obtain ⟨rfl,-⟩ := Prod.mk.inj hk
  have ht := procDropMm_spec (h.ctxOk hc)
  rw [Kernel.exit] at hexit
  split at hexit
  · cases hexit
  · obtain rfl := some.inj hexit
    exact ht.same.mem

theorem fork_mem {kmem : Bool} (h : k.Inv) (hc : k.current p = some mm)
    (hf : 0 < k.rest procUser p f) : (k.fork p mm kmem).1.phys.mem f = k.phys.mem f := by
  rw [fork]
  rcases k.procAlloc with _ | q
  · rfl
  obtain ⟨hp,-,hmm⟩ := current_some hc
  have hslot := h.slot hp
  rw [hmm] at hslot
  rcases hr : forkCopy k.phys k.shm mm k.kernelPgdir kmem with ⟨ph,shm,p',o⟩
  rcases forkCopy_spec hslot (k.rest_procUser_le p) h.kernel hr with
    ⟨rfl,hch,-⟩ | ⟨child,kstack,rfl,hfork⟩
  · exact hch.parent.mem f (Nat.add_pos_right _ (refs_pos hf))
  · exact hfork.parent.mem f (Nat.add_pos_right _ (refs_pos hf))

theorem access_mem {write : Bool} {r : Ctx.Access} (h : k.Inv) (hc : k.current p = some mm)
    (hw : va < word) (ha : (k.ctx mm).access write va 2 = (x,r)) (hf : 0 < k.rest procUser p f) :
    x.phys.mem f = k.phys.mem f ∧ ∀ g, r = .done g → x.Ready va write g := by
  rcases Ctx.access_cases (h.ctxOk hc) hw with ⟨x',g,he,-,hs,hready⟩ | ⟨x',he,hn | ⟨rfl,-⟩⟩ <;>
    obtain ⟨rfl,rfl⟩ := Prod.mk.inj (ha.symm.trans he)
  · exact ⟨hs.keeps.mem f (refs_pos hf),by rintro _ ⟨⟩; exact hready⟩
  · exact ⟨hn.walked.keeps.mem f (refs_pos hf),nofun⟩
  · exact ⟨rfl,nofun⟩

theorem killed_mem (h : k.Inv) (hc : k.current p = some mm)
    (hx : Ctx.Paged (k.ctx mm) x (k.rest procUser p) (unit mm.dir + k.outKernel p)
      (k.rest procAttached p)) (he : (k.setCtx p x).killed p x.mm = some (k',out)) :
    k'.phys.mem = x.phys.mem :=
  exit_mem (h.paged hc hx).1 (current_setCtx hc) he

theorem kalloc_mem {order : Nat} (h : k.Inv) (hf : ¬ k.phys.pmm.Free f) :
    (k.kalloc order).phys.mem f = k.phys.mem f := by
  rw [kalloc]
  rcases ha : Buddy.allocPages k.phys.pmm order with ⟨s,_ | g⟩
  · rfl
  · exact if_neg fun hcov => hf ((Buddy.allocPages_some h.phys.acct.wf ha).wasFree f hcov)

theorem zombieReap_mem (k : Kernel) (p : Nat) : (k.zombieReap p).phys.mem = k.phys.mem := by
  rw [zombieReap]
  split
  · rfl
  · exact Phys.putPage_mem _ _

theorem kthreadCreate_mem (h : k.Inv) (hf : 0 < k.rest procUser p f) :
    k.kthreadCreate.phys.mem f = k.phys.mem f := by
  rw [kthreadCreate]
  rcases k.procAlloc with _ | q
  · rfl
  rcases hal : k.phys.allocPage with ⟨ph,_ | g⟩
  · exact (Phys.allocPage_none h.phys hal).2.1.mem f (users_pos hf)
  · exact (Keeps.of_fresh (Phys.allocPage_some h.phys hal).2).mem f (users_pos hf)

theorem step_mem (h : k.Inv) (ht : k.Tidy) (hg : k.Guarded op) (hs : k.step op = some (k',out))
    (hf : 0 < k.rest procUser op.actor f) :
    k'.phys.mem f = k.phys.mem f ∨ k.Writes op.actor f := by
  cases op with
  | fork p kmem =>
    obtain ⟨mm,hc,rfl⟩ := map_current hs
    exact .inl (fork_mem h hc hf)
  | exit p =>
    obtain ⟨mm,hc,he⟩ := bind_current hs
    exact .inl (congrFun (exit_mem h hc he) f)
  | reap p | kthreadExit p =>
    obtain ⟨-,rfl⟩ := ite_step hs
    exact .inl (congrFun (zombieReap_mem k p) f)
  | kthreadCreate =>
    obtain rfl := some_step hs
    exact .inl (kthreadCreate_mem h hf)
  | execve p kmem blob name argv envp =>
    obtain ⟨⟨hp,hst⟩,rfl⟩ := ite_step hs
    rw [execve]
    rcases he : execLoad k.phys k.shm (k.procs p).mm k.kernelPgdir kmem blob name argv envp with
      ⟨ph,shm,new,b⟩
    exact .inl ((execLoad_spec (h.slot hp) h.kernel he).1.keeps.mem f hf)
  | brk p addr =>
    obtain ⟨mm,hc,he⟩ := map_current hs
    rcases hb : mm.sysBrk k.phys addr with ⟨ph,mm',r⟩
    simp only [hb] at he
    obtain rfl := he
    exact .inl (congrFun (Ctx.Ok.sysBrk (h.ctxOk hc) hb).same.mem f)
  | mmap p addr len prot flags fd =>
    obtain ⟨mm,hc,rfl⟩ := map_current hs
    exact .inl rfl
  | munmap p addr len =>
    obtain ⟨mm,hc,rfl⟩ := map_current hs
    exact .inl (congrFun (Ctx.Ok.doMunmap (h.ctxOk hc) addr len).same.mem f)
  | shmget key size shmflg =>
    obtain rfl := some_step hs
    rw [Op.actor,rest_none le_rfl] at hf
    exact .inl ((doShmget_spec h.table h.tableOk h.attach rfl).keeps.mem f hf)
  | shmat p shmid shmaddr shmflg =>
    obtain ⟨mm,hc,rfl⟩ := map_current hs
    have hX : ∀ g, k.rest procUser p g ≤ 2 ^ 30 := fun g =>
      (k.rest_procUser_le p g).trans (by decide)
    have hok := h.ctxOk hc
    rcases hd : (k.ctx mm).doShmat shmid shmaddr shmflg with ⟨x,r⟩
    rcases Ctx.doShmat_cases hok hd with ⟨rfl,-⟩ | ⟨i,v,ha,⟨s,hm,-,rfl⟩ | ⟨s,hm,-,rfl⟩⟩
    · exact .inl rfl
    all_goals exact .inl ((ha.remap hok hX hm).remapped.mem f (refs_pos hf))
  | shmdt p shmaddr =>
    obtain ⟨mm,hc,rfl⟩ := map_current hs
    exact .inl (congrFun (Ctx.Ok.doShmdt (h.ctxOk hc) shmaddr).same.mem f)
  | shmctl shmid cmd =>
    obtain rfl := some_step hs
    rw [Op.actor,rest_none le_rfl] at hf
    exact .inl ((doShmctl_spec h.table h.tableOk h.attach rfl).keeps.mem f hf)
  | load p va =>
    obtain ⟨hw,he⟩ := ite_none_right_eq_some.mp hs
    obtain ⟨mm,hc,hl⟩ := bind_current he
    rcases ha : (k.ctx mm).access false va 2 with ⟨x,r⟩
    obtain ⟨hmem,-⟩ := access_mem h hc hw ha hf
    obtain ⟨hne,hx,-⟩ := h.access hc hw ha
    rw [Kernel.load,ha] at hl
    cases r with
    | done g =>
      cases hl
      exact .inl hmem
    | fatal => exact .inl ((congrFun (killed_mem h hc hx hl) f).trans hmem)
    | retry => exact absurd rfl hne
  | store p va b =>
    obtain ⟨hw,he⟩ := ite_none_right_eq_some.mp hs
    obtain ⟨mm,hc,hl⟩ := bind_current he
    rcases ha : (k.ctx mm).access true va 2 with ⟨x,r⟩
    obtain ⟨hmem,hready⟩ := access_mem h hc hw ha hf
    obtain ⟨hne,hx,htidy⟩ := h.access hc hw ha
    rw [Kernel.store,ha] at hl
    cases r with
    | done g =>
      cases hl
      by_cases hfg : f = g
      · obtain ⟨hva,pte,hlook,hframe,hpw⟩ := hready g rfl
        exact .inr ⟨x,htidy (ht.ctx hc),hx.ok.wf,hx.shm,va,hva,pte,hlook,hpw rfl,
          hframe.trans hfg.symm⟩
      · exact .inl ((Function.update_of_ne hfg ..).trans hmem)
    | fatal => exact .inl ((congrFun (killed_mem h hc hx hl) f).trans hmem)
    | retry => exact absurd rfl hne
  | copyin p srcva n =>
    obtain ⟨⟨hw,-⟩,he⟩ := ite_none_right_eq_some.mp hs
    obtain ⟨mm,hc,rfl⟩ := map_current he
    exact .inl ((Ctx.copyin_spares (h.ctxOk hc) hw).mem f (h.not_free hf))
  | copyout p dstva src =>
    obtain ⟨⟨hw,-⟩,he⟩ := ite_none_right_eq_some.mp hs
    obtain ⟨mm,hc,rfl⟩ := map_current he
    have hok := h.ctxOk hc
    have hpaged := Ctx.copyout_paged true src hok hw
    by_cases hsame : ((k.ctx mm).copyout true dstva src).1.phys.mem f = k.phys.mem f
    · exact .inl hsame
    obtain ⟨a,hin,pte,hl,hfr,hwhy⟩ :=
      (Ctx.copyout_bounded true src hok hw).mem f (h.not_free hf) hsame
    refine .inr ⟨_,(ht.ctx hc).copyout hok hw,hpaged.ok.wf,hpaged.shm,a,hin.2.2,pte,hl,?_,hfr⟩
    refine hwhy.resolve_right ?_
    rintro ⟨hold,hpw,hcow⟩
    obtain ⟨i,hi,rfl⟩ := hin.offset
    have := hg mm hc i hi hin.2.2 pte hold
    simp [hpw,hcow] at this
  | kalloc order =>
    obtain rfl := some_step hs
    exact .inl (kalloc_mem h (h.not_free hf))
  | kfree b =>
    obtain ⟨-,rfl⟩ := ite_step hs
    exact .inl (by rw [kfree]; split <;> rfl)

theorem step_others (h : k.Inv) (hs : k.step op = some (k',out)) :
    k.phys.pmm.failed ≤ k'.phys.pmm.failed ∧ ∀ q < nproc, op.actor ≠ q →
      ∀ mm, (k.procs q).mm = some mm → (k'.procs q).mm = some mm := by
  rcases step_moves h hs with ⟨⟨-,own,hc⟩,-⟩ | rfl
  · exact ⟨hc.failed,fun q hq hqa => hc.others q hq hqa.symm⟩
  · exact ⟨le_rfl,fun _ _ _ _ => id⟩

theorem step_private (h : k.Inv) (ht : k.Tidy) (hg : k.Guarded op)
    (hs : k.step op = some (k',out)) (hq : q < nproc) (hqa : op.actor ≠ q)
    (hm : (k.procs q).mm = some mm) (hns : ¬ mm.Shared a) :
    (k'.ctx mm).reads a = (k.ctx mm).reads a := by
  have hsame : _ → (k.ctx mm).SameAt (k'.ctx mm) a := Ctx.sameAt rfl fun _ => .inl rfl
  refine (hsame fun ha pte hl => ?_).1
  have hpos := Pgdir.userRefs_pos (h.mms q hq mm hm).wf ha hl
  rcases step_mem h ht hg hs (hpos.trans_le (userRefs_le_rest hq hqa.symm hm _)) with
    hmem | ⟨x,hx,hwf,hshm,c,hcu,pte',hlc,hw,hframe⟩
  · exact hmem
  · exact absurd hframe.symm (ht.unshared h hx hwf hshm hq hqa.symm hm ha hns hl hcu hlc hw)

def Mirrors (k k' : Kernel) (mm mm' : Mm) : Prop :=
  ∀ a, ¬ mm.Shared a → (k.ctx mm).SameAt (k'.ctx mm') a

theorem setCtx_mm : ((k.setCtx p x).procs p).mm = some x.mm := congrArg Proc.mm setProc_self

theorem fork_view {kmem : Bool} {o : Option Nat} (h : k.Inv) (hc : k.current p = some mm)
    (he : k.fork p mm kmem = (k',o)) :
    (∃ mm', (k'.procs p).mm = some mm' ∧ mm'.vmas = mm.vmas ∧ Mirrors k k' mm mm') ∧
      ∀ c, o = some c → (k.procs c).mm = none ∧
        ∃ child, (k'.procs c).mm = some child ∧ Mirrors k k' mm child := by
  obtain ⟨hp,hst,hmm⟩ := current_some hc
  rw [fork] at he
  rcases ha : k.procAlloc with _ | q <;> simp only [ha] at he
  · cases he
    exact ⟨⟨mm,hmm,rfl,fun _ _ => ⟨rfl,fun _ => rfl⟩⟩,by simp⟩
  obtain ⟨hq,hun⟩ := procAlloc_some ha
  have hslot := h.slot hp
  rw [hmm] at hslot
  rcases hf : forkCopy k.phys k.shm mm k.kernelPgdir kmem with ⟨ph,shm,p',o⟩
  simp only [hf] at he
  rcases forkCopy_spec hslot (k.rest_procUser_le p) h.kernel hf with
    ⟨rfl,hch,-⟩ | ⟨child,kstack,rfl,hfork⟩
  · cases he
    refine ⟨⟨p',setCtx_mm,by rw [hch.parent.mm],fun a hns => ?_⟩,by simp⟩
    exact hch.parent.sameAt (hch.slot.mm p' rfl).wf hns
  have hqp : p ≠ q := by
    rintro rfl
    cases hun.symm.trans hst
  cases he
  refine ⟨⟨p',?_,by rw [hfork.parent.mm],fun a hns => hfork.parent.sameAt hfork.mmOk.wf hns⟩,?_⟩
  · exact (congrArg Proc.mm (setProc_of_ne hqp)).trans setCtx_mm
  · rintro _ ⟨⟩
    refine ⟨by rw [h.unused q hq hun]; rfl,child,congrArg Proc.mm setProc_self,fun a hns => ?_⟩
    exact hfork.sameAt (h.mms p hp mm hmm).layout hns

def plain : Op → Bool
  | .fork _ _ | .load _ _ | .store _ _ _ | .copyin _ _ _ => true
  | _ => false

def written (p a : Nat) (v : Option UInt8) : Op → Option UInt8
  | .store q va b => if q = p ∧ va = a then some b else v
  | _ => v

def Lives (p : Nat) (k : Kernel) (op : Op) (k' : Kernel) : Prop :=
  ∃ out, k.step op = some (k',out) ∧ k.Guarded op ∧
    (op.actor = p → plain op = true ∧ out ≠ .killed)

theorem killed_out (h : k.killed p mm = some (k',out)) : out = .killed := by
  obtain ⟨_,-,hk⟩ := map_eq_some_iff.mp h
  exact (Prod.mk.inj hk).2.symm

theorem own_step (h : k.Inv) (hs : k.step op = some (k',out))
    (hm : (k.procs op.actor).mm = some mm) (hop : plain op = true) (hout : out ≠ .killed) :
    ∃ mm', (k'.procs op.actor).mm = some mm' ∧ mm'.vmas = mm.vmas ∧ (k.Tidy → ∀ a, ¬ mm.Shared a →
      (k'.ctx mm').reads a = written op.actor a ((k.ctx mm).reads a) op) := by
  cases op with
  | fork p kmem =>
    obtain ⟨mm₁,hc,rfl⟩ := map_current hs
    cases (current_some hc).2.2.symm.trans hm
    obtain ⟨mm',hm',hv,hmir⟩ := (fork_view h hc rfl).1
    exact ⟨mm',hm',hv,fun _ a ha => (hmir a ha).1⟩
  | load p va =>
    obtain ⟨hw,he⟩ := ite_none_right_eq_some.mp hs
    obtain ⟨mm₁,hc,hl⟩ := bind_current he
    cases (current_some hc).2.2.symm.trans hm
    have hok := h.ctxOk hc
    rcases Ctx.access_cases hok hw with ⟨x,f,ha,-,hx,-⟩ | ⟨x,ha,-⟩ <;>
      rw [Kernel.load,ha] at hl
    · cases hl
      refine ⟨x.mm,setCtx_mm,?_,fun _ a _ => hx.reads hok a⟩
      rw [(hx.paged hok).mm]
      rfl
    · exact absurd (killed_out hl) hout
  | store p va b =>
    obtain ⟨hw,he⟩ := ite_none_right_eq_some.mp hs
    obtain ⟨mm₁,hc,hl⟩ := bind_current he
    cases (current_some hc).2.2.symm.trans hm
    have hok := h.ctxOk hc
    rcases Ctx.access_cases hok hw with ⟨x,f,ha,-,hx,hready⟩ | ⟨x,ha,-⟩ <;>
      rw [Kernel.store,ha] at hl
    · cases hl
      have hv : x.mm.vmas = mm.vmas := by rw [(hx.paged hok).mm]; rfl
      refine ⟨x.mm,setCtx_mm,hv,fun ht a hns => ?_⟩
      have hns' : ¬ x.mm.Shared a := by rwa [Mm.Shared,hv]
      refine (Ctx.write_reads b (hx.ok hok) (hx.tidy hok (ht.ctx hc)) hready
        hns').trans ?_
      simp only [written,Op.actor,true_and,hx.reads hok a]
    · exact absurd (killed_out hl) hout
  | copyin p srcva n =>
    obtain ⟨⟨hw,-⟩,he⟩ := ite_none_right_eq_some.mp hs
    obtain ⟨mm₁,hc,rfl⟩ := map_current he
    cases (current_some hc).2.2.symm.trans hm
    refine ⟨_,setCtx_mm,?_,fun _ a _ => Ctx.copyin_view (h.ctxOk hc) hw⟩
    rw [(Ctx.copyin_paged true n (h.ctxOk hc) hw).mm]
    rfl
  | _ => cases hop

theorem load_byte {v : UInt8} (h : k.Inv) (hm : (k.procs p).mm = some mm)
    (hs : k.step (.load p va) = some (k',.byte v)) : (k.ctx mm).reads va = some v := by
  obtain ⟨hw,he⟩ := ite_none_right_eq_some.mp hs
  obtain ⟨mm₁,hc,hl⟩ := bind_current he
  cases (current_some hc).2.2.symm.trans hm
  rcases Ctx.access_cases (h.ctxOk hc) hw with ⟨x,f,ha,-,hx,hva,pte,hlook,hf,-⟩ | ⟨x,ha,-⟩ <;>
    rw [Kernel.load,ha] at hl
  · cases hl
    rw [← hx.reads (h.ctxOk hc),Ctx.reads,if_pos hva,hlook,← hf]
  · cases killed_out hl

theorem written_of_ne {v : Option UInt8} (h : op.actor ≠ p) : written p a v op = v := by
  cases op with
  | store q va b => exact if_neg fun he => h he.1
  | _ => rfl

theorem run_view {more : List Op} (hp : p < nproc) (hrun : Transition.Run (Lives p) k more k')
    (hm : (k.procs p).mm = some mm) (h : k.Inv) (ht : k.phys.pmm.failed = 0 → k.Tidy)
    (hfail : k'.phys.pmm.failed = 0) : k.phys.pmm.failed = 0 ∧ k'.Inv ∧
      ∃ mm', (k'.procs p).mm = some mm' ∧ ((∀ op ∈ more, op.actor ≠ p) → mm' = mm) ∧
        ∀ a, ¬ mm.Shared a →
          (k'.ctx mm').reads a = more.foldl (written p a) ((k.ctx mm).reads a) := by
  induction hrun generalizing mm with
  | nil s => exact ⟨hfail,h,mm,hm,fun _ => rfl,fun _ _ => rfl⟩
  | @cons s t u op ops hst hrest ih =>
    obtain ⟨out,hs,hg,hown⟩ := hst
    -- The count of failures never falls, so the invariant of the writable pages holds at every state.
    have ih' := fun {mm₁} (hm₁ : (t.procs p).mm = some mm₁) =>
      ih hm₁ (inv_step h ⟨out,hs⟩) (fun hf => tidy_step h hs ht hf) hfail
    by_cases hact : op.actor = p
    · subst hact
      obtain ⟨mm₁,hm₁,hv,hview⟩ := own_step h hs hm (hown rfl).1 (hown rfl).2
      obtain ⟨hft,hinv,mm',hm',-,hreads⟩ := ih' hm₁
      have hfs := Nat.le_zero.mp ((step_others h hs).1.trans_eq hft)
      refine ⟨hfs,hinv,mm',hm',fun ho => absurd rfl (ho op List.mem_cons_self),fun a ha => ?_⟩
      rw [hreads a (by rwa [Mm.Shared,hv]),List.foldl_cons,hview (ht hfs) a ha]
    · obtain ⟨hft,hinv,mm',hm',hsame,hreads⟩ := ih' ((step_others h hs).2 p hp hact mm hm)
      have hfs := Nat.le_zero.mp ((step_others h hs).1.trans_eq hft)
      refine ⟨hfs,hinv,mm',hm',fun ho => hsame fun o ho' => ho o (List.mem_cons_of_mem _ ho'),?_⟩
      intro a ha
      rw [hreads a ha,List.foldl_cons,written_of_ne hact]
      rw [step_private h (ht hfs) hg hs hp hact hm ha]

def Booted (k : Kernel) : Prop := ∃ kernelEnd top mem kpd k₀ ops, Pgdir.Supervisor kpd ∧
  boot kernelEnd top mem kpd = some k₀ ∧ Transition.Run Next k₀ ops k

theorem Booted.inv (h : k.Booted) : k.Inv ∧ (k.phys.pmm.failed = 0 → k.Tidy) := by
  obtain ⟨_,_,_,_,_,_,hk,hb,hr⟩ := h
  exact ⟨inv_run (boot_inv hk hb) hr,tidy_run hr (boot_inv hk hb) (boot_tidy hb)⟩

theorem exists_step (op : Op) (out : Out) (h : ((boot 0x102000 0x180000 (fun _ _ => 0)
    fun _ => none).bind (·.runOps [.kthreadCreate,.execve 1 true [0x90] [] [] []])).any (fun k =>
      (k.current 1).any fun mm => decide (¬ mm.Shared userLoad ∧ (k.step op).any
        (fun r => r.2 == out && r.1.phys.pmm.failed == 0) = true)) = true) :
    ∃ k k' : Kernel, ∃ mm, k.Booted ∧ k.current 1 = some mm ∧ ¬ mm.Shared userLoad ∧
      k.step op = some (k',out) ∧ k'.phys.pmm.failed = 0 := by
  obtain ⟨_,k,mm,hb,hr,hc,hns,hany⟩ := exists_current _ _ _ h
  obtain ⟨⟨k',o⟩,hs,ho⟩ := (any_eq_true _ _).mp hany
  simp only [Bool.and_eq_true,beq_iff_eq] at ho
  obtain ⟨rfl,hf⟩ := ho
  exact ⟨k,k',mm,⟨_,_,_,_,_,_,supervisor_empty,hb,hr⟩,hc,hns,hs,hf⟩

theorem private_memory (k k' : Kernel) (ops : List Op) (p : Nat) (mm : Mm) (hk : k.Booted)
    (hp : p < nproc) (hm : (k.procs p).mm = some mm) (hrun : Transition.Run (Lives p) k ops k')
    (hfail : k'.phys.pmm.failed = 0) :
    ∃ mm', (k'.procs p).mm = some mm' ∧ ((∀ op ∈ ops, op.actor ≠ p) → mm' = mm) ∧
      ∀ a, ¬ mm.Shared a →
        (k'.ctx mm').reads a = ops.foldl (written p a) ((k.ctx mm).reads a) ∧
        ∀ k'' v, k'.step (.load p a) = some (k'',.byte v) →
          ops.foldl (written p a) ((k.ctx mm).reads a) = some v := by
  obtain ⟨-,hinv,mm',hm',hsame,hreads⟩ := run_view hp hrun hm hk.inv.1 hk.inv.2 hfail
  refine ⟨mm',hm',hsame,fun a ha => ⟨hreads a ha,fun k'' v hs => ?_⟩⟩
  rw [← hreads a ha]
  exact load_byte hinv hm' hs

theorem private_memory_store : ∃ k k' : Kernel, ∃ mm, k.Booted ∧
    k.step (.store 1 userLoad 7) = some (k',.stored) ∧ (k'.procs 1).mm = some mm ∧
    (k'.ctx mm).reads userLoad = some 7 := by
  obtain ⟨k,k',mm,hk,hc,hns,hs,hf⟩ := exists_step (.store 1 userLoad 7) .stored (by decide +kernel)
  obtain ⟨mm',hm,-,hread⟩ := private_memory k k' _ 1 mm hk (by decide) (current_some hc).2.2
    (.cons ⟨_,hs,trivial,fun _ => ⟨rfl,nofun⟩⟩ (.nil k')) hf
  exact ⟨k,k',mm',hk,hs,hm,(hread userLoad hns).1⟩

theorem fork_snapshot (k k' : Kernel) (p : Nat) (mm : Mm) (kmem : Bool) (o : Option Nat)
    (hk : k.Booted) (hc : k.current p = some mm)
    (hs : k.step (.fork p kmem) = some (k',.child o)) :
    (∃ mm', (k'.procs p).mm = some mm' ∧ Mirrors k k' mm mm') ∧
      ∀ c, o = some c → (k.procs c).mm = none ∧
        ∃ child, (k'.procs c).mm = some child ∧ Mirrors k k' mm child := by
  obtain ⟨mm₁,hc₁,he⟩ := map_eq_some_iff.mp hs
  cases hc.symm.trans hc₁
  cases he
  obtain ⟨⟨mm',hm,-,hmir⟩,hchild⟩ := fork_view hk.inv.1 hc rfl
  exact ⟨⟨mm',hm,hmir⟩,hchild⟩

theorem fork_snapshot_child : ∃ k k' : Kernel, ∃ mm child, k.Booted ∧ k.current 1 = some mm ∧
    (k'.procs 2).mm = some child ∧ Mirrors k k' mm child := by
  obtain ⟨k,k',mm,hk,hc,-,hs,-⟩ := exists_step (.fork 1 true) (.child (some 2)) (by decide +kernel)
  obtain ⟨-,child,hm,hmir⟩ := (fork_snapshot k k' 1 mm true _ hk hc hs).2 2 rfl
  exact ⟨k,k',mm,child,hk,hc,hm,hmir⟩

end Kernel

end TinyOs
