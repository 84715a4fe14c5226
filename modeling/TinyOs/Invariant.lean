import TinyOs.Fork
import TinyOs.Ipc.Table
import TinyOs.System

namespace TinyOs

open Count Finset

def stackRefs : Option Nat → Nat → Nat
  | none => 0
  | some f => unit f

def procUser (pr : Proc) : Nat → Nat := mmUser pr.mm

def procKernel (pr : Proc) : Nat → Nat := mmKernel pr.mm + stackRefs pr.kstack

def procAttached (pr : Proc) : Nat → Nat := mmAttached pr.mm

namespace Kernel

variable {k k' : Kernel} {p q : Nat} {pr : Proc} {g : Proc → Nat → Nat} {mm : Mm} {ph : Phys}
  {shm : ShmTable} {x : Ctx}

def total (k : Kernel) (g : Proc → Nat → Nat) : Nat → Nat := ∑ p ∈ Finset.range nproc, g (k.procs p)

def rest (k : Kernel) (g : Proc → Nat → Nat) (p : Nat) : Nat → Nat :=
  ∑ q ∈ (Finset.range nproc).erase p, g (k.procs q)

def users (k : Kernel) : Nat → Nat := k.total procUser + k.shm.refs

def heldRefs (k : Kernel) : Nat → Nat := fun f => k.held.count f

structure Inv (k : Kernel) : Prop where
  phys : k.phys.Ok k.users (k.total procKernel + k.heldRefs)
  table : k.shm.Wf
  mms : ∀ p < nproc, ∀ mm, (k.procs p).mm = some mm → mm.Ok k.shm
  attach : ∀ id, (k.shm id).nattch = k.total procAttached id
  idle : ∀ p < nproc, (k.procs p).state ≠ .used → (k.procs p).mm = none
  unused : ∀ p < nproc, (k.procs p).state = .unused → k.procs p = Proc.empty
  kernel : k.kernelPgdir.Supervisor

theorem total_eq (hp : p < nproc) : k.total g = g (k.procs p) + k.rest g p :=
  (add_sum_erase _ (fun q => g (k.procs q)) (mem_range.mpr hp)).symm

theorem rest_congr (h : ∀ q, q ≠ p → k'.procs q = k.procs q) : k'.rest g p = k.rest g p :=
  sum_congr rfl fun q hq => by rw [h q (ne_of_mem_erase hq)]

theorem setProc_self : (k.setProc p pr).procs p = pr := Function.update_self ..

theorem setProc_of_ne (h : q ≠ p) : (k.setProc p pr).procs q = k.procs q := Function.update_of_ne h ..

theorem total_update (hp : p < nproc) (h : ∀ q, q ≠ p → k'.procs q = k.procs q) :
    k'.total g = g (k'.procs p) + k.rest g p := by
  rw [total_eq hp,rest_congr h]

theorem rest_none (hp : nproc ≤ p) : k.rest g p = k.total g := by
  rw [rest,erase_eq_of_notMem (by simpa using hp)]
  rfl

theorem le_rest (hq : q < nproc) (hqp : q ≠ p) (f : Nat) : g (k.procs q) f ≤ k.rest g p f := by
  have hle := single_le_sum (fun _ _ => Nat.zero_le _)
    (mem_erase.mpr ⟨hqp,mem_range.mpr hq⟩) (f := fun q => g (k.procs q) f)
  rw [rest,Finset.sum_apply]
  exact hle

theorem procUser_le (pr : Proc) (f : Nat) : procUser pr f ≤ 768 * 1024 := by
  rw [procUser]
  rcases pr.mm with _ | mm
  · exact Nat.zero_le _
  · exact Pgdir.userRefs_le mm.pd f

theorem rest_procUser_le (k : Kernel) (p f : Nat) : k.rest procUser p f ≤ 2 ^ 29 := by
  have hle := sum_le_card_nsmul ((range nproc).erase p) (fun q => procUser (k.procs q) f)
    (768 * 1024) fun q _ => procUser_le _ f
  have hcard := (card_erase_le (s := range nproc) (a := p)).trans_eq (card_range _)
  rw [rest,Finset.sum_apply]
  simp only [smul_eq_mul,nproc] at hle hcard ⊢
  omega

def outKernel (k : Kernel) (p : Nat) : Nat → Nat :=
  stackRefs (k.procs p).kstack + (k.rest procKernel p + k.heldRefs)

theorem Inv.slot (h : k.Inv) (hp : p < nproc) :
    Slot k.phys k.shm (k.procs p).mm (k.rest procUser p) (k.outKernel p)
      (k.rest procAttached p) := by
  refine ⟨?_,h.table,h.mms p hp,fun id => ?_⟩
  · have e : k.users = mmUser (k.procs p).mm + (k.shm.refs + k.rest procUser p) := by
      rw [users,total_eq hp,procUser]
      abel
    have e' : k.total procKernel + k.heldRefs = mmKernel (k.procs p).mm + k.outKernel p := by
      rw [total_eq hp,outKernel,procKernel]
      abel
    have := h.phys
    rwa [e,e'] at this
  · rw [h.attach,total_eq hp]
    rfl

structure Change (k k' : Kernel) (p : Nat) (own : Nat → Nat) : Prop where
  others : ∀ q < nproc, q ≠ p → ∀ mm, (k.procs q).mm = some mm → (k'.procs q).mm = some mm
  users : k'.users = own + (k'.shm.refs + k.rest procUser p)
  out : Outside k.shm k'.shm (mmUser (k.procs p).mm) own (k.rest procUser p) (k.rest procAttached p)
  failed : k.phys.pmm.failed ≤ k'.phys.pmm.failed

structure SameBut (k k' : Kernel) (p : Nat) : Prop where
  procs : ∀ q, q ≠ p → k'.procs q = k.procs q
  kstack : (k'.procs p).kstack = (k.procs p).kstack
  state : (k'.procs p).state ≠ .unused
  idle : (k'.procs p).state ≠ .used → (k'.procs p).mm = none
  held : k'.held = k.held
  pgdir : k'.kernelPgdir = k.kernelPgdir

theorem SameBut.users (h : SameBut k k' p) (hp : p < nproc) :
    k'.users = mmUser (k'.procs p).mm + (k'.shm.refs + k.rest procUser p) := by
  rw [Kernel.users,total_update hp h.procs,procUser]
  abel

theorem Inv.update (h : k.Inv) (hp : p < nproc) (hs : SameBut k k' p)
    (hslot : Slot k'.phys k'.shm (k'.procs p).mm (k.rest procUser p) (k.outKernel p)
      (k.rest procAttached p))
    (hout : Outside k.shm k'.shm (mmUser (k.procs p).mm) (mmUser (k'.procs p).mm)
      (k.rest procUser p) (k.rest procAttached p)) : k'.Inv where
  phys := by
    have hheld : k'.heldRefs = k.heldRefs := funext fun f => congrArg (List.count f) hs.held
    have e : k'.total procKernel + k'.heldRefs = mmKernel (k'.procs p).mm + k.outKernel p := by
      rw [total_update hp hs.procs,outKernel,procKernel,hs.kstack,hheld]
      abel
    rw [hs.users hp,e]
    exact hslot.phys
  table := hslot.table
  mms q hq mm hmm := by
    by_cases hqp : q = p
    · subst hqp
      exact hslot.mm mm hmm
    rw [hs.procs q hqp] at hmm
    have hmok := h.mms q hq mm hmm
    refine ⟨hmok.wf,hmok.layout,hmok.backed.congr fun id hid => (hout.stable id ?_).1⟩
    refine hid.trans_le ((le_rest hq hqp id).trans' ?_)
    rw [procAttached,hmm,mmAttached]
  attach id := by
    rw [hslot.attach,total_update hp hs.procs]
    rfl
  idle q hq hst := by
    by_cases hqp : q = p
    · subst hqp
      exact hs.idle hst
    · rw [hs.procs q hqp] at hst ⊢
      exact h.idle q hq hst
  unused q hq hst := by
    by_cases hqp : q = p
    · subst hqp
      exact absurd hst hs.state
    · rw [hs.procs q hqp] at hst ⊢
      exact h.unused q hq hst
  kernel := hs.pgdir ▸ h.kernel

theorem SameBut.change (hs : SameBut k k' p) (hp : p < nproc)
    (hout : Outside k.shm k'.shm (mmUser (k.procs p).mm) (mmUser (k'.procs p).mm)
      (k.rest procUser p) (k.rest procAttached p))
    (hfail : k.phys.pmm.failed ≤ k'.phys.pmm.failed) :
    Change k k' p (mmUser (k'.procs p).mm) where
  others q _ hqp mm hmm := by rwa [hs.procs q hqp]
  users := hs.users hp
  out := hout
  failed := hfail

def replace (k : Kernel) (p : Nat) (pr : Proc) (ph : Phys) (shm : ShmTable) : Kernel :=
  { k.setProc p pr with phys := ph, shm := shm }

theorem replace_self : (k.replace p pr ph shm).procs p = pr :=
  setProc_self

theorem replace_same (hks : pr.kstack = (k.procs p).kstack)
    (hst : pr.state ≠ .unused) (hidle : pr.state ≠ .used → pr.mm = none) :
    SameBut k (k.replace p pr ph shm) p := by
  refine ⟨fun q hq => setProc_of_ne hq,?_,?_,fun hno => ?_,rfl,rfl⟩
  · rw [replace_self]
    exact hks
  · rw [replace_self]
    exact hst
  · rw [replace_self] at hno ⊢
    exact hidle hno

theorem Inv.replace (pr : Proc) (h : k.Inv) (hp : p < nproc)
    (hks : pr.kstack = (k.procs p).kstack) (hst : pr.state ≠ .unused)
    (hidle : pr.state ≠ .used → pr.mm = none)
    (hslot : Slot ph shm pr.mm (k.rest procUser p) (k.outKernel p) (k.rest procAttached p))
    (hout : Outside k.shm shm (mmUser (k.procs p).mm) (mmUser pr.mm) (k.rest procUser p)
      (k.rest procAttached p)) (hfail : k.phys.pmm.failed ≤ ph.pmm.failed) :
    (k.replace p pr ph shm).Inv ∧ Change k (k.replace p pr ph shm) p (mmUser pr.mm) := by
  have hs : SameBut k (k.replace p pr ph shm) p := replace_same hks hst hidle
  have hmm : ((k.replace p pr ph shm).procs p).mm = pr.mm := congrArg Proc.mm replace_self
  rw [← hmm] at hslot hout ⊢
  exact ⟨h.update hp hs hslot hout,hs.change hp hout hfail⟩

theorem current_some (h : k.current p = some mm) :
    p < nproc ∧ (k.procs p).state = .used ∧ (k.procs p).mm = some mm := by
  obtain ⟨hp,h⟩ := Option.ite_none_right_eq_some.mp h
  exact ⟨hp.1,hp.2,h⟩

theorem setCtx_eq (k : Kernel) (p : Nat) (x : Ctx) :
    k.setCtx p x = k.replace p { k.procs p with mm := some x.mm } x.phys x.shm := rfl

def CtxOk (k : Kernel) (p : Nat) (mm : Mm) (x : Ctx) : Prop :=
  x.Ok (k.rest procUser p) (unit mm.dir + k.outKernel p) (k.rest procAttached p)

theorem Inv.ctxOk (h : k.Inv) (hc : k.current p = some mm) : k.CtxOk p mm (k.ctx mm) := by
  obtain ⟨hp,-,hmm⟩ := current_some hc
  have hslot := h.slot hp
  rw [hmm] at hslot
  exact hslot.ctx

theorem Inv.setCtx (h : k.Inv) (hc : k.current p = some mm)
    (hx : k.CtxOk p mm x) (hd : x.mm.dir = mm.dir)
    (hout : Outside k.shm x.shm mm.pd.userRefs x.mm.pd.userRefs (k.rest procUser p)
      (k.rest procAttached p)) (hfail : k.phys.pmm.failed ≤ x.phys.pmm.failed) :
    (k.setCtx p x).Inv ∧ Change k (k.setCtx p x) p x.mm.pd.userRefs := by
  obtain ⟨hp,hst,hmm⟩ := current_some hc
  rw [setCtx_eq]
  refine h.replace _ hp rfl ?_ (fun hno => absurd hst hno) (hx.slot hd) ?_ hfail
  · rw [hst]
    nofun
  · rw [hmm]
    exact hout

theorem Inv.shrunk (h : k.Inv) (hc : k.current p = some mm)
    (hx : Ctx.Shrunk (k.ctx mm) x (k.rest procUser p) (unit mm.dir + k.outKernel p)
      (k.rest procAttached p)) : (k.setCtx p x).Inv ∧ Change k (k.setCtx p x) p x.mm.pd.userRefs :=
  h.setCtx hc hx.ok hx.dir hx.out hx.same.failed.ge

theorem Inv.paged (h : k.Inv) (hc : k.current p = some mm)
    (hx : Ctx.Paged (k.ctx mm) x (k.rest procUser p) (unit mm.dir + k.outKernel p)
      (k.rest procAttached p)) :
    (k.setCtx p x).Inv ∧ Change k (k.setCtx p x) p x.mm.pd.userRefs := by
  have hd : x.mm.dir = mm.dir := by
    rw [hx.mm]
    rfl
  exact h.setCtx hc hx.ok hd hx.out hx.failed

theorem Inv.attaching (shmid shmaddr shmflg : Nat) (h : k.Inv) (hc : k.current p = some mm) :
    let x := ((k.ctx mm).doShmat shmid shmaddr shmflg).1
    (k.setCtx p x).Inv ∧ Change k (k.setCtx p x) p x.mm.pd.userRefs := by
  have hok := h.ctxOk hc
  have hX : ∀ g, k.rest procUser p g ≤ 2 ^ 30 := fun g =>
    (k.rest_procUser_le p g).trans (by decide)
  rcases hs : (k.ctx mm).doShmat shmid shmaddr shmflg with ⟨x,r⟩
  dsimp only
  rcases Ctx.doShmat_cases hok hs with ⟨rfl,-⟩ | ⟨i,v,ha,⟨s,hm,-,rfl⟩ | ⟨s,hm,-,rfl⟩⟩
  · exact h.setCtx hc hok rfl (Outside.refl _ _ _ _) le_rfl
  · have hr := ha.remap hok hX hm
    exact h.setCtx hc (ha.fail hok hr rfl) rfl (hr.out hok.shm) hr.remapped.failed
  have hr := ha.remap hok hX hm
  refine h.setCtx hc (ha.done hok hr) rfl ((hr.out hok.shm).congr fun id => ?_) hr.remapped.failed
  exact k.shm.setNattch_same shmid _ id

theorem Change.of_mms (hmm : ∀ q < nproc, (k'.procs q).mm = (k.procs q).mm)
    (hout : Outside k.shm k'.shm 0 0 (k.total procUser) (k.total procAttached))
    (hfail : k.phys.pmm.failed ≤ k'.phys.pmm.failed) : Change k k' nproc 0 where
  others q hq _ mm h := by rwa [hmm q hq]
  users := by
    have e : k'.total procUser = k.total procUser := sum_congr rfl fun q hq => by
        rw [procUser,procUser,hmm q (mem_range.mp hq)]
    rw [Kernel.users,e,rest_none le_rfl]
    abel
  out := by
    rw [rest_none le_rfl,rest_none le_rfl]
    refine ⟨hout.stable,hout.slots,fun f hf h0 => hout.closed f hf ?_⟩
    rw [Pi.add_apply] at h0 ⊢
    rw [Pi.zero_apply]
    omega
  failed := hfail

end Kernel

end TinyOs
