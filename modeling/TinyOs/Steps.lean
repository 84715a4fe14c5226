import TinyOs.Invariant

namespace TinyOs

open Count List Option Buddy
open Dyadic (Block)

namespace Kernel

variable {k k' k'' : Kernel} {p q va : Nat} {mm : Mm} {own own' : Nat → Nat} {out : Out}
  {ph : Phys} {x : Ctx} {shm : ShmTable}

def Follows (k k' : Kernel) (p : Nat) : Prop := k'.Inv ∧ ∃ own, Change k k' p own

def Tidy (k : Kernel) : Prop := ∀ p < nproc, ∀ mm, (k.procs p).mm = some mm → mm.Tidy k.shm k.users

theorem users_eq (hp : p < nproc) :
    k.users = mmUser (k.procs p).mm + (k.shm.refs + k.rest procUser p) := by
  rw [users,total_eq hp,procUser]
  abel

theorem users_congr (hmm : ∀ q < nproc, (k'.procs q).mm = (k.procs q).mm)
    (hshm : k'.shm = k.shm) : k'.users = k.users := by
  rw [users,users,hshm]
  refine congrArg (· + k.shm.refs) (Finset.sum_congr rfl fun q hq => ?_)
  rw [procUser,procUser,hmm q (Finset.mem_range.mp hq)]

theorem Tidy.same (h : k.Tidy) (hmm : ∀ q < nproc, (k'.procs q).mm = (k.procs q).mm)
    (hshm : k'.shm = k.shm) : k'.Tidy := by
  intro q hq mm hm
  rw [users_congr hmm hshm,hshm]
  exact h q hq mm (hmm q hq ▸ hm)

theorem attached_le_rest (hq : q < nproc) (hqp : q ≠ p) (hm : (k.procs q).mm = some mm) (id : Nat) :
    mm.attached id ≤ k.rest procAttached p id := by
  refine (le_rest hq hqp id).trans' ?_
  rw [procAttached,hm,mmAttached]

theorem userRefs_le_rest (hq : q < nproc) (hqp : q ≠ p) (hm : (k.procs q).mm = some mm) (f : Nat) :
    mm.pd.userRefs f ≤ k.rest procUser p f := by
  refine (le_rest hq hqp f).trans' ?_
  rw [procUser,hm,mmUser]

theorem Tidy.other (h : k.Tidy) (hinv : k.Inv) (hp : p < nproc) (hc : Change k k' p own)
    (hq : q < nproc) (hqp : q ≠ p) (hm : (k.procs q).mm = some mm) :
    mm.Tidy k'.shm k'.users := by
  have ht := h q hq mm hm
  rw [users_eq hp] at ht
  rw [hc.users]
  exact ht.frame (hinv.mms q hq mm hm).wf (userRefs_le_rest hq hqp hm) (attached_le_rest hq hqp hm)
    hc.out

theorem Tidy.change (h : k.Tidy) (hinv : k.Inv) (hp : p < nproc) (hc : Change k k' p own)
    (hself : ∀ mm, (k'.procs p).mm = some mm → mm.Tidy k'.shm k'.users)
    (hnew : ∀ q, q ≠ p → (k.procs q).mm = none → ∀ mm, (k'.procs q).mm = some mm →
      mm.Tidy k'.shm k'.users) : k'.Tidy := by
  intro q hq mm hm
  by_cases hqp : q = p
  · rw [hqp] at hm
    exact hself mm hm
  cases hold : (k.procs q).mm with
  | none => exact hnew q hqp hold mm hm
  | some mm₀ =>
    rw [hc.others q hq hqp mm₀ hold] at hm
    cases hm
    exact h.other hinv hp hc hq hqp hold

theorem Tidy.replace {pr : Proc} (h : k.Tidy) (hinv : k.Inv)
    (hp : p < nproc) (hc : Change k (k.replace p pr ph shm) p own)
    (hself : ∀ mm, pr.mm = some mm → mm.Tidy shm (own + (shm.refs + k.rest procUser p))) :
    (k.replace p pr ph shm).Tidy := by
  refine h.change hinv hp hc (fun mm' hm' => ?_) fun q hqp hnone mm' hm' => ?_
  · rw [replace_self] at hm'
    rw [hc.users]
    exact hself mm' hm'
  · rw [Kernel.replace] at hm'
    dsimp only at hm'
    rw [setProc_of_ne hqp,hnone] at hm'
    cases hm'

structure Moves (k k' : Kernel) (p : Nat) : Prop where
  follows : Follows k k' p
  tidy : k.Tidy → k'.phys.pmm.failed = 0 → k'.Tidy

theorem Tidy.ctx (h : k.Tidy) (hc : k.current p = some mm) :
    (k.ctx mm).Tidy (k.rest procUser p) := by
  obtain ⟨hp,-,hm⟩ := current_some hc
  have ht := h p hp mm hm
  rw [users_eq hp,hm] at ht
  exact ht

theorem Inv.moves (h : k.Inv) (hc : k.current p = some mm)
    (hr : (k.setCtx p x).Inv ∧ Change k (k.setCtx p x) p x.mm.pd.userRefs)
    (ht : (k.ctx mm).Tidy (k.rest procUser p) → x.phys.pmm.failed = 0 →
      x.Tidy (k.rest procUser p)) : Moves k (k.setCtx p x) p := by
  refine ⟨⟨hr.1,_,hr.2⟩,fun hk hf => ?_⟩
  rw [setCtx_eq] at hr ⊢
  refine hk.replace h (current_some hc).1 hr.2 fun mm' hm => ?_
  cases hm
  exact ht (hk.ctx hc) hf

theorem Inv.exit (h : k.Inv) (hc : k.current p = some mm) (he : k.exit p mm = some k') :
    k'.Inv ∧ Change k k' p 0 ∧ (k.Tidy → k'.Tidy) := by
  obtain ⟨hp,hst,hmm⟩ := current_some hc
  have ht := procDropMm_spec (h.ctxOk hc)
  rw [Kernel.exit] at he
  split at he
  · cases he
  obtain rfl := some.inj he
  generalize procDropMm k.phys k.shm mm = r at ht
  refine And.imp_right (fun hch => ⟨hch,fun hk => hk.replace h hp hch nofun⟩)
    (h.replace _ hp rfl nofun (fun _ => rfl) ⟨?_,ht.wf,nofun,fun id => ?_⟩ ?_
      (ht.same.failed.ge))
  · rw [mmUser,mmKernel,zero_add,zero_add]
    exact ht.ok
  · rw [mmAttached,zero_add]
    exact ht.attach id
  · rw [hmm]
    exact ht.out

theorem Inv.execve {kmem : Bool} {blob name : List UInt8} {argv envp : List (List UInt8)}
    (h : k.Inv) (hp : p < nproc) (hst : (k.procs p).state = .used) :
    Moves k (k.execve p kmem blob name argv envp).1 p := by
  rw [Kernel.execve]
  rcases he : execLoad k.phys k.shm (k.procs p).mm k.kernelPgdir kmem blob name argv envp with
    ⟨ph,shm,new,b⟩
  obtain ⟨hx,hcase⟩ := execLoad_spec (h.slot hp) h.kernel he
  obtain ⟨hinv,hch⟩ := h.replace { k.procs p with mm := new } hp rfl (by rw [hst]; nofun)
    (fun hno => absurd hst hno) hx.slot hx.out hx.keeps.failed
  refine ⟨⟨hinv,_,hch⟩,fun hk _ => hk.replace h hp hch fun mm hm => ?_⟩
  rcases hcase with ⟨rfl,rfl⟩ | ⟨mm,rfl,ht,-⟩
  · have ht := hk p hp mm hm
    rw [users_eq hp] at ht
    exact ht
  · cases hm
    exact ht

theorem procAlloc_some (h : k.procAlloc = some q) : q < nproc ∧ (k.procs q).state = .unused := by
  have hmem := mem_of_find?_eq_some h
  have hst := find?_some h
  simp only [mem_range'_1,nproc] at hmem
  refine ⟨?_,by simpa using hst⟩
  simp only [nproc]
  omega

theorem total_none {g : Proc → Nat → Nat} (hq : q < nproc) (h : g (k.procs q) = 0) :
    k.total g = k.rest g q := by
  rw [total_eq hq,h,zero_add]

theorem Inv.child {p' child : Mm} {kstack : Nat} (h : k.Inv)
    (hc : k.current p = some mm) (hq : q < nproc) (hun : (k.procs q).state = .unused)
    (hf : Forked k.phys ph k.shm shm mm p' child kstack (k.rest procUser p) (k.outKernel p)
      (k.rest procAttached p)) :
    Moves k ((k.setCtx p ⟨ph,shm,p'⟩).setProc q ⟨.used,some child,some kstack⟩) p := by
  obtain ⟨hp,hst,hmm⟩ := current_some hc
  have hempty := h.unused q hq hun
  have hqp : q ≠ p := by
    rintro rfl
    rw [hun] at hst
    cases hst
  obtain ⟨k₁,hk₁⟩ : ∃ k₁, k.setCtx p ⟨ph,shm,p'⟩ = k₁ := ⟨_,rfl⟩
  have hself : k₁.procs p = { k.procs p with mm := some p' } := by
    rw [← hk₁,setCtx_eq]
    exact replace_self
  have hother : ∀ r, r ≠ p → k₁.procs r = k.procs r := by
    intro r hr
    rw [← hk₁]
    exact setProc_of_ne hr
  have hphys : k₁.phys = ph := by rw [← hk₁]; rfl
  have hshm : k₁.shm = shm := by rw [← hk₁]; rfl
  have hheld : k₁.heldRefs = k.heldRefs := by rw [← hk₁]; rfl
  have hpd : k₁.kernelPgdir = k.kernelPgdir := by rw [← hk₁]; rfl
  rw [hk₁]
  obtain ⟨k₂,hk₂⟩ : ∃ k₂, k₁.setProc q ⟨.used,some child,some kstack⟩ = k₂ := ⟨_,rfl⟩
  have hnew : k₂.procs q = ⟨.used,some child,some kstack⟩ := by
    rw [← hk₂]
    exact setProc_self
  have hold : ∀ r, r ≠ q → k₂.procs r = k₁.procs r := by
    intro r hr
    rw [← hk₂]
    exact setProc_of_ne hr
  have hphys₂ : k₂.phys = ph := by rw [← hk₂]; exact hphys
  have hshm₂ : k₂.shm = shm := by rw [← hk₂]; exact hshm
  have hheld₂ : k₂.heldRefs = k.heldRefs := by rw [← hk₂]; exact hheld
  have hpd₂ : k₂.kernelPgdir = k.kernelPgdir := by rw [← hk₂]; exact hpd
  rw [hk₂]
  have htotal : ∀ g : Proc → Nat → Nat, g Proc.empty = 0 →
      k₂.total g = g ⟨.used,some child,some kstack⟩ +
        (g { k.procs p with mm := some p' } + k.rest g p) := by
    intro g hg
    rw [total_update hq hold,hnew,← total_none hq (by rw [hother q hqp,hempty,hg]),
      total_update hp hother,hself]
  have husers : k₂.users = p'.pd.userRefs + child.pd.userRefs + (shm.refs + k.rest procUser p) := by
    rw [users,htotal procUser rfl,hshm₂]
    simp only [procUser,mmUser]
    abel
  have hkernel : k₂.total procKernel + k₂.heldRefs = mmKernel (some p') +
      (mmKernel (some child) + (unit kstack + k.outKernel p)) := by
    rw [htotal procKernel (by rfl),hheld₂]
    simp only [procKernel,stackRefs,outKernel]
    abel
  have hp₂ : k₂.procs p = { k.procs p with mm := some p' } := (hold p hqp.symm).trans hself
  have hcase : ∀ r, (r ≠ p ∧ k₂.procs r = k.procs r) ∨ r = p ∨ r = q := by
    intro r
    by_cases hr : r = q
    · exact .inr (.inr hr)
    by_cases hrp : r = p
    · exact .inr (.inl hrp)
    · exact .inl ⟨hrp,(hold r hr).trans (hother r hrp)⟩
  have hchange : Change k k₂ p (p'.pd.userRefs + child.pd.userRefs) := by
    refine ⟨fun r hr hrp m hm => ?_,by rw [husers,hshm₂],?_,
      hphys₂ ▸ hf.parent.failed⟩
    · rcases hcase r with ⟨-,he⟩ | rfl | rfl
      · rwa [he]
      · exact absurd rfl hrp
      · rw [hempty] at hm
        cases hm
    · rw [hmm,hshm₂]
      exact hf.parent.out
  refine ⟨⟨⟨?_,hshm₂ ▸ hf.table,fun r hr m hm => ?_,fun id => ?_,fun r hr hno => ?_,
    fun r hr hno => ?_,hpd₂ ▸ h.kernel⟩,_,hchange⟩,fun hk _ => ?_⟩
  · rw [hphys₂,husers,hkernel,add_assoc]
    exact hf.phys
  · rw [hshm₂]
    rcases hcase r with ⟨hrp,he⟩ | rfl | rfl
    · rw [he] at hm
      have hok := h.mms r hr m hm
      refine ⟨hok.wf,hok.layout,hok.backed.congr fun id hid => (hf.parent.out.stable id ?_).1⟩
      exact hid.trans_le (attached_le_rest hr hrp hm id)
    · rw [hp₂] at hm
      cases hm
      exact hf.mmOk
    · rw [hnew] at hm
      cases hm
      exact hf.childOk
  · rw [hshm₂,hf.attach,htotal procAttached rfl]
    simp only [procAttached,mmAttached,Pi.add_apply]
    omega
  · rcases hcase r with ⟨-,he⟩ | rfl | rfl
    · rw [he] at hno ⊢
      exact h.idle r hr hno
    · rw [hp₂] at hno
      exact absurd hst hno
    · rw [hnew] at hno
      exact absurd rfl hno
  · rcases hcase r with ⟨-,he⟩ | rfl | rfl
    · rw [he] at hno ⊢
      exact h.unused r hr hno
    · rw [hp₂] at hno
      cases hst.symm.trans hno
    · rw [hnew] at hno
      cases hno
  · obtain ⟨htidy,htidy'⟩ := hf.tidy _ (hk.ctx hc)
    refine hk.change h hp hchange (fun m hm => ?_) fun r hrp hnone m hm => ?_
    · rw [hp₂] at hm
      cases hm
      exact hshm₂ ▸ htidy.of_zero _
    rcases hcase r with ⟨-,he⟩ | rfl | rfl
    · rw [he,hnone] at hm
      cases hm
    · exact absurd rfl hrp
    · rw [hnew] at hm
      cases hm
      exact hshm₂ ▸ htidy'.of_zero _

theorem Change.refl (k : Kernel) : Change k k nproc 0 :=
  .of_mms (fun _ _ => rfl) (Outside.refl _ _ _ _) le_rfl

theorem Inv.fork {kmem : Bool} (h : k.Inv) (hc : k.current p = some mm) :
    Moves k (k.fork p mm kmem).1 p ∨ (k.fork p mm kmem).1 = k := by
  rw [Kernel.fork]
  rcases ha : k.procAlloc with _ | q
  · exact .inr rfl
  obtain ⟨hp,hst,hmm⟩ := current_some hc
  obtain ⟨hq,hun⟩ := procAlloc_some ha
  have hslot := h.slot hp
  rw [hmm] at hslot
  rcases hf : forkCopy k.phys k.shm mm k.kernelPgdir kmem with ⟨ph,shm,p',o⟩
  refine .inl ?_
  rcases forkCopy_spec hslot (k.rest_procUser_le p) h.kernel hf with
    ⟨rfl,hch,-⟩ | ⟨child,kstack,rfl,hfork⟩
  · have hd : p'.dir = mm.dir := by rw [hch.parent.mm]
    have hout := hch.parent.out
    rw [add_zero] at hout
    have hctx := hch.slot.ctx
    rw [hd] at hctx
    exact h.moves hc (h.setCtx hc hctx hd hout hch.parent.failed) fun ht _ => hch.tidy ht
  · exact h.child hc hq hun hfork

theorem Inv.restack {st : PState} {o : Option Nat} (h : k.Inv) (hp : p < nproc)
    (hmm : (k.procs p).mm = none) (hst : st = .unused → o = none)
    (hok : ph.Ok k.users (stackRefs o + (k.rest procKernel p + k.heldRefs)))
    (hfail : k.phys.pmm.failed ≤ ph.pmm.failed) :
    Moves k (k.replace p ⟨st,none,o⟩ ph k.shm) nproc := by
  obtain ⟨k',hk'⟩ : ∃ k', k.replace p ⟨st,none,o⟩ ph k.shm = k' := ⟨_,rfl⟩
  have hself : k'.procs p = ⟨st,none,o⟩ := by
    rw [← hk']
    exact replace_self
  have hother : ∀ q, q ≠ p → k'.procs q = k.procs q := by
    intro q hq
    rw [← hk']
    exact setProc_of_ne hq
  have hshm : k'.shm = k.shm := by rw [← hk']; rfl
  have hphys : k'.phys = ph := by rw [← hk']; rfl
  have hheld : k'.heldRefs = k.heldRefs := by rw [← hk']; rfl
  have hsame : ∀ q, (k'.procs q).mm = (k.procs q).mm := by
    intro q
    by_cases hq : q = p
    · subst hq
      rw [hself,hmm]
    · rw [hother q hq]
  have htotal : ∀ g : Option Mm → Nat → Nat,
      k'.total (fun pr => g pr.mm) = k.total fun pr => g pr.mm := fun g =>
    Finset.sum_congr rfl fun q _ => congrArg g (hsame q)
  have husers : k'.users = k.users := by
    rw [users,users,hshm]
    exact congrArg (· + k.shm.refs) (htotal mmUser)
  rw [hk']
  refine ⟨⟨⟨?_,hshm ▸ h.table,fun q hq m hm => ?_,fun id => ?_,fun q hq hno => ?_,
    fun q hq hno => ?_,?_⟩,0,.of_mms (fun q _ => hsame q) (hshm ▸ Outside.refl _ _ _ _)
    (hphys ▸ hfail)⟩,fun hk _ => hk.same (fun q _ => hsame q) hshm⟩
  · rw [hphys,husers,total_update hp hother,hself,hheld,procKernel,mmKernel,zero_add,add_assoc]
    exact hok
  · rw [hshm]
    exact h.mms q hq m (hsame q ▸ hm)
  · rw [hshm,h.attach]
    exact (congrFun (htotal mmAttached) id).symm
  · rw [hsame]
    by_cases hqp : q = p
    · rw [hqp,hmm]
    · rw [hother q hqp] at hno
      exact h.idle q hq hno
  · by_cases hqp : q = p
    · subst hqp
      rw [hself] at hno ⊢
      dsimp only at hno
      subst hno
      rw [hst rfl]
      rfl
    · rw [hother q hqp] at hno ⊢
      exact h.unused q hq hno
  · rw [← hk']
    exact h.kernel

theorem Inv.zombieReap (h : k.Inv) (hp : p < nproc) (hmm : (k.procs p).mm = none) :
    Moves k (k.zombieReap p) nproc := by
  have hphys := h.phys
  rw [total_eq hp,procKernel,hmm,mmKernel,zero_add,add_assoc] at hphys
  rw [Kernel.zombieReap]
  rcases hks : (k.procs p).kstack with _ | f
  · rw [hks] at hphys
    exact h.restack hp hmm (fun _ => rfl) hphys le_rfl
  rw [hks,stackRefs,add_comm] at hphys
  refine h.restack hp hmm (fun _ => rfl) ?_ ?_
  · rw [stackRefs,zero_add]
    exact Phys.putPage_kernel hphys
  · rw [Phys.putPage_failed]

theorem Inv.kthreadCreate (h : k.Inv) : Moves k k.kthreadCreate nproc := by
  rw [Kernel.kthreadCreate]
  rcases ha : k.procAlloc with _ | q
  · exact ⟨⟨h,0,.refl k⟩,fun hk _ => hk⟩
  obtain ⟨hq,hun⟩ := procAlloc_some ha
  have hempty := h.unused q hq hun
  dsimp only
  rcases hal : k.phys.allocPage with ⟨ph,_ | f⟩
  · obtain ⟨hok,-,-,hf⟩ := Phys.allocPage_none h.phys hal
    refine ⟨⟨⟨hok,h.table,h.mms,h.attach,h.idle,h.unused,h.kernel⟩,0,
      .of_mms (fun _ _ => rfl) (Outside.refl _ _ _ _) hf.le⟩,
      fun hk _ => hk.same (fun _ _ => rfl) rfl⟩
  obtain ⟨hok,hfresh⟩ := Phys.allocPage_some h.phys hal
  refine h.restack hq (by rw [hempty]; rfl) nofun ?_ hfresh.failed.ge
  rw [total_eq hq,procKernel,hempty] at hok
  have e : mmKernel Proc.empty.mm + stackRefs Proc.empty.kstack + k.rest procKernel q +
      k.heldRefs + unit f = stackRefs (some f) + (k.rest procKernel q + k.heldRefs) := by
    change 0 + 0 + k.rest procKernel q + k.heldRefs + unit f = unit f + _
    abel
  rwa [e] at hok

theorem Inv.setTable (h : k.Inv)
    (hc : TableChange k.phys ph k.shm shm (k.total procUser) (k.total procKernel + k.heldRefs)
      (k.total procAttached)) : Moves k { k with phys := ph, shm := shm } nproc := by
  have hatt : ∀ q < nproc, ∀ mm, (k.procs q).mm = some mm →
      ∀ id, mm.attached id ≤ k.total procAttached id := by
    intro q hq mm hm id
    rw [total_eq hq,procAttached,hm,mmAttached]
    exact Nat.le_add_right _ _
  refine ⟨⟨⟨?_,hc.wf,fun q hq m hm => ?_,fun id => ?_,h.idle,h.unused,h.kernel⟩,0,
    .of_mms (fun _ _ => rfl) hc.out hc.keeps.failed⟩,fun hk _ q hq mm hm => ?_⟩
  · have hok := hc.ok
    rw [add_comm] at hok
    exact hok
  · have hok := h.mms q hq m hm
    refine ⟨hok.wf,hok.layout,hok.backed.congr fun id hid => (hc.out.stable id ?_).1⟩
    exact hid.trans_le (hatt q hq m hm id)
  · rw [hc.attach,h.attach]
    rfl
  have ht := hk q hq mm hm
  have hu : ∀ shm, k.total procUser + ShmTable.refs shm = 0 + (shm.refs + k.total procUser) := by
    intro shm
    rw [zero_add,add_comm]
  rw [users,hu] at ht
  change mm.Tidy shm (k.total procUser + shm.refs)
  rw [hu]
  refine ht.frame (h.mms q hq mm hm).wf (fun f => ?_) (hatt q hq mm hm) hc.out
  rw [total_eq hq,procUser,hm,mmUser]
  exact Nat.le_add_right _ _

theorem Inv.tableOk (h : k.Inv) : k.phys.Ok (k.shm.refs + k.total procUser)
    (k.total procKernel + k.heldRefs) := by
  rw [add_comm]
  exact h.phys

theorem Inv.setHeld {held : List Nat} (h : k.Inv)
    (hok : ph.Ok k.users (k.total procKernel + fun f => held.count f))
    (hfail : k.phys.pmm.failed ≤ ph.pmm.failed) :
    Moves k { k with phys := ph, held := held } nproc :=
  ⟨⟨⟨hok,h.table,h.mms,h.attach,h.idle,h.unused,h.kernel⟩,0,
    .of_mms (fun _ _ => rfl) (Outside.refl _ _ _ _) hfail⟩,fun hk _ => hk.same (fun _ _ => rfl) rfl⟩

theorem count_cons (f : Nat) (held : List Nat) :
    (fun g => (f :: held).count g) = (fun g => held.count g) + unit f := by
  funext g
  by_cases hg : g = f
  · subst hg
    rw [count_cons_self,Pi.add_apply,unit_self]
  · rw [count_cons_of_ne (Ne.symm hg),Pi.add_apply,unit_of_ne hg,add_zero]

theorem count_erase {f : Nat} {held : List Nat} (h : f ∈ held) :
    (fun g => held.count g) = (fun g => (held.erase f).count g) + unit f := by
  rw [← count_cons]
  funext g
  exact (perm_cons_erase h).count_eq g

theorem Inv.kalloc {order : Nat} (h : k.Inv) : Moves k (k.kalloc order) nproc := by
  have hacct := h.phys.acct
  rw [Kernel.kalloc]
  rcases ha : allocPages k.phys.pmm order with ⟨s,_ | f⟩
  · obtain rfl := allocPages_none ha
    exact h.setHeld ⟨⟨hacct.wf.setHistory _ _ _,hacct.live,hacct.count,hacct.kind,
      hacct.history⟩,h.phys.running⟩ (Nat.le_succ _)
  have ht := allocPages_some hacct.wf ha
  refine h.setHeld ⟨?_,h.phys.running⟩ ht.failed.ge
  by_cases ho : order = 0
  · subst ho
    rw [if_pos rfl,count_cons,← add_assoc]
    exact (hacct.alloc ht).1
  · rw [if_neg ho]
    exact hacct.alloc_block ht (pos_of_ne_zero ho)

theorem Inv.kfree {b : Block} (h : k.Inv) (hb : k.holds b = true) :
    Moves k (k.kfree b) nproc := by
  have hacct := h.phys.acct
  rw [Kernel.kfree,freePages]
  rw [holds] at hb
  by_cases ho : b.order = 0
  · rw [if_pos ho] at hb
    have hmem : b.start ∈ k.held := by simpa using hb
    have hK : k.total procKernel + k.heldRefs =
        (k.total procKernel + fun g => (k.held.erase b.start).count g) + unit b.start := by
      rw [add_assoc,← count_erase hmem]
      rfl
    rw [hK] at hacct
    obtain ⟨s,hput,hspec,hnew⟩ := hacct.put (f := b.start) (le_refl k.users)
      (fun g => Nat.le_add_right _ _) (add_assoc _ _ _).symm
    rw [if_neg (by rw [ho]; decide),if_pos ho,hput]
    dsimp only
    rw [if_pos ho]
    exact h.setHeld ⟨hnew,h.phys.running⟩ hspec.failed.ge
  · rw [if_neg ho] at hb
    have hmem : b ∈ k.phys.pmm.live := by simpa using hb
    have hlt := (hacct.wf.inRange_live hmem).order
    rw [if_neg (by omega),if_neg ho]
    dsimp only
    rw [if_neg ho]
    have hkept := mergeLoop_kept maxOrder (dropLive k.phys.pmm b.start b.order) b.start
      b.order
    refine h.setHeld ⟨hacct.free_block hmem (pos_of_ne_zero ho),h.phys.running⟩
      hkept.failed.ge

theorem Change.trans (h : Change k k' p own) (hown : mmUser (k'.procs p).mm = own)
    (hsame : ∀ q, q ≠ p → k'.procs q = k.procs q) (h' : Change k' k'' p own') :
    Change k k'' p own' where
  others q hq hqp mm hmm := h'.others q hq hqp mm (h.others q hq hqp mm hmm)
  users := by rw [h'.users,rest_congr hsame]
  out := by
    have hout := h'.out
    rw [rest_congr hsame,rest_congr hsame,hown] at hout
    exact h.out.trans hout
  failed := h.failed.trans h'.failed

theorem current_setCtx (hc : k.current p = some mm) : (k.setCtx p x).current p = some x.mm := by
  obtain ⟨hp,hst,-⟩ := current_some hc
  rw [setCtx_eq,current,replace_self,if_pos ⟨hp,hst⟩]

theorem Inv.killed (h : k.Inv) (hc : k.current p = some mm)
    (hx : Ctx.Paged (k.ctx mm) x (k.rest procUser p) (unit mm.dir + k.outKernel p)
      (k.rest procAttached p))
    (ht : (k.ctx mm).Tidy (k.rest procUser p) → x.Tidy (k.rest procUser p))
    (hk : (k.setCtx p x).killed p x.mm = some (k',out)) : Moves k k' p := by
  have hset := h.moves hc (h.paged hc hx) fun hk _ => ht hk
  obtain ⟨hinv,hch⟩ := h.paged hc hx
  obtain ⟨k₂,hexit,he⟩ := map_eq_some_iff.mp hk
  obtain ⟨rfl,-⟩ := Prod.mk.inj he
  obtain ⟨hinv',hch',htidy⟩ := hinv.exit (current_setCtx hc) hexit
  refine ⟨⟨hinv',0,hch.trans ?_ (fun q hq => setProc_of_ne hq) hch'⟩,
    fun hk hf => htidy (hset.tidy hk (Nat.le_zero.mp (hch'.failed.trans_eq hf)))⟩
  rw [setCtx_eq,replace_self]
  rfl

theorem Inv.access {write : Bool} {a : Ctx.Access} (h : k.Inv)
    (hc : k.current p = some mm) (hw : va < word) (ha : (k.ctx mm).access write va 2 = (x,a)) :
    a ≠ .retry ∧ Ctx.Paged (k.ctx mm) x (k.rest procUser p) (unit mm.dir + k.outKernel p)
      (k.rest procAttached p) ∧
      ((k.ctx mm).Tidy (k.rest procUser p) → x.Tidy (k.rest procUser p)) := by
  have hok : Ctx.Ok (k.ctx mm) _ _ _ := h.ctxOk hc
  rcases Ctx.access_cases hok hw with ⟨x',f,he,-,hs,-⟩ | ⟨x',he,hn | ⟨rfl,-⟩⟩
  · obtain ⟨rfl,rfl⟩ := Prod.mk.inj (ha.symm.trans he)
    exact ⟨nofun,hs.paged hok,hs.tidy hok⟩
  · obtain ⟨rfl,rfl⟩ := Prod.mk.inj (ha.symm.trans he)
    exact ⟨nofun,hn.paged hok,hn.tidy⟩
  · obtain ⟨rfl,rfl⟩ := Prod.mk.inj (ha.symm.trans he)
    exact ⟨nofun,.refl hok,id⟩

theorem Inv.load (h : k.Inv) (hc : k.current p = some mm) (hw : va < word)
    (hl : k.load p mm va = some (k',out)) : Moves k k' p := by
  rw [Kernel.load] at hl
  rcases ha : (k.ctx mm).access false va 2 with ⟨x,a⟩
  obtain ⟨hne,hx,ht⟩ := h.access hc hw ha
  rw [ha] at hl
  cases a with
  | done f =>
    obtain ⟨rfl,-⟩ := Prod.mk.inj (some.inj hl)
    exact h.moves hc (h.paged hc hx) fun hk _ => ht hk
  | fatal => exact h.killed hc hx ht hl
  | retry => exact absurd rfl hne

theorem Inv.store {b : UInt8} (h : k.Inv) (hc : k.current p = some mm) (hw : va < word)
    (hl : k.store p mm va b = some (k',out)) : Moves k k' p := by
  rw [Kernel.store] at hl
  rcases ha : (k.ctx mm).access true va 2 with ⟨x,a⟩
  obtain ⟨hne,hx,ht⟩ := h.access hc hw ha
  rw [ha] at hl
  cases a with
  | done f =>
    obtain ⟨rfl,-⟩ := Prod.mk.inj (some.inj hl)
    have hset := h.paged hc (hx.setMem (x.phys.write f (va % pgSize) b).mem)
    exact h.moves hc hset fun hk _ => ht hk
  | fatal => exact h.killed hc hx ht hl
  | retry => exact absurd rfl hne

end Kernel

namespace Ctx

variable {x : Ctx} {X Y N : Nat → Nat}

theorem Tidy.doMunmap (addr len : Nat) (hok : x.Ok X Y N) (h : x.Tidy X) :
    (x.doMunmap addr len).1.Tidy X := by
  rcases hm : x.doMunmap addr len with ⟨y,b⟩
  rcases doMunmap_cases hok hm with ⟨rfl,-⟩ | ⟨-,i,v,hi,hu,-,hd⟩
  · exact h
  · exact hd.tidy hok hi hu h

theorem Tidy.doShmdt (shmaddr : Nat) (hok : x.Ok X Y N) (h : x.Tidy X) :
    (x.doShmdt shmaddr).1.Tidy X := by
  rcases hm : x.doShmdt shmaddr with ⟨y,b⟩
  rcases doShmdt_cases hok hm with ⟨rfl,-⟩ | ⟨-,i,v,hi,hu,hd⟩
  · exact h
  · exact hd.tidy hok hi hu h

theorem Tidy.doShmat (shmid shmaddr shmflg : Nat) (hok : x.Ok X Y N) (hX : ∀ g, X g ≤ 2 ^ 30)
    (h : x.Tidy X) (hf : (x.doShmat shmid shmaddr shmflg).1.phys.pmm.failed = 0) :
    (x.doShmat shmid shmaddr shmflg).1.Tidy X := by
  rcases hs : x.doShmat shmid shmaddr shmflg with ⟨y,r⟩
  rw [hs] at hf
  rcases doShmat_cases hok hs with ⟨rfl,-⟩ | ⟨i,v,ha,⟨s,hm,-,rfl⟩ | ⟨s,hm,-,rfl⟩⟩
  · exact h
  · have hr := ha.remap hok hX hm
    exact absurd hf (hr.failed rfl).1
  · exact ha.tidy hok (ha.remap hok hX hm) h

end Ctx

end TinyOs
