import TinyOs.Trap

namespace TinyOs.Trap

open ByteMem X86 List Cpu

theorem lapicId_run (sym : Symbol → Word) (env : Handler → Cpu → Cpu) (rest : Code) (s : Cpu) :
    ∃ z, run sym env (lapicId ++ rest) s =
    run sym env rest ((s.set .ecx (cpuId sym s)).setZf z) := by
  have hskip : skipTo .one ([.movlMem (.disp 0x20 .ecx) .ecx,.shrl 24 .ecx,.jmp .two,.label .one,
      .xorl .ecx .ecx,.label .two] ++ rest : Code) =
      .xorl .ecx .ecx :: .label .two :: rest := rfl
  have hskip' : skipTo .two ([.label .one,.xorl .ecx .ecx,.label .two] ++ rest : Code) = rest :=
    rfl
  simp only [lapicId,cons_append,nil_append] at hskip hskip' ⊢
  rw [run_cons rfl,run_cons rfl,run_jz,hskip]
  by_cases hbase : s.read (sym .lapic) = 0
  · have hid : cpuId sym s = 0 := if_pos hbase
    refine ⟨true,?_⟩
    rw [if_pos (by simp [exec,Operand.addr,hbase]),run_cons rfl,run_cons rfl,hid]
    simp only [exec,Operand.addr,Cpu.set,Cpu.setZf,Function.update_self,Function.update_idem,
      BitVec.xor_self]
    rfl
  · have hid : cpuId sym s = s.read (s.read (sym .lapic) + 0x20) >>> 24 := if_neg hbase
    refine ⟨s.read (s.read (sym .lapic) + 0x20) >>> 24 = 0,?_⟩
    rw [if_neg (by simpa [exec,Operand.addr] using hbase),run_cons rfl,run_cons rfl,run_jmp,hskip',
      hid]
    simp only [exec,Operand.addr,Cpu.set,Cpu.setZf,Function.update_self,Function.update_idem]
    rfl

section Ring3

variable {p : Platform} {c s : Cpu} {env : Handler → Cpu → Cpu}

def hwFrame (c : Cpu) : List Word :=
  [c.eip,c.cs.setWidth 32,c.eflags,c.reg .esp,c.ss.setWidth 32]

def frame (c : Cpu) (o : Word) : List Word :=
  [c.reg .edi,c.reg .esi,c.reg .ebp,o,c.reg .ebx,c.reg .edx,c.reg .ecx,c.reg .eax,c.ds.setWidth 32,
    0] ++ hwFrame c

structure Saved (p : Platform) (c s : Cpu) : Prop where
  esp : s.reg .esp = p.esp0 - 60
  stack : ∃ o, Stacked s.mem (p.esp0 - 60) (frame c o)

theorem saved_of_enter (h : ring3 c) (env : Handler → Cpu → Cpu) :
    Saved p c (trapRing3Enter.foldl (exec p.sym env) ((enter p c).setZf false)) := by
  obtain ⟨t,ht⟩ : ∃ t, t = (enter p c).setZf false := ⟨_,rfl⟩
  have hreg : ∀ r, t.reg r = (enter p c).reg r := fun r => by rw [ht,setZf_reg]
  have hholds : t.Holds (hwFrame c) := by
    apply Holds.of_eq (s := enter p c)
    · unfold enter
      exact interrupt_outer_holds h
    · rw [ht,setZf_mem]
    · exact hreg .esp
  have hesp : t.reg .esp = p.esp0 - 20 := by
    rw [hreg,enter,interrupt_outer_esp h]
  have hkept : ∀ r, r ≠ .esp → t.reg r = c.reg r := by
    intro r hr
    rw [hreg,enter,interrupt_of_ne hr]
  have hds : t.ds = c.ds := by
    rw [ht,setZf_ds,enter,interrupt_ds]
  rw [← ht]
  obtain ⟨u,hu⟩ : ∃ u, u = (t.push 0).push (t.ds.setWidth 32) := ⟨_,rfl⟩
  have hfull : u.pushal.Holds (frame c (u.reg .esp)) := by
    have hu' : u.Holds (c.ds.setWidth 32 :: 0 :: hwFrame c) := by
      rw [hu,← hds]
      exact (hholds.push (by simp [hwFrame])).push (by simp [hwFrame])
    have hall := hu'.pushal (by simp [hwFrame])
    have hureg : ∀ r, r ≠ .esp → u.reg r = c.reg r := by
      intro r hr
      rw [hu,push_of_ne hr,push_of_ne hr,hkept r hr]
    rw [hureg .edi (by decide),hureg .esi (by decide),hureg .ebp (by decide),hureg .ebx (by decide),
      hureg .edx (by decide),hureg .ecx (by decide),hureg .eax (by decide)] at hall
    exact hall
  have huesp : u.pushal.reg .esp = p.esp0 - 60 := by
    rw [pushal_esp,hu,push_esp,push_esp,hesp]
    bv_omega
  have hexec : [Instr.pushImm 0,.pushDs,.pushal].foldl (exec p.sym env (L := Label)) t =
      u.pushal := by
    rw [hu]
    rfl
  rw [trapRing3Enter,foldl_append,hexec]
  refine ⟨?_,u.reg .esp,?_⟩
  · simp [switchToKernel,exec,huesp]
  · rw [Holds,huesp] at hfull
    simpa [switchToKernel,exec] using hfull

theorem Saved.handled (h : Saved p c s) (hr : ring3 c) (henv : Cdecl p c env) (k : Handler) :
    Saved p c (env k s) := by
  obtain ⟨o,ho⟩ := h.stack
  refine ⟨?_,o,?_⟩
  · rw [henv.saved k s .esp (by decide),h.esp]
  apply ho.congr (by simp [frame,hwFrame])
  intro x hx
  apply henv.frame
  rw [inFrame,if_pos hr]
  exact hx

theorem Saved.called (h : Saved p c s) (hr : ring3 c) (henv : Cdecl p c env) (k : Handler) :
    Saved p c ((trapCallOnKstack k).foldl (exec p.sym env) s) := by
  obtain ⟨o,ho⟩ := h.stack
  obtain ⟨t,ht⟩ : ∃ t, t = (s.set .eax (s.reg .esp)).push (s.reg .esp) := ⟨_,rfl⟩
  have htesp : t.reg .esp = p.esp0 - 64 := by
    rw [ht,push_esp,set_of_ne (by decide),h.esp]
    bv_omega
  have htstack : Stacked t.mem (p.esp0 - 60) (frame c o) := by
    rw [ht,push_mem,set_of_ne (by decide),set_mem,h.esp]
    exact ho.write_below (by simp [frame,hwFrame])
  have hexec : (trapCallOnKstack k).foldl (exec p.sym env) s =
      exec p.sym env (L := Label) (env k t) (.addl 4 .esp) := by
    rw [ht]
    simp [trapCallOnKstack,exec]
  rw [hexec]
  refine ⟨?_,o,?_⟩
  · simp only [exec,setZf_reg,set_self]
    rw [henv.saved k t .esp (by decide),htesp]
    bv_omega
  simp only [exec,setZf_mem,set_mem]
  apply htstack.congr (by simp [frame,hwFrame])
  intro x hx
  apply henv.frame
  rw [inFrame,if_pos hr]
  exact hx

theorem restoreUserPgdir_run (env : Handler → Cpu → Cpu) {t : Cpu} {vs : List Word} (h : t.Holds vs)
    (hlen : 4 * vs.length + 8 < 2 ^ 32) (rest : Code) :
    ∃ t', run p.sym env (restoreUserPgdir ++ rest) t = run p.sym env rest t' ∧
      (∀ r, t'.reg r = t.reg r) ∧ t'.ds = t.ds ∧ t'.Holds vs := by
  obtain ⟨u,hu⟩ : ∃ u, u = (t.push (t.reg .ecx)).push (t.reg .edx) := ⟨_,rfl⟩
  have huholds : u.Holds (t.reg .edx :: t.reg .ecx :: vs) := by
    rw [hu]
    exact (h.push (by omega)).push (by rw [length_cons]; omega)
  have hureg : ∀ r, r ≠ .esp → u.reg r = t.reg r := by
    intro r hr
    rw [hu,push_of_ne hr,push_of_ne hr]
  have huesp : u.reg .esp = t.reg .esp - 8 := by
    rw [hu,push_esp,push_esp]
    bv_omega
  have hpushed : [Instr.pushl .ecx,.pushl .edx].foldl (exec p.sym env (L := Label)) t = u := by
    rw [hu]
    simp [exec]
  obtain ⟨z,hz⟩ := lapicId_run p.sym env
    ([.movlMem (.index .cpuUserPgdir .ecx) .edx,.movlCr3 .edx,.popl .edx,.popl .ecx] ++ rest) u
  obtain ⟨w,hw⟩ : ∃ w, w = [Instr.movlMem (.index .cpuUserPgdir .ecx) .edx,
      .movlCr3 .edx].foldl (exec p.sym env (L := Label))
        ((u.set .ecx (cpuId p.sym u)).setZf z) := ⟨_,rfl⟩
  have hwholds : w.Holds (t.reg .edx :: t.reg .ecx :: vs) := by
    apply huholds.of_eq <;> simp [hw,exec]
  have hwreg : ∀ r, r ≠ .ecx → r ≠ .edx → w.reg r = u.reg r := by
    intro r hc hd
    simp [hw,exec,hc,hd]
  have hwds : w.ds = t.ds := by simp [hw,hu,exec]
  obtain ⟨x,hx⟩ : ∃ x, x = (w.drop 4).set .edx w.top := ⟨_,rfl⟩
  have hxholds : x.Holds (t.reg .ecx :: vs) := by
    apply hwholds.drop.of_eq <;> simp [hx]
  refine ⟨(x.drop 4).set .ecx x.top,?_,?_,?_,?_⟩
  · rw [restoreUserPgdir,append_assoc,append_assoc,run_append (by simp [Instr.straight]),hpushed,hz,
      run_append (by simp [Instr.straight])]
    simp only [foldl_cons,foldl_nil] at hw ⊢
    rw [← hw,hx]
    rfl
  · intro r
    rw [hxholds.top,hx,hwholds.top]
    cases r with
    | ecx | edx => simp
    | esp =>
      simp [hwreg .esp (by decide) (by decide),huesp]
      bv_omega
    | _ => simp [hwreg,hureg]
  · simp [hx,hwds]
  · apply hxholds.drop.of_eq <;> simp

theorem Saved.fixOesp (h : Saved p c s) (env : Handler → Cpu → Cpu) :
    ∃ o, (popalFixOesp.foldl (exec p.sym env) s).Holds (frame c o) ∧
      (popalFixOesp.foldl (exec p.sym env) s).reg .esp = p.esp0 - 60 := by
  obtain ⟨o,ho⟩ := h.stack
  obtain ⟨v,hv⟩ : ∃ v, v = s.read (s.reg .esp + tfOesp) + 16 := ⟨_,rfl⟩
  have hesp : (popalFixOesp.foldl (exec p.sym env) s).reg .esp = p.esp0 - 60 := h.esp
  have hmem : (popalFixOesp.foldl (exec p.sym env) s).mem =
      ByteMem.write s.mem (p.esp0 - 60 + BitVec.ofNat 32 (4 * 3)) v := by
    rw [hv,h.esp]
    simp [popalFixOesp,exec,Operand.addr,Cpu.write,h.esp,tfOesp]
  have hset := ho.set (v := v) (by simp [frame,hwFrame]) 3 (by simp [frame])
  refine ⟨v,?_,hesp⟩
  rw [Cpu.Holds,hesp,hmem]
  exact hset

theorem Saved.restored (h : Saved p c s) (env : Handler → Cpu → Cpu) :
    ∃ t, trapRestoreRegs.foldl (exec p.sym env) s = t ∧ (∀ r, r ≠ .esp → t.reg r = c.reg r) ∧
      t.ds = c.ds ∧ t.reg .esp = p.esp0 - 20 ∧ t.Holds (hwFrame c) := by
  obtain ⟨o,hholds,hesp⟩ := h.fixOesp env
  obtain ⟨s₁,hs₁⟩ : ∃ s₁, s₁ = popalFixOesp.foldl (exec p.sym env) s := ⟨_,rfl⟩
  rw [← hs₁] at hholds hesp
  obtain ⟨u,hu⟩ : ∃ u, u = s₁.popal := ⟨_,rfl⟩
  have huesp : u.reg .esp = p.esp0 - 28 := by
    rw [hu,popal_esp,hesp]
    bv_omega
  have hureg : ∀ r, r ≠ .esp → u.reg r = c.reg r := by
    intro r hr
    rw [hu]
    exact Holds.popal hholds hr
  have heax : u.read (u.reg .esp + (-4)) = c.reg .eax := by
    rw [Cpu.read,hu,Cpu.popal_mem,← hu]
    apply hholds.word 7 rfl
    rw [huesp,hesp]
    bv_omega
  have huholds : u.Holds (c.ds.setWidth 32 :: 0 :: hwFrame c) := by
    have hdrop := Stacked.drop hholds 8
    have haddr : u.reg .esp = s₁.reg .esp + BitVec.ofNat 32 (4 * 8) := by
      rw [huesp,hesp]
      bv_omega
    rw [Holds,hu,popal_mem,← hu,haddr]
    exact hdrop
  obtain ⟨x,hx⟩ : ∃ x, x = u.set .eax (c.reg .eax) := ⟨_,rfl⟩
  have hxholds : x.Holds (c.ds.setWidth 32 :: 0 :: hwFrame c) := by
    apply huholds.of_eq <;> simp [hx]
  obtain ⟨y,hy⟩ : ∃ y, y = (x.drop 4).setDs (x.top.setWidth 16) := ⟨_,rfl⟩
  have hyholds : y.Holds (0 :: hwFrame c) := by
    apply hxholds.drop.of_eq <;> simp [hy]
  have hexec : trapRestoreRegs.foldl (exec p.sym env) s =
      (y.drop 4).setZf (y.reg .esp + 4 = 0) := by
    simp only [trapRestoreRegs,foldl_append,← hs₁]
    simp only [foldl_cons,foldl_nil,loadSyscallRet,exec,Operand.addr,← hu,heax,← hx,← hy]
    rfl
  refine ⟨_,hexec,?_,?_,?_,?_⟩
  · intro r hr
    by_cases hax : r = .eax
    · simp [hy,hx,hax]
    · simp [hy,hx,hr,hax,hureg r hr]
  · simp [hy,hxholds.top]
  · simp only [setZf_reg,drop_esp,hy,setDs_reg,hx]
    rw [set_of_ne (by decide),huesp]
    bv_omega
  · apply hyholds.drop.of_eq <;> simp

theorem Saved.returned (h : Saved p c s) (hr : ring3 c) (rest : Code) :
    ∃ t, run p.sym env (trapUserReturn ++ rest) s = some t ∧ Resumes c t ∧
      (∀ r, t.reg r = c.reg r) ∧ t.ds = c.ds := by
  obtain ⟨t,hexec,hreg,hds,hesp,hholds⟩ := h.restored env
  obtain ⟨u,hrun,hureg,huds,huholds⟩ := restoreUserPgdir_run (p := p) env hholds
    (by simp [hwFrame]) (.iret :: rest)
  refine ⟨u.iret,?_,?_⟩
  · rw [trapUserReturn,append_assoc,append_assoc,
      run_append (by simp [trapRestoreRegs,popalFixOesp,loadSyscallRet,Instr.straight]),hexec]
    exact hrun.trans rfl
  rw [huholds.iret_outer hr]
  refine ⟨⟨rfl,rfl,rfl⟩,?_,?_⟩
  · intro r
    by_cases hsp : r = .esp
    · rw [hsp,set_self]
    · rw [set_of_ne hsp,setSs_reg,goto_reg,hureg,hreg r hsp]
  · rw [set_ds,setSs_ds,goto_ds,huds,hds]

end Ring3

section Entry

variable {p : Platform} {c s : Cpu} {env : Handler → Cpu → Cpu}

theorem test_rpl (cs : BitVec 16) : ((3 : Word) &&& cs.setWidth 32 = 0) ↔ rpl cs = 0 := by
  have hnat : ((3 : Word) &&& cs.setWidth 32).toNat = (rpl cs).toNat := by
    have := cs.isLt
    simp only [rpl,BitVec.toNat_and,BitVec.toNat_setWidth]
    rw [Nat.mod_eq_of_lt (by omega),Nat.and_comm]
    rfl
  rw [← BitVec.toNat_inj,← BitVec.toNat_inj,hnat]
  simp

theorem enter_cs : (enter p c).read ((enter p c).reg .esp + hwCs) = c.cs.setWidth 32 := by
  by_cases h : rpl c.cs = 0
  · exact Holds.word (interrupt_inner_holds h) 1 rfl rfl
  · exact Holds.word (interrupt_outer_holds h) 1 rfl rfl

theorem entry_branch (body : Code) :
    run p.sym env ([.testlMem 3 (.disp hwCs .esp),.jz .fromKernel] ++ body) (enter p c) =
      if ring3 c then run p.sym env body ((enter p c).setZf false)
      else run p.sym env (skipTo .fromKernel body) ((enter p c).setZf true) := by
  have htest : exec p.sym env (enter p c) (Instr.testlMem 3 (.disp hwCs .esp) (L := Label)) =
      (enter p c).setZf (decide (rpl c.cs = 0)) := by
    simp only [exec,Operand.addr,enter_cs,test_rpl]
  rw [cons_append,cons_append,nil_append,run_cons rfl,run_jz,htest]
  by_cases h : rpl c.cs = 0
  · rw [if_neg (fun hr : ring3 c => hr h),decide_eq_true h]
    rfl
  · rw [if_pos (show ring3 c from h),decide_eq_false h]
    rfl

theorem ring3_run (hr : ring3 c) (henv : Cdecl p c env) (e : Irq) :
    ∃ t, entryRun p env e c = some t ∧ Resumes c t ∧ (∀ r, t.reg r = c.reg r) ∧ t.ds = c.ds := by
  have hsaved := saved_of_enter (p := p) hr env
  have hdev : ∀ k, ∃ t, run p.sym env (isrDevice k) (enter p c) = some t ∧ Resumes c t ∧
      (∀ r, t.reg r = c.reg r) ∧ t.ds = c.ds := by
    intro k
    simp only [isrDevice,append_assoc]
    rw [entry_branch,if_pos hr,run_append (by simp [trapRing3Enter,switchToKernel,Instr.straight]),
      run_append (by simp [Instr.straight]),run_append (by simp [trapCallOnKstack,Instr.straight])]
    exact ((hsaved.handled hr henv k).called hr henv .signalNotify).returned hr _
  cases e with
  | timer =>
    simp only [entryRun,isr,isrTimer,append_assoc]
    rw [entry_branch,if_pos hr,run_append (by simp [trapRing3Enter,switchToKernel,Instr.straight]),
      run_append (by simp [trapCallOnKstack,Instr.straight]),run_append (by simp [Instr.straight]),
      run_append (by simp [trapCallOnKstack,Instr.straight])]
    have htimer := (hsaved.called hr henv .timerTrapUser).handled hr henv .preemptCheck
    exact (htimer.called hr henv .signalNotify).returned hr _
  | kbd => exact hdev .kbdIntr
  | serial => exact hdev .uartIntr
  | ide10 => exact hdev .ideIntrIrq10
  | ide11 => exact hdev .ideIntrIrq11
  | ide14 => exact hdev .ideIntrIrq14
  | ide15 => exact hdev .ideIntrIrq15

def calleeSaved : List Reg := [.ebx,.esi,.edi,.ebp]

structure Kept (c s : Cpu) : Prop where
  stack : Stacked s.mem (c.reg .esp - 12) [c.eip,c.cs.setWidth 32,c.eflags]
  saved : ∀ r ∈ calleeSaved, s.reg r = c.reg r
  ds : s.ds = c.ds

structure Switched (p : Platform) (c s : Cpu) : Prop extends Kept c s where
  esp : s.reg .esp = irqTop p c - 4
  back : ByteMem.read s.mem (irqTop p c - 4) = c.reg .esp - 12

theorem irqstackSwitch_run (env : Handler → Cpu → Cpu) (c : Interrupted p) (hr : ¬ ring3 c.cpu)
    (rest : Code) :
    ∃ t, run p.sym env (irqstackSwitch ++ rest) ((enter p c.cpu).setZf true) =
      run p.sym env rest t ∧ Switched p c.cpu t := by
  have hring : Cpu.rpl c.cpu.cs = 0 := not_not.mp hr
  obtain ⟨s,hs⟩ : ∃ s, s = ((enter p c.cpu).setZf true).set .eax (c.cpu.reg .esp - 12) := ⟨_,rfl⟩
  have hesp : (enter p c.cpu).reg .esp = c.cpu.reg .esp - 12 := Cpu.interrupt_inner_esp hring
  have hstack : Stacked s.mem (c.cpu.reg .esp - 12)
      [c.cpu.eip,c.cpu.cs.setWidth 32,c.cpu.eflags] := by
    have hholds : (enter p c.cpu).Holds _ := Cpu.interrupt_inner_holds hring
    rw [Cpu.Holds,hesp] at hholds
    rw [hs]
    exact hholds
  have htop : s.read (p.sym .interruptStackTops + 4 * cpuId p.sym s) = irqTop p c.cpu := by
    rw [hs]
    rfl
  obtain ⟨z,hz⟩ := lapicId_run p.sym env
    ([.movlMem (.index .interruptStackTops .ecx) .esp,.pushl .eax] ++ rest) s
  obtain ⟨u,hu⟩ : ∃ u, u = ((s.set .ecx (cpuId p.sym s)).setZf z).set .esp (irqTop p c.cpu) :=
    ⟨_,rfl⟩
  have humem : u.mem = s.mem := by simp [hu]
  have huesp : u.reg .esp = irqTop p c.cpu := by simp [hu]
  refine ⟨u.push (c.cpu.reg .esp - 12),?_,⟨?_,?_,?_⟩,?_,?_⟩
  · have hmov : exec p.sym env ((enter p c.cpu).setZf true)
        (Instr.movl .esp .eax (H := Handler) (L := Label)) = s := by
      rw [hs,← hesp]
      rfl
    have hload : exec p.sym env ((s.set .ecx (cpuId p.sym s)).setZf z)
        (Instr.movlMem (.index .interruptStackTops .ecx) .esp (L := Label)) = u := by
      rw [hu,← htop]
      simp [exec,Operand.addr,Cpu.read]
    have heax : u.reg .eax = c.cpu.reg .esp - 12 := by simp [hu,hs]
    rw [irqstackSwitch,append_assoc,cons_append,run_cons rfl,hmov,hz,cons_append,run_cons rfl,hload,
      cons_append,run_cons rfl]
    simp only [exec,heax,nil_append]
  · rw [Cpu.push_mem,huesp,humem]
    apply hstack.congr (by simp)
    intro x hx
    apply ByteMem.write_of_le
    exact c.offIrqStack hr x hx
  · intro r hr
    have hne : r ≠ .esp ∧ r ≠ .ecx ∧ r ≠ .eax := by
      simp only [calleeSaved,mem_cons,not_mem_nil,or_false] at hr
      rcases hr with rfl | rfl | rfl | rfl <;> decide
    rw [Cpu.push_of_ne hne.1,hu,Cpu.set_of_ne hne.1,Cpu.setZf_reg,Cpu.set_of_ne hne.2.1,hs,
      Cpu.set_of_ne hne.2.2,Cpu.setZf_reg,enter,Cpu.interrupt_of_ne hne.1]
  · rw [Cpu.push_ds,hu,Cpu.set_ds,Cpu.setZf_ds,Cpu.set_ds,hs,Cpu.set_ds,Cpu.setZf_ds,enter,
      Cpu.interrupt_ds]
  · rw [Cpu.push_esp,huesp]
  · rw [Cpu.push_mem,huesp,ByteMem.read_write]

theorem Kept.handled (h : Kept c s) (hr : ¬ ring3 c) (henv : Cdecl p c env)
    (k : Handler) : Kept c (env k s) := by
  constructor
  · apply h.stack.congr (by simp)
    intro x hx
    apply henv.frame
    rw [inFrame,if_neg hr]
    exact .inl hx
  · intro r hmem
    have hsaved : r ∈ [Reg.ebx,.esi,.edi,.ebp,.esp] := by
      simp only [calleeSaved,mem_cons,not_mem_nil,or_false] at hmem ⊢
      tauto
    rw [henv.saved k s r hsaved,h.saved r hmem]
  · rw [henv.ds,h.ds]

theorem Switched.handled (h : Switched p c s) (hr : ¬ ring3 c) (henv : Cdecl p c env)
    (k : Handler) : Switched p c (env k s) := by
  refine ⟨h.toKept.handled hr henv k,?_,?_⟩
  · rw [henv.saved k s .esp (by decide),h.esp]
  rw [← h.back]
  apply ByteMem.read_congr
  intro x hx
  apply henv.frame
  rw [inFrame,if_neg hr]
  exact .inr hx

theorem Switched.restore (h : Switched p c s) (env : Handler → Cpu → Cpu) :
    ∃ t, exec p.sym env s (Instr.popl .esp (L := Label)) = t ∧ Kept c t ∧
      t.reg .esp = c.reg .esp - 12 ∧ ∀ r, r ≠ .esp → t.reg r = s.reg r := by
  have hother : ∀ r, r ≠ .esp → ((s.drop 4).set .esp s.top).reg r = s.reg r := by
    intro r hne
    rw [Cpu.set_of_ne hne,Cpu.drop_of_ne hne]
  refine ⟨_,rfl,⟨h.stack,?_,h.ds⟩,?_,hother⟩
  · intro r hmem
    have hne : r ≠ .esp := by
      rintro rfl
      simp [calleeSaved] at hmem
    exact (hother r hne).trans (h.saved r hmem)
  · simp only [exec,Cpu.set_self,Cpu.top,Cpu.read]
    rw [h.esp,h.back]

structure Left (env : Handler → Cpu → Cpu) (c t : Cpu) : Prop where
  resumes : Resumes c t
  saved : ∀ r ∈ .esp :: calleeSaved, t.reg r = c.reg r
  ds : t.ds = c.ds
  scratch : ∃ k u, ∀ r ∈ [Reg.eax,.ecx,.edx], t.reg r = (env k u).reg r

theorem Kept.iret (h : Kept c s) (hr : ¬ ring3 c)
    (hesp : s.reg .esp = c.reg .esp - 12) (k : Handler) (u : Cpu)
    (hlast : ∀ r, r ≠ .esp → s.reg r = (env k u).reg r) : Left env c s.iret := by
  have hholds : s.Holds [c.eip,c.cs.setWidth 32,c.eflags] := by
    rw [Holds,hesp]
    exact h.stack
  have hother : ∀ r, r ≠ .esp → s.iret.reg r = s.reg r := by
    intro r hne
    rw [hholds.iret_inner (not_not.mp hr),set_of_ne hne,goto_reg]
  constructor
  · rw [hholds.iret_inner (not_not.mp hr)]
    exact ⟨rfl,rfl,rfl⟩
  · intro r hmem
    by_cases hsp : r = .esp
    · rw [hsp,hholds.iret_inner (not_not.mp hr),set_self,hesp]
      bv_omega
    · rw [hother r hsp]
      exact h.saved r ((mem_cons.mp hmem).resolve_left hsp)
  · rw [hholds.iret_inner (not_not.mp hr)]
    exact h.ds
  · refine ⟨k,u,fun r hmem => ?_⟩
    have hne : r ≠ .esp := by
      rintro rfl
      simp at hmem
    rw [hother r hne,hlast r hne]

theorem enter_unlabelled : ∀ i ∈ trapRing3Enter, i.isLabel .fromKernel = false := by
  simp [trapRing3Enter,switchToKernel,Instr.isLabel]

theorem call_unlabelled (k : Handler) :
    ∀ i ∈ trapCallOnKstack k, i.isLabel .fromKernel = false := by
  simp [trapCallOnKstack,Instr.isLabel]

theorem return_unlabelled : ∀ i ∈ trapUserReturn, i.isLabel .fromKernel = false := by
  simp [trapUserReturn,trapRestoreRegs,popalFixOesp,loadSyscallRet,restoreUserPgdir,lapicId,
    Instr.isLabel]

theorem device_left (c : Interrupted p) (hr : ¬ ring3 c.cpu) (henv : Cdecl p c.cpu env)
    (k : Handler) : ∃ t, run p.sym env (isrDevice k) (enter p c.cpu) = some t ∧
      Left env c.cpu t := by
  obtain ⟨s,hs,hsw⟩ := irqstackSwitch_run env c hr [.call k,.popl .esp,.iret]
  obtain ⟨t,ht,hkept,hesp,hother⟩ := (hsw.handled hr henv k).restore env
  have hleft : Left env c.cpu t.iret := hkept.iret hr hesp k s hother
  have hrun : run p.sym env (isrDevice k) (enter p c.cpu) = some t.iret := by
    simp only [isrDevice,append_assoc]
    rw [entry_branch,if_neg hr,skipTo_append enter_unlabelled,
      skipTo_append (by simp [Instr.isLabel]),skipTo_append (call_unlabelled _),
      skipTo_append return_unlabelled,cons_append,skipTo_label]
    refine hs.trans ?_
    rw [run_cons rfl,run_cons rfl]
    exact congrArg (fun t : Cpu => some t.iret) ht
  exact ⟨t.iret,hrun,hleft⟩

theorem timer_left (c : Interrupted p) (hr : ¬ ring3 c.cpu) (henv : Cdecl p c.cpu env) :
    ∃ t, run p.sym env isrTimer (enter p c.cpu) = some t ∧ Left env c.cpu t := by
  obtain ⟨s,hs,hsw⟩ := irqstackSwitch_run env c hr
    [.call .timerHandler,.popl .esp,.call .preemptCheck,.iret]
  obtain ⟨t,ht,hkept,hesp,-⟩ := (hsw.handled hr henv .timerHandler).restore env
  have hesp' : (env .preemptCheck t).reg .esp = c.cpu.reg .esp - 12 := by
    rw [henv.saved .preemptCheck t .esp (by decide),hesp]
  have hleft : Left env c.cpu (env .preemptCheck t).iret :=
    (hkept.handled hr henv .preemptCheck).iret hr hesp' .preemptCheck t fun _ _ => rfl
  have hrun : run p.sym env isrTimer (enter p c.cpu) = some (env .preemptCheck t).iret := by
    simp only [isrTimer,append_assoc]
    rw [entry_branch,if_neg hr,skipTo_append enter_unlabelled,skipTo_append (call_unlabelled _),
      skipTo_append (by simp [Instr.isLabel]),skipTo_append (call_unlabelled _),
      skipTo_append return_unlabelled,cons_append,skipTo_label]
    refine hs.trans ?_
    rw [run_cons rfl,run_cons rfl,run_cons rfl]
    exact congrArg (fun t : Cpu => some (env .preemptCheck t).iret) ht
  exact ⟨_,hrun,hleft⟩

theorem kernel_run (c : Interrupted p) (hr : ¬ ring3 c.cpu) (henv : Cdecl p c.cpu env)
    (e : Irq) : ∃ t, entryRun p env e c.cpu = some t ∧ Left env c.cpu t := by
  cases e with
  | timer => exact timer_left c hr henv
  | kbd => exact device_left c hr henv .kbdIntr
  | serial => exact device_left c hr henv .uartIntr
  | ide10 => exact device_left c hr henv .ideIntrIrq10
  | ide11 => exact device_left c hr henv .ideIntrIrq11
  | ide14 => exact device_left c hr henv .ideIntrIrq14
  | ide15 => exact device_left c hr henv .ideIntrIrq15

def returning (v : Word) (_ : Handler) (s : Cpu) : Cpu := s.set .eax v

theorem returning_cdecl (c : Cpu) (v : Word) : Cdecl p c (returning v) := by
  constructor
  · intro k s r hmem
    apply set_of_ne
    rintro rfl
    simp at hmem
  · exact fun _ _ => rfl
  · exact fun _ _ _ _ => rfl

theorem irq_transparent_iff_user (p : Platform) (c : Interrupted p) (e : Irq) :
    (∀ env, Cdecl p c.cpu env → ∃ t, entryRun p env e c.cpu = some t ∧ Resumes c.cpu t) ∧
      (Transparent p e c.cpu ↔ ring3 c.cpu) := by
  constructor
  · intro env henv
    by_cases hr : ring3 c.cpu
    · obtain ⟨t,ht,hres,-⟩ := ring3_run hr henv e
      exact ⟨t,ht,hres⟩
    · obtain ⟨t,ht,hleft⟩ := kernel_run c hr henv e
      exact ⟨t,ht,hleft.resumes⟩
  constructor
  · intro htrans
    by_contra hr
    have henv := returning_cdecl (p := p) c.cpu (c.cpu.reg .eax + 1)
    obtain ⟨t,ht,hleft⟩ := kernel_run c hr henv e
    obtain ⟨k,u,hscratch⟩ := hleft.scratch
    have hkeep := (htrans _ henv t ht hleft.resumes).1 .eax
    rw [hscratch .eax (by decide),returning,set_self] at hkeep
    bv_omega
  · intro hr env henv s hs _
    obtain ⟨t,ht,-,hreg,hds⟩ := ring3_run hr henv e
    rw [hs] at ht
    cases ht
    exact ⟨hreg,hds⟩

end Entry

def samplePlatform : Platform where
  sym
    | .lapic => 0x1000
    | .interruptStackTops => 0x2000
    | .kernelCr3 => 0x3000
    | .cpuUserPgdir => 0x4000
  esp0 := 0x9000

def sampleCpu : Cpu where
  reg
    | .eax => 7
    | .esp => 0x8000
    | _ => 0
  ds := segKdata
  cs := segKcode
  ss := segKdata
  eip := 0x1234
  eflags := 0x202
  cr3 := 0
  zf := false
  mem := fun a => if a = 0x2001 then 0x50 else 0

theorem sample_irqTop : irqTop samplePlatform sampleCpu = 0x5000 := by
  have hid : cpuId samplePlatform.sym (enter samplePlatform sampleCpu) = 0 := by decide +kernel
  rw [irqTop,hid]
  decide +kernel

def sampleInterrupted : Interrupted samplePlatform where
  cpu := sampleCpu
  enabled := by decide
  ring := by decide
  offIrqStack := by
    intro _ a ha
    rw [sample_irqTop]
    change (a - (0x8000 - 12)).toNat < 12 at ha
    bv_omega

theorem timer_clobbers_kernel_eax : ∃ (p : Platform) (c : Interrupted p)
    (env : Handler → Cpu → Cpu) (s : Cpu), Cdecl p c.cpu env ∧
      entryRun p env .timer c.cpu = some s ∧ Resumes c.cpu s ∧ s.reg .eax ≠ c.cpu.reg .eax := by
  have henv := returning_cdecl (p := samplePlatform) sampleCpu 0
  obtain ⟨t,ht,hleft⟩ := kernel_run sampleInterrupted (by decide) henv .timer
  obtain ⟨k,u,hscratch⟩ := hleft.scratch
  refine ⟨samplePlatform,sampleInterrupted,returning 0,t,henv,ht,hleft.resumes,?_⟩
  rw [hscratch .eax (by decide),returning,set_self]
  decide

end TinyOs.Trap
