import TinyOs.Library.X86

namespace TinyOs.Trap

open ByteMem X86 Cpu

inductive Symbol where
  | lapic
  | interruptStackTops
  | kernelCr3
  | cpuUserPgdir

inductive Handler where
  | timerHandler
  | timerTrapUser
  | kbdIntr
  | uartIntr
  | ideIntrIrq10
  | ideIntrIrq11
  | ideIntrIrq14
  | ideIntrIrq15
  | preemptCheck
  | signalNotify

inductive Label where
  | one
  | two
  | fromKernel
  deriving DecidableEq

abbrev Code := List (Instr Symbol Handler Label)

def segKcode : BitVec 16 := 0x08

def segKdata : BitVec 16 := 0x10

def hwCs : Word := 4

def tfOesp : Word := 12

def lapicId : Code :=
  [.movlMem (.sym .lapic) .ecx,.testl .ecx .ecx,.jz .one,.movlMem (.disp 0x20 .ecx) .ecx,
    .shrl 24 .ecx,.jmp .two,.label .one,.xorl .ecx .ecx,.label .two]

def irqstackSwitch : Code := .movl .esp .eax :: lapicId ++
    [.movlMem (.index .interruptStackTops .ecx) .esp,.pushl .eax]

def irqstackRestore : Code := [.popl .esp]

def switchToKernel : Code :=
  [.movlMem (.sym .kernelCr3) .eax,.movlCr3 .eax,.movwImm segKdata .eax,.movwDs .eax]

def trapRing3Enter : Code := [.pushImm 0,.pushDs,.pushal] ++ switchToKernel

def trapCallOnKstack (handler : Handler) : Code :=
  [.movl .esp .eax,.pushl .eax,.call handler,.addl 4 .esp]

def popalFixOesp : Code := [.addlMem 16 (.disp tfOesp .esp)]

def loadSyscallRet : Code := [.movlMem (.disp (-4) .esp) .eax]

def restoreUserPgdir : Code := [.pushl .ecx,.pushl .edx] ++ lapicId ++
    [.movlMem (.index .cpuUserPgdir .ecx) .edx,.movlCr3 .edx,.popl .edx,.popl .ecx]

def trapRestoreRegs : Code := popalFixOesp ++ [.popal] ++ loadSyscallRet ++ [.popDs,.addl 4 .esp]

def trapUserReturn : Code := trapRestoreRegs ++ restoreUserPgdir ++ [.iret]

def isrTimer : Code := [.testlMem 3 (.disp hwCs .esp),.jz .fromKernel] ++
    trapRing3Enter ++ trapCallOnKstack .timerTrapUser ++ [.call .preemptCheck] ++
    trapCallOnKstack .signalNotify ++ trapUserReturn ++
    [.label .fromKernel] ++ irqstackSwitch ++ [.call .timerHandler] ++ irqstackRestore ++
    [.call .preemptCheck,.iret]

def isrDevice (handler : Handler) : Code := [.testlMem 3 (.disp hwCs .esp),.jz .fromKernel] ++
    trapRing3Enter ++ [.call handler] ++ trapCallOnKstack .signalNotify ++ trapUserReturn ++
    [.label .fromKernel] ++ irqstackSwitch ++ [.call handler] ++ irqstackRestore ++ [.iret]

def isrKbd : Code := isrDevice .kbdIntr

def isrSerial : Code := isrDevice .uartIntr

inductive Irq where
  | timer
  | kbd
  | serial
  | ide10
  | ide11
  | ide14
  | ide15

def isr : Irq → Code
  | .timer => isrTimer
  | .kbd => isrKbd
  | .serial => isrSerial
  | .ide10 => isrDevice .ideIntrIrq10
  | .ide11 => isrDevice .ideIntrIrq11
  | .ide14 => isrDevice .ideIntrIrq14
  | .ide15 => isrDevice .ideIntrIrq15

structure Platform where
  sym : Symbol → Word
  esp0 : Word

variable (p : Platform)

def enter (c : Cpu) : Cpu := c.interrupt p.esp0 segKdata segKcode

def entryRun (env : Handler → Cpu → Cpu) (e : Irq) (c : Cpu) : Option Cpu :=
  run p.sym env (isr e) (enter p c)

def cpuId (sym : Symbol → Word) (s : Cpu) : Word :=
  let base := s.read (sym .lapic)
  if base = 0 then 0 else s.read (base + 0x20) >>> 24

def irqTop (c : Cpu) : Word :=
  (enter p c).read (p.sym .interruptStackTops + 4 * cpuId p.sym (enter p c))

def ring3 (c : Cpu) : Prop := rpl c.cs ≠ 0

instance (c : Cpu) : Decidable (ring3 c) := inferInstanceAs (Decidable (_ ≠ _))

def inFrame (c : Cpu) (a : Word) : Prop :=
  if ring3 c then (a - (p.esp0 - 60)).toNat < 60
  else (a - (c.reg .esp - 12)).toNat < 12 ∨ (a - (irqTop p c - 4)).toNat < 4

structure Cdecl (c : Cpu) (env : Handler → Cpu → Cpu) : Prop where
  saved : ∀ h s r, r ∈ [Reg.ebx,.esi,.edi,.ebp,.esp] → (env h s).reg r = s.reg r
  ds : ∀ h s, (env h s).ds = s.ds
  frame : ∀ h s a, inFrame p c a → (env h s).mem a = s.mem a

structure Interrupted where
  cpu : Cpu
  enabled : cpu.eflags.getLsbD 9 = true
  ring : rpl cpu.cs = 0 ∨ rpl cpu.cs = 3
  offIrqStack : ¬ ring3 cpu → ∀ a : Word, (a - (cpu.reg .esp - 12)).toNat < 12 →
    4 ≤ (a - (irqTop p cpu - 4)).toNat

def Resumes (c s : Cpu) : Prop := s.eip = c.eip ∧ s.cs = c.cs ∧ s.eflags = c.eflags

def Transparent (e : Irq) (c : Cpu) : Prop :=
  ∀ env, Cdecl p c env → ∀ s, entryRun p env e c = some s → Resumes c s →
    (∀ r, s.reg r = c.reg r) ∧ s.ds = c.ds

end TinyOs.Trap
