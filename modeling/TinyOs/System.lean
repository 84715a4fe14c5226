import TinyOs.Proc

namespace TinyOs

open Dyadic Buddy

inductive Op where
  | fork (p : Nat) (kmem : Bool)
  | exit (p : Nat)
  | reap (p : Nat)
  | kthreadCreate
  | kthreadExit (p : Nat)
  | execve (p : Nat) (kmem : Bool) (blob name : List UInt8) (argv envp : List (List UInt8))
  | brk (p addr : Nat)
  | mmap (p addr len prot flags fd : Nat)
  | munmap (p addr len : Nat)
  | shmget (key size shmflg : Nat)
  | shmat (p shmid shmaddr shmflg : Nat)
  | shmdt (p shmaddr : Nat)
  | shmctl (shmid cmd : Nat)
  | load (p va : Nat)
  | store (p va : Nat) (byte : UInt8)
  | copyin (p srcva n : Nat)
  | copyout (p dstva : Nat) (src : List UInt8)
  | kalloc (order : Nat)
  | kfree (block : Block)
  deriving DecidableEq, Repr

inductive Out where
  | none
  | value (n : Nat)
  | status (ok : Bool)
  | child (slot : Option Nat)
  | byte (b : UInt8)
  | stored
  | killed
  | bytes (bs : List UInt8) (ok : Bool)
  deriving DecidableEq, Repr

namespace Kernel

def ctx (k : Kernel) (mm : Mm) : Ctx := ⟨k.phys,k.shm,mm⟩

def current (k : Kernel) (p : Nat) : Option Mm :=
  if p < nproc ∧ (k.procs p).state = .used then (k.procs p).mm else none

def killed (k : Kernel) (p : Nat) (mm : Mm) : Option (Kernel × Out) :=
  (k.exit p mm).map fun k => (k,.killed)

def load (k : Kernel) (p : Nat) (mm : Mm) (va : Nat) : Option (Kernel × Out) :=
  match (k.ctx mm).access false va 2 with
  | (x,.done f) => some (k.setCtx p x,.byte (x.phys.mem f (va % pgSize)))
  | (x,.fatal) => (k.setCtx p x).killed p x.mm
  | (_,.retry) => none

def store (k : Kernel) (p : Nat) (mm : Mm) (va : Nat) (b : UInt8) : Option (Kernel × Out) :=
  match (k.ctx mm).access true va 2 with
  | (x,.done f) => some (k.setCtx p { x with phys := x.phys.write f (va % pgSize) b },.stored)
  | (x,.fatal) => (k.setCtx p x).killed p x.mm
  | (_,.retry) => none

def kalloc (k : Kernel) (order : Nat) : Kernel :=
  match allocPages k.phys.pmm order with
  | (s,none) => { k with phys := { k.phys with pmm := s } }
  | (s,some f) =>
    { k with
      phys := { k.phys with
        pmm := s
        mem := fun g => if (Block.mk f order).Covers g then fun _ => 0 else k.phys.mem g }
      held := if order = 0 then f :: k.held else k.held }

def holds (k : Kernel) (b : Block) : Bool :=
  if b.order = 0 then k.held.contains b.start else k.phys.pmm.live.contains b

def kfree (k : Kernel) (b : Block) : Kernel :=
  match freePages k.phys.pmm b.start b.order with
  | none => { k with phys := k.phys.panic }
  | some s =>
    { k with
      phys := { k.phys with pmm := s }
      held := if b.order = 0 then k.held.erase b.start else k.held }

def step (k : Kernel) : Op → Option (Kernel × Out)
  | .fork p kmem => (k.current p).map fun mm =>
    let r := k.fork p mm kmem
    (r.1,.child r.2)
  | .exit p => (k.current p).bind fun mm => k.killed p mm
  | .reap p =>
    if p < nproc ∧ (k.procs p).state = .zombie then some (k.zombieReap p,.none) else none
  | .kthreadCreate => some (k.kthreadCreate,.none)
  | .kthreadExit p =>
    if kthreaddTask < p ∧ p < nproc ∧ (k.procs p).state = .used ∧ (k.procs p).mm.isNone then
      some (k.zombieReap p,.none)
    else none
  | .execve p kmem blob name argv envp =>
    if p < nproc ∧ (k.procs p).state = .used then
      let r := k.execve p kmem blob name argv envp
      some (r.1,.status r.2)
    else none
  | .brk p addr => (k.current p).map fun mm =>
    match mm.sysBrk k.phys addr with
    | (ph,mm,r) => (k.setCtx p ⟨ph,k.shm,mm⟩,.value r)
  | .mmap p addr len prot flags fd => (k.current p).map fun mm =>
    match mm.doMmap addr len prot flags fd with
    | (mm,r) => (k.setMm p mm,.value r)
  | .munmap p addr len => (k.current p).map fun mm =>
    let r := (k.ctx mm).doMunmap addr len
    (k.setCtx p r.1,.status r.2)
  | .shmget key size shmflg =>
    let r := doShmget k.phys k.shm key size shmflg
    some ({ k with phys := r.1, shm := r.2.1 },.value r.2.2)
  | .shmat p shmid shmaddr shmflg => (k.current p).map fun mm =>
    let r := (k.ctx mm).doShmat shmid shmaddr shmflg
    (k.setCtx p r.1,.value r.2)
  | .shmdt p shmaddr => (k.current p).map fun mm =>
    let r := (k.ctx mm).doShmdt shmaddr
    (k.setCtx p r.1,.status r.2)
  | .shmctl shmid cmd =>
    let r := doShmctl k.phys k.shm shmid cmd
    some ({ k with phys := r.1, shm := r.2.1 },.status r.2.2)
  | .load p va => if va < word then (k.current p).bind fun mm => k.load p mm va else none
  | .store p va b => if va < word then (k.current p).bind fun mm => k.store p mm va b else none
  | .copyin p srcva n => if srcva < word ∧ n < word then (k.current p).map fun mm =>
    let r := (k.ctx mm).copyin true srcva n
    (k.setCtx p r.1,.bytes r.2.1 r.2.2) else none
  | .copyout p dstva src => if dstva < word ∧ src.length < word then (k.current p).map fun mm =>
    let r := (k.ctx mm).copyout true dstva src
    (k.setCtx p r.1,.status r.2) else none
  | .kalloc order => some (k.kalloc order,.none)
  | .kfree b => if k.holds b then some (k.kfree b,.none) else none

end Kernel

def boot (kernelEnd top : Nat) (mem : Nat → Nat → UInt8) (kernelPgdir : Pgdir) : Option Kernel :=
  (pmmInit kernelEnd (memProbeTop top)).map fun pmm =>
    { phys := ⟨pmm,mem,false⟩
      shm := fun _ => ShmSeg.empty
      procs := fun i => if i = 0 then ⟨.used,none,none⟩ else Proc.empty
      kernelPgdir := kernelPgdir
      held := [] }

end TinyOs
