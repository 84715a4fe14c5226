import TinyOs.Execve

namespace TinyOs

open Dyadic

def nproc : Nat := 64

def initproc : Nat := 1

def kthreaddTask : Nat := 2

def mmCreate (ph : Phys) (kernelPgdir : Pgdir) (kmem : Bool) : Phys × Option Mm :=
  if kmem then
    match uvmcreate ph kernelPgdir with
    | (ph,none) => (ph,none)
    | (ph,some (dir,pd)) =>
      (ph,some {
        dir := dir, pd := pd, userBase := userLoad, taskSize := userEnd, mmapBase := userHeapTop
        brk := userLoad, brkStart := userLoad, vmas := fun _ => Vma.empty })
  else (ph,none)

def mmDestroy (ph : Phys) (mm : Mm) : Phys := uvmfree ph mm.dir mm.pd

def procDropMm (ph : Phys) (shm : ShmTable) (mm : Mm) : Phys × ShmTable :=
  let x := Ctx.shmDetachAll ⟨ph,shm,mm⟩
  (mmDestroy x.phys x.mm,x.shm)

structure Forking where
  phys : Phys
  shm : ShmTable
  parent : Mm
  child : Mm

namespace Forking

def unmapChild (f : Forking) (i : Nat) : Forking :=
  let v := f.child.vmas i
  let s := unmapRange v.start v.stop ⟨f.phys,f.child.pd⟩
  { f with
    phys := s.phys
    child := { f.child with pd := s.pd }.setVma i { v with used := false, flags := 0 } }

def shmForkFixStep (f : Forking) (i : Nat) : Forking :=
  match vmaShmid (f.child.vmas i) with
  | none => f
  | some shmid =>
    match shmGet f.shm shmid with
    | none => f.unmapChild i
    | some seg =>
      if seg.dest then f.unmapChild i
      else
        match shmMapRange (f.parent.vmas i) seg ⟨f.phys,f.parent.pd⟩ with
        | (s,false) => { f with phys := s.phys, parent := { f.parent with pd := s.pd } }
        | (s,true) =>
          match shmMapRange (f.child.vmas i) seg ⟨s.phys,f.child.pd⟩ with
          | (t,b) =>
            { phys := t.phys
              shm := if b then f.shm.set shmid { seg with nattch := seg.nattch + 1 } else f.shm
              parent := { f.parent with pd := s.pd }
              child := { f.child with pd := t.pd } }

def shmForkFix (f : Forking) : Forking := (List.range nvma).foldl shmForkFixStep f

end Forking

def forkCopy (ph : Phys) (shm : ShmTable) (p : Mm) (kernelPgdir : Pgdir) (kmem : Bool) :
    Phys × ShmTable × Mm × Option (Mm × Nat) :=
  match mmCreate ph kernelPgdir kmem with
  | (ph,none) => (ph,shm,p,none)
  | (ph,some mm) =>
    match uvmcopy ⟨ph,p.pd,mm.pd⟩ p.taskSize with
    | (c,false) =>
      let r := procDropMm c.phys shm { mm with pd := c.new }
      (r.1,r.2,{ p with pd := c.old },none)
    | (c,true) =>
      let f := Forking.shmForkFix ⟨c.phys,shm,{ p with pd := c.old },
        { p with dir := mm.dir, pd := c.new }⟩
      match f.phys.allocPage with
      | (ph,none) =>
        let r := procDropMm ph f.shm f.child
        (r.1,r.2,f.parent,none)
      | (ph,some kstack) => (ph,f.shm,f.parent,some (f.child,kstack))

def execImage (x : Ctx) (blob name : List UInt8) (argv envp : List (List UInt8)) :
    Ctx × Option Nat :=
  let loaded :=
    if isElf blob then
      match execLoadElf blob x.space with
      | (s,none) => (s,none)
      | (s,some (_,brk)) => (s,some brk)
    else if userHeapTop - userLoad < blob.length then (x.space,none)
    else
      match loaduvm userLoad blob x.space with
      | (s,false) => (s,none)
      | (s,true) => (s,some (userLoad + blob.length))
  match loaded with
  | (s,none) => (x.setSpace s,none)
  | (s,some heapEnd) =>
    match execMapStack s with
    | (s,false) => (x.setSpace s,none)
    | (s,true) =>
      match execStackArgv (x.setSpace s) name argv envp with
      | (x,none) => (x,none)
      | (x,some _) => (x,some (min (max heapEnd userLoad) userHeapTop))

def execLoad (ph : Phys) (shm : ShmTable) (old : Option Mm) (kernelPgdir : Pgdir) (kmem : Bool)
    (blob name : List UInt8) (argv envp : List (List UInt8)) :
    Phys × ShmTable × Option Mm × Bool :=
  if blob = [] ∨ execMaxFile < blob.length then (ph,shm,old,false)
  else
    match mmCreate ph kernelPgdir kmem with
    | (ph,none) => (ph,shm,old,false)
    | (ph,some mm) =>
      match execImage ⟨ph,shm,mm⟩ blob name argv envp with
      | (x,none) => (mmDestroy x.phys x.mm,shm,old,false)
      | (x,some heapEnd) =>
        let new := { x.mm with taskSize := userEnd, brk := heapEnd, brkStart := heapEnd }
        match old with
        | none => (x.phys,shm,some new,true)
        | some old =>
          let r := procDropMm x.phys shm old
          (r.1,r.2,some new,true)

inductive PState where
  | unused
  | used
  | zombie
  deriving DecidableEq, Repr

structure Proc where
  state : PState
  mm : Option Mm
  kstack : Option Nat

def Proc.empty : Proc := ⟨.unused,none,none⟩

structure Kernel where
  phys : Phys
  shm : ShmTable
  procs : Nat → Proc
  kernelPgdir : Pgdir
  held : List Nat

namespace Kernel

def setProc (k : Kernel) (p : Nat) (pr : Proc) : Kernel :=
  { k with procs := Function.update k.procs p pr }

def setMm (k : Kernel) (p : Nat) (mm : Mm) : Kernel := k.setProc p { k.procs p with mm := some mm }

def setCtx (k : Kernel) (p : Nat) (x : Ctx) : Kernel :=
  { k.setMm p x.mm with phys := x.phys, shm := x.shm }

def procAlloc (k : Kernel) : Option Nat :=
  (List.range' 1 (nproc - 1)).find? fun i => (k.procs i).state == .unused

def exit (k : Kernel) (p : Nat) (mm : Mm) : Option Kernel :=
  if p = initproc then none
  else
    let r := procDropMm k.phys k.shm mm
    some { k.setProc p { k.procs p with state := .zombie, mm := none } with phys := r.1, shm := r.2 }

def zombieReap (k : Kernel) (p : Nat) : Kernel :=
  match (k.procs p).kstack with
  | none => k.setProc p Proc.empty
  | some f => { k.setProc p Proc.empty with phys := k.phys.putPage f }

def kthreadCreate (k : Kernel) : Kernel :=
  match k.procAlloc with
  | none => k
  | some q =>
    match k.phys.allocPage with
    | (ph,none) => { k with phys := ph }
    | (ph,some f) => { k.setProc q ⟨.used,none,some f⟩ with phys := ph }

def fork (k : Kernel) (p : Nat) (mm : Mm) (kmem : Bool) : Kernel × Option Nat :=
  match k.procAlloc with
  | none => (k,none)
  | some q =>
    match forkCopy k.phys k.shm mm k.kernelPgdir kmem with
    | (ph,shm,parent,none) => (k.setCtx p ⟨ph,shm,parent⟩,none)
    | (ph,shm,parent,some (child,kstack)) =>
      ((k.setCtx p ⟨ph,shm,parent⟩).setProc q ⟨.used,some child,some kstack⟩,some q)

def execve (k : Kernel) (p : Nat) (kmem : Bool) (blob name : List UInt8)
    (argv envp : List (List UInt8)) : Kernel × Bool :=
  match execLoad k.phys k.shm (k.procs p).mm k.kernelPgdir kmem blob name argv envp with
  | (ph,shm,mm,b) =>
    ({ k.setProc p { k.procs p with mm := mm } with phys := ph, shm := shm },b)

end Kernel

end TinyOs
