import TinyOs.Ipc.Shm

namespace TinyOs

def Pgdir.translate (pd : Pgdir) (va : Nat) (write : Bool) : Option Nat :=
  match pd (pdx va) with
  | none => none
  | some pde =>
    match pde.entries (ptx va) with
    | none => none
    | some pte =>
      if pde.user && pte.perm.u && (!write || pte.perm.w) then some pte.frame else none

def Phys.writeBytes (ph : Phys) (f off : Nat) (bs : List UInt8) : Phys :=
  { ph with
    mem := Function.update ph.mem f fun i =>
      if off ≤ i ∧ i < off + bs.length then bs.getD (i - off) 0 else ph.mem f i }

namespace Ctx

def shmDemandFault (x : Ctx) (v : Vma) (page : Nat) (write : Bool) : Ctx × Bool :=
  match vmaShmid v with
  | none => (x,false)
  | some shmid =>
    if write && !v.writable then (x,false)
    else if page < v.start ∨ v.stop ≤ page then (x,false)
    else
      match shmGet x.shm shmid with
      | none => (x,false)
      | some seg =>
        let idx := (page - v.start) / pgSize
        if seg.npages ≤ idx then (x,false)
        else
          match seg.pages idx with
          | none => (x,false)
          | some f =>
            match Space.uvmmap ⟨x.phys.getPage f,x.mm.pd⟩ page f pgSize
                ⟨v.writable,false,false⟩ with
            | (s,true) => (x.setSpace s,true)
            | (s,false) => (x.setSpace { s with phys := s.phys.putPage f },false)

def demandFill (x : Ctx) (page : Nat) (w : Bool) : Ctx × Bool :=
  match x.space.mapNewPage page w with
  | (s,r) => (x.setSpace s,r.isSome)

def uvmDemandFault (x : Ctx) (va : Nat) (write : Bool) : Ctx × Bool :=
  let page := pgRoundDown va
  if page < x.mm.userBase ∨ userEnd ≤ page then (x,false)
  else if (x.mm.pd.walkaddr page).isSome then (x,true)
  else if page < x.mm.brk ∧ x.mm.brkStart < page + pgSize then x.demandFill page true
  else
    match x.mm.vmaLookup page with
    | none => (x,false)
    | some v =>
      if (vmaShmid v).isSome then x.shmDemandFault v page write
      else if !protOk v.prot then (x,false)
      else if write && !v.writable then (x,false)
      else x.demandFill page v.writable

def uvmCowFault (x : Ctx) (va : Nat) : Ctx × Bool :=
  match x.space.uvmCowFault va with
  | (s,b) => (x.setSpace s,b)

def pageFaultHandler (x : Ctx) (va : Nat) (write : Bool) : Ctx × Bool :=
  match x.mm.pd.lookup va with
  | none => x.uvmDemandFault va write
  | some _ =>
    if write ∧ userBase ≤ va ∧ va < x.mm.taskSize then x.uvmCowFault va else (x,false)

inductive Access where
  | done (frame : Nat)
  | fatal
  | retry
  deriving DecidableEq, Repr

def access (write : Bool) (va : Nat) : Nat → Ctx → Ctx × Access
  | 0, x => (x,.retry)
  | fuel + 1, x =>
    match x.mm.pd.translate va write with
    | some f => (x,.done f)
    | none =>
      match x.pageFaultHandler va write with
      | (x,true) => access write va fuel x
      | (x,false) => (x,.fatal)

def ensureUserPage (x : Ctx) (cur : Bool) (va : Nat) (write : Bool) : Ctx × Bool :=
  match x.mm.pd.lookup (pgRoundDown va) with
  | some pte => if write && pte.perm.cow then x.uvmCowFault (pgRoundDown va) else (x,true)
  | none => if cur then x.uvmDemandFault (pgRoundDown va) write else (x,false)

def copyinLoop (cur : Bool) : Nat → Ctx → Nat → Nat → Ctx × List UInt8 × Bool
  | 0, x, _, _ => (x,[],true)
  | fuel + 1, x, srcva, n =>
    if n = 0 then (x,[],true)
    else
      let va := pgRoundDown srcva
      match x.ensureUserPage cur va false with
      | (x,false) => (x,[],false)
      | (x,true) =>
        match x.mm.pd.walkaddr va with
        | none => (x,[],false)
        | some f =>
          let off := srcva - va
          let chunk := min (pgSize - off) n
          let bytes := (List.range chunk).map fun i => x.phys.mem f (off + i)
          let r := copyinLoop cur fuel x ((srcva + chunk) % word) (n - chunk)
          (r.1,bytes ++ r.2.1,r.2.2)

def copyin (x : Ctx) (cur : Bool) (srcva n : Nat) : Ctx × List UInt8 × Bool :=
  copyinLoop cur n x srcva n

def copyoutLoop (cur : Bool) : Nat → Ctx → Nat → List UInt8 → Ctx × Bool
  | 0, x, _, _ => (x,true)
  | fuel + 1, x, dstva, src =>
    if src = [] then (x,true)
    else
      let va := pgRoundDown dstva
      match x.ensureUserPage cur va true with
      | (x,false) => (x,false)
      | (x,true) =>
        match x.mm.pd.walkaddr va with
        | none => (x,false)
        | some f =>
          let off := dstva - va
          let chunk := min (pgSize - off) src.length
          copyoutLoop cur fuel { x with phys := x.phys.writeBytes f off (src.take chunk) }
            ((dstva + chunk) % word) (src.drop chunk)

def copyout (x : Ctx) (cur : Bool) (dstva : Nat) (src : List UInt8) : Ctx × Bool :=
  copyoutLoop cur src.length x dstva src

end Ctx

end TinyOs
