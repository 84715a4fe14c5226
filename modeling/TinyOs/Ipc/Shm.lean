import TinyOs.Mm.Mmap

namespace TinyOs

open Function (update)

def nshm : Nat := 32

def shmMaxPages : Nat := 256

def ipcPrivate : Nat := 0

def ipcCreat : Nat := 0o1000

def ipcExcl : Nat := 0o2000

def ipcRmid : Nat := 0

def shmRdonly : Nat := 0o10000

structure ShmSeg where
  inuse : Bool
  key : Nat
  size : Nat
  npages : Nat
  pages : Nat → Option Nat
  nattch : Nat
  dest : Bool

def ShmSeg.empty : ShmSeg := ⟨false,0,0,0,fun _ => none,0,false⟩

abbrev ShmTable : Type := Nat → ShmSeg

def ShmTable.set (tbl : ShmTable) (id : Nat) (seg : ShmSeg) : ShmTable := update tbl id seg

def shmGet (tbl : ShmTable) (shmid : Nat) : Option ShmSeg :=
  if nshm ≤ shmid then none else if (tbl shmid).inuse then some (tbl shmid) else none

def Phys.panic (ph : Phys) : Phys := { ph with panicked := true }

def shmFreeStep (ps : Phys × (Nat → Option Nat)) (i : Nat) : Phys × (Nat → Option Nat) :=
  match ps.2 i with
  | none => ps
  | some f => (ps.1.putPage f,update ps.2 i none)

def shmFreePages (ph : Phys) (seg : ShmSeg) : Phys × ShmSeg :=
  let r := (List.range seg.npages).foldl shmFreeStep (ph,seg.pages)
  (r.1,{ seg with pages := r.2, npages := 0, size := 0 })

def shmTryDestroyLocked (ph : Phys) (seg : ShmSeg) : Phys × ShmSeg :=
  if !seg.inuse || !seg.dest || seg.nattch != 0 then (ph,seg)
  else
    let r := shmFreePages ph seg
    (r.1,{ r.2 with inuse := false, key := 0, dest := false })

def shmMapPage (v : Vma) (seg : ShmSeg) (i : Nat) (s : Space) : Space × Bool :=
  let va := (v.start + i * pgSize) % word
  let s := if (s.pd.walkaddr va).isSome then (s.uvmunmap va 1 true).1 else s
  match seg.pages i with
  | none => ({ s with phys := s.phys.panic },false)
  | some f =>
    match Space.uvmmap ⟨s.phys.getPage f,s.pd⟩ va f pgSize ⟨v.writable,false,false⟩ with
    | (s,true) => (s,true)
    | (s,false) => ({ s with phys := s.phys.putPage f },false)

def shmMapRange (v : Vma) (seg : ShmSeg) (s : Space) : Space × Bool :=
  Loop.forEach (shmMapPage v seg) (List.range seg.npages) s

def unmapRange (start stop : Nat) (s : Space) : Space :=
  (pageRange start stop).foldl (fun s va => (s.uvmunmap va 1 true).1) s

def shmGetFind (tbl : ShmTable) (key : Nat) : Option Nat := (List.range nshm).find? fun i =>
    (tbl i).inuse && !(tbl i).dest && (tbl i).key == key

def shmAllocPage (j : Nat) (ps : Phys × ShmSeg) : (Phys × ShmSeg) × Bool :=
  match ps.1.allocUser with
  | (ph,none) => ((ph,{ ps.2 with npages := j }),false)
  | (ph,some f) => ((ph,{ ps.2 with pages := update ps.2.pages j (some f) }),true)

def shmCreate (ph : Phys) (tbl : ShmTable) (key size : Nat) : Phys × ShmTable × Nat :=
  if size = 0 then (ph,tbl,failure)
  else
    let size := pgRoundUp size
    let npages := size / pgSize
    if npages = 0 ∨ shmMaxPages < npages then (ph,tbl,failure)
    else
      match (List.range nshm).find? fun i => !(tbl i).inuse with
      | none => (ph,tbl,failure)
      | some id =>
        let seg : ShmSeg := ⟨true,key,size,npages,fun _ => none,0,false⟩
        match Loop.forEach shmAllocPage (List.range npages) (ph,seg) with
        | ((ph,seg),true) => (ph,tbl.set id seg,id)
        | ((ph,seg),false) =>
          let r := shmFreePages ph seg
          (r.1,tbl.set id { r.2 with inuse := false },failure)

def doShmget (ph : Phys) (tbl : ShmTable) (key size shmflg : Nat) : Phys × ShmTable × Nat :=
  if key ≠ ipcPrivate then
    match shmGetFind tbl key with
    | some i =>
      if (tbl i).size < size then (ph,tbl,failure)
      else if shmflg &&& ipcCreat ≠ 0 ∧ shmflg &&& ipcExcl ≠ 0 then (ph,tbl,failure)
      else (ph,tbl,i)
    | none => if shmflg &&& ipcCreat = 0 then (ph,tbl,failure) else shmCreate ph tbl key size
  else shmCreate ph tbl key size

structure Ctx where
  phys : Phys
  shm : ShmTable
  mm : Mm

namespace Ctx

def space (x : Ctx) : Space := ⟨x.phys,x.mm.pd⟩

def setSpace (x : Ctx) (s : Space) : Ctx := { x with phys := s.phys, mm := { x.mm with pd := s.pd } }

def setVma (x : Ctx) (i : Nat) (v : Vma) : Ctx := { x with mm := x.mm.setVma i v }

def unmapVma (x : Ctx) (v : Vma) : Ctx := x.setSpace (unmapRange v.start v.stop x.space)

def doShmat (x : Ctx) (shmid shmaddr shmflg : Nat) : Ctx × Nat :=
  match shmGet x.shm shmid with
  | none => (x,failure)
  | some seg =>
    if seg.dest then (x,failure)
    else
      let len := seg.size
      let prot := if shmflg &&& shmRdonly = 0 then protRead ||| protWrite else protRead
      let start :=
        if shmaddr ≠ 0 then
          if shmaddr % pgSize ≠ 0 then none
          else if x.mm.regionAvailable shmaddr ((shmaddr + len) % word) then some shmaddr
          else none
        else if x.mm.findMmapAddr len = 0 then none
        else some (x.mm.findMmapAddr len)
      match start with
      | none => (x,failure)
      | some start =>
        match x.mm.vmaCreate start ((start + len) % word) prot mapShared shmid with
        | none => (x,failure)
        | some (i,mm) =>
          match shmMapRange (mm.vmas i) seg ⟨x.phys,mm.pd⟩ with
          | (s,false) =>
            ({ x with
                phys := s.phys
                mm := { mm with pd := s.pd }.setVma i { mm.vmas i with used := false } },failure)
          | (s,true) =>
            ({ phys := s.phys
               shm := x.shm.set shmid { seg with nattch := seg.nattch + 1 }
               mm := { mm with pd := s.pd } },start)

def detach (x : Ctx) (shmid : Nat) : Ctx :=
  match shmGet x.shm shmid with
  | none => x
  | some seg =>
    let r := shmTryDestroyLocked x.phys { seg with nattch := seg.nattch - 1 }
    { x with phys := r.1, shm := x.shm.set shmid r.2 }

def shmMunmapVma (x : Ctx) (i : Nat) : Ctx × Bool :=
  let v := x.mm.vmas i
  match vmaShmid v with
  | none => (x,false)
  | some shmid =>
    (((x.unmapVma v).setVma i { v with used := false, flags := 0 }).detach shmid,true)

def doShmdt (x : Ctx) (shmaddr : Nat) : Ctx × Bool :=
  if shmaddr % pgSize ≠ 0 then (x,false)
  else
    match (List.range nvma).find? fun i =>
        (vmaShmid (x.mm.vmas i)).isSome && (x.mm.vmas i).start == shmaddr with
    | none => (x,false)
    | some i => x.shmMunmapVma i

def shmDetachAll (x : Ctx) : Ctx := (List.range nvma).foldl
    (fun x i => if (vmaShmid (x.mm.vmas i)).isSome then (x.shmMunmapVma i).1 else x) x

def doMunmap (x : Ctx) (addr len : Nat) : Ctx × Bool :=
  if len = 0 ∨ addr % pgSize ≠ 0 then (x,false)
  else
    let stop := (addr + pgRoundUp len) % word
    if stop < addr then (x,false)
    else
      match x.mm.vmaFind addr stop with
      | none => (x,false)
      | some i =>
        let v := x.mm.vmas i
        if (vmaShmid v).isSome then x.shmMunmapVma i
        else ((x.unmapVma v).setVma i { v with used := false },true)

end Ctx

def doShmctl (ph : Phys) (tbl : ShmTable) (shmid cmd : Nat) : Phys × ShmTable × Bool :=
  if cmd ≠ ipcRmid then (ph,tbl,false)
  else
    match shmGet tbl shmid with
    | none => (ph,tbl,false)
    | some seg =>
      let r := shmTryDestroyLocked ph { seg with dest := true }
      (r.1,tbl.set shmid r.2,true)

end TinyOs
