import TinyOs.Mm.Vm

namespace TinyOs

def nvma : Nat := 64

def protRead : Nat := 1

def protWrite : Nat := 2

def protExec : Nat := 4

def mapShared : Nat := 0x01

def mapPrivate : Nat := 0x02

def mapFixed : Nat := 0x10

def mapAnonymous : Nat := 0x20

def failure : Nat := 0xffffffff

structure Vma where
  used : Bool
  start : Nat
  stop : Nat
  prot : Nat
  flags : Nat
  deriving DecidableEq, Repr

structure Mm where
  dir : Nat
  pd : Pgdir
  userBase : Nat
  taskSize : Nat
  mmapBase : Nat
  brk : Nat
  brkStart : Nat
  vmas : Nat → Vma

def Vma.empty : Vma := ⟨false,0,0,0,0⟩

def Vma.writable (v : Vma) : Bool := v.prot &&& protWrite != 0

def protOk (prot : Nat) : Bool := prot &&& (protRead ||| protWrite ||| protExec) != 0

def vmaShmid (v : Vma) : Option Nat :=
  if v.used then
    let id := v.flags / 2 ^ 16 % 2 ^ 16
    if id = 0 then none else some (id - 1)
  else none

def vmaFlagsWithShmid (flags shmid : Nat) : Nat := flags % 2 ^ 16 + (shmid + 1) % 2 ^ 16 * 2 ^ 16

namespace Mm

def setVma (mm : Mm) (i : Nat) (v : Vma) : Mm := { mm with vmas := Function.update mm.vmas i v }

def vmaOverlapRange (mm : Mm) (start stop : Nat) : Bool := (List.range nvma).any fun i =>
    (mm.vmas i).used && decide (start < (mm.vmas i).stop) && decide ((mm.vmas i).start < stop)

def regionAvailable (mm : Mm) (start stop : Nat) : Bool :=
  if start < mm.userBase ∨ userHeapTop < stop ∨ stop ≤ start then false
  else if start < pgRoundUp mm.brk then false
  else if mm.vmaOverlapRange start stop then false
  else (pageRange start stop).all fun va => (mm.pd.walkaddr va).isNone

def findMmapLoop (mm : Mm) (low len : Nat) : Nat → Nat → Nat
  | 0, _ => 0
  | fuel + 1, start =>
    if start < low then 0
    else if mm.regionAvailable start (start + len) then start
    else if start < low + pgSize then 0
    else findMmapLoop mm low len fuel (start - pgSize)

def findMmapAddr (mm : Mm) (len : Nat) : Nat :=
  let low := pgRoundUp mm.brk
  let high := mm.mmapBase
  if len = 0 ∨ high ≤ low ∨ high - low < len then 0
  else
    let start := pgRoundDown (high - len)
    findMmapLoop mm low len (start / pgSize + 1) start

def vmaAllocSlot (mm : Mm) : Option Nat := (List.range nvma).find? fun i => !(mm.vmas i).used

def vmaFind (mm : Mm) (start stop : Nat) : Option Nat := (List.range nvma).find? fun i =>
    (mm.vmas i).used && (mm.vmas i).start == start && (mm.vmas i).stop == stop

def vmaLookup (mm : Mm) (va : Nat) : Option Vma := ((List.range nvma).find? fun i =>
    (mm.vmas i).used && decide ((mm.vmas i).start ≤ va) && decide (va < (mm.vmas i).stop)).map
      mm.vmas

def vmaCreate (mm : Mm) (start stop prot flags shmid : Nat) : Option (Nat × Mm) :=
  if stop ≤ start then none
  else if mm.regionAvailable start stop then
    mm.vmaAllocSlot.map fun i =>
      (i,mm.setVma i ⟨true,start,stop,prot,vmaFlagsWithShmid flags shmid⟩)
  else none

def vmaOverlapsBrk (mm : Mm) (oldBrk newBrk : Nat) : Bool :=
  if newBrk ≤ oldBrk then false else mm.vmaOverlapRange oldBrk newBrk

def doMmap (mm : Mm) (addr len prot flags fd : Nat) : Mm × Nat :=
  if len = 0 then (mm,failure)
  else
    let len := pgRoundUp len
    let flags := flags % 2 ^ 16
    if len = 0 ∨ userHeapTop - mm.userBase < len then (mm,failure)
    else if flags &&& mapAnonymous = 0 ∨ flags &&& mapPrivate = 0 then (mm,failure)
    else if flags &&& mapShared ≠ 0 then (mm,failure)
    else if fd ≠ 0xffffffff then (mm,failure)
    else if !protOk prot then (mm,failure)
    else
      let start :=
        if flags &&& mapFixed ≠ 0 then
          if addr % pgSize ≠ 0 then none
          else if mm.regionAvailable addr ((addr + len) % word) then some addr
          else none
        else if mm.findMmapAddr len = 0 then none
        else some (mm.findMmapAddr len)
      match start with
      | none => (mm,failure)
      | some start =>
        match mm.vmaAllocSlot with
        | none => (mm,failure)
        | some i => (mm.setVma i ⟨true,start,(start + len) % word,prot,flags⟩,start)

def sysBrk (ph : Phys) (mm : Mm) (addr : Nat) : Phys × Mm × Nat :=
  if addr < mm.brkStart ∨ userHeapTop < addr then (ph,mm,mm.brk)
  else if mm.brk < addr then
    if mm.vmaOverlapsBrk mm.brk addr then (ph,mm,mm.brk)
    else if uvmalloc mm.brk addr = 0 then (ph,mm,mm.brk)
    else (ph,{ mm with brk := addr },addr)
  else if addr < mm.brk then
    match Space.uvmdealloc ⟨ph,mm.pd⟩ mm.brk addr with
    | (s,0) => (s.phys,{ mm with pd := s.pd },mm.brk)
    | (s,_ + 1) => (s.phys,{ mm with pd := s.pd, brk := addr },addr)
  else (ph,{ mm with brk := addr },addr)

end Mm

end TinyOs
