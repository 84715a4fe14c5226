import TinyOs.Library.LinkedList
import TinyOs.Library.Machine
import TinyOs.Mm.HeapBlocks

namespace TinyOs.KernelHeap

open LinkedList
open Slab hiding kmalloc kmallocPages cacheRefill takeBlock kfree kmemInit

def kmagic : Nat := 0x4b4d454d

def sizeofKcache : Nat := 12

structure Heap where
  kernel : Kernel
  mem : Mem
  cache : Nat
  nrKfree : Nat

def head (cache idx : Nat) : Nat := cache + idx * sizeofKcache + 4

def Heap.base (s : Heap) : Nat := s.kernel.phys.pmm.memStart

def clear (m : Mem) (a n : Nat) : Mem := fun x => if a ≤ x ∧ x < a + n then 0 else m x

def initHeads (m : Mem) (cache : Nat) : Nat → Mem
  | 0 => m
  | i + 1 => initList (initHeads m cache i) (head cache i)

def kmemInit (k : Kernel) (m : Mem) (cache : Nat) : Heap := ⟨k,initHeads m cache 7,cache,0⟩

def allocPages (s : Heap) (order : Nat) : Heap × Option Nat :=
  match s.kernel.allocPages order with
  | (k,none) => ({ s with kernel := k },none)
  | (k,some page) =>
    let a := k.phys.pmm.memStart + page * pgSize
    ({ s with kernel := k, mem := clear s.mem a (pgSize * 2 ^ order) },some a)

def carve (m : Mem) (page bsize head : Nat) : Nat → Mem
  | 0 => m
  | i + 1 =>
    let h := page + i * bsize
    listAdd (initList (carve m page bsize head i) h) h head

def cacheRefill (s : Heap) (idx : Nat) : Except Panic Heap :=
  match allocPages s 0 with
  | (_,none) => .error .outOfMemory
  | (s,some page) =>
    .ok { s with
      mem := carve s.mem page (bsize idx) (head s.cache idx) (pgSize / bsize idx)
      nrKfree := s.nrKfree + pgSize / bsize idx }

def setHdr (m : Mem) (h size : Nat) : Mem := wr (wr m (h + 8) size) (h + 12) kmagic

abbrev Result := Option (Nat × Origin)

def kmallocPages (s : Heap) (need : Nat) : Except Panic (Heap × Result) :=
  match orderFor (pgRoundUp need) with
  | none => .error .sizeTooLarge
  | some order =>
    match allocPages s order with
    | (s,none) => .ok (s,none)
    | (s,some h) =>
      .ok ({ s with mem := setHdr s.mem h (kflagPage ||| order) },
        some (h + sizeofKhdr,.pages order))

def takeBlock (s : Heap) (idx : Nat) : Heap × Result :=
  let h := rd s.mem (head s.cache idx)
  ({ s with mem := setHdr (listDel s.mem h) h (bsize idx), nrKfree := s.nrKfree - 1 },
    some (h + sizeofKhdr,.cls idx))

def kmalloc (s : Heap) (size : Nat) : Except Panic (Heap × Result) :=
  if size = 0 then .ok (s,none)
  else
    let need := (size + sizeofKhdr) % word
    if maxBsize < need then kmallocPages s need
    else
      match cacheIndex need with
      | none => .error .badSize
      | some idx =>
        if listEmpty s.mem (head s.cache idx) then
          (cacheRefill s idx).map fun s => takeBlock s idx
        else .ok (takeBlock s idx)

def kcalloc (s : Heap) (n size : Nat) : Except Panic (Heap × Result) :=
  if n ≠ 0 ∧ (word - 1) / n < size then .ok (s,none)
  else
    let total := n * size % word
    (kmalloc s total).map fun
      | (s,none) => (s,none)
      | (s,some r) => ({ s with mem := clear s.mem r.1 total },some r)

def ptrAt (base a : Nat) : Ptr := ⟨(a - base) / pgSize,(a - base) % pgSize⟩

def kfree (s : Heap) (ptr : Nat) : Except Panic Heap :=
  let h := ptr - sizeofKhdr
  if rd s.mem (h + 12) ≠ kmagic then .error .badMagic
  else
    let m := wr s.mem (h + 12) 0
    let size := rd m (h + 8)
    if size &&& kflagPage ≠ 0 then
      match s.kernel.freePages (ptrAt s.base h) (size &&& (kflagPage - 1)) with
      | none => .error .freePages
      | some k => .ok { s with kernel := k, mem := m }
    else
      match cacheIndex size with
      | none => .error .badSize
      | some idx => .ok { s with mem := listAdd m h (head s.cache idx), nrKfree := s.nrKfree + 1 }

structure State where
  heap : Heap
  live : List (Grant Nat)

inductive Op where
  | kmalloc (size : Nat)
  | kcalloc (n size : Nat)
  | kfree (ptr : Nat)
  | write (a : Nat) (b : UInt8)
  deriving DecidableEq, Repr

def Grant.holds (g : Grant Nat) (a : Nat) : Bool :=
  decide (g.ptr ≤ a ∧ a + sizeofKhdr < g.ptr + g.origin.bytes)

def State.grant (s : State) (size : Nat) (r : Heap × Result) : State × Option Nat :=
  (⟨r.1,(r.2.map fun q => ⟨q.1,size,q.2⟩).toList ++ s.live⟩,r.2.map Prod.fst)

def maxRequest : Nat := 2 ^ 31

def step (s : State) : Op → Option (State × Option Nat)
  | .kmalloc size =>
    if size ≤ maxRequest then (kmalloc s.heap size).toOption.map (s.grant size) else none
  | .kcalloc n size =>
    if n * size ≤ maxRequest ∨ word ≤ n * size then
      (kcalloc s.heap n size).toOption.map (s.grant (n * size))
    else none
  | .kfree ptr =>
    (s.live.find? fun g => g.ptr == ptr).bind fun g =>
      (kfree s.heap ptr).toOption.map fun h => (⟨h,s.live.erase g⟩,none)
  | .write a b =>
    if s.live.any (Grant.holds · a) then
      some ({ s with heap.mem := Function.update s.heap.mem a b },none)
    else none

def boot (k : Kernel) (m : Mem) (cache : Nat) : State := ⟨kmemInit k m cache,[]⟩

end TinyOs.KernelHeap
