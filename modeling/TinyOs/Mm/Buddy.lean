import TinyOs.Library.Dyadic
import TinyOs.Memlayout

namespace TinyOs.Buddy

open Function (update)
open Dyadic

@[simp] def maxOrder : Nat := 11

@[simp] def sizeofPage : Nat := 16

structure Pmm where
  memStart : Nat
  memEnd : Nat
  nrPages : Nat
  order : Nat → Option Nat
  refcount : Nat → Nat
  freeList : Nat → List Nat
  areaNrFree : Nat → Nat
  nrFree : Nat
  live : List Block
  user : Nat → Bool
  failed : Nat

def addrToPage (s : Pmm) (addr : Nat) : Option Nat :=
  let a := if kernBase ≤ addr then v2p addr else addr
  if a < s.memStart ∨ s.memEnd ≤ a ∨ a % pgSize ≠ 0 then none
  else some ((a - s.memStart) / pgSize)

def pageToAddr (s : Pmm) (page : Nat) : Nat := p2v (s.memStart + page * pgSize)

def pageBuddy (s : Pmm) (page order : Nat) : Option Nat :=
  let buddy := page ^^^ 2 ^ order
  if s.nrPages ≤ buddy then none else some buddy

def freeAreaAdd (s : Pmm) (page order : Nat) : Pmm :=
  { s with
    order := update s.order page (some order)
    freeList := update s.freeList order (s.freeList order ++ [page])
    areaNrFree := update s.areaNrFree order (s.areaNrFree order + 1)
    nrFree := s.nrFree + 2 ^ order }

def freeAreaDel (s : Pmm) (page order : Nat) : Pmm :=
  { s with
    freeList := update s.freeList order ((s.freeList order).erase page)
    areaNrFree := update s.areaNrFree order (s.areaNrFree order - 1)
    nrFree := s.nrFree - 2 ^ order }

def mergeLoop : Nat → Pmm → Nat → Nat → Pmm
  | 0, s, idx, order => freeAreaAdd s idx order
  | fuel + 1, s, idx, order =>
    if order < maxOrder - 1 then
      match pageBuddy s idx order with
      | none => freeAreaAdd s idx order
      | some buddy =>
        if s.order buddy = some order then
          mergeLoop fuel (freeAreaDel s buddy order)
            (idx &&& (2 ^ 32 - (2 ^ order + 1))) (order + 1)
        else freeAreaAdd s idx order
    else freeAreaAdd s idx order

def freeOnePage (s : Pmm) (page order : Nat) : Pmm := mergeLoop maxOrder s page order

def splitLoop : Nat → Pmm → Nat → Nat → Pmm
  | 0, s, _, _ => s
  | n + 1, s, page, order =>
    splitLoop n (freeAreaAdd s (page + 2 ^ (order + n)) (order + n)) page order

def takePage (s : Pmm) (page order : Nat) : Pmm :=
  { s with
    order := update s.order page none
    refcount := update s.refcount page 1
    live := ⟨page,order⟩ :: s.live
    user := fun p => if (Block.mk page order).Covers p then false else s.user p }

def findArea (s : Pmm) (order : Nat) : Option Nat :=
  (List.range' order (maxOrder - order)).find? (fun o => !(s.freeList o).isEmpty)

def allocPages (s : Pmm) (order : Nat) : Pmm × Option Nat :=
  match findArea s order with
  | none => ({ s with failed := s.failed + 1 },none)
  | some o =>
    match s.freeList o with
    | [] => ({ s with failed := s.failed + 1 },none)
    | page :: _ =>
      (takePage (splitLoop (o - order) (freeAreaDel s page o) page order) page order,some page)

def getPage (s : Pmm) (page : Nat) : Option Pmm :=
  if s.order page = none then
    some { s with refcount := update s.refcount page ((s.refcount page + 1) % word) }
  else none

def dropLive (s : Pmm) (page order : Nat) : Pmm :=
  { s with live := s.live.erase ⟨page,order⟩ }

def putPage (s : Pmm) (page : Nat) : Option Pmm :=
  if s.order page ≠ none then none
  else if s.refcount page = 0 then none
  else
    let s' := { s with refcount := update s.refcount page (s.refcount page - 1) }
    if s'.refcount page = 0 then some (freeOnePage (dropLive s' page 0) page 0) else some s'

def freePages (s : Pmm) (page order : Nat) : Option Pmm :=
  if maxOrder ≤ order then none
  else if order = 0 then putPage s page
  else some (freeOnePage (dropLive s page order) page order)

def pageRefcount (s : Pmm) (page : Nat) : Nat := s.refcount page

def growOrder : Nat → Nat → Nat → Nat → Nat
  | 0, _, _, order => order
  | fuel + 1, idx, left, order =>
    if order + 1 < maxOrder ∧ idx % 2 ^ (order + 1) = 0 ∧ 2 ^ (order + 1) ≤ left then
      growOrder fuel idx left (order + 1)
    else order

def initLoop : Nat → Pmm → Nat → Option Pmm
  | 0, s, _ => some s
  | fuel + 1, s, addr =>
    if addr < s.memEnd then
      let idx := (addr - s.memStart) / pgSize
      let left := (s.memEnd - addr) / pgSize
      let order := growOrder maxOrder idx left 0
      (addrToPage s addr).bind fun page =>
        initLoop fuel (freeOnePage s page order) (addr + pgSize * 2 ^ order)
    else some s

def memProbeTop (top : Nat) : Nat :=
  if physmemTopMax < pgRoundDown top then physmemTopMax else pgRoundDown top

def pmmInit (kernelEnd physmemTop : Nat) : Option Pmm :=
  let base := pgRoundUp kernelEnd
  if physmemTop ≤ base then none
  else
    let mapBytes := pgRoundUp ((physmemTop - base) / pgSize * sizeofPage)
    if physmemTop ≤ (base + mapBytes) % word then none
    else
      let memStart := base + mapBytes
      let nrPages := (physmemTop - memStart) / pgSize
      if nrPages = 0 then none
      else
        initLoop (nrPages + 1)
          { memStart := memStart, memEnd := physmemTop, nrPages := nrPages
            order := fun _ => none, refcount := fun _ => 0
            freeList := fun _ => [], areaNrFree := fun _ => 0, nrFree := 0
            live := [], user := fun _ => false, failed := 0 } memStart

end TinyOs.Buddy
