import TinyOs.Reachable

namespace TinyOs

open List Buddy

open Function (update)
open Dyadic (Block)

@[ext] structure Ptr where
  page : Nat
  off : Nat
  deriving DecidableEq, Repr

inductive Panic where
  | outOfMemory
  | sizeTooLarge
  | badSize
  | badMagic
  | freePages
  | putPage
  deriving DecidableEq, Repr

namespace Kernel

def allocPages (k : Kernel) (order : Nat) : Kernel × Option Nat :=
  (k.kalloc order,(Buddy.allocPages k.phys.pmm order).2)

def freePages (k : Kernel) (h : Ptr) (order : Nat) : Option Kernel :=
  if h.off ≠ 0 ∨ k.phys.pmm.nrPages ≤ h.page then none
  else (Buddy.freePages k.phys.pmm h.page order).map fun _ => k.kfree ⟨h.page,order⟩

end Kernel

namespace Slab

variable {need idx : Nat}

def sizeofKhdr : Nat := 16

def kflagPage : Nat := 0x80000000

def cache : List Nat := [32,64,128,256,512,1024,2048]

def bsize (idx : Nat) : Nat := cache.getD idx 0

def maxBsize : Nat := bsize 6

def cacheIndex (need : Nat) : Option Nat := cache.findIdx? fun b => need ≤ b

structure Kmem where
  kernel : Kernel
  free : Nat → List Ptr
  nrKfree : Nat
  hdr : Ptr → Option Nat

variable {m : Kmem}

def kmemInit (k : Kernel) : Kmem := ⟨k,fun _ => [],0,fun _ => none⟩

def blocks (page bsize : Nat) : List Ptr :=
  ((List.range (pgSize / bsize)).map fun i => ⟨page,i * bsize⟩).reverse

def cacheRefill (m : Kmem) (idx : Nat) : Except Panic Kmem :=
  match m.kernel.allocPages 0 with
  | (_,none) => .error .outOfMemory
  | (k,some page) =>
    .ok { m with
      kernel := k
      free := update m.free idx (blocks page (bsize idx) ++ m.free idx)
      nrKfree := m.nrKfree + pgSize / bsize idx }

def orderFor (bytes : Nat) : Option Nat :=
  (List.range maxOrder).find? fun order => bytes ≤ pgSize * 2 ^ order

def kmallocPages (m : Kmem) (need : Nat) : Except Panic (Kmem × Option Ptr) :=
  match orderFor (pgRoundUp need) with
  | none => .error .sizeTooLarge
  | some order =>
    match m.kernel.allocPages order with
    | (k,none) => .ok ({ m with kernel := k },none)
    | (k,some page) =>
      .ok ({ m with
        kernel := k
        hdr := update m.hdr ⟨page,0⟩ (some (kflagPage ||| order)) },some ⟨page,0⟩)

def takeBlock (m : Kmem) (idx : Nat) : Except Panic (Kmem × Option Ptr) :=
  match m.free idx with
  | [] => .error .badSize
  | h :: rest =>
    .ok ({ m with
      free := update m.free idx rest
      nrKfree := m.nrKfree - 1
      hdr := update m.hdr h (some (bsize idx)) },some h)

def kmalloc (m : Kmem) (size : Nat) : Except Panic (Kmem × Option Ptr) :=
  if size = 0 then .ok (m,none)
  else
    let need := (size + sizeofKhdr) % word
    if maxBsize < need then kmallocPages m need
    else
      match cacheIndex need with
      | none => .error .badSize
      | some idx =>
        if m.free idx = [] then (cacheRefill m idx).bind fun m => takeBlock m idx
        else takeBlock m idx

def kfree (m : Kmem) (ptr : Option Ptr) : Except Panic Kmem :=
  match ptr with
  | none => .ok m
  | some h =>
    match m.hdr h with
    | none => .error .badMagic
    | some size =>
      let m := { m with hdr := update m.hdr h none }
      if size &&& kflagPage ≠ 0 then
        match m.kernel.freePages h (size &&& (kflagPage - 1)) with
        | none => .error .freePages
        | some k => .ok { m with kernel := k }
      else
        match cacheIndex size with
        | none => .error .badSize
        | some idx =>
          .ok { m with
            free := update m.free idx (h :: m.free idx)
            nrKfree := m.nrKfree + 1 }

theorem cacheIndex_lt (h : cacheIndex need = some idx) : idx < 7 := by
  obtain ⟨hlt,-⟩ := findIdx?_eq_some_iff_findIdx_eq.mp h
  exact hlt

theorem cacheIndex_bsize (h : idx < 7) : cacheIndex (bsize idx) = some idx := by
  revert idx
  decide

theorem blocks_ne_nil (page : Nat) (h : idx < 7) : blocks page (bsize idx) ≠ [] := by
  have hpos : pgSize / bsize idx ≠ 0 := by
    revert idx
    decide
  simp [blocks,hpos]

end Slab

end TinyOs
