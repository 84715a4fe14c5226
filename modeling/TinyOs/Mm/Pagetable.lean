import TinyOs.Library.Loop
import TinyOs.Mm.Phys

namespace TinyOs

@[simp] def maxKernelPt : Nat := 1024

structure Perm where
  w : Bool
  u : Bool
  cow : Bool
  deriving DecidableEq, Repr

structure Pte where
  frame : Nat
  perm : Perm
  deriving DecidableEq, Repr

structure Pde where
  table : Nat
  user : Bool
  entries : Nat → Option Pte

abbrev Pgdir : Type := Nat → Option Pde

def pdx (va : Nat) : Nat := va / 2 ^ 22 % 1024

def ptx (va : Nat) : Nat := va / 2 ^ 12 % 1024

def pageRange (start stop : Nat) : List Nat :=
  (List.range ((stop - start + (pgSize - 1)) / pgSize)).map fun i => start + i * pgSize

namespace Pgdir

def lookup (pd : Pgdir) (va : Nat) : Option Pte :=
  match pd (pdx va) with
  | none => none
  | some pde => pde.entries (ptx va)

def setPde (pd : Pgdir) (i : Nat) (e : Option Pde) : Pgdir := Function.update pd i e

def setPte (pd : Pgdir) (va : Nat) (e : Option Pte) : Pgdir :=
  match pd (pdx va) with
  | none => pd
  | some pde =>
    pd.setPde (pdx va) (some { pde with entries := Function.update pde.entries (ptx va) e })

def walkaddr (pd : Pgdir) (va : Nat) : Option Nat :=
  match pd.lookup va with
  | none => none
  | some pte => if pte.perm.u then some pte.frame else none

end Pgdir

structure Space where
  phys : Phys
  pd : Pgdir

namespace Space

def walk (s : Space) (va : Nat) (alloc user : Bool) : Space × Bool :=
  match s.pd (pdx va) with
  | some _ => (s,true)
  | none =>
    if alloc then
      match s.phys.allocPage with
      | (ph,none) => ({ s with phys := ph },false)
      | (ph,some f) =>
        ({ phys := ph, pd := s.pd.setPde (pdx va) (some ⟨f,user,fun _ => none⟩) },true)
    else (s,false)

def mapPage (s : Space) (a frame : Nat) (perm : Perm) (user : Bool) : Space × Bool :=
  match s.walk a true user with
  | (s,false) => (s,false)
  | (s,true) =>
    match s.pd.lookup a with
    | some _ => (s,false)
    | none => ({ s with pd := s.pd.setPte a (some ⟨frame,perm⟩) },true)

def mappages (s : Space) (va size frame : Nat) (perm : Perm) (user : Bool) : Space × Bool :=
  if va % pgSize ≠ 0 ∨ size = 0 ∨ size % pgSize ≠ 0 then (s,false)
  else
    Loop.forEach (fun i s => s.mapPage ((va + i * pgSize) % word) (frame + i) perm user)
      (List.range (size / pgSize)) s

def unmapPage (s : Space) (a : Nat) (doFree allowMissing : Bool) : Space × Bool :=
  match s.pd.lookup a with
  | none => (s,allowMissing)
  | some pte =>
    ({ phys := if doFree then s.phys.putPage pte.frame else s.phys, pd := s.pd.setPte a none },true)

def unmappages (s : Space) (va npages : Nat) (doFree allowMissing : Bool) : Space × Bool :=
  if va % pgSize ≠ 0 ∨ npages = 0 then (s,false)
  else
    Loop.forEach (fun a s => s.unmapPage a doFree allowMissing)
      (pageRange va ((va + npages * pgSize) % word)) s

def uvmmap (s : Space) (va frame size : Nat) (perm : Perm) : Space × Bool :=
  s.mappages va size frame { perm with u := true } true

def uvmunmap (s : Space) (va npages : Nat) (doFree : Bool) : Space × Bool :=
  s.unmappages va npages doFree true

def mapNewPage (s : Space) (va : Nat) (w : Bool) : Space × Option Nat :=
  match s.phys.allocUser with
  | (ph,none) => ({ s with phys := ph },none)
  | (ph,some f) =>
    match Space.uvmmap ⟨ph,s.pd⟩ va f pgSize ⟨w,false,false⟩ with
    | (s,true) => (s,some f)
    | (s,false) => ({ s with phys := s.phys.putPage f },none)

end Space

def uvmcreate (ph : Phys) (kernelPgdir : Pgdir) : Phys × Option (Nat × Pgdir) :=
  match ph.allocPage with
  | (ph,none) => (ph,none)
  | (ph,some f) =>
    (ph,some (f,fun i => if pdx kernBase ≤ i ∧ i < maxKernelPt then kernelPgdir i else none))

def uvmfreePte (e : Option Pte) (ph : Phys) : Phys :=
  match e with
  | none => ph
  | some pte => ph.putPage pte.frame

def uvmfreePde (e : Option Pde) (ph : Phys) : Phys :=
  match e with
  | none => ph
  | some pde =>
    if pde.user then
      ((List.range 1024).foldl (fun ph j => uvmfreePte (pde.entries j) ph) ph).putPage pde.table
    else ph

def uvmfree (ph : Phys) (dir : Nat) (pd : Pgdir) : Phys :=
  ((List.range (pdx (userEnd - 1) + 1)).foldl (fun ph i => uvmfreePde (pd i) ph) ph).putPage dir

theorem ptx_lt (va : Nat) : ptx va < 1024 := Nat.mod_lt _ (by decide)

theorem pdx_lt_of_user {va : Nat} (h : va < userEnd) : pdx va < 768 := by
  simp only [pdx,userEnd,kernBase] at *
  omega

theorem pdx_ge_of_kernel {va : Nat} (h : userEnd ≤ va) (hw : va < word) : 768 ≤ pdx va := by
  simp only [pdx,userEnd,kernBase,word] at *
  omega

theorem index_eq_iff {va va' : Nat} (h : va < word) (h' : va' < word) :
    (pdx va' = pdx va ∧ ptx va' = ptx va) ↔ va' / pgSize = va / pgSize := by
  simp only [pdx,ptx,pgSize,word] at *
  omega

theorem mem_pageRange {start stop a : Nat} :
    a ∈ pageRange start stop ↔ ∃ i, a = start + i * pgSize ∧ a < stop := by
  simp only [pageRange,List.mem_map,List.mem_range,pgSize]
  constructor
  · rintro ⟨i,hi,rfl⟩
    exact ⟨i,rfl,by omega⟩
  · rintro ⟨i,rfl,hlt⟩
    exact ⟨i,by omega,rfl⟩

namespace Pgdir

variable {pd : Pgdir} {va va' : Nat} {e : Option Pte}

theorem setPde_apply (pd : Pgdir) (i : Nat) (e : Option Pde) (j : Nat) :
    pd.setPde i e j = if j = i then e else pd j :=
  Function.update_apply _ _ _ _

theorem lookup_setPte (h : pd (pdx va) ≠ none) (hw : va < word) (hw' : va' < word) :
    (pd.setPte va e).lookup va' = if va' / pgSize = va / pgSize then e else pd.lookup va' := by
  obtain ⟨pde,hpde⟩ := Option.ne_none_iff_exists'.mp h
  simp only [← index_eq_iff hw hw',lookup,setPte,hpde,setPde_apply]
  by_cases hd : pdx va' = pdx va
  · by_cases ht : ptx va' = ptx va
    · simp [hd,ht]
    · simp [hd,ht,hpde]
  · simp [hd]

theorem setPte_ne_none {i : Nat} (h : pd i ≠ none) : pd.setPte va e i ≠ none := by
  rcases hp : pd (pdx va) with _ | pde
  · simpa only [setPte,hp] using h
  simp only [setPte,hp,setPde_apply]
  split
  · simp
  · exact h

theorem lookup_eq_of_page (hw : va < word) (hw' : va' < word)
    (h : va' / pgSize = va / pgSize) : pd.lookup va' = pd.lookup va := by
  obtain ⟨hd,ht⟩ := (index_eq_iff hw hw').mpr h
  simp only [lookup,hd,ht]

theorem pde_of_lookup {pte : Pte} (h : pd.lookup va = some pte) :
    ∃ pde, pd (pdx va) = some pde ∧ pde.entries (ptx va) = some pte := by
  simp only [lookup] at h
  split at h
  · cases h
  · exact ⟨_,‹_›,h⟩

end Pgdir

end TinyOs
