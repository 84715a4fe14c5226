import TinyOs.Mm.HeapSteps

namespace TinyOs.KernelHeap

open Function (comp_apply update update_of_ne update_self)
open LinkedList List Option Machine
open Dyadic (Block)
open Buddy (maxOrder)
open Slab hiding kmalloc kmallocPages cacheRefill takeBlock kfree kmemInit

variable {s s' : State} {m m' : Kmem} {live live' : List (Grant Ptr)} {g : Grant Nat}
  {q : Grant Ptr} {size : Nat} {lists : Nat → List Nat}

def State.extents (s : State) (lists : Nat → List Nat) : List Extent :=
  (s.live.map fun g => ⟨g.ptr - sizeofKhdr,g.ptr - sizeofKhdr + g.origin.bytes⟩) ++
    ((List.range 7).flatMap fun i => (lists i).map fun a => ⟨a,a + bsize i⟩) ++
    (List.range maxOrder).flatMap fun o =>
      (s.heap.kernel.phys.pmm.freeList o).map fun p => blockExtent s.heap.base ⟨p,o⟩

def Returned (s s' : Heap) (lists : Nat → List Nat) (g : Grant Nat) : Prop :=
  let h := g.ptr - sizeofKhdr
  match g.origin with
  | .cls idx =>
    s'.kernel = s.kernel ∧ ∀ i < 7,
      Ring s'.mem (head s'.cache i) (update lists idx (h :: lists idx) i)
  | .pages order =>
    s.kernel.freePages (ptrAt s.base h) order = some s'.kernel ∧
      ∀ i < 7, Ring s'.mem (head s'.cache i) (lists i)

structure Sound (s : State) (lists : Nat → List Nat) : Prop where
  ring : ∀ i < 7, Ring s.heap.mem (head s.heap.cache i) (lists i)
  room : ∀ g ∈ s.live, g.size + sizeofKhdr ≤ g.origin.bytes
  apart : (s.extents lists).Pairwise Extent.Apart
  returned : ∀ g ∈ s.live, ∃ t, kfree s.heap g.ptr = .ok t ∧ Returned s.heap t lists g
  count : s.heap.nrKfree = ∑ i ∈ Finset.range 7, (lists i).length

def placeAt (base : Nat) (g : Grant Ptr) : Grant Nat := ⟨addr base g.ptr + sizeofKhdr,g.size,g.origin⟩

structure Inv (s : State) (m : Kmem) (live : List (Grant Ptr)) : Prop where
  holds : Holds s.heap m live
  live : s.live.Perm (live.map (placeAt s.heap.base))

theorem Inv.grant (hi : Inv s m live) {t : Heap} {r : Result} {p : Option Ptr}
    (hg : Gives s.heap.base size live r p live') (hbase : t.base = s.heap.base)
    (hh : Holds t m' live') : Inv (s.grant size (t,r)).1 m' live' := by
  refine ⟨hh,?_⟩
  cases hg with
  | none =>
    simp only [State.grant,map_none,toList_none,nil_append,hbase]
    exact hi.live
  | some h o =>
    simp only [State.grant,map_some,toList_some,singleton_append,hbase]
    exact hi.live.cons _

theorem Inv.find {ptr : Nat} (hi : Inv s m live) (hf : s.live.find? (fun g => g.ptr == ptr) = some g) :
    ∃ q rest, g = placeAt s.heap.base q ∧ live.Perm (q :: rest) ∧
      (s.live.erase g).Perm (rest.map (placeAt s.heap.base)) := by
  have hmem := mem_of_find?_eq_some hf
  obtain ⟨q,hq,rfl⟩ := mem_map.1 (hi.live.mem_iff.1 hmem)
  refine ⟨q,live.erase q,rfl,perm_cons_erase hq,?_⟩
  have hperm : (placeAt s.heap.base q :: s.live.erase (placeAt s.heap.base q)).Perm
      (placeAt s.heap.base q :: (live.erase q).map (placeAt s.heap.base)) :=
    (perm_cons_erase hmem).symm.trans
      (hi.live.trans ((perm_cons_erase hq).map (placeAt s.heap.base)))
  exact hperm.cons_inv

theorem Inv.granted {call : Except Panic (Heap × Result)} {out : Option Nat} (hi : Inv s m live)
    (hcall : ∀ t r, call = .ok (t,r) → ∃ m' p live', Gives s.heap.base size live r p live' ∧
      t.base = s.heap.base ∧ Holds t m' live')
    (hs : call.toOption.map (s.grant size) = some (s',out)) : ∃ m' live', Inv s' m' live' := by
  cases call with
  | error x => exact nomatch hs
  | ok r =>
    obtain ⟨m',p,live',hg,hbase,hh⟩ := hcall r.1 r.2 rfl
    have hs' := hi.grant hg hbase hh
    rw [show s.grant size (r.1,r.2) = (s',out) from some.inj hs] at hs'
    exact ⟨m',live',hs'⟩

theorem Inv.step {op : Op} {out : Option Nat} (hi : Inv s m live)
    (hs : step s op = some (s',out)) : ∃ m' live', Inv s' m' live' := by
  cases op with
  | kmalloc size =>
    obtain ⟨hle,hs⟩ := ite_none_right_eq_some.1 hs
    refine hi.granted (fun t r hk => ?_) hs
    obtain ⟨m',p,live',-,hg,hbase,hh⟩ := hi.holds.kmalloc hle hk
    exact ⟨m',p,live',hg,hbase,hh⟩
  | kcalloc n size =>
    obtain ⟨hle,hs⟩ := ite_none_right_eq_some.1 hs
    exact hi.granted (fun _ _ hk => hi.holds.kcalloc hle hk) hs
  | kfree ptr =>
    obtain ⟨g,hf,hs⟩ := bind_eq_some_iff.1 hs
    have hptr : g.ptr = ptr := by simpa using find?_some hf
    obtain ⟨q,rest,rfl,hperm,hrest⟩ := hi.find hf
    obtain ⟨t,m',hk,-,hbase,-,hh,-⟩ := (hi.holds.perm hperm).kfree
    have hcall : kfree s.heap ptr = .ok t := hptr ▸ hk
    rw [hcall] at hs
    obtain ⟨rfl,-⟩ := Prod.mk.inj (some.inj hs)
    refine ⟨m',rest,hh,?_⟩
    change (s.live.erase _).Perm (rest.map (placeAt t.base))
    rw [hbase]
    exact hrest
  | write a b =>
    obtain ⟨hany,hs⟩ := ite_none_right_eq_some.1 hs
    obtain ⟨g,hg,ha⟩ := any_eq_true.1 hany
    obtain ⟨q,hq,rfl⟩ := mem_map.1 (hi.live.mem_iff.1 hg)
    have hin := of_decide_eq_true ha
    simp only [placeAt] at hin
    obtain ⟨⟨slabs,cls,hc⟩,hr⟩ := hi.holds
    have hr' := hr.frame_payload hc hq fun x hx =>
      show update s.heap.mem a b x = _ from update_of_ne (fun he => hx (by omega)) _ _
    generalize update s.heap.mem a b = mem at hs hr'
    obtain ⟨rfl,-⟩ := Prod.mk.inj (some.inj hs)
    exact ⟨m,live,⟨⟨slabs,cls,hc⟩,hr'⟩,hi.live⟩

def listsOf (base : Nat) (free : Nat → List Ptr) (i : Nat) : List Nat := (free i).map (addr base)

theorem listsOf_update {base : Nat} {free : Nat → List Ptr} {idx : Nat} {h : Ptr} (i : Nat) :
    listsOf base (update free idx (h :: free idx)) i =
      update (listsOf base free) idx (addr base h :: listsOf base free idx) i := by
  by_cases hi : i = idx
  · subst hi
    rw [listsOf,update_self,update_self]
    rfl
  · rw [listsOf,update_of_ne hi,update_of_ne hi]
    rfl

theorem Inv.extents_perm (hi : Inv s m live) : (s.extents (listsOf s.heap.base m.free)).Perm
      (Slab.extents s.heap.base live m.free m.kernel.phys.pmm.freeList) := by
  have hlive := hi.live.map fun g : Grant Nat =>
    (⟨g.ptr - sizeofKhdr,g.ptr - sizeofKhdr + g.origin.bytes⟩ : Extent)
  rw [List.map_map] at hlive
  have hgrant : live.map ((fun g : Grant Nat =>
      (⟨g.ptr - sizeofKhdr,g.ptr - sizeofKhdr + g.origin.bytes⟩ : Extent)) ∘ placeAt s.heap.base) =
      live.map fun g => extent s.heap.base g.ptr g.origin.bytes := by
    apply map_congr_left
    intro g hg
    simp only [comp_apply,placeAt,Nat.add_sub_cancel,extent]
  have hfree : ((List.range 7).flatMap fun i => (listsOf s.heap.base m.free i).map fun a =>
        (⟨a,a + bsize i⟩ : Extent)) =
      (List.range 7).flatMap fun i => (m.free i).map fun h => extent s.heap.base h (bsize i) := by
    congr 1
    funext i
    rw [listsOf,List.map_map]
    rfl
  rw [State.extents,Slab.extents,hfree,hi.holds.rep.kernel]
  exact ((hgrant ▸ hlive).append_right _).append_right _

theorem Inv.returned (hi : Inv s m live) (hg : g ∈ s.live) :
    ∃ t, kfree s.heap g.ptr = .ok t ∧ Returned s.heap t (listsOf s.heap.base m.free) g := by
  obtain ⟨q,hq,rfl⟩ := mem_map.1 (hi.live.mem_iff.1 hg)
  obtain ⟨t,m',hk,-,hbase,hcache,hh,hback⟩ := (hi.holds.perm (perm_cons_erase hq)).kfree
  refine ⟨t,hk,?_⟩
  have hring := hh.rep.ring
  rw [hbase] at hring
  have hoff : ∀ order, q.origin = .pages order → q.ptr.off = 0 := by
    intro order ho
    obtain ⟨⟨slabs,cls,hc⟩,-⟩ := hi.holds
    cases hc.given q hq with
    | small hdr page placed room => exact nomatch ho
    | pages lt hdr off cut block room => exact off
  unfold Returned
  simp only [placeAt,Nat.add_sub_cancel]
  cases ho : q.origin with
  | cls idx =>
    rw [ho] at hback
    obtain ⟨hkernel,hfree⟩ := hback
    dsimp only
    refine ⟨by rw [hh.rep.kernel,hkernel,hi.holds.rep.kernel],fun i hi => ?_⟩
    rw [← listsOf_update,← hfree]
    exact hring i hi
  | pages order =>
    rw [ho] at hback
    obtain ⟨hkernel,hfree⟩ := hback
    dsimp only
    rw [ptrAt_addr (hoff order ho),hi.holds.rep.kernel,hh.rep.kernel]
    refine ⟨hkernel,fun i hi => ?_⟩
    rw [← hfree]
    exact hring i hi

theorem Inv.sound (hi : Inv s m live) : Sound s (listsOf s.heap.base m.free) where
  ring := hi.holds.rep.ring
  room g hg := by
    obtain ⟨q,hq,rfl⟩ := mem_map.1 (hi.live.mem_iff.1 hg)
    exact hi.holds.base_le hq
  apart := by
    obtain ⟨slabs,cls,hc⟩ := hi.holds.cut
    exact (hi.extents_perm.pairwise_iff fun h => Std.Symm.symm _ _ h).2 hc.extents_apart
  returned g hg := hi.returned hg
  count := by
    obtain ⟨slabs,cls,hc⟩ := hi.holds.cut
    rw [hi.holds.rep.count,hc.count,freeBlocks]
    exact Finset.sum_congr rfl fun i _ => (length_map ..).symm

theorem initHeads_ring (mem : Mem) {cache n : Nat} (hfits : cache + 7 * sizeofKcache ≤ word)
    (hn : n ≤ 7) : ∀ i < n, Ring (initHeads mem cache n) (head cache i) [] := by
  induction n with
  | zero => exact fun i hi => absurd hi (Nat.not_lt_zero i)
  | succ n ih =>
    intro i hi
    rw [initHeads]
    rcases Nat.lt_succ_iff_lt_or_eq.1 hi with hlt | rfl
    · refine (ih (Nat.le_of_succ_le hn) i hlt).congr fun y hy j hj => initList_byte ?_
      have hfar := head_apart hlt.ne cache
      rw [mem_singleton.1 hy]
      omega
    · refine ring_init ?_
      have hw : word = 2 ^ 32 := rfl
      simp only [head,sizeofKcache] at hfits ⊢
      omega

theorem boot_inv {k : Kernel} {mem : Mem} {cache : Nat} (hk : k.Inv)
    (hlow : cache + 7 * sizeofKcache ≤ k.phys.pmm.memStart)
    (hhigh : k.phys.pmm.memStart + k.phys.pmm.nrPages * pgSize ≤ word) :
    Inv (boot k mem cache) (Slab.kmemInit k) [] := by
  have hfits : cache + 7 * sizeofKcache ≤ word := by omega
  have hring := initHeads_ring mem hfits le_rfl
  unfold boot kmemInit
  generalize initHeads mem cache 7 = mem' at hring
  exact ⟨⟨⟨[],fun _ => 0,Cut.init hk⟩,rfl,rfl,hlow,hhigh,hring,nofun,nofun⟩,List.Perm.refl _⟩

theorem kernel_heap_invariant {kernelEnd top cache : Nat} {pages : Nat → Nat → UInt8} {kpd : Pgdir}
    {k : Kernel} {mem : Mem} {ops : List Op} {out : List (Option Nat)} (hkpd : kpd.Supervisor)
    (hboot : TinyOs.boot kernelEnd top pages kpd = some k)
    (hcache : cache + 7 * sizeofKcache ≤ k.phys.pmm.memStart)
    (hrun : run step (boot k mem cache) ops = some (s,out)) :
    ∃ lists, Sound s lists := by
  have hinv := Kernel.boot_inv hkpd hboot
  obtain ⟨pmm,hpmm,rfl⟩ := map_eq_some_iff.1 hboot
  have hbooted := Buddy.pmmInit_booted hpmm
  have hhigh : pmm.memStart + pmm.nrPages * pgSize ≤ word := by
    rw [← hbooted.memEnd]
    exact hbooted.high.trans (by decide)
  have hstart : ∃ m live, Inv (boot _ mem cache) m live := ⟨_,_,boot_inv hinv hcache hhigh⟩
  obtain ⟨m,live,hi⟩ := run_preserves (I := fun s => ∃ m live, Inv s m live)
    (fun s a s' o ⟨m,live,hi⟩ hs => hi.step hs) hstart hrun
  exact ⟨_,hi.sound⟩

theorem kernel_heap_invariant_freed : ∃ k s out,
    TinyOs.boot 0x102000 0x180000 (fun _ _ => 0) (fun _ => none) = some k ∧
      run step (boot k (fun _ => 0) 0x100000) [.kmalloc 2000,.kcalloc 3 1000,
        .write 1570833 7,.kfree 1570832,.kfree 1552400] = some (s,out) ∧
      s.heap.nrKfree = 2 ∧ ∃ lists, Sound s lists := by
  have hrun : ((TinyOs.boot 0x102000 0x180000 (fun _ _ => 0) (fun _ => none)).any fun k =>
      decide (0x100000 + 7 * sizeofKcache ≤ k.phys.pmm.memStart) &&
        (run step (boot k (fun _ => 0) 0x100000) [.kmalloc 2000,.kcalloc 3 1000,
          .write 1570833 7,.kfree 1570832,.kfree 1552400]).any fun r =>
            r.1.heap.nrKfree == 2) = true := by
    decide +kernel
  obtain ⟨k,hk,hrun⟩ := (any_eq_true _ _).1 hrun
  obtain ⟨hcache,hrun⟩ := Bool.and_eq_true_iff.1 hrun
  obtain ⟨⟨s,out⟩,hs,hcount⟩ := (any_eq_true _ _).1 hrun
  exact ⟨k,s,out,hk,hs,beq_iff_eq.1 hcount,
    kernel_heap_invariant Kernel.supervisor_empty hk (of_decide_eq_true hcache) hs⟩

end TinyOs.KernelHeap
