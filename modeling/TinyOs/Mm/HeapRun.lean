import TinyOs.Mm.HeapRep

namespace TinyOs.KernelHeap

open Function (update update_of_ne update_self)
open LinkedList List
open Dyadic (Block)
open Buddy (maxOrder)
open Slab hiding kmalloc kmallocPages cacheRefill takeBlock kfree kmemInit

variable {s s' : Heap} {m m' : Kmem} {slabs : List Nat} {cls : Nat → Nat}
  {live : List (Grant Ptr)} {h h' : Ptr} {g : Grant Ptr} {k : Kernel}
  {idx i j bytes page order size x : Nat} {mem : Mem}

theorem clear_byte {a n : Nat} (h : ¬ (a ≤ x ∧ x < a + n)) : clear mem a n x = mem x := if_neg h

namespace Rep

theorem setKernel (hr : Rep s m live) (hk : k.phys.pmm.memStart = s.kernel.phys.pmm.memStart ∧
    k.phys.pmm.nrPages = s.kernel.phys.pmm.nrPages) :
    Rep { s with kernel := k } { m with kernel := k } live := by
  have hbase : Heap.base { s with kernel := k } = s.base := hk.1
  refine ⟨rfl,hr.count,?_,?_,?_,?_,?_⟩
  · rw [hbase]
    exact hr.low
  · rw [hbase]
    dsimp only
    rw [hk.2]
    exact hr.high
  · rw [hbase]
    exact hr.ring
  · rw [hbase]
    exact hr.size
  · rw [hbase]
    exact hr.magic

theorem frame_fresh (hr : Rep s m live) (hc : Cut m slabs cls live)
    (hf : Ok.Fresh m slabs (live.map Grant.ptr) k page order)
    (hmem : ∀ x, ¬ ((blockExtent s.base ⟨page,order⟩).lo ≤ x ∧
      x < (blockExtent s.base ⟨page,order⟩).hi) → mem x = s.mem x) :
    Rep { s with mem := mem } m live := by
  refine hr.frame ?_ hmem fun hq => ?_
  · simp only [blockExtent]
    omega
  have hb := hr.known_high hc hq
  rcases hq.fresh hc hf s.base with ha | ha <;> simp only [extent] at ha <;> omega

theorem add (hr : Rep s m live) (hnot : h ∉ live.map Grant.ptr) {y : Nat} {o : Origin}
    (hsize : rd s.mem (addr s.base h + 8) = y) (hmagic : rd s.mem (addr s.base h + 12) = kmagic) :
    Rep s { m with hdr := update m.hdr h (some y) } (⟨h,size,o⟩ :: live) := by
  refine ⟨hr.kernel,hr.count,hr.low,hr.high,hr.ring,fun g hg x hx => ?_,fun g hg => ?_⟩
  · rcases mem_cons.1 hg with rfl | hg
    · dsimp only at hx ⊢
      rw [update_self] at hx
      exact hsize.trans (Option.some.inj hx)
    have hin : g.ptr ∈ live.map Grant.ptr := mem_map_of_mem hg
    have hne : g.ptr ≠ h := fun he => hnot (he ▸ hin)
    dsimp only at hx
    rw [update_of_ne hne] at hx
    exact hr.size g hg x hx
  · rcases mem_cons.1 hg with rfl | hg
    · exact hmagic
    · exact hr.magic g hg

theorem drop {o : Origin} (hr : Rep s m (⟨h,size,o⟩ :: live))
    (hc : Cut m slabs cls (⟨h,size,o⟩ :: live)) :
    Rep s { m with hdr := update m.hdr h none } live := by
  refine ⟨hr.kernel,hr.count,hr.low,hr.high,hr.ring,fun g hg x hx => ?_,
    fun g hg => hr.magic g (mem_cons_of_mem _ hg)⟩
  dsimp only at hx
  rw [update_of_ne (hc.ptr_ne hg)] at hx
  exact hr.size g (mem_cons_of_mem _ hg) x hx

theorem freePages {order : Nat} (hr : Rep s m (⟨h,size,.pages order⟩ :: live))
    (hc : Cut m slabs cls (⟨h,size,.pages order⟩ :: live))
    (hk : m.kernel.freePages h order = some k) :
    Rep { s with kernel := k, mem := wr s.mem (addr s.base h + 12) 0 }
      { m with kernel := k, hdr := update m.hdr h none } live := by
  have hh : Known m.free (⟨h,size,.pages order⟩ :: live) h (pgSize * 2 ^ order) :=
    .live (g := ⟨h,size,.pages order⟩) mem_cons_self
  have hbase := (hr.known_high hc hh).2.1
  have hframe := (hr.drop hc).frame (show s.base ≤ addr s.base h + 12 by omega)
    (fun x hx => wr_of_not_mem (v := 0) hx) fun {q b} hq => by
      have hknown : Known m.free (⟨h,size,.pages order⟩ :: live) q b ∧ q ≠ h := by
        cases hq with
        | @free q i hm => exact ⟨.free hm,fun he => (hc.ok.free i q hm).2 (he ▸ mem_cons_self)⟩
        | live hg => exact ⟨.live (mem_cons_of_mem _ hg),hc.ptr_ne hg⟩
      have hfar := hr.far hc hknown.1 hh hknown.2
      omega
  have hrange := kernel_freePages_range hk
  rw [← hr.kernel] at hrange
  exact hframe.setKernel hrange

theorem allocPages_some {a : Nat} (hr : Rep s m live) (hc : Cut m slabs cls live)
    (ha : KernelHeap.allocPages s order = (s',some a)) :
    ∃ k page, m.kernel.allocPages order = (k,some page) ∧
      Ok.Fresh m slabs (live.map Grant.ptr) k page order ∧ a = addr s.base ⟨page,0⟩ ∧
      s'.base = s.base ∧ ∀ mem : Mem, (∀ x, ¬ (a ≤ x ∧ x < a + pgSize * 2 ^ order) →
        mem x = s'.mem x) → Rep { s' with mem := mem } { m with kernel := k } live := by
  unfold KernelHeap.allocPages at ha
  split at ha
  · exact nomatch ha
  rename_i k page hk
  have hrange := kernel_allocPages_range hk
  rw [hr.kernel] at hk
  have hf := hc.ok.allocPages_some hk
  cases ha
  refine ⟨k,page,hk,hf,?_,hrange.1,?_⟩
  · rw [hrange.1]
    rfl
  intro mem hmem
  refine (hr.frame_fresh hc hf fun x hx => ?_).setKernel hrange
  rw [hrange.1] at hmem
  rw [hmem x hx]
  exact clear_byte hx

theorem allocPages_none (hr : Rep s m live) (hc : Cut m slabs cls live)
    (ha : KernelHeap.allocPages s order = (s',none)) :
    ∃ k, m.kernel.allocPages order = (k,none) ∧ s'.base = s.base ∧
      Cut { m with kernel := k } slabs cls live ∧ Rep s' { m with kernel := k } live := by
  unfold KernelHeap.allocPages at ha
  split at ha
  · rename_i k hk
    have hrange := kernel_allocPages_range hk
    rw [hr.kernel] at hk
    cases ha
    have hok := hc.ok.allocPages_none hk
    refine ⟨k,hk,hrange.1,⟨hok,hc.free,fun g hg => ?_,hc.count⟩,hr.setKernel hrange⟩
    exact (hc.given g hg).transfer rfl rfl Iff.rfl fun _ lt hdr hpos _ =>
      (hok.handed g.ptr (mem_map_of_mem hg)).block lt hdr hpos
  · exact nomatch ha

theorem carve (hr : Rep s m live) (hc : Cut m slabs cls live) (hidx : idx < 7)
    (hapart : ∀ {q b}, Known m.free live q b → addr s.base q + 32 ≤ addr s.base ⟨page,0⟩ ∨
      addr s.base ⟨page,0⟩ + pgSize ≤ addr s.base q)
    (hhigh : addr s.base ⟨page,0⟩ + pgSize ≤ word) :
    Rep { s with
      mem := KernelHeap.carve s.mem (addr s.base ⟨page,0⟩) (bsize idx) (head s.cache idx)
        (pgSize / bsize idx)
      nrKfree := s.nrKfree + pgSize / bsize idx }
      { m with
        free := update m.free idx (blocks page (bsize idx) ++ m.free idx)
        nrKfree := m.nrKfree + pgSize / bsize idx } live := by
  have hb := bsize_ge hidx
  have hdiv : pgSize / bsize idx * bsize idx ≤ pgSize := Nat.div_mul_le_self _ _
  have hpage : s.base ≤ addr s.base ⟨page,0⟩ := by
    simp only [addr]
    omega
  have hspread := hr.spread hc hidx (hc.ok.distinct idx) fun q hq => ⟨_,.free hq⟩
  have hspec := carve_spec (addr s.base ⟨page,0⟩) (bsize idx) (pgSize / bsize idx)
    (hr.ring idx hidx) hspread (by omega) (by omega) (fun y hy => by
      rcases mem_cons.1 hy with rfl | hy
      · have hlow := hr.head_low hidx
        omega
      obtain ⟨q,hq,rfl⟩ := mem_map.1 hy
      have := hapart (.free hq)
      omega) le_rfl
  generalize KernelHeap.carve s.mem (addr s.base ⟨page,0⟩) (bsize idx) (head s.cache idx)
    (pgSize / bsize idx) = mem' at hspec
  have he : Edits s m idx (addr s.base ⟨page,0⟩) (addr s.base ⟨page,0⟩ + pgSize) mem' :=
    ⟨hidx,hpage,fun x hx hin => hspec.byte x hx (by omega)⟩
  have hout : ∀ {q b}, Known m.free live q b → addr s.base q + 16 ≤ addr s.base ⟨page,0⟩ ∨
      addr s.base ⟨page,0⟩ + pgSize ≤ addr s.base q := fun hq => (hapart hq).imp_left (by omega)
  refine he.rep hr hc (congrArg (· + _) hr.count) ?_ (fun i _ q hq => hout (.free hq))
    fun g hg => he.header hr hc hg (hout (.live hg))
  have hblocks : (blocks page (bsize idx)).map (addr s.base) =
      ((List.range (pgSize / bsize idx)).map fun j =>
        addr s.base ⟨page,0⟩ + j * bsize idx).reverse := by
    rw [blocks,map_reverse,map_map]
    rfl
  rw [map_append,hblocks]
  exact hspec.ring

theorem refill (hr : Rep s m live) (hc : Cut m slabs cls live) (hidx : idx < 7)
    (hs : KernelHeap.cacheRefill s idx = .ok s') :
    ∃ m' page, Slab.cacheRefill m idx = .ok m' ∧ s'.base = s.base ∧
      Cut m' (page :: slabs) (update cls page idx) live ∧ Rep s' m' live := by
  unfold KernelHeap.cacheRefill at hs
  split at hs
  · exact nomatch hs
  rename_i t a ha
  obtain ⟨k,page,hk,hf,rfl,hbase,hrep⟩ := hr.allocPages_some hc ha
  have hr' : Rep t { m with kernel := k } live := hrep t.mem fun _ _ => rfl
  cases hs
  have hc' := hc.setKernel hf
  refine ⟨_,page,by rw [Slab.cacheRefill,hk],hbase,hc.refill hidx hf,?_⟩
  have hapart : ∀ {q b}, Known m.free live q b → addr t.base q + 32 ≤ addr t.base ⟨page,0⟩ ∨
      addr t.base ⟨page,0⟩ + pgSize ≤ addr t.base q := by
    intro q b hq
    have hbound := hr.known_high hc hq
    rw [hbase]
    rcases hq.fresh hc hf s.base with ha | ha <;>
      simp only [extent,blockExtent,addr,pow_zero,mul_one,add_zero]
        at ha hbound ⊢ <;>
      omega
  have hfits := Nat.mul_le_mul_right pgSize (hc'.wf.inRange_live hf.block).fits
  rw [← hbase]
  exact hr'.carve hc' hidx hapart (by
    have hhigh := hr'.high
    rw [hr'.kernel] at hhigh
    dsimp only at hhigh
    simp only [pow_zero,add_mul,one_mul] at hfits
    simp only [addr,add_zero]
    omega)

end Rep

end TinyOs.KernelHeap
