import TinyOs.Mm.Heap

namespace TinyOs.KernelHeap

open Function (update update_of_ne update_self)
open LinkedList List Buddy
open Dyadic (Block)
open Slab hiding kmalloc kmallocPages cacheRefill takeBlock kfree kmemInit

variable {order a size : Nat}

theorem allocPages_range (s : Pmm) (order : Nat) :
    (Buddy.allocPages s order).1.memStart = s.memStart ∧
      (Buddy.allocPages s order).1.nrPages = s.nrPages := by
  unfold Buddy.allocPages
  split
  · exact ⟨rfl,rfl⟩
  split
  · exact ⟨rfl,rfl⟩
  rename_i o _ _ page rest _
  have hkept := splitLoop_kept (o - order) (freeAreaDel s page o) page order
  exact ⟨hkept.memStart,hkept.nrPages⟩

theorem freePages_range {s t : Pmm} {page : Nat} (h : freePages s page order = some t) :
    t.memStart = s.memStart ∧ t.nrPages = s.nrPages := by
  have hone : ∀ (u : Pmm) (page order : Nat),
      (freeOnePage u page order).memStart = u.memStart ∧
        (freeOnePage u page order).nrPages = u.nrPages := fun u page order =>
    ⟨(mergeLoop_kept maxOrder u page order).memStart,
      (mergeLoop_kept maxOrder u page order).nrPages⟩
  unfold freePages at h
  obtain ⟨-,h⟩ := Option.ite_none_left_eq_some.mp h
  split at h
  · unfold putPage at h
    split at h
    · exact nomatch h
    split at h
    · exact nomatch h
    dsimp only at h
    split at h
    · cases h
      exact hone _ _ _
    · cases h
      exact ⟨rfl,rfl⟩
  · cases h
    exact hone _ _ _

theorem kernel_allocPages_range {k k' : Kernel} {r : Option Nat} (h : k.allocPages order = (k',r)) :
    k'.phys.pmm.memStart = k.phys.pmm.memStart ∧ k'.phys.pmm.nrPages = k.phys.pmm.nrPages := by
  obtain ⟨rfl,-⟩ := Prod.mk.inj h
  have hr := allocPages_range k.phys.pmm order
  unfold Kernel.kalloc
  split
  · rename_i t ht
    rw [ht] at hr
    exact hr
  · rename_i t f ht
    rw [ht] at hr
    exact hr

theorem kernel_freePages_range {k k' : Kernel} {h : Ptr} (hf : k.freePages h order = some k') :
    k'.phys.pmm.memStart = k.phys.pmm.memStart ∧ k'.phys.pmm.nrPages = k.phys.pmm.nrPages := by
  unfold Kernel.freePages at hf
  split at hf
  · exact nomatch hf
  obtain ⟨t,ht,rfl⟩ := Option.map_eq_some_iff.1 hf
  rw [Kernel.kfree,ht]
  exact freePages_range ht

variable {s s' : Heap} {m m' : Kmem} {slabs : List Nat} {cls : Nat → Nat}
  {live : List (Grant Ptr)} {h h' : Ptr} {g : Grant Ptr} {idx i j bytes bytes' x : Nat} {mem : Mem}

structure Rep (s : Heap) (m : Kmem) (live : List (Grant Ptr)) : Prop where
  kernel : s.kernel = m.kernel
  count : s.nrKfree = m.nrKfree
  low : s.cache + 7 * sizeofKcache ≤ s.base
  high : s.base + s.kernel.phys.pmm.nrPages * pgSize ≤ word
  ring : ∀ i < 7, Ring s.mem (head s.cache i) ((m.free i).map (addr s.base))
  size : ∀ g ∈ live, ∀ x, m.hdr g.ptr = some x → rd s.mem (addr s.base g.ptr + 8) = x
  magic : ∀ g ∈ live, rd s.mem (addr s.base g.ptr + 12) = kmagic

theorem head_apart (hij : i ≠ j) (cache : Nat) :
    head cache i + 12 ≤ head cache j ∨ head cache j + 12 ≤ head cache i := by
  simp only [head,sizeofKcache]
  omega

namespace Rep

theorem head_low (hr : Rep s m live) (hi : i < 7) : head s.cache i + 8 ≤ s.base := by
  have hlow := hr.low
  simp only [head,sizeofKcache] at hlow ⊢
  omega

theorem known_high (hr : Rep s m live) (hc : Cut m slabs cls live) (hh : Known m.free live h bytes) :
    32 ≤ bytes ∧ s.base ≤ addr s.base h ∧ addr s.base h + bytes ≤ word := by
  obtain ⟨h1,h2,h3⟩ := hh.bounds hc s.base
  have hhigh := hr.high
  rw [hr.kernel] at hhigh
  exact ⟨h1,h2,h3.trans hhigh⟩

theorem far (hr : Rep s m live) (hc : Cut m slabs cls live) (hh : Known m.free live h bytes)
    (hh' : Known m.free live h' bytes') (hne : h ≠ h') :
    addr s.base h + 32 ≤ addr s.base h' ∨ addr s.base h' + 32 ≤ addr s.base h := by
  have hb := hr.known_high hc hh
  have hb' := hr.known_high hc hh'
  rcases hh.apart hc hh' hne s.base with ha | ha <;> simp only [extent] at ha <;> omega

theorem spread (hr : Rep s m live) (hc : Cut m slabs cls live) (hi : i < 7) {l : List Ptr}
    (hnd : l.Nodup) (hl : ∀ h ∈ l, ∃ bytes, Known m.free live h bytes) :
    Spread (head s.cache i :: l.map (addr s.base)) := by
  have hlow := hr.head_low hi
  constructor
  · refine pairwise_cons.2 ⟨fun a ha => ?_,pairwise_map.2 (hnd.imp_of_mem ?_)⟩
    · obtain ⟨h,hh,rfl⟩ := mem_map.1 ha
      obtain ⟨bytes,hk⟩ := hl h hh
      have hb := hr.known_high hc hk
      exact .inl (by omega)
    intro h h' hh hh' hne
    obtain ⟨bytes,hk⟩ := hl h hh
    obtain ⟨bytes',hk'⟩ := hl h' hh'
    have hfar := hr.far hc hk hk' hne
    simp only [Apart]
    omega
  · have hbound : ∀ a ∈ head s.cache i :: l.map (addr s.base), a < word := by
      intro a ha
      rcases mem_cons.1 ha with rfl | ha
      · have hhigh := hr.high
        omega
      obtain ⟨h,hh,rfl⟩ := mem_map.1 ha
      obtain ⟨bytes,hk⟩ := hl h hh
      have hb := hr.known_high hc hk
      omega
    exact hbound

theorem frame {lo hi : Nat} (hr : Rep s m live) (hlow : s.base ≤ lo)
    (hmem : ∀ x, ¬ (lo ≤ x ∧ x < hi) → mem x = s.mem x)
    (hout : ∀ {q b}, Known m.free live q b → addr s.base q + 16 ≤ lo ∨ hi ≤ addr s.base q) :
    Rep { s with mem := mem } m live where
  kernel := hr.kernel
  count := hr.count
  low := hr.low
  high := hr.high
  ring i hi := by
    refine (hr.ring i hi).congr fun y hy j hj => hmem _ ?_
    rcases mem_cons.1 hy with rfl | hy
    · have := hr.head_low hi
      omega
    · obtain ⟨h,hh,rfl⟩ := mem_map.1 hy
      have := hout (.free hh)
      omega
  size g hg x hx := by
    have := hout (.live hg)
    exact (rd_congr fun j hj => hmem (addr s.base g.ptr + 8 + j) (by omega)).trans (hr.size g hg x hx)
  magic g hg := by
    have := hout (.live hg)
    exact (rd_congr fun j hj => hmem (addr s.base g.ptr + 12 + j) (by omega)).trans (hr.magic g hg)

theorem frame_payload (hr : Rep s m live) (hc : Cut m slabs cls live) (hg : g ∈ live)
    (hmem : ∀ x, ¬ (addr s.base g.ptr + sizeofKhdr ≤ x ∧
      x < addr s.base g.ptr + g.origin.bytes) → mem x = s.mem x) :
    Rep { s with mem := mem } m live := by
  have hk : Known m.free live g.ptr g.origin.bytes := .live hg
  have hb := hr.known_high hc hk
  refine hr.frame (by omega) hmem fun {h b} hh => ?_
  simp only [sizeofKhdr]
  by_cases hne : h = g.ptr
  · rw [hne]
    exact .inl le_rfl
  have hb' := hr.known_high hc hh
  rcases hh.apart hc hk hne s.base with ha | ha <;> simp only [extent] at ha <;> omega

end Rep

theorem setHdr_byte (h : ¬ (a + 8 ≤ x ∧ x < a + 16)) : setHdr mem a size x = mem x := by
  rw [setHdr,wr_of_not_mem (by omega),wr_of_not_mem (by omega)]

theorem setHdr_size (h : size < word) : rd (setHdr mem a size) (a + 8) = size := by
  rw [setHdr,rd_wr_of_apart (by omega),rd_wr_self h]

theorem setHdr_magic : rd (setHdr mem a size) (a + 12) = kmagic := by
  rw [setHdr,rd_wr_self (by decide)]

theorem bsize_lt_word (hidx : idx < 7) : bsize idx < word := by
  revert idx
  decide

structure Edits (s : Heap) (m : Kmem) (idx lo hi : Nat) (mem : Mem) : Prop where
  lt : idx < 7
  low : s.base ≤ lo
  byte : ∀ x, (∀ y ∈ head s.cache idx :: (m.free idx).map (addr s.base), ¬ (y ≤ x ∧ x < y + 8)) →
    ¬ (lo ≤ x ∧ x < hi) → mem x = s.mem x

namespace Edits

variable {lo hi : Nat} (he : Edits s m idx lo hi mem) (hr : Rep s m live)
  (hc : Cut m slabs cls live)

include he hr hc

theorem known (hh : Known m.free live h bytes)
    (hout : addr s.base h + 16 ≤ lo ∨ hi ≤ addr s.base h) (hnot : h ∉ m.free idx) (hj : j < 16) :
    mem (addr s.base h + j) = s.mem (addr s.base h + j) := by
  have hb := hr.known_high hc hh
  refine he.byte _ (fun y hy hin => ?_) (by omega)
  rcases mem_cons.1 hy with rfl | hy
  · have hlow := hr.head_low he.lt
    omega
  · obtain ⟨q,hq,rfl⟩ := mem_map.1 hy
    have hfar := hr.far hc hh (.free hq) fun heq => hnot (heq ▸ hq)
    omega

theorem ring (hi7 : i < 7) (hne : i ≠ idx)
    (hout : ∀ q ∈ m.free i, addr s.base q + 16 ≤ lo ∨ hi ≤ addr s.base q) :
    Ring mem (head s.cache i) ((m.free i).map (addr s.base)) := by
  refine (hr.ring i hi7).congr fun y hy j hj => ?_
  rcases mem_cons.1 hy with rfl | hy
  · have hlow := hr.head_low hi7
    have hfar := head_apart hne s.cache
    have hbase := he.low
    refine he.byte _ (fun y hy hin => ?_) (by omega)
    rcases mem_cons.1 hy with rfl | hy
    · omega
    obtain ⟨q,hq,rfl⟩ := mem_map.1 hy
    have := (hr.known_high hc (.free hq)).2.1
    omega
  · obtain ⟨q,hq,rfl⟩ := mem_map.1 hy
    exact he.known hr hc (.free hq) (hout q hq) (fun hq' => hne (hc.ok.apart i idx q hq hq'))
      (by omega)

theorem header (hg : g ∈ live) (hout : addr s.base g.ptr + 16 ≤ lo ∨ hi ≤ addr s.base g.ptr) :
    rd mem (addr s.base g.ptr + 12) = kmagic ∧
      ∀ x, m.hdr g.ptr = some x → rd mem (addr s.base g.ptr + 8) = x := by
  have hin : g.ptr ∈ live.map Grant.ptr := mem_map_of_mem hg
  have hword : ∀ k, k + 4 ≤ 16 →
      rd mem (addr s.base g.ptr + k) = rd s.mem (addr s.base g.ptr + k) := by
    intro k hk
    refine rd_congr fun j hj => ?_
    rw [add_assoc]
    exact he.known hr hc (.live hg) hout (fun hq => (hc.ok.free idx _ hq).2 hin) (by omega)
  refine ⟨(hword 12 le_rfl).trans (hr.magic g hg),fun x hx => ?_⟩
  exact (hword 8 (by omega)).trans (hr.size g hg x hx)

theorem rep {l : List Ptr} {n n' : Nat} {hdr : Ptr → Option Nat} {live' : List (Grant Ptr)}
    (hcount : n = n') (hring : Ring mem (head s.cache idx) (l.map (addr s.base)))
    (hfree : ∀ i ≠ idx, ∀ q ∈ m.free i, addr s.base q + 16 ≤ lo ∨ hi ≤ addr s.base q)
    (hlive : ∀ g ∈ live', rd mem (addr s.base g.ptr + 12) = kmagic ∧
      ∀ x, hdr g.ptr = some x → rd mem (addr s.base g.ptr + 8) = x) :
    Rep ⟨s.kernel,mem,s.cache,n⟩ ⟨m.kernel,update m.free idx l,n',hdr⟩ live' := by
  refine ⟨hr.kernel,hcount,hr.low,hr.high,fun i hi7 => ?_,fun g hg => (hlive g hg).2,
    fun g hg => (hlive g hg).1⟩
  dsimp only
  by_cases hne : i = idx
  · subst hne
    rw [update_self]
    exact hring
  · rw [update_of_ne hne]
    exact he.ring hr hc hi7 hne (hfree i hne)

end Edits

theorem Rep.takeBlock (hr : Rep s m live) (hc : Cut m slabs cls live) (hidx : idx < 7)
    {rest : List Ptr} (hfree : m.free idx = h :: rest) (size : Nat) :
    (KernelHeap.takeBlock s idx).2 = some (addr s.base h + sizeofKhdr,.cls idx) ∧
    Rep (KernelHeap.takeBlock s idx).1 { m with
      free := update m.free idx rest
      nrKfree := m.nrKfree - 1
      hdr := update m.hdr h (some (bsize idx)) } (⟨h,size,.cls idx⟩ :: live) := by
  have hmem : h ∈ m.free idx := hfree ▸ mem_cons_self
  have hk : Known m.free live h (bsize idx) := .free hmem
  have hbase := (hr.known_high hc hk).2.1
  have hring := hr.ring idx hidx
  have hspread := hr.spread hc hidx (hc.ok.distinct idx) fun q hq => ⟨_,.free hq⟩
  have hrest : h ∉ rest := (nodup_cons.1 (hfree ▸ hc.ok.distinct idx)).1
  have hout : ∀ {q b}, Known m.free live q b → q ≠ h →
      addr s.base q + 16 ≤ addr s.base h ∨ addr s.base h + 16 ≤ addr s.base q := by
    intro q b hq hne
    have hfar := hr.far hc hq hk hne
    omega
  rw [hfree,map_cons] at hring hspread
  have hfirst : rd s.mem (head s.cache idx) = addr s.base h := hring.first
  generalize hmem' : setHdr (listDel s.mem (addr s.base h)) (addr s.base h) (bsize idx) = mem'
  have he : Edits s m idx (addr s.base h) (addr s.base h + 16) mem' := by
    refine ⟨hidx,hbase,fun x hx hin => ?_⟩
    rw [hfree,map_cons] at hx
    rw [← hmem',setHdr_byte (by omega)]
    exact hring.listDel_byte hspread hx
  have hlast : Ring mem' (head s.cache idx) (rest.map (addr s.base)) := by
    rw [← hmem']
    refine (hring.del hspread).congr fun y hy j hj => setHdr_byte fun hin => ?_
    rcases mem_cons.1 hy with rfl | hy
    · have hlow := hr.head_low hidx
      omega
    obtain ⟨q,hq,rfl⟩ := mem_map.1 hy
    have := hout (.free (hfree ▸ mem_cons_of_mem _ hq)) fun heq => hrest (heq ▸ hq)
    omega
  simp only [KernelHeap.takeBlock,hfirst,hmem']
  refine ⟨trivial,he.rep hr hc (congrArg (· - 1) hr.count) hlast (fun i hne q hq => ?_)
    fun g hg => ?_⟩
  · refine hout (.free hq) ?_
    rintro rfl
    exact hne (hc.ok.apart i idx q hq hmem)
  rcases mem_cons.1 hg with rfl | hg
  · dsimp only
    rw [← hmem',update_self]
    refine ⟨setHdr_magic,fun x hx => ?_⟩
    rw [← Option.some.inj hx]
    exact setHdr_size (bsize_lt_word hidx)
  · have hin : g.ptr ∈ live.map Grant.ptr := mem_map_of_mem hg
    have hne : g.ptr ≠ h := fun heq => (hc.ok.free idx h hmem).2 (heq ▸ hin)
    rw [update_of_ne hne]
    exact he.header hr hc hg (hout (.live hg) hne)

theorem Rep.giveBack (hr : Rep s m (⟨h,size,.cls idx⟩ :: live))
    (hc : Cut m slabs cls (⟨h,size,.cls idx⟩ :: live)) (hidx : idx < 7) :
    Rep { s with
      mem := listAdd (wr s.mem (addr s.base h + 12) 0) (addr s.base h) (head s.cache idx)
      nrKfree := s.nrKfree + 1 } { m with
      free := update m.free idx (h :: m.free idx)
      nrKfree := m.nrKfree + 1
      hdr := update m.hdr h none } live := by
  have hk : Known m.free (⟨h,size,.cls idx⟩ :: live) h (bsize idx) :=
    .live (g := ⟨h,size,.cls idx⟩) mem_cons_self
  have hbase := (hr.known_high hc hk).2.1
  have hne : ∀ {q i}, q ∈ m.free i → q ≠ h := by
    rintro q i hq rfl
    exact (hc.ok.free i q hq).2 mem_cons_self
  have hout : ∀ {q b}, Known m.free (⟨h,size,.cls idx⟩ :: live) q b → q ≠ h →
      addr s.base q + 16 ≤ addr s.base h ∨ addr s.base h + 16 ≤ addr s.base q := by
    intro q b hq hne
    have hfar := hr.far hc hq hk hne
    omega
  have hspread : Spread (addr s.base h :: head s.cache idx :: (m.free idx).map (addr s.base)) := by
    refine (hr.spread hc hidx (nodup_cons.2 ⟨fun hq => hne hq rfl,hc.ok.distinct idx⟩) ?_).perm
      (List.Perm.swap ..)
    intro q hq
    rcases mem_cons.1 hq with rfl | hq
    · exact ⟨_,hk⟩
    · exact ⟨_,.free hq⟩
  have hring : Ring (wr s.mem (addr s.base h + 12) 0) (head s.cache idx)
      ((m.free idx).map (addr s.base)) := by
    refine (hr.ring idx hidx).congr fun y hy j hj => wr_of_not_mem fun hin => ?_
    rcases mem_cons.1 hy with rfl | hy
    · have hlow := hr.head_low hidx
      omega
    · obtain ⟨q,hq,rfl⟩ := mem_map.1 hy
      have := hout (.free hq) (hne hq)
      omega
  generalize hmem : listAdd (wr s.mem (addr s.base h + 12) 0) (addr s.base h)
    (head s.cache idx) = mem'
  have he : Edits s m idx (addr s.base h) (addr s.base h + 16) mem' := by
    refine ⟨hidx,hbase,fun x hx hin => ?_⟩
    rw [← hmem,hring.listAdd_byte,wr_of_not_mem (by omega)]
    intro y hy
    rcases mem_cons.1 hy with rfl | hy
    · omega
    · exact hx y hy
  refine he.rep hr hc (congrArg (· + 1) hr.count) ?_ (fun i _ q hq => hout (.free hq) (hne hq))
    fun g hg => ?_
  · rw [map_cons,← hmem]
    exact hring.add hspread
  · have hin := mem_cons_of_mem (⟨h,size,.cls idx⟩ : Grant Ptr) hg
    rw [update_of_ne (hc.ptr_ne hg)]
    exact he.header hr hc hin (hout (.live hin) (hc.ptr_ne hg))

structure Carved (mem mem' : Mem) (page bsize head : Nat) (old : List Nat) (i : Nat) : Prop where
  ring : Ring mem' head (((List.range i).map fun j => page + j * bsize).reverse ++ old)
  spread : Spread (head :: (((List.range i).map fun j => page + j * bsize).reverse ++ old))
  byte : ∀ x, (∀ y ∈ head :: old, ¬ (y ≤ x ∧ x < y + 8)) →
    ¬ (page ≤ x ∧ x < page + i * bsize) → mem' x = mem x

theorem carve_spec (page bsize n : Nat) {head : Nat} {old : List Nat} (hring : Ring mem head old)
    (hs : Spread (head :: old)) (hb : 8 ≤ bsize) (hfit : page + n * bsize ≤ word)
    (hout : ∀ y ∈ head :: old, y + 8 ≤ page ∨ page + n * bsize ≤ y) (hi : i ≤ n) :
    Carved mem (carve mem page bsize head i) page bsize head old i := by
  induction i with
  | zero => exact ⟨hring,hs,fun _ _ _ => rfl⟩
  | succ i ih =>
    obtain ⟨ih1,ih2,ih3⟩ := ih (Nat.le_of_succ_le hi)
    have hstep := Nat.mul_le_mul_right bsize hi
    rw [Nat.succ_mul] at hstep
    generalize hnodes : ((List.range i).map fun j => page + j * bsize).reverse ++ old = nodes
      at ih1 ih2
    have hnode : ∀ y ∈ head :: nodes, y ∈ head :: old ∨ page ≤ y ∧ y + bsize ≤ page + i * bsize := by
      intro y hy
      rw [← hnodes] at hy
      rcases mem_cons.1 hy with rfl | hy
      · exact .inl mem_cons_self
      rcases mem_append.1 hy with hy | hy
      · obtain ⟨j,hj,rfl⟩ := mem_map.1 (mem_reverse.1 hy)
        have hmul := Nat.mul_le_mul_right bsize (mem_range.1 hj)
        rw [Nat.succ_mul] at hmul
        exact .inr (by omega)
      · exact .inl (mem_cons_of_mem _ hy)
    have hfar : ∀ y ∈ head :: nodes, y + 8 ≤ page + i * bsize ∨ page + i * bsize + 8 ≤ y := by
      intro y hy
      rcases hnode y hy with hy | hy
      · have := hout y hy
        omega
      · omega
    have hspread : Spread ((page + i * bsize) :: head :: nodes) := by
      refine ⟨pairwise_cons.2 ⟨fun y hy => ?_,ih2.apart⟩,fun y hy => ?_⟩
      · exact Or.symm (hfar y hy)
      · rcases mem_cons.1 hy with rfl | hy
        · have hw : word = 2 ^ 32 := rfl
          omega
        · exact ih2.fits y hy
    have hinit : Ring (initList (carve mem page bsize head i) (page + i * bsize)) head nodes :=
      ih1.congr fun y hy j hj => initList_byte fun hin => by
        have := hfar y hy
        omega
    have hlist : ((List.range (i + 1)).map fun j => page + j * bsize).reverse ++ old =
        (page + i * bsize) :: nodes := by
      rw [range_succ,map_append,reverse_append,← hnodes]
      rfl
    refine ⟨?_,?_,fun x hx hin => ?_⟩
    · rw [hlist]
      exact hinit.add hspread
    · rw [hlist]
      exact hspread.perm (List.Perm.swap ..)
    rw [Nat.succ_mul] at hin
    rw [carve,hinit.listAdd_byte,initList_byte (by omega),ih3 x hx (by omega)]
    intro y hy
    rcases mem_cons.1 hy with rfl | hy
    · omega
    rcases hnode y hy with hy | hy
    · exact hx y hy
    · omega

end TinyOs.KernelHeap
