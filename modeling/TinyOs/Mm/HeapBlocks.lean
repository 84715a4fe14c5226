import TinyOs.Mm.SlabOwn

namespace TinyOs.Slab

open List
open Function (update update_of_ne update_self)
open Dyadic (Block)
open Buddy (maxOrder)

inductive Origin where
  | cls (idx : Nat)
  | pages (order : Nat)
  deriving DecidableEq, Repr

def Origin.bytes : Origin → Nat
  | .cls idx => bsize idx
  | .pages order => pgSize * 2 ^ order

structure Grant (α : Type) where
  ptr : α
  size : Nat
  origin : Origin
  deriving DecidableEq, Repr

variable {m m' : Kmem} {slabs : List Nat} {cls : Nat → Nat} {live : List (Grant Ptr)} {h : Ptr}
  {k : Kernel} {idx order page size : Nat} {g : Grant Ptr} {o : Origin}

structure Placed (cls : Nat → Nat) (h : Ptr) (idx : Nat) : Prop where
  lt : idx < 7
  page : cls h.page = idx
  aligned : bsize idx ∣ h.off
  fits : h.off + bsize idx ≤ pgSize

inductive Given (m : Kmem) (slabs : List Nat) (cls : Nat → Nat) : Grant Ptr → Prop
  | small {h : Ptr} {size idx : Nat} (hdr : m.hdr h = some (bsize idx)) (page : h.page ∈ slabs)
      (placed : Placed cls h idx) (room : size + sizeofKhdr ≤ bsize idx) :
      Given m slabs cls ⟨h,size,.cls idx⟩
  | pages {h : Ptr} {size order : Nat} (lt : order < maxOrder)
      (hdr : m.hdr h = some (kflagPage ||| order)) (off : h.off = 0) (cut : h.page ∉ slabs)
      (block : 0 < order → (⟨h.page,order⟩ : Block) ∈ m.kernel.phys.pmm.live)
      (room : size + sizeofKhdr ≤ pgSize * 2 ^ order) :
      Given m slabs cls ⟨h,size,.pages order⟩

def freeBlocks (free : Nat → List Ptr) : Nat := ∑ i ∈ Finset.range 7, (free i).length

structure Cut (m : Kmem) (slabs : List Nat) (cls : Nat → Nat) (live : List (Grant Ptr)) : Prop where
  ok : Ok m slabs (live.map Grant.ptr)
  free : ∀ i, ∀ h ∈ m.free i, Placed cls h i
  given : ∀ g ∈ live, Given m slabs cls g
  count : m.nrKfree = freeBlocks m.free

theorem freeBlocks_update (free : Nat → List Ptr) (hidx : idx < 7) (l : List Ptr) :
    freeBlocks (update free idx l) + (free idx).length = freeBlocks free + l.length :=
  Count.sum_update_add _ (fun _ l => List.length l) free (Finset.mem_range.2 hidx) l

theorem Given.transfer {slabs' : List Nat} {cls' : Nat → Nat} (hg : Given m slabs cls g)
    (hsame : m'.hdr g.ptr = m.hdr g.ptr) (hcls : cls' g.ptr.page = cls g.ptr.page)
    (hslab : g.ptr.page ∈ slabs' ↔ g.ptr.page ∈ slabs)
    (hlive : ∀ order < maxOrder, m.hdr g.ptr = some (kflagPage ||| order) → 0 < order →
      (⟨g.ptr.page,order⟩ : Block) ∈ m.kernel.phys.pmm.live →
        (⟨g.ptr.page,order⟩ : Block) ∈ m'.kernel.phys.pmm.live) : Given m' slabs' cls' g := by
  cases hg with
  | small hdr page placed room =>
    exact .small (hsame.trans hdr) (hslab.mpr page)
      ⟨placed.lt,hcls.trans placed.page,placed.aligned,placed.fits⟩ room
  | pages lt hdr off cut block room =>
    exact .pages lt (hsame.trans hdr) off (hslab.not.mpr cut)
      (fun hpos => hlive _ lt hdr hpos (block hpos)) room

theorem Given.update {free : Nat → List Ptr} {n : Nat} {x : Option Nat} (hg : Given m slabs cls g)
    (hne : g.ptr ≠ h) : Given ⟨m.kernel,free,n,update m.hdr h x⟩ slabs cls g :=
  hg.transfer (update_of_ne hne ..) rfl Iff.rfl fun _ _ _ _ hb => hb

theorem flag_inj {a b : Nat} (ha : a < maxOrder) (hb : b < maxOrder)
    (he : kflagPage ||| a = kflagPage ||| b) : a = b := by
  have hand := (flag_and ha).2
  rw [he,(flag_and hb).2] at hand
  exact hand.symm

theorem Handed.block (hh : Handed m slabs h) (hlt : order < maxOrder)
    (hdr : m.hdr h = some (kflagPage ||| order)) (hpos : 0 < order) :
    (⟨h.page,order⟩ : Block) ∈ m.kernel.phys.pmm.live := by
  cases hh with
  | small idx hidx hdr' page =>
    exact absurd (Option.some.inj (hdr'.symm.trans hdr)) (bsize_ne_flag hidx)
  | pages order' horder' hdr' off block =>
    obtain rfl := flag_inj horder' hlt (Option.some.inj (hdr'.symm.trans hdr))
    exact block hpos

theorem Placed.recut (hp : Placed cls h idx) (hne : h.page ≠ page) (c : Nat) :
    Placed (update cls page c) h idx where
  lt := hp.lt
  page := (update_of_ne hne ..).trans hp.page
  aligned := hp.aligned
  fits := hp.fits

theorem mem_blocks (hh : h ∈ blocks page (bsize idx)) :
    h.page = page ∧ bsize idx ∣ h.off ∧ h.off + bsize idx ≤ pgSize := by
  obtain ⟨i,hi,rfl⟩ := mem_map.1 (mem_reverse.1 hh)
  have hle : (i + 1) * bsize idx ≤ pgSize :=
    (Nat.mul_le_mul_right _ (mem_range.1 hi)).trans (Nat.div_mul_le_self _ _)
  rw [Nat.succ_mul] at hle
  exact ⟨rfl,dvd_mul_left _ _,hle⟩

theorem blocks_length (page b : Nat) : (blocks page b).length = pgSize / b := by
  simp [blocks]

namespace Cut

theorem take (hc : Cut m slabs cls live) {rest : List Ptr} (hidx : idx < 7)
    (hfree : m.free idx = h :: rest) (hroom : size + sizeofKhdr ≤ bsize idx) :
    Cut { m with
      free := update m.free idx rest
      nrKfree := m.nrKfree - 1
      hdr := update m.hdr h (some (bsize idx)) } slabs cls
      (⟨h,size,.cls idx⟩ :: live) := by
  have hmem : h ∈ m.free idx := hfree ▸ mem_cons_self
  obtain ⟨hpage,hnot⟩ := hc.ok.free idx h hmem
  refine ⟨hc.ok.take hidx hfree _,fun i g hg => hc.free i g ?_,fun g hg => ?_,?_⟩
  · rcases mem_update hg with ⟨rfl,hl⟩ | ⟨-,hl⟩
    · exact hfree ▸ mem_cons_of_mem _ hl
    · exact hl
  · rcases mem_cons.1 hg with rfl | hg
    · exact .small (update_self ..) hpage (hc.free idx h hmem) hroom
    exact (hc.given g hg).update fun he => hnot (he ▸ mem_map_of_mem hg)
  · have hsum := freeBlocks_update m.free hidx rest
    rw [hfree,length_cons] at hsum
    have hcount := hc.count
    dsimp only
    omega

theorem setKernel (hc : Cut m slabs cls live)
    (hf : Ok.Fresh m slabs (live.map Grant.ptr) k page order) :
    Cut { m with kernel := k } slabs cls live := by
  refine ⟨hf.ok,hc.free,fun g hg => ?_,hc.count⟩
  exact (hc.given g hg).transfer rfl rfl Iff.rfl fun _ _ _ hpos hb => hf.kept _ hb hpos

theorem refill (hc : Cut m slabs cls live) (hidx : idx < 7)
    (hf : Ok.Fresh m slabs (live.map Grant.ptr) k page 0) :
    Cut { m with
      kernel := k
      free := update m.free idx (blocks page (bsize idx) ++ m.free idx)
      nrKfree := m.nrKfree + pgSize / bsize idx }
      (page :: slabs) (update cls page idx) live := by
  refine ⟨hf.ok.addSlab hf.handed hf.cut (hf.held rfl) hidx _,fun i g hg => ?_,fun g hg => ?_,?_⟩
  · have hold : ∀ j, g ∈ m.free j → Placed (update cls page idx) g j := by
      intro j hj
      have hin := (hc.ok.free j g hj).1
      have hne : g.page ≠ page := fun he => hf.cut (he ▸ hin)
      exact (hc.free j g hj).recut hne idx
    rcases mem_update hg with ⟨rfl,hl⟩ | ⟨-,hl⟩
    · rcases mem_append.1 hl with hl | hl
      · obtain ⟨rfl,hal,hfits⟩ := mem_blocks hl
        exact ⟨hidx,update_self ..,hal,hfits⟩
      · exact hold i hl
    · exact hold i hl
  · have hne : g.ptr.page ≠ page := hf.handed _ (mem_map_of_mem hg)
    refine ((hc.setKernel hf).given g hg).transfer rfl (update_of_ne hne ..) ?_ fun _ _ _ _ hb => hb
    exact mem_cons.trans (or_iff_right hne)
  · have hsum := freeBlocks_update m.free hidx (blocks page (bsize idx) ++ m.free idx)
    rw [length_append,blocks_length] at hsum
    have hcount := hc.count
    dsimp only
    omega

theorem pages (hc : Cut m slabs cls live) (hf : Ok.Fresh m slabs (live.map Grant.ptr) k page order)
    (hroom : size + sizeofKhdr ≤ pgSize * 2 ^ order) :
    Cut { m with
      kernel := k
      hdr := update m.hdr ⟨page,0⟩ (some (kflagPage ||| order)) } slabs cls
      (⟨⟨page,0⟩,size,.pages order⟩ :: live) := by
  refine ⟨hf.ok.addPages hf.lt hf.handed hf.cut (fun _ => hf.block) hf.held,hc.free,fun g hg => ?_,
    hc.count⟩
  rcases mem_cons.1 hg with rfl | hg
  · exact .pages hf.lt (update_self ..) rfl hf.cut (fun _ => hf.block) hroom
  have hne : g.ptr ≠ ⟨page,0⟩ := fun he =>
    hf.handed _ (mem_map_of_mem hg) (congrArg Ptr.page he)
  exact ((hc.setKernel hf).given g hg).update hne

theorem ptr_ne (hc : Cut m slabs cls (⟨h,size,o⟩ :: live)) (hg : g ∈ live) : g.ptr ≠ h := by
  have hin : g.ptr ∈ live.map Grant.ptr := mem_map_of_mem hg
  exact fun he => (nodup_cons.1 hc.ok.nodup).1 (he ▸ hin)

theorem giveBack (hc : Cut m slabs cls (⟨h,size,.cls idx⟩ :: live)) : Cut { m with
      free := update m.free idx (h :: m.free idx)
      nrKfree := m.nrKfree + 1
      hdr := update m.hdr h none } slabs cls live := by
  obtain ⟨hpage,hplaced⟩ : h.page ∈ slabs ∧ Placed cls h idx := by
    cases hc.given _ mem_cons_self with
    | small hdr page placed room => exact ⟨page,placed⟩
  refine ⟨hc.ok.giveBack hpage _,fun i g hg => ?_,fun g hg => ?_,?_⟩
  · rcases mem_update hg with ⟨rfl,hl⟩ | ⟨-,hl⟩
    · rcases mem_cons.1 hl with rfl | hl
      · exact hplaced
      · exact hc.free i g hl
    · exact hc.free i g hl
  · exact (hc.given g (mem_cons_of_mem _ hg)).update (hc.ptr_ne hg)
  · have hsum := freeBlocks_update m.free hplaced.lt (h :: m.free idx)
    rw [length_cons] at hsum
    have hcount := hc.count
    dsimp only
    omega

theorem freePages (hc : Cut m slabs cls (⟨h,size,.pages order⟩ :: live)) :
    ∃ k, m.kernel.freePages h order = some k ∧
      Cut { m with kernel := k, hdr := update m.hdr h none } slabs cls live := by
  cases hc.given _ mem_cons_self with
  | pages lt hdr off cut block room =>
    obtain ⟨k,hk,hok⟩ := hc.ok.freePages lt hdr off block
    refine ⟨k,hk,hok,hc.free,fun g hg => ?_,hc.count⟩
    have hsame : update m.hdr h none g.ptr = m.hdr g.ptr := update_of_ne (hc.ptr_ne hg) ..
    refine (hc.given g (mem_cons_of_mem _ hg)).transfer hsame rfl Iff.rfl fun _ lt' hdr' hpos _ => ?_
    exact (hok.handed g.ptr (mem_map_of_mem hg)).block lt' (hsame.trans hdr') hpos

theorem init (hinv : k.Inv) : Cut (kmemInit k) [] cls [] where
  ok := ⟨hinv,.nil,fun _ => Nat.zero_le _,nofun,nofun,fun _ => .nil,nofun⟩
  free := nofun
  given := nofun
  count := rfl

end Cut

structure Extent where
  lo : Nat
  hi : Nat

def Extent.Apart (a b : Extent) : Prop := a.hi ≤ b.lo ∨ b.hi ≤ a.lo

instance : Std.Symm Extent.Apart := ⟨fun _ _ h => Or.symm h⟩

variable {base : Nat} {b c : Block} {e f : Extent}

def addr (base : Nat) (h : Ptr) : Nat := base + h.page * pgSize + h.off

def extent (base : Nat) (h : Ptr) (bytes : Nat) : Extent := ⟨addr base h,addr base h + bytes⟩

def blockExtent (base : Nat) (b : Block) : Extent :=
  ⟨base + b.start * pgSize,base + b.start * pgSize + pgSize * 2 ^ b.order⟩

def Inside (base : Nat) (b : Block) (e : Extent) : Prop :=
  (blockExtent base b).lo ≤ e.lo ∧ e.hi ≤ (blockExtent base b).hi

theorem inside_self : Inside base b (blockExtent base b) := ⟨le_rfl,le_rfl⟩

theorem Inside.apart (he : Inside base b e) (hf : Inside base c f)
    (hdis : ∀ p, b.Covers p → ¬ c.Covers p) : e.Apart f := by
  have horder : b.start + 2 ^ b.order ≤ c.start ∨ c.start + 2 ^ c.order ≤ b.start := by
    by_contra hno
    obtain ⟨h1,h2⟩ := not_or.1 hno
    have hb := Nat.two_pow_pos b.order
    have hc := Nat.two_pow_pos c.order
    refine hdis (max b.start c.start) ⟨le_max_left _ _,?_⟩ ⟨le_max_right _ _,?_⟩ <;> omega
  obtain ⟨he1,he2⟩ := he
  obtain ⟨hf1,hf2⟩ := hf
  simp only [blockExtent] at he1 he2 hf1 hf2
  rcases horder with h | h
  · have hmul := Nat.mul_le_mul_right pgSize h
    rw [add_mul,mul_comm (2 ^ b.order)] at hmul
    exact .inl (by omega)
  · have hmul := Nat.mul_le_mul_right pgSize h
    rw [add_mul,mul_comm (2 ^ c.order)] at hmul
    exact .inr (by omega)

theorem Placed.inside (hp : Placed cls h idx) :
    Inside base ⟨h.page,0⟩ (extent base h (bsize idx)) := by
  have hfits := hp.fits
  simp only [Inside,blockExtent,extent,addr,pow_zero,mul_one]
  omega

theorem Placed.apart {h' : Ptr} {idx' : Nat} (hp : Placed cls h idx) (hp' : Placed cls h' idx')
    (hne : h ≠ h') : (extent base h (bsize idx)).Apart (extent base h' (bsize idx')) := by
  by_cases hpage : h.page = h'.page
  · have hidx : idx = idx' := by rw [← hp.page,← hp'.page,hpage]
    subst hidx
    have hoff : h.off ≠ h'.off := by
      exact fun hoff => hne (Ptr.ext hpage hoff)
    obtain ⟨x,hx⟩ := hp.aligned
    obtain ⟨y,hy⟩ := hp'.aligned
    have hxy : x ≠ y := fun he => hoff (by rw [hx,hy,he])
    simp only [Extent.Apart,extent,addr,hpage]
    rcases Nat.lt_or_gt_of_ne hxy with hlt | hlt
    · have hmul := Nat.mul_le_mul_left (bsize idx) hlt
      rw [Nat.mul_succ] at hmul
      exact .inl (by omega)
    · have hmul := Nat.mul_le_mul_left (bsize idx) hlt
      rw [Nat.mul_succ] at hmul
      exact .inr (by omega)
  · refine Inside.apart hp.inside hp'.inside fun p h1 h2 => hpage ?_
    simp only [Block.Covers,pow_zero] at h1 h2
    omega

namespace Cut

variable (hc : Cut m slabs cls live)

include hc

theorem wf : m.kernel.phys.pmm.Wf := hc.ok.inv.phys.acct.wf

theorem slab_live (hp : page ∈ slabs) : (⟨page,0⟩ : Block) ∈ m.kernel.phys.pmm.live := by
  refine hc.ok.inv.phys.acct.live page ?_
  have hheld := hc.ok.held page
  have hpos := count_pos_iff.2 hp
  simp only [Pi.add_apply,Kernel.heldRefs]
  omega

end Cut

theorem bsize_ge (hidx : idx < 7) : 32 ≤ bsize idx := by
  revert idx
  decide

inductive Known (free : Nat → List Ptr) (live : List (Grant Ptr)) : Ptr → Nat → Prop
  | free {h : Ptr} {i : Nat} (mem : h ∈ free i) : Known free live h (bsize i)
  | live {g : Grant Ptr} (mem : g ∈ live) : Known free live g.ptr g.origin.bytes

inductive Carried (slabs : List Nat) (cls : Nat → Nat) (h : Ptr) : Nat → Block → Prop
  | slab {i : Nat} (placed : Placed cls h i) (page : h.page ∈ slabs) :
      Carried slabs cls h (bsize i) ⟨h.page,0⟩
  | pages {order : Nat} (off : h.off = 0) (cut : h.page ∉ slabs) :
      Carried slabs cls h (pgSize * 2 ^ order) ⟨h.page,order⟩

variable {h' : Ptr} {bytes bytes' : Nat}

theorem Carried.start (hh : Carried slabs cls h bytes b) : b.start = h.page := by
  cases hh <;> rfl

theorem Carried.inside (hh : Carried slabs cls h bytes b) : Inside base b (extent base h bytes) := by
  cases hh with
  | slab placed page => exact placed.inside
  | pages off cut => simp only [Inside,blockExtent,extent,addr,off,add_zero,le_refl,and_self]

namespace Known

variable (hh : Known m.free live h bytes) (hc : Cut m slabs cls live)

include hh hc

theorem carried : ∃ b ∈ m.kernel.phys.pmm.live, Carried slabs cls h bytes b := by
  cases hh with
  | free hm => exact ⟨_,hc.slab_live (hc.ok.free _ h hm).1,.slab (hc.free _ h hm) (hc.ok.free _ h hm).1⟩
  | live hg =>
    cases hc.given _ hg with
    | small hdr page placed room => exact ⟨_,hc.slab_live page,.slab placed page⟩
    | @pages h size order lt hdr off cut block room =>
      refine ⟨_,?_,.pages off cut⟩
      rcases Nat.eq_zero_or_pos order with rfl | hpos
      · refine hc.ok.inv.phys.acct.live h.page ?_
        have hheld := hc.ok.held h.page
        have hcount : 0 < (live.map Grant.ptr).countP (single m.hdr h.page) :=
          countP_pos_iff.2 ⟨h,mem_map_of_mem hg,by rw [single,hdr]; simp⟩
        simp only [Pi.add_apply,Kernel.heldRefs]
        omega
      · exact block hpos

theorem apart (hh' : Known m.free live h' bytes') (hne : h ≠ h') (base : Nat) :
    (extent base h bytes).Apart (extent base h' bytes') := by
  obtain ⟨b,hb,hcar⟩ := hh.carried hc
  obtain ⟨b',hb',hcar'⟩ := hh'.carried hc
  by_cases he : b = b'
  · have hpage : h.page = h'.page := by rw [← hcar.start,he,hcar'.start]
    cases hcar with
    | slab placed page =>
      cases hcar' with
      | slab placed' page' => exact placed.apart placed' hne
      | pages off' cut' => exact absurd (hpage ▸ page) cut'
    | pages off cut =>
      cases hcar' with
      | slab placed' page' => exact absurd (hpage ▸ page') cut
      | pages off' cut' => exact absurd (Ptr.ext hpage (off.trans off'.symm)) hne
  · exact hcar.inside.apart hcar'.inside fun _ h1 h2 => he (hc.wf.live_unique hb hb' h1 h2)

theorem bounds (base : Nat) : 32 ≤ bytes ∧ base ≤ addr base h ∧
    addr base h + bytes ≤ base + m.kernel.phys.pmm.nrPages * pgSize := by
  obtain ⟨b,hb,hcar⟩ := hh.carried hc
  have hfits := Nat.mul_le_mul_right pgSize (hc.wf.inRange_live hb).fits
  obtain ⟨h1,h2⟩ : Inside base b (extent base h bytes) := hcar.inside
  rw [add_mul,mul_comm (2 ^ b.order)] at hfits
  simp only [blockExtent,extent] at h1 h2
  refine ⟨?_,by omega,by omega⟩
  cases hcar with
  | slab placed page => exact bsize_ge placed.lt
  | @pages order off cut =>
    have hpos := Nat.two_pow_pos order
    simp only [pgSize]
    omega

theorem buddy_apart (hb : m.kernel.phys.pmm.Holds true b) (base : Nat) :
    (extent base h bytes).Apart (blockExtent base b) := by
  obtain ⟨c,hlive,hcar⟩ := hh.carried hc
  exact hcar.inside.apart inside_self fun _ h1 h2 => hc.wf.not_free_of_live hlive h1 ⟨b,hb,h2⟩

theorem fresh (hf : Ok.Fresh m slabs (live.map Grant.ptr) k page order) (base : Nat) :
    (extent base h bytes).Apart (blockExtent base ⟨page,order⟩) := by
  have hc' := hc.setKernel hf
  obtain ⟨b,hb,hcar⟩ := Known.carried (m := { m with kernel := k }) hh hc'
  refine hcar.inside.apart inside_self fun _ h1 h2 => ?_
  have hpage : h.page = page := by rw [← hcar.start,hc'.wf.live_unique hb hf.block h1 h2]
  cases hh with
  | free hm => exact hf.cut (hpage ▸ (hc.ok.free _ h hm).1)
  | live hg => exact hf.handed _ (mem_map_of_mem hg) hpage

end Known

theorem Cut.buddies_apart (hc : Cut m slabs cls live) (hb : m.kernel.phys.pmm.Holds true b)
    (hb' : m.kernel.phys.pmm.Holds true c) (hne : b ≠ c) :
    (blockExtent base b).Apart (blockExtent base c) :=
  inside_self.apart inside_self fun p h1 h2 =>
    hne (hc.wf.tiling.unique true true b c p hb hb' h1 h2).2

def extents (base : Nat) (live : List (Grant Ptr)) (free : Nat → List Ptr)
    (freeList : Nat → List Nat) : List Extent :=
  (live.map fun g => extent base g.ptr g.origin.bytes) ++
    ((List.range 7).flatMap fun i => (free i).map fun h => extent base h (bsize i)) ++
    (List.range maxOrder).flatMap fun o => (freeList o).map fun p => blockExtent base ⟨p,o⟩

theorem Cut.extents_apart (hc : Cut m slabs cls live) :
    (extents base live m.free m.kernel.phys.pmm.freeList).Pairwise Extent.Apart := by
  have hbuddy : ∀ {o p}, p ∈ m.kernel.phys.pmm.freeList o →
      m.kernel.phys.pmm.Holds true ⟨p,o⟩ := fun hp => hp
  rw [extents,pairwise_append,pairwise_append,pairwise_map,pairwise_flatMap,pairwise_flatMap]
  refine ⟨⟨?_,⟨fun i _ => ?_,?_⟩,?_⟩,⟨fun o _ => ?_,?_⟩,?_⟩
  · refine (pairwise_map.1 hc.ok.nodup).imp_of_mem fun hg hg' hne => ?_
    exact (Known.live hg).apart hc (.live hg') hne base
  · rw [pairwise_map]
    exact (hc.ok.distinct i).imp_of_mem fun hh hh' hne =>
      (hc.free i _ hh).apart (hc.free i _ hh') hne
  · refine nodup_range.imp fun {i j} hij e he f hf => ?_
    obtain ⟨h,hh,rfl⟩ := mem_map.1 he
    obtain ⟨h',hh',rfl⟩ := mem_map.1 hf
    refine (hc.free i h hh).apart (hc.free j h' hh') fun he => hij ?_
    exact hc.ok.apart i j h hh (he ▸ hh')
  · intro e he f hf
    obtain ⟨g,hg,rfl⟩ := mem_map.1 he
    obtain ⟨i,-,hf⟩ := mem_flatMap.1 hf
    obtain ⟨h,hh,rfl⟩ := mem_map.1 hf
    have hne : g.ptr ≠ h := fun he => (hc.ok.free i h hh).2 (he ▸ mem_map_of_mem hg)
    exact (Known.live hg).apart hc (.free hh) hne base
  · rw [pairwise_map]
    refine (hc.wf.tiling.nodup o).imp_of_mem fun hp hq hne => ?_
    exact hc.buddies_apart (hbuddy hp) (hbuddy hq) fun he => hne (congrArg Dyadic.Block.start he)
  · refine nodup_range.imp fun {o o'} hne e he f hf => ?_
    obtain ⟨p,hp,rfl⟩ := mem_map.1 he
    obtain ⟨q,hq,rfl⟩ := mem_map.1 hf
    exact hc.buddies_apart (hbuddy hp) (hbuddy hq) fun he => hne (congrArg Dyadic.Block.order he)
  · intro e he f hf
    obtain ⟨o,-,hf⟩ := mem_flatMap.1 hf
    obtain ⟨p,hp,rfl⟩ := mem_map.1 hf
    rcases mem_append.1 he with he | he
    · obtain ⟨g,hg,rfl⟩ := mem_map.1 he
      exact (Known.live hg).buddy_apart hc (hbuddy hp) base
    obtain ⟨i,-,he⟩ := mem_flatMap.1 he
    obtain ⟨h,hh,rfl⟩ := mem_map.1 he
    exact (Known.free hh).buddy_apart hc (hbuddy hp) base

end TinyOs.Slab
