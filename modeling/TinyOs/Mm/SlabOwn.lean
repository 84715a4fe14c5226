import TinyOs.Mm.Slab

namespace TinyOs.Slab

open List Option Buddy
open Function (update update_of_ne update_self)
open Dyadic (Block)

variable {m m' : Kmem} {slabs slabs' : List Nat} {live : List Ptr} {g h : Ptr} {k : Kernel}
  {idx order : Nat} {r : Option Ptr}

def single (hdr : Ptr → Option Nat) (page : Nat) (h : Ptr) : Bool :=
  h.page == page && hdr h == some (kflagPage ||| 0)

inductive Handed (m : Kmem) (slabs : List Nat) (h : Ptr) : Prop
  | small (idx : Nat) (hidx : idx < 7) (hdr : m.hdr h = some (bsize idx)) (page : h.page ∈ slabs)
  | pages (order : Nat) (horder : order < maxOrder) (hdr : m.hdr h = some (kflagPage ||| order))
      (off : h.off = 0) (block : 0 < order → (⟨h.page,order⟩ : Block) ∈ m.kernel.phys.pmm.live)

structure Ok (m : Kmem) (slabs : List Nat) (live : List Ptr) : Prop where
  inv : m.kernel.Inv
  nodup : live.Nodup
  held : ∀ page, slabs.count page + live.countP (single m.hdr page) ≤ m.kernel.held.count page
  handed : ∀ h ∈ live, Handed m slabs h
  free : ∀ i, ∀ h ∈ m.free i, h.page ∈ slabs ∧ h ∉ live
  distinct : ∀ i, (m.free i).Nodup
  apart : ∀ i j h, h ∈ m.free i → h ∈ m.free j → i = j

theorem bsize_ne_flag (hidx : idx < 7) : bsize idx ≠ kflagPage ||| order := by
  have hlt : bsize idx < kflagPage := by
    revert idx
    decide
  exact fun he => absurd (he ▸ Nat.left_le_or) (not_le.mpr hlt)

theorem flag_and (h : order < maxOrder) :
    (kflagPage ||| order) &&& kflagPage ≠ 0 ∧ (kflagPage ||| order) &&& (kflagPage - 1) = order := by
  revert order
  decide

theorem bsize_and (h : idx < 7) : bsize idx &&& kflagPage = 0 := by
  revert idx
  decide

theorem bsize_pos (h : idx < 7) : 0 < bsize idx := by
  revert idx
  decide

theorem countP_single_update {x : Option Nat} (hnot : h ∉ live) (page : Nat) :
    live.countP (single (update m.hdr h x) page) = live.countP (single m.hdr page) := by
  refine countP_congr fun g hg => ?_
  have hne : g ≠ h := fun he => hnot (he ▸ hg)
  rw [single,single,update_of_ne hne]

theorem Handed.transfer (hg : Handed m slabs g) (hsame : m'.hdr g = m.hdr g)
    (hslab : slabs ⊆ slabs') (hlive : ∀ order, 0 < order →
      (⟨g.page,order⟩ : Block) ∈ m.kernel.phys.pmm.live → m.hdr g = some (kflagPage ||| order) →
        (⟨g.page,order⟩ : Block) ∈ m'.kernel.phys.pmm.live) : Handed m' slabs' g := by
  cases hg with
  | small idx hidx hdr page => exact .small idx hidx (hsame.trans hdr) (hslab page)
  | pages order horder hdr off block =>
    exact .pages order horder (hsame.trans hdr) off fun hpos => hlive order hpos (block hpos) hdr

theorem mem_update {free : Nat → List Ptr} {i : Nat} {l : List Ptr} (hg : g ∈ update free idx l i) :
    i = idx ∧ g ∈ l ∨ i ≠ idx ∧ g ∈ free i := by
  by_cases hi : i = idx
  · rw [hi,update_self] at hg
    exact .inl ⟨hi,hg⟩
  · rw [update_of_ne hi] at hg
    exact .inr ⟨hi,hg⟩

namespace Ok

variable {page : Nat}

theorem relist (ho : Ok m slabs live) {k : Nat} {l : List Ptr} (hl : l.Nodup)
    (hold : ∀ g ∈ l, ∀ i, g ∈ m.free i → i = k) : (∀ i, (update m.free k l i).Nodup) ∧
      ∀ i j g, g ∈ update m.free k l i → g ∈ update m.free k l j → i = j := by
  refine ⟨(Function.forall_update_iff _ (p := fun _ l => List.Nodup l)).mpr
    ⟨hl,fun i _ => ho.distinct i⟩,
    fun i j g hi hj => ?_⟩
  rcases mem_update hi with ⟨rfl,hg⟩ | ⟨-,hi'⟩ <;> rcases mem_update hj with ⟨rfl,hg'⟩ | ⟨-,hj'⟩
  · rfl
  · exact (hold g hg j hj').symm
  · exact hold g hg' i hi'
  · exact ho.apart i j g hi' hj'

theorem perm {live' : List Ptr} (ho : Ok m slabs live) (hp : live.Perm live') : Ok m slabs live' where
  inv := ho.inv
  nodup := hp.nodup_iff.mp ho.nodup
  held page := hp.countP_eq _ ▸ ho.held page
  handed g hg := ho.handed g (hp.mem_iff.mpr hg)
  free i g hg := ⟨(ho.free i g hg).1,fun hl => (ho.free i g hg).2 (hp.mem_iff.mpr hl)⟩
  distinct := ho.distinct
  apart := ho.apart

theorem setKernel (ho : Ok m slabs live) (hinv : k.Inv)
    (hheld : ∀ page, m.kernel.held.count page ≤ k.held.count page)
    (hlive : ∀ b ∈ m.kernel.phys.pmm.live, 0 < b.order → b ∈ k.phys.pmm.live) :
    Ok { m with kernel := k } slabs live where
  inv := hinv
  nodup := ho.nodup
  held page := (ho.held page).trans (hheld page)
  handed g hg := (ho.handed g hg).transfer rfl (List.Subset.refl _) fun _ hpos hb _ =>
    hlive _ hb hpos
  free := ho.free
  distinct := ho.distinct
  apart := ho.apart

theorem held_of_free (ho : Ok m slabs live) (hf : m.kernel.phys.pmm.Free page) :
    m.kernel.held.count page = 0 := by
  have hzero := (ho.inv.phys.acct.zero_of_free hf).2
  rw [Pi.add_apply] at hzero
  exact Nat.eq_zero_of_add_eq_zero_left hzero

theorem not_mem_of_free (ho : Ok m slabs live) (hf : m.kernel.phys.pmm.Free page) :
    page ∉ slabs := by
  have hle := ho.held page
  rw [ho.held_of_free hf] at hle
  exact count_eq_zero.mp (Nat.eq_zero_of_add_eq_zero_right (Nat.le_zero.mp hle))

theorem page_ne_of_free (ho : Ok m slabs live) (hf : m.kernel.phys.pmm.Free page)
    {g : Ptr} (hg : g ∈ live) : g.page ≠ page := by
  rintro rfl
  have hnot := ho.not_mem_of_free hf
  cases ho.handed g hg with
  | small idx hidx hdr page => exact hnot page
  | pages order horder hdr off block =>
    rcases Nat.eq_zero_or_pos order with rfl | hpos
    · have hle := ho.held g.page
      rw [ho.held_of_free hf] at hle
      have hcount : 0 < live.countP (single m.hdr g.page) :=
        countP_pos_iff.mpr ⟨g,hg,by rw [single,hdr]; simp⟩
      omega
    · exact ho.inv.phys.acct.wf.not_free_of_live (block hpos) (Block.covers_start _) hf

theorem addPages (ho : Ok { m with kernel := k } slabs live) {page order : Nat}
    (horder : order < maxOrder) (hnew : ∀ g ∈ live, g.page ≠ page) (hslab : page ∉ slabs)
    (hblock : 0 < order → (⟨page,order⟩ : Block) ∈ k.phys.pmm.live)
    (hheld : order = 0 → ∀ f, slabs.count f + live.countP (single m.hdr f) +
      (if page = f then 1 else 0) ≤ k.held.count f) :
    Ok { m with
      kernel := k
      hdr := update m.hdr ⟨page,0⟩ (some (kflagPage ||| order)) } slabs (⟨page,0⟩ :: live) := by
  have hnot : (⟨page,0⟩ : Ptr) ∉ live := fun hmem => hnew _ hmem rfl
  refine ⟨ho.inv,nodup_cons.mpr ⟨hnot,ho.nodup⟩,fun f => ?_,fun g hg => ?_,fun i g hg => ?_,
    ho.distinct,ho.apart⟩
  · have hrest := countP_single_update (m := m) (x := some (kflagPage ||| order)) hnot f
    dsimp only
    rw [countP_cons,hrest,single,update_self]
    by_cases h0 : order = 0
    · subst h0
      have hh := hheld rfl f
      simp only [BEq.rfl,Bool.and_true,beq_iff_eq]
      omega
    have hne : (some (kflagPage ||| order) == some (kflagPage ||| 0)) = false := by
      refine beq_eq_false_iff_ne.mpr fun he => h0 ?_
      have h1 := (flag_and horder).2
      rw [some.inj he] at h1
      exact h1.symm.trans (by decide)
    rw [hne,Bool.and_false]
    exact ho.held f
  · rcases mem_cons.mp hg with rfl | hg
    · exact .pages order horder (update_self ..) rfl hblock
    · have hne : g ≠ ⟨page,0⟩ := fun he => hnot (he ▸ hg)
      exact (ho.handed g hg).transfer (update_of_ne hne ..) (List.Subset.refl _) fun _ _ hb _ => hb
  · obtain ⟨hpage,hg'⟩ := ho.free i g hg
    refine ⟨hpage,fun hmem => ?_⟩
    rcases mem_cons.mp hmem with rfl | hmem
    · exact hslab hpage
    · exact hg' hmem

theorem addSlab (ho : Ok { m with kernel := k } slabs live) {page idx : Nat}
    (hnew : ∀ g ∈ live, g.page ≠ page) (hslab : page ∉ slabs)
    (hheld : ∀ f, slabs.count f + live.countP (single m.hdr f) + (if page = f then 1 else 0) ≤
      k.held.count f) (hidx : idx < 7) (c : Nat) :
    Ok { m with
      kernel := k
      free := update m.free idx (blocks page (bsize idx) ++ m.free idx)
      nrKfree := c }
      (page :: slabs) live := by
  have hold : ∀ i, ∀ g ∈ m.free i, g.page ≠ page := fun i g hg he => hslab (he ▸ (ho.free i g hg).1)
  have hcut : ∀ g ∈ blocks page (bsize idx), g.page = page := by
    intro g hg
    obtain ⟨i,-,rfl⟩ := mem_map.mp (mem_reverse.mp hg)
    rfl
  have hnd : (blocks page (bsize idx) ++ m.free idx).Nodup := by
    refine nodup_append'.mpr ⟨?_,ho.distinct idx,fun g hg hg' => hold idx g hg' (hcut g hg)⟩
    refine nodup_reverse.mpr (List.Nodup.map (fun a b hab => ?_) nodup_range)
    exact Nat.eq_of_mul_eq_mul_right (bsize_pos hidx) (Ptr.mk.inj hab).2
  have hlists := ho.relist hnd fun g hg i hi => by
    rcases mem_append.mp hg with hg | hg
    · exact absurd (hcut g hg) (hold i g hi)
    · exact ho.apart i idx g hi hg
  have hkept : ∀ i, ∀ g ∈ m.free i, g.page ∈ page :: slabs ∧ g ∉ live := fun i g hg =>
    ⟨mem_cons_of_mem _ (ho.free i g hg).1,(ho.free i g hg).2⟩
  refine ⟨ho.inv,ho.nodup,fun f => ?_,fun g hg => ?_,fun i g hg => ?_,hlists.1,hlists.2⟩
  · have hh := hheld f
    rw [List.count_cons]
    simp only [beq_iff_eq]
    omega
  · exact (ho.handed g hg).transfer rfl (subset_cons_self _ _) fun _ _ hb _ => hb
  · rcases mem_update hg with ⟨-,hg⟩ | ⟨-,hg⟩
    · rcases mem_append.mp hg with hg | hg
      · exact ⟨hcut g hg ▸ mem_cons_self,fun hl => hnew g hl (hcut g hg)⟩
      · exact hkept idx g hg
    · exact hkept i g hg

theorem take (ho : Ok m slabs live) {rest : List Ptr} (hidx : idx < 7)
    (hfree : m.free idx = h :: rest) (c : Nat) :
    Ok { m with
      free := update m.free idx rest
      nrKfree := c
      hdr := update m.hdr h (some (bsize idx)) } slabs (h :: live) := by
  have hmem : h ∈ m.free idx := hfree ▸ mem_cons_self
  obtain ⟨hpage,hnot⟩ := ho.free idx h hmem
  have hnd := ho.distinct idx
  rw [hfree] at hnd
  obtain ⟨hrest,hnd⟩ := nodup_cons.mp hnd
  have hsub : ∀ i g, g ∈ update m.free idx rest i → g ∈ m.free i ∧ g ≠ h := by
    intro i g hg
    rcases mem_update hg with ⟨rfl,hg'⟩ | ⟨hi,hg⟩
    · exact ⟨hfree ▸ mem_cons_of_mem _ hg',fun he => hrest (he ▸ hg')⟩
    · exact ⟨hg,fun he => hi (ho.apart i idx h (he ▸ hg) hmem)⟩
  have hlists := ho.relist hnd fun g hg i hi => ho.apart i idx g hi (hfree ▸ mem_cons_of_mem _ hg)
  refine ⟨ho.inv,nodup_cons.mpr ⟨hnot,ho.nodup⟩,fun f => ?_,fun g hg => ?_,fun i g hg => ?_,
    hlists.1,hlists.2⟩
  · have hcount := countP_single_update (m := m) (x := some (bsize idx)) hnot f
    have hne : (some (bsize idx) == some (kflagPage ||| 0)) = false :=
      beq_eq_false_iff_ne.mpr fun he => bsize_ne_flag hidx (some.inj he)
    dsimp only
    rw [countP_cons,hcount,single,update_self,hne,Bool.and_false]
    exact ho.held f
  · rcases mem_cons.mp hg with rfl | hg
    · exact .small idx hidx (update_self ..) hpage
    · have hne : g ≠ h := fun he => hnot (he ▸ hg)
      exact (ho.handed g hg).transfer (update_of_ne hne ..) (List.Subset.refl _) fun _ _ hb _ => hb
  · obtain ⟨hg,hne⟩ := hsub i g hg
    refine ⟨(ho.free i g hg).1,fun hl => ?_⟩
    rcases mem_cons.mp hl with he | hl
    · exact hne he
    · exact (ho.free i g hg).2 hl

theorem allocPages_none (ho : Ok m slabs live)
    (ha : m.kernel.allocPages order = (k,none)) : Ok { m with kernel := k } slabs live := by
  obtain ⟨rfl,hnone⟩ := Prod.mk.inj ha
  have hpair : allocPages m.kernel.phys.pmm order =
      ((allocPages m.kernel.phys.pmm order).1,none) := Prod.ext rfl hnone
  have hs := allocPages_none hpair
  have hk := hpair
  rw [hs] at hk
  refine ho.setKernel ho.inv.kalloc.1.1 (fun page => ?_) fun b hb _ => ?_
  · rw [Kernel.kalloc,hk]
  · rw [Kernel.kalloc,hk]
    exact hb

structure Fresh (m : Kmem) (slabs : List Nat) (live : List Ptr) (k : Kernel) (page order : Nat) :
    Prop where
  ok : Ok { m with kernel := k } slabs live
  lt : order < maxOrder
  handed : ∀ g ∈ live, g.page ≠ page
  cut : page ∉ slabs
  block : (⟨page,order⟩ : Block) ∈ k.phys.pmm.live
  kept : ∀ b ∈ m.kernel.phys.pmm.live, 0 < b.order → b ∈ k.phys.pmm.live
  held : order = 0 → ∀ f, slabs.count f + live.countP (single m.hdr f) +
    (if page = f then 1 else 0) ≤ k.held.count f

theorem allocPages_some (ho : Ok m slabs live)
    (ha : m.kernel.allocPages order = (k,some page)) : Fresh m slabs live k page order := by
  obtain ⟨rfl,hsome⟩ := Prod.mk.inj ha
  have hpair : allocPages m.kernel.phys.pmm order =
      ((allocPages m.kernel.phys.pmm order).1,some page) := Prod.ext rfl hsome
  have ht := allocPages_some ho.inv.phys.acct.wf hpair
  have hfree := ht.wasFree page (Block.covers_start _)
  have hlive : (m.kernel.kalloc order).phys.pmm.live = ⟨page,order⟩ :: m.kernel.phys.pmm.live := by
    rw [Kernel.kalloc,hpair]
    exact ht.live
  have hheld : (m.kernel.kalloc order).held =
      if order = 0 then page :: m.kernel.held else m.kernel.held := by
    rw [Kernel.kalloc,hpair]
  refine ⟨ho.setKernel ho.inv.kalloc.1.1 (fun f => ?_) (fun b hb _ => ?_),ht.inRange.order,
    fun g hg => ho.page_ne_of_free hfree hg,ho.not_mem_of_free hfree,?_,fun b hb _ => ?_,
    fun h0 f => ?_⟩
  · rw [hheld]
    split
    · exact count_le_count_cons
    · exact le_rfl
  · rw [hlive]
    exact mem_cons_of_mem _ hb
  · rw [hlive]
    exact mem_cons_self
  · rw [hlive]
    exact mem_cons_of_mem _ hb
  · have hle := ho.held f
    rw [hheld,if_pos h0,List.count_cons]
    simp only [beq_iff_eq]
    omega

theorem giveBack (ho : Ok m slabs (h :: live)) {idx : Nat} (hpage : h.page ∈ slabs) (c : Nat) :
    Ok { m with
      free := update m.free idx (h :: m.free idx)
      nrKfree := c
      hdr := update m.hdr h none } slabs live := by
  obtain ⟨hnot,hnd⟩ := nodup_cons.mp ho.nodup
  have hout : ∀ i, h ∉ m.free i := fun i hi => (ho.free i h hi).2 mem_cons_self
  have hlists := ho.relist (k := idx) (nodup_cons.mpr ⟨hout idx,ho.distinct idx⟩) fun g hg i hi => by
    rcases mem_cons.mp hg with he | hg
    · exact absurd (he ▸ hi) (hout i)
    · exact ho.apart i idx g hi hg
  have hkept : ∀ i, ∀ g ∈ m.free i, g.page ∈ slabs ∧ g ∉ live := fun i g hg =>
    ⟨(ho.free i g hg).1,fun hl => (ho.free i g hg).2 (mem_cons_of_mem _ hl)⟩
  refine ⟨ho.inv,hnd,fun f => ?_,fun g hg => ?_,fun i g hg => ?_,hlists.1,hlists.2⟩
  · have hle := ho.held f
    rw [countP_cons] at hle
    dsimp only
    rw [countP_single_update hnot]
    omega
  · have hne : g ≠ h := fun he => hnot (he ▸ hg)
    exact (ho.handed g (mem_cons_of_mem _ hg)).transfer (update_of_ne hne ..)
      (List.Subset.refl _) fun _ _ hb _ => hb
  · rcases mem_update hg with ⟨-,hg⟩ | ⟨-,hg⟩
    · rcases mem_cons.mp hg with rfl | hg
      · exact ⟨hpage,hnot⟩
      · exact hkept idx g hg
    · exact hkept i g hg

theorem held_of_single (ho : Ok m slabs (h :: live)) (hdr : m.hdr h = some (kflagPage ||| 0)) :
    h.page ∈ m.kernel.held := by
  have hle := ho.held h.page
  have hself : single m.hdr h.page h = true := by
    rw [single,hdr]
    simp
  rw [countP_cons,if_pos hself] at hle
  exact count_pos_iff.mp (by omega)

theorem holds_pages (ho : Ok m slabs (h :: live)) {order : Nat}
    (hdr : m.hdr h = some (kflagPage ||| order))
    (hblock : 0 < order → (⟨h.page,order⟩ : Block) ∈ m.kernel.phys.pmm.live) :
    m.kernel.holds ⟨h.page,order⟩ = true ∧ h.page < m.kernel.phys.pmm.nrPages := by
  have hwf := ho.inv.phys.acct.wf
  have hlive : (⟨h.page,order⟩ : Block) ∈ m.kernel.phys.pmm.live := by
    rcases Nat.eq_zero_or_pos order with rfl | hpos
    · refine ho.inv.phys.acct.live h.page ?_
      have hcount := count_pos_iff.mpr (ho.held_of_single hdr)
      simp only [Pi.add_apply,Kernel.heldRefs]
      omega
    · exact hblock hpos
  have hfits : h.page + 2 ^ order ≤ m.kernel.phys.pmm.nrPages := (hwf.inRange_live hlive).fits
  have hpow := Nat.two_pow_pos order
  refine ⟨?_,by omega⟩
  rw [Kernel.holds]
  split
  · rename_i h0
    dsimp only at h0
    subst h0
    simpa using ho.held_of_single hdr
  · simpa using hlive

theorem kfree_blocks {s : Pmm}
    (hs : freePages k.phys.pmm page order = some s) {b : Block}
    (hb : b ∈ k.phys.pmm.live) (hpos : 0 < b.order) (hne : b ≠ ⟨page,order⟩) : b ∈ s.live := by
  rw [freePages] at hs
  split at hs
  · cases hs
  split at hs
  · have hmem : b ∈ k.phys.pmm.live.filter fun b => decide (0 < b.order) :=
      mem_filter.mpr ⟨hb,decide_eq_true hpos⟩
    have he := (Prod.mk.inj (putPage_same hs).2).2
    rw [← he] at hmem
    exact (mem_filter.mp hmem).1
  · obtain rfl := some.inj hs
    rw [freeOnePage,(mergeLoop_kept maxOrder _ page order).live]
    exact (mem_erase_of_ne hne).mpr hb

theorem freePages (ho : Ok m slabs (h :: live)) {order : Nat} (horder : order < maxOrder)
    (hdr : m.hdr h = some (kflagPage ||| order)) (hoff : h.off = 0)
    (hblock : 0 < order → (⟨h.page,order⟩ : Block) ∈ m.kernel.phys.pmm.live) :
    ∃ k, m.kernel.freePages h order = some k ∧
      Ok { m with kernel := k, hdr := update m.hdr h none } slabs live := by
  obtain ⟨hholds,hlt⟩ := ho.holds_pages hdr hblock
  have hinv := (ho.inv.kfree hholds).1.1
  cases hs : Buddy.freePages m.kernel.phys.pmm h.page order with
  | none =>
    have hrun := hinv.phys.running
    rw [Kernel.kfree,hs] at hrun
    cases hrun
  | some s =>
    have hk : m.kernel.kfree ⟨h.page,order⟩ = { m.kernel with
        phys := { m.kernel.phys with pmm := s }
        held := if order = 0 then m.kernel.held.erase h.page else m.kernel.held } := by
      rw [Kernel.kfree,hs]
    refine ⟨m.kernel.kfree ⟨h.page,order⟩,?_,?_⟩
    · rw [Kernel.freePages,if_neg (by simp [hoff,hlt]),hs,map_some]
    obtain ⟨hnot,hnd⟩ := nodup_cons.mp ho.nodup
    refine ⟨hinv,hnd,fun f => ?_,fun g hg => ?_,fun i g hg => ?_,ho.distinct,ho.apart⟩
    · have hle := ho.held f
      rw [countP_cons,single,hdr] at hle
      dsimp only
      rw [countP_single_update hnot,hk]
      dsimp only
      split
      · rename_i h0
        subst h0
        rw [List.count_erase]
        simp only [BEq.rfl,Bool.and_true] at hle ⊢
        omega
      · omega
    · have hne : g ≠ h := fun he => hnot (he ▸ hg)
      have hg' := ho.handed g (mem_cons_of_mem _ hg)
      refine hg'.transfer (update_of_ne hne ..) (List.Subset.refl _) fun order' hpos hb hdr' => ?_
      dsimp only
      rw [hk]
      refine kfree_blocks hs hb hpos fun he => hne (Ptr.ext (congrArg Dyadic.Block.start he) ?_)
      cases hg' with
      | small idx hidx hdr'' page =>
        exact absurd (some.inj (hdr''.symm.trans hdr')) (bsize_ne_flag hidx)
      | pages _ _ _ off _ => exact off.trans hoff.symm
    · exact ⟨(ho.free i g hg).1,fun hl => (ho.free i g hg).2 (mem_cons_of_mem _ hl)⟩

end Ok

end TinyOs.Slab
