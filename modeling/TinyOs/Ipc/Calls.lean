import TinyOs.Ipc.Context

namespace TinyOs

open Count List Option ShmTable

variable {addr shmid : Nat} {b : Bool} {mm : Mm}

namespace Ctx

variable {x x' x'' : Ctx} {X Y N : Nat → Nat} {i id : Nat} {v : Vma}

structure Shrunk (x x' : Ctx) (X Y N : Nat → Nat) : Prop where
  ok : x'.Ok X Y N
  dir : x'.mm.dir = x.mm.dir
  out : Outside x.shm x'.shm x.mm.pd.userRefs x'.mm.pd.userRefs X N
  slots : ∀ id j f, (x'.shm id).pages j = some f → (x.shm id).pages j = some f
  refs : ∀ f, x'.mm.pd.userRefs f ≤ x.mm.pd.userRefs f
  segs : ∀ f, x'.shm.refs f ≤ x.shm.refs f
  same : x.phys.Same x'.phys

theorem Shrunk.refl (h : x.Ok X Y N) : Shrunk x x X Y N :=
  ⟨h,rfl,Outside.refl _ _ _ _,fun _ _ _ => id,fun _ => le_rfl,fun _ => le_rfl,.refl _⟩

theorem Shrunk.trans (h : Shrunk x x' X Y N) (h' : Shrunk x' x'' X Y N) : Shrunk x x'' X Y N where
  ok := h'.ok
  dir := h'.dir.trans h.dir
  out := h.out.trans h'.out
  slots id j f hf := h.slots id j f (h'.slots id j f hf)
  refs f := (h'.refs f).trans (h.refs f)
  segs f := (h'.segs f).trans (h.segs f)
  same := h.same.trans h'.same

structure Dropped (x x' : Ctx) (X Y N : Nat → Nat) (i : Nat) (v : Vma) : Prop where
  shrunk : Shrunk x x' X Y N
  unused : v.used = false
  mm : x'.mm = { x.mm with pd := x'.mm.pd }.setVma i v
  lookup : ∀ a < word, x'.mm.pd.lookup a =
    if (x.mm.vmas i).start ≤ a ∧ a < (x.mm.vmas i).stop then none else x.mm.pd.lookup a
  stable : ∀ id, 0 < x'.mm.attached id → (x'.shm id).pages = (x.shm id).pages

theorem Released.dropped (h : Released x x' X Y N i v) (hv : v.used = false) :
    Dropped x x' X Y N i v := by
  obtain ⟨hok,hshm,hmm,hlook,hrefs,hsame⟩ := h
  refine ⟨⟨hok,by rw [hmm]; rfl,?_,fun _ _ _ hj => hshm ▸ hj,hrefs,
    fun f => (congrArg (ShmTable.refs · f) hshm).le,hsame⟩,hv,hmm,hlook,fun id _ => by rw [hshm]⟩
  rw [hshm]
  exact Outside.of_refs fun f _ h0 _ => Nat.le_zero.mp ((hrefs f).trans_eq h0)

theorem Ok.dropPrivate (h : x.Ok X Y N) (hi : i < nvma) (hu : (x.mm.vmas i).used = true)
    (hid : vmaShmid (x.mm.vmas i) = none) (hv : v.used = false) :
    Dropped x ((x.unmapVma (x.mm.vmas i)).setVma i v) X Y N i v := by
  have hr := h.unmapVma hi hu hv
  rw [vmaAttach_none hid,zero_add] at hr
  exact hr.dropped hv

theorem Ok.shmMunmapVma (h : x.Ok X Y N) (hi : i < nvma) (hid : vmaShmid (x.mm.vmas i) = some id) :
    ∃ v, x.shmMunmapVma i = (((x.unmapVma (x.mm.vmas i)).setVma i v).detach id,true) ∧
      Dropped x (((x.unmapVma (x.mm.vmas i)).setVma i v).detach id) X Y N i v := by
  refine ⟨{ x.mm.vmas i with used := false, flags := 0 },by simp only [Ctx.shmMunmapVma,hid],?_⟩
  generalize hv : ({ x.mm.vmas i with used := false, flags := 0 } : Vma) = v
  have hun : v.used = false := by rw [← hv]
  have hr := h.unmapVma hi (used_of_shmid hid) hun
  rw [vmaAttach_some hid] at hr
  have hd := hr.ok.detach
  generalize (x.unmapVma (x.mm.vmas i)).setVma i v = y at hr hd ⊢
  obtain ⟨hok,hmm,hstable,hsegs,hslots,hsame⟩ := hd
  generalize y.detach id = z at hok hmm hstable hsegs hslots hsame ⊢
  rw [hr.shm] at hstable hsegs hslots
  have hrefs : ∀ f, z.mm.pd.userRefs f ≤ x.mm.pd.userRefs f := by
    rw [hmm]
    exact hr.refs
  refine ⟨⟨hok,?_,Outside.of_le (fun j hj => hstable j (Nat.add_pos_right _ hj)) hslots hrefs
    hsegs,hslots,hrefs,hsegs,hr.same.trans hsame⟩,hun,?_,?_,
    fun j hj => (hstable j (Nat.add_pos_left (hmm ▸ hj) _)).2⟩
  · rw [hmm,hr.mm]
    rfl
  · rw [hmm]
    exact hr.mm
  · rw [hmm]
    exact hr.lookup

theorem doMunmap_cases {len : Nat} (h : x.Ok X Y N) (hm : x.doMunmap addr len = (x',b)) :
    (x' = x ∧ b = false) ∨ (b = true ∧ ∃ i v, i < nvma ∧ (x.mm.vmas i).used = true ∧
      x.mm.vmaFind addr ((addr + pgRoundUp len) % word) = some i ∧ Dropped x x' X Y N i v) := by
  simp only [doMunmap] at hm
  split at hm
  · cases hm
    exact .inl ⟨rfl,rfl⟩
  split at hm
  · cases hm
    exact .inl ⟨rfl,rfl⟩
  split at hm
  · cases hm
    exact .inl ⟨rfl,rfl⟩
  rename_i i hi
  have hlt : i < nvma := mem_range.mp (mem_of_find?_eq_some hi)
  have hu : (x.mm.vmas i).used = true := by
    have := find?_some hi
    simp only [Bool.and_eq_true] at this
    exact this.1.1
  rcases hid : vmaShmid (x.mm.vmas i) with _ | id
  · rw [hid] at hm
    cases hm
    exact .inr ⟨rfl,i,_,hlt,hu,hi,h.dropPrivate hlt hu hid rfl⟩
  rw [hid] at hm
  obtain ⟨v,he,hd⟩ := h.shmMunmapVma hlt hid
  simp only [isSome_some,if_true,he] at hm
  cases hm
  exact .inr ⟨rfl,i,v,hlt,hu,hi,hd⟩

theorem doShmdt_cases {shmaddr : Nat} (h : x.Ok X Y N) (hm : x.doShmdt shmaddr = (x',b)) :
    (x' = x ∧ b = false) ∨ (b = true ∧ ∃ i v, i < nvma ∧ (x.mm.vmas i).used = true ∧
      Dropped x x' X Y N i v) := by
  simp only [doShmdt] at hm
  split at hm
  · cases hm
    exact .inl ⟨rfl,rfl⟩
  split at hm
  · cases hm
    exact .inl ⟨rfl,rfl⟩
  rename_i i hi
  have hlt : i < nvma := mem_range.mp (mem_of_find?_eq_some hi)
  have hsome := find?_some hi
  simp only [Bool.and_eq_true,isSome_iff_exists] at hsome
  obtain ⟨⟨id,hid⟩,-⟩ := hsome
  obtain ⟨v,he,hd⟩ := h.shmMunmapVma hlt hid
  rw [he] at hm
  cases hm
  exact .inr ⟨rfl,i,v,hlt,used_of_shmid hid,hd⟩

theorem Dropped.vmas (h : Dropped x x' X Y N i v) (j : Nat) :
    x'.mm.vmas j = if j = i then v else x.mm.vmas j := by
  rw [h.mm]
  exact Function.update_apply _ _ _ _

theorem shmDetachAll_spec (h : x.Ok X Y N) :
    Shrunk x x.shmDetachAll X Y N ∧ ∀ i < nvma, vmaShmid (x.shmDetachAll.mm.vmas i) = none := by
  have hloop : ∀ n ≤ nvma,
      let y := (List.range n).foldl
        (fun x i => if (vmaShmid (x.mm.vmas i)).isSome then (x.shmMunmapVma i).1 else x) x
      Shrunk x y X Y N ∧ ∀ i < n, vmaShmid (y.mm.vmas i) = none := by
    intro n
    induction n with
    | zero => exact fun _ => ⟨Shrunk.refl h,fun i hi => by omega⟩
    | succ n ih =>
      intro hn
      obtain ⟨hs,hnone⟩ := ih (by omega)
      simp only [range_succ,foldl_append,foldl_cons,foldl_nil]
      generalize (List.range n).foldl (fun x i =>
        if (vmaShmid (x.mm.vmas i)).isSome then (x.shmMunmapVma i).1 else x) x = y at hs hnone ⊢
      rcases hid : vmaShmid (y.mm.vmas n) with _ | id
      · refine ⟨hs,fun i hi => ?_⟩
        by_cases he : i = n
        · exact he ▸ hid
        · exact hnone i (by omega)
      obtain ⟨v,he,hd⟩ := hs.ok.shmMunmapVma (by omega) hid
      simp only [isSome_some,if_true,he]
      refine ⟨hs.trans hd.shrunk,fun i hi => ?_⟩
      rw [hd.vmas]
      split
      · exact vmaShmid_unused hd.unused
      · exact hnone i (by omega)
  rw [shmDetachAll]
  exact hloop nvma le_rfl

end Ctx

theorem vmaShmid_flags {v : Vma} {id : Nat} (hid : id < nshm) (hu : v.used = true)
    (hf : v.flags = vmaFlagsWithShmid mapShared id) : vmaShmid v = some id := by
  have hflags : v.flags / 2 ^ 16 % 2 ^ 16 = id + 1 := by
    rw [hf]
    simp only [vmaFlagsWithShmid,mapShared,nshm] at *
    omega
  simp only [vmaShmid,hu,if_true,hflags,Nat.add_eq_zero_iff,one_ne_zero,and_false,if_false,
    Nat.add_sub_cancel]

theorem shmGet_some {tbl : ShmTable} {id : Nat} {seg : ShmSeg} (h : shmGet tbl id = some seg) :
    id < nshm ∧ seg = tbl id ∧ (tbl id).inuse = true := by
  obtain ⟨hid,h⟩ := ite_none_left_eq_some.mp h
  split at h
  · rename_i huse
    cases h
    exact ⟨by omega,rfl,huse⟩
  · cases h

theorem Mm.vmaCreate_some {mm' : Mm} {start stop prot flags i : Nat}
    (h : mm.vmaCreate start stop prot flags shmid = some (i,mm')) :
    i < nvma ∧ (mm.vmas i).used = false ∧ mm.Vacant start stop ∧
      mm' = mm.setVma i ⟨true,start,stop,prot,vmaFlagsWithShmid flags shmid⟩ := by
  simp only [vmaCreate] at h
  split at h
  · cases h
  split at h
  · rename_i havail
    simp only [map_eq_some_iff] at h
    obtain ⟨j,hj,he⟩ := h
    cases he
    obtain ⟨hlt,hfree⟩ := vmaAllocSlot_spec hj
    exact ⟨hlt,hfree,vacant_of_regionAvailable havail,rfl⟩
  · cases h

namespace Ctx

variable {x x' x'' : Ctx} {X Y N : Nat → Nat} {i id r : Nat} {v : Vma} {s : Space}

structure Attaching (x : Ctx) (i : Nat) (v : Vma) (shmid : Nat) : Prop where
  slot : i < nvma
  free : (x.mm.vmas i).used = false
  bound : shmid < nshm
  inuse : (x.shm shmid).inuse = true
  seg : vmaShmid v = some shmid
  vacant : x.mm.Vacant v.start v.stop
  aligned : v.start % pgSize = 0
  stop : v.stop = v.start + (x.shm shmid).size

theorem doShmat_cases {shmaddr shmflg : Nat} (h : x.Ok X Y N)
    (hs : x.doShmat shmid shmaddr shmflg = (x',r)) :
    (x' = x ∧ r = failure) ∨ ∃ i v, Attaching x i v shmid ∧
      ((∃ s, shmMapRange v (x.shm shmid) x.space = (s,false) ∧ r = failure ∧
          x' = (x.setSpace s).setVma i { v with used := false }) ∨
        (∃ s, shmMapRange v (x.shm shmid) x.space = (s,true) ∧ r = v.start ∧
          x' = { (x.setSpace s).setVma i v with
            shm := x.shm.set shmid { x.shm shmid with nattch := (x.shm shmid).nattch + 1 } })) := by
  simp only [doShmat] at hs
  split at hs
  · cases hs
    exact .inl ⟨rfl,rfl⟩
  rename_i seg hseg
  obtain ⟨hid,rfl,huse⟩ := shmGet_some hseg
  split at hs
  · cases hs
    exact .inl ⟨rfl,rfl⟩
  generalize (if shmflg &&& shmRdonly = 0 then protRead ||| protWrite else protRead) = prot at hs
  split at hs
  · cases hs
    exact .inl ⟨rfl,rfl⟩
  rename_i start hstart
  split at hs
  · cases hs
    exact .inl ⟨rfl,rfl⟩
  rename_i i mm hcreate
  obtain ⟨hlt,hfree,hvac,rfl⟩ := Mm.vmaCreate_some hcreate
  have hal : start % pgSize = 0 := by
    split at hstart
    · split at hstart
      · cases hstart
      rename_i hal
      split at hstart
      · cases hstart
        omega
      · cases hstart
    · split at hstart
      · cases hstart
      · cases hstart
        exact (Mm.findMmapAddr_spec ‹_›).1
  have hsize : (x.shm shmid).size ≤ 2 ^ 20 := by
    have h1 := (h.shm.seg shmid).size
    have h2 := (h.shm.seg shmid).bound
    simp only [shmMaxPages,pgSize] at h1 h2
    omega
  have hstop : (start + (x.shm shmid).size) % word = start + (x.shm shmid).size := by
    have h1 := hvac.lt
    have h2 := hvac.top
    simp only [userHeapTop,userStackBottom,userStack,userEnd,kernBase,userStackSize,userStackGuard,
      pgSize,word] at *
    omega
  rw [hstop] at hvac hs
  refine .inr ⟨i,⟨true,start,start + (x.shm shmid).size,prot,vmaFlagsWithShmid mapShared shmid⟩,
    ⟨hlt,hfree,hid,huse,vmaShmid_flags hid rfl rfl,hvac,hal,rfl⟩,?_⟩
  rw [Mm.setVma_self] at hs
  split at hs
  · rename_i s hmap
    cases hs
    refine .inl ⟨s,hmap,rfl,?_⟩
    simp only [Ctx.setVma,Ctx.setSpace,Mm.setVma,Function.update_idem]
  · rename_i s hmap
    cases hs
    exact .inr ⟨s,hmap,rfl,rfl⟩

structure Remap (x : Ctx) (s : Space) (X Y : Nat → Nat) (v : Vma) (shmid : Nat) (b : Bool) :
    Prop where
  remapped : Remapped x.space s (x.shm.refs + X) Y
    (fun p => v.start / pgSize ≤ p ∧ p < v.stop / pgSize)
    (fun g => ∃ j, (x.shm shmid).pages j = some g)
  done : b = true → ∀ j f, (x.shm shmid).pages j = some f → ∀ a < word,
    a / pgSize = v.start / pgSize + j → s.pd.lookup a = some ⟨f,⟨v.writable,true,false⟩⟩
  failed : b = false → s.phys.pmm.failed ≠ 0 ∧
    ∃ a, v.start ≤ a ∧ a < v.stop ∧ x.mm.pd.lookup a = none

theorem remap_of_shmMapRange (hwf : x.shm.Wf)
    (h : x.space.Ok (x.shm.refs + X) Y) (hX : ∀ g, X g ≤ 2 ^ 30) (hal : v.start % pgSize = 0)
      (htop : v.stop ≤ userEnd)
    (hstop : v.stop = v.start + (x.shm shmid).size)
    (hm : shmMapRange v (x.shm shmid) x.space = (s,b)) : Remap x s X Y v shmid b := by
  have hseg := hwf.seg shmid
  have hfit : v.start + (x.shm shmid).npages * pgSize ≤ userEnd := by
    rw [← hseg.size,← hstop]
    exact htop
  have hdiv : v.stop / pgSize = v.start / pgSize + (x.shm shmid).npages := by
    rw [hstop,hseg.size]
    exact Nat.add_mul_div_right _ _ (by decide)
  have hX' : ∀ g, (x.shm.refs + X) g ≤ 2 ^ 31 := fun g => by
    have h1 := x.shm.refs_le g
    have h2 := hX g
    rw [Pi.add_apply]
    omega
  have hpages : ∀ j < (x.shm shmid).npages, ∃ f, (x.shm shmid).pages j = some f ∧
      0 < (x.shm.refs + X) f := by
    intro j hj
    obtain ⟨f,hf⟩ := isSome_iff_exists.mp ((hseg.slots j).mpr hj)
    exact ⟨f,hf,Nat.add_pos_left (hwf.slot_refs hf).2 _⟩
  obtain ⟨hre,hdone,hfail⟩ := shmMapRange_spec h hX' hal hfit hpages
  rw [hm] at hre hdone hfail
  rw [← hdiv] at hre
  refine ⟨hre,fun hb j f hf => hdone hb j f hf (hseg.slot_lt hf).1,fun hb => ⟨(hfail hb).1,?_⟩⟩
  obtain ⟨i,hi,hnone⟩ := (hfail hb).2
  refine ⟨v.start + i * pgSize,Nat.le_add_right _ _,?_,hnone⟩
  rw [hstop,hseg.size]
  simp only [pgSize]
  omega

theorem Attaching.remap (ha : Attaching x i v shmid) (h : x.Ok X Y N) (hX : ∀ g, X g ≤ 2 ^ 30)
    (hm : shmMapRange v (x.shm shmid) x.space = (s,b)) : Remap x s X Y v shmid b :=
  remap_of_shmMapRange h.shm h.space hX ha.aligned (ha.vacant.top.trans userHeapTop_le) ha.stop hm

theorem Remap.out (h : Remap x s X Y v shmid b) (hwf : x.shm.Wf) :
    Outside x.shm x.shm x.mm.pd.userRefs s.pd.userRefs X N := by
  refine Outside.of_refs fun f _ hown hsegs => ?_
  rcases h.remapped.refs f with hle | ⟨j,hj⟩
  · exact Nat.le_zero.mp (hle.trans_eq hown)
  · have := (hwf.slot_refs hj).2
    omega

theorem Remap.present {a : Nat} (h : Remap x s X Y v shmid true)
    (hseg : (x.shm shmid).Wf) (hal : v.start % pgSize = 0) (htop : v.stop ≤ userEnd)
    (hstop : v.stop = v.start + (x.shm shmid).size) (hlo : v.start ≤ a) (hhi : a < v.stop) :
    s.pd.lookup a ≠ none := by
  have hk : (a - v.start) / pgSize < (x.shm shmid).npages := by
    rw [hseg.size] at hstop
    simp only [pgSize] at *
    omega
  obtain ⟨f,hf⟩ := isSome_iff_exists.mp ((hseg.slots _).mpr hk)
  have hpage : a / pgSize = v.start / pgSize + (a - v.start) / pgSize := by
    simp only [pgSize] at *
    omega
  rw [h.done rfl _ f hf a (hhi.trans_le (htop.trans userEnd_lt.le)) hpage]
  exact some_ne_none _

theorem Attaching.kept (ha : Attaching x i v shmid)
    (h : x.Ok X Y N) (hr : Remap x s X Y v shmid b) :
    ∀ j < nvma, ∀ id, vmaShmid (x.mm.vmas j) = some id → ∀ a, (x.mm.vmas j).start ≤ a →
      a < (x.mm.vmas j).stop → s.pd.lookup a ≠ none := by
  intro j hj id hid a hlo hhi
  have hu := used_of_shmid hid
  have hend := h.layout.vma_le_userEnd hj hu
  have hw := userEnd_lt
  have hal := ha.aligned
  have hal' := (h.layout.aligned j hj hu).1
  have hclear := ha.vacant.clear j hj hu
  rw [hr.remapped.other a (by omega) ?_]
  · exact h.backed.mapped j hj id hid a hlo hhi
  have hal'' : v.stop % pgSize = 0 := by
    rw [ha.stop,(h.shm.seg shmid).size]
    simp only [pgSize] at hal ⊢
    omega
  simp only [pgSize] at *
  omega

theorem Attaching.fail (ha : Attaching x i v shmid)
    (h : x.Ok X Y N) (hr : Remap x s X Y v shmid b) {u : Vma} (hu : u.used = false) :
    ((x.setSpace s).setVma i u).Ok X Y N := by
  have hlay : (x.mm.setVma i u).Layout := h.layout.remove hu
  have hatt := Mm.attached_setVma x.mm u ha.slot
  rw [vmaAttach_none (vmaShmid_unused hu),vmaAttach_none (vmaShmid_unused ha.free),add_zero,
    add_zero] at hatt
  refine ⟨hr.remapped.ok,h.shm,hlay.setPd _,⟨?_,?_⟩,fun id => ?_⟩
  · intro j hj id hid
    obtain ⟨-,he⟩ := Mm.shmid_setVma x.mm hu hid
    exact (h.backed.size j hj id (he ▸ hid)).trans (he ▸ rfl)
  · intro j hj id hid a hlo hhi
    obtain ⟨-,he⟩ := Mm.shmid_setVma x.mm hu hid
    exact ha.kept h hr j hj id (he ▸ hid) a (he ▸ hlo) (he ▸ hhi)
  · exact (h.attach id).trans (congrArg (fun g => (g + N) id) hatt.symm)

theorem Attaching.done (ha : Attaching x i v shmid)
    (h : x.Ok X Y N) (hr : Remap x s X Y v shmid true) :
    Ok { (x.setSpace s).setVma i v with
      shm := x.shm.set shmid { x.shm shmid with nattch := (x.shm shmid).nattch + 1 } } X Y N := by
  obtain ⟨seg,hseg⟩ : ∃ seg : ShmSeg,
    seg = { x.shm shmid with nattch := (x.shm shmid).nattch + 1 } := ⟨_,rfl⟩
  have hwf := h.shm.seg shmid
  have hwf' : seg.Wf := by
    rw [hseg]
    exact ⟨hwf.bound,hwf.slots,hwf.size,hwf.inuse,fun hf => by simp [ha.inuse] at hf⟩
  have hpages : seg.pages = (x.shm shmid).pages := by rw [hseg]
  have hsize : ∀ id, (x.shm.set shmid seg id).size = (x.shm id).size := by
    intro id
    by_cases he : id = shmid
    · subst he
      rw [set_self,hseg]
    · rw [set_of_ne he]
  have hal : v.stop % pgSize = 0 := by
    have := ha.aligned
    rw [ha.stop,hwf.size]
    simp only [pgSize] at *
    omega
  have hlay : (x.mm.setVma i v).Layout := h.layout.setVma fun _ => ⟨ha.vacant,ha.aligned,hal⟩
  have hatt := Mm.attached_setVma x.mm v ha.slot
  rw [vmaAttach_none (vmaShmid_unused ha.free),vmaAttach_some ha.seg,add_zero] at hatt
  have hvmas : ∀ j id, vmaShmid ((x.mm.setVma i v).vmas j) = some id →
      (j = i ∧ id = shmid ∧ (x.mm.setVma i v).vmas j = v) ∨
        ((x.mm.setVma i v).vmas j = x.mm.vmas j) := by
    intro j id hid
    by_cases he : j = i
    · subst he
      rw [Mm.setVma_self,ha.seg] at hid
      exact .inl ⟨rfl,by simpa using hid.symm,Mm.setVma_self _ _ _⟩
    · exact .inr (Mm.setVma_of_ne he)
  rw [← hseg]
  refine ⟨⟨?_,hr.remapped.ok.wf⟩,h.shm.set ha.bound hwf' (by simp [hpages]),hlay.setPd _,⟨?_,?_⟩,
    fun id => ?_⟩
  · dsimp only [Ctx.space]
    rw [refs_set_same ha.bound hpages]
    exact hr.remapped.ok.phys
  · intro j hj id hid
    refine (hsize id).trans ?_
    rcases hvmas j id hid with ⟨-,rfl,he⟩ | he
    · have hstop := ha.stop
      have : (x.shm id).size = v.stop - v.start := by omega
      exact this.trans (congrArg (fun u : Vma => u.stop - u.start) he).symm
    · exact (h.backed.size j hj id (he ▸ hid)).trans (he ▸ rfl)
  · intro j hj id hid a hlo hhi
    rcases hvmas j id hid with ⟨-,rfl,he⟩ | he
    · have hlo' : v.start ≤ a := he ▸ hlo
      have hhi' : a < v.stop := he ▸ hhi
      exact hr.present hwf ha.aligned (ha.vacant.top.trans userHeapTop_le) ha.stop hlo' hhi'
    · exact ha.kept h hr j hj id (he ▸ hid) a (he ▸ hlo) (he ▸ hhi)
  · have hN : ((x.mm.setVma i v).attached + N) id = (x.mm.attached + N) id + unit shmid id := by
      rw [hatt]
      simp only [Pi.add_apply]
      omega
    refine Eq.trans ?_ hN.symm
    have hold := h.attach id
    by_cases he : id = shmid
    · subst he
      dsimp only
      rw [set_self,hseg,unit_self,← hold]
    · dsimp only
      rw [set_of_ne he,unit_of_ne he,hold,add_zero]

theorem Ok.sysBrk {ph : Phys} (h : x.Ok X Y N)
    (hb : x.mm.sysBrk x.phys addr = (ph,mm,r)) : Shrunk x ⟨ph,x.shm,mm⟩ X Y N := by
  have hlay := Mm.sysBrk_layout h.layout h.space hb
  rcases Mm.sysBrk_cases h.layout h.space hb with
    ⟨rfl,rfl,-⟩ | ⟨hlt,htop,-,rfl,rfl,-⟩ | ⟨hlo,hlt,-,s',hun,rfl,rfl⟩
  · exact .refl h
  · exact ⟨⟨h.space,h.shm,hlay,⟨h.backed.size,h.backed.mapped⟩,h.attach⟩,rfl,Outside.refl _ _ _ _,
      fun _ _ _ => id,fun _ => le_rfl,fun _ => le_rfl,.refl _⟩
  · have hmapped : ∀ j < nvma, ∀ id, vmaShmid (x.mm.vmas j) = some id →
        ∀ a, (x.mm.vmas j).start ≤ a → a < (x.mm.vmas j).stop → s'.pd.lookup a ≠ none := by
      intro j hj id hid a hlo hhi
      have hu := used_of_shmid hid
      have hend := h.layout.vma_le_userEnd hj hu
      have hw := userEnd_lt
      have hbrk := (h.layout.bounds j hj hu).1
      have hmod := pgRoundUp_mod x.mm.brk
      rw [hun.lookup a (by omega),if_neg]
      · exact h.backed.mapped j hj id hid a hlo hhi
      · simp only [pgSize] at *
        omega
    refine ⟨⟨hun.ok,h.shm,hlay,⟨h.backed.size,hmapped⟩,h.attach⟩,rfl,
      Outside.of_refs fun f _ h0 _ => ?_,fun _ _ _ => id,hun.refs,fun _ => le_rfl,hun.same⟩
    exact Nat.le_zero.mp ((hun.refs f).trans_eq h0)

theorem Ok.doMunmap (h : x.Ok X Y N) (addr len : Nat) : Shrunk x (x.doMunmap addr len).1 X Y N := by
  rcases hm : x.doMunmap addr len with ⟨x',b⟩
  rcases doMunmap_cases h hm with ⟨rfl,-⟩ | ⟨-,i,v,-,-,-,hd⟩
  · exact .refl h
  · exact hd.shrunk

theorem Ok.doShmdt (h : x.Ok X Y N) (shmaddr : Nat) : Shrunk x (x.doShmdt shmaddr).1 X Y N := by
  rcases hm : x.doShmdt shmaddr with ⟨x',b⟩
  rcases doShmdt_cases h hm with ⟨rfl,-⟩ | ⟨-,i,v,-,-,hd⟩
  · exact .refl h
  · exact hd.shrunk

theorem Ok.doMmap {len prot flags fd : Nat} (h : x.Ok X Y N)
    (hm : x.mm.doMmap addr len prot flags fd = (mm,r)) : Shrunk x { x with mm := mm } X Y N := by
  have hlay := Mm.doMmap_layout h.layout hm
  rcases Mm.doMmap_cases hm with ⟨rfl,-⟩ | ⟨i,stop,hi,hfree,-,-,-,-,rfl⟩
  · exact .refl h
  have hid : vmaShmid ⟨true,r,stop,prot,flags % 2 ^ 16⟩ = none := by
    have hz : flags % 2 ^ 16 / 2 ^ 16 % 2 ^ 16 = 0 := by omega
    simp only [vmaShmid,if_true,hz]
  have hatt := Mm.attached_setVma x.mm ⟨true,r,stop,prot,flags % 2 ^ 16⟩ hi
  rw [vmaAttach_none hid,vmaAttach_none (vmaShmid_unused hfree),add_zero,add_zero] at hatt
  have hold : ∀ j id, vmaShmid ((x.mm.setVma i ⟨true,r,stop,prot,flags % 2 ^ 16⟩).vmas j) =
      some id → (x.mm.setVma i ⟨true,r,stop,prot,flags % 2 ^ 16⟩).vmas j = x.mm.vmas j := by
    intro j id hj
    by_cases he : j = i
    · subst he
      rw [Mm.setVma_self,hid] at hj
      cases hj
    · exact Mm.setVma_of_ne he
  refine ⟨⟨h.space,h.shm,hlay,⟨fun j hj id hj' => ?_,fun j hj id hj' a hlo hhi => ?_⟩,
    fun id => ?_⟩,rfl,Outside.refl _ _ _ _,fun _ _ _ => id,fun _ => le_rfl,fun _ => le_rfl,.refl _⟩
  · have he := hold j id hj'
    exact (h.backed.size j hj id (he ▸ hj')).trans
      (congrArg (fun u : Vma => u.stop - u.start) he).symm
  · have he := hold j id hj'
    exact h.backed.mapped j hj id (he ▸ hj') a (he ▸ hlo) (he ▸ hhi)
  · exact (h.attach id).trans (congrArg (fun g => (g + N) id) hatt.symm)

end Ctx

end TinyOs
