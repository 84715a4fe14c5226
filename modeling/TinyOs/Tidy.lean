import TinyOs.Mm.Copy

namespace TinyOs

open Count Option ShmTable

variable {addr i : Nat} {v : Vma}

structure Mm.Tidy (mm : Mm) (tbl : ShmTable) (U : Nat → Nat) : Prop where
  slot : ∀ a < userEnd, ∀ pte, mm.pd.lookup a = some pte → ∀ id j,
    (tbl id).pages j = some pte.frame →
    ∃ i < nvma, vmaShmid (mm.vmas i) = some id ∧ a / pgSize = (mm.vmas i).start / pgSize + j
  sole : ∀ a < userEnd, ∀ pte, mm.pd.lookup a = some pte → pte.perm.w = true →
    U pte.frame = 1 ∨ ∃ id j, (tbl id).pages j = some pte.frame
  confined : ∀ a < userEnd, mm.pd.lookup a ≠ none → a < pgRoundUp mm.brk ∨ userStackBottom ≤ a ∨
    ∃ i < nvma, (mm.vmas i).used = true ∧ (mm.vmas i).start ≤ a ∧ a < (mm.vmas i).stop

def Ctx.Tidy (x : Ctx) (X : Nat → Nat) : Prop :=
  x.mm.Tidy x.shm (x.mm.pd.userRefs + (x.shm.refs + X))

namespace Mm.Tidy

variable {mm : Mm} {tbl tbl' : ShmTable} {own own' U U' X N : Nat → Nat}

theorem frame (h : mm.Tidy tbl (own + (tbl.refs + X))) (hwf : mm.pd.Wf)
    (hX : ∀ f, mm.pd.userRefs f ≤ X f) (hN : ∀ id, mm.attached id ≤ N id)
    (hout : Outside tbl tbl' own own' X N) : mm.Tidy tbl' (own' + (tbl'.refs + X)) where
  slot a ha pte hl id j hj := by
    refine h.slot a ha pte hl id j ((hout.slots id j _ hj).resolve_right fun h0 => ?_)
    have := Pgdir.userRefs_pos hwf ha hl
    have := hX pte.frame
    omega
  sole a ha pte hl hpw := by
    have hpos := (Pgdir.userRefs_pos hwf ha hl).trans_le (hX pte.frame)
    rcases h.sole a ha pte hl hpw with hone | ⟨id,j,hj⟩
    · simp only [Pi.add_apply] at hone
      have h0 := hout.closed pte.frame hpos (by simp only [Pi.add_apply]; omega)
      simp only [Pi.add_apply] at h0 ⊢
      omega
    · obtain ⟨i,hi,hid,-⟩ := h.slot a ha pte hl id j hj
      have hatt := (Mm.attached_pos hi hid).trans_le (hN id)
      exact .inr ⟨id,j,(hout.stable id hatt).2 ▸ hj⟩
  confined := h.confined

theorem grow (h : mm.Tidy tbl U) (hlt : mm.brk ≤ addr) (htop : addr ≤ userEnd) :
    { mm with brk := addr }.Tidy tbl U where
  slot := h.slot
  sole := h.sole
  confined a ha hne := (h.confined a ha hne).imp_left fun hlow => hlow.trans_le
    ((pgRoundUp_le_iff (hlt.trans htop) (pgRoundUp_mod _)).mpr (hlt.trans (le_pgRoundUp htop)))

theorem insert (h : mm.Tidy tbl U) (hfree : (mm.vmas i).used = false) :
    (mm.setVma i v).Tidy tbl U where
  slot a ha pte hl id j hj := by
    obtain ⟨k,hk,hid,hpage⟩ := h.slot a ha pte hl id j hj
    have hne : k ≠ i := by
      rintro rfl
      rw [vmaShmid_unused hfree] at hid
      cases hid
    exact ⟨k,hk,by rwa [setVma_of_ne hne],by rwa [setVma_of_ne hne]⟩
  sole := h.sole
  confined a ha hne := (h.confined a ha hne).imp_right <| Or.imp_right fun ⟨k,hk,hu,hin⟩ => by
    have hne : k ≠ i := by
      rintro rfl
      rw [hfree] at hu
      cases hu
    exact ⟨k,hk,by rwa [setVma_of_ne hne],by rwa [setVma_of_ne hne]⟩

theorem shrink (U' : Nat → Nat) {pd : Pgdir} (h : mm.Tidy tbl U) (hwf : pd.Wf)
    (hlook : ∀ a < userEnd, ∀ pte, pd.lookup a = some pte → mm.pd.lookup a = some pte)
    (hle : ∀ f, U' f ≤ U f) (hpos : ∀ f, pd.userRefs f ≤ U' f) :
    { mm with pd := pd }.Tidy tbl U' where
  slot a ha pte hl := h.slot a ha pte (hlook a ha pte hl)
  sole a ha pte hl hpw := by
    refine (h.sole a ha pte (hlook a ha pte hl) hpw).imp_left fun hone => ?_
    have h1 := hle pte.frame
    have h2 := hpos pte.frame
    have h3 := Pgdir.userRefs_pos hwf ha hl
    omega
  confined a ha hne := by
    obtain ⟨pte,hl⟩ := ne_none_iff_exists'.mp hne
    exact h.confined a ha (by rw [hlook a ha pte hl]; exact some_ne_none _)

theorem congr (tbl' : ShmTable) (h : mm.Tidy tbl U) (hp : ∀ id, (tbl' id).pages = (tbl id).pages) :
    mm.Tidy tbl' U where
  slot a ha pte hl id j hj := h.slot a ha pte hl id j (hp id ▸ hj)
  sole a ha pte hl hpw := (h.sole a ha pte hl hpw).imp_right fun ⟨id,j,hj⟩ => ⟨id,j,hp id ▸ hj⟩
  confined := h.confined

end Mm.Tidy

namespace Ctx

variable {x x' : Ctx} {X Y N U : Nat → Nat} {va f : Nat} {s : Space} {mm : Mm}

theorem Tidy.page {perm : Perm} (h : x.Tidy X) (hok : x.Ok X Y N) (hs : s.Ok (x.shm.refs + X) Y)
    (hlook : ∀ a < word, s.pd.lookup a =
      if a / pgSize = va / pgSize then some ⟨f,perm⟩ else x.mm.pd.lookup a)
    (hrefs : ∀ g, g ≠ f → s.pd.userRefs g ≤ x.mm.pd.userRefs g)
    (hone : (s.pd.userRefs + (x.shm.refs + X)) f = 1)
    (hold : (∃ pte, x.mm.pd.lookup va = some pte ∧ pte.frame = f) ∨
      (x.mm.pd.userRefs + (x.shm.refs + X)) f = 0) (hw : va < word)
    (hconf : ∀ a < userEnd, a / pgSize = va / pgSize → a < pgRoundUp x.mm.brk ∨
      userStackBottom ≤ a ∨ ∃ i < nvma,
        (x.mm.vmas i).used = true ∧ (x.mm.vmas i).start ≤ a ∧ a < (x.mm.vmas i).stop) :
    (x.setSpace s).Tidy X where
  slot a ha pte hl id j hj := by
    rw [show (x.setSpace s).mm.pd.lookup a = _ from hlook a (ha.trans userEnd_lt)] at hl
    split at hl
    · rename_i hpage
      cases hl
      rcases hold with ⟨pte,hl,rfl⟩ | h0
      · rw [← Pgdir.lookup_eq_of_page hw (ha.trans userEnd_lt) hpage] at hl
        exact h.slot a ha pte hl id j hj
      have hpos : 0 < x.shm.refs f := (hok.shm.slot_refs hj).2
      simp only [Pi.add_apply] at h0
      omega
    · exact h.slot a ha pte hl id j hj
  sole a ha pte hl hpw := by
    have hmap : s.pd.lookup a = some pte := hl
    rw [hlook a (ha.trans userEnd_lt)] at hmap
    split at hmap
    · cases hmap
      exact .inl hone
    refine (h.sole a ha pte hmap hpw).imp_left fun hsole => ?_
    by_cases hgf : pte.frame = f
    · exact hgf ▸ hone
    have h1 := hrefs _ hgf
    have h2 : 0 < s.pd.userRefs pte.frame := Pgdir.userRefs_pos hs.wf ha hl
    have h3 : (x.setSpace s).mm.pd.userRefs = s.pd.userRefs := rfl
    have h4 : (x.setSpace s).shm = x.shm := rfl
    rw [h3,h4]
    simp only [Pi.add_apply] at hsole ⊢
    omega
  confined a ha hne := by
    rw [show (x.setSpace s).mm.pd.lookup a = _ from hlook a (ha.trans userEnd_lt)] at hne
    split at hne
    · exact hconf a ha ‹_›
    · exact h.confined a ha hne

theorem Layout.demand_confined {a : Nat} {w : Bool} (h : mm.Layout)
    (hd : mm.demand (pgRoundDown a) = some w) : a < pgRoundUp mm.brk ∨ userStackBottom ≤ a ∨
      ∃ i < nvma, (mm.vmas i).used = true ∧ (mm.vmas i).start ≤ a ∧ a < (mm.vmas i).stop := by
  simp only [Mm.demand] at hd
  split at hd
  · rename_i hheap
    have htop := h.top.trans userHeapTop_le
    refine .inl ?_
    simp only [pgRoundDown,pgRoundUp,pgSize,word,userEnd,kernBase] at *
    omega
  split at hd
  · cases hd
  rename_i v hv
  obtain ⟨i,hi,rfl,hu,hlo,hhi⟩ := Mm.vmaLookup_some hv
  obtain ⟨h1,h2⟩ := h.aligned i hi hu
  refine .inr (.inr ⟨i,hi,hu,?_⟩)
  simp only [pgRoundDown,pgSize] at *
  omega

theorem Served.tidy (hs : Served x x' X Y va) (hok : x.Ok X Y N) (h : x.Tidy X) : x'.Tidy X := by
  cases hs with
  | same he => exact he ▸ h
  | filled f w he hlt hd hf =>
    rw [he]
    refine h.page hok hf.ok hf.lookup (fun g hg => ?_) hf.sole (.inr hf.fresh)
      (hlt.trans userEnd_lt) fun a ha hpage => ?_
    · have h1 : x'.space.pd.userRefs g = _ := congrFun hf.refs g
      rw [h1,Pi.add_apply,unit_of_ne hg,add_zero]
      exact le_refl (x.mm.pd.userRefs g)
    · refine Layout.demand_confined hok.layout (w := w) ?_
      rw [pgRoundDown,hpage]
      exact hd
  | broken pte f he hlt hl hcow hb =>
    rw [he]
    refine h.page hok hb.ok hb.lookup (fun g hg => ?_) hb.sole ?_ (hlt.trans userEnd_lt)
      fun a ha hpage => ?_
    · have h1 := congrFun hb.refs g
      have h2 : x.space.pd.userRefs g = x.mm.pd.userRefs g := rfl
      simp only [Pi.add_apply,unit_of_ne hg] at h1
      omega
    · exact hb.origin.imp_left fun heq => ⟨pte,hl,heq.symm⟩
    · refine h.confined a ha ?_
      rw [Pgdir.lookup_eq_of_page (hlt.trans userEnd_lt) (ha.trans userEnd_lt) hpage,hl]
      exact some_ne_none _

theorem NoMemory.tidy (hn : NoMemory x x' X Y) (h : x.Tidy X) : x'.Tidy X := by
  have hlook : ∀ a, x'.space.pd.lookup a = x.mm.pd.lookup a := hn.walked.lookup
  have hrefs : x'.space.pd.userRefs = x.mm.pd.userRefs := hn.walked.refs
  have hx : (x.setSpace x'.space).Tidy X := by
    refine ⟨fun a ha pte hl => ?_,fun a ha pte hl hpw => ?_,fun a ha hne => ?_⟩
    · exact h.slot a ha pte ((hlook a).symm.trans hl)
    · have := h.sole a ha pte ((hlook a).symm.trans hl) hpw
      rw [← hrefs] at this
      exact this
    · exact h.confined a ha ((hlook a).symm.trans_ne hne)
  rwa [← hn.space] at hx

theorem Tidy.copyin {srcva n : Nat} {cur : Bool} (h : x.Tidy X) (hok : x.Ok X Y N)
    (hw : srcva < word) : (x.copyin cur srcva n).1.Tidy X :=
  (copyinLoop_rule (I := fun y => y.Ok X Y N ∧ y.Tidy X) (fun _ hy => hy.1)
    (fun _ _ _ hy hs => ⟨hs.ok hy.1,hs.tidy hy.1 hy.2⟩)
    (fun _ _ hy hn => ⟨hn.ok hy.1,hn.tidy hy.2⟩) hw ⟨hok,h⟩).2

theorem Tidy.copyout {dstva : Nat} {src : List UInt8} {cur : Bool} (h : x.Tidy X)
    (hok : x.Ok X Y N) (hw : dstva < word) : (x.copyout cur dstva src).1.Tidy X :=
  (copyoutLoop_rule (I := fun y => y.Ok X Y N ∧ y.Tidy X) (fun _ hy => hy.1)
    (fun _ _ _ hy hs => ⟨hs.ok hy.1,hs.tidy hy.1 hy.2⟩)
    (fun _ _ hy hn => ⟨hn.ok hy.1,hn.tidy hy.2⟩)
    (fun _ mem hy => ⟨((Paged.refl hy.1).setMem mem).ok,hy.2⟩) hw ⟨hok,h⟩).2

theorem Ok.slot_outside {a id j : Nat} {pte : Pte} (hok : x.Ok X Y N) (h : x.mm.Tidy x.shm U)
    (ha : a < userEnd) (hi : i < nvma) (hu : (x.mm.vmas i).used = true)
    (hout : ¬ ((x.mm.vmas i).start ≤ a ∧ a < (x.mm.vmas i).stop))
    (hl : x.mm.pd.lookup a = some pte) (hj : (x.shm id).pages j = some pte.frame) :
    ∃ k < nvma, k ≠ i ∧ vmaShmid (x.mm.vmas k) = some id ∧
      a / pgSize = (x.mm.vmas k).start / pgSize + j := by
  obtain ⟨k,hk,hid,hpage⟩ := h.slot a ha pte hl id j hj
  refine ⟨k,hk,?_,hid,hpage⟩
  rintro rfl
  have hsize := hok.backed.size k hk id hid
  have hseg := (hok.shm.seg id).size
  have hlt := ((hok.shm.seg id).slot_lt hj).1
  obtain ⟨hal,-⟩ := hok.layout.aligned k hk hu
  simp only [pgSize] at *
  omega

theorem Dropped.mm_tidy {U' N' : Nat → Nat} (hd : Dropped x x' X Y N' i v)
    (hok : x.Ok X Y N) (hi : i < nvma) (hu : (x.mm.vmas i).used = true) (h : x.mm.Tidy x.shm U)
    (hU : ∀ f, 0 < x'.mm.pd.userRefs f → U f = 1 → U' f = 1) : x'.mm.Tidy x'.shm U' := by
  have hvmas := hd.vmas
  have hsome : ∀ a < userEnd, ∀ pte, x'.mm.pd.lookup a = some pte →
      ¬ ((x.mm.vmas i).start ≤ a ∧ a < (x.mm.vmas i).stop) ∧ x.mm.pd.lookup a = some pte := by
    intro a ha pte hl
    rw [hd.lookup a (ha.trans userEnd_lt)] at hl
    split at hl
    · cases hl
    · exact ⟨‹_›,hl⟩
  have hbrk : x'.mm.brk = x.mm.brk := by
    rw [hd.mm]
    rfl
  refine ⟨fun a ha pte hl id j hj => ?_,fun a ha pte hl hpw => ?_,fun a ha hne => ?_⟩
  · obtain ⟨hout,hold⟩ := hsome a ha pte hl
    obtain ⟨k,hk,hki,hid,hpage⟩ :=
      hok.slot_outside h ha hi hu hout hold (hd.shrunk.slots id j _ hj)
    exact ⟨k,hk,by rwa [hvmas,if_neg hki],by rwa [hvmas,if_neg hki]⟩
  · obtain ⟨hout,hold⟩ := hsome a ha pte hl
    rcases h.sole a ha pte hold hpw with hone | ⟨id,j,hj⟩
    · exact .inl (hU _ (Pgdir.userRefs_pos hd.shrunk.ok.wf ha hl) hone)
    obtain ⟨k,hk,hki,hid,-⟩ := hok.slot_outside h ha hi hu hout hold hj
    have hatt : 0 < x'.mm.attached id := Mm.attached_pos hk (by rwa [hvmas,if_neg hki])
    exact .inr ⟨id,j,hd.stable id hatt ▸ hj⟩
  · obtain ⟨pte,hl⟩ := ne_none_iff_exists'.mp hne
    obtain ⟨hout,hold⟩ := hsome a ha pte hl
    rw [hbrk]
    refine (h.confined a ha (hold ▸ some_ne_none _)).imp_right <|
      Or.imp_right fun ⟨k,hk,hku,hin⟩ => ?_
    have hki : k ≠ i := by
      rintro rfl
      exact hout hin
    exact ⟨k,hk,by rwa [hvmas,if_neg hki],by rwa [hvmas,if_neg hki]⟩

theorem Dropped.tidy (hd : Dropped x x' X Y N i v) (hok : x.Ok X Y N)
    (hi : i < nvma) (hu : (x.mm.vmas i).used = true) (h : x.Tidy X) : x'.Tidy X := by
  refine hd.mm_tidy hok hi hu h fun f hpos hone => ?_
  have h1 := hd.shrunk.refs f
  have h2 := hd.shrunk.segs f
  simp only [Pi.add_apply] at hone ⊢
  omega

theorem Remap.tidy {shmid : Nat} (U' : Nat → Nat)
    (hr : Remap x s X Y (x.mm.vmas i) shmid true) (hshm : x.shm.Wf) (hi : i < nvma)
    (hid : vmaShmid (x.mm.vmas i) = some shmid) (hal : (x.mm.vmas i).start % pgSize = 0)
    (hstop : (x.mm.vmas i).stop = (x.mm.vmas i).start + (x.shm shmid).size) (h : x.mm.Tidy x.shm U)
    (hU : ∀ g, (∀ j, (x.shm shmid).pages j ≠ some g) → 0 < s.pd.userRefs g → U g = 1 → U' g = 1) :
    { x.mm with pd := s.pd }.Tidy x.shm U' := by
  have hseg := hshm.seg shmid
  have hal' : (x.mm.vmas i).stop % pgSize = 0 := by
    rw [hstop,hseg.size]
    simp only [pgSize] at *
    omega
  have hcase : ∀ a < userEnd, ∀ pte, s.pd.lookup a = some pte →
      (∃ j, (x.shm shmid).pages j = some pte.frame ∧
        a / pgSize = (x.mm.vmas i).start / pgSize + j) ∨ x.mm.pd.lookup a = some pte := by
    intro a ha pte hl
    by_cases hin : (x.mm.vmas i).start / pgSize ≤ a / pgSize ∧
        a / pgSize < (x.mm.vmas i).stop / pgSize
    · obtain ⟨j,hj⟩ : ∃ j, a / pgSize = (x.mm.vmas i).start / pgSize + j :=
        ⟨a / pgSize - (x.mm.vmas i).start / pgSize,by omega⟩
      have hlt : j < (x.shm shmid).npages := by
        rw [hstop,hseg.size] at hin
        simp only [pgSize] at *
        omega
      obtain ⟨f,hf⟩ := isSome_iff_exists.mp ((hseg.slots j).mpr hlt)
      have hpte := hr.done rfl j f hf a (ha.trans userEnd_lt) hj
      cases hl.symm.trans hpte
      exact .inl ⟨j,hf,hj⟩
    · exact .inr ((hr.remapped.other a (ha.trans userEnd_lt) hin).symm.trans hl)
  refine ⟨fun a ha pte hl id j hj => ?_,fun a ha pte hl hpw => ?_,fun a ha hne => ?_⟩
  · rcases hcase a ha pte hl with ⟨k,hk,hpage⟩ | hold
    · obtain ⟨rfl,rfl⟩ := hshm.distinct _ _ _ _ _ hk hj
      exact ⟨i,hi,hid,hpage⟩
    · exact h.slot a ha pte hold id j hj
  · rcases hcase a ha pte hl with ⟨k,hk,-⟩ | hold
    · exact .inr ⟨shmid,k,hk⟩
    by_cases hslot : ∃ j, (x.shm shmid).pages j = some pte.frame
    · obtain ⟨j,hj⟩ := hslot
      exact .inr ⟨shmid,j,hj⟩
    · exact (h.sole a ha pte hold hpw).imp_left
        (hU _ (not_exists.mp hslot) (Pgdir.userRefs_pos hr.remapped.ok.wf ha hl))
  · obtain ⟨pte,hl⟩ := ne_none_iff_exists'.mp hne
    rcases hcase a ha pte hl with ⟨k,hk,hpage⟩ | hold
    · refine .inr (.inr ⟨i,hi,used_of_shmid hid,?_⟩)
      have hlt := (hseg.slot_lt hk).1
      have hsize := hseg.size
      simp only [pgSize] at *
      omega
    · exact h.confined a ha (hold ▸ some_ne_none _)

theorem Attaching.tidy {shmid : Nat} (ha : Attaching x i v shmid)
    (hok : x.Ok X Y N) (hr : Remap x s X Y v shmid true) (h : x.Tidy X) :
    Tidy { (x.setSpace s).setVma i v with
      shm := x.shm.set shmid { x.shm shmid with nattch := (x.shm shmid).nattch + 1 } } X := by
  have hself : (x.setVma i v).mm.vmas i = v := Mm.setVma_self _ _ _
  have hr' : Remap (x.setVma i v) s X Y ((x.setVma i v).mm.vmas i) shmid true := by
    rw [hself]
    exact ⟨hr.remapped,hr.done,hr.failed⟩
  have htidy : (x.setVma i v).mm.Tidy x.shm (x.mm.pd.userRefs + (x.shm.refs + X)) :=
    Mm.Tidy.insert h ha.free
  have hnew := hr'.tidy (s.pd.userRefs + (x.shm.refs + X)) hok.shm ha.slot
    (by rw [hself]; exact ha.seg) (by rw [hself]; exact ha.aligned) (by rw [hself]; exact ha.stop)
    htidy ?_
  · obtain ⟨seg,hseg⟩ : ∃ seg : ShmSeg,
      seg = { x.shm shmid with nattch := (x.shm shmid).nattch + 1 } := ⟨_,rfl⟩
    rw [← hseg]
    have hpages : seg.pages = (x.shm shmid).pages := by rw [hseg]
    have hsame := hnew.congr (x.shm.set shmid seg) fun id => by
      by_cases he : id = shmid
      · subst he
        rwa [set_self]
      · rw [set_of_ne he]
        rfl
    rw [← refs_set_same ha.bound hpages] at hsame
    exact hsame
  · intro g hslot hpos hone
    rcases hr.remapped.refs g with hle | ⟨j,hj⟩
    · have hle' : s.pd.userRefs g ≤ x.mm.pd.userRefs g := hle
      simp only [Pi.add_apply] at hone ⊢
      omega
    · exact absurd hj (hslot j)

theorem Tidy.sysBrk {r : Nat} {ph : Phys} (h : x.Tidy X) (hok : x.Ok X Y N)
    (hb : x.mm.sysBrk x.phys addr = (ph,mm,r)) : Tidy ⟨ph,x.shm,mm⟩ X := by
  rcases Mm.sysBrk_cases hok.layout hok.space hb with
    ⟨rfl,rfl,-⟩ | ⟨hlt,htop,-,rfl,rfl,-⟩ | ⟨hlo,hlt,-,s',hun,rfl,rfl⟩
  · exact h
  · exact Mm.Tidy.grow h hlt.le (htop.trans userHeapTop_le)
  · have hlook : ∀ a < userEnd, ∀ pte, s'.pd.lookup a = some pte →
        (a < pgRoundUp addr ∨ pgRoundUp x.mm.brk ≤ a) ∧ x.mm.pd.lookup a = some pte := by
      intro a ha pte hl
      rw [hun.lookup a (ha.trans userEnd_lt)] at hl
      split at hl
      · cases hl
      rename_i hout
      refine ⟨?_,hl⟩
      have h1 := pgRoundUp_mod addr
      have h2 := pgRoundUp_mod x.mm.brk
      simp only [pgSize] at *
      omega
    have hshrink := Mm.Tidy.shrink (s'.pd.userRefs + (x.shm.refs + X)) h hun.ok.wf
      (fun a ha pte hl => (hlook a ha pte hl).2)
      (fun f => Nat.add_le_add_right (hun.refs f) _) (fun f => Nat.le_add_right _ _)
    refine ⟨hshrink.slot,hshrink.sole,fun a ha hne => ?_⟩
    obtain ⟨pte,hl⟩ := ne_none_iff_exists'.mp hne
    obtain ⟨hout,-⟩ := hlook a ha pte hl
    refine (hshrink.confined a ha hne).imp_left fun hlow => ?_
    have hlow' : a < pgRoundUp x.mm.brk := hlow
    exact hout.resolve_right (by omega)

theorem Tidy.doMmap {len prot flags fd r : Nat} (h : x.Tidy X)
    (hm : x.mm.doMmap addr len prot flags fd = (mm,r)) : Tidy { x with mm := mm } X := by
  rcases Mm.doMmap_cases hm with ⟨rfl,-⟩ | ⟨i,stop,-,hfree,-,-,-,-,rfl⟩
  · exact h
  · exact Mm.Tidy.insert h hfree

end Ctx

end TinyOs
