import TinyOs.Ipc.Attach
import TinyOs.Mm.Layout

namespace TinyOs

open Count Finset ShmTable

variable {v : Vma} {id : Nat}

def vmaAttach (v : Vma) : Nat → Nat :=
  match vmaShmid v with
  | none => 0
  | some id => unit id

def Mm.attached (mm : Mm) : Nat → Nat := ∑ i ∈ Finset.range nvma, vmaAttach (mm.vmas i)

structure Mm.Backed (mm : Mm) (tbl : ShmTable) : Prop where
  size : ∀ i < nvma, ∀ id, vmaShmid (mm.vmas i) = some id →
    (tbl id).size = (mm.vmas i).stop - (mm.vmas i).start
  mapped : ∀ i < nvma, ∀ id, vmaShmid (mm.vmas i) = some id →
    ∀ a, (mm.vmas i).start ≤ a → a < (mm.vmas i).stop → mm.pd.lookup a ≠ none

structure Ctx.Ok (x : Ctx) (X Y N : Nat → Nat) : Prop where
  space : x.space.Ok (x.shm.refs + X) Y
  shm : x.shm.Wf
  layout : x.mm.Layout
  backed : x.mm.Backed x.shm
  attach : ∀ id, (x.shm id).nattch = (x.mm.attached + N) id

structure Outside (tbl tbl' : ShmTable) (own own' X N : Nat → Nat) : Prop where
  stable : ∀ id, 0 < N id → (tbl' id).size = (tbl id).size ∧ (tbl' id).pages = (tbl id).pages
  slots : ∀ id j f, (tbl' id).pages j = some f → (tbl id).pages j = some f ∨ X f = 0
  closed : ∀ f, 0 < X f → (own + tbl.refs) f = 0 → (own' + tbl'.refs) f = 0

theorem used_of_shmid (h : vmaShmid v = some id) : v.used = true := by
  simp only [vmaShmid] at h
  split at h
  · assumption
  · cases h

theorem vmaShmid_unused (h : v.used = false) : vmaShmid v = none := by
  simp [vmaShmid,h]

theorem vmaAttach_none (h : vmaShmid v = none) : vmaAttach v = 0 := by
  simp only [vmaAttach,h]

theorem vmaAttach_some (h : vmaShmid v = some id) : vmaAttach v = unit id := by
  simp only [vmaAttach,h]

namespace Outside

variable {tbl tbl' tbl'' : ShmTable} {own own' own'' X N : Nat → Nat}

theorem refl (tbl : ShmTable) (own X N : Nat → Nat) : Outside tbl tbl own own X N :=
  ⟨fun _ _ => ⟨rfl,rfl⟩,fun _ _ _ => .inl,fun _ _ => id⟩

theorem trans (h : Outside tbl tbl' own own' X N) (h' : Outside tbl' tbl'' own' own'' X N) :
    Outside tbl tbl'' own own'' X N where
  stable id hid :=
    ⟨(h'.stable id hid).1.trans (h.stable id hid).1,(h'.stable id hid).2.trans (h.stable id hid).2⟩
  slots id j f hf := (h'.slots id j f hf).elim (h.slots id j f) .inr
  closed f hf h0 := h'.closed f hf (h.closed f hf h0)

theorem congr (h : Outside tbl tbl' own own' X N)
    (hs : ∀ id, (tbl'' id).size = (tbl' id).size ∧ (tbl'' id).pages = (tbl' id).pages) :
    Outside tbl tbl'' own own' X N where
  stable id hid := ⟨(hs id).1.trans (h.stable id hid).1,(hs id).2.trans (h.stable id hid).2⟩
  slots id j f hj := h.slots id j f ((hs id).2 ▸ hj)
  closed f hf h0 := by
    rw [refs_congr fun id => (hs id).2]
    exact h.closed f hf h0

theorem of_refs (h : ∀ f, 0 < X f → own f = 0 → tbl.refs f = 0 → own' f = 0) :
    Outside tbl tbl own own' X N where
  stable _ _ := ⟨rfl,rfl⟩
  slots _ _ _ := .inl
  closed f hf h0 := by
    rw [Pi.add_apply,Nat.add_eq_zero_iff] at h0 ⊢
    exact ⟨h f hf h0.1 h0.2,h0.2⟩

theorem of_le (hstable : ∀ id, 0 < N id →
      (tbl' id).size = (tbl id).size ∧ (tbl' id).pages = (tbl id).pages)
    (hslots : ∀ id j f, (tbl' id).pages j = some f → (tbl id).pages j = some f)
    (hown : ∀ f, own' f ≤ own f) (hrefs : ∀ f, tbl'.refs f ≤ tbl.refs f) :
    Outside tbl tbl' own own' X N where
  stable := hstable
  slots id j f hf := .inl (hslots id j f hf)
  closed f _ h0 := Nat.le_zero.mp ((add_le_add (hown f) (hrefs f)).trans_eq h0)

end Outside

structure TriedDestroy (ph ph' : Phys) (tbl : ShmTable) (id : Nat) (seg seg' : ShmSeg)
    (V X K : Nat → Nat) : Prop where
  ok : ph'.Ok (V + ((tbl.set id seg').refs + X)) K
  wf : (tbl.set id seg').Wf
  same : ph.Same ph'
  nattch : seg'.nattch = seg.nattch
  slots : ∀ i j f, (tbl.set id seg' i).pages j = some f → (tbl i).pages j = some f
  refs : ∀ f, (tbl.set id seg').refs f ≤ tbl.refs f
  kept : 0 < seg.nattch → seg' = seg

theorem shmTryDestroyLocked_table {ph ph' : Phys} {tbl : ShmTable} {seg seg' : ShmSeg}
    {V X K : Nat → Nat} (htbl : tbl.Wf) (hid : id < nshm) (hwf : seg.Wf)
    (hpages : seg.pages = (tbl id).pages) (h : ph.Ok (V + (tbl.refs + X)) K)
    (hr : shmTryDestroyLocked ph seg = (ph',seg')) : TriedDestroy ph ph' tbl id seg seg' V X K := by
  obtain ⟨R,hR,hset⟩ := refs_split tbl hid
  have hsum : V + (tbl.refs + X) = slotsRefs seg.pages + (V + (R + X)) := by
    rw [hR,hpages]
    abel
  have hsum' : V + ((tbl.set id seg').refs + X) = slotsRefs seg'.pages + (V + (R + X)) := by
    rw [hset]
    abel
  rw [hsum] at h
  obtain ⟨hok,hwf',hsame,hn,hcase⟩ := shmTryDestroyLocked_spec hwf h
  rw [hr] at hok hwf' hsame hn hcase
  have hsub : ∀ j f, seg'.pages j = some f → (tbl id).pages j = some f := by
    intro j f hj
    rcases hcase with he | ⟨-,-,he⟩
    · rwa [← hpages,← he]
    · rw [he] at hj
      cases hj
  refine ⟨by rw [hsum']; exact hok,htbl.set hid hwf' hsub,hsame,hn,fun i j f hj => ?_,fun f => ?_,
    fun hpos => ?_⟩
  · by_cases hi : i = id
    · subst hi
      rw [set_self] at hj
      exact hsub j f hj
    · rwa [set_of_ne hi] at hj
  · rw [hset,hR,Pi.add_apply,Pi.add_apply]
    refine Nat.add_le_add_right ?_ _
    rcases hcase with he | ⟨-,-,he⟩
    · have hp : seg'.pages = (tbl id).pages := (congrArg ShmSeg.pages he).trans hpages
      exact (congrArg (slotsRefs · f) hp).le
    have hp : seg'.pages = fun _ => none := he
    rw [hp,slotsRefs,Finset.sum_apply]
    exact (sum_eq_zero fun _ _ => rfl).trans_le (Nat.zero_le _)
  · rcases hcase with he | ⟨h0,-⟩
    · exact he
    · omega

namespace Mm

variable {mm : Mm} {tbl tbl' : ShmTable} {i id : Nat} {v : Vma}

theorem attached_setVma (mm : Mm) (v : Vma) (hi : i < nvma) :
    (mm.setVma i v).attached + vmaAttach (mm.vmas i) = mm.attached + vmaAttach v :=
  sum_update_add _ (fun _ v => vmaAttach v) mm.vmas (mem_range.mpr hi) v

theorem attached_pos (hi : i < nvma) (h : vmaShmid (mm.vmas i) = some id) : 0 < mm.attached id := by
  rw [attached,Finset.sum_apply]
  refine sum_pos' (fun _ _ => Nat.zero_le _) ⟨i,mem_range.mpr hi,?_⟩
  simp [vmaAttach_some h]

theorem attached_zero (h : ∀ i < nvma, vmaShmid (mm.vmas i) = none) : mm.attached = 0 :=
  sum_eq_zero fun i hi => vmaAttach_none (h i (mem_range.mp hi))

theorem Backed.congr (h : mm.Backed tbl)
    (hsize : ∀ id, 0 < mm.attached id → (tbl' id).size = (tbl id).size) : mm.Backed tbl' :=
  ⟨fun i hi id hid => (hsize id (attached_pos hi hid)).trans (h.size i hi id hid),h.mapped⟩

theorem vma_page_iff (h : mm.Layout) (hi : i < nvma) (hu : (mm.vmas i).used = true) (a : Nat) :
    ((mm.vmas i).start / pgSize ≤ a / pgSize ∧ a / pgSize < (mm.vmas i).stop / pgSize) ↔
      (mm.vmas i).start ≤ a ∧ a < (mm.vmas i).stop := by
  obtain ⟨h1,h2⟩ := h.aligned i hi hu
  simp only [pgSize] at *
  omega

theorem shmid_setVma (mm : Mm) {j : Nat} (hv : v.used = false)
    (h : vmaShmid ((mm.setVma i v).vmas j) = some id) :
    j ≠ i ∧ (mm.setVma i v).vmas j = mm.vmas j := by
  have hne : j ≠ i := by
    rintro rfl
    rw [setVma_self,vmaShmid_unused hv] at h
    cases h
  exact ⟨hne,setVma_of_ne hne⟩

theorem Layout.vma_le_userEnd (h : mm.Layout) (hi : i < nvma) (hu : (mm.vmas i).used = true) :
    (mm.vmas i).stop ≤ userEnd :=
  (h.bounds i hi hu).2.2.trans userHeapTop_le

end Mm

namespace Ctx

variable {x : Ctx} {X Y N : Nat → Nat} {s : Space} {i id : Nat} {v : Vma}

theorem Ok.wf (h : x.Ok X Y N) : x.mm.pd.Wf := h.space.wf

theorem Ok.setSpace (h : x.Ok X Y N) (hs : s.Ok (x.shm.refs + X) Y)
    (hkept : ∀ a < userEnd, x.mm.pd.lookup a ≠ none → s.pd.lookup a ≠ none) :
    (x.setSpace s).Ok X Y N where
  space := hs
  shm := h.shm
  layout := h.layout.setPd s.pd
  backed := ⟨h.backed.size,fun i hi id hid a hlo hhi =>
    hkept a (hhi.trans_le (h.layout.vma_le_userEnd hi (used_of_shmid hid)))
      (h.backed.mapped i hi id hid a hlo hhi)⟩
  attach := h.attach

structure Released (x x' : Ctx) (X Y N : Nat → Nat) (i : Nat) (v : Vma) : Prop where
  ok : x'.Ok X Y N
  shm : x'.shm = x.shm
  mm : x'.mm = { x.mm with pd := x'.mm.pd }.setVma i v
  lookup : ∀ a < word, x'.mm.pd.lookup a =
    if (x.mm.vmas i).start ≤ a ∧ a < (x.mm.vmas i).stop then none else x.mm.pd.lookup a
  refs : ∀ f, x'.mm.pd.userRefs f ≤ x.mm.pd.userRefs f
  same : x.phys.Same x'.phys

theorem Ok.unmapVma (h : x.Ok X Y N) (hi : i < nvma) (hu : (x.mm.vmas i).used = true)
    (hv : v.used = false) :
    Released x ((x.unmapVma (x.mm.vmas i)).setVma i v) X Y (vmaAttach (x.mm.vmas i) + N) i v := by
  obtain ⟨hal,hal'⟩ := h.layout.aligned i hi hu
  have hun := Space.unmapRange_spec h.space hal hal' (h.layout.vma_le_userEnd hi hu)
  have hlook : ∀ a < word, (unmapRange (x.mm.vmas i).start (x.mm.vmas i).stop x.space).pd.lookup a =
      if (x.mm.vmas i).start ≤ a ∧ a < (x.mm.vmas i).stop then none else x.mm.pd.lookup a := by
    intro a ha
    have he := hun.lookup a ha
    simp only [Mm.vma_page_iff h.layout hi hu a] at he
    exact he
  have hlay : (x.mm.setVma i v).Layout := h.layout.remove hv
  have hatt := Mm.attached_setVma x.mm v hi
  rw [vmaAttach_none (vmaShmid_unused hv),add_zero] at hatt
  refine ⟨⟨hun.ok,h.shm,hlay.setPd _,⟨?_,?_⟩,fun id => ?_⟩,rfl,rfl,hlook,hun.refs,hun.same⟩
  · intro j hj id hid
    obtain ⟨-,he⟩ := Mm.shmid_setVma x.mm hv hid
    exact (h.backed.size j hj id (he ▸ hid)).trans (he ▸ rfl)
  · intro j hj id hid a hlo hhi
    obtain ⟨hji,he⟩ := Mm.shmid_setVma x.mm hv hid
    have hid' : vmaShmid (x.mm.vmas j) = some id := he ▸ hid
    have hlo' : (x.mm.vmas j).start ≤ a := he ▸ hlo
    have hhi' : a < (x.mm.vmas j).stop := he ▸ hhi
    have huj := used_of_shmid hid'
    have hdis := h.layout.disjoint j hj i hi hji huj hu
    have hend := h.layout.vma_le_userEnd hj huj
    have hw := userEnd_lt
    refine fun hnone => h.backed.mapped j hj id hid' a hlo' hhi' ?_
    rw [← hnone]
    refine ((hlook a (by omega)).trans (if_neg ?_)).symm
    omega
  · rw [← add_assoc]
    exact (h.attach id).trans (congrArg (fun g => (g + N) id) hatt.symm)

structure Detached (x x' : Ctx) (X Y N : Nat → Nat) : Prop where
  ok : x'.Ok X Y N
  mm : x'.mm = x.mm
  stable : ∀ id, 0 < (x.mm.attached + N) id →
    (x'.shm id).size = (x.shm id).size ∧ (x'.shm id).pages = (x.shm id).pages
  refs : ∀ f, x'.shm.refs f ≤ x.shm.refs f
  slots : ∀ id j f, (x'.shm id).pages j = some f → (x.shm id).pages j = some f
  same : x.phys.Same x'.phys

theorem Ok.detach (h : x.Ok X Y (unit id + N)) : Detached x (x.detach id) X Y N := by
  have hn : (x.shm id).nattch = x.mm.attached id + (1 + N id) := by
    simpa using h.attach id
  have hid : id < nshm := by
    by_contra hge
    rw [h.shm.beyond id (by omega)] at hn
    simp [ShmSeg.empty] at hn
    omega
  have huse : (x.shm id).inuse = true := by
    by_contra hfree
    have := (h.shm.seg id).idle (by simpa using hfree)
    omega
  have hget : shmGet x.shm id = some (x.shm id) := by
    simp [shmGet,huse,not_le.mpr hid]
  obtain ⟨seg,hseg⟩ : ∃ seg : ShmSeg, seg = { x.shm id with nattch := (x.shm id).nattch - 1 } :=
    ⟨_,rfl⟩
  have hseg' : seg.nattch = x.mm.attached id + N id := by
    rw [hseg]
    dsimp only
    omega
  have hwf : seg.Wf := by
    rw [hseg]
    exact ⟨(h.shm.seg id).bound,(h.shm.seg id).slots,(h.shm.seg id).size,(h.shm.seg id).inuse,
      fun hfree => by simp [huse] at hfree⟩
  rcases hr : shmTryDestroyLocked x.phys seg with ⟨ph',seg'⟩
  have hd := shmTryDestroyLocked_table h.shm hid hwf (by rw [hseg]) h.space.phys hr
  have hx : x.detach id = { x with phys := ph', shm := x.shm.set id seg' } := by
    simp only [Ctx.detach,hget,← hseg,hr]
  have hstable : ∀ i, 0 < (x.mm.attached + N) i →
      (x.shm.set id seg' i).size = (x.shm i).size ∧ (x.shm.set id seg' i).pages = (x.shm i).pages := by
    intro i hi
    by_cases he : i = id
    · subst he
      rw [set_self,hd.kept (hseg' ▸ hi),hseg]
      exact ⟨rfl,rfl⟩
    · rw [set_of_ne he]
      exact ⟨rfl,rfl⟩
  have hattach : ∀ i, (x.shm.set id seg' i).nattch = (x.mm.attached + N) i := by
    intro i
    by_cases he : i = id
    · subst he
      rw [set_self,hd.nattch,hseg']
      rfl
    have hi := h.attach i
    rw [Pi.add_apply,Pi.add_apply,unit_of_ne he,zero_add] at hi
    rw [set_of_ne he]
    exact hi
  rw [hx]
  refine ⟨⟨⟨hd.ok,h.space.wf⟩,hd.wf,h.layout,h.backed.congr fun i hi => ?_,hattach⟩,rfl,hstable,
    hd.refs,hd.slots,hd.same⟩
  exact (hstable i (Nat.add_pos_left hi _)).1

end Ctx

end TinyOs
