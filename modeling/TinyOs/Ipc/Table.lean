import TinyOs.Ipc.Calls

namespace TinyOs

open Count ShmTable

variable {V K N : Nat → Nat} {ph ph' : Phys} {tbl tbl' : ShmTable}

structure TableChange (ph ph' : Phys) (tbl tbl' : ShmTable) (V K N : Nat → Nat) : Prop where
  ok : ph'.Ok (tbl'.refs + V) K
  wf : tbl'.Wf
  attach : ∀ id, (tbl' id).nattch = (tbl id).nattch
  out : Outside tbl tbl' 0 0 V N
  keeps : Keeps V ph ph'

theorem TableChange.refl
    (h : ph.Ok (tbl.refs + V) K) (hwf : tbl.Wf) : TableChange ph ph tbl tbl V K N :=
  ⟨h,hwf,fun _ => rfl,Outside.refl _ _ _ _,Keeps.refl _ _⟩

theorem doShmctl_spec {shmid cmd : Nat} {b : Bool} (hwf : tbl.Wf) (h : ph.Ok (tbl.refs + V) K)
    (hN : ∀ id, (tbl id).nattch = N id) (hr : doShmctl ph tbl shmid cmd = (ph',tbl',b)) :
    TableChange ph ph' tbl tbl' V K N := by
  simp only [doShmctl] at hr
  split at hr
  · cases hr
    exact .refl h hwf
  split at hr
  · cases hr
    exact .refl h hwf
  rename_i seg hseg
  obtain ⟨hid,rfl,huse⟩ := shmGet_some hseg
  cases hr
  obtain ⟨seg,hs⟩ : ∃ seg : ShmSeg, seg = { tbl shmid with dest := true } := ⟨_,rfl⟩
  have hsw : seg.Wf := by
    have := hwf.seg shmid
    rw [hs]
    exact ⟨this.bound,this.slots,this.size,this.inuse,this.idle⟩
  rw [← hs]
  have hzero : (0 : Nat → Nat) + (tbl.refs + V) = tbl.refs + V := zero_add _
  have hd := shmTryDestroyLocked_table (V := 0) hwf hid hsw (by rw [hs]) (hzero.symm ▸ h)
    (Prod.mk.eta (p := shmTryDestroyLocked ph seg)).symm
  have hok := hd.ok
  rw [zero_add] at hok
  have hn : seg.nattch = (tbl shmid).nattch := by rw [hs]
  refine ⟨hok,hd.wf,fun id => ?_,Outside.of_le (fun id hpos => ?_) hd.slots (fun _ => le_rfl)
    hd.refs,.of_same hd.same⟩
  · by_cases he : id = shmid
    · subst he
      rw [set_self,hd.nattch,hn]
    · rw [set_of_ne he]
  by_cases he : id = shmid
  · subst he
    rw [set_self,hd.kept (by rw [hn,hN]; exact hpos),hs]
    exact ⟨rfl,rfl⟩
  · rw [set_of_ne he]
    exact ⟨rfl,rfl⟩

theorem TableChange.of_set {seg : ShmSeg} {id : Nat} (hwf : tbl.Wf) (hid : id < nshm)
    (hfree : (tbl id).inuse = false)
    (hN : ∀ id, (tbl id).nattch = N id) (hseg : seg.Wf) (hn : seg.nattch = 0)
    (hok : ph'.Ok (slotsRefs seg.pages + (tbl.refs + V)) K)
    (hfresh : ∀ i f, seg.pages i = some f → (tbl.refs + V) f = 0)
    (hinj : ∀ i j f, seg.pages i = some f → seg.pages j = some f → i = j)
    (hkeeps : Keeps (tbl.refs + V) ph ph') : TableChange ph ph' tbl (tbl.set id seg) V K N := by
  obtain ⟨R,hR,hset⟩ := refs_split tbl hid
  have hnone : ∀ i, (tbl id).pages i = none := by
    intro i
    have h0 : ¬ 0 < (tbl id).npages := (hwf.seg id).inuse.not.mp (by simp [hfree])
    simpa using ((hwf.seg id).slots i).not.mpr (by omega)
  rw [slotsRefs_none hnone,zero_add] at hR
  have hidle := (hwf.seg id).idle hfree
  refine ⟨?_,hwf.create hid hseg (fun i f hf => ?_) hinj,fun i => ?_,
    ⟨fun i hi => ?_,fun i j f hj => ?_,fun f hf h0 => ?_⟩,
    hkeeps.mono fun f hf => Nat.add_pos_right _ hf⟩
  · rw [hset,← hR,add_assoc]
    exact hok
  · exact (Nat.add_eq_zero_iff.mp (hfresh i f hf)).1
  · by_cases he : i = id
    · subst he
      rw [set_self,hn,hidle]
    · rw [set_of_ne he]
  · have he : i ≠ id := by
      rintro rfl
      rw [← hN,hidle] at hi
      omega
    rw [set_of_ne he]
    exact ⟨rfl,rfl⟩
  · by_cases he : i = id
    · subst he
      rw [set_self] at hj
      exact .inr (Nat.add_eq_zero_iff.mp (hfresh j f hj)).2
    · rw [set_of_ne he] at hj
      exact .inl hj
  · rw [zero_add] at h0 ⊢
    rw [hset,← hR,Pi.add_apply,h0,add_zero]
    by_contra hne
    obtain ⟨i,hi⟩ := exists_of_slotsRefs_ne_zero hne
    have := (Nat.add_eq_zero_iff.mp (hfresh i f hi)).2
    omega

theorem shmCreate_spec {key size r : Nat} (hwf : tbl.Wf) (h : ph.Ok (tbl.refs + V) K)
    (hN : ∀ id, (tbl id).nattch = N id) (hr : shmCreate ph tbl key size = (ph',tbl',r)) :
    TableChange ph ph' tbl tbl' V K N := by
  simp only [shmCreate] at hr
  split at hr
  · cases hr
    exact .refl h hwf
  split at hr
  · cases hr
    exact .refl h hwf
  rename_i hpages
  split at hr
  · cases hr
    exact .refl h hwf
  rename_i id hfind
  have hid : id < nshm := List.mem_range.mp (List.mem_of_find?_eq_some hfind)
  have hfree : (tbl id).inuse = false := by simpa using List.find?_some hfind
  have hbound : pgRoundUp size / pgSize ≤ shmMaxPages := by omega
  have hsize : pgRoundUp size = pgRoundUp size / pgSize * pgSize := by
    have := pgRoundUp_mod size
    simp only [pgSize] at *
    omega
  have hloop := shmAllocLoop_spec
    ⟨true,key,pgRoundUp size,pgRoundUp size / pgSize,fun _ => none,0,false⟩ hbound
    rfl h
  split at hr
  · rename_i q seg hq
    rw [hq] at hloop
    cases hr
    have ha := hloop.1 rfl
    have hseg : seg = ⟨true,key,pgRoundUp size,pgRoundUp size / pgSize,seg.pages,0,false⟩ :=
      ha.seg
    refine .of_set hwf hid hfree hN ⟨?_,?_,?_,?_,?_⟩ (by rw [hseg]) ha.ok ha.fresh ha.distinct
      ha.keeps
    · rw [hseg]
      exact hbound
    · intro i
      rw [show seg.npages = pgRoundUp size / pgSize by rw [hseg]]
      exact ha.slots i
    · rw [hseg]
      exact hsize
    · rw [hseg]
      exact ⟨fun _ => pos_of_ne_zero fun h0 => hpages (.inl h0),fun _ => rfl⟩
    · rw [hseg]
      exact fun hfree => by cases hfree
  rename_i q seg hq
  rw [hq] at hloop
  cases hr
  obtain ⟨j,seg',hj,ha,hseg,hf⟩ := hloop.2 rfl
  have hseg' : seg = { seg' with npages := j } := hseg
  have hpg : seg.pages = seg'.pages := by rw [hseg']
  have hn : seg.npages = j := by rw [hseg']
  have hzero : seg.nattch = 0 := by
    rw [hseg',ha.seg]
  have hfreed := shmFreePages_spec (by omega) (fun i hi => by
      have := (ha.slots i).not.mpr (by omega)
      rw [hpg]
      simpa using this) (hpg ▸ ha.ok)
  rw [hfreed.seg]
  have hnone : ∀ i, (fun _ => none : Nat → Option Nat) i = none := fun _ => rfl
  refine .of_set hwf hid hfree hN ⟨Nat.zero_le _,?_,?_,?_,fun _ => hzero⟩ hzero ?_
    (fun _ _ hp => by cases hp) (fun _ _ _ hp => by cases hp)
    (ha.keeps.trans (.of_same hfreed.same))
  · simp
  · simp
  · simp
  · dsimp only
    rw [slotsRefs_none hnone,zero_add]
    exact hfreed.ok

theorem doShmget_spec {key size shmflg r : Nat} (hwf : tbl.Wf) (h : ph.Ok (tbl.refs + V) K)
    (hN : ∀ id, (tbl id).nattch = N id) (hr : doShmget ph tbl key size shmflg = (ph',tbl',r)) :
    TableChange ph ph' tbl tbl' V K N := by
  simp only [doShmget] at hr
  split at hr
  · split at hr
    · split at hr
      · cases hr
        exact .refl h hwf
      split at hr
      · cases hr
        exact .refl h hwf
      · cases hr
        exact .refl h hwf
    · split at hr
      · cases hr
        exact .refl h hwf
      · exact shmCreate_spec hwf h hN hr
  · exact shmCreate_spec hwf h hN hr

end TinyOs
