import TinyOs.Mm.PageOps

namespace TinyOs

open Function (update update_apply update_of_ne update_self)
open Count Finset

variable {id i f : Nat} {pages : Nat → Option Nat}

def slotRefs : Option Nat → Nat → Nat
  | none => 0
  | some f => unit f

def slotsRefs (pages : Nat → Option Nat) : Nat → Nat :=
  ∑ i ∈ Finset.range shmMaxPages, slotRefs (pages i)

def ShmTable.refs (tbl : ShmTable) : Nat → Nat := ∑ id ∈ Finset.range nshm, slotsRefs (tbl id).pages

structure ShmSeg.Wf (seg : ShmSeg) : Prop where
  bound : seg.npages ≤ shmMaxPages
  slots : ∀ i, (seg.pages i).isSome = true ↔ i < seg.npages
  size : seg.size = seg.npages * pgSize
  inuse : seg.inuse = true ↔ 0 < seg.npages
  idle : seg.inuse = false → seg.nattch = 0

structure ShmTable.Wf (tbl : ShmTable) : Prop where
  seg : ∀ id, (tbl id).Wf
  beyond : ∀ id, nshm ≤ id → tbl id = ShmSeg.empty
  distinct : ∀ id i id' i' f, (tbl id).pages i = some f → (tbl id').pages i' = some f →
    id = id' ∧ i = i'

theorem ShmSeg.wf_empty : ShmSeg.empty.Wf :=
  ⟨Nat.zero_le _,by simp [ShmSeg.empty],by simp [ShmSeg.empty],by simp [ShmSeg.empty],fun _ => rfl⟩

theorem ShmTable.wf_empty : ShmTable.Wf fun _ => ShmSeg.empty :=
  ⟨fun _ => ShmSeg.wf_empty,fun _ _ => rfl,by simp [ShmSeg.empty]⟩

variable {tbl : ShmTable} {seg : ShmSeg} {ph ph' : Phys} {U K X Y : Nat → Nat} {s s' : Space}
  {v : Vma}

theorem ShmTable.refs_congr {tbl' : ShmTable} (h : ∀ id, (tbl' id).pages = (tbl id).pages) :
    tbl'.refs = tbl.refs := by
  simp only [ShmTable.refs,h]

theorem ShmTable.refs_set (hid : id < nshm) :
    (tbl.set id seg).refs + slotsRefs (tbl id).pages = tbl.refs + slotsRefs seg.pages :=
  sum_update_add _ (fun _ (seg : ShmSeg) => slotsRefs seg.pages) tbl (mem_range.mpr hid) seg

theorem ShmTable.refs_set_same (hid : id < nshm) (hp : seg.pages = (tbl id).pages) :
    (tbl.set id seg).refs = tbl.refs := by
  have h : (tbl.set id seg).refs + slotsRefs (tbl id).pages = tbl.refs + slotsRefs seg.pages :=
    ShmTable.refs_set hid
  rw [hp] at h
  exact add_right_cancel h

theorem ShmTable.refs_split (tbl : ShmTable) (hid : id < nshm) :
    ∃ R, tbl.refs = slotsRefs (tbl id).pages + R ∧
      ∀ seg, (tbl.set id seg).refs = slotsRefs seg.pages + R := by
  have hmem := mem_range.mpr hid
  refine ⟨∑ i ∈ (range nshm).erase id, slotsRefs (tbl i).pages,?_,fun seg => ?_⟩
  · exact (add_sum_erase _ (fun i => slotsRefs (tbl i).pages) hmem).symm
  · rw [ShmTable.refs,← add_sum_erase _ (fun i => slotsRefs (tbl.set id seg i).pages) hmem]
    refine congrArg₂ (· + ·) ?_ (sum_congr rfl fun i hi => ?_)
    · simp only [ShmTable.set,update_self]
    · simp only [ShmTable.set,update_of_ne (ne_of_mem_erase hi)]

theorem ShmTable.set_of_ne (h : i ≠ id) : tbl.set id seg i = tbl i :=
  update_of_ne h _ _

@[simp] theorem ShmTable.set_self (id : Nat) : tbl.set id seg id = seg := update_self _ _ _

theorem ShmTable.Wf.set_seg (h : tbl.Wf) (hseg : seg.Wf) (id i : Nat) : (tbl.set id seg i).Wf := by
  by_cases hi : i = id
  · subst hi
    rwa [ShmTable.set_self]
  · rw [ShmTable.set_of_ne hi]
    exact h.seg i

theorem ShmTable.Wf.set_beyond (h : tbl.Wf) (hid : id < nshm) (hi : nshm ≤ i) :
    tbl.set id seg i = ShmSeg.empty := by
  rw [ShmTable.set_of_ne (by omega)]
  exact h.beyond i hi

theorem ShmTable.Wf.set (h : tbl.Wf) (hid : id < nshm) (hseg : seg.Wf)
    (hp : ∀ i f, seg.pages i = some f → (tbl id).pages i = some f) : (tbl.set id seg).Wf := by
  have hold : ∀ id' i f, (tbl.set id seg id').pages i = some f → (tbl id').pages i = some f := by
    intro id' i f hf
    by_cases he : id' = id
    · subst he
      rw [ShmTable.set_self] at hf
      exact hp i f hf
    · rwa [ShmTable.set_of_ne he] at hf
  exact ⟨h.set_seg hseg id,fun i hi => h.set_beyond hid hi,
    fun a i b j f hf hf' => h.distinct a i b j f (hold a i f hf) (hold b j f hf')⟩

theorem slotsRefs_update (pages : Nat → Option Nat) (hi : i < shmMaxPages) (e : Option Nat) :
    slotsRefs (update pages i e) + slotRefs (pages i) = slotsRefs pages + slotRefs e :=
  sum_update_add _ (fun _ e => slotRefs e) pages (mem_range.mpr hi) e

theorem slotRefs_le_one (e : Option Nat) (f : Nat) : slotRefs e f ≤ 1 := by
  cases e with
  | none => exact Nat.zero_le _
  | some g => exact unit_le_one _ _

theorem slotsRefs_le (pages : Nat → Option Nat) (f : Nat) : slotsRefs pages f ≤ 256 := by
  rw [slotsRefs,Finset.sum_apply]
  have := sum_le_card_nsmul (range shmMaxPages) (fun i => slotRefs (pages i) f) 1
    (fun i _ => slotRefs_le_one _ _)
  simpa [shmMaxPages] using this

theorem ShmTable.refs_le (tbl : ShmTable) (f : Nat) : tbl.refs f ≤ 32 * 256 := by
  rw [ShmTable.refs,Finset.sum_apply]
  have := sum_le_card_nsmul (range nshm) (fun id => slotsRefs (tbl id).pages f) 256
    (fun id _ => slotsRefs_le _ _)
  simpa [nshm] using this

theorem slotsRefs_pos (hi : i < shmMaxPages) (h : pages i = some f) : 0 < slotsRefs pages f := by
  rw [slotsRefs,Finset.sum_apply]
  refine sum_pos' (fun _ _ => Nat.zero_le _) ⟨i,mem_range.mpr hi,?_⟩
  simp [h,slotRefs]

theorem exists_of_slotsRefs_ne_zero (h : slotsRefs pages f ≠ 0) : ∃ i, pages i = some f := by
  rw [slotsRefs,Finset.sum_apply] at h
  obtain ⟨i,-,hi⟩ := exists_ne_zero_of_sum_ne_zero h
  refine ⟨i,?_⟩
  rcases he : pages i with _ | g
  · simp [he,slotRefs] at hi
  by_cases hg : f = g
  · rw [hg]
  · simp [he,slotRefs,unit_of_ne hg] at hi

theorem slotsRefs_none (h : ∀ i, pages i = none) : slotsRefs pages = 0 :=
  sum_eq_zero fun i _ => by rw [h i]; rfl

theorem ShmTable.refs_pos (hid : id < nshm) (hi : i < shmMaxPages)
    (h : (tbl id).pages i = some f) : 0 < tbl.refs f := by
  rw [ShmTable.refs,Finset.sum_apply]
  exact sum_pos' (fun _ _ => Nat.zero_le _)
    ⟨id,mem_range.mpr hid,slotsRefs_pos hi h⟩

theorem ShmSeg.Wf.slot_lt (h : seg.Wf) (hf : seg.pages i = some f) :
    i < seg.npages ∧ i < shmMaxPages := by
  have hi : i < seg.npages := (h.slots i).mp (by simp [hf])
  exact ⟨hi,hi.trans_le h.bound⟩

theorem ShmTable.Wf.slot_refs (h : tbl.Wf) (hf : (tbl id).pages i = some f) :
    id < nshm ∧ 0 < tbl.refs f := by
  have hid : id < nshm := by
    by_contra hge
    rw [h.beyond id (by omega)] at hf
    cases hf
  exact ⟨hid,ShmTable.refs_pos hid ((h.seg id).slot_lt hf).2 hf⟩

theorem ShmTable.Wf.create (h : tbl.Wf) (hid : id < nshm) (hseg : seg.Wf)
    (hfresh : ∀ i f, seg.pages i = some f → tbl.refs f = 0)
    (hinj : ∀ i j f, seg.pages i = some f → seg.pages j = some f → i = j) :
    (tbl.set id seg).Wf := by
  have hold : ∀ id' i f, id' ≠ id → (tbl.set id seg id').pages i = some f → 0 < tbl.refs f := by
    intro id' i f hne hf
    rw [ShmTable.set_of_ne hne] at hf
    exact (h.slot_refs hf).2
  refine ⟨h.set_seg hseg id,fun i hi => h.set_beyond hid hi,fun a i b j f hf hf' => ?_⟩
  by_cases ha : a = id
  · subst ha
    have hfree := hfresh i f (by simpa using hf)
    by_cases hb : b = a
    · subst hb
      exact ⟨rfl,hinj i j f (by simpa using hf) (by simpa using hf')⟩
    · have := hold b j f hb hf'
      omega
  have hpos := hold a i f ha hf
  by_cases hb : b = id
  · subst hb
    have := hfresh j f (by simpa using hf')
    omega
  · rw [ShmTable.set_of_ne ha] at hf
    rw [ShmTable.set_of_ne hb] at hf'
    exact h.distinct a i b j f hf hf'

theorem shmFreeLoop_spec (n : Nat) (hn : n ≤ shmMaxPages) (h : ph.Ok (slotsRefs pages + U) K) :
    let r := (List.range n).foldl shmFreeStep (ph,pages)
    r.1.Ok (slotsRefs r.2 + U) K ∧ (∀ i, r.2 i = if i < n then none else pages i) ∧
      ph.Same r.1 := by
  induction n with
  | zero => exact ⟨h,by simp,.refl ph⟩
  | succ n ih =>
    obtain ⟨hok,hpages,hsame⟩ := ih (by omega)
    simp only [List.range_succ,List.foldl_append,List.foldl_cons,List.foldl_nil]
    generalize (List.range n).foldl shmFreeStep (ph,pages) = r at hok hpages hsame
    simp only [shmFreeStep]
    split
    · rename_i hnone
      refine ⟨hok,fun i => ?_,hsame⟩
      rw [hpages]
      by_cases hi : i = n
      · subst hi
        rw [hpages] at hnone
        simpa using hnone
      · simp only [show i < n + 1 ↔ i < n by omega]
    rename_i f hsome
    have hupd := slotsRefs_update r.2 (i := n) (by omega) none
    rw [hsome,slotRefs,slotRefs,add_zero] at hupd
    refine ⟨?_,fun i => ?_,hsame.trans (Phys.putPage_same _ _)⟩
    · refine Phys.putPage_user ?_
      rw [add_right_comm,hupd]
      exact hok
    · by_cases hi : i = n
      · subst hi
        simp
      · simp only [update_of_ne hi,hpages,show i < n + 1 ↔ i < n by omega]

structure Freed (ph ph' : Phys) (seg seg' : ShmSeg) (U K : Nat → Nat) : Prop where
  ok : ph'.Ok U K
  seg : seg' = { seg with pages := fun _ => none, npages := 0, size := 0 }
  same : ph.Same ph'

theorem shmFreePages_spec (hb : seg.npages ≤ shmMaxPages)
    (hs : ∀ i, seg.npages ≤ i → seg.pages i = none) (h : ph.Ok (slotsRefs seg.pages + U) K) :
    Freed ph (shmFreePages ph seg).1 seg (shmFreePages ph seg).2 U K := by
  obtain ⟨hok,hpages,hsame⟩ := shmFreeLoop_spec seg.npages hb h
  have hnone : ((List.range seg.npages).foldl shmFreeStep (ph,seg.pages)).2 = fun _ => none := by
    funext i
    rw [hpages]
    split
    · rfl
    · exact hs i (by omega)
  have hzero : slotsRefs (fun _ => none) = 0 := sum_eq_zero fun _ _ => rfl
  rw [hnone,hzero,zero_add] at hok
  exact ⟨hok,by simp only [shmFreePages,hnone],hsame⟩

theorem shmTryDestroyLocked_spec (hwf : seg.Wf) (h : ph.Ok (slotsRefs seg.pages + U) K) :
    let r := shmTryDestroyLocked ph seg
    r.1.Ok (slotsRefs r.2.pages + U) K ∧ r.2.Wf ∧ ph.Same r.1 ∧
      r.2.nattch = seg.nattch ∧
      (r.2 = seg ∨ (seg.nattch = 0 ∧ r.2.inuse = false ∧ r.2.pages = fun _ => none)) := by
  simp only [shmTryDestroyLocked]
  split
  · exact ⟨h,hwf,.refl ph,rfl,.inl rfl⟩
  rename_i hfree
  have hn : seg.nattch = 0 := by
    by_contra hne
    simp [hne] at hfree
  have hs : ∀ i, seg.npages ≤ i → seg.pages i = none := fun i hi => by
    have := (hwf.slots i).not.mpr (by omega)
    simpa using this
  have hfreed := shmFreePages_spec hwf.bound hs h
  have hzero : slotsRefs (fun _ => none) = 0 := sum_eq_zero fun _ _ => rfl
  refine ⟨?_,⟨?_,?_,?_,?_,?_⟩,hfreed.same,by simp only [hfreed.seg],
    .inr ⟨hn,rfl,by simp only [hfreed.seg]⟩⟩
  · simp only [hfreed.seg,hzero,zero_add]
    exact hfreed.ok
  · simp [hfreed.seg]
  · simp [hfreed.seg]
  · simp [hfreed.seg]
  · simp [hfreed.seg]
  · simp [hfreed.seg,hn]

theorem shmAllocPage_true {j : Nat} {seg' : ShmSeg} (hj : j < shmMaxPages)
    (hnone : seg.pages j = none) (h : ph.Ok (slotsRefs seg.pages + U) K)
    (ha : shmAllocPage j (ph,seg) = ((ph',seg'),true)) :
    ∃ f, seg' = { seg with pages := update seg.pages j (some f) } ∧
      ph'.Ok (slotsRefs seg'.pages + U) K ∧ ph.Fresh ph' (slotsRefs seg.pages + U) K f := by
  simp only [shmAllocPage] at ha
  split at ha
  · cases ha
  rename_i q f hq
  cases ha
  obtain ⟨hok,hfresh⟩ := Phys.allocUser_some h hq
  have hupd := slotsRefs_update seg.pages hj (some f)
  rw [hnone,slotRefs,slotRefs,add_zero] at hupd
  refine ⟨f,rfl,?_,hfresh⟩
  rw [hupd,add_right_comm]
  exact hok

theorem shmAllocPage_false {j : Nat} {seg' : ShmSeg} (h : ph.Ok (slotsRefs seg.pages + U) K)
    (ha : shmAllocPage j (ph,seg) = ((ph',seg'),false)) :
    seg' = { seg with npages := j } ∧ ph'.Ok (slotsRefs seg.pages + U) K ∧
      Keeps (slotsRefs seg.pages + U) ph ph' ∧ ph'.pmm.failed ≠ 0 := by
  simp only [shmAllocPage] at ha
  split at ha
  · rename_i q hq
    cases ha
    obtain ⟨hok,hkeeps,-,hf⟩ := Phys.allocUser_none h hq
    exact ⟨rfl,hok,hkeeps,Nat.ne_zero_of_lt hf⟩
  · cases ha

structure Allocated (ph ph' : Phys) (seg seg' : ShmSeg) (U K : Nat → Nat) (n : Nat) : Prop where
  ok : ph'.Ok (slotsRefs seg'.pages + U) K
  slots : ∀ i, (seg'.pages i).isSome = true ↔ i < n
  seg : seg' = { seg with pages := seg'.pages }
  keeps : Keeps U ph ph'
  fresh : ∀ i f, seg'.pages i = some f → U f = 0
  distinct : ∀ i j f, seg'.pages i = some f → seg'.pages j = some f → i = j

theorem shmAllocLoop_spec (seg : ShmSeg) {n : Nat} (hn : n ≤ shmMaxPages)
    (hnone : seg.pages = fun _ => none)
    (h : ph.Ok U K) :
    let r := Loop.forEach shmAllocPage (List.range n) (ph,seg)
    (r.2 = true → Allocated ph r.1.1 seg r.1.2 U K n) ∧
      (r.2 = false → ∃ j seg', j < n ∧ Allocated ph r.1.1 seg seg' U K j ∧
        r.1.2 = { seg' with npages := j } ∧ r.1.1.pmm.failed ≠ 0) := by
  have hzero : slotsRefs seg.pages = 0 := sum_eq_zero fun i _ => by rw [hnone]; rfl
  refine Loop.forEach_range_rule shmAllocPage n (I := fun j st => Allocated ph st.1 seg st.2 U K j)
    (E := fun st => ∃ j seg', j < n ∧ Allocated ph st.1 seg seg' U K j ∧
        st.2 = { seg' with npages := j } ∧ st.1.pmm.failed ≠ 0) ?_ ?_ ?_
  · rintro j hj ⟨q,sg⟩ ⟨q',sg'⟩ hi hb
    have hj0 : sg.pages j = none := by
      have := (hi.slots j).not.mpr (by omega)
      simpa using this
    obtain ⟨f,hsg,hok,hfresh⟩ := shmAllocPage_true (by omega) hj0 hi.ok hb
    have huser := hfresh.user
    rw [Pi.add_apply,Nat.add_eq_zero_iff] at huser
    have hnew : ∀ i, sg.pages i ≠ some f := fun i hf => by
      have hlt := (hi.slots i).mp (by simp [hf])
      have := slotsRefs_pos (by omega) hf
      omega
    have hslot : ∀ i g, sg'.pages i = some g → (i = j ∧ g = f) ∨ sg.pages i = some g := by
      intro i g hg
      simp only [hsg,update_apply] at hg
      split at hg
      · cases hg
        exact .inl ⟨‹_›,rfl⟩
      · exact .inr hg
    refine ⟨hok,fun i => ?_,?_,hi.keeps.trans ((Keeps.of_fresh hfresh).mono ?_),?_,?_⟩
    · rw [hsg]
      by_cases hij : i = j
      · subst hij
        simp
      · simp only [update_of_ne hij,hi.slots i]
        omega
    · have hs : sg = { seg with pages := sg.pages } := hi.seg
      simp only [hsg]
      rw [hs]
    · intro g hg
      simp only [Pi.add_apply]
      omega
    · intro i g hg
      rcases hslot i g hg with ⟨-,rfl⟩ | hg
      · exact huser.2
      · exact hi.fresh i g hg
    · intro i l g hg hg'
      rcases hslot i g hg with ⟨rfl,rfl⟩ | hg <;> rcases hslot l g hg' with ⟨rfl,hfg⟩ | hg'
      · rfl
      · exact absurd hg' (hnew l)
      · exact absurd (hfg ▸ hg) (hnew i)
      · exact hi.distinct i l g hg hg'
  · rintro j hj ⟨q,sg⟩ ⟨q',sg'⟩ hi hb
    obtain ⟨hsg,hok,hkeeps,hf⟩ := shmAllocPage_false hi.ok hb
    exact ⟨j,sg,hj,⟨hok,hi.slots,hi.seg,hi.keeps.trans (hkeeps.mono fun _ => Nat.add_pos_right _),
      hi.fresh,hi.distinct⟩,hsg,hf⟩
  · exact ⟨by rw [hzero,zero_add]; exact h,fun i => by simp [hnone],rfl,Keeps.refl _ _,
      by simp [hnone],by simp [hnone]⟩

end TinyOs
