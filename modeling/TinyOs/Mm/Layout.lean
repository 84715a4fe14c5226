import TinyOs.Mm.PageOps

namespace TinyOs

open List

theorem pgRoundUp_le_iff {a b : Nat} (ha : a ≤ userEnd) (hb : b % pgSize = 0) :
    pgRoundUp a ≤ b ↔ a ≤ b := by
  simp only [pgRoundUp,pgSize,word,userEnd,kernBase] at *
  omega

theorem le_pgRoundUp {a : Nat} (ha : a ≤ userEnd) : a ≤ pgRoundUp a :=
  (pgRoundUp_le_iff ha (pgRoundUp_mod a)).mp le_rfl

theorem userHeapTop_le : userHeapTop ≤ userEnd := by decide

namespace Mm

variable {mm mm' : Mm} {start stop len i addr r : Nat} {v : Vma} {X Y : Nat → Nat}

structure Layout (mm : Mm) : Prop where
  base : mm.userBase = userLoad
  task : mm.taskSize = userEnd
  mmap : mm.mmapBase = userHeapTop
  brkStart : userLoad ≤ mm.brkStart
  brk : mm.brkStart ≤ mm.brk
  top : mm.brk ≤ userHeapTop
  aligned : ∀ i < nvma, (mm.vmas i).used = true →
    (mm.vmas i).start % pgSize = 0 ∧ (mm.vmas i).stop % pgSize = 0
  bounds : ∀ i < nvma, (mm.vmas i).used = true →
    pgRoundUp mm.brk ≤ (mm.vmas i).start ∧ (mm.vmas i).start < (mm.vmas i).stop ∧
      (mm.vmas i).stop ≤ userHeapTop
  disjoint : ∀ i < nvma, ∀ j < nvma, i ≠ j → (mm.vmas i).used = true → (mm.vmas j).used = true →
    (mm.vmas i).stop ≤ (mm.vmas j).start ∨ (mm.vmas j).stop ≤ (mm.vmas i).start

structure Vacant (mm : Mm) (start stop : Nat) : Prop where
  base : mm.userBase ≤ start
  lt : start < stop
  top : stop ≤ userHeapTop
  brk : pgRoundUp mm.brk ≤ start
  clear : ∀ i < nvma, (mm.vmas i).used = true →
    (mm.vmas i).stop ≤ start ∨ stop ≤ (mm.vmas i).start
  absent : ∀ va ∈ pageRange start stop, mm.pd.walkaddr va = none

theorem vmaOverlapRange_false : mm.vmaOverlapRange start stop = false ↔
    ∀ i < nvma, (mm.vmas i).used = true → (mm.vmas i).stop ≤ start ∨ stop ≤ (mm.vmas i).start := by
  simp only [vmaOverlapRange,any_eq_false,mem_range,Bool.and_eq_true,decide_eq_true_eq,not_and,
    and_assoc,not_lt]
  exact forall_congr' fun i => forall_congr' fun _ => forall_congr' fun _ => by omega

theorem vacant_of_regionAvailable (h : mm.regionAvailable start stop = true) :
    mm.Vacant start stop := by
  simp only [regionAvailable] at h
  split at h
  · cases h
  rename_i hb
  split at h
  · cases h
  rename_i hbrk
  split at h
  · cases h
  rename_i hover
  rw [Bool.not_eq_true,vmaOverlapRange_false] at hover
  refine ⟨by omega,by omega,by omega,by omega,hover,fun va hva => ?_⟩
  simpa using all_eq_true.mp h va hva

theorem regionAvailable_of_vacant (h : mm.Vacant start stop) :
    mm.regionAvailable start stop = true := by
  have hbase := h.base
  have hlt := h.lt
  have htop := h.top
  rw [regionAvailable,if_neg (by omega),if_neg (not_lt.mpr h.brk),
    vmaOverlapRange_false.mpr h.clear]
  exact all_eq_true.mpr fun va hva => by rw [h.absent va hva]; rfl

def Fits (mm : Mm) (len s : Nat) : Prop :=
  s % pgSize = 0 ∧ s + len ≤ mm.mmapBase ∧ mm.Vacant s (s + len)

theorem findMmapLoop_spec {low fuel : Nat} (ha : start % pgSize = 0)
    (hb : start + len ≤ mm.mmapBase) (h : mm.findMmapLoop low len fuel start ≠ 0) :
    mm.Fits len (mm.findMmapLoop low len fuel start) := by
  induction fuel generalizing start with
  | zero => simp [findMmapLoop] at h
  | succ fuel ih =>
    simp only [findMmapLoop] at h ⊢
    split at h
    · simp at h
    rename_i hlow
    rw [if_neg hlow]
    split at h
    · rename_i havail
      rw [if_pos havail]
      exact ⟨ha,hb,vacant_of_regionAvailable havail⟩
    rename_i havail
    rw [if_neg havail]
    split at h
    · simp at h
    rename_i hend
    rw [if_neg hend]
    exact ih (by simp only [pgSize] at *; omega) (by omega) h

theorem findMmapAddr_spec (h : mm.findMmapAddr len ≠ 0) : mm.Fits len (mm.findMmapAddr len) := by
  simp only [findMmapAddr] at h ⊢
  split at h
  · simp at h
  rename_i hc
  rw [if_neg hc]
  have hle := pgRoundDown_le (mm.mmapBase - len)
  exact findMmapLoop_spec (pgRoundDown_mod _) (by omega) h

theorem findMmapLoop_ge {low fuel s : Nat} (hs : s % pgSize = 0) (ha : start % pgSize = 0)
    (hlow : low ≤ s) (hle : s ≤ start) (hfuel : start / pgSize < fuel)
    (hv : mm.Vacant s (s + len)) : s ≤ mm.findMmapLoop low len fuel start := by
  induction fuel generalizing start with
  | zero => exact absurd hfuel (Nat.not_lt_zero _)
  | succ fuel ih =>
    rw [findMmapLoop,if_neg (by omega)]
    by_cases hav : mm.regionAvailable start (start + len) = true
    · rw [if_pos hav]
      exact hle
    have hne : s ≠ start := fun he => hav (he ▸ regionAvailable_of_vacant hv)
    have hnext : (start - pgSize) % pgSize = 0 ∧ s ≤ start - pgSize ∧
        (start - pgSize) / pgSize < fuel ∧ low + pgSize ≤ start := by
      simp only [pgSize] at *
      omega
    rw [if_neg hav,if_neg (by omega)]
    exact ih hnext.1 hnext.2.1 hnext.2.2.1

theorem findMmapAddr_ge {s : Nat} (h : mm.Fits len s) : s ≤ mm.findMmapAddr len := by
  obtain ⟨hs,hhigh,hv⟩ := h
  have hbrk := hv.brk
  have hlt := hv.lt
  have hle : s ≤ pgRoundDown (mm.mmapBase - len) := by
    simp only [pgRoundDown,pgSize] at *
    omega
  rw [findMmapAddr]
  dsimp only
  rw [if_neg (by omega)]
  exact findMmapLoop_ge hs (pgRoundDown_mod _) hbrk hle (Nat.lt_succ_self _) hv

theorem find_mmap_addr_highest (mm : Mm) (len : Nat) :
    (mm.findMmapAddr len ≠ 0 → mm.Fits len (mm.findMmapAddr len)) ∧
      (∀ s, mm.Fits len s → s ≤ mm.findMmapAddr len) ∧
      (mm.findMmapAddr len = 0 ↔ ∀ s, mm.Fits len s → s = 0) := by
  refine ⟨findMmapAddr_spec,fun s => findMmapAddr_ge,fun h s hs => ?_,fun h => ?_⟩
  · have := findMmapAddr_ge hs
    omega
  · by_contra hne
    exact hne (h _ (findMmapAddr_spec hne))

theorem find_mmap_addr_zero_length :
    let mm : Mm := ⟨0,fun _ => none,userLoad,userEnd,userHeapTop,userLoad,userLoad,fun _ => .empty⟩
    mm.findMmapAddr 0 = 0 ∧ userHeapTop % pgSize = 0 ∧ pgRoundUp mm.brk ≤ userHeapTop ∧
      userHeapTop + 0 ≤ mm.mmapBase ∧ mm.vmaOverlapRange userHeapTop userHeapTop = false ∧
      pageRange userHeapTop userHeapTop = [] := by
  decide +kernel

theorem vmaAllocSlot_spec (h : mm.vmaAllocSlot = some i) : i < nvma ∧ (mm.vmas i).used = false := by
  have hm := mem_of_find?_eq_some h
  have hp := find?_some h
  exact ⟨mem_range.mp hm,by simpa using hp⟩

theorem setVma_self (mm : Mm) (i : Nat) (v : Vma) : (mm.setVma i v).vmas i = v :=
  Function.update_self _ _ _

theorem setVma_of_ne {j : Nat} (h : j ≠ i) : (mm.setVma i v).vmas j = mm.vmas j :=
  Function.update_of_ne h _ _

namespace Layout

theorem setVma (h : mm.Layout) (hv : v.used = true →
    mm.Vacant v.start v.stop ∧ v.start % pgSize = 0 ∧ v.stop % pgSize = 0) :
    (mm.setVma i v).Layout where
  base := h.base
  task := h.task
  mmap := h.mmap
  brkStart := h.brkStart
  brk := h.brk
  top := h.top
  aligned := by
    intro j hj hu
    by_cases hji : j = i
    · subst hji
      rw [setVma_self] at hu ⊢
      exact (hv hu).2
    · rw [setVma_of_ne hji] at hu ⊢
      exact h.aligned j hj hu
  bounds := by
    intro j hj hu
    by_cases hji : j = i
    · subst hji
      rw [setVma_self] at hu ⊢
      exact ⟨(hv hu).1.brk,(hv hu).1.lt,(hv hu).1.top⟩
    · rw [setVma_of_ne hji] at hu ⊢
      exact h.bounds j hj hu
  disjoint := by
    intro j hj l hl hne hu hu'
    by_cases hji : j = i
    · subst hji
      rw [setVma_self] at hu ⊢
      rw [setVma_of_ne hne.symm] at hu' ⊢
      exact ((hv hu).1.clear l hl hu').symm
    rw [setVma_of_ne hji] at hu ⊢
    by_cases hli : l = i
    · subst hli
      rw [setVma_self] at hu' ⊢
      exact (hv hu').1.clear j hj hu
    · rw [setVma_of_ne hli] at hu' ⊢
      exact h.disjoint j hj l hl hne hu hu'

theorem remove (h : mm.Layout) (hv : v.used = false) : (mm.setVma i v).Layout :=
  h.setVma fun hu => by simp [hv] at hu

theorem setPd (h : mm.Layout) (pd : Pgdir) : { mm with pd := pd }.Layout :=
  ⟨h.base,h.task,h.mmap,h.brkStart,h.brk,h.top,h.aligned,h.bounds,h.disjoint⟩

theorem setBrk (h : mm.Layout) (hlo : mm.brkStart ≤ addr) (hhi : addr ≤ userHeapTop)
    (hclear : ∀ i < nvma, (mm.vmas i).used = true → addr ≤ (mm.vmas i).start) :
    { mm with brk := addr }.Layout where
  base := h.base
  task := h.task
  mmap := h.mmap
  brkStart := h.brkStart
  brk := hlo
  top := hhi
  aligned := h.aligned
  bounds := by
    intro i hi hu
    refine ⟨?_,(h.bounds i hi hu).2⟩
    exact (pgRoundUp_le_iff (hhi.trans userHeapTop_le) (h.aligned i hi hu).1).mpr (hclear i hi hu)
  disjoint := h.disjoint

theorem brk_le_start (h : mm.Layout) (hi : i < nvma) (hu : (mm.vmas i).used = true) :
    mm.brk ≤ (mm.vmas i).start :=
  (le_pgRoundUp (h.top.trans userHeapTop_le)).trans (h.bounds i hi hu).1

end Layout

theorem doMmap_cases {prot flags fd : Nat} (h : mm.doMmap addr len prot flags fd = (mm',r)) :
    (mm' = mm ∧ r = failure) ∨
      ∃ i stop, i < nvma ∧ (mm.vmas i).used = false ∧ mm.Vacant r stop ∧ r % pgSize = 0 ∧
        stop % pgSize = 0 ∧ protOk prot = true ∧
        mm' = mm.setVma i ⟨true,r,stop,prot,flags % 2 ^ 16⟩ := by
  simp only [doMmap] at h
  split at h
  · cases h
    exact .inl ⟨rfl,rfl⟩
  split at h
  · cases h
    exact .inl ⟨rfl,rfl⟩
  rename_i hlen
  split at h
  · cases h
    exact .inl ⟨rfl,rfl⟩
  split at h
  · cases h
    exact .inl ⟨rfl,rfl⟩
  split at h
  · cases h
    exact .inl ⟨rfl,rfl⟩
  split at h
  · cases h
    exact .inl ⟨rfl,rfl⟩
  rename_i hprot
  split at h
  · cases h
    exact .inl ⟨rfl,rfl⟩
  rename_i start hstart
  split at h
  · cases h
    exact .inl ⟨rfl,rfl⟩
  rename_i i hi
  obtain ⟨hin,hunused⟩ := vmaAllocSlot_spec hi
  cases h
  have hround := pgRoundUp_mod len
  have hle : pgRoundUp len ≤ userHeapTop := by omega
  have hvac : r % pgSize = 0 ∧ mm.Vacant r ((r + pgRoundUp len) % word) := by
    split at hstart
    · split at hstart
      · cases hstart
      rename_i hal
      split at hstart
      · rename_i havail
        cases hstart
        exact ⟨by omega,vacant_of_regionAvailable havail⟩
      · cases hstart
    · split at hstart
      · cases hstart
      rename_i hne
      cases hstart
      obtain ⟨hal,-,hv⟩ := findMmapAddr_spec hne
      have htop := hv.top
      rw [Nat.mod_eq_of_lt (lt_of_le_of_lt htop (by decide))]
      exact ⟨hal,hv⟩
  refine .inr ⟨i,_,hin,hunused,hvac.2,hvac.1,?_,by simpa using hprot,rfl⟩
  have hal := hvac.1
  simp only [pgSize,word] at *
  omega

theorem doMmap_layout {prot flags fd : Nat} (hl : mm.Layout)
    (h : mm.doMmap addr len prot flags fd = (mm',r)) : mm'.Layout := by
  rcases doMmap_cases h with ⟨rfl,-⟩ | ⟨i,stop,-,-,hv,hal,hal',-,rfl⟩
  · exact hl
  · exact hl.setVma fun _ => ⟨hv,hal,hal'⟩

theorem sysBrk_cases {ph ph' : Phys} (hl : mm.Layout)
    (hs : Space.Ok ⟨ph,mm.pd⟩ X Y) (h : mm.sysBrk ph addr = (ph',mm',r)) :
    (ph' = ph ∧ mm' = mm ∧ r = mm.brk) ∨ (mm.brk < addr ∧ addr ≤ userHeapTop ∧
        (∀ i < nvma, (mm.vmas i).used = true → addr ≤ (mm.vmas i).start) ∧
        ph' = ph ∧ mm' = { mm with brk := addr } ∧ r = addr) ∨
      (mm.brkStart ≤ addr ∧ addr < mm.brk ∧ r = addr ∧ ∃ s', Space.Unmapped ⟨ph,mm.pd⟩ s' X Y
            (fun p => pgRoundUp addr / pgSize ≤ p ∧ p < pgRoundUp mm.brk / pgSize) ∧
          ph' = s'.phys ∧ mm' = { mm with pd := s'.pd, brk := addr }) := by
  simp only [sysBrk] at h
  split at h
  · cases h
    exact .inl ⟨rfl,rfl,rfl⟩
  rename_i hrange
  rw [not_or,not_lt,not_lt] at hrange
  split at h
  · rename_i hgrow
    split at h
    · cases h
      exact .inl ⟨rfl,rfl,rfl⟩
    rename_i hover
    split at h
    · cases h
      exact .inl ⟨rfl,rfl,rfl⟩
    cases h
    refine .inr (.inl ⟨hgrow,hrange.2,fun i hi hu => ?_,rfl,rfl,rfl⟩)
    rw [Bool.not_eq_true,vmaOverlapsBrk,if_neg (by omega),vmaOverlapRange_false] at hover
    have hbrk := hl.brk_le_start hi hu
    have hlt := (hl.bounds i hi hu).2.1
    rcases hover i hi hu with hc | hc <;> omega
  rename_i hgrow
  split at h
  · rename_i hshrink
    obtain ⟨s',hs',hun⟩ := Space.uvmdealloc_spec hs hshrink hl.top
    obtain ⟨n,rfl⟩ : ∃ n, addr = n + 1 := by
      have hlo := hl.brkStart
      simp only [userLoad] at hlo
      exact ⟨addr - 1,by omega⟩
    rw [hs'] at h
    cases h
    exact .inr (.inr ⟨hrange.1,hshrink,rfl,s',hun,rfl,rfl⟩)
  · cases h
    have he : mm.brk = addr := by omega
    subst he
    exact .inl ⟨rfl,rfl,rfl⟩

theorem sysBrk_layout {ph ph' : Phys} (hl : mm.Layout)
    (hs : Space.Ok ⟨ph,mm.pd⟩ X Y) (h : mm.sysBrk ph addr = (ph',mm',r)) : mm'.Layout := by
  rcases sysBrk_cases hl hs h with
    ⟨-,rfl,-⟩ | ⟨hlt,htop,hclear,-,rfl,-⟩ | ⟨hlo,hlt,-,s',-,-,rfl⟩
  · exact hl
  · exact hl.setBrk (hl.brk.trans hlt.le) htop hclear
  · refine (hl.setPd s'.pd).setBrk hlo (hlt.le.trans hl.top) fun i hi hu => ?_
    exact hlt.le.trans (hl.brk_le_start hi hu)

end Mm

end TinyOs
