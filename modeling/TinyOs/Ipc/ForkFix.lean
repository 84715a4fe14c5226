import Mathlib.Algebra.BigOperators.Intervals
import Mathlib.Algebra.Order.Pi
import TinyOs.Lifecycle

namespace TinyOs

open Count Finset

variable {id i : Nat} {tbl : ShmTable}

def Mm.Shared (mm : Mm) (a : Nat) : Prop :=
  ∃ i < nvma, (vmaShmid (mm.vmas i)).isSome = true ∧ (mm.vmas i).start ≤ a ∧ a < (mm.vmas i).stop

theorem shmGet_of_nattch (h : tbl.Wf) (hpos : 0 < (tbl id).nattch) :
    id < nshm ∧ shmGet tbl id = some (tbl id) := by
  have hid : id < nshm := by
    by_contra hge
    rw [h.beyond id (by omega)] at hpos
    exact absurd hpos (by decide)
  have huse : (tbl id).inuse = true := by
    by_contra hno
    have := (h.seg id).idle (by simpa using hno)
    omega
  refine ⟨hid,?_⟩
  rw [shmGet,if_neg (by omega),if_pos huse]

theorem ShmTable.setNattch_same (tbl : ShmTable) (id n j : Nat) :
    (tbl.set id { tbl id with nattch := n } j).size = (tbl j).size ∧
      (tbl.set id { tbl id with nattch := n } j).pages = (tbl j).pages := by
  by_cases hj : j = id
  · subst hj
    rw [ShmTable.set_self]
    exact ⟨rfl,rfl⟩
  · rw [ShmTable.set_of_ne hj]
    exact ⟨rfl,rfl⟩

theorem ShmTable.Wf.setNattch {n : Nat} (h : tbl.Wf)
    (hpos : 0 < (tbl id).nattch) : (tbl.set id { tbl id with nattch := n }).Wf := by
  obtain ⟨hid,-⟩ := shmGet_of_nattch h hpos
  obtain ⟨hb,hs,hz,hi,hidle⟩ := h.seg id
  refine h.set hid ⟨hb,hs,hz,hi,fun hno => ?_⟩ fun _ _ hj => hj
  have := hidle hno
  omega

theorem Mm.Ok.remap {mm : Mm} {ph : Phys} {X Y : Nat → Nat}
    (h : mm.Ok tbl) (hwf : tbl.Wf) (hs : Space.Ok ⟨ph,mm.pd⟩ (tbl.refs + X) Y)
    (hX : ∀ g, X g ≤ 2 ^ 30) (hi : i < nvma) (hid : vmaShmid (mm.vmas i) = some id) :
    ∃ s, shmMapRange (mm.vmas i) (tbl id) ⟨ph,mm.pd⟩ = (s,true) ∧
      Ctx.Remap ⟨ph,tbl,mm⟩ s X Y (mm.vmas i) id true ∧ { mm with pd := s.pd }.Ok tbl ∧
      (mm.Tidy tbl 0 → { mm with pd := s.pd }.Tidy tbl 0) := by
  have hu := used_of_shmid hid
  have hal := (h.layout.aligned i hi hu).1
  have htop := h.layout.vma_le_userEnd hi hu
  have hlt := (h.layout.bounds i hi hu).2.1
  have hstop : (mm.vmas i).stop = (mm.vmas i).start + (tbl id).size := by
    have := h.backed.size i hi id hid
    omega
  rcases hm : shmMapRange (mm.vmas i) (tbl id) ⟨ph,mm.pd⟩ with ⟨s,b⟩
  have hr : Ctx.Remap ⟨ph,tbl,mm⟩ s X Y (mm.vmas i) id b :=
    Ctx.remap_of_shmMapRange hwf hs hX hal htop hstop hm
  cases b with
  | false =>
    obtain ⟨-,a,hlo,hhi,hnone⟩ := hr.failed rfl
    exact absurd hnone (h.backed.mapped i hi id hid a hlo hhi)
  | true =>
    refine ⟨s,rfl,hr,⟨hr.remapped.ok.wf,h.layout.setPd _,h.backed.size,?_⟩,fun ht =>
      hr.tidy 0 hwf hi hid hal hstop ht fun _ _ _ h0 => absurd h0 (by simp)⟩
    intro j hj id' hid' a hlo hhi
    have hend := h.layout.vma_le_userEnd hj (used_of_shmid hid')
    by_cases hin : (mm.vmas i).start ≤ a ∧ a < (mm.vmas i).stop
    · exact hr.present (hwf.seg id) hal htop hstop hin.1 hin.2
    have hpage := (Mm.vma_page_iff h.layout hi hu a).not.mpr hin
    have he := hr.remapped.other a ((hhi.trans_le hend).trans userEnd_lt) hpage
    exact fun hnone => h.backed.mapped j hj id' hid' a hlo hhi (he.symm.trans hnone)

namespace Forking

def uses (f : Forking) (X : Nat → Nat) : Nat → Nat :=
  f.parent.pd.userRefs + (f.child.pd.userRefs + (f.shm.refs + X))

structure Ok (f : Forking) (X Y : Nat → Nat) : Prop where
  phys : f.phys.Ok (f.uses X) (f.parent.pd.dirRefs + (f.child.pd.dirRefs + Y))
  table : f.shm.Wf
  parent : f.parent.Ok f.shm
  child : f.child.Ok f.shm

variable {f f₀ : Forking} {X Y N : Nat → Nat} {n id : Nat}

theorem Ok.parentSpace (h : f.Ok X Y) : Space.Ok ⟨f.phys,f.parent.pd⟩
    (f.shm.refs + (f.child.pd.userRefs + X)) (f.child.pd.dirRefs + Y) := by
  refine ⟨?_,h.parent.wf⟩
  have := h.phys
  rwa [uses,add_left_comm f.child.pd.userRefs] at this

structure Fixed (f₀ f : Forking) (X Y N : Nat → Nat) (n : Nat) : Prop where
  ok : f.Ok X Y
  parent : f.parent = { f₀.parent with pd := f.parent.pd }
  child : f.child = { f₀.child with pd := f.child.pd, vmas := f.child.vmas }
  vmas : ∀ i, f.child.vmas i = f₀.parent.vmas i ∨
    (i < n ∧ (f.child.vmas i).used = false ∧ (vmaShmid (f₀.parent.vmas i)).isSome = true)
  attach : ∀ id, (f.shm id).nattch =
    (f₀.parent.attached + ((∑ j ∈ Finset.range n, vmaAttach (f.child.vmas j)) + N)) id
  segs : ∀ id, (f.shm id).size = (f₀.shm id).size ∧ (f.shm id).pages = (f₀.shm id).pages
  other : ∀ a < word, ¬ f₀.parent.Shared a →
    f.parent.pd.lookup a = f₀.parent.pd.lookup a ∧ f.child.pd.lookup a = f₀.child.pd.lookup a
  refs : ∀ g, (f.parent.pd.userRefs g ≤ f₀.parent.pd.userRefs g ∧
    f.child.pd.userRefs g ≤ f₀.child.pd.userRefs g) ∨ 0 < f₀.shm.refs g
  shrink : ∀ g, 0 < f.uses X g → 0 < f₀.uses X g
  mem : ∀ g, 0 < f.uses X g → f.phys.mem g = f₀.phys.mem g
  failed : f₀.phys.pmm.failed ≤ f.phys.pmm.failed
  tidy : f₀.parent.Tidy f₀.shm 0 → f₀.child.Tidy f₀.shm 0 →
    f.parent.Tidy f.shm 0 ∧ f.child.Tidy f.shm 0

theorem Fixed.refl (h : f.Ok X Y) (hvmas : ∀ i, f.child.vmas i = f.parent.vmas i)
    (hatt : ∀ id, (f.shm id).nattch = (f.parent.attached + N) id) : Fixed f f X Y N 0 where
  ok := h
  parent := rfl
  child := rfl
  vmas i := .inl (hvmas i)
  attach id := by rw [hatt,sum_range_zero,zero_add]
  segs _ := ⟨rfl,rfl⟩
  other _ _ _ := ⟨rfl,rfl⟩
  refs _ := .inl ⟨le_refl _,le_refl _⟩
  shrink _ h := h
  mem _ _ := rfl
  failed := le_rfl
  tidy h h' := ⟨h,h'⟩

theorem Fixed.shmRefs (h : Fixed f₀ f X Y N n) : f.shm.refs = f₀.shm.refs :=
  ShmTable.refs_congr fun id => (h.segs id).2

theorem Fixed.parentVmas (h : Fixed f₀ f X Y N n) (i : Nat) : f.parent.vmas i = f₀.parent.vmas i := by
  rw [h.parent]

theorem Fixed.attached (h : Fixed f₀ f X Y N n) (hi : i < nvma)
    (hid : vmaShmid (f.child.vmas i) = some id) :
    f.child.vmas i = f₀.parent.vmas i ∧ 0 < (f.shm id).nattch := by
  have hv : f.child.vmas i = f₀.parent.vmas i := by
    refine (h.vmas i).resolve_right fun hun => ?_
    have hu := used_of_shmid hid
    simp [hun.2.1] at hu
  have hpos := Mm.attached_pos hi (hv ▸ hid)
  refine ⟨hv,?_⟩
  rw [h.attach,Pi.add_apply]
  omega

theorem Fixed.shared (h : Fixed f₀ f X Y N n) {a : Nat} (hi : i < nvma)
    (hid : vmaShmid (f.child.vmas i) = some id) (hout : ¬ f₀.parent.Shared a) :
    ¬ ((f.child.vmas i).start ≤ a ∧ a < (f.child.vmas i).stop) := by
  have hv := (h.attached hi hid).1
  rw [hv] at hid ⊢
  exact fun hin => hout ⟨i,hi,by rw [hid]; rfl,hin⟩

theorem Fixed.attached_le (h : Fixed f₀ f X Y N n) (hn : n ≤ nvma) (id : Nat) :
    f.child.attached id ≤ (f.shm id).nattch := by
  have hsplit := sum_range_add_sum_Ico (fun j => vmaAttach (f.child.vmas j)) hn
  have hrest : ∑ j ∈ Finset.Ico n nvma, vmaAttach (f.child.vmas j) =
      ∑ j ∈ Finset.Ico n nvma, vmaAttach (f₀.parent.vmas j) := by
    refine sum_congr rfl fun j hj => ?_
    have hle := (mem_Ico.mp hj).1
    rw [(h.vmas j).resolve_right fun hlt => by omega]
  have hle : (∑ j ∈ Finset.Ico n nvma, vmaAttach (f₀.parent.vmas j)) ≤ f₀.parent.attached := by
    refine sum_le_sum_of_subset fun j hj => ?_
    exact mem_range.mpr (mem_Ico.mp hj).2
  rw [h.attach,Mm.attached,← hsplit,hrest]
  have := hle id
  simp only [Pi.add_apply] at this ⊢
  omega

theorem Fixed.childCtx (h : Fixed f₀ f X Y N n) (hn : n ≤ nvma) :
    Ctx.Ok ⟨f.phys,f.shm,f.child⟩ (f.parent.pd.userRefs + X) (f.parent.pd.dirRefs + Y)
      (fun id => (f.shm id).nattch - f.child.attached id) := by
  refine ⟨⟨?_,h.ok.child.wf⟩,h.ok.table,h.ok.child.layout,h.ok.child.backed,fun id => ?_⟩
  · have e : f.child.pd.userRefs + (f.shm.refs + (f.parent.pd.userRefs + X)) = f.uses X := by
      rw [uses]
      abel
    have e' : f.child.pd.dirRefs + (f.parent.pd.dirRefs + Y) =
        f.parent.pd.dirRefs + (f.child.pd.dirRefs + Y) := add_left_comm _ _ _
    change f.phys.Ok (f.child.pd.userRefs + (f.shm.refs + (f.parent.pd.userRefs + X)))
      (f.child.pd.dirRefs + (f.parent.pd.dirRefs + Y))
    rw [e,e']
    exact h.ok.phys
  · exact (Nat.add_sub_cancel' (h.attached_le hn id)).symm

theorem Fixed.unmapChild (h : Fixed f₀ f X Y N n) (hn : n < nvma)
    (hid : vmaShmid (f.child.vmas n) = some id) : Fixed f₀ (f.unmapChild n) X Y N (n + 1) := by
  obtain ⟨v,hv⟩ : ∃ v : Vma, { f.child.vmas n with used := false, flags := 0 } = v := ⟨_,rfl⟩
  have hun : v.used = false := by rw [← hv]
  have hu := used_of_shmid hid
  have hctx := h.childCtx hn.le
  have hr := (hctx.unmapVma hn hu hun).dropped hun
  obtain ⟨s,hs⟩ : ∃ s, unmapRange (f.child.vmas n).start (f.child.vmas n).stop ⟨f.phys,f.child.pd⟩ =
    s := ⟨_,rfl⟩
  have hx : ((Ctx.mk f.phys f.shm f.child).unmapVma (f.child.vmas n)).setVma n v =
      ⟨s.phys,f.shm,{ f.child with pd := s.pd }.setVma n v⟩ := by
    rw [← hs]
    rfl
  have hf : f.unmapChild n = ⟨s.phys,f.shm,f.parent,{ f.child with pd := s.pd }.setVma n v⟩ := by
    rw [← hs,← hv]
    rfl
  dsimp only at hr
  rw [hx] at hr
  rw [hf]
  have hok := hr.shrunk.ok
  have hle : ∀ g, s.pd.userRefs g ≤ f.child.pd.userRefs g := hr.shrunk.refs
  have huses : ∀ g, uses ⟨s.phys,f.shm,f.parent,{ f.child with pd := s.pd }.setVma n v⟩ X g ≤
      f.uses X g := by
    intro g
    have := hle g
    simp only [uses,Pi.add_apply,Mm.setVma]
    omega
  have hmem : s.phys.mem = f.phys.mem := hr.shrunk.same.mem
  have hfail : s.phys.pmm.failed = f.phys.pmm.failed := hr.shrunk.same.failed
  refine ⟨⟨?_,h.ok.table,h.ok.parent,hok.wf,hok.layout,hok.backed⟩,h.parent,?_,fun i => ?_,
    fun id => ?_,h.segs,fun a ha hout => ⟨(h.other a ha hout).1,?_⟩,fun g => ?_,
    fun g hg => h.shrink g (hg.trans_le (huses g)),fun g hg => ?_,?_,fun hp hc => ?_⟩
  · have e : uses ⟨s.phys,f.shm,f.parent,{ f.child with pd := s.pd }.setVma n v⟩ X =
        s.pd.userRefs + (f.shm.refs + (f.parent.pd.userRefs + X)) := by
      simp only [uses,Mm.setVma]
      abel
    have hp : s.phys.Ok (s.pd.userRefs + (f.shm.refs + (f.parent.pd.userRefs + X)))
        (s.pd.dirRefs + (f.parent.pd.dirRefs + Y)) := hok.space.phys
    rw [← e,add_left_comm] at hp
    exact hp
  · dsimp only [Mm.setVma]
    rw [h.child]
  · by_cases hi : i = n
    · subst hi
      refine .inr ⟨Nat.lt_succ_self i,?_,?_⟩
      · rw [Mm.setVma_self]
        exact hun
      · rw [← (h.attached hn hid).1,hid]
        rfl
    · dsimp only
      rw [Mm.setVma_of_ne hi]
      exact (h.vmas i).imp_right fun hlt => ⟨by omega,hlt.2⟩
  · rw [sum_range_succ]
    dsimp only
    rw [Mm.setVma_self,vmaAttach_none (vmaShmid_unused hun),add_zero,h.attach]
    refine congrArg (fun S : Nat → Nat => (f₀.parent.attached + (S + N)) id)
      (sum_congr rfl fun j hj => ?_)
    have hlt := mem_range.mp hj
    rw [Mm.setVma_of_ne (by omega)]
  · have := hr.lookup a ha
    dsimp only at this
    rw [if_neg (h.shared hn hid hout)] at this
    exact this.trans (h.other a ha hout).2
  · refine (h.refs g).imp_left fun hg => ⟨hg.1,(hle g).trans hg.2⟩
  · dsimp only
    rw [hmem]
    exact h.mem g (hg.trans_le (huses g))
  · exact h.failed.trans hfail.ge
  · obtain ⟨hp',hc'⟩ := h.tidy hp hc
    exact ⟨hp',hr.mm_tidy hctx hn hu hc' fun _ _ h0 => absurd h0 (by simp)⟩

theorem Fixed.attachChild (h : Fixed f₀ f X Y N n) (hX : ∀ g, X g ≤ 2 ^ 29) (hn : n < nvma)
    (hid : vmaShmid (f.child.vmas n) = some id) :
    ∃ s t, shmMapRange (f.parent.vmas n) (f.shm id) ⟨f.phys,f.parent.pd⟩ = (s,true) ∧
      shmMapRange (f.child.vmas n) (f.shm id) ⟨s.phys,f.child.pd⟩ = (t,true) ∧
      Fixed f₀
        { phys := t.phys
          shm := f.shm.set id { f.shm id with nattch := (f.shm id).nattch + 1 }
          parent := { f.parent with pd := s.pd }
          child := { f.child with pd := t.pd } } X Y N (n + 1) := by
  have hbound : ∀ (pd : Pgdir) g, (pd.userRefs + X) g ≤ 2 ^ 30 := by
    intro pd g
    have := Pgdir.userRefs_le pd g
    have := hX g
    rw [Pi.add_apply]
    omega
  obtain ⟨hv,hpos⟩ := h.attached hn hid
  have hvp : f.parent.vmas n = f.child.vmas n := (h.parentVmas n).trans hv.symm
  have hidp : vmaShmid (f.parent.vmas n) = some id := hvp ▸ hid
  obtain ⟨s,hs,hrp,hokp,htidyp⟩ :=
    h.ok.parent.remap h.ok.table h.ok.parentSpace (hbound _) hn hidp
  have hspace : Space.Ok ⟨s.phys,f.child.pd⟩ (f.shm.refs + (s.pd.userRefs + X))
      (s.pd.dirRefs + Y) := by
    refine ⟨?_,h.ok.child.wf⟩
    have hp := hrp.remapped.ok.phys
    have e : s.pd.userRefs + (f.shm.refs + (f.child.pd.userRefs + X)) =
        f.child.pd.userRefs + (f.shm.refs + (s.pd.userRefs + X)) := by abel
    dsimp only at hp ⊢
    rwa [e,add_left_comm s.pd.dirRefs] at hp
  obtain ⟨t,ht,hrc,hokc,htidyc⟩ := h.ok.child.remap h.ok.table hspace (hbound _) hn hid
  refine ⟨s,t,hs,ht,?_⟩
  obtain ⟨tbl,htbl⟩ : ∃ tbl, f.shm.set id { f.shm id with nattch := (f.shm id).nattch + 1 } = tbl :=
    ⟨_,rfl⟩
  have hseg : ∀ j, (tbl j).size = (f.shm j).size ∧ (tbl j).pages = (f.shm j).pages := fun j =>
    htbl ▸ f.shm.setNattch_same id _ j
  have hnattch : ∀ j, (tbl j).nattch = (f.shm j).nattch + unit id j := by
    intro j
    rw [← htbl]
    by_cases hj : j = id
    · subst hj
      simp
    · simp [ShmTable.set_of_ne hj,unit_of_ne hj]
  have hrefs : tbl.refs = f.shm.refs := ShmTable.refs_congr fun j => (hseg j).2
  have hwf : tbl.Wf := htbl ▸ h.ok.table.setNattch hpos
  have hmm : ∀ {mm : Mm}, mm.Ok f.shm → mm.Ok tbl := fun hm =>
    ⟨hm.wf,hm.layout,hm.backed.congr fun j _ => (hseg j).1⟩
  have hgone : ∀ a, ¬ f₀.parent.Shared a → ¬ ((f.child.vmas n).start / pgSize ≤ a / pgSize ∧
      a / pgSize < (f.child.vmas n).stop / pgSize) := fun a hout =>
    (Mm.vma_page_iff h.ok.child.layout hn (used_of_shmid hid) a).not.mpr (h.shared hn hid hout)
  have hslot : ∀ g, (∃ j, (f.shm id).pages j = some g) → 0 < f₀.shm.refs g := by
    rintro g ⟨j,hj⟩
    rw [← h.shmRefs]
    exact (h.ok.table.slot_refs hj).2
  have huses : uses ⟨t.phys,tbl,{ f.parent with pd := s.pd },{ f.child with pd := t.pd }⟩ X =
      t.pd.userRefs + (f.shm.refs + (s.pd.userRefs + X)) := by
    simp only [uses,hrefs]
    abel
  have hback : ∀ g, 0 < (t.pd.userRefs + (f.shm.refs + (s.pd.userRefs + X))) g →
      0 < (s.pd.userRefs + (f.shm.refs + (f.child.pd.userRefs + X))) g := by
    intro g hg
    have := hrc.remapped.shrink g hg
    simp only [Ctx.space,Pi.add_apply] at this ⊢
    omega
  have hback' : ∀ g, 0 < (s.pd.userRefs + (f.shm.refs + (f.child.pd.userRefs + X))) g →
      0 < f.uses X g := by
    intro g hg
    have := hrp.remapped.shrink g hg
    simp only [Ctx.space,uses,Pi.add_apply] at this ⊢
    omega
  rw [htbl]
  refine ⟨⟨?_,hwf,hmm hokp,hmm hokc⟩,?_,?_,fun i => ?_,fun j => ?_,fun j => ?_,
    fun a ha hout => ⟨?_,?_⟩,fun g => ?_,fun g hg => ?_,fun g hg => ?_,?_,
    fun hp hc => ?_⟩
  · have hp := hrc.remapped.ok.phys
    dsimp only at hp
    rw [huses]
    dsimp only
    rwa [add_left_comm s.pd.dirRefs]
  · dsimp only
    rw [h.parent]
  · dsimp only
    rw [h.child]
  · exact (h.vmas i).imp_right fun hlt => ⟨by omega,hlt.2⟩
  · rw [hnattch,h.attach,sum_range_succ,vmaAttach_some hid]
    simp only [Pi.add_apply]
    omega
  · exact ⟨(hseg j).1.trans (h.segs j).1,(hseg j).2.trans (h.segs j).2⟩
  · have he := hrp.remapped.other a ha
    rw [hvp] at he
    exact (he (hgone a hout)).trans (h.other a ha hout).1
  · exact (hrc.remapped.other a ha (hgone a hout)).trans (h.other a ha hout).2
  · rcases h.refs g with ⟨h1,h2⟩ | h0
    · rcases hrp.remapped.refs g with h3 | h3
      · rcases hrc.remapped.refs g with h4 | h4
        · exact .inl ⟨h3.trans h1,h4.trans h2⟩
        · exact .inr (hslot g h4)
      · exact .inr (hslot g h3)
    · exact .inr h0
  · rw [huses] at hg
    exact h.shrink g (hback' g (hback g hg))
  · rw [huses] at hg
    exact (hrc.remapped.mem g hg).trans ((hrp.remapped.mem g (hback g hg)).trans
      (h.mem g (hback' g (hback g hg))))
  · exact h.failed.trans (hrp.remapped.failed.trans hrc.remapped.failed)
  · obtain ⟨hp',hc'⟩ := h.tidy hp hc
    have hpages : ∀ j, (tbl j).pages = (f.shm j).pages := fun j => (hseg j).2
    exact ⟨(htidyp hp').congr _ hpages,(htidyc hc').congr _ hpages⟩

theorem Fixed.step (h : Fixed f₀ f X Y N n) (hX : ∀ g, X g ≤ 2 ^ 29) (hn : n < nvma) :
    Fixed f₀ (f.shmForkFixStep n) X Y N (n + 1) := by
  rw [shmForkFixStep]
  rcases hid : vmaShmid (f.child.vmas n) with _ | id
  · dsimp only
    refine { h with vmas := fun i => (h.vmas i).imp_right fun hlt => ⟨by omega,hlt.2⟩, attach := ?_ }
    intro id
    rw [sum_range_succ,vmaAttach_none hid,add_zero]
    exact h.attach id
  have hget := (shmGet_of_nattch h.ok.table (h.attached hn hid).2).2
  simp only [hget]
  split
  · exact h.unmapChild hn hid
  obtain ⟨s,t,hs,ht,hfix⟩ := h.attachChild hX hn hid
  simp only [hs,ht,if_pos]
  exact hfix

theorem shmForkFix_spec (h : f.Ok X Y) (hX : ∀ g, X g ≤ 2 ^ 29)
    (hvmas : ∀ i, f.child.vmas i = f.parent.vmas i)
    (hatt : ∀ id, (f.shm id).nattch = (f.parent.attached + N) id) :
    Fixed f f.shmForkFix X Y N nvma := by
  have hrun : ∀ n ≤ nvma, Fixed f ((List.range n).foldl shmForkFixStep f) X Y N n := by
    intro n
    induction n with
    | zero => exact fun _ => Fixed.refl h hvmas hatt
    | succ n ih =>
      intro hn
      rw [List.range_succ,List.foldl_append,List.foldl_cons,List.foldl_nil]
      exact (ih (by omega)).step hX hn
  exact hrun nvma le_rfl

end Forking

end TinyOs
