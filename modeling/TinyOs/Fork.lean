import TinyOs.Ipc.ForkFix

namespace TinyOs

open Count Option

variable {ph ph' q : Phys} {shm shm' : ShmTable} {p p' mm : Mm} {X Y N U : Nat → Nat} {kpd : Pgdir}
  {c : Copying}

theorem procDropMm_of_unattached (h : ∀ i < nvma, vmaShmid (mm.vmas i) = none) :
    procDropMm ph shm mm = (mmDestroy ph mm,shm) := by
  have hrun : ∀ L : List Nat, (∀ i ∈ L, i < nvma) →
      L.foldl (fun x i => if (vmaShmid (x.mm.vmas i)).isSome then (x.shmMunmapVma i).1 else x)
        (Ctx.mk ph shm mm) = ⟨ph,shm,mm⟩ := by
    intro L
    induction L with
    | nil => exact fun _ => rfl
    | cons i L ih =>
      intro hL
      rw [List.foldl_cons,if_neg (by simp [h i (hL i (by simp))])]
      exact ih fun j hj => hL j (by simp [hj])
  have hall : Ctx.shmDetachAll ⟨ph,shm,mm⟩ = ⟨ph,shm,mm⟩ :=
    hrun _ fun i hi => List.mem_range.mp hi
  simp only [procDropMm,hall]

namespace Mm.Tidy

theorem of_zero (h : mm.Tidy shm 0) (U : Nat → Nat) : mm.Tidy shm U where
  slot := h.slot
  sole a ha pte hl hw := .inr ((h.sole a ha pte hl hw).resolve_left (by simp))
  confined := h.confined

theorem marked {pd : Pgdir} (h : mm.Tidy shm U) (hlook : ∀ a < word, pd.lookup a = mm.pd.lookup a ∨
      pd.lookup a = (mm.pd.lookup a).map Pte.share) : { mm with pd := pd }.Tidy shm U := by
  have hold : ∀ a < userEnd, ∀ pte, pd.lookup a = some pte →
      ∃ pte₀, mm.pd.lookup a = some pte₀ ∧ pte₀.frame = pte.frame ∧
        (pte.perm.w = true → pte₀.perm.w = true) := by
    intro a ha pte hl
    rcases hlook a (ha.trans userEnd_lt) with he | he
    · exact ⟨pte,he ▸ hl,rfl,id⟩
    rw [hl] at he
    obtain ⟨pte₀,h0,rfl⟩ := map_eq_some_iff.mp he.symm
    exact ⟨pte₀,h0,rfl,nofun⟩
  refine ⟨fun a ha pte hl id j hj => ?_,fun a ha pte hl hw => ?_,fun a ha hne => ?_⟩
  · obtain ⟨pte₀,h0,hf,-⟩ := hold a ha pte hl
    exact h.slot a ha pte₀ h0 id j (hf ▸ hj)
  · obtain ⟨pte₀,h0,hf,hw0⟩ := hold a ha pte hl
    rw [← hf]
    exact h.sole a ha pte₀ h0 (hw0 hw)
  · obtain ⟨pte,hl⟩ := ne_none_iff_exists'.mp hne
    obtain ⟨pte₀,h0,-⟩ := hold a ha pte hl
    exact h.confined a ha (h0 ▸ some_ne_none _)

theorem shared (h : mm.Tidy shm U) (hvmas : p.vmas = mm.vmas) (hbrk : p.brk = mm.brk)
    (hlook : ∀ a < userEnd, p.pd.lookup a = (mm.pd.lookup a).map Pte.share) : p.Tidy shm 0 := by
  have hold : ∀ a < userEnd, ∀ pte, p.pd.lookup a = some pte →
      ∃ pte₀, mm.pd.lookup a = some pte₀ ∧ pte₀.share = pte := by
    intro a ha pte hl
    rw [hlook a ha] at hl
    exact map_eq_some_iff.mp hl
  refine ⟨fun a ha pte hl id j hj => ?_,fun a ha pte hl hw => ?_,fun a ha hne => ?_⟩
  · obtain ⟨pte₀,h0,rfl⟩ := hold a ha pte hl
    rw [hvmas]
    exact h.slot a ha pte₀ h0 id j hj
  · obtain ⟨pte₀,-,rfl⟩ := hold a ha pte hl
    exact absurd hw nofun
  · obtain ⟨pte,hl⟩ := ne_none_iff_exists'.mp hne
    obtain ⟨pte₀,h0,-⟩ := hold a ha pte hl
    rw [hvmas,hbrk]
    exact h.confined a ha (h0 ▸ some_ne_none _)

end Mm.Tidy

structure Parent (ph ph' : Phys) (shm shm' : ShmTable) (p p' : Mm) (own X N : Nat → Nat) :
    Prop where
  mm : p' = { p with pd := p'.pd }
  out : Outside shm shm' p.pd.userRefs (p'.pd.userRefs + own) X N
  other : ∀ a < word, ¬ p.Shared a →
    p'.pd.lookup a = p.pd.lookup a ∨ p'.pd.lookup a = (p.pd.lookup a).map Pte.share
  shrink : ∀ g, 0 < (p'.pd.userRefs + (own + (shm'.refs + X))) g →
    0 < (p.pd.userRefs + (shm.refs + X)) g
  mem : ∀ g, 0 < (p'.pd.userRefs + (own + (shm'.refs + X))) g → ph'.mem g = ph.mem g
  failed : ph.pmm.failed ≤ ph'.pmm.failed

structure Childless (ph ph' : Phys) (shm shm' : ShmTable) (p p' : Mm) (X Y N : Nat → Nat) :
    Prop where
  slot : Slot ph' shm' (some p') X Y N
  parent : Parent ph ph' shm shm' p p' 0 X N
  tidy : p.Tidy shm (p.pd.userRefs + (shm.refs + X)) →
    p'.Tidy shm' (p'.pd.userRefs + (shm'.refs + X))

structure Forked (ph ph' : Phys) (shm shm' : ShmTable) (p p' child : Mm) (kstack : Nat)
    (X Y N : Nat → Nat) : Prop where
  phys : ph'.Ok (p'.pd.userRefs + (child.pd.userRefs + (shm'.refs + X)))
    (mmKernel (some p') + (mmKernel (some child) + (unit kstack + Y)))
  table : shm'.Wf
  mmOk : p'.Ok shm'
  childOk : child.Ok shm'
  attach : ∀ id, (shm' id).nattch = (p'.attached + (child.attached + N)) id
  parent : Parent ph ph' shm shm' p p' child.pd.userRefs X N
  copy : child = { p with dir := child.dir, pd := child.pd, vmas := child.vmas }
  vmas : ∀ i, child.vmas i = p.vmas i ∨
    ((child.vmas i).used = false ∧ (vmaShmid (p.vmas i)).isSome = true)
  other : ∀ a < userEnd, ¬ p.Shared a → p'.pd.lookup a = (p.pd.lookup a).map Pte.share ∧
    child.pd.lookup a = (p.pd.lookup a).map Pte.share
  tidy : ∀ U, p.Tidy shm U → p'.Tidy shm' 0 ∧ child.Tidy shm' 0

theorem Slot.copying (h : Slot ph shm (some p) X Y N)
    (hnew : NewMm ph q (mmUser (some p) + (shm.refs + X)) (mmKernel (some p) + Y) mm) :
    Copying.Ok ⟨q,p.pd,mm.pd⟩ (shm.refs + X) (unit p.dir + (unit mm.dir + Y)) := by
  refine ⟨?_,(h.mm p rfl).wf,hnew.created.wf⟩
  have hok := hnew.created.ok
  have e : mmKernel (some p) + Y + unit mm.dir =
      p.pd.dirRefs + (0 + (unit p.dir + (unit mm.dir + Y))) := by
    rw [mmKernel]
    abel
  dsimp only
  rw [hnew.created.userRefs,hnew.created.dirRefs,← e,zero_add]
  exact hok

theorem mapped_of_shared {pd : Pgdir} {tbl : ShmTable} (h : p.Ok tbl) (hv : p'.vmas = p.vmas)
    (hpd : p'.pd = pd) (hlook : ∀ a < userEnd, pd.lookup a = (p.pd.lookup a).map Pte.share) :
    p'.Backed tbl := by
  refine ⟨fun i hi id hid => ?_,fun i hi id hid a hlo hhi => ?_⟩
  · rw [hv] at hid ⊢
    exact h.backed.size i hi id hid
  rw [hv] at hid hlo hhi
  have hlt := hhi.trans_le (h.layout.vma_le_userEnd hi (used_of_shmid hid))
  have hne := h.backed.mapped i hi id hid a hlo hhi
  rw [hpd,hlook a hlt]
  simpa using hne

theorem SharedTo.forking (h : Slot ph shm (some p) X Y N)
    (hnew : NewMm ph q (mmUser (some p) + (shm.refs + X)) (mmKernel (some p) + Y) mm)
    (hc : SharedTo ⟨q,p.pd,mm.pd⟩ c (shm.refs + X) (unit p.dir + (unit mm.dir + Y)) (768 * 1024)) :
    (∀ a < userEnd, c.old.lookup a = (p.pd.lookup a).map Pte.share ∧
      c.new.lookup a = (p.pd.lookup a).map Pte.share) ∧
    Forking.Ok ⟨c.phys,shm,{ p with pd := c.old },{ p with dir := mm.dir, pd := c.new }⟩ X
      (unit p.dir + (unit mm.dir + Y)) := by
  have hlook : ∀ a < userEnd, c.old.lookup a = (p.pd.lookup a).map Pte.share ∧
      c.new.lookup a = (p.pd.lookup a).map Pte.share := by
    intro a ha
    have hlt : a / pgSize < 768 * 1024 := by
      simp only [pgSize,userEnd,kernBase] at *
      omega
    have hold := hc.copied.old a (ha.trans userEnd_lt)
    have hn := hc.new a (ha.trans userEnd_lt)
    dsimp only at hold hn
    rw [if_pos hlt] at hold hn
    rw [hnew.created.lookup a ha,or_none] at hn
    exact ⟨hold,hn⟩
  have hmm := h.mm p rfl
  obtain ⟨hphys,hwf,hwf'⟩ := hc.copied.ok
  refine ⟨hlook,hphys,h.table,
    ⟨hwf,hmm.layout.setPd _,mapped_of_shared hmm rfl rfl fun a ha => (hlook a ha).1⟩,
    ⟨hwf',?_,mapped_of_shared hmm rfl rfl fun a ha => (hlook a ha).2⟩⟩
  obtain ⟨h1,h2,h3,h4,h5,h6,h7,h8,h9⟩ := hmm.layout
  exact ⟨h1,h2,h3,h4,h5,h6,h7,h8,h9⟩

structure Doubled (ph : Phys) (shm : ShmTable) (p : Mm) (f : Forking) (dir : Nat)
    (X Y N : Nat → Nat) : Prop where
  ok : f.Ok X (unit p.dir + (unit dir + Y))
  dir : f.child.dir = dir
  attach : ∀ id, (f.shm id).nattch = (f.parent.attached + (f.child.attached + N)) id
  parent : Parent ph f.phys shm f.shm p f.parent f.child.pd.userRefs X N
  copy : f.child = { p with dir := f.child.dir, pd := f.child.pd, vmas := f.child.vmas }
  vmas : ∀ i, f.child.vmas i = p.vmas i ∨
    ((f.child.vmas i).used = false ∧ (vmaShmid (p.vmas i)).isSome = true)
  other : ∀ a < userEnd, ¬ p.Shared a → f.parent.pd.lookup a = (p.pd.lookup a).map Pte.share ∧
    f.child.pd.lookup a = (p.pd.lookup a).map Pte.share
  tidy : ∀ U, p.Tidy shm U → f.parent.Tidy f.shm 0 ∧ f.child.Tidy f.shm 0

theorem SharedTo.doubled (h : Slot ph shm (some p) X Y N) (hX : ∀ g, X g ≤ 2 ^ 29)
    (hnew : NewMm ph q (mmUser (some p) + (shm.refs + X)) (mmKernel (some p) + Y) mm)
    (hc : SharedTo ⟨q,p.pd,mm.pd⟩ c (shm.refs + X) (unit p.dir + (unit mm.dir + Y)) (768 * 1024)) :
    Doubled ph shm p (Forking.shmForkFix
      ⟨c.phys,shm,{ p with pd := c.old },{ p with dir := mm.dir, pd := c.new }⟩) mm.dir X Y N := by
  obtain ⟨hlook,hok⟩ := SharedTo.forking h hnew hc
  have hfix := Forking.shmForkFix_spec (N := N) hok hX (fun _ => rfl) h.attach
  generalize hf : Forking.shmForkFix
    ⟨c.phys,shm,{ p with pd := c.old },{ p with dir := mm.dir, pd := c.new }⟩ = f at hfix
  have hcopied : ∀ g, 0 < c.new.userRefs g → 0 < p.pd.userRefs g := by
    intro g hg
    obtain ⟨a,ha,pte,hl,rfl⟩ := Pgdir.exists_of_userRefs_pos hg
    rw [(hlook a ha).2] at hl
    obtain ⟨pte₀,h0,rfl⟩ := map_eq_some_iff.mp hl
    have hpos := Pgdir.userRefs_pos (h.mm p rfl).wf ha h0
    exact hpos
  have hrefs : c.old.userRefs = p.pd.userRefs := hc.copied.refs
  have hshm : f.shm.refs = shm.refs := hfix.shmRefs
  have hshrink : ∀ g, 0 < (f.parent.pd.userRefs + (f.child.pd.userRefs + (f.shm.refs + X))) g →
      0 < (p.pd.userRefs + (shm.refs + X)) g := by
    intro g hg
    have h1 := hfix.shrink g hg
    have h2 := hcopied g
    simp only [Forking.uses,hrefs,Pi.add_apply] at h1 ⊢
    omega
  have hdir : f.child.dir = mm.dir := by rw [hfix.child]
  refine ⟨hfix.ok,hdir,fun id => ?_,⟨?_,⟨fun id _ => hfix.segs id,fun id j g hj => ?_,
    fun g hg h0 => ?_⟩,fun a ha hout => ?_,hshrink,fun g hg => ?_,?_⟩,?_,fun i => ?_,
    fun a ha hout => ?_,fun U hU => ?_⟩
  · have hatt : f.parent.attached = p.attached := by
      rw [hfix.parent]
      rfl
    rw [hfix.attach id,hatt]
    rfl
  · exact hfix.parent
  · exact .inl ((hfix.segs id).2 ▸ hj)
  · have h1 := hfix.refs g
    have h2 := hcopied g
    have h3 := congrFun hshm g
    have h4 := congrFun hrefs g
    simp only [Pi.add_apply] at h0 h1 ⊢
    omega
  · rw [(hfix.other a ha hout).1]
    have := hc.copied.old a ha
    dsimp only at this ⊢
    rw [this]
    split
    · exact .inr rfl
    · exact .inl rfl
  · have hpos := hshrink g hg
    rw [hfix.mem g hg,hc.copied.keeps.mem g hpos,hnew.created.keeps.mem g hpos]
  · exact hnew.created.keeps.failed.trans (hc.copied.keeps.failed.trans hfix.failed)
  · rw [hdir]
    exact hfix.child
  · exact (hfix.vmas i).imp_right fun hv => hv.2
  · obtain ⟨hp,hch⟩ := hfix.other a (ha.trans userEnd_lt) hout
    exact ⟨hp.trans (hlook a ha).1,hch.trans (hlook a ha).2⟩
  · exact hfix.tidy (hU.shared rfl rfl fun a ha => (hlook a ha).1)
      (hU.shared rfl rfl fun a ha => (hlook a ha).2)

theorem Marked.childless (h : Slot ph shm (some p) X Y N)
    (hnew : NewMm ph q (mmUser (some p) + (shm.refs + X)) (mmKernel (some p) + Y) mm)
    (hc : Marked ⟨q,p.pd,mm.pd⟩ c (shm.refs + X) (unit p.dir + (unit mm.dir + Y))) :
    Childless ph (procDropMm c.phys shm { mm with pd := c.new }).1 shm
      (procDropMm c.phys shm { mm with pd := c.new }).2 p { p with pd := c.old } X Y N ∧
    (procDropMm c.phys shm { mm with pd := c.new }).1.pmm.failed = c.phys.pmm.failed := by
  have hnone : ∀ i < nvma, vmaShmid ({ mm with pd := c.new }.vmas i) = none := fun i _ => by
    dsimp only
    rw [hnew.vmas]
    rfl
  rw [procDropMm_of_unattached hnone]
  have hmm := h.mm p rfl
  have hrefs : c.old.userRefs = p.pd.userRefs := hc.refs
  obtain ⟨hphys,hwf,hwf'⟩ := hc.ok
  have hok : c.phys.Ok (c.new.userRefs + (c.old.userRefs + (shm.refs + X)))
      (c.new.dirRefs + (unit mm.dir + (mmKernel (some { p with pd := c.old }) + Y))) := by
    have e : c.old.dirRefs + (c.new.dirRefs + (unit p.dir + (unit mm.dir + Y))) =
        c.new.dirRefs + (unit mm.dir + (mmKernel (some { p with pd := c.old }) + Y)) := by
      simp only [mmKernel]
      abel
    rwa [add_left_comm,e] at hphys
  have hsame := uvmfree_same c.phys mm.dir c.new
  have hcopy : Keeps (p.pd.userRefs + (shm.refs + X)) q c.phys := hc.keeps
  have hcreate : Keeps (p.pd.userRefs + (shm.refs + X)) ph q := hnew.created.keeps
  have hkeeps := (hcreate.trans hcopy).trans (.of_same hsame)
  have hfreed := uvmfree_ok hok
  rw [mmDestroy]
  dsimp only
  generalize uvmfree c.phys mm.dir c.new = r at hkeeps hfreed hsame
  refine ⟨⟨⟨hfreed,h.table,?_,h.attach⟩,⟨rfl,?_,fun a ha _ => hc.old a ha,fun g hg => ?_,
    fun g hg => ?_,hkeeps.failed⟩,fun ht => ?_⟩,hsame.failed⟩
  · rintro _ ⟨⟩
    refine ⟨hwf,hmm.layout.setPd _,hmm.backed.size,fun i hi id hid a hlo hhi => ?_⟩
    have hlt := hhi.trans_le (hmm.layout.vma_le_userEnd hi (used_of_shmid hid))
    have hne := hmm.backed.mapped i hi id hid a hlo hhi
    rcases hc.old a (hlt.trans userEnd_lt) with he | he
    · exact fun hno => hne (he.symm.trans hno)
    dsimp only at he ⊢
    rw [he]
    simpa using hne
  · dsimp only
    rw [hrefs,add_zero]
    exact Outside.refl _ _ _ _
  · dsimp only at hg
    rwa [hrefs,zero_add] at hg
  · dsimp only at hg
    rw [hrefs,zero_add] at hg
    exact hkeeps.mem g hg
  · dsimp only
    rw [hrefs]
    exact ht.marked hc.old

namespace Doubled

variable {f : Forking} {dir : Nat}

theorem kernel (h : Doubled ph shm p f dir X Y N) :
    f.parent.pd.dirRefs + (f.child.pd.dirRefs + (unit p.dir + (unit dir + Y))) =
      mmKernel (some f.parent) + (mmKernel (some f.child) + Y) := by
  have hd : f.parent.dir = p.dir := by rw [h.parent.mm]
  rw [← h.dir,← hd]
  simp only [mmKernel]
  abel

theorem phys (h : Doubled ph shm p f dir X Y N) :
    f.phys.Ok (f.uses X) (mmKernel (some f.parent) + (mmKernel (some f.child) + Y)) := by
  rw [← h.kernel]
  exact h.ok.phys

theorem childless (h : Doubled ph shm p f dir X Y N)
    (hq : q.Ok (f.uses X) (mmKernel (some f.parent) + (mmKernel (some f.child) + Y)))
    (hkeeps : Keeps (f.uses X) f.phys q) :
    Childless ph (procDropMm q f.shm f.child).1 shm (procDropMm q f.shm f.child).2 p f.parent
      X Y N ∧ (procDropMm q f.shm f.child).1.pmm.failed = q.pmm.failed := by
  have hctx : Ctx.Ok ⟨q,f.shm,f.child⟩ (f.parent.pd.userRefs + X)
      (unit f.child.dir + (mmKernel (some f.parent) + Y)) (f.parent.attached + N) := by
    refine ⟨⟨?_,h.ok.child.wf⟩,h.ok.table,h.ok.child.layout,h.ok.child.backed,fun id => ?_⟩
    · have e : f.uses X = f.child.pd.userRefs + (f.shm.refs + (f.parent.pd.userRefs + X)) := by
        rw [Forking.uses]
        abel
      have e' : mmKernel (some f.parent) + (mmKernel (some f.child) + Y) =
          f.child.pd.dirRefs + (unit f.child.dir + (mmKernel (some f.parent) + Y)) := by
        simp only [mmKernel]
        abel
      rwa [e,e'] at hq
    · rw [h.attach id,add_left_comm]
  have ht := procDropMm_spec hctx
  generalize procDropMm q f.shm f.child = r at ht ⊢
  have hout : Outside f.shm r.2 (f.parent.pd.userRefs + f.child.pd.userRefs) f.parent.pd.userRefs X
      N := by
    refine ⟨fun id hid => ht.out.stable id (Nat.add_pos_right _ hid),fun id j g hj => ?_,
      fun g hg h0 => ?_⟩
    · exact (ht.out.slots id j g hj).imp_right fun h0 => (Nat.add_eq_zero_iff.mp h0).2
    · simp only [Pi.add_apply] at h0 ⊢
      have h1 := ht.out.closed g (by rw [Pi.add_apply]; omega) (by rw [Pi.add_apply]; omega)
      rw [zero_add] at h1
      omega
  have hle : ∀ g, 0 < (f.parent.pd.userRefs + (0 + (r.2.refs + X))) g → 0 < f.uses X g := by
    intro g hg
    have h1 := ht.segs g
    simp only [Forking.uses,Pi.add_apply,Pi.zero_apply] at hg ⊢
    omega
  refine ⟨⟨⟨?_,ht.wf,?_,ht.attach⟩,⟨h.parent.mm,?_,h.parent.other,fun g hg => ?_,fun g hg => ?_,
    ?_⟩,fun hU => ?_⟩,ht.same.failed⟩
  · rw [mmUser,add_left_comm]
    exact ht.ok
  · rintro _ ⟨⟩
    refine ⟨h.ok.parent.wf,h.ok.parent.layout,h.ok.parent.backed.congr fun id hid => ?_⟩
    exact (ht.out.stable id (Nat.add_pos_left hid _)).1
  · rw [add_zero]
    exact h.parent.out.trans hout
  · exact h.parent.shrink g (hle g hg)
  · rw [ht.same.mem,hkeeps.mem g (hle g hg)]
    exact h.parent.mem g (hle g hg)
  · exact h.parent.failed.trans (hkeeps.failed.trans ht.same.failed.ge)
  · have hp : f.parent.Tidy r.2 (0 + (r.2.refs + (f.parent.pd.userRefs + X))) :=
      ((h.tidy _ hU).1.of_zero _).frame h.ok.parent.wf
        (fun g => Nat.le_add_right _ (X g)) (fun id => Nat.le_add_right _ (N id)) ht.out
    rwa [zero_add,add_left_comm] at hp

end Doubled

theorem forkCopy_spec {kmem : Bool} {o : Option (Mm × Nat)} (h : Slot ph shm (some p) X Y N)
    (hX : ∀ g, X g ≤ 2 ^ 29) (hk : kpd.Supervisor)
    (hf : forkCopy ph shm p kpd kmem = (ph',shm',p',o)) :
    (o = none ∧ Childless ph ph' shm shm' p p' X Y N ∧
        (ph'.pmm.failed = 0 → kmem = false ∧ p' = p ∧ shm' = shm)) ∨
      ∃ child kstack, o = some (child,kstack) ∧
        Forked ph ph' shm shm' p p' child kstack X Y N := by
  simp only [forkCopy] at hf
  rcases hc : mmCreate ph kpd kmem with ⟨q,_ | mm⟩
  · simp only [hc,Prod.mk.injEq] at hf
    obtain ⟨rfl,rfl,rfl,rfl⟩ := hf
    obtain ⟨hok,hkeeps,hfail⟩ := mmCreate_none h.phys hc
    refine .inl ⟨rfl,⟨⟨hok,h.table,h.mm,h.attach⟩,⟨rfl,?_,fun _ _ _ => .inl rfl,fun g hg => ?_,
      fun g hg => hkeeps.mem g ?_,hkeeps.failed⟩,id⟩,fun hno => ⟨hfail hno,rfl,rfl⟩⟩
    · rw [add_zero]
      exact Outside.refl _ _ _ _
    · rwa [zero_add] at hg
    · rwa [zero_add] at hg
  have hnew := mmCreate_some h.phys hk hc
  have hcopy := h.copying hnew
  have hbound : ∀ g, (shm.refs + X) g ≤ 2 ^ 31 := by
    intro g
    have := ShmTable.refs_le shm g
    have := hX g
    rw [Pi.add_apply]
    omega
  have hspec := uvmcopy_spec hcopy hbound hnew.created.lookup
  have hmark := uvmcopy_marked userEnd hcopy hbound
  rw [← (h.mm p rfl).layout.task] at hspec hmark
  rcases hu : uvmcopy ⟨q,p.pd,mm.pd⟩ p.taskSize with ⟨c,_ | _⟩
  · rw [hu] at hspec hmark
    dsimp only at hspec hmark
    simp only [hc,hu,Prod.mk.injEq] at hf
    obtain ⟨rfl,rfl,rfl,rfl⟩ := hf
    obtain ⟨hch,hfail⟩ := Marked.childless h hnew hmark
    refine .inl ⟨rfl,hch,fun hno => ?_⟩
    rw [hfail] at hno
    exact absurd hno (hspec.2 rfl)
  rw [hu] at hspec
  dsimp only at hspec
  simp only [hc,hu] at hf
  have hd := SharedTo.doubled h hX hnew (hspec.1 rfl)
  generalize Forking.shmForkFix
    ⟨c.phys,shm,{ p with pd := c.old },{ p with dir := mm.dir, pd := c.new }⟩ = f at hf hd
  rcases ha : f.phys.allocPage with ⟨r,_ | kstack⟩
  · obtain ⟨hok,hkeeps,-,hfail⟩ := Phys.allocPage_none hd.phys ha
    simp only [ha,Prod.mk.injEq] at hf
    obtain ⟨rfl,rfl,rfl,rfl⟩ := hf
    obtain ⟨hch,hsame⟩ := hd.childless hok hkeeps
    refine .inl ⟨rfl,hch,fun hno => ?_⟩
    rw [hsame] at hno
    exact absurd hno (Nat.ne_zero_of_lt hfail)
  obtain ⟨hok,hfresh⟩ := Phys.allocPage_some hd.phys ha
  simp only [ha,Prod.mk.injEq] at hf
  obtain ⟨rfl,rfl,rfl,rfl⟩ := hf
  have hkeeps := Keeps.of_fresh hfresh
  refine .inr ⟨f.child,kstack,rfl,?_,hd.ok.table,hd.ok.parent,hd.ok.child,hd.attach,
    ⟨hd.parent.mm,hd.parent.out,hd.parent.other,hd.parent.shrink,fun g hg => ?_,
      hd.parent.failed.trans hkeeps.failed⟩,hd.copy,hd.vmas,hd.other,hd.tidy⟩
  · have e : mmKernel (some f.parent) + (mmKernel (some f.child) + (unit kstack + Y)) =
        mmKernel (some f.parent) + (mmKernel (some f.child) + Y) + unit kstack := by abel
    rw [e]
    exact hok
  · exact (hkeeps.mem g hg).trans (hd.parent.mem g hg)

end TinyOs
