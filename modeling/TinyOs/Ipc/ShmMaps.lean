import TinyOs.Ipc.ShmSections

namespace TinyOs

open Option Machine ShmTable Buddy
open Function (update update_of_ne update_self)

namespace Space

variable {s s' : Space} {a frame : Nat} {perm : Perm} {b : Bool}

theorem walk_lookup (h : s.walk a true true = (s',b)) :
    (∀ a', s'.pd.lookup a' = s.pd.lookup a') ∧ (b = true → s'.pd (pdx a) ≠ none) := by
  simp only [walk,if_true] at h
  split at h
  · rename_i pde hpde
    cases h
    exact ⟨fun _ => rfl,fun _ => by simp [hpde]⟩
  rename_i hnone
  split at h
  · cases h
    exact ⟨fun _ => rfl,fun hb => by cases hb⟩
  · cases h
    exact ⟨Pgdir.lookup_setPde_new hnone,fun _ => by simp [Pgdir.setPde_apply]⟩

theorem mapPage_lookup (hw : a < word) (h : s.mapPage a frame perm true = (s',true)) :
    s.pd.lookup a = none ∧ ∀ a' < word,
      s'.pd.lookup a' = if a' / pgSize = a / pgSize then some ⟨frame,perm⟩ else s.pd.lookup a' := by
  simp only [mapPage] at h
  split at h
  · cases h
  rename_i t ht
  obtain ⟨hsame,hpde⟩ := walk_lookup ht
  split at h
  · cases h
  rename_i hnone
  cases h
  refine ⟨(hsame a).symm.trans hnone,fun a' ha' => ?_⟩
  rw [Pgdir.lookup_setPte (hpde rfl) hw ha',hsame]

end Space

namespace ShmSections

variable {v : Vma} {seg : ShmSeg} {i r shmid shmaddr shmflg len start : Nat} {s s' : Space}
  {mm : Mm}

theorem shmMapPage_fresh (hal : v.start % pgSize = 0) (hw : v.start + i * pgSize < word)
    (habsent : s.pd.walkaddr (v.start + i * pgSize) = none)
    (h : shmMapPage v seg i s = (s',true)) :
    s.pd.lookup (v.start + i * pgSize) = none ∧ ∃ f, seg.pages i = some f ∧
      ∀ a < word, s'.pd.lookup a = if a / pgSize = v.start / pgSize + i then
        some ⟨f,⟨v.writable,true,false⟩⟩ else s.pd.lookup a := by
  have hdiv : (v.start + i * pgSize) / pgSize = v.start / pgSize + i :=
    Nat.add_mul_div_right _ _ (by decide)
  have hpage : (v.start + i * pgSize) % pgSize = 0 := by
    rw [Nat.add_mul_mod_self_right]
    exact hal
  simp only [shmMapPage,Nat.mod_eq_of_lt hw,habsent,isSome_none,Bool.false_eq_true,if_false] at h
  split at h
  · cases h
  rename_i f hf
  rw [Space.uvmmap_page hpage hw] at h
  split at h
  · rename_i t ht
    cases h
    obtain ⟨hnone,hlook⟩ := Space.mapPage_lookup hw ht
    rw [hdiv] at hlook
    exact ⟨hnone,f,hf,hlook⟩
  · cases h

structure Fresh (v : Vma) (seg : ShmSeg) (s : Space) (n : Nat) (t : Space) : Prop where
  absent : ∀ a < word, v.start / pgSize ≤ a / pgSize → a / pgSize < v.start / pgSize + n →
    s.pd.lookup a = none
  others : ∀ a < word, ¬ (v.start / pgSize ≤ a / pgSize ∧ a / pgSize < v.start / pgSize + n) →
    t.pd.lookup a = s.pd.lookup a
  pages : ∀ j < n, ∃ f, seg.pages j = some f ∧ ∀ a < word, a / pgSize = v.start / pgSize + j →
    t.pd.lookup a = some ⟨f,⟨v.writable,true,false⟩⟩

theorem shmMapRange_fresh (hal : v.start % pgSize = 0) (hfit : v.start + seg.npages * pgSize ≤ word)
    (habsent : ∀ i < seg.npages, s.pd.walkaddr (v.start + i * pgSize) = none)
    (h : shmMapRange v seg s = (s',true)) : Fresh v seg s seg.npages s' := by
  have hlt : ∀ i < seg.npages, v.start + i * pgSize < word := by
    intro i hi
    have hmul := Nat.mul_le_mul_right pgSize hi
    rw [Nat.succ_mul] at hmul
    have hpos : 0 < pgSize := by decide
    omega
  have hdiv : ∀ i, (v.start + i * pgSize) / pgSize = v.start / pgSize + i :=
    fun i => Nat.add_mul_div_right _ _ (by decide)
  have hrange := Loop.forEach_range_rule (shmMapPage v seg) seg.npages (s := s) (I := Fresh v seg s)
    (E := fun _ => True) ?_ (fun _ _ _ _ _ _ => trivial)
    ⟨fun a _ hlo hhi => by omega,fun _ _ _ => rfl,fun j hj => by omega⟩
  · rw [shmMapRange] at h
    rw [h] at hrange
    exact hrange.1 rfl
  intro n hn t t' ht hpage
  have hsame : t.pd.lookup (v.start + n * pgSize) = s.pd.lookup (v.start + n * pgSize) :=
    ht.others _ (hlt n hn) (by rw [hdiv]; omega)
  have hwalk : t.pd.walkaddr (v.start + n * pgSize) = none := by
    have := habsent n hn
    simp only [Pgdir.walkaddr] at this ⊢
    rw [hsame]
    exact this
  obtain ⟨hwas,f,hf,hlook⟩ := shmMapPage_fresh hal (hlt n hn) hwalk hpage
  refine ⟨fun a ha hlo hhi => ?_,fun a ha hout => ?_,fun j hj => ?_⟩
  · by_cases he : a / pgSize = v.start / pgSize + n
    · rw [Pgdir.lookup_eq_of_page (hlt n hn) ha (he.trans (hdiv n).symm),← hsame]
      exact hwas
    · exact ht.absent a ha hlo (by omega)
  · rw [hlook a ha,if_neg (by omega),ht.others a ha (by omega)]
  rcases Nat.lt_succ_iff_lt_or_eq.mp hj with hlt' | rfl
  · obtain ⟨g,hg,hin⟩ := ht.pages j hlt'
    refine ⟨g,hg,fun a ha he => ?_⟩
    rw [hlook a ha,if_neg (by omega)]
    exact hin a ha he
  · refine ⟨f,hf,fun a ha he => ?_⟩
    rw [hlook a ha,if_pos he]

structure Same (seg seg' : ShmSeg) : Prop where
  inuse : seg.inuse = true
  size : seg'.size = seg.size
  npages : seg'.npages = seg.npages

structure Made (tbl : ShmTable) (id size : Nat) (seg : ShmSeg) : Prop where
  free : freeSlot tbl = some id
  size : seg.size = pgRoundUp size
  exact : seg.size = seg.npages * pgSize
  bound : seg.npages ≤ shmMaxPages

def Renewed (tbl tbl' : ShmTable) (o : Option Nat) : Prop := ∀ id, (tbl' id).inuse = true →
  Same (tbl id) (tbl' id) ∨ ∃ size ∈ o, Made tbl id size (tbl' id)

variable {ph ph' : Phys} {tbl tbl' : ShmTable} {id : Nat} {seg' : ShmSeg} {made : Option Nat}

theorem Renewed.refl (tbl : ShmTable) : Renewed tbl tbl made := fun _ h => .inl ⟨h,rfl,rfl⟩

theorem Renewed.set
    (h : seg'.inuse = true → Same (tbl id) seg' ∨ ∃ size ∈ made, Made tbl id size seg') :
    Renewed tbl (tbl.set id seg') made := by
  intro j hj
  by_cases he : j = id
  · subst he
    rw [set_self] at hj ⊢
    exact h hj
  · rw [set_of_ne he] at hj ⊢
    exact .inl ⟨hj,rfl,rfl⟩

theorem shmTryDestroyLocked_same (h : (shmTryDestroyLocked ph seg).2.inuse = true) :
    (shmTryDestroyLocked ph seg).2 = seg := by
  simp only [shmTryDestroyLocked] at h ⊢
  split
  · rfl
  rename_i hdestroy
  rw [if_neg hdestroy] at h
  cases h

theorem detach_renewed (x : Ctx) (id : Nat) : Renewed x.shm (x.detach id).shm none := by
  simp only [Ctx.detach]
  split
  · exact .refl _
  rename_i seg hseg
  obtain ⟨-,rfl,huse⟩ := shmGet_some hseg
  refine .set fun h => .inl ?_
  rw [shmTryDestroyLocked_same h]
  exact ⟨huse,rfl,rfl⟩

theorem doShmctl_renewed (ph : Phys) (tbl : ShmTable) (shmid cmd : Nat) :
    Renewed tbl (doShmctl ph tbl shmid cmd).2.1 none := by
  simp only [doShmctl]
  split
  · exact .refl _
  split
  · exact .refl _
  rename_i seg hseg
  obtain ⟨-,rfl,huse⟩ := shmGet_some hseg
  refine .set fun h => .inl ?_
  rw [shmTryDestroyLocked_same h]
  exact ⟨huse,rfl,rfl⟩

theorem shmAllocPages_keeps {n : Nat} {r : Phys × ShmSeg}
    (h : Loop.forEach shmAllocPage (List.range n) (ph,seg) = (r,true)) :
    r.2.size = seg.size ∧ r.2.npages = seg.npages := by
  have hrange := Loop.forEach_range_rule shmAllocPage n (s := (ph,seg))
    (I := fun _ t => t.2.size = seg.size ∧ t.2.npages = seg.npages) (E := fun _ => True)
    ?_ (fun _ _ _ _ _ _ => trivial) ⟨rfl,rfl⟩
  · rw [h] at hrange
    exact hrange.1 rfl
  rintro j - t t' ht hstep
  simp only [shmAllocPage] at hstep
  split at hstep
  · cases hstep
  · cases hstep
    exact ht

theorem shmCreate_renewed {key size : Nat} (h : shmCreate ph tbl key size = (ph',tbl',r)) :
    Renewed tbl tbl' (some size) := by
  simp only [shmCreate] at h
  split at h
  · cases h
    exact .refl _
  split at h
  · cases h
    exact .refl _
  rename_i hpages
  split at h
  · cases h
    exact .refl _
  rename_i id hfree
  split at h
  · rename_i ph₁ seg hloop
    cases h
    obtain ⟨hsize,hn⟩ := shmAllocPages_keeps hloop
    refine .set fun _ => .inr ⟨size,rfl,hfree,hsize,?_,?_⟩
    · rw [hsize,hn]
      exact (Nat.div_mul_cancel (Nat.dvd_of_mod_eq_zero (pgRoundUp_mod size))).symm
    · rw [hn]
      exact Nat.le_of_not_lt fun hlt => hpages (.inr hlt)
  · cases h
    exact .set fun huse => nomatch (show false = true from huse)

theorem doShmget_renewed (ph : Phys) (tbl : ShmTable) (key size shmflg : Nat) :
    Renewed tbl (doShmget ph tbl key size shmflg).2.1 (some size) := by
  have hcreate : Renewed tbl (shmCreate ph tbl key size).2.1 (some size) := shmCreate_renewed rfl
  have hsame : Renewed tbl tbl (some size) := .refl _
  simp only [doShmget]
  split
  · split
    · split
      · exact hsame
      split <;> exact hsame
    · split
      · exact hsame
      · exact hcreate
  · exact hcreate

variable {P : Type} [DecidableEq P] {σ σ' : State P} {p q : P} {op : Op P} {o : Option Nat}

def Op.actor : Op P → P
  | .shmget p _ _ _ | .shmat p _ _ _ | .shmdt p _ | .shmctl p _ _ | .run p => p

def Op.makes : Op P → Option Nat
  | .shmget _ _ size _ => some size
  | _ => none

inductive Acts (σ σ' : State P) (p : P) : Op P → Prop
  | call (op : Op P) (hpc : σ'.pc p = .user) : Acts σ σ' p op
  | size (shmid shmaddr shmflg : Nat) (hmm : σ'.mm p = σ.mm p) (htbl : σ'.shm = σ.shm)
      (hget : shmGet σ.shm shmid = some (σ.shm shmid))
      (hpc : σ'.pc p = .sized shmid shmaddr shmflg (σ.shm shmid).size) :
      Acts σ σ' p (.shmat p shmid shmaddr shmflg)
  | create (shmid shmaddr shmflg len start i : Nat) (htbl : σ'.shm = σ.shm)
      (hwas : σ.pc p = .sized shmid shmaddr shmflg len)
      (hstart : shmatStart (σ.mm p) shmaddr len = some start)
      (hmm : (σ.mm p).vmaCreate start ((start + len) % word) (shmatProt shmflg) mapShared shmid =
        some (i,σ'.mm p))
      (hpc : σ'.pc p = .created i shmid start len) : Acts σ σ' p (.run p)
  | unmap (shmaddr shmid : Nat) (hpc : σ'.pc p = .detaching shmid) : Acts σ σ' p (.shmdt p shmaddr)

@[simp] theorem goto_pc (σ : State P) (p : P) (pc : Pc) : (σ.goto p pc).pc p = pc := update_self ..

@[simp] theorem goto_pc_of_ne (σ : State P) (pc : Pc) (h : q ≠ p) : (σ.goto p pc).pc q = σ.pc q :=
  update_of_ne h ..

structure Frame (p : P) (made : Option Nat) (σ σ' : State P) : Prop where
  mm : ∀ q, q ≠ p → σ'.mm q = σ.mm q
  pc : ∀ q, q ≠ p → σ'.pc q = σ.pc q
  tbl : Renewed σ.shm σ'.shm made

namespace Frame

omit [DecidableEq P] in
theorem refl (p : P) (σ : State P) : Frame p made σ σ := ⟨fun _ _ => rfl,fun _ _ => rfl,.refl _⟩

theorem goto (h : Frame p made σ σ') (pc : Pc) : Frame p made σ (σ'.goto p pc) :=
  ⟨h.mm,fun q hq => (goto_pc_of_ne σ' pc hq).trans (h.pc q hq),h.tbl⟩

theorem setMm (h : Frame p made σ σ') : Frame p made σ { σ' with mm := update σ'.mm p mm } :=
  ⟨fun q hq => (update_of_ne hq ..).trans (h.mm q hq),h.pc,h.tbl⟩

theorem setCtx {x : Ctx} (h : Renewed σ.shm x.shm made) : Frame p made σ (σ.setCtx p x) :=
  ⟨fun _ hq => update_of_ne hq ..,fun _ _ => rfl,h⟩

theorem giveUp (h : Frame p made σ σ') (i : Nat) : Frame p made σ (σ'.giveUp p i).1 := h.setMm.goto _

end Frame

theorem shmat_acts (shmid shmaddr shmflg : Nat) (hpc : σ.pc p = .user) :
    let σ' := (σ.shmat p shmid shmaddr shmflg).1
    Acts σ σ' p (.shmat p shmid shmaddr shmflg) ∧ Frame p none σ σ' := by
  simp only [State.shmat]
  split
  · exact ⟨.call _ hpc,.refl ..⟩
  rename_i seg hseg
  have hget := (shmGet_some hseg).2.1
  split
  · exact ⟨.call _ hpc,.refl ..⟩
  · subst hget
    exact ⟨.size _ _ _ rfl rfl hseg (goto_pc ..),(Frame.refl ..).goto _⟩

theorem create_acts (hpc : σ.pc p = .sized shmid shmaddr shmflg len) :
    let σ' := (σ.create p shmid shmaddr shmflg len).1
    Acts σ σ' p (.run p) ∧ Frame p none σ σ' := by
  simp only [State.create]
  split
  · exact ⟨.call _ (goto_pc ..),(Frame.refl ..).goto _⟩
  rename_i start hstart
  split
  · exact ⟨.call _ (goto_pc ..),(Frame.refl ..).goto _⟩
  rename_i i mm hcreate
  refine ⟨.create shmid shmaddr shmflg len start i rfl hpc hstart ?_ (goto_pc ..),
    (Frame.refl ..).setMm.goto _⟩
  have hmm : update σ.mm p mm p = mm := update_self ..
  exact hcreate.trans (congrArg (fun m => some (i,m)) hmm.symm)

theorem attach_acts (i shmid start : Nat) :
    let σ' := (σ.attach p i shmid start).1
    Acts σ σ' p (.run p) ∧ Frame p none σ σ' := by
  simp only [State.attach]
  split
  · exact ⟨.call _ (goto_pc ..),(Frame.refl ..).giveUp i⟩
  rename_i seg hseg
  obtain ⟨-,rfl,huse⟩ := shmGet_some hseg
  split
  · exact ⟨.call _ (goto_pc ..),(Frame.refl ..).giveUp i⟩
  split
  · exact ⟨.call _ (goto_pc ..),(Frame.setCtx (.refl _)).giveUp i⟩
  · refine ⟨.call _ (goto_pc ..),(Frame.setCtx ?_).goto _⟩
    exact .set fun _ => .inl ⟨huse,rfl,rfl⟩

theorem shmdt_acts (shmaddr : Nat) (hpc : σ.pc p = .user) :
    let σ' := (σ.shmdt p shmaddr).1
    Acts σ σ' p (.shmdt p shmaddr) ∧ Frame p none σ σ' := by
  simp only [State.shmdt]
  split
  · exact ⟨.call _ hpc,.refl ..⟩
  split
  · exact ⟨.call _ hpc,.refl ..⟩
  split
  · exact ⟨.call _ hpc,.refl ..⟩
  · rename_i shmid _
    exact ⟨.unmap shmaddr shmid (goto_pc ..),(Frame.setCtx (.refl _)).goto _⟩

omit [DecidableEq P] in
theorem idle_some {r : State P × Option Nat} (h : idle σ p r = some (σ',o)) :
    σ.pc p = .user ∧ r.1 = σ' := by
  obtain ⟨hpc,hr⟩ := ite_none_right_eq_some.mp h
  exact ⟨hpc,congrArg Prod.fst (some.inj hr)⟩

theorem step_acts (h : step σ op = some (σ',o)) :
    Acts σ σ' op.actor op ∧ Frame op.actor op.makes σ σ' := by
  cases op with
  | shmget p key size shmflg =>
    obtain ⟨hpc,rfl⟩ := idle_some h
    exact ⟨.call _ hpc,fun _ _ => rfl,fun _ _ => rfl,doShmget_renewed _ _ _ _ _⟩
  | shmat p shmid shmaddr shmflg =>
    obtain ⟨hpc,rfl⟩ := idle_some h
    exact shmat_acts _ _ _ hpc
  | shmdt p shmaddr =>
    obtain ⟨hpc,rfl⟩ := idle_some h
    exact shmdt_acts _ hpc
  | shmctl p shmid cmd =>
    obtain ⟨hpc,rfl⟩ := idle_some h
    exact ⟨.call _ hpc,fun _ _ => rfl,fun _ _ => rfl,doShmctl_renewed _ _ _ _⟩
  | run p =>
    simp only [step,State.run] at h
    split at h
    · cases h
    all_goals obtain rfl := congrArg Prod.fst (some.inj h)
    · exact create_acts ‹_›
    · exact attach_acts ..
    · exact ⟨.call _ (goto_pc ..),(Frame.setCtx (detach_renewed _ _)).goto _⟩

structure Placed (mm : Mm) (i shmid start len : Nat) : Prop where
  vma : ∃ prot, mm.vmas i = ⟨true,start,start + len,prot,vmaFlagsWithShmid mapShared shmid⟩
  aligned : start % pgSize = 0
  top : start + len ≤ userHeapTop
  absent : ∀ va ∈ pageRange start (start + len), mm.pd.walkaddr va = none

structure Reads (tbl : ShmTable) (shmid len : Nat) : Prop where
  slot : shmid < nshm
  bound : len ≤ shmMaxPages * pgSize
  size : (tbl shmid).inuse = true → (tbl shmid).size = len

def Waits (tbl : ShmTable) (mm : Mm) : Pc → Prop
  | .sized shmid _ _ len => Reads tbl shmid len
  | .created i shmid start len => Reads tbl shmid len ∧ Placed mm i shmid start len
  | _ => True

structure Inv (σ : State P) : Prop where
  sized : Sized σ.shm
  waits : ∀ q, Waits σ.shm (σ.mm q) (σ.pc q)

omit [DecidableEq P] in
theorem Start.inv (h : Start σ) : Inv σ where
  sized := h.sized
  waits q := by
    rw [h.idle q]
    trivial

theorem Renewed.sized (h : Renewed tbl tbl' made) (hs : Sized tbl) : Sized tbl' := by
  intro id hid
  rcases h id hid with hsame | ⟨size,-,hmade⟩
  · rw [hsame.size,hsame.npages]
    exact hs id hsame.inuse
  · exact ⟨hmade.exact,hmade.bound⟩

theorem Renewed.reads (h : Renewed tbl tbl' made) (hr : Reads tbl id len)
    (hfit : ∀ size ∈ made, freeSlot tbl = some id → pgRoundUp size = len) : Reads tbl' id len := by
  refine ⟨hr.slot,hr.bound,fun hid => ?_⟩
  rcases h id hid with hsame | ⟨size,hsize,hmade⟩
  · exact hsame.size.trans (hr.size hsame.inuse)
  · exact hmade.size.trans (hfit size hsize hmade.free)

theorem Renewed.waits {pc : Pc} (h : Renewed tbl tbl' made) (hw : Waits tbl mm pc)
    (hfit : ∀ size ∈ made, ∀ w ∈ pc.awaits, freeSlot tbl = some w.1 → pgRoundUp size = w.2) :
    Waits tbl' mm pc := by
  cases pc with
  | user | detaching shmid => trivial
  | sized shmid shmaddr shmflg len => exact h.reads hw fun size hsize => hfit size hsize _ rfl
  | created i shmid start len => exact ⟨h.reads hw.1 fun size hsize => hfit size hsize _ rfl,hw.2⟩

theorem shmatStart_aligned (h : shmatStart mm shmaddr len = some start) : start % pgSize = 0 := by
  simp only [shmatStart] at h
  split at h
  · split at h
    · cases h
    rename_i hal
    split at h
    · cases h
      omega
    · cases h
  · split at h
    · cases h
    · cases h
      exact (Mm.findMmapAddr_spec ‹_›).1

theorem placed_of_create {mm' : Mm} {prot : Nat}
    (hbound : len ≤ shmMaxPages * pgSize) (hstart : shmatStart mm shmaddr len = some start)
    (h : mm.vmaCreate start ((start + len) % word) prot mapShared shmid = some (i,mm')) :
    Placed mm' i shmid start len := by
  obtain ⟨-,-,hvac,rfl⟩ := Mm.vmaCreate_some h
  have hstop : (start + len) % word = start + len := by
    have h1 := hvac.lt
    have h2 := hvac.top
    simp only [userHeapTop,userStackBottom,userStack,userEnd,kernBase,userStackSize,userStackGuard,
      shmMaxPages,pgSize,word] at *
    omega
  rw [hstop] at hvac ⊢
  exact ⟨⟨prot,Mm.setVma_self ..⟩,shmatStart_aligned hstart,hvac.top,hvac.absent⟩

omit [DecidableEq P] in
theorem Undisturbed.fits (hg : Undisturbed σ op) (q : P) : ∀ size ∈ op.makes, ∀ w ∈ (σ.pc q).awaits,
    freeSlot σ.shm = some w.1 → pgRoundUp size = w.2 := by
  cases op with
  | shmget p key size shmflg =>
    rintro _ ⟨⟩
    exact hg q
  | _ => exact nofun

theorem Inv.step (hi : Inv σ) (hg : Undisturbed σ op) (h : step σ op = some (σ',o)) : Inv σ' := by
  obtain ⟨hacts,hframe⟩ := step_acts h
  refine ⟨hframe.tbl.sized hi.sized,fun q => ?_⟩
  by_cases hq : q = op.actor
  · rw [← hq] at hacts
    cases hacts with
    | call op hpc | unmap shmaddr shmid hpc =>
      rw [hpc]
      trivial
    | size shmid shmaddr shmflg hmm htbl hget hpc =>
      obtain ⟨hid,-,huse⟩ := shmGet_some hget
      rw [hpc,htbl]
      refine ⟨hid,?_,fun _ => rfl⟩
      rw [(hi.sized shmid huse).1]
      exact Nat.mul_le_mul_right _ (hi.sized shmid huse).2
    | create shmid shmaddr shmflg len start i htbl hwas hstart hmm hpc =>
      have hread := hi.waits q
      rw [hwas] at hread
      rw [hpc,htbl]
      exact ⟨hread,placed_of_create hread.bound hstart hmm⟩
  · rw [hframe.mm q hq,hframe.pc q hq]
    exact hframe.tbl.waits (hi.waits q) (hg.fits q)

def During (mm : Mm) (shmid : Nat) (mm' : Mm) : Pc → Prop
  | .user => True
  | .sized id _ _ _ => id = shmid ∧ mm' = mm
  | .created i id _ _ => id = shmid ∧ (mm.vmas i).used = false ∧ ∃ v, mm' = mm.setVma i v
  | .detaching _ => False

theorem During.step (hd : During mm shmid (σ.mm p) (σ.pc p))
    (hcalls : ¬ op.Calls p) (h : ShmSections.step σ op = some (σ',o)) :
    During mm shmid (σ'.mm p) (σ'.pc p) := by
  obtain ⟨hacts,hframe⟩ := step_acts h
  by_cases hp : op.actor = p
  · rw [hp] at hacts
    cases hacts with
    | size | unmap => exact absurd rfl hcalls
    | call _ hpc =>
      rw [hpc]
      trivial
    | create id _ _ _ _ i _ hwas _ hmm hpc =>
      rw [hwas] at hd
      obtain ⟨rfl,hsame⟩ := hd
      obtain ⟨-,hfree,-,hnew⟩ := Mm.vmaCreate_some hmm
      rw [hpc]
      exact ⟨rfl,hsame ▸ hfree,_,hsame ▸ hnew⟩
  · rw [hframe.mm p (Ne.symm hp),hframe.pc p (Ne.symm hp)]
    exact hd

theorem during_of_shmat (h : step σ (.shmat p shmid shmaddr shmflg) = some (σ',o)) :
    During (σ.mm p) shmid (σ'.mm p) (σ'.pc p) := by
  have hacts : Acts σ σ' p (.shmat p shmid shmaddr shmflg) := (step_acts h).1
  cases hacts with
  | call _ hpc =>
    rw [hpc]
    trivial
  | size _ _ _ hmm _ _ hpc =>
    rw [hpc]
    exact ⟨rfl,hmm⟩

theorem create_failure (h : (σ.create p shmid shmaddr shmflg len).2 = some r) : r = failure := by
  simp only [State.create] at h
  split at h
  · exact (some.inj h).symm
  split at h
  · exact (some.inj h).symm
  · cases h

theorem During.run_attach (hd : During mm shmid (σ.mm p) (σ.pc p))
    (h : ShmSections.step σ (.run p) = some (σ',some r)) (hr : r ≠ failure) :
    ∃ i start len, σ.pc p = .created i shmid start len ∧
      σ.attach p i shmid start = (σ',some r) := by
  simp only [ShmSections.step,State.run] at h
  split at h
  · cases h
  · exact absurd (create_failure (congrArg Prod.snd (some.inj h))) hr
  · rename_i i id start len hpc
    rw [hpc] at hd
    obtain ⟨rfl,-⟩ := hd
    exact ⟨i,start,len,hpc,some.inj h⟩
  · rename_i hpc
    rw [hpc] at hd
    exact hd.elim

theorem attach_some (h : σ.attach p i shmid start = (σ',some r))
    (hr : r ≠ failure) : r = start ∧ shmGet σ.shm shmid = some (σ.shm shmid) ∧
      ∃ t, shmMapRange ((σ.mm p).vmas i) (σ.shm shmid) ⟨σ.phys,(σ.mm p).pd⟩ = (t,true) ∧
        σ'.mm p = { σ.mm p with pd := t.pd } ∧
        σ'.shm = σ.shm.set shmid { σ.shm shmid with nattch := (σ.shm shmid).nattch + 1 } := by
  have hgive : ∀ τ : State P, τ.giveUp p i ≠ (σ',some r) :=
    fun τ he => hr (some.inj (congrArg Prod.snd he)).symm
  simp only [State.attach] at h
  split at h
  · exact absurd h (hgive _)
  rename_i seg hseg
  obtain ⟨-,rfl,-⟩ := shmGet_some hseg
  split at h
  · exact absurd h (hgive _)
  split at h
  · exact absurd h (hgive _)
  rename_i t ht
  obtain ⟨hσ,hstart⟩ := Prod.mk.inj h
  subst hσ
  exact ⟨(some.inj hstart).symm,hseg,t,ht,update_self ..,rfl⟩

omit [DecidableEq P] in
theorem Inv.maps {t : Space} (hi : Inv σ)
    (hpc : σ.pc p = .created i shmid start len) (huse : (σ.shm shmid).inuse = true)
    (hfree : (mm.vmas i).used = false) (hmm : ∃ v, σ.mm p = mm.setVma i v)
    (ht : shmMapRange ((σ.mm p).vmas i) (σ.shm shmid) ⟨σ.phys,(σ.mm p).pd⟩ = (t,true)) :
    Maps mm { σ.mm p with pd := t.pd } (σ.shm shmid) i := by
  have hwaits := hi.waits p
  rw [hpc] at hwaits
  obtain ⟨hread,hplaced⟩ := hwaits
  obtain ⟨hexact,-⟩ := hi.sized shmid huse
  have hlen := hread.size huse
  obtain ⟨prot,hvma⟩ := hplaced.vma
  obtain ⟨v,hmm⟩ := hmm
  have hpd : (σ.mm p).pd = mm.pd := by rw [hmm]; rfl
  have hstop : start + (σ.shm shmid).npages * pgSize = start + len := by rw [← hexact,hlen]
  have htop := hplaced.top.trans userHeapTop_le
  have hend := userEnd_lt
  rw [hvma] at ht
  have hfresh := shmMapRange_fresh hplaced.aligned
    (show start + (σ.shm shmid).npages * pgSize ≤ word by omega)
    (fun j hj => hplaced.absent _ (mem_pageRange.mpr ⟨j,rfl,by
      rw [← hstop]
      exact Nat.add_lt_add_left (Nat.mul_lt_mul_of_pos_right hj (by decide)) _⟩)) ht
  have hin : ∀ a, (start / pgSize ≤ a / pgSize ∧ a / pgSize < start / pgSize + (σ.shm shmid).npages) ↔
      start ≤ a ∧ a < start + len := by
    intro a
    have hal := hplaced.aligned
    simp only [pgSize] at *
    omega
  refine ⟨hfree,?_,?_,?_,fun a ha hne => ?_,fun a ha hne => ?_,fun j hj => ?_⟩
  · exact (congrArg Vma.used hvma).trans rfl
  · rw [hvma,hlen]
  · rw [hvma]
    exact hfresh.pages
  · rw [hvma]
    exact (hin a).mp (not_not.mp fun hout => hne ((hfresh.others a ha hout).trans
      (congrArg (Pgdir.lookup · a) hpd)))
  · rw [← hpd] at hne ⊢
    exact hfresh.others a ha fun hpage => hne (hfresh.absent a ha hpage.1 hpage.2)
  · rw [hmm]
    exact Mm.setVma_of_ne hj

theorem Maps.count {mm' : Mm} {n : Nat} (h : Maps mm mm' seg i) :
    Maps mm mm' { seg with nattch := n } i :=
  ⟨h.free,h.used,h.length,h.pages,h.inside,h.kept,h.others⟩

theorem shmat_maps_segment {s₀ s₁ s₂ t : State P} {before after : List (Op P)}
    {outs outs' : List (Option Nat)} {shmid shmaddr shmflg r : Nat} (hstart : Start s₀)
    (hgood : Always step Undisturbed s₀ (before ++ .shmat p shmid shmaddr shmflg :: after))
    (hbefore : run step s₀ before = some (s₁,outs))
    (hcall : run step s₁ (.shmat p shmid shmaddr shmflg :: after) = some (s₂,outs'))
    (hsame : ∀ op ∈ after, ¬ op.Calls p) (hret : step s₂ (.run p) = some (t,some r))
    (hr : r ≠ failure) :
    ∃ i, ((t.mm p).vmas i).start = r ∧ vmaShmid ((t.mm p).vmas i) = some shmid ∧
      (t.shm shmid).nattch = (s₂.shm shmid).nattch + 1 ∧
      Maps (s₁.mm p) (t.mm p) (t.shm shmid) i := by
  have hkeep : ∀ (s : State P) op s' o, Inv s → Undisturbed s op → step s op = some (s',o) → Inv s' :=
    fun s op s' o hi hg h => hi.step hg h
  obtain ⟨hgood₁,hgood₂⟩ := hgood.append hbefore
  have hi₁ := run_keeps hkeep hstart.inv hgood₁ hbefore
  have hi₂ := run_keeps hkeep hi₁ hgood₂ hcall
  obtain ⟨s,o,rest,hfirst,hrest,-⟩ := run_cons hcall
  have hduring : During (s₁.mm p) shmid (s₂.mm p) (s₂.pc p) :=
    run_keeps (I := fun s => During (s₁.mm p) shmid (s.mm p) (s.pc p))
      (fun s op s' o hd hc h => hd.step hc h) (during_of_shmat hfirst)
      (always_of_mem hsame s) hrest
  obtain ⟨i,start,len,hpc,hattach⟩ := hduring.run_attach hret hr
  rw [hpc] at hduring
  obtain ⟨-,hfree,hmm⟩ := hduring
  obtain ⟨rfl,hget,u,hmap,hmm',hshm⟩ := attach_some hattach hr
  obtain ⟨hid,-,huse⟩ := shmGet_some hget
  have hwaits := hi₂.waits p
  rw [hpc] at hwaits
  obtain ⟨prot,hvma⟩ := hwaits.2.vma
  rw [hmm',hshm,set_self]
  refine ⟨i,?_,?_,rfl,(hi₂.maps hpc huse hfree hmm hmap).count⟩
  · exact (congrArg Vma.start hvma).trans rfl
  · rw [show ({ s₂.mm p with pd := u.pd } : Mm).vmas i = (s₂.mm p).vmas i from rfl,hvma]
    exact vmaShmid_flags hid rfl rfl

def booted (pmm : Pmm) : State (Fin 2) where
  phys := ⟨pmm,fun _ _ => 0,false⟩
  shm _ := ShmSeg.empty
  mm _ := ⟨0,fun _ => none,userLoad,userEnd,userHeapTop,userLoad,userLoad,fun _ => Vma.empty⟩
  pc _ := .user

theorem booted_start (pmm : Pmm) : Start (booted pmm) where
  idle _ := rfl
  sized _ h := nomatch h

def bootedPmm : Option Pmm := pmmInit 0x102000 (memProbeTop 0x180000)

def swapRun : List (Op (Fin 2)) :=
  [.shmget 0 1 pgSize ipcCreat,.shmget 0 2 pgSize ipcCreat,.shmat 0 1 0x10001000 0,.run 0,.run 0,
    .shmat 0 0 0x10000000 0,.run 0,.shmctl 1 0 ipcRmid,.shmget 1 3 (2 * pgSize) ipcCreat]

theorem shmat_swapped_segment : ∃ s₀ s t outs, Start s₀ ∧
    run step s₀ swapRun = some (s,outs) ∧
    step s (.run 0) = some (t,some 0x10000000) ∧
    ((t.mm 0).vmas 1).stop ≠ ((t.mm 0).vmas 1).start + (t.shm 0).size ∧
    (s.mm 0).pd.lookup 0x10001000 ≠ none ∧
    (t.mm 0).pd.lookup 0x10001000 ≠ (s.mm 0).pd.lookup 0x10001000 := by
  have h : (bootedPmm.bind fun pmm => (run step (booted pmm) swapRun).bind fun q =>
      (step q.1 (.run 0)).map fun r => (pmm,q,r)).any (fun x =>
        decide (x.2.2.2 = some 0x10000000 ∧
          ((x.2.2.1.mm 0).vmas 1).stop ≠ ((x.2.2.1.mm 0).vmas 1).start + (x.2.2.1.shm 0).size ∧
          (x.2.1.1.mm 0).pd.lookup 0x10001000 ≠ none ∧
          (x.2.2.1.mm 0).pd.lookup 0x10001000 ≠ (x.2.1.1.mm 0).pd.lookup 0x10001000)) = true := by
    decide +kernel
  obtain ⟨x,hx,htest⟩ := (any_eq_true _ _).mp h
  obtain ⟨pmm,-,hx⟩ := bind_eq_some_iff.mp hx
  obtain ⟨⟨s,outs⟩,hrun,hx⟩ := bind_eq_some_iff.mp hx
  obtain ⟨⟨t,o⟩,hstep,rfl⟩ := map_eq_some_iff.mp hx
  obtain ⟨rfl,hlength,hmapped,hreplaced⟩ := of_decide_eq_true htest
  exact ⟨booted pmm,s,t,outs,booted_start pmm,hrun,hstep,hlength,hmapped,hreplaced⟩

def renewRun : List (Op (Fin 2)) := [.run 0,.shmctl 1 0 ipcRmid,.shmget 1 3 pgSize ipcCreat]

theorem shmat_maps_segment_renewed : ∃ s₀ s₁ s₂ t outs outs',
    run step s₀ [.shmget 0 1 pgSize ipcCreat] = some (s₁,outs) ∧
    run step s₁ (.shmat 0 0 0x10000000 0 :: renewRun) = some (s₂,outs') ∧
    step s₂ (.run 0) = some (t,some 0x10000000) ∧
    ∃ i, Maps (s₁.mm 0) (t.mm 0) (t.shm 0) i := by
  have h : (bootedPmm.bind fun pmm =>
      (run step (booted pmm) [.shmget 0 1 pgSize ipcCreat]).bind fun q =>
        (run step q.1 (.shmat 0 0 0x10000000 0 :: renewRun)).bind fun q' =>
          (step q'.1 (.run 0)).map fun r => (pmm,q,q',r)).any (fun x =>
        decide (x.2.2.2.2 = some 0x10000000 ∧ Always step Undisturbed (booted x.1)
          ([.shmget 0 1 pgSize ipcCreat] ++ .shmat 0 0 0x10000000 0 :: renewRun))) = true := by
    decide +kernel
  obtain ⟨x,hx,htest⟩ := (any_eq_true _ _).mp h
  obtain ⟨pmm,-,hx⟩ := bind_eq_some_iff.mp hx
  obtain ⟨⟨s₁,outs⟩,hbefore,hx⟩ := bind_eq_some_iff.mp hx
  obtain ⟨⟨s₂,outs'⟩,hcall,hx⟩ := bind_eq_some_iff.mp hx
  obtain ⟨⟨t,o⟩,hstep,rfl⟩ := map_eq_some_iff.mp hx
  obtain ⟨rfl,hgood⟩ := of_decide_eq_true htest
  obtain ⟨i,-,-,-,hmaps⟩ := shmat_maps_segment (booted_start pmm) hgood hbefore hcall
    (by simp [renewRun,Op.Calls]) hstep (by decide)
  exact ⟨booted pmm,s₁,s₂,t,outs,outs',hbefore,hcall,hstep,i,hmaps⟩

end ShmSections

end TinyOs
