import TinyOs.Reachable
import TinyOs.Mm.CopyExact

namespace TinyOs

open List

namespace Ctx

variable {x y : Ctx} {X Y N : Nat → Nat} {va n : Nat}

def userPages (x : Ctx) (va n : Nat) : Set Nat :=
  {g | ∃ i < n, ∃ pte, x.mm.pd.lookup ((va + i) % word) = some pte ∧ pte.perm.u = true ∧
    pte.frame = g}

def Unaliased (x : Ctx) (va n : Nat) : Prop :=
  ∀ i < n, ∀ b < userEnd, b / pgSize ≠ (va + i) % word / pgSize → ∀ p q,
    x.mm.pd.lookup ((va + i) % word) = some p → x.mm.pd.lookup b = some q → q.frame ≠ p.frame

def SameOn (x y : Ctx) (pages : Set Nat) : Prop :=
  ∃ mem, y = x.setMem mem ∧ ∀ g ∈ pages, ∀ i < pgSize, mem g i = x.phys.mem g i

def WritesOnly (x x' : Ctx) (va n : Nat) : Prop :=
  ∀ g, x'.phys.mem g ≠ x.phys.mem g → g ∈ x'.userPages va n ∨ x.phys.pmm.Free g

theorem Within.offset {a : Nat} (h : Within va n a) : ∃ i < n, (va + i) % word = a := by
  obtain ⟨hlo,hhi,hlt⟩ := h
  refine ⟨a - va,by omega,?_⟩
  rw [show va + (a - va) = a by omega]
  exact Nat.mod_eq_of_lt (hlt.trans userEnd_lt)

theorem Unaliased.alone (h : x.Unaliased va n) : x.Alone va n := by
  intro a ha p hp b hb hne q hq
  obtain ⟨i,hi,rfl⟩ := ha.offset
  exact h i hi b hb hne p q hp hq

theorem Bounded.writesOnly {x' : Ctx} (h : Bounded x x' va n) (hok : x'.Ok X Y N) :
    WritesOnly x x' va n := by
  intro g hne
  by_cases hfree : x.phys.pmm.Free g
  · exact .inr hfree
  obtain ⟨a,ha,pte,hl,hf,-⟩ := h.mem g hfree hne
  have hu := hok.wf.lookup_user ha.2.2 hl
  obtain ⟨i,hi,rfl⟩ := ha.offset
  exact .inl ⟨i,hi,pte,hl,hu,hf⟩

def OnPages (va n a : Nat) : Prop := a < userEnd ∧ ∃ i < n, a / pgSize = (va + i) % word / pgSize

theorem SameOn.agree (hok : x.Ok X Y N) {mem : Nat → Nat → UInt8}
    (h : ∀ g ∈ x.userPages va n, ∀ i < pgSize, mem g i = x.phys.mem g i) :
    x.Agree mem (OnPages va n) := by
  rintro a ⟨hau,i,hi,hpage⟩
  have hl : x.mm.pd.lookup a = x.mm.pd.lookup ((va + i) % word) :=
    Pgdir.lookup_eq_of_page (Nat.mod_lt _ (by decide)) (hau.trans userEnd_lt) hpage
  simp only [reads,setMem,Phys.setMem,if_pos hau]
  rcases hla : x.mm.pd.lookup a with _ | pte
  · rfl
  have hu := hok.wf.lookup_user hau hla
  rw [hla] at hl
  simp only [h pte.frame ⟨i,hi,pte,hl.symm,hu,rfl⟩ (a % pgSize) (Nat.mod_lt _ (by decide))]

theorem Agree.sameOn {mem : Nat → Nat → UInt8} (hok : x.Ok X Y N) (h : x.Agree mem (OnPages va n)) :
    SameOn x (x.setMem mem) (x.userPages va n) := by
  refine ⟨mem,rfl,?_⟩
  rintro g ⟨i,hi,pte,hl,hu,rfl⟩ j hj
  have hc : (va + i) % word < word := Nat.mod_lt _ (by decide)
  generalize hcdef : (va + i) % word = c at hl hc
  have hcu : c < userEnd := by
    by_contra hge
    rw [(hok.wf.lookup_kernel (not_lt.mp hge) hc hl).1] at hu
    cases hu
  obtain ⟨b,hb⟩ : ∃ b, b = c / pgSize * pgSize + j := ⟨_,rfl⟩
  have hpage : b / pgSize = c / pgSize := by
    simp only [pgSize] at *
    omega
  have hmod : b % pgSize = j := by
    simp only [pgSize] at *
    omega
  have hbu : b < userEnd := by
    simp only [pgSize,userEnd,kernBase] at *
    omega
  have hlb : x.mm.pd.lookup b = some pte := by
    rw [← hl]
    exact Pgdir.lookup_eq_of_page hc (hbu.trans userEnd_lt) hpage
  have hsame := h b ⟨hbu,i,hi,by rw [hpage,hcdef]⟩
  simpa [reads,setMem,Phys.setMem,hbu,hlb,hmod] using hsame

theorem user_copy_exact_confined (x : Ctx) (X Y N : Nat → Nat) (h : x.Ok X Y N) (cur : Bool)
    (va : Nat) (hva : va < word) :
    (∀ src : List UInt8, ((x.copyout cur va src).2 = true → x.Unaliased va src.length →
        (∀ i, (hi : i < src.length) →
          (x.copyout cur va src).1.reads ((va + i) % word) = some src[i]) ∧
        ∀ a, (∀ i < src.length, a ≠ (va + i) % word) →
          (x.copyout cur va src).1.reads a = x.reads a) ∧
      WritesOnly x (x.copyout cur va src).1 va src.length ∧
      ∀ y, SameOn x y (x.userPages va src.length) →
        (y.copyout cur va src).2 = (x.copyout cur va src).2 ∧
        SameOn (x.copyout cur va src).1 (y.copyout cur va src).1
          ((x.copyout cur va src).1.userPages va src.length)) ∧
    ∀ n, ((x.copyin cur va n).2.2 = true → (x.copyin cur va n).2.1.length = n ∧
        ∀ i < n, (x.copyin cur va n).2.1[i]? = x.reads ((va + i) % word)) ∧
      WritesOnly x (x.copyin cur va n).1 va n ∧
      ∀ y, SameOn x y (x.userPages va n) → (y.copyin cur va n).2 = (x.copyin cur va n).2 := by
  refine ⟨fun src => ⟨fun hs hun => ?_,?_,?_⟩,fun n => ⟨fun hs => ?_,?_,?_⟩⟩
  · have hreads := copyout_reads h hva hun.alone hs
    have hfit := copyout_within h hva hs
    have hmod : ∀ i < src.length, (va + i) % word = va + i := by
      intro i hi
      rcases hfit with rfl | hle
      · simp at hi
      · exact Nat.mod_eq_of_lt ((show va + i < userEnd by omega).trans userEnd_lt)
    refine ⟨fun i hi => ?_,fun a ha => ?_⟩
    · rw [hmod i hi,hreads,if_pos (by omega),Nat.add_sub_cancel_left,getD_eq_getElem _ _ hi]
    rw [hreads,if_neg]
    rintro ⟨hlo,hhi⟩
    have hi : a - va < src.length := by omega
    refine ha (a - va) hi ?_
    rw [hmod _ hi]
    omega
  · exact (copyout_bounded cur src h hva).writesOnly (copyout_paged cur src h hva).ok
  · rintro y ⟨mem,rfl,hmem⟩
    obtain ⟨mem',hrun,hagree⟩ := copyout_agree cur src h hva (SameOn.agree h hmem)
    rw [hrun]
    exact ⟨rfl,hagree.sameOn (copyout_paged cur src h hva).ok⟩
  · have hreads := copyin_reads h hva hs
    have hlen : (x.copyin cur va n).2.1.length = n := by
      simpa using congrArg length hreads
    refine ⟨hlen,fun i hi => ?_⟩
    have hmod : (va + i) % word = va + i := by
      rcases copyin_within h hva hs with rfl | hle
      · omega
      · exact Nat.mod_eq_of_lt ((show va + i < userEnd by omega).trans userEnd_lt)
    have hat := congrArg (·[i]?) hreads
    simp only [getElem?_map,getElem?_range hi,Option.map_some] at hat
    rw [hmod]
    rcases hb : (x.copyin cur va n).2.1[i]? with _ | b
    · simp [hb] at hat
    · rw [hb,Option.map_some,Option.some.injEq] at hat
      exact hat
  · intro g hne
    by_cases hfree : x.phys.pmm.Free g
    · exact .inr hfree
    · exact absurd ((copyin_spares h hva).mem g hfree) hne
  · rintro y ⟨mem,rfl,hmem⟩
    have hagree : x.Agree mem (Within va n) := by
      intro a ha
      obtain ⟨i,hi,he⟩ := ha.offset
      exact SameOn.agree h hmem a ⟨ha.2.2,i,hi,by rw [he]⟩
    obtain ⟨mem',hrun⟩ := copyin_agree cur h hva hagree
    rw [hrun]

end Ctx

instance (mm : Mm) (a : Nat) : Decidable (mm.Shared a) :=
  inferInstanceAs (Decidable (∃ i < nvma, (vmaShmid (mm.vmas i)).isSome = true ∧
    (mm.vmas i).start ≤ a ∧ a < (mm.vmas i).stop))

theorem Mm.Tidy.slot_shared {mm : Mm} {tbl : ShmTable} {U : Nat → Nat} {a id j : Nat} {pte : Pte}
    (h : mm.Tidy tbl U) (hok : mm.Ok tbl) (htbl : tbl.Wf) (ha : a < userEnd)
    (hl : mm.pd.lookup a = some pte) (hj : (tbl id).pages j = some pte.frame) : mm.Shared a := by
  obtain ⟨i,hi,hid,hpage⟩ := h.slot a ha pte hl id j hj
  have hu := used_of_shmid hid
  have hsize := hok.backed.size i hi id hid
  have hseg := (htbl.seg id).size
  have hlt := ((htbl.seg id).slot_lt hj).1
  obtain ⟨hal,-⟩ := hok.layout.aligned i hi hu
  refine ⟨i,hi,by rw [hid]; rfl,?_⟩
  simp only [pgSize] at *
  omega

namespace Kernel

theorem Tidy.unshared {k : Kernel} {p q : Nat} {x : Ctx} {mm' : Mm} {a c : Nat} {pte pte' : Pte}
    (h : k.Tidy) (hinv : k.Inv)
    (hx : x.Tidy (k.rest procUser p)) (hwf : x.mm.pd.Wf) (hshm : x.shm = k.shm) (hq : q < nproc)
    (hqp : q ≠ p) (hm : (k.procs q).mm = some mm') (ha : a < userEnd) (hns : ¬ mm'.Shared a)
    (hl : mm'.pd.lookup a = some pte') (hcu : c < userEnd) (hlc : x.mm.pd.lookup c = some pte)
    (hw : pte.perm.w = true) : pte'.frame ≠ pte.frame := by
  intro he
  rcases hx.sole c hcu pte hlc hw with hone | ⟨id,j,hj⟩
  · have h1 := Pgdir.userRefs_pos hwf hcu hlc
    have h2 := Pgdir.userRefs_pos (hinv.mms q hq mm' hm).wf ha hl
    have h3 := userRefs_le_rest hq hqp hm pte'.frame
    rw [he] at h2 h3
    simp only [Pi.add_apply] at hone
    omega
  · rw [hshm,← he] at hj
    exact hns ((h q hq mm' hm).slot_shared (hinv.mms q hq mm' hm) hinv.table ha hl hj)

theorem copyout_respects_readonly (kernelEnd top : Nat) (mem : Nat → Nat → UInt8) (kpd : Pgdir)
    (k₀ k : Kernel) (ops : List Op) (hk : kpd.Supervisor)
    (hboot : boot kernelEnd top mem kpd = some k₀) (hrun : Transition.Run Next k₀ ops k)
    (hf : k.phys.pmm.failed = 0) (p : Nat) (mm : Mm) (hc : k.current p = some mm) (cur : Bool)
    (dstva : Nat) (src : List UInt8) (hw : dstva < word)
    (hguard : ∀ i < src.length, (dstva + i) % word < userEnd → ∀ pte,
      mm.pd.lookup ((dstva + i) % word) = some pte → pte.perm.w = true ∨ pte.perm.cow = true) :
    (∀ i < src.length, ((k.ctx mm).copyout cur dstva src).1.reads ((dstva + i) % word) ≠
        (k.ctx mm).reads ((dstva + i) % word) → mm.allows ((dstva + i) % word) true = true) ∧
    ∀ q < nproc, q ≠ p → ∀ mm', (k.procs q).mm = some mm' → ∀ a, ¬ mm'.Shared a →
      ((k.setCtx p ((k.ctx mm).copyout cur dstva src).1).ctx mm').reads a = (k.ctx mm').reads a := by
  have hinv := inv_run (boot_inv hk hboot) hrun
  have htidy := tidy_run hrun (boot_inv hk hboot) (boot_tidy hboot) hf
  have hok := hinv.ctxOk hc
  have hbound := Ctx.copyout_bounded cur src hok hw
  have hpaged := Ctx.copyout_paged cur src hok hw
  refine ⟨fun i hi hne => ?_,fun q hq hqp mm' hm a hns => ?_⟩
  · by_cases hau : (dstva + i) % word < userEnd
    swap
    · exact absurd (by simp only [Ctx.reads,if_neg hau]) hne
    rcases hl : mm.pd.lookup ((dstva + i) % word) with _ | pte
    · refine hbound.created _ hau hl fun hnone => hne ?_
      exact Ctx.reads_congr (hnone.trans hl.symm) (hpaged.demand _) fun pte hpte => by
        rw [show (k.ctx mm).mm.pd.lookup ((dstva + i) % word) = none from hl] at hpte
        cases hpte
    · rcases hguard i hi hau pte hl with hpw | hcow
      · simp [Mm.allows,hau,hl,hpw]
      · simp [Mm.allows,hau,hl,hcow]
  by_cases hau : a < userEnd
  swap
  · simp only [Ctx.reads,if_neg hau]
  refine Ctx.reads_congr rfl rfl fun pte' hl' => ?_
  have hpos := Pgdir.userRefs_pos (hinv.mms q hq mm' hm).wf hau hl'
  have hused : ¬ k.phys.pmm.Free pte'.frame := by
    intro hfree
    have hzero := (hinv.phys.acct.zero_of_free hfree).1
    have hle := userRefs_le_rest hq hqp hm pte'.frame
    rw [users_eq (current_some hc).1] at hzero
    simp only [Pi.add_apply] at hzero
    omega
  by_contra hne
  obtain ⟨c,hin,pte,hl,hfr,hwhy⟩ := hbound.mem pte'.frame hused hne
  refine htidy.unshared hinv ((htidy.ctx hc).copyout hok hw) hpaged.ok.wf hpaged.shm hq hqp hm hau
    hns hl' hin.2.2 hl ?_ hfr.symm
  refine hwhy.resolve_right fun hfresh => ?_
  obtain ⟨hold,hpw,hcow⟩ := hfresh
  obtain ⟨i,hi,rfl⟩ := hin.offset
  have := hguard i hi hin.2.2 pte hold
  simp [hpw,hcow] at this

theorem exists_pair (o : Option Kernel) (ops : List Op) (P : Kernel → Mm → Mm → Prop)
    [∀ k mm, DecidablePred (P k mm)] (h : (o.bind (·.runOps ops)).any (fun k =>
      (k.current 1).any fun mm => (k.procs 2).mm.any fun mm' => P k mm mm') = true) :
    ∃ k₀ k mm mm', o = some k₀ ∧ Transition.Run Next k₀ ops k ∧ k.current 1 = some mm ∧
      (k.procs 2).mm = some mm' ∧ P k mm mm' := by
  obtain ⟨k₀,k,mm,ho,hr,hc,ht⟩ := exists_current o ops
    (fun k mm => (k.procs 2).mm.any (fun mm' => P k mm mm') = true)
    (by simpa only [Bool.decide_eq_true] using h)
  obtain ⟨mm',hm,ht⟩ := Machine.exists_of_any ht
  exact ⟨k₀,k,mm,mm',ho,hr,hc,hm,ht⟩

theorem copyout_respects_readonly_written : ∃ k₀ k : Kernel, ∃ mm mm' : Mm,
      boot 0x102000 0x180000 (fun _ _ => 0) (fun _ => none) = some k₀ ∧
      Transition.Run Next k₀ [.kthreadCreate,.execve 1 true [0x90] [] [] [],
        .mmap 1 0 4096 3 0x22 0xffffffff,.store 1 0xbffdf000 5,.fork 1 true] k ∧
      k.current 1 = some mm ∧ (k.procs 2).mm = some mm' ∧
      ((k.ctx mm).copyout true 0xbffdf000 [7]).1.reads 0xbffdf000 = some 7 ∧
      mm.allows 0xbffdf000 true = true ∧
      ((k.setCtx 1 ((k.ctx mm).copyout true 0xbffdf000 [7]).1).ctx mm').reads 0xbffdf000 =
        (k.ctx mm').reads 0xbffdf000 := by
  obtain ⟨k₀,k,mm,mm',hb,hr,hc,hm,hf,hperm,hnew,hold,hns⟩ := exists_pair
    (boot 0x102000 0x180000 (fun _ _ => 0) fun _ => none)
    [.kthreadCreate,.execve 1 true [0x90] [] [] [],.mmap 1 0 4096 3 0x22 0xffffffff,
      .store 1 0xbffdf000 5,.fork 1 true]
    (fun k mm mm' => k.phys.pmm.failed = 0 ∧
      (∀ pte ∈ mm.pd.lookup 0xbffdf000, pte.perm.w = true ∨ pte.perm.cow = true) ∧
      ((k.ctx mm).copyout true 0xbffdf000 [7]).1.reads 0xbffdf000 = some 7 ∧
      (k.ctx mm).reads 0xbffdf000 = some 5 ∧ ¬ mm'.Shared 0xbffdf000) (by decide +kernel)
  obtain ⟨hown,hother⟩ := copyout_respects_readonly _ _ _ _ k₀ k _ supervisor_empty hb hr hf 1 mm hc
    true 0xbffdf000 [7] (by decide) (by
      intro i hi _ pte hl
      obtain rfl : i = 0 := by simpa using hi
      exact hperm pte hl)
  refine ⟨k₀,k,mm,mm',hb,hr,hc,hm,hnew,hown 0 (by decide) ?_,hother 2 (by decide) (by decide)
    mm' hm _ hns⟩
  rw [show (0xbffdf000 + 0) % word = 0xbffdf000 by decide,hnew,hold]
  decide

theorem copyout_writes_readonly_page : ∃ k₀ k : Kernel, ∃ mm mm' : Mm,
      boot 0x102000 0x180000 (fun _ _ => 0) (fun _ => none) = some k₀ ∧
      Transition.Run Next k₀ [.kthreadCreate,.execve 1 true [0x90] [] [] [],
        .mmap 1 0 4096 1 0x22 0xffffffff,.load 1 0xbffdf000,.fork 1 true] k ∧
      k.current 1 = some mm ∧ (k.procs 2).mm = some mm' ∧ mm.allows 0xbffdf000 true = false ∧
      ((k.ctx mm).copyout true 0xbffdf000 [7]).2 = true ∧
      (k.ctx mm).reads 0xbffdf000 = some 0 ∧
      ((k.ctx mm).copyout true 0xbffdf000 [7]).1.reads 0xbffdf000 = some 7 ∧
      ¬ mm'.Shared 0xbffdf000 ∧ (k.ctx mm').reads 0xbffdf000 = some 0 ∧
      ((k.setCtx 1 ((k.ctx mm).copyout true 0xbffdf000 [7]).1).ctx mm').reads 0xbffdf000 = some 7 :=
  exists_pair _ _ _ (by decide +kernel)

theorem copyout_reaches_second_attachment : ∃ k₀ k : Kernel, ∃ mm : Mm,
      boot 0x102000 0x180000 (fun _ _ => 0) (fun _ => none) = some k₀ ∧
      Transition.Run Next k₀ [.kthreadCreate,.execve 1 true [0x90] [] [] [],.shmget 0 4096 0x200,
        .shmat 1 0 0 0,.shmat 1 0 0 0] k ∧
      k.current 1 = some mm ∧ ((k.ctx mm).copyout true 0xbffdf000 [7]).2 = true ∧
      (k.ctx mm).reads 0xbffde000 = some 0 ∧
      ((k.ctx mm).copyout true 0xbffdf000 [7]).1.reads 0xbffde000 = some 7 :=
  exists_current _ _ _ (by decide +kernel)

theorem user_copy_exact_confined_text : ∃ k₀ k : Kernel, ∃ mm : Mm,
      boot 0x102000 0x180000 (fun _ _ => 0) (fun _ => none) = some k₀ ∧
      Transition.Run Next k₀ [.kthreadCreate,.execve 1 true [0x90,0x91] [] [] []] k ∧
      k.current 1 = some mm ∧ ((k.ctx mm).copyin true userLoad 2).2 = ([0x90,0x91],true) ∧
      (k.ctx mm).reads (userLoad + 1) = some 0x91 := by
  obtain ⟨k₀,k,mm,hb,hr,hc,ht⟩ := exists_current
    (boot 0x102000 0x180000 (fun _ _ => 0) fun _ => none)
    [.kthreadCreate,.execve 1 true [0x90,0x91] [] [] []]
    (fun k mm => ((k.ctx mm).copyin true userLoad 2).2 = ([0x90,0x91],true)) (by decide +kernel)
  have hinv := inv_run (boot_inv supervisor_empty hb) hr
  obtain ⟨hexact,-,-⟩ := (Ctx.user_copy_exact_confined (k.ctx mm) _ _ _ (hinv.ctxOk hc) true userLoad
    (by decide)).2 2
  have hat := (hexact (by rw [ht])).2 1 (by decide)
  rw [ht,show (userLoad + 1) % word = userLoad + 1 by decide] at hat
  exact ⟨k₀,k,mm,hb,hr,hc,ht,hat.symm⟩

end Kernel

end TinyOs
