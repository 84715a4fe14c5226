import Mathlib.Data.Fintype.Basic
import TinyOs.Ext2.Icache

namespace TinyOs.Icache

open List Machine State
open Function (update update_apply update_of_ne update_self)

variable {P : Type} {l : List Slot} {free : Option Slot} {x : P × Handle}

def InUse (s : State P) (i : Slot) : Prop := (s.cache i).type ≠ none

def Missing (s : State P) (sbi : Nat) (inum : UInt32) : Prop := ∀ i, ¬ (s.cache i).Is sbi inum

def Matches (m : Mnode) (h : Handle) : Prop := m.Is h.sbi h.inum ∧ m.iBlock = h.iBlock

def Pc.Reads : Pc → Prop
  | .reading _ _ _ => True
  | _ => False

instance : DecidablePred Pc.Reads
  | .idle | .iterating _ => .isFalse id
  | .reading _ _ _ => .isTrue trivial

variable {s s' : State P}

theorem scan_hit {sbi : Nat} {inum : UInt32} {i : Slot}
    (h : scan s.cache sbi inum l free = .hit i) : (s.cache i).Is sbi inum := by
  induction l generalizing free with
  | nil => cases free <;> cases h
  | cons j rest ih =>
    unfold scan at h
    split at h
    · rename_i hj
      cases h
      exact hj
    · exact ih h

theorem scan_free {sbi : Nat} {inum : UInt32} {i : Slot}
    (h : scan s.cache sbi inum l free = .free i) (hfree : ∀ j, free = some j → ¬ InUse s j) :
    ¬ InUse s i ∧ ∀ j ∈ l, ¬ (s.cache j).Is sbi inum := by
  induction l generalizing free with
  | nil =>
    cases free with
    | none => cases h
    | some j =>
      cases h
      exact ⟨hfree i rfl,nofun⟩
  | cons j rest ih =>
    unfold scan at h
    split at h
    · cases h
    rename_i hj
    obtain ⟨hi,hrest⟩ := ih h fun k hk => by
      split at hk
      · rename_i hnone
        cases hk
        exact fun hused => hused hnone.1
      · exact hfree k hk
    exact ⟨hi,forall_mem_cons.mpr ⟨hj,hrest⟩⟩

def asks (s : State P) : Op P → Option (Nat × UInt32)
  | .found p (some inum) _ =>
    match s.pc p with
    | .iterating sbi => some (sbi,inum)
    | _ => none
  | .fillSuper _ sbi _ => some (sbi,rootIno)
  | _ => none

inductive Change [DecidableEq P] (s : State P) (op : Op P) : State P → Prop where
  | moved {p : P} {c : Pc} (hc : ¬ c.Reads) : Change s op (s.at_ p c)
  | chosen {p : P} {i : Slot} {sbi : Nat} {inum : UInt32}
      (hask : asks s op = some (sbi,inum)) (hi : ¬ InUse s i)
      (hmiss : Missing s sbi inum) : Change s op (s.at_ p (.reading i sbi inum))
  | shared {s' : State P} {p : P} {h : Handle}
      (hh : (∃ q, (q,h) ∈ s.held) ∨ Matches (s.cache h.slot) h)
      (hcache : s'.cache = update s.cache h.slot
        { s.cache h.slot with ref := (s.cache h.slot).ref + 1 })
      (hheld : s'.held = (p,h) :: s.held) (hpc : ∀ q, (s'.pc q).Reads → s'.pc q = s.pc q) :
      Change s op s'
  | cleared {p : P} {i : Slot} {sbi : Nat} {inum : UInt32} (hp : s.pc p = .reading i sbi inum) :
      Change s op ((s.store i { Mnode.zero with sbi := some sbi, inum := inum }).at_ p .idle)
  | filled {p : P} {i : Slot} {sbi : Nat} {inum : UInt32} {t : InodeType} {din : DiskInode}
      (hp : s.pc p = .reading i sbi inum) :
      Change s op
        (((s.store i (fresh sbi inum t din)).hold p ⟨i,sbi,inum,din.block⟩).at_ p .idle)
  | dropped {p : P} {h : Handle} (hh : (p,h) ∈ s.held) (href : (s.cache h.slot).ref ≠ 0) :
      Change s op { s.store h.slot (if (s.cache h.slot).ref = 1 then Mnode.zero
            else { s.cache h.slot with ref := (s.cache h.slot).ref - 1 }) with
          held := s.held.erase (p,h) }

variable [DecidableEq P] {perGroup : Nat → UInt32} {p : P} {op : Op P} {out : Out} {sbi : Nat}
  {inum : UInt32} {i : Slot}

theorem ret_change (h : ret s p = some (s',out)) : Change s op s' := by
  cases h
  exact .moved id

theorem pc_of_at {q : P} {c : Pc} (hc : ¬ c.Reads) (h : ((s.at_ p c).pc q).Reads) :
    (s.at_ p c).pc q = s.pc q := by
  change (update s.pc p c q).Reads at h
  by_cases hq : q = p
  · rw [hq,update_self] at h
    exact (hc h).elim
  · exact update_of_ne hq _ _

theorem ext2Iget_change {mem : Bool} (hask : asks s op = some (sbi,inum))
    (h : ext2Iget perGroup s p sbi inum mem = some (s',out)) : Change s op s' := by
  unfold ext2Iget at h
  split at h
  · exact ret_change h
  split at h
  · rename_i i hscan
    cases h
    exact .shared (h := ⟨i,sbi,inum,(s.cache i).iBlock⟩) (.inr ⟨scan_hit hscan,rfl⟩) rfl rfl
      fun q hq => pc_of_at id hq
  · exact ret_change h
  rename_i i hscan
  obtain ⟨hi,hmiss⟩ := scan_free hscan nofun
  split at h
  · cases h
  split at h
  · exact ret_change h
  split at h
  · cases h
    exact .chosen hask hi fun j => hmiss j (mem_finRange j)
  · exact ret_change h

theorem ext2Fill_change {din : Option DiskInode} (hp : s.pc p = .reading i sbi inum)
    (h : ext2Fill s p i sbi inum din = some (s',out)) : Change s op s' := by
  unfold ext2Fill at h
  split at h
  · exact ret_change h
  split at h
  · cases h
    exact .cleared hp
  · cases h
    exact .filled hp

theorem step_change (h : step perGroup s op = some (s',out)) : Change s op s' := by
  unfold step at h
  split at h
  · split at h
    · split at h
      · exact ret_change h
      split at h
      · cases h
        exact .moved id
      · exact ret_change h
    · cases h
  · split at h
    · exact ret_change h
    · rename_i hpc
      exact ext2Iget_change (by simp only [asks,hpc]) h
    · cases h
  · split at h
    · exact ext2Iget_change rfl h
    · cases h
  · split at h
    · rename_i hpc
      exact ext2Fill_change hpc h
    · cases h
  · split at h
    · rename_i hmem
      cases h
      exact .shared (.inl ⟨_,hmem⟩) rfl rfl fun _ _ => rfl
    · cases h
  · split at h
    · rename_i hmem
      unfold fsIput at h
      obtain ⟨href,h⟩ := Option.ite_none_left_eq_some.mp h
      cases h
      exact .dropped hmem href
    · cases h

def OneCopy (s : State P) : Prop :=
  ∀ i j sbi inum, (s.cache i).Is sbi inum → (s.cache j).Is sbi inum → i = j

def Kept (s : State P) : Prop := ∀ x ∈ s.held, Matches (s.cache x.2.slot) x.2

structure Inv (s : State P) : Prop where
  used : ∀ i, InUse s i ↔ 0 < (s.cache i).ref
  counted : ∀ i, (s.cache i).ref = s.held.countP fun x => x.2.slot = i
  kept : Kept s
  one : OneCopy s
  reader : ∀ p i sbi inum, s.pc p = .reading i sbi inum → ¬ InUse s i ∧ Missing s sbi inum
  alone : ∀ p q, (s.pc p).Reads → (s.pc q).Reads → p = q

omit [DecidableEq P] in
theorem Inv.ref_zero (hs : Inv s) (hi : ¬ InUse s i) : (s.cache i).ref = 0 :=
  Nat.eq_zero_of_not_pos fun h => hi ((hs.used i).mpr h)

omit [DecidableEq P] in
theorem Inv.free_of_held (hs : Inv s) (hi : ¬ InUse s i) (hx : x ∈ s.held) : x.2.slot ≠ i := by
  intro heq
  rw [← heq] at hi
  exact hi (hs.kept x hx).1.1

omit [DecidableEq P] in
theorem Inv.kept_or (hs : Inv s) {k : Slot} {r : Nat} (hx : x ∈ s.held) :
    if x.2.slot = k then Matches { s.cache k with ref := r } x.2 else x ∈ s.held := by
  split
  · rename_i hk
    exact hk ▸ hs.kept x hx
  · exact hx

omit [DecidableEq P] in
theorem Inv.ne_of_reading (hs : Inv s) (hp : s.pc p = .reading i sbi inum) {j : Slot}
    (hj : InUse s j) : j ≠ i := by
  rintro rfl
  exact (hs.reader p j sbi inum hp).1 hj

theorem Inv.moved (hs : Inv s) {c : Pc} (hc : ¬ c.Reads) : Inv (s.at_ p c) := by
  have hpc : ∀ q, ((s.at_ p c).pc q).Reads → (s.at_ p c).pc q = s.pc q := fun q => pc_of_at hc
  refine ⟨hs.used,hs.counted,hs.kept,hs.one,fun q i sbi inum hq => ?_,
    fun q r hq hr => hs.alone q r (hpc q hq ▸ hq) (hpc r hr ▸ hr)⟩
  exact hs.reader q i sbi inum ((hpc q (by rw [hq]; trivial)).symm.trans hq)

theorem Inv.chosen (hs : Inv s) (hnone : ∀ q, ¬ (s.pc q).Reads) (hi : ¬ InUse s i)
    (hmiss : Missing s sbi inum) : Inv (s.at_ p (.reading i sbi inum)) := by
  have honly : ∀ q, ((s.at_ p (.reading i sbi inum)).pc q).Reads → q = p := by
    intro q hq
    by_contra hqp
    change (update s.pc p _ q).Reads at hq
    rw [update_of_ne hqp] at hq
    exact hnone q hq
  refine ⟨hs.used,hs.counted,hs.kept,hs.one,fun q j sb n hq => ?_,
    fun q r hq hr => (honly q hq).trans (honly r hr).symm⟩
  obtain rfl := honly q (by rw [hq]; trivial)
  change update s.pc q _ q = _ at hq
  rw [update_self] at hq
  cases hq
  exact ⟨hi,hmiss⟩

omit [DecidableEq P] in
theorem Inv.put (hs : Inv s) {k : Slot} {m : Mnode} (hcache : s'.cache = update s.cache k m)
    (hpc : ∀ q, (s'.pc q).Reads → s'.pc q = s.pc q) (hused : m.type ≠ none ↔ 0 < m.ref)
    (hcount : ∀ j, (if j = k then m.ref else (s.cache j).ref) =
      s'.held.countP fun x => x.2.slot = j)
    (hkept : ∀ x ∈ s'.held, if x.2.slot = k then Matches m x.2 else x ∈ s.held)
    (hnew : m.type = none ∨ (m.type = (s.cache k).type ∧ m.sbi = (s.cache k).sbi ∧
      m.inum = (s.cache k).inum) ∨ (∀ q, ¬ (s'.pc q).Reads) ∧
        ∀ sbi inum, m.Is sbi inum → Missing s sbi inum) : Inv s' := by
  have hof : ∀ j, s'.cache j = if j = k then m else s.cache j := fun j => by rw [hcache,update_apply]
  have his : ∀ {j sbi inum}, (s'.cache j).Is sbi inum → (s.cache j).Is sbi inum ∨
      j = k ∧ (∀ q, ¬ (s'.pc q).Reads) ∧ Missing s sbi inum := by
    intro j sbi inum h
    rw [hof j] at h
    split at h
    · rename_i hj
      rcases hnew with hnone | ⟨htype,hsbi,hinum⟩ | ⟨hno,hmiss⟩
      · exact (h.1 hnone).elim
      · exact .inl (hj ▸ ⟨htype ▸ h.1,hsbi ▸ h.2.1,hinum ▸ h.2.2⟩)
      · exact .inr ⟨hj,hno,hmiss _ _ h⟩
    · exact .inl h
  refine ⟨fun j => ?_,fun j => ?_,fun x hx => ?_,fun i j sbi inum hi hj => ?_,
    fun q i sbi inum hq => ?_,fun q r hq hr => hs.alone q r (hpc q hq ▸ hq) (hpc r hr ▸ hr)⟩
  · rw [InUse,hof j]
    split
    · exact hused
    · exact hs.used j
  · rw [hof j,← hcount j,apply_ite Mnode.ref]
  · have hx := hkept x hx
    rw [hof]
    split at hx <;> rename_i hk
    · rwa [if_pos hk]
    · rw [if_neg hk]
      exact hs.kept x hx
  · -- A new copy is the only one of its inode because the inode was missing since the choice.
    rcases his hi with hi | ⟨hik,-,hmiss⟩ <;> rcases his hj with hj | ⟨hjk,-,hmiss'⟩
    · exact hs.one i j sbi inum hi hj
    · exact (hmiss' i hi).elim
    · exact (hmiss j hj).elim
    · exact hik.trans hjk.symm
  · have hreads : (s'.pc q).Reads := by rw [hq]; trivial
    obtain ⟨hi,hmiss⟩ := hs.reader q i sbi inum ((hpc q hreads).symm.trans hq)
    refine ⟨fun hu => ?_,fun j hj => (his hj).elim (hmiss j) fun hk => hk.2.1 q hreads⟩
    rw [InUse,hof i] at hu
    split at hu
    · rename_i hik
      rcases hnew with hnone | ⟨htype,-⟩ | ⟨hno,-⟩
      · exact hu hnone
      · rw [htype,← hik] at hu
        exact hi hu
      · exact hno q hreads
    · exact hi hu

omit [DecidableEq P] in
theorem Inv.shared (hs : Inv s) {h : Handle} {p : P}
    (hh : (∃ q, (q,h) ∈ s.held) ∨ Matches (s.cache h.slot) h)
    (hcache : s'.cache = update s.cache h.slot
      { s.cache h.slot with ref := (s.cache h.slot).ref + 1 })
    (hheld : s'.held = (p,h) :: s.held) (hpc : ∀ q, (s'.pc q).Reads → s'.pc q = s.pc q) :
    Inv s' := by
  have hmatch : Matches (s.cache h.slot) h := hh.elim (fun ⟨q,hq⟩ => hs.kept (q,h) hq) id
  refine hs.put hcache hpc ⟨fun _ => Nat.succ_pos _,fun _ => hmatch.1.1⟩ (fun j => ?_)
    (fun x hx => ?_) (.inr (.inl ⟨rfl,rfl,rfl⟩))
  · rw [hheld,countP_cons,← hs.counted j]
    simp only [decide_eq_true_eq]
    by_cases hj : j = h.slot
    · rw [if_pos hj,if_pos hj.symm,hj]
    · rw [if_neg hj,if_neg (Ne.symm hj),add_zero]
  · rw [hheld] at hx
    rcases mem_cons.mp hx with rfl | hx
    · rw [if_pos rfl]
      exact hmatch
    · exact hs.kept_or hx

theorem Inv.cleared (hs : Inv s) (hp : s.pc p = .reading i sbi inum) :
    Inv ((s.store i { Mnode.zero with sbi := some sbi, inum := inum }).at_ p .idle) := by
  obtain ⟨hi,-⟩ := hs.reader p i sbi inum hp
  refine hs.put rfl (fun q => pc_of_at id) ⟨fun h => (h rfl).elim,fun h => absurd h (lt_irrefl 0)⟩
    (fun j => ?_) (fun x hx => ?_) (.inl rfl)
  · refine Eq.trans ?_ (hs.counted j)
    split
    · rename_i hj
      exact (hj ▸ hs.ref_zero hi).symm
    · rfl
  · rw [if_neg (hs.free_of_held hi hx)]
    exact hx

theorem Inv.filled (hs : Inv s) {t : InodeType} {din : DiskInode}
    (hp : s.pc p = .reading i sbi inum) :
    Inv (((s.store i (fresh sbi inum t din)).hold p ⟨i,sbi,inum,din.block⟩).at_ p .idle) := by
  obtain ⟨hi,hmiss⟩ := hs.reader p i sbi inum hp
  have hnone : ∀ q, ¬ (update s.pc p .idle q).Reads := by
    intro q hq
    by_cases hqp : q = p
    · rw [hqp,update_self] at hq
      exact hq
    · rw [update_of_ne hqp] at hq
      exact hqp (hs.alone q p hq (by rw [hp]; trivial))
  refine hs.put rfl (fun q => pc_of_at id) ⟨fun _ => Nat.one_pos,fun _ => nofun⟩ (fun j => ?_)
    (fun x hx => ?_) (.inr (.inr ⟨hnone,fun sb n hm => ?_⟩))
  · change _ = List.countP _ (_ :: s.held)
    rw [countP_cons,← hs.counted j]
    simp only [decide_eq_true_eq]
    by_cases hj : j = i
    · rw [if_pos hj,if_pos hj.symm,hj,hs.ref_zero hi]
      rfl
    · rw [if_neg hj,if_neg (Ne.symm hj),add_zero]
  · rcases mem_cons.mp hx with rfl | hx
    · rw [if_pos rfl]
      exact ⟨⟨nofun,rfl,rfl⟩,rfl⟩
    · rw [if_neg (hs.free_of_held hi hx)]
      exact hx
  · obtain ⟨-,hsb,rfl⟩ := hm
    cases hsb
    exact hmiss

theorem Inv.dropped (hs : Inv s) {h : Handle} (hh : (p,h) ∈ s.held)
    (href : (s.cache h.slot).ref ≠ 0) :
    Inv { s.store h.slot (if (s.cache h.slot).ref = 1 then Mnode.zero
        else { s.cache h.slot with ref := (s.cache h.slot).ref - 1 }) with
      held := s.held.erase (p,h) } := by
  have hcount : ∀ j, (if j = h.slot then (s.cache h.slot).ref - 1 else (s.cache j).ref) =
      (s.held.erase (p,h)).countP fun x => x.2.slot = j := by
    intro j
    have hall := hs.counted j
    rw [(perm_cons_erase hh).countP_eq,countP_cons] at hall
    simp only [decide_eq_true_eq] at hall
    by_cases hj : j = h.slot
    · rw [if_pos hj.symm,hj] at hall
      rw [if_pos hj,hj,hall]
      rfl
    · rw [if_neg (Ne.symm hj)] at hall
      rw [if_neg hj]
      exact hall
  by_cases hone : (s.cache h.slot).ref = 1
  · rw [if_pos hone]
    rw [hone] at hcount
    refine hs.put rfl (fun _ _ => rfl) ⟨fun hu => (hu rfl).elim,fun hu => absurd hu (lt_irrefl 0)⟩
      hcount (fun x hx => ?_) (.inl rfl)
    -- A second reference to the slot would have kept its count above 1.
    rw [if_neg]
    · exact mem_of_mem_erase hx
    · intro heq
      have hzero := hcount h.slot
      rw [if_pos rfl] at hzero
      exact countP_eq_zero.mp hzero.symm x hx (decide_eq_true heq)
  · rw [if_neg hone]
    refine hs.put rfl (fun _ _ => rfl) ⟨fun _ => ?_,fun _ => (hs.kept (p,h) hh).1.1⟩ hcount
      (fun x hx => hs.kept_or (mem_of_mem_erase hx)) (.inr (.inl ⟨rfl,rfl,rfl⟩))
    dsimp only
    omega

omit [DecidableEq P] in
theorem inv_init : Inv (init : State P) where
  used := fun _ => ⟨fun h => (h rfl).elim,fun h => absurd h (lt_irrefl 0)⟩
  counted := fun _ => rfl
  kept := nofun
  one := fun _ _ _ _ h => (h.1 rfl).elim
  reader := nofun
  alone := fun _ _ h => h.elim

def Alone (s : State P) (op : Op P) : Prop :=
  ∀ k ∈ asks s op, Missing s k.1 k.2 → ∀ q, ¬ (s.pc q).Reads

instance [Fintype P] (s : State P) (op : Op P) : Decidable (Alone s op) :=
  inferInstanceAs (Decidable (∀ k ∈ asks s op, (∀ i, ¬ (s.cache i).Is k.1 k.2) → _))

theorem inv_step (hs : Inv s) (hgood : Alone s op) (h : step perGroup s op = some (s',out)) :
    Inv s' := by
  cases step_change h with
  | moved hc => exact hs.moved hc
  | chosen hask hi hmiss => exact hs.chosen (hgood _ hask hmiss) hi hmiss
  | shared hh hcache hheld hpc => exact hs.shared hh hcache hheld hpc
  | cleared hp => exact hs.cleared hp
  | filled hp => exact hs.filled hp
  | dropped hh href => exact hs.dropped hh href

def Stable (s s' : State P) : Prop := ∀ i, InUse s i → (s'.cache i).ref = 0 ∨
    (s'.cache i).type = (s.cache i).type ∧ (s'.cache i).sbi = (s.cache i).sbi ∧
      (s'.cache i).inum = (s.cache i).inum ∧ (s'.cache i).iBlock = (s.cache i).iBlock

theorem stable_step (hs : Inv s) (h : step perGroup s op = some (s',out)) : Stable s s' := by
  intro j hj
  cases step_change h with
  | moved hc | chosen hask hi hmiss => exact .inr ⟨rfl,rfl,rfl,rfl⟩
  | shared hh hcache hheld hpc =>
    rw [hcache,update_apply]
    split
    · rename_i hj
      exact hj ▸ .inr ⟨rfl,rfl,rfl,rfl⟩
    · exact .inr ⟨rfl,rfl,rfl,rfl⟩
  | cleared hp =>
    have hne := hs.ne_of_reading hp hj
    exact .inr (by simp [at_,store,update_of_ne hne])
  | filled hp =>
    have hne := hs.ne_of_reading hp hj
    exact .inr (by simp [at_,hold,store,update_of_ne hne])
  | @dropped p h' hh href =>
    simp only [store]
    by_cases hslot : j = h'.slot
    · rw [hslot,update_self]
      split
      · exact .inl rfl
      · exact .inr ⟨rfl,rfl,rfl,rfl⟩
    · rw [update_of_ne hslot]
      exact .inr ⟨rfl,rfl,rfl,rfl⟩

theorem ext2_icache_one_copy {ops : List (Op P)} {outs : List Out}
    (hgood : Always (step perGroup) Alone init ops)
    (hrun : run (step perGroup) init ops = some (s,outs)) :
    OneCopy s ∧ Kept s ∧
      ∀ op s' out, Alone s op → step perGroup s op = some (s',out) → Stable s s' := by
  have hs : Inv s :=
    run_keeps (fun _ _ _ _ hI hg hst => inv_step hI hg hst) inv_init hgood hrun
  exact ⟨hs.one,hs.kept,fun _ _ _ _ hst => stable_step hs hst⟩

instance (s : State P) (i : Slot) : Decidable (InUse s i) := inferInstanceAs (Decidable (_ ≠ _))

instance (m : Mnode) (h : Handle) : Decidable (Matches m h) := inferInstanceAs (Decidable (_ ∧ _))

instance (s s' : State P) : Decidable (Stable s s') :=
  inferInstanceAs (Decidable (∀ i, InUse s i → _))

instance (s : State P) : Decidable (Kept s) := inferInstanceAs (Decidable (∀ x ∈ s.held, _))

def blocksOf (b : UInt32) : Blocks := Vector.replicate nBlocks b

def dirInode : DiskInode := ⟨0x41ED,1024,blocksOf 20⟩

def fileInode (b : UInt32) : DiskInode := ⟨0x81A4,100,blocksOf b⟩

def rootHandle : Handle := ⟨0,1,rootIno,blocksOf 20⟩

def mounted : List (Op Bool) :=
  [.fillSuper false 1 true,.filled false (some dirInode),.idup false true rootHandle]

def twoLookups : List (Op Bool) :=
  mounted ++ [.lookup false rootHandle,.lookup true rootHandle,.found false (some 5) true,
    .found true (some 6) true,.filled false (some (fileInode 30))]

def sameInode : List (Op Bool) := mounted ++ [.lookup false rootHandle,.found false (some 5) true,
    .filled false (some (fileInode 30)),.lookup true rootHandle,.found true (some 7) true,
    .iput false ⟨1,1,5,blocksOf 30⟩,.lookup false rootHandle,.found false (some 7) true,
    .filled false (some (fileInode 40)),.filled true (some (fileInode 40))]

theorem slot_in_use_refilled :
    (∃ s outs, run (step fun _ => 100) init twoLookups = some (s,outs) ∧
      ∃ s' out, step (fun _ => 100) s (.filled true (some (fileInode 31))) = some (s',out) ∧
        ¬ Stable s s' ∧ ¬ Kept s') ∧
    ∃ s outs, run (step fun _ => 100) init sameInode = some (s,outs) ∧ ¬ OneCopy s := by
  constructor
  · refine run_shows (fun s => (step (fun _ => 100) s (.filled true
      (some (fileInode 31)))).any (fun r => ¬ Stable s r.1 ∧ ¬ Kept r.1) = true) (by decide +kernel) ?_
    intro s outs _ hstep
    obtain ⟨⟨s',out⟩,hs',hbad⟩ := exists_of_any hstep
    exact ⟨s',out,hs',hbad⟩
  · exact run_shows (fun s => (s.cache 1).Is 1 7 ∧ (s.cache 2).Is 1 7) (by decide +kernel)
      fun s _ _ h hone => absurd (hone 1 2 1 7 h.1 h.2) (by decide)

def oneByOne : List (Op Bool) :=
  mounted ++ [.lookup false rootHandle,.lookup true rootHandle,.found false (some 5) true,
    .filled false (some (fileInode 30)),.found true (some 6) true,
    .filled true (some (fileInode 31))]

theorem ext2_icache_one_copy_one_by_one :
    ∃ s outs, run (step fun _ => 100) init oneByOne = some (s,outs) ∧
      ((s.cache 1).Is 1 5 ∧ (s.cache 2).Is 1 6) ∧ OneCopy s ∧ Kept s := by
  refine run_shows (fun s => (s.cache 1).Is 1 5 ∧ (s.cache 2).Is 1 6) (by decide +kernel) ?_
  intro s outs hrun hat
  have h := ext2_icache_one_copy (by decide +kernel) hrun
  exact ⟨hat,h.1,h.2.1⟩

end TinyOs.Icache
