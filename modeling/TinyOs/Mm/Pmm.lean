import Mathlib.Data.Set.Card
import Mathlib.Order.Interval.Finset.Nat
import TinyOs.Library.Transition
import TinyOs.Mm.Allocator

namespace TinyOs.Buddy

open Function (onFun update update_self)
open Dyadic List Option

variable {s : Pmm} {page : Nat}

structure Put (s s' : Pmm) (page : Nat) : Prop where
  wf : s'.Wf
  refcount : s'.refcount = update s.refcount page (s.refcount page - 1)
  live : s'.live = if s.refcount page = 1 then s.live.erase ⟨page,0⟩ else s.live
  user : s'.user = s.user
  nrPages : s'.nrPages = s.nrPages
  failed : s'.failed = s.failed

theorem putPage_some (h : s.Wf) (hp : ⟨page,0⟩ ∈ s.live)
    (hr : s.refcount page ≠ 0) : ∃ s', putPage s page = some s' ∧ Put s s' page := by
  have ho : s.order page = none := h.order_live hp
  have hs := h.setHistory (update s.refcount page (s.refcount page - 1)) s.user s.failed
  simp only [putPage,ho,ne_eq,not_true_eq_false,if_false,hr,update_self]
  by_cases h1 : s.refcount page = 1
  · rw [if_pos (by omega)]
    have hrel := hs.release (b := ⟨page,0⟩) hp
    have hkept := mergeLoop_kept maxOrder (dropLive
      { s with refcount := update s.refcount page (s.refcount page - 1) } page 0) page 0
    refine ⟨_,rfl,hrel,hkept.refcount,?_,hkept.user,hkept.nrPages,hkept.failed⟩
    rw [if_pos h1]
    exact hkept.live
  · rw [if_neg (by omega)]
    exact ⟨_,rfl,hs,rfl,by rw [if_neg h1],rfl,rfl,rfl⟩

theorem putPage_wf {s' : Pmm} (h : s.Wf) (hp : ⟨page,0⟩ ∈ s.live)
    (hput : putPage s page = some s') : s'.Wf := by
  by_cases hr : s.refcount page = 0
  · simp [putPage,hr] at hput
  obtain ⟨t,ht,hspec⟩ := putPage_some h hp hr
  rw [ht] at hput
  cases hput
  exact hspec.wf

theorem getPage_some (h : s.Wf) (hp : ⟨page,0⟩ ∈ s.live) :
    getPage s page = some { s with
      refcount := update s.refcount page ((s.refcount page + 1) % word) } := by
  simp [getPage,h.order_live hp]

theorem growOrder_spec (fuel : Nat) : ∀ (idx left order : Nat), order < maxOrder →
    2 ^ order ∣ idx → 2 ^ order ≤ left →
    growOrder fuel idx left order < maxOrder ∧ 2 ^ growOrder fuel idx left order ∣ idx ∧
      2 ^ growOrder fuel idx left order ≤ left := by
  induction fuel with
  | zero => intro idx left order h1 h2 h3; exact ⟨h1,h2,h3⟩
  | succ fuel ih =>
    intro idx left order h1 h2 h3
    simp only [growOrder]
    split
    · rename_i hc
      exact ih _ _ _ hc.1 (Nat.dvd_of_mod_eq_zero hc.2.1) hc.2.2
    · exact ⟨h1,h2,h3⟩

structure Booted (s : Pmm) : Prop where
  wf : s.Wf
  live : s.live = []
  user : ∀ p, s.user p = false
  failed : s.failed = 0
  aligned : s.memStart % pgSize = 0
  memEnd : s.memEnd = s.memStart + s.nrPages * pgSize
  high : s.memEnd ≤ physmemTopMax

structure Booting (s : Pmm) (idx : Nat) : Prop where
  tiling : Tiling s (fun p => idx ≤ p ∧ p < s.nrPages)
  order : ∀ p, idx ≤ p → p < s.nrPages → s.order p = none
  le : idx ≤ s.nrPages
  live : s.live = []
  user : ∀ p, s.user p = false
  failed : s.failed = 0
  aligned : s.memStart % pgSize = 0
  memEnd : s.memEnd = s.memStart + s.nrPages * pgSize
  high : s.memEnd ≤ physmemTopMax

theorem Booting.done {idx : Nat} (h : Booting s idx) (hle : s.nrPages ≤ idx) : Booted s := by
  have hsmall : s.nrPages ≤ word := by
    have h1 := h.memEnd
    have h2 := h.high
    simp only [pgSize,physmemTopMax,word] at *
    omega
  exact ⟨⟨h.tiling.congr fun p => ⟨fun hp => by omega,False.elim⟩,hsmall⟩,h.live,h.user,h.failed,
    h.aligned,h.memEnd,h.high⟩

theorem Booting.step {idx k : Nat} (h : Booting s idx) (hk : k < maxOrder)
    (hd : 2 ^ k ∣ idx) (hle : idx + 2 ^ k ≤ s.nrPages) :
    Booting (freeOnePage s idx k) (idx + 2 ^ k) := by
  have hsmall : s.nrPages ≤ word := by
    have h1 := h.memEnd
    have h2 := h.high
    simp only [pgSize,physmemTopMax,word] at *
    omega
  have hcov : ∀ p, (Block.mk idx k).Covers p → idx ≤ p ∧ p < s.nrPages := by
    intro p hp
    simp only [Block.Covers] at hp
    omega
  have hmerge := Tiling.mergeLoop maxOrder ⟨idx,k⟩ h.tiling hsmall ⟨hk,hd,hle⟩ hcov
    (fun p _ hu _ => h.order p hu.1 hu.2) (by omega)
  have hkept := mergeLoop_kept maxOrder s idx k
  refine ⟨hmerge.1.congr fun p => ?_,?_,?_,hkept.live.trans h.live,
    fun p => (congrFun hkept.user p).trans (h.user p),hkept.failed.trans h.failed,?_,?_,?_⟩
  · simp only [freeOnePage,hkept.nrPages,Block.Covers]
    omega
  · intro p hp hpn
    simp only [freeOnePage,hkept.nrPages] at hpn
    rw [freeOnePage,hmerge.2 p ⟨by omega,hpn⟩ (by simp only [Block.Covers]; omega)]
    exact h.order p (by omega) hpn
  · simpa only [freeOnePage,hkept.nrPages] using hle
  · simpa only [freeOnePage,hkept.memStart] using h.aligned
  · simpa only [freeOnePage,hkept.nrPages,hkept.memStart,hkept.memEnd] using h.memEnd
  · simpa only [freeOnePage,hkept.memEnd] using h.high

theorem addrToPage_of_lt (ha : s.memStart % pgSize = 0)
    (he : s.memEnd = s.memStart + s.nrPages * pgSize) (hh : s.memEnd ≤ physmemTopMax) {p : Nat}
    (hp : p < s.nrPages) : addrToPage s (s.memStart + p * pgSize) = some p := by
  simp only [pgSize,physmemTopMax] at *
  have hlow : ¬ kernBase ≤ s.memStart + p * 4096 := by
    simp only [kernBase]
    omega
  have hin : ¬ (s.memStart + p * 4096 < s.memStart ∨ s.memEnd ≤ s.memStart + p * 4096 ∨
      (s.memStart + p * 4096) % 4096 ≠ 0) := by omega
  simp only [addrToPage,pgSize,if_neg hlow,if_neg hin,Option.some.injEq]
  omega

theorem initLoop_booted (fuel : Nat) : ∀ {s : Pmm} {idx : Nat}, Booting s idx →
    s.nrPages ≤ idx + fuel →
    ∃ s', initLoop fuel s (s.memStart + idx * pgSize) = some s' ∧ Booted s' := by
  induction fuel with
  | zero =>
    intro s idx h hfuel
    exact ⟨s,rfl,h.done hfuel⟩
  | succ fuel ih =>
    intro s idx h hfuel
    have hend := h.memEnd
    simp only [initLoop]
    split
    · rename_i hlt
      have hpos : idx < s.nrPages := by
        rw [hend] at hlt; simp only [pgSize] at hlt; omega
      have hi : (s.memStart + idx * pgSize - s.memStart) / pgSize = idx := by
        simp only [pgSize]; omega
      have hl : (s.memEnd - (s.memStart + idx * pgSize)) / pgSize = s.nrPages - idx := by
        rw [hend]; simp only [pgSize]; omega
      rw [hi,hl,addrToPage_of_lt h.aligned hend h.high hpos,bind_some]
      obtain ⟨hk,hd,hle⟩ := growOrder_spec maxOrder idx (s.nrPages - idx) 0 (by decide)
        (by simp) (by simp only [pow_zero]; omega)
      generalize growOrder maxOrder idx (s.nrPages - idx) 0 = k at hk hd hle
      have hnext := h.step hk hd (by omega)
      have hkept := mergeLoop_kept maxOrder s idx k
      have haddr : s.memStart + idx * pgSize + pgSize * 2 ^ k =
          (freeOnePage s idx k).memStart + (idx + 2 ^ k) * pgSize := by
        simp only [freeOnePage,hkept.memStart]; ring
      rw [haddr]
      refine ih hnext ?_
      have := Nat.two_pow_pos k
      simp only [freeOnePage,hkept.nrPages]
      omega
    · rename_i hge
      refine ⟨s,rfl,h.done ?_⟩
      rw [hend] at hge; simp only [pgSize] at hge; omega

theorem memProbeTop_spec (top : Nat) :
    memProbeTop top % pgSize = 0 ∧ memProbeTop top ≤ physmemTopMax := by
  have hmod := pgRoundDown_mod top
  simp only [memProbeTop]
  split
  · exact ⟨by decide,le_rfl⟩
  · rename_i hle
    exact ⟨hmod,Nat.le_of_not_lt hle⟩

theorem pmmInit_booted {kernelEnd top : Nat}
    (h : pmmInit kernelEnd (memProbeTop top) = some s) : Booted s := by
  obtain ⟨hal,hmax⟩ := memProbeTop_spec top
  have hb := pgRoundUp_mod kernelEnd
  simp only [pmmInit] at h
  generalize memProbeTop top = physmemTop at *
  generalize pgRoundUp kernelEnd = base at *
  split at h
  · cases h
  rename_i hbase
  have hm := pgRoundUp_mod ((physmemTop - base) / pgSize * sizeofPage)
  have hsmall : pgRoundUp ((physmemTop - base) / pgSize * sizeofPage) ≤ 2 ^ 24 := by
    simp only [pgRoundUp,pgSize,word,sizeofPage,physmemTopMax] at *
    omega
  generalize pgRoundUp ((physmemTop - base) / pgSize * sizeofPage) = mapBytes at *
  split at h
  · cases h
  split at h
  · cases h
  rename_i hfit hnr
  simp only [pgSize,word,physmemTopMax] at *
  have hend : physmemTop = base + mapBytes +
      (physmemTop - (base + mapBytes)) / 4096 * 4096 := by omega
  have hstart : Booting
      { memStart := base + mapBytes, memEnd := physmemTop
        nrPages := (physmemTop - (base + mapBytes)) / 4096
        order := fun _ => none, refcount := fun _ => 0, freeList := fun _ => []
        areaNrFree := fun _ => 0, nrFree := 0, live := [], user := fun _ => false
        failed := 0 } 0 := by
    refine ⟨⟨?_,by simp,by simp,fun p hp => .inl ⟨Nat.zero_le _,hp⟩,?_,?_,?_,by simp,
      by simp [freePageCount],by simp⟩,fun _ _ _ => rfl,Nat.zero_le _,rfl,fun _ => rfl,rfl,?_,?_,?_⟩
    · intro t b hb; cases t <;> simp [Pmm.Holds] at hb
    · intro t b p hb; cases t <;> simp [Pmm.Holds] at hb
    · intro t t' b b' p hb; cases t <;> simp [Pmm.Holds] at hb
    · intro t b hb; cases t <;> simp [Pmm.Holds] at hb
    · simp only [pgSize]; omega
    · simpa only [pgSize] using hend
    · simpa only [physmemTopMax] using hmax
  obtain ⟨s',hs',hbooted⟩ := initLoop_booted ((physmemTop - (base + mapBytes)) / 4096 + 1) hstart
    (by simp only; omega)
  simp only [zero_mul,add_zero] at hs'
  rw [hs'] at h
  cases h
  exact hbooted

inductive Op where
  | allocPages (order : Nat)
  | freePages (addr order : Nat)
  | getPage (addr : Nat)
  | putPage (addr : Nat)
  deriving DecidableEq, Repr

def liveAt (s : Pmm) (addr order : Nat) : Bool :=
  match addrToPage s addr with
  | none => false
  | some page => decide ((⟨page,order⟩ : Block) ∈ s.live)

def Op.legal (s : Pmm) : Op → Bool
  | .allocPages _ => true
  | .freePages addr order => liveAt s addr order
  | .getPage addr => liveAt s addr 0
  | .putPage addr => liveAt s addr 0

def step (s : Pmm) : Op → Option Pmm
  | .allocPages order => some (allocPages s order).1
  | .freePages addr order => (addrToPage s addr).bind (freePages s · order)
  | .getPage addr => (addrToPage s addr).bind (getPage s)
  | .putPage addr => (addrToPage s addr).bind (putPage s)

def Next (s : Pmm) (op : Op) (s' : Pmm) : Prop := op.legal s = true ∧ step s op = some s'

theorem liveAt_spec {addr order : Nat} (h : liveAt s addr order = true) :
    ∃ page, addrToPage s addr = some page ∧ (⟨page,order⟩ : Block) ∈ s.live := by
  simp only [liveAt] at h
  split at h
  · cases h
  · exact ⟨_,‹_›,of_decide_eq_true h⟩

theorem next_wf {s' : Pmm} {op : Op} (h : s.Wf) (hn : Next s op s') : s'.Wf := by
  obtain ⟨hl,hs⟩ := hn
  cases op with
  | allocPages order =>
    simp only [step,Option.some.injEq] at hs
    subst hs
    rcases ha : allocPages s order with ⟨t,_ | page⟩
    · rw [allocPages_none ha]
      exact h.setHistory s.refcount s.user _
    · exact (allocPages_some h ha).wf
  | freePages addr order =>
    obtain ⟨page,hp,hm⟩ := liveAt_spec hl
    simp only [step,hp,bind_some,freePages] at hs
    split at hs
    · cases hs
    split at hs
    · rename_i h0
      subst h0
      exact putPage_wf h hm hs
    · cases hs
      exact h.release hm
  | getPage addr =>
    obtain ⟨page,hp,hm⟩ := liveAt_spec hl
    rw [step,hp,bind_some,getPage_some h hm] at hs
    cases hs
    exact h.setHistory _ s.user s.failed
  | putPage addr =>
    obtain ⟨page,hp,hm⟩ := liveAt_spec hl
    rw [step,hp,bind_some] at hs
    exact putPage_wf h hm hs

structure Partition (s : Pmm) : Prop where
  freeInRange : ∀ k, ∀ i ∈ s.freeList k, k < maxOrder ∧ 2 ^ k ∣ i ∧ i + 2 ^ k ≤ s.nrPages
  liveInRange : ∀ b ∈ s.live, b.start + 2 ^ b.order ≤ s.nrPages
  listNodup : ∀ k, (s.freeList k).Nodup
  liveNodup : s.live.Nodup
  freeDisjoint : ∀ b c : Block, b.start ∈ s.freeList b.order → c.start ∈ s.freeList c.order →
    b ≠ c → ∀ p, ¬ (b.Covers p ∧ c.Covers p)
  liveDisjoint : ∀ b ∈ s.live, ∀ c ∈ s.live, b ≠ c → ∀ p, ¬ (b.Covers p ∧ c.Covers p)
  freeLiveDisjoint : ∀ b : Block, b.start ∈ s.freeList b.order → ∀ c ∈ s.live,
    ∀ p, ¬ (b.Covers p ∧ c.Covers p)
  nothingLost : ∀ p < s.nrPages, s.Free p ∨ ∃ b ∈ s.live, b.Covers p
  areaCount : ∀ k, s.areaNrFree k = (s.freeList k).length
  pageCount : s.nrFree = Set.ncard {p | s.Free p}
  noFreeBuddies : ∀ k, k < maxOrder - 1 → ∀ i ∈ s.freeList k, i ^^^ 2 ^ k ∉ s.freeList k

def freePageSet (s : Pmm) : Finset Nat := (Finset.range maxOrder).biUnion fun k =>
    (s.freeList k).toFinset.biUnion fun i => Finset.Ico i (i + 2 ^ k)

theorem Pmm.Wf.mem_freePageSet (h : s.Wf) {p : Nat} : p ∈ freePageSet s ↔ s.Free p := by
  simp only [freePageSet,Finset.mem_biUnion,Finset.mem_range,List.mem_toFinset,Finset.mem_Ico]
  constructor
  · rintro ⟨k,-,i,hi,hp⟩
    exact ⟨⟨i,k⟩,hi,hp⟩
  · rintro ⟨b,hb,hp⟩
    exact ⟨b.order,(h.tiling.inRange true b hb).order,b.start,hb,hp⟩

theorem Pmm.Wf.card_freePageSet (h : s.Wf) : (freePageSet s).card = freePageCount s := by
  have hdisj : ∀ b c : Block, b.start ∈ s.freeList b.order → c.start ∈ s.freeList c.order →
      b ≠ c → Disjoint (Finset.Ico b.start (b.start + 2 ^ b.order))
        (Finset.Ico c.start (c.start + 2 ^ c.order)) := by
    intro b c hb hc hne
    refine Finset.disjoint_left.mpr fun p hpb hpc => hne ?_
    exact (h.tiling.unique true true b c p hb hc (Finset.mem_Ico.mp hpb) (Finset.mem_Ico.mp hpc)).2
  rw [freePageSet,Finset.card_biUnion]
  · refine Finset.sum_congr rfl fun k _ => ?_
    rw [Finset.card_biUnion]
    · simp [toFinset_card_of_nodup (h.tiling.nodup k),Nat.mul_comm]
    · intro i hi j hj hne
      exact hdisj ⟨i,k⟩ ⟨j,k⟩ (List.mem_toFinset.mp hi) (List.mem_toFinset.mp hj)
        (fun he => hne (congrArg Block.start he))
  · intro k _ m _ hne
    simp only [onFun,Finset.disjoint_biUnion_left,Finset.disjoint_biUnion_right]
    intro j hj i hi
    exact hdisj ⟨i,k⟩ ⟨j,m⟩ (List.mem_toFinset.mp hi) (List.mem_toFinset.mp hj)
      (fun he => hne (congrArg Block.order he))

theorem Pmm.Wf.partition (h : s.Wf) : Partition s := by
  have ht := h.tiling
  refine ⟨?_,fun b hb => (h.inRange_live hb).fits,ht.nodup,ht.liveNodup,?_,?_,?_,
    fun p hp => h.free_or_live hp,ht.areaCount,?_,fun k hk i hi => ht.apart k i hk hi⟩
  · intro k i hi
    have hr := ht.inRange true ⟨i,k⟩ hi
    exact ⟨hr.order,hr.aligned,hr.fits⟩
  · rintro b c hb hc hne p ⟨hpb,hpc⟩
    exact hne (ht.unique true true b c p hb hc hpb hpc).2
  · rintro b hb c hc hne p ⟨hpb,hpc⟩
    exact hne (h.live_unique hb hc hpb hpc)
  · rintro b hb c hc p ⟨hpb,hpc⟩
    exact h.not_free_of_live hc hpc ⟨b,hb,hpb⟩
  · rw [ht.pageCount,← h.card_freePageSet,← Set.ncard_coe_finset]
    congr 1
    ext p
    simp [h.mem_freePageSet]

theorem buddy_partition (kernelEnd top : Nat) (s s' : Pmm) (ops : List Op)
    (hinit : pmmInit kernelEnd (memProbeTop top) = some s)
    (hrun : Transition.Run Next s ops s') : Partition s' := by
  have hwf : s'.Wf := hrun.invariant (fun _ _ _ hs hn => next_wf hs hn) (pmmInit_booted hinit).wf
  exact hwf.partition

def call (s : Pmm) (op : Op) : Option (Pmm × Unit) :=
  if op.legal s then (step s op).map fun t => (t,()) else none

theorem call_next {op : Op} {t : Pmm} {o : Unit} (h : call s op = some (t,o)) : Next s op t := by
  obtain ⟨hlegal,h⟩ := ite_none_right_eq_some.mp h
  obtain ⟨u,hu,he⟩ := map_eq_some_iff.mp h
  cases he
  exact ⟨hlegal,hu⟩

theorem buddy_partition_eight_pages : ∃ s s', pmmInit 0x102000 (memProbeTop 0x10b800) = some s ∧
      Transition.Run Next s [.allocPages 1,.allocPages 0,.getPage 0x105000,.putPage 0x105000,
        .freePages 0x103000 1] s' ∧ Partition s' := by
  have h : ((pmmInit 0x102000 (memProbeTop 0x10b800)).bind (Machine.run call · [.allocPages 1,
      .allocPages 0,.getPage 0x105000,.putPage 0x105000,.freePages 0x103000 1])).isSome := by
    decide +kernel
  obtain ⟨⟨s',out⟩,hs'⟩ := isSome_iff_exists.mp h
  obtain ⟨s,hs,hops⟩ := bind_eq_some_iff.mp hs'
  have hrun := Transition.Run.of_run (fun _ _ _ _ => call_next) hops
  exact ⟨s,s',hs,hrun,buddy_partition _ _ s s' _ hs hrun⟩

end TinyOs.Buddy
