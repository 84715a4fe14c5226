import TinyOs.Library.Count
import TinyOs.Mm.Buddy

namespace TinyOs.Buddy

open Function (update update_of_ne update_self)
open Dyadic List

def Pmm.Holds (s : Pmm) : Bool → Block → Prop
  | true, b => b.start ∈ s.freeList b.order
  | false, b => b ∈ s.live

def Pmm.Free (s : Pmm) (p : Nat) : Prop := ∃ b : Block, b.start ∈ s.freeList b.order ∧ b.Covers p

def freePageCount (s : Pmm) : Nat := ∑ k ∈ Finset.range maxOrder, 2 ^ k * (s.freeList k).length

structure InRange (s : Pmm) (b : Block) : Prop where
  order : b.order < maxOrder
  aligned : b.Aligned
  fits : b.start + 2 ^ b.order ≤ s.nrPages

structure Tiling (s : Pmm) (U : Nat → Prop) : Prop where
  inRange : ∀ t b, s.Holds t b → InRange s b
  nodup : ∀ k, (s.freeList k).Nodup
  liveNodup : s.live.Nodup
  cover : ∀ p < s.nrPages, U p ∨ ∃ t b, s.Holds t b ∧ b.Covers p
  vacant : ∀ t b p, s.Holds t b → b.Covers p → ¬ U p
  unique : ∀ t t' b b' p, s.Holds t b → s.Holds t' b' → b.Covers p → b'.Covers p →
    t = t' ∧ b = b'
  mark : ∀ t b, s.Holds t b → s.order b.start = if t then some b.order else none
  areaCount : ∀ k, s.areaNrFree k = (s.freeList k).length
  pageCount : s.nrFree = freePageCount s
  apart : ∀ k i, k < maxOrder - 1 → i ∈ s.freeList k → i ^^^ 2 ^ k ∉ s.freeList k

variable {s s' : Pmm} {U V : Nat → Prop} {b : Block}

theorem Tiling.congr (h : Tiling s U) (hUV : ∀ p, U p ↔ V p) : Tiling s V := by
  have : U = V := funext fun p => propext (hUV p)
  rwa [← this]

theorem InRange.lt (h : InRange s b) {p : Nat} (hp : b.Covers p) : p < s.nrPages :=
  lt_of_lt_of_le hp.2 h.fits

theorem holds_freeAreaAdd {i k : Nat} {t : Bool} :
    (freeAreaAdd s i k).Holds t b ↔ s.Holds t b ∨ (t = true ∧ b = ⟨i,k⟩) := by
  cases t with
  | false => simp [Pmm.Holds,freeAreaAdd]
  | true =>
    obtain ⟨j,m⟩ := b
    by_cases hm : m = k
    · subst hm; simp [Pmm.Holds,freeAreaAdd]
    · simp [Pmm.Holds,freeAreaAdd,hm]

theorem holds_freeAreaDel {i k : Nat} {t : Bool} (hn : (s.freeList k).Nodup) :
    (freeAreaDel s i k).Holds t b ↔ s.Holds t b ∧ ¬ (t = true ∧ b = ⟨i,k⟩) := by
  cases t with
  | false => simp [Pmm.Holds,freeAreaDel]
  | true =>
    obtain ⟨j,m⟩ := b
    by_cases hm : m = k
    · subst hm
      simp [Pmm.Holds,freeAreaDel,hn.mem_erase_iff,and_comm]
    · simp [Pmm.Holds,freeAreaDel,hm]

theorem freePageCount_update (s s' : Pmm) {k : Nat} (hk : k < maxOrder) (l : List Nat)
    (h : s'.freeList = update s.freeList k l) :
    freePageCount s' + 2 ^ k * (s.freeList k).length = freePageCount s + 2 ^ k * l.length := by
  simp only [freePageCount,h]
  exact Count.sum_update_add _ (fun k l => 2 ^ k * List.length l) s.freeList
    (Finset.mem_range.mpr hk) l

structure Listed (s : Pmm) : Prop where
  nodup : ∀ k, (s.freeList k).Nodup
  liveNodup : s.live.Nodup
  areaCount : ∀ k, s.areaNrFree k = (s.freeList k).length
  pageCount : s.nrFree = freePageCount s
  apart : ∀ k i, k < maxOrder - 1 → i ∈ s.freeList k → i ^^^ 2 ^ k ∉ s.freeList k

theorem Tiling.fresh (h : Tiling s U) (hU : ∀ p, b.Covers p → U p) (t : Bool) (c : Block) (p : Nat)
    (hc : s.Holds t c) (hp : c.Covers p) : ¬ b.Covers p := fun hbp =>
  h.vacant t c p hc hp (hU p hbp)

theorem Tiling.insert {w : Bool} (h : Tiling s U) (hb : InRange s b) (hU : ∀ p, b.Covers p → U p)
    (hpages : s'.nrPages = s.nrPages)
    (holds : ∀ t c, s'.Holds t c ↔ s.Holds t c ∨ (t = w ∧ c = b))
    (horder : s'.order = update s.order b.start (if w then some b.order else none))
    (hl : Listed s') : Tiling s' (fun p => U p ∧ ¬ b.Covers p) := by
  have hfresh := h.fresh hU
  refine ⟨?_,hl.nodup,hl.liveNodup,?_,?_,?_,?_,hl.areaCount,hl.pageCount,hl.apart⟩
  · intro t c hc
    have hr : InRange s c := by
      rcases (holds t c).mp hc with hc | ⟨_,rfl⟩
      · exact h.inRange t c hc
      · exact hb
    exact ⟨hr.order,hr.aligned,hpages ▸ hr.fits⟩
  · intro p hp
    rcases h.cover p (hpages ▸ hp) with hu | ⟨t,c,hc,hcp⟩
    · by_cases hbp : b.Covers p
      · exact .inr ⟨w,b,(holds _ _).mpr (.inr ⟨rfl,rfl⟩),hbp⟩
      · exact .inl ⟨hu,hbp⟩
    · exact .inr ⟨t,c,(holds _ _).mpr (.inl hc),hcp⟩
  · intro t c p hc hcp hu
    rcases (holds t c).mp hc with hc | ⟨_,rfl⟩
    · exact h.vacant t c p hc hcp hu.1
    · exact hu.2 hcp
  · intro t t' c c' p hc hc' hp hp'
    rcases (holds t c).mp hc with hold | ⟨rfl,rfl⟩ <;>
      rcases (holds t' c').mp hc' with hold' | ⟨rfl,rfl⟩
    · exact h.unique t t' c c' p hold hold' hp hp'
    · exact absurd hp' (hfresh t c p hold hp)
    · exact absurd hp (hfresh t' c' p hold' hp')
    · exact ⟨rfl,rfl⟩
  · intro t c hc
    rw [horder]
    rcases (holds t c).mp hc with hc | ⟨rfl,rfl⟩
    · have hne : c.start ≠ b.start := fun he =>
        hfresh t c c.start hc c.covers_start (he ▸ b.covers_start)
      rw [update_of_ne hne,h.mark t c hc]
    · rw [update_self]

theorem Tiling.remove {w : Bool} (h : Tiling s U) (hb : s.Holds w b)
    (hpages : s'.nrPages = s.nrPages)
    (holds : ∀ t c, s'.Holds t c ↔ s.Holds t c ∧ ¬ (t = w ∧ c = b)) (horder : s'.order = s.order)
    (hl : Listed s') : Tiling s' (fun p => U p ∨ b.Covers p) := by
  refine ⟨?_,hl.nodup,hl.liveNodup,?_,?_,?_,?_,hl.areaCount,hl.pageCount,hl.apart⟩
  · intro t c hc
    have hr := h.inRange t c ((holds t c).mp hc).1
    exact ⟨hr.order,hr.aligned,hpages ▸ hr.fits⟩
  · intro p hp
    rcases h.cover p (hpages ▸ hp) with hu | ⟨t,c,hc,hcp⟩
    · exact .inl (.inl hu)
    by_cases he : t = w ∧ c = b
    · exact .inl (.inr (he.2 ▸ hcp))
    · exact .inr ⟨t,c,(holds t c).mpr ⟨hc,he⟩,hcp⟩
  · rintro t c p hc hcp (hu | hbp)
    · exact h.vacant t c p ((holds t c).mp hc).1 hcp hu
    · have hc' := (holds t c).mp hc
      exact hc'.2 (h.unique t w c b p hc'.1 hb hcp hbp)
  · intro t t' c c' p hc hc' hp hp'
    exact h.unique t t' c c' p ((holds t c).mp hc).1 ((holds t' c').mp hc').1 hp hp'
  · intro t c hc
    rw [horder]
    exact h.mark t c ((holds t c).mp hc).1

theorem Tiling.freeAreaAdd (h : Tiling s U) (hb : InRange s b) (hU : ∀ p, b.Covers p → U p)
    (hbuddy : b.order < maxOrder - 1 → b.start ^^^ 2 ^ b.order ∉ s.freeList b.order) :
    Tiling (freeAreaAdd s b.start b.order) (fun p => U p ∧ ¬ b.Covers p) := by
  have hnot : b.start ∉ s.freeList b.order := fun hm =>
    h.fresh hU true b b.start hm b.covers_start b.covers_start
  refine h.insert (w := true) hb hU rfl (fun t c => holds_freeAreaAdd) rfl
    ⟨?_,h.liveNodup,?_,?_,?_⟩
  · intro k
    by_cases hk : k = b.order
    · subst hk
      simp only [Buddy.freeAreaAdd,update_self]
      exact (h.nodup _).append (nodup_singleton _) (by simpa using hnot)
    · simpa [Buddy.freeAreaAdd,update_of_ne hk] using h.nodup k
  · intro k
    by_cases hk : k = b.order
    · subst hk; simp [Buddy.freeAreaAdd,h.areaCount]
    · simpa [Buddy.freeAreaAdd,update_of_ne hk] using h.areaCount k
  · have hc := freePageCount_update s (Buddy.freeAreaAdd s b.start b.order) hb.order _ rfl
    simp only [length_append,length_singleton,Nat.mul_add,Nat.mul_one] at hc
    have := h.pageCount
    simp only [Buddy.freeAreaAdd] at hc ⊢
    omega
  · intro k i hk hi
    by_cases hkb : k = b.order
    · subst hkb
      simp only [Buddy.freeAreaAdd,update_self,mem_append,mem_singleton,not_or] at hi ⊢
      rcases hi with hi | rfl
      · refine ⟨h.apart _ i hk hi,fun he => hbuddy hk ?_⟩
        rw [← he,Nat.xor_assoc,Nat.xor_self,Nat.xor_zero]
        exact hi
      · refine ⟨hbuddy hk,fun he => ?_⟩
        have hpos := Nat.two_pow_pos b.order
        rcases xor_two_pow_cases hb.aligned with ⟨_,hx⟩ | ⟨_,_,hx⟩ <;> omega
    · simp only [Buddy.freeAreaAdd,update_of_ne hkb] at hi ⊢
      exact h.apart k i hk hi

theorem Tiling.freeAreaDel (h : Tiling s U) (hb : b.start ∈ s.freeList b.order) :
    Tiling (freeAreaDel s b.start b.order) (fun p => U p ∨ b.Covers p) := by
  have hlen := length_pos_of_mem hb
  have hbr := h.inRange true b hb
  refine h.remove (w := true) hb rfl (fun t c => holds_freeAreaDel (h.nodup b.order)) rfl
    ⟨?_,h.liveNodup,?_,?_,?_⟩
  · intro k
    by_cases hk : k = b.order
    · subst hk
      simpa [Buddy.freeAreaDel] using (h.nodup b.order).erase b.start
    · simpa [Buddy.freeAreaDel,update_of_ne hk] using h.nodup k
  · intro k
    by_cases hk : k = b.order
    · subst hk
      simp [Buddy.freeAreaDel,length_erase_of_mem hb,h.areaCount]
    · simpa [Buddy.freeAreaDel,update_of_ne hk] using h.areaCount k
  · have hc := freePageCount_update s (Buddy.freeAreaDel s b.start b.order) hbr.order _ rfl
    rw [length_erase_of_mem hb,Nat.mul_sub,Nat.mul_one] at hc
    have hle : 2 ^ b.order ≤ 2 ^ b.order * (s.freeList b.order).length :=
      Nat.le_mul_of_pos_right _ hlen
    have := h.pageCount
    simp only [Buddy.freeAreaDel] at hc ⊢
    omega
  · intro k i hk hi
    by_cases hkb : k = b.order
    · subst hkb
      simp only [Buddy.freeAreaDel,update_self] at hi ⊢
      exact fun hx => h.apart _ i hk (mem_of_mem_erase hi) (mem_of_mem_erase hx)
    · simp only [Buddy.freeAreaDel,update_of_ne hkb] at hi ⊢
      exact h.apart k i hk hi

theorem Tiling.setHistory (h : Tiling s U) (r : Nat → Nat) (u : Nat → Bool) (f : Nat) :
    Tiling { s with refcount := r, user := u, failed := f } U := by
  refine ⟨?_,h.nodup,h.liveNodup,?_,?_,?_,?_,h.areaCount,h.pageCount,h.apart⟩
  · intro t b hb
    have hr := h.inRange t b (by cases t <;> exact hb)
    exact ⟨hr.order,hr.aligned,hr.fits⟩
  · intro p hp
    rcases h.cover p hp with hu | ⟨t,b,hb,hbp⟩
    · exact .inl hu
    · exact .inr ⟨t,b,by cases t <;> exact hb,hbp⟩
  · intro t b p hb
    exact h.vacant t b p (by cases t <;> exact hb)
  · intro t t' b b' p hb hb'
    exact h.unique t t' b b' p (by cases t <;> exact hb) (by cases t' <;> exact hb')
  · intro t b hb
    exact h.mark t b (by cases t <;> exact hb)

theorem Tiling.takePage (h : Tiling s U) (hb : InRange s b) (hU : ∀ p, b.Covers p → U p) :
    Tiling (takePage s b.start b.order) (fun p => U p ∧ ¬ b.Covers p) := by
  have holds : ∀ t c, (Buddy.takePage s b.start b.order).Holds t c ↔
      s.Holds t c ∨ (t = false ∧ c = b) := by
    intro t c
    cases t with
    | true => simp [Pmm.Holds,Buddy.takePage]
    | false =>
      change c ∈ b :: s.live ↔ c ∈ s.live ∨ (false = false ∧ c = b)
      rw [mem_cons,or_comm]
      simp
  refine h.insert hb hU rfl holds rfl ⟨h.nodup,nodup_cons.mpr ⟨fun hm => ?_,h.liveNodup⟩,
    h.areaCount,h.pageCount,h.apart⟩
  exact h.fresh hU false b b.start hm b.covers_start b.covers_start

theorem Tiling.dropLive (h : Tiling s U) (hb : b ∈ s.live) :
    Tiling (dropLive s b.start b.order) (fun p => U p ∨ b.Covers p) := by
  have holds : ∀ t c, (Buddy.dropLive s b.start b.order).Holds t c ↔
      s.Holds t c ∧ ¬ (t = false ∧ c = b) := by
    intro t c
    cases t with
    | true => simp [Pmm.Holds,Buddy.dropLive]
    | false =>
      change c ∈ s.live.erase b ↔ c ∈ s.live ∧ ¬ (false = false ∧ c = b)
      rw [h.liveNodup.mem_erase_iff,and_comm]
      simp
  exact h.remove (w := false) hb rfl holds rfl
    ⟨h.nodup,h.liveNodup.erase _,h.areaCount,h.pageCount,h.apart⟩

end TinyOs.Buddy
