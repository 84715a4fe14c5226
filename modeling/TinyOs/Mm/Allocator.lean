import TinyOs.Mm.Tiling

namespace TinyOs.Buddy

open Dyadic

variable {s : Pmm} {order p : Nat} {b : Block}

theorem Tiling.buddy_free_of_mark {U : Nat → Prop} (h : Tiling s U) {cur : Block}
    (hcur : InRange s cur) (hU : ∀ p, cur.Covers p → U p)
    (hrest : ∀ p < s.nrPages, U p → ¬ cur.Covers p → s.order p = none)
    (hlt : cur.buddy.start < s.nrPages) (hmark : s.order cur.buddy.start = some cur.order) :
    cur.buddy.start ∈ s.freeList cur.order := by
  have hsep := Block.not_covers_of_buddy hcur.aligned cur.buddy.covers_start
  rcases h.cover _ hlt with hu | ⟨t,c,hc,hcb⟩
  · rw [hrest _ hlt hu hsep] at hmark
    cases hmark
  have hcr := h.inRange t c hc
  have hle : c.order ≤ cur.order := by
    by_contra hgt
    have hpar : c.Covers cur.start :=
      cur.parent_aligned.covers_of_covers hcr.aligned (by simp only [Block.parent]; omega)
        ((Block.parent_covers_iff hcur.aligned _).mpr (.inr cur.buddy.covers_start)) hcb
        ((Block.parent_covers_iff hcur.aligned _).mpr (.inl cur.covers_start))
    exact h.vacant t c _ hc hpar (hU _ cur.covers_start)
  have hstart := hcr.aligned.start_eq_of_dvd hle (Block.buddy_aligned hcur.aligned) hcb
  have hm := h.mark t c hc
  rw [hstart,hmark] at hm
  cases t with
  | false => simp at hm
  | true =>
    have ho : cur.order = c.order := by simpa using hm
    have hfree : c.start ∈ s.freeList c.order := hc
    rwa [hstart,← ho] at hfree

theorem pageBuddy_eq_some {page buddy : Nat}
    (h : pageBuddy s page order = some buddy) : buddy = page ^^^ 2 ^ order ∧ buddy < s.nrPages := by
  obtain ⟨hlt,h⟩ := Option.ite_none_left_eq_some.mp h
  simp only [Option.some.injEq] at h
  exact ⟨h.symm,h ▸ Nat.lt_of_not_le hlt⟩

theorem Tiling.mergeLoop (fuel : Nat) :
    ∀ {s : Pmm} {U : Nat → Prop} (cur : Block), Tiling s U → s.nrPages ≤ word → InRange s cur →
      (∀ p, cur.Covers p → U p) →
      (∀ p < s.nrPages, U p → ¬ cur.Covers p → s.order p = none) →
      maxOrder ≤ cur.order + fuel + 1 →
      Tiling (mergeLoop fuel s cur.start cur.order) (fun p => U p ∧ ¬ cur.Covers p) ∧
        ∀ p, U p → ¬ cur.Covers p → (mergeLoop fuel s cur.start cur.order).order p = s.order p := by
  have hadd : ∀ {s : Pmm} {U : Nat → Prop} {cur : Block}, Tiling s U → InRange s cur →
      (∀ p, cur.Covers p → U p) →
      (cur.order < maxOrder - 1 → cur.start ^^^ 2 ^ cur.order ∉ s.freeList cur.order) →
      Tiling (Buddy.freeAreaAdd s cur.start cur.order) (fun p => U p ∧ ¬ cur.Covers p) ∧
        ∀ p, U p → ¬ cur.Covers p →
          (Buddy.freeAreaAdd s cur.start cur.order).order p = s.order p := by
    intro s U cur h hcur hU hno
    refine ⟨h.freeAreaAdd hcur hU hno,fun p _ hp => ?_⟩
    have hne : p ≠ cur.start := fun he => hp (he ▸ cur.covers_start)
    simp [Buddy.freeAreaAdd,Function.update_of_ne hne]
  induction fuel with
  | zero =>
    intro s U cur h _ hcur hU _ hfuel
    exact hadd h hcur hU (by simp only [maxOrder] at *; omega)
  | succ fuel ih =>
    intro s U cur h hw hcur hU hrest hfuel
    simp only [Buddy.mergeLoop]
    split
    · split
      · rename_i hnone
        refine hadd h hcur hU fun _ hm => ?_
        have hin := (h.inRange true cur.buddy hm).lt cur.buddy.covers_start
        simp only [pageBuddy,ite_eq_left_iff,reduceCtorEq,imp_false,not_not] at hnone
        exact absurd hin (not_lt.mpr hnone)
      rename_i buddy hsome
      obtain ⟨rfl,hlt⟩ := pageBuddy_eq_some hsome
      split
      · rename_i hmark
        have hfree := h.buddy_free_of_mark hcur hU hrest hlt hmark
        have hpar : ∀ p, cur.parent.Covers p ↔ cur.Covers p ∨ cur.buddy.Covers p :=
          Block.parent_covers_iff hcur.aligned
        have hbr := h.inRange true cur.buddy hfree
        have hdel := h.freeAreaDel (b := cur.buddy) hfree
        have hfits : cur.parent.start + 2 ^ cur.parent.order ≤ s.nrPages := by
          have hpow : 2 ^ cur.parent.order = 2 * 2 ^ cur.order := by
            simp only [Block.parent]; ring
          have h1 := hcur.fits
          have h2 : cur.buddy.start + 2 ^ cur.order ≤ s.nrPages := hbr.fits
          rw [hpow]
          rcases Block.parent_start_cases hcur.aligned with ⟨hs,hb⟩ | ⟨hle,hs,hb⟩ <;> omega
        have hstart : cur.start < 2 ^ 32 := lt_of_lt_of_le (hcur.lt cur.covers_start) hw
        rw [Block.and_complement_start hcur.aligned hstart]
        have hstep := ih (s := Buddy.freeAreaDel s cur.buddy.start cur.order) cur.parent hdel hw
          ⟨by simp only [Block.parent,maxOrder] at *; omega,cur.parent_aligned,hfits⟩
          (fun p hp => ((hpar p).mp hp).imp (hU p) id)
          (fun p hp hup hnp => by
            rw [hpar,not_or] at hnp
            exact hrest p hp (hup.resolve_right hnp.2) hnp.1)
          (by simp only [Block.parent]; omega)
        refine ⟨hstep.1.congr fun p => ?_,fun p hu hp => ?_⟩
        · rw [hpar,not_or]
          constructor
          · rintro ⟨hu | hb,hc,hnb⟩
            · exact ⟨hu,hc⟩
            · exact absurd hb hnb
          · rintro ⟨hu,hc⟩
            exact ⟨.inl hu,hc,fun hb => h.vacant true cur.buddy p hfree hb hu⟩
        · refine hstep.2 p (.inl hu) ?_
          rw [hpar,not_or]
          exact ⟨hp,fun hb => h.vacant true cur.buddy p hfree hb hu⟩
      · rename_i hmark
        exact hadd h hcur hU fun _ hm => hmark ((h.mark true cur.buddy hm).trans (if_pos rfl))
    · rename_i hge
      exact hadd h hcur hU fun hlt => absurd hlt hge

structure Kept (s s' : Pmm) : Prop where
  nrPages : s'.nrPages = s.nrPages
  memStart : s'.memStart = s.memStart
  memEnd : s'.memEnd = s.memEnd
  refcount : s'.refcount = s.refcount
  live : s'.live = s.live
  user : s'.user = s.user
  failed : s'.failed = s.failed

theorem Kept.refl (s : Pmm) : Kept s s := ⟨rfl,rfl,rfl,rfl,rfl,rfl,rfl⟩

theorem mergeLoop_kept (fuel : Nat) : ∀ (s : Pmm) (idx order : Nat),
    Kept s (mergeLoop fuel s idx order) := by
  have hadd : ∀ (s : Pmm) (idx order : Nat), Kept s (freeAreaAdd s idx order) :=
    fun s idx order => ⟨rfl,rfl,rfl,rfl,rfl,rfl,rfl⟩
  induction fuel with
  | zero => exact hadd
  | succ fuel ih =>
    intro s idx order
    simp only [mergeLoop]
    split
    · split
      · exact hadd _ _ _
      split
      · have h := ih (freeAreaDel s ‹Nat› order) (idx &&& (2 ^ 32 - (2 ^ order + 1))) (order + 1)
        exact ⟨h.nrPages,h.memStart,h.memEnd,h.refcount,h.live,h.user,h.failed⟩
      · exact hadd _ _ _
    · exact hadd _ _ _

theorem Tiling.splitLoop (n : Nat) : ∀ {s : Pmm} {U : Nat → Prop} (page order : Nat),
    Tiling s U → InRange s ⟨page,order + n⟩ → (∀ p, (Block.mk page (order + n)).Covers p → U p) →
      Tiling (splitLoop n s page order)
        (fun p => U p ∧ ((Block.mk page (order + n)).Covers p → (Block.mk page order).Covers p)) := by
  induction n with
  | zero =>
    intro s U page order h _ _
    exact h.congr fun p => by simp
  | succ n ih =>
    intro s U page order h hr hU
    have hpow : 2 ^ (order + (n + 1)) = 2 * 2 ^ (order + n) := by ring
    have hdvd : 2 ^ (order + (n + 1)) ∣ page := hr.aligned
    have hdvd' : 2 ^ (order + n) ∣ page := dvd_trans ⟨2,by rw [hpow]; ring⟩ hdvd
    have hfits : page + 2 ^ (order + (n + 1)) ≤ s.nrPages := hr.fits
    have hlow := hr.order
    have hhi : InRange s ⟨page + 2 ^ (order + n),order + n⟩ :=
      ⟨by simp only [maxOrder] at *; omega,Nat.dvd_add hdvd' (dvd_refl _),by
        simp only; omega⟩
    have hxor : (page + 2 ^ (order + n)) ^^^ 2 ^ (order + n) = page := by
      rcases xor_two_pow_cases hdvd' with ⟨_,hx⟩ | ⟨hle,⟨r,hr'⟩,_⟩
      · rw [← hx,Nat.xor_assoc,Nat.xor_self,Nat.xor_zero]
      exfalso
      obtain ⟨q,hq⟩ := hdvd
      have hp2 : 2 ^ (order + n + 1) = 2 * 2 ^ (order + n) := by ring
      rw [hpow] at hq
      rw [hp2] at hr'
      have hpos := Nat.two_pow_pos (order + n)
      have he : 2 ^ (order + n) * (2 * r + 1) = 2 ^ (order + n) * (2 * q) := by
        have e1 : 2 * 2 ^ (order + n) * r = 2 ^ (order + n) * (2 * r) := by ring
        have e2 : 2 * 2 ^ (order + n) * q = 2 ^ (order + n) * (2 * q) := by ring
        rw [Nat.mul_add,Nat.mul_one]
        omega
      have := Nat.eq_of_mul_eq_mul_left hpos he
      omega
    have hno : order + n < maxOrder - 1 →
        (page + 2 ^ (order + n)) ^^^ 2 ^ (order + n) ∉ s.freeList (order + n) := by
      intro _ hm
      rw [hxor] at hm
      refine h.vacant true ⟨page,order + n⟩ page hm ⟨le_rfl,?_⟩ (hU page ⟨le_rfl,?_⟩)
      · exact Nat.lt_add_of_pos_right (Nat.two_pow_pos _)
      · exact Nat.lt_add_of_pos_right (Nat.two_pow_pos _)
    have hadd := h.freeAreaAdd hhi (fun p hp => hU p (by
      simp only [Block.Covers] at hp ⊢; omega)) hno
    have hlo : InRange (Buddy.freeAreaAdd s (page + 2 ^ (order + n)) (order + n))
        ⟨page,order + n⟩ :=
      ⟨by simp only [maxOrder] at *; omega,hdvd',by
        simp only [Buddy.freeAreaAdd]; omega⟩
    have hrec := ih page order hadd hlo (fun p hp => ⟨hU p (by
      simp only [Block.Covers] at hp ⊢; omega),by
      simp only [Block.Covers] at hp ⊢; omega⟩)
    refine hrec.congr fun p => ?_
    have hmono : 2 ^ order ≤ 2 ^ (order + n) := Nat.pow_le_pow_right (by omega) (by omega)
    simp only [Block.Covers,hpow]
    constructor
    · rintro ⟨⟨hu,h1⟩,h2⟩
      exact ⟨hu,fun h3 => by omega⟩
    · rintro ⟨hu,h1⟩
      exact ⟨⟨hu,fun h3 => by omega⟩,fun h3 => by omega⟩

theorem splitLoop_kept (n : Nat) : ∀ (s : Pmm) (page order : Nat),
    Kept s (splitLoop n s page order) := by
  induction n with
  | zero => intro s page order; exact Kept.refl s
  | succ n ih =>
    intro s page order
    have h := ih (freeAreaAdd s (page + 2 ^ (order + n)) (order + n)) page order
    exact ⟨h.nrPages,h.memStart,h.memEnd,h.refcount,h.live,h.user,h.failed⟩

structure Pmm.Wf (s : Pmm) : Prop where
  tiling : Tiling s (fun _ => False)
  small : s.nrPages ≤ word

theorem Pmm.Wf.free_or_live (h : s.Wf) (hp : p < s.nrPages) :
    s.Free p ∨ ∃ b ∈ s.live, b.Covers p := by
  rcases h.tiling.cover p hp with hf | ⟨t,b,hb,hbp⟩
  · exact hf.elim
  cases t with
  | true => exact .inl ⟨b,hb,hbp⟩
  | false => exact .inr ⟨b,hb,hbp⟩

theorem Pmm.Wf.not_free_of_live (h : s.Wf) (hb : b ∈ s.live) (hp : b.Covers p) : ¬ s.Free p := by
  rintro ⟨c,hc,hcp⟩
  have := h.tiling.unique true false c b p hc hb hcp hp
  simp at this

theorem Pmm.Wf.live_unique (h : s.Wf) {c : Block} (hb : b ∈ s.live) (hc : c ∈ s.live)
    (hbp : b.Covers p) (hcp : c.Covers p) : b = c :=
  (h.tiling.unique false false b c p hb hc hbp hcp).2

theorem Pmm.Wf.free_lt (h : s.Wf) (hp : s.Free p) : p < s.nrPages := by
  obtain ⟨b,hb,hbp⟩ := hp
  exact (h.tiling.inRange true b hb).lt hbp

theorem Pmm.Wf.inRange_live (h : s.Wf) (hb : b ∈ s.live) : InRange s b :=
  h.tiling.inRange false b hb

theorem Pmm.Wf.order_live (h : s.Wf) (hb : b ∈ s.live) : s.order b.start = none := by
  simpa using h.tiling.mark false b hb

theorem Pmm.Wf.release (h : s.Wf) (hb : b ∈ s.live) :
    (freeOnePage (dropLive s b.start b.order) b.start b.order).Wf := by
  have hr := h.inRange_live hb
  have hdrop := h.tiling.dropLive hb
  have hmerge := Tiling.mergeLoop maxOrder b hdrop h.small
    ⟨hr.order,hr.aligned,hr.fits⟩ (fun p hp => .inr hp)
    (fun p _ hu hn => absurd (hu.resolve_left id) hn) (by omega)
  refine ⟨hmerge.1.congr fun p => ⟨?_,False.elim⟩,?_⟩
  · rintro ⟨hu | hb,hn⟩
    · exact hu
    · exact hn hb
  · exact (mergeLoop_kept maxOrder (dropLive s b.start b.order) b.start b.order).nrPages ▸ h.small

theorem findArea_spec {o : Nat} (h : findArea s order = some o) :
    order ≤ o ∧ o < maxOrder ∧ s.freeList o ≠ [] := by
  have hmem := List.mem_of_find?_eq_some h
  have hne := List.find?_some h
  simp only [List.mem_range'_1] at hmem
  refine ⟨hmem.1,by omega,?_⟩
  simpa using hne

structure Taken (s s' : Pmm) (page order : Nat) : Prop where
  inRange : InRange s ⟨page,order⟩
  wasFree : ∀ p, (Block.mk page order).Covers p → s.Free p
  wf : s'.Wf
  live : s'.live = ⟨page,order⟩ :: s.live
  refcount : s'.refcount = Function.update s.refcount page 1
  user : s'.user = fun p => if (Block.mk page order).Covers p then false else s.user p
  nrPages : s'.nrPages = s.nrPages
  failed : s'.failed = s.failed

theorem allocPages_some {s' : Pmm} {page : Nat} (h : s.Wf)
    (ha : allocPages s order = (s',some page)) : Taken s s' page order := by
  simp only [allocPages] at ha
  split at ha
  · cases ha
  rename_i o ho
  obtain ⟨hle,hlt,hne⟩ := findArea_spec ho
  split at ha
  · cases ha
  rename_i head rest hlist
  simp only [Prod.mk.injEq,Option.some.injEq] at ha
  obtain ⟨rfl,rfl⟩ := ha
  obtain ⟨n,rfl⟩ := Nat.exists_eq_add_of_le hle
  have hmem : head ∈ s.freeList (order + n) := by simp [hlist]
  have hr := h.tiling.inRange true ⟨head,order + n⟩ hmem
  have hmono : 2 ^ order ≤ 2 ^ (order + n) := Nat.pow_le_pow_right (by omega) hle
  have hsub : ∀ p, (Block.mk head order).Covers p → (Block.mk head (order + n)).Covers p := by
    intro p hp
    simp only [Block.Covers] at hp ⊢
    omega
  have hdel := h.tiling.freeAreaDel (b := ⟨head,order + n⟩) hmem
  have hsplit := Tiling.splitLoop n head order hdel
    ⟨hr.order,hr.aligned,hr.fits⟩ (fun p hp => .inr hp)
  have hkept := splitLoop_kept n (freeAreaDel s head (order + n)) head order
  have hlow : InRange s ⟨head,order⟩ :=
    ⟨by simp only [maxOrder] at *; omega,dvd_trans (pow_dvd_pow 2 hle) hr.aligned,by
        have := hr.fits; simp only at this ⊢; omega⟩
  have htake := hsplit.takePage (b := ⟨head,order⟩)
    ⟨hlow.order,hlow.aligned,by rw [hkept.nrPages]; exact hlow.fits⟩
    (fun p hp => ⟨.inr (hsub p hp),fun _ => hp⟩)
  rw [Nat.add_sub_cancel_left]
  refine ⟨hlow,?_,⟨htake.congr fun p => ⟨?_,False.elim⟩,?_⟩,?_,?_,?_,?_,?_⟩
  · exact fun p hp => ⟨⟨head,order + n⟩,hmem,hsub p hp⟩
  · rintro ⟨⟨hu | hc,himp⟩,hn⟩
    · exact hu
    · exact hn (himp hc)
  · exact (hkept.nrPages).symm ▸ h.small
  · exact congrArg (_ :: ·) hkept.live
  · exact congrArg (Function.update · head 1) hkept.refcount
  · funext p
    simp only [takePage,hkept.user]
    rfl
  · exact hkept.nrPages
  · exact hkept.failed

theorem allocPages_none {s' : Pmm} (ha : allocPages s order = (s',none)) :
    s' = { s with failed := s.failed + 1 } := by
  simp only [allocPages] at ha
  split at ha
  · simpa using ha.symm
  split at ha
  · simpa using ha.symm
  · cases ha

theorem Pmm.Wf.setHistory (h : s.Wf) (r : Nat → Nat) (u : Nat → Bool) (f : Nat) :
    Pmm.Wf { s with refcount := r, user := u, failed := f } :=
  ⟨h.tiling.setHistory r u f,h.small⟩

end TinyOs.Buddy
