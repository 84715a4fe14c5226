import TinyOs.Sched.Steps

namespace TinyOs.Sched

open State

variable {C : Type} {s s' : State C} {c : C} {p q : Slot} {r r' : Proc} {cond : Proc → Bool}

theorem Woken.pos (hw : Woken s s') (q : Slot) : (s'.proc q).pos = (s.proc q).pos := by
  rcases hw.proc q with hq | ⟨-,hq⟩ <;> rw [hq]

theorem Woken.sleeping (hw : Woken s s') (hq : (s'.proc q).state = .sleeping) :
    s'.proc q = s.proc q := by
  rcases hw.proc q with hsame | ⟨-,hnew⟩
  · exact hsame
  · rw [hnew] at hq
    cases hq

theorem wakeIf_not (hcond : ∀ r, cond r = true → r.state = .sleeping)
    (s : State C) (q : Slot) : cond ((s.wakeIf cond q).proc q) = false := by
  unfold wakeIf
  split
  · rw [enqueue_proc,setProc_self]
    exact Bool.eq_false_iff.mpr fun hq => nomatch hcond _ hq
  · rename_i hq
    exact Bool.eq_false_iff.mpr hq

theorem foldl_wakeIf_not (hcond : ∀ r, cond r = true → r.state = .sleeping)
    {l : List Slot} (hq : q ∈ l) (s : State C) :
    cond ((l.foldl (State.wakeIf cond) s).proc q) = false := by
  induction l generalizing s with
  | nil => cases hq
  | cons p ps ih =>
    rcases List.mem_cons.mp hq with rfl | hq
    · have hstart : Wakes (s.wakeIf cond q) (s.wakeIf cond q) := .refl
      have hwoken := (hstart.foldl hcond ps).woken
      refine Bool.eq_false_iff.mpr fun hend => ?_
      have hsame := hwoken.sleeping (hcond _ hend)
      rw [List.foldl_cons,hsame,wakeIf_not hcond] at hend
      cases hend
    · exact ih hq _

theorem wakeup_not_sleeping (s : State C) (chan : Chan) (q : Slot) :
    ¬ (((s.wakeup chan).proc q).state = .sleeping ∧ ((s.wakeup chan).proc q).chan = some chan) := by
  unfold wakeup wakeAll
  rintro ⟨hsleep,hchan⟩
  refine Bool.eq_false_iff.mp (foldl_wakeIf_not (wakeup_cond chan) (List.mem_finRange q) s) ?_
  exact Bool.and_eq_true_iff.mpr ⟨decide_eq_true hsleep,decide_eq_true hchan⟩

structure Proc.Placed (q : Slot) (r : Proc) : Prop where
  swapper : q = 0 → r.state = .used
  uncreated : r.pos ≠ .creating 0
  init : q = initproc → r.inUse ∧ r.parent = some 0 ∧ ∀ k, r.pos ≠ .exitCalled k
  own : q ≠ 0 → r.parent ≠ some q

theorem Proc.Placed.ne_zero (h : r.Placed q) (hr : r.state ≠ .used) : q ≠ 0 := fun hq =>
  hr (h.swapper hq)

theorem Proc.Placed.ne_init (h : r.Placed q) (hr : ¬ r.inUse) : q ≠ initproc := fun hq =>
  hr (h.init hq).1

theorem Proc.Placed.live (h : r.Placed q) (hr : r.inUse) (hr' : r'.inUse)
    (hparent : r'.parent = r.parent) (hnew : r'.pos ≠ .creating 0)
    (hexit : q = initproc → ∀ k, r'.pos ≠ .exitCalled k) : r'.Placed q := by
  have hused : r.state ≠ .used := by
    intro hu
    exact Proc.not_inUse (.inr (.inl hu)) hr
  constructor
  · exact fun hq => absurd hq (h.ne_zero hused)
  · exact hnew
  · exact fun hq => ⟨hr',by rw [hparent,(h.init hq).2.1],hexit hq⟩
  · rw [hparent]
    exact h.own

theorem Proc.Placed.plain (hzero : q ≠ 0) (hinit : q ≠ initproc) (hnew : r.pos ≠ .creating 0)
    (hown : r.parent ≠ some q) : r.Placed q :=
  ⟨fun hq => absurd hq hzero,hnew,fun hq => absurd hq hinit,fun _ => hown⟩

theorem Proc.Placed.stay (h : r.Placed q) (hr : r.inUse) (hr' : r'.inUse)
    (hparent : r'.parent = r.parent) (hpos : r'.pos = r.pos) : r'.Placed q := by
  apply h.live hr hr' hparent
  · rw [hpos]
    exact h.uncreated
  · rw [hpos]
    exact fun hi => (h.init hi).2.2

theorem Proc.Placed.woken (h : (s.proc q).Placed q) (hw : Woken s s') : (s'.proc q).Placed q := by
  rcases hw.proc q with hq | ⟨hsleep,hq⟩
  · rw [hq]
    exact h
  rw [hq]
  exact h.stay (.inr (.inr hsleep)) (.inr (.inl rfl)) rfl rfl

theorem Proc.Placed.congr (h : r.Placed q) (hstate : r'.state = r.state)
    (hparent : r'.parent = r.parent) (hpos : r'.pos = r.pos) : r'.Placed q := by
  constructor
  · rw [hstate]
    exact h.swapper
  · rw [hpos]
    exact h.uncreated
  · rw [Proc.inUse,Proc.parked,hstate,hparent,hpos]
    exact h.init
  · rw [hparent]
    exact h.own

theorem Proc.Placed.reparent (h : (s.proc q).Placed q) (hp : p ≠ 0) :
    ((s.reparent p).proc q).Placed q := by
  simp only [State.reparent]
  split
  · rename_i hq
    have hnotinit : q ≠ initproc := by
      intro hi
      have hparent := (h.init hi).2.1
      rw [hq.1] at hparent
      exact hp (Option.some.inj hparent)
    constructor
    · exact h.swapper
    · exact h.uncreated
    · exact fun hi => absurd hi hnotinit
    · exact fun _ heq => hnotinit (Option.some.inj heq).symm
  · exact h

theorem boot_placed (q : Slot) : (State.bootProc q).Placed q := by
  have hplaced : ∀ q, (q = 0 → (bootProc q).state = .used) ∧ (bootProc q).pos = .code ∧
      (q = initproc → (bootProc q).state = .runnable ∧ (bootProc q).parent = some 0) ∧
      (q ≠ 0 → (bootProc q).parent ≠ some q) := by
    decide +kernel
  obtain ⟨hswapper,hpos,hinit,hown⟩ := hplaced q
  refine ⟨hswapper,?_,fun hq => ⟨.inr (.inl (hinit hq).1),(hinit hq).2,?_⟩,hown⟩
  · exact fun hq => nomatch hpos.symm.trans hq
  · exact fun k hq => nomatch hpos.symm.trans hq

end TinyOs.Sched
