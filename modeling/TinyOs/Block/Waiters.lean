import TinyOs.Block.Sections

namespace TinyOs.Block

open Function (update update_of_ne update_self)
open Locks (Held)
open Sched (ProcState)

variable {P D C : Type} [DecidableEq P] [DecidableEq D] [DecidableEq C] {ide : Ide D C}
  {s s' : State P D C} {op : Op P D} {o : Option (P × Int)} {p q : P} {pc pc' : Pc P D C}

structure Locked (s : State P D C) : Prop where
  waiter : ∀ w, Held (Pc.holdsWaiter w) (s.waiterLock w) s.pc
  proc : Held Pc.holdsProc s.procLock s.pc

namespace Locked

omit [DecidableEq D] [DecidableEq C]

omit [DecidableEq P] in
theorem waiter_holder {w : P} (h : Locked s) (hpc : s.pc p = pc) (hheld : pc.holdsWaiter w) :
    s.waiterLock w = some p := by
  subst hpc
  exact (h.waiter w p).mp hheld

theorem keep (h : Locked s) (hnew : s'.pc = update s.pc p pc')
    (hlock : s'.waiterLock = s.waiterLock) (hproc : s'.procLock = s.procLock) (hpc : s.pc p = pc)
    (hw : ∀ w, pc'.holdsWaiter w ↔ pc.holdsWaiter w) (hp : pc'.holdsProc ↔ pc.holdsProc) :
    Locked s' := by
  refine ⟨fun w => ?_,?_⟩
  · rw [hnew,hlock]
    exact (h.waiter w).keep (hpc ▸ hw w)
  · rw [hnew,hproc]
    exact h.proc.keep (hpc ▸ hp)

theorem acquire (h : Locked s) (hpc : s.pc p = pc) (hlock : s.waiterLock q = none)
    (hfree : ∀ w, ¬ pc.holdsWaiter w) (hheld : ∀ w, pc'.holdsWaiter w ↔ q = w) (w : P) :
    Held (Pc.holdsWaiter w) (update s.waiterLock q (some p) w) (update s.pc p pc') := by
  by_cases hw : w = q
  · subst hw
    rw [update_self]
    exact Held.acquire (hlock ▸ h.waiter w) ((hheld w).mpr rfl)
  rw [update_of_ne hw]
  refine (h.waiter w).keep ?_
  rw [hpc,hheld w]
  exact ⟨fun hq => absurd hq.symm hw,fun hp => absurd hp (hfree w)⟩

theorem release (h : Locked s) (hpc : s.pc p = pc) (hheld : ∀ w, pc.holdsWaiter w ↔ q = w)
    (hfree : ∀ w, ¬ pc'.holdsWaiter w) (w : P) :
    Held (Pc.holdsWaiter w) (update s.waiterLock q none w) (update s.pc p pc') := by
  by_cases hw : w = q
  · subst hw
    rw [update_self]
    exact (h.waiter w).release (hpc ▸ (hheld w).mpr rfl) (hfree w)
  rw [update_of_ne hw]
  refine (h.waiter w).keep ?_
  rw [hpc,hheld w]
  exact ⟨fun hp => absurd hp (hfree w),fun hq => absurd hq.symm hw⟩

end Locked

theorem Locked.step (h : Locked s) (hs : Step ide s op s') : Locked s' := by
  cases hs with
  | call bio hrun hpc | refuse alloc st hrun hpc | accept hrun hpc hd | rest hrun hpc hpick
  | pick hrun hpc hpick | finish ok st hrun hpc | clear hrun hpc
  | wake hrun hpc hlock => exact h.keep rfl rfl rfl hpc (fun _ => Iff.rfl) Iff.rfl
  | push hrun hpc =>
    rename_i p d
    refine h.keep rfl rfl rfl hpc (fun w => ?_) ?_
    · split <;> exact Iff.rfl
    · split <;> exact Iff.rfl
  | sector hrun hpc hleft =>
    exact h.keep rfl rfl rfl hpc (fun _ => ⟨False.elim,False.elim⟩) ⟨False.elim,False.elim⟩
  | endIo hrun hpc hlock =>
    exact ⟨h.acquire hpc hlock (fun _ => id) fun _ => Iff.rfl,h.proc.keep (hpc ▸ Iff.rfl)⟩
  | release hrun hpc =>
    rename_i p q next
    refine ⟨h.release hpc (fun _ => Iff.rfl) ?_,h.proc.keep (hpc ▸ ?_)⟩
    · cases next <;> exact fun _ => id
    · cases next <;> exact Iff.rfl
  | leave hrun hpc hlock hdone =>
    rcases hpc with hpc | hpc <;> exact h.keep rfl rfl rfl hpc (fun _ => Iff.rfl) Iff.rfl
  | going hrun hpc hlock hdone =>
    rcases hpc with hpc | hpc <;>
      exact ⟨h.acquire hpc hlock (fun _ => id) fun _ => Iff.rfl,h.proc.keep (hpc ▸ Iff.rfl)⟩
  | handOff hrun hpc hlock =>
    exact ⟨fun w => (h.waiter w).keep (hpc ▸ Iff.rfl),Held.acquire (hlock ▸ h.proc) trivial⟩
  | unlock hrun hpc =>
    exact ⟨h.release hpc (fun _ => Iff.rfl) fun _ => id,h.proc.keep (hpc ▸ Iff.rfl)⟩
  | park hrun hpc =>
    exact ⟨fun w => (h.waiter w).keep (hpc ▸ Iff.rfl),h.proc.release (hpc ▸ trivial) id⟩
  | signal hlock hsleep | dispatch hlock hready => exact ⟨h.waiter,h.proc⟩

namespace Pc

def waiter : Pc P D C → Option P
  | going w | handing w | parking w | asleep w => some w
  | _ => none

end Pc

structure Fits (s : State P D C) (p : P) : Prop where
  self : ∀ w, (s.pc p).waiter = some w → w = p
  fresh : s.pc p = .going p ∨ s.pc p = .handing p → s.done p = false
  asleep : s.state p ≠ .running → s.pc p = .asleep p
  chan : s.state p = .sleeping → s.chan p = some p
  idle : s.pc p = .idle → s.done p = true
  disk : ∀ d, s.pc p = .enqueue d → (s.bio p).disk = some d
  woken : s.pc p = .parking p ∨ s.state p = .sleeping → s.done p = true →
    ∃ r next, s.pc r = .waking p next

namespace Fits

omit [DecidableEq P] [DecidableEq D] [DecidableEq C]

theorem frame (h : Fits s q) (hpc : s'.pc q = s.pc q) (hstate : s'.state q = s.state q)
    (hchan : s'.chan q = s.chan q) (hdone : s'.done q = s.done q) (hbio : s'.bio q = s.bio q)
    (hwaking : ∀ r next, s.pc r = .waking q next → s'.pc r = .waking q next) : Fits s' q where
  self := hpc ▸ h.self
  fresh := hpc ▸ hdone ▸ h.fresh
  asleep := hpc ▸ hstate ▸ h.asleep
  chan := hchan ▸ hstate ▸ h.chan
  idle := hpc ▸ hdone ▸ h.idle
  disk := hpc ▸ hbio ▸ h.disk
  woken := by
    rw [hpc,hstate,hdone]
    intro hp hd
    obtain ⟨r,next,hr⟩ := h.woken hp hd
    exact ⟨r,next,hwaking r next hr⟩

theorem awake (hself : s'.pc p = pc') (hrun : s'.state p = .running) (hwaiter : pc'.waiter = none)
    (hidle : pc' = .idle → s'.done p = true)
    (hdisk : ∀ d, pc' = .enqueue d → (s'.bio p).disk = some d) : Fits s' p where
  self := by
    rw [hself,hwaiter]
    exact nofun
  fresh := by
    rw [hself]
    rintro (rfl | rfl) <;> cases hwaiter
  asleep := fun hne => absurd hrun hne
  chan := by
    rw [hrun]
    exact nofun
  idle := hself ▸ hidle
  disk := hself ▸ hdisk
  woken := by
    rw [hself,hrun]
    rintro (rfl | hsleep)
    · cases hwaiter
    · cases hsleep

theorem inside (hself : s'.pc p = pc') (hrun : s'.state p = .running) (hwaiter : pc'.waiter = some p)
    (hdone : s'.done p = false) : Fits s' p where
  self := by
    rw [hself,hwaiter]
    rintro w ⟨⟩
    rfl
  fresh := fun _ => hdone
  asleep := fun hne => absurd hrun hne
  chan := by
    rw [hrun]
    exact nofun
  idle := by
    rw [hself]
    rintro rfl
    cases hwaiter
  disk := by
    rw [hself]
    rintro d rfl
    cases hwaiter
  woken := fun _ hd => absurd (hdone.symm.trans hd) Bool.false_ne_true

theorem unparked (hself : s'.pc p = .asleep p) (hstate : s'.state p ≠ .sleeping) : Fits s' p where
  self := by
    rw [hself]
    rintro w ⟨⟩
    rfl
  fresh := by
    rw [hself]
    exact nofun
  asleep := fun _ => hself
  chan := fun hs => absurd hs hstate
  idle := by
    rw [hself]
    exact nofun
  disk := by
    rw [hself]
    exact nofun
  woken := by
    rw [hself]
    rintro (hp | hs)
    · cases hp
    · exact absurd hs hstate

theorem waiter_eq (h : Fits s p) (hpc : s.pc p = pc) {w : P} (hw : pc.waiter = some w) : w = p :=
  h.self w (hpc ▸ hw)

end Fits

section Moves

omit [DecidableEq D] [DecidableEq C]

theorem Fits.other (h : Fits s q) (hne : q ≠ p) (hnew : s'.pc = update s.pc p pc')
    (hstate : s'.state q = s.state q) (hchan : s'.chan q = s.chan q) (hdone : s'.done q = s.done q)
    (hbio : s'.bio q = s.bio q) (hwaking : ∀ next, s.pc p ≠ .waking q next) : Fits s' q := by
  refine h.frame ?_ hstate hchan hdone hbio fun r next hr => ?_
  · rw [hnew,update_of_ne hne]
  · rw [hnew,update_of_ne ?_,hr]
    rintro rfl
    exact hwaking next hr

theorem fits_move (h : ∀ q, Fits s q) (hnew : s'.pc = update s.pc p pc')
    (hstate : ∀ q ≠ p, s'.state q = s.state q) (hchan : ∀ q ≠ p, s'.chan q = s.chan q)
    (hdone : ∀ q ≠ p, s'.done q = s.done q) (hbio : ∀ q ≠ p, s'.bio q = s.bio q)
    (hwaking : ∀ q next, s.pc p ≠ .waking q next) (hself : Fits s' p) (q : P) : Fits s' q := by
  by_cases hq : q = p
  · exact hq ▸ hself
  · exact (h q).other hq hnew (hstate q hq) (hchan q hq) (hdone q hq) (hbio q hq) (hwaking q)

theorem fits_keep (h : ∀ q, Fits s q) (hnew : s'.pc = update s.pc p pc')
    (hstate : s'.state = s.state) (hchan : s'.chan = s.chan) (hdone : ∀ q ≠ p, s'.done q = s.done q)
    (hbio : ∀ q ≠ p, s'.bio q = s.bio q) (hrun : s.state p = .running) (hwaiter : pc'.waiter = none)
    (hidle : pc' = .idle → s'.done p = true)
    (hdisk : ∀ d, pc' = .enqueue d → (s'.bio p).disk = some d)
    (hwaking : ∀ q next, s.pc p ≠ .waking q next) : ∀ q, Fits s' q := by
  refine fits_move h hnew (fun _ _ => by rw [hstate]) (fun _ _ => by rw [hchan]) hdone hbio hwaking ?_
  exact Fits.awake (by rw [hnew,update_self]) (by rw [hstate,hrun]) hwaiter hidle hdisk

theorem fits_wake {next : Option C} (h : ∀ x, Fits s x) (hl : Locked s) (hrun : s.state p = .running)
    (hpc : s.pc p = .waking q next) (hlock : s.procLock = none) (x : P) :
    Fits ((s.wakeup q).setPc p (.woke q next)) x := by
  have hfree : ∀ r, ¬ (s.pc r).holdsProc := Held.free (hlock ▸ hl.proc)
  have hstate : ∀ y, s.state y = .running → (s.wakeup q).state y = .running := by
    intro y hy
    simp only [State.wakeup,hy]
    rfl
  by_cases hxp : x = p
  · subst hxp
    exact Fits.awake (update_self ..) (hstate x hrun) rfl nofun nofun
  have hx : ((s.wakeup q).setPc p (.woke q next)).pc x = s.pc x := update_of_ne hxp ..
  by_cases hsleep : s.state x = .sleeping ∧ s.chan x = some q
  · -- `x` is `q` asleep, and is made runnable.
    have hs : ((s.wakeup q).setPc p (.woke q next)).state x = .runnable := if_pos hsleep
    have hold : s.pc x = .asleep x := (h x).asleep (by rw [hsleep.1]; nofun)
    exact Fits.unparked (hx.trans hold) (by rw [hs]; nofun)
  have hs : ((s.wakeup q).setPc p (.woke q next)).state x = s.state x := if_neg hsleep
  have hc : ((s.wakeup q).setPc p (.woke q next)).chan x = s.chan x := if_neg hsleep
  refine ⟨hx ▸ (h x).self,hx ▸ (h x).fresh,hx ▸ hs ▸ (h x).asleep,hc ▸ hs ▸ (h x).chan,
    hx ▸ (h x).idle,hx ▸ (h x).disk,?_⟩
  rw [hx,hs]
  rintro (hpark | hpark) hd
  · exact absurd (hpark ▸ trivial) (hfree x)
  obtain ⟨r,n,hr⟩ := (h x).woken (.inr hpark) hd
  refine ⟨r,n,(update_of_ne ?_ ..).trans hr⟩
  rintro rfl
  have hw := hpc.symm.trans hr
  cases hw
  exact hsleep ⟨hpark,(h q).chan hpark⟩

theorem fits_park (h : Fits s p) (hpc : s.pc p = .parking p) : Fits { s.setPc p (.asleep p) with
    state := update s.state p .sleeping
    chan := update s.chan p (some p)
    procLock := none } p := by
  have hself : (s.setPc p (.asleep p)).pc p = .asleep p := update_self ..
  refine ⟨?_,?_,fun _ => hself,fun _ => update_self ..,?_,?_,?_⟩
  · rintro w hw
    rw [hself] at hw
    exact (Option.some.inj hw).symm
  · rw [hself]
    exact nofun
  · rw [hself]
    exact nofun
  · rw [hself]
    exact nofun
  · intro _ hd
    obtain ⟨r,next,hr⟩ := h.woken (.inl hpc) hd
    refine ⟨r,next,(update_of_ne ?_ ..).trans hr⟩
    rintro rfl
    cases hpc.symm.trans hr

theorem fits_unparked {st : ProcState} (h : ∀ x, Fits s x) (hout : s.state p ≠ .running)
    (hst : st ≠ .sleeping) (hpc : s'.pc = s.pc) (hstate : s'.state = update s.state p st)
    (hchan : ∀ q ≠ p, s'.chan q = s.chan q) (hdone : s'.done = s.done) (hbio : s'.bio = s.bio)
    (x : P) : Fits s' x := by
  by_cases hx : x = p
  · subst hx
    refine Fits.unparked (hpc ▸ (h x).asleep hout) ?_
    rwa [hstate,update_self]
  · exact (h x).frame (by rw [hpc]) (by rw [hstate,update_of_ne hx]) (hchan x hx) (by rw [hdone])
      (by rw [hbio]) fun _ _ hr => hpc ▸ hr

end Moves

omit [DecidableEq C] in
theorem fits_endIo {next : Option C} (h : ∀ x, Fits s x) (hl : Locked s) (hrun : s.state p = .running)
    (hpc : s.pc p = .endIo q next) (hlock : s.waiterLock q = none) (x : P) :
    Fits (bioWaitEndIo s p q next) x := by
  have hfree : ∀ r, ¬ (s.pc r).holdsWaiter q := Held.free (hlock ▸ hl.waiter q)
  by_cases hxp : x = p
  · subst hxp
    exact Fits.awake (update_self ..) hrun rfl nofun nofun
  by_cases hxq : x = q
  · subst hxq
    have hx : (bioWaitEndIo s p x next).pc x = s.pc x := update_of_ne hxp ..
    have hd : (bioWaitEndIo s p x next).done x = true := update_self ..
    refine ⟨hx ▸ (h x).self,?_,hx ▸ (h x).asleep,(h x).chan,fun _ => hd,hx ▸ (h x).disk,?_⟩
    · rw [hx]
      rintro (hgo | hgo)
      · exact absurd (hgo ▸ rfl) (hfree x)
      · exact absurd (hgo ▸ rfl) (hfree x)
    · exact fun _ _ => ⟨p,next,update_self ..⟩
  · refine (h x).other hxp rfl rfl rfl (update_of_ne hxq ..) rfl fun n hw => ?_
    cases hpc.symm.trans hw

theorem fits_step (h : ∀ x, Fits s x) (hl : Locked s) (hs : Step ide s op s') : ∀ x, Fits s' x := by
  cases hs with
  | call bio hrun hpc =>
    exact fits_keep h rfl rfl rfl (fun _ hq => update_of_ne hq ..)
      (fun _ hq => update_of_ne hq ..) hrun rfl nofun nofun (hpc ▸ nofun)
  | refuse alloc st hrun hpc | rest hrun hpc hpick | pick hrun hpc hpick | sector hrun hpc hleft
  | finish ok st hrun hpc | clear hrun hpc =>
    exact fits_keep h rfl rfl rfl (fun _ _ => rfl) (fun _ _ => rfl) hrun rfl nofun nofun (hpc ▸ nofun)
  | accept hrun hpc hd =>
    refine fits_keep h rfl rfl rfl (fun _ _ => rfl) (fun _ _ => rfl) hrun rfl nofun ?_ (hpc ▸ nofun)
    rintro d' ⟨⟩
    exact hd
  | push hrun hpc =>
    refine fits_keep h rfl rfl rfl (fun _ _ => rfl) (fun _ _ => rfl) hrun ?_ ?_ ?_ (hpc ▸ nofun)
    · split <;> rfl
    · split <;> exact nofun
    · split <;> exact nofun
  | endIo hrun hpc hlock => exact fits_endIo h hl hrun hpc hlock
  | wake hrun hpc hlock => exact fits_wake h hl hrun hpc hlock
  | release hrun hpc =>
    rename_i p q next
    cases next <;>
      exact fits_keep h rfl rfl rfl (fun _ _ => rfl) (fun _ _ => rfl) hrun rfl nofun nofun (hpc ▸ nofun)
  | leave hrun hpc hlock hdone =>
    refine fits_keep h rfl rfl rfl (fun _ _ => rfl) (fun _ _ => rfl) hrun rfl (fun _ => hdone) nofun ?_
    rcases hpc with hpc | hpc <;> exact hpc ▸ nofun
  | going hrun hpc hlock hdone =>
    rename_i p
    have hself : Fits { s.setPc p (.going p) with
        waiterLock := update s.waiterLock p (some p) } p :=
      Fits.inside (update_self ..) hrun rfl hdone
    rcases hpc with hpc | hpc <;>
      exact fits_move h rfl (fun _ _ => rfl) (fun _ _ => rfl) (fun _ _ => rfl) (fun _ _ => rfl)
        (hpc ▸ nofun) hself
  | handOff hrun hpc hlock | unlock hrun hpc =>
    rename_i p w
    obtain rfl := (h p).waiter_eq hpc rfl
    refine fits_move h rfl (fun _ _ => rfl) (fun _ _ => rfl) (fun _ _ => rfl) (fun _ _ => rfl)
      (hpc ▸ nofun) ?_
    exact Fits.inside (update_self ..) hrun rfl ((h w).fresh (by simp [hpc]))
  | park hrun hpc =>
    rename_i p w
    obtain rfl := (h p).waiter_eq hpc rfl
    exact fits_move h rfl (fun _ hq => update_of_ne hq ..) (fun _ hq => update_of_ne hq ..)
      (fun _ _ => rfl) (fun _ _ => rfl) (hpc ▸ nofun) (fits_park (h w) hpc)
  | signal hlock hsleep =>
    refine fits_unparked h ?_ ?_ rfl rfl (fun _ hq => update_of_ne hq ..) rfl rfl
    · rw [hsleep]
      exact nofun
    · exact nofun
  | dispatch hlock hready =>
    refine fits_unparked h ?_ ?_ rfl rfl (fun _ _ => rfl) rfl rfl
    · rw [hready]
      exact nofun
    · exact nofun

end TinyOs.Block
