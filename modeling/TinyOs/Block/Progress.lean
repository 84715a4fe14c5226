import TinyOs.Block.Channel
import TinyOs.Library.Count

namespace TinyOs.Block

open Function (update update_of_ne update_self)
open Count
open Locks (Held)
open Sched (ProcState)

variable {P D C : Type} [DecidableEq P] [DecidableEq D] [DecidableEq C] {ide : Ide D C}
  {s s' : State P D C} {op : Op P D} {o : Option (P × Int)} {p q x : P} {c : C} {d : D}
  {pc pc' : Pc P D C}

structure Inv (ide : Ide D C) (s : State P D C) : Prop where
  locked : Locked s
  fits : ∀ p, Fits s p
  placed : ∀ p, ∃ a, At s p a
  ended : Ended s
  queues : Queues s
  channel : ∀ c, ∃ o, Channel ide s c o
  waking : ∀ r q next, s.pc r = .waking q next → s.done q = true ∧ s.pc q ≠ .idle
  alive : ∀ p, s.state p = .running ∨ s.state p = .runnable ∨ s.state p = .sleeping

theorem alive_step (h : ∀ p, s.state p = .running ∨ s.state p = .runnable ∨ s.state p = .sleeping)
    (hs : Step ide s op s') (p : P) :
    s'.state p = .running ∨ s'.state p = .runnable ∨ s'.state p = .sleeping := by
  have hset : ∀ q st, st = .running ∨ st = .runnable ∨ st = .sleeping →
      update s.state q st p = .running ∨ update s.state q st p = .runnable ∨
        update s.state q st p = .sleeping := by
    intro q st hst
    by_cases hp : p = q
    · rwa [hp,update_self]
    · rw [update_of_ne hp]
      exact h p
  cases hs with
  | park hrun hpc => exact hset _ _ (.inr (.inr rfl))
  | signal hlock hsleep => exact hset _ _ (.inr (.inl rfl))
  | dispatch hlock hready => exact hset _ _ (.inl rfl)
  | wake hrun hpc hlock =>
    simp only [State.setPc,State.wakeup]
    split
    · exact .inr (.inl rfl)
    · exact h p
  | _ => exact h p

section Waking

omit [DecidableEq D] [DecidableEq C] in
theorem waking_keep (h : ∀ r q next, s.pc r = .waking q next → s.done q = true ∧ s.pc q ≠ .idle)
    (hl : Locked s) (hnew : s'.pc = update s.pc p pc')
    (hdone : ∀ q, s.pc q ≠ .idle → s'.done q = s.done q) (hpc : ∀ q next, pc' ≠ .waking q next)
    (hidle : pc' = .idle → s.waiterLock p = none) (r q : P) (next : Option C)
    (hr : s'.pc r = .waking q next) : s'.done q = true ∧ s'.pc q ≠ .idle := by
  have hrp : r ≠ p := by
    rintro rfl
    rw [hnew,update_self] at hr
    exact hpc q next hr
  rw [hnew,update_of_ne hrp] at hr
  obtain ⟨hd,hq⟩ := h r q next hr
  refine ⟨(hdone q hq).trans hd,?_⟩
  by_cases hqp : q = p
  · subst hqp
    rw [hnew,update_self]
    intro hp
    have hheld := hl.waiter_holder hr rfl
    rw [hidle hp] at hheld
    cases hheld
  · rwa [hnew,update_of_ne hqp]

omit [DecidableEq C] in
theorem waking_endIo {next : Option C}
    (h : ∀ r q next, s.pc r = .waking q next → s.done q = true ∧ s.pc q ≠ .idle)
    (hfit : ∀ x, Fits s x) (hplace : ∀ x, ∃ a, At s x a) (hpc : s.pc p = .endIo q next) (r x : P)
    (n : Option C) (hr : (bioWaitEndIo s p q next).pc r = .waking x n) :
    (bioWaitEndIo s p q next).done x = true ∧ (bioWaitEndIo s p q next).pc x ≠ .idle := by
  have hstay : ∀ y, s.pc y ≠ .idle → (bioWaitEndIo s p q next).pc y ≠ .idle := by
    intro y hy
    by_cases hyp : y = p
    · rw [hyp]
      exact (update_self (f := s.pc) ..).trans_ne nofun
    · exact (update_of_ne hyp ..).trans_ne hy
  by_cases hrp : r = p
  · subst hrp
    cases (update_self (f := s.pc) ..).symm.trans hr
    refine ⟨update_self ..,hstay q fun hidle => ?_⟩
    obtain ⟨a,ha⟩ := hplace q
    cases (ha.of_hand (r := r) (hpc ▸ rfl)).finished.mp ((hfit q).idle hidle)
  obtain ⟨hd,hx⟩ := h r x n ((update_of_ne hrp (f := s.pc) ..).symm.trans hr)
  refine ⟨?_,hstay x hx⟩
  change update s.done q true x = true
  by_cases hxq : x = q
  · rw [hxq,update_self]
  · rw [update_of_ne hxq,hd]

end Waking

theorem inv_step (h : Inv ide s) (hs : Step ide s op s') : Inv ide s' where
  locked := h.locked.step hs
  fits := fits_step h.fits h.locked hs
  placed := placed_step h.fits h.queues.nodup h.placed hs
  ended := h.ended.step h.fits h.placed hs
  queues := h.queues.step h.fits h.placed hs
  channel := channel_step h.channel h.fits h.placed h.queues hs
  waking := by
    cases hs with
    | call bio hrun hpc =>
      refine waking_keep h.waking h.locked rfl (fun q hq => update_of_ne ?_ ..) nofun nofun
      rintro rfl
      exact hq hpc
    | push hrun hpc =>
      refine waking_keep h.waking h.locked rfl (fun _ _ => rfl) ?_ ?_
      · split <;> exact nofun
      · split <;> exact nofun
    | endIo hrun hpc hlock => exact waking_endIo h.waking h.fits h.placed hpc
    | release hrun hpc =>
      rename_i next
      cases next <;> exact waking_keep h.waking h.locked rfl (fun _ _ => rfl) nofun nofun
    | leave hrun hpc hlock hdone =>
      exact waking_keep h.waking h.locked rfl (fun _ _ => rfl) nofun fun _ => hlock
    | signal hlock hsleep | dispatch hlock hready => exact h.waking
    | _ => exact waking_keep h.waking h.locked rfl (fun _ _ => rfl) nofun nofun
  alive := alive_step h.alive hs

omit [DecidableEq C] in
theorem inv_start (bio : P → Bio D) : Inv ide (start bio) where
  locked := ⟨fun _ _ => iff_of_false id nofun,fun _ => iff_of_false id nofun⟩
  fits := fun _ => Fits.awake rfl rfl rfl (fun _ => rfl) nofun
  placed := fun p => ⟨.finished,iff_of_false id nofun,fun _ => iff_of_false nofun nofun,
    fun _ => iff_of_false nofun nofun,iff_of_true rfl rfl⟩
  ended := by
    refine ⟨nofun,?_,fun _ _ _ => rfl⟩
    rintro p k ⟨hk,hlt | ⟨heq,-⟩⟩
    · exact absurd hlt (Nat.not_lt_zero k)
    · exact absurd heq (ne_of_gt hk)
  queues := ⟨fun _ => List.nodup_nil,nofun⟩
  channel := fun c => ⟨none,fun _ => iff_of_false id nofun,rfl,fun _ _ hne => absurd rfl hne,nofun,
    fun _ _ => rfl⟩
  waking := nofun
  alive := fun _ => .inl rfl

def Op.Internal : Op P D → Prop
  | .submitBioWait _ _ | .signal _ => False
  | _ => True

section Enabled

variable (ide) in
def Enabled (s : State P D C) : Prop := ∃ op r, op.Internal ∧ step ide s op = some r

omit [DecidableEq C] in
theorem Inv.running (h : Inv ide s) (ha : s.pc p ≠ .asleep p) : s.state p = .running :=
  not_not.mp (mt (h.fits p).asleep ha)

theorem enabled_check (hat : s.at? p = some (s.pc p)) (hpc : s.pc p = .check ∨ s.pc p = .asleep p)
    (hlock : s.waiterLock p = none) : Enabled ide s := by
  have hguard : (s.at? p = some .check ∨ s.at? p = some (.asleep p)) ∧ s.waiterLock p = none := by
    rw [hat]
    exact ⟨hpc.imp (congrArg some) (congrArg some),hlock⟩
  cases hdone : s.done p with
  | true => exact ⟨.check p,_,trivial,by simp only [step,if_pos hguard,hdone,if_true]; rfl⟩
  | false => exact ⟨.check p,_,trivial,by simp only [step,if_pos hguard,hdone]; rfl⟩

theorem enabled_of_running (h : Inv ide s) (hrun : s.state p = .running) (hne : s.pc p ≠ .idle)
    (hproc : (s.pc p).holdsProc ∨ s.procLock = none) (hlock : (s.pc p).holdsProc ∨
      (∃ w, (s.pc p).holdsWaiter w) ∨ ∀ w, s.waiterLock w = none) : Enabled ide s := by
  have hat : s.at? p = some (s.pc p) := if_pos hrun
  have hfree : ¬ (s.pc p).holdsProc → (¬ ∃ w, (s.pc p).holdsWaiter w) → ∀ w, s.waiterLock w = none :=
    fun hp hw => (hlock.resolve_left hp).resolve_left hw
  cases hpc : s.pc p <;> rw [hpc] at hproc hfree
  case idle => exact absurd hpc hne
  case submit => exact ⟨.submit p true,_,trivial,by simp only [step,hat,hpc,if_true]; rfl⟩
  case enqueue d => exact ⟨.push p,_,trivial,by simp only [step,hat,hpc]; rfl⟩
  case run c => exact ⟨.pick p,_,trivial,by simp only [step,hat,hpc]; rfl⟩
  case execute c q left => exact ⟨.sector p true,_,trivial,by simp only [step,hat,hpc]; rfl⟩
  case executed c q st => exact ⟨.clear p,_,trivial,by simp only [step,hat,hpc]; rfl⟩
  case endIo q next =>
    have hq := hfree id (fun hw => hw.elim fun _ => id) q
    exact ⟨.endIo p,_,trivial,by simp only [step,hat,hpc,hq,if_true]; rfl⟩
  case waking q next =>
    exact ⟨.wake p,_,trivial,by simp only [step,hat,hpc,hproc.resolve_left id]; rfl⟩
  case woke q next => exact ⟨.release p,_,trivial,by simp only [step,hat,hpc]; rfl⟩
  case going w =>
    exact ⟨.handOff p,_,trivial,by simp only [step,hat,hpc,hproc.resolve_left id]; rfl⟩
  case handing w => exact ⟨.unlock p,_,trivial,by simp only [step,hat,hpc]; rfl⟩
  case parking w => exact ⟨.park p,_,trivial,by simp only [step,hat,hpc]; rfl⟩
  case check => exact enabled_check hat (.inl hpc) (hfree id (fun hw => hw.elim fun _ => id) p)
  case asleep w =>
    obtain rfl := (h.fits p).waiter_eq hpc rfl
    exact enabled_check hat (.inr hpc) (hfree id (fun hw => hw.elim fun _ => id) w)

theorem enabled (h : Inv ide s) (hne : s.pc p ≠ .idle) : Enabled ide s := by
  cases hproc : s.procLock with
  | some r =>
    have hheld := (h.locked.proc r).mpr hproc
    refine enabled_of_running (p := r) h (h.running ?_) ?_ (.inl hheld) (.inl hheld) <;>
    · intro hr
      rw [hr] at hheld
      exact hheld
  | none =>
    by_cases hlock : ∃ w r, s.waiterLock w = some r
    · obtain ⟨w,r,hr⟩ := hlock
      have hheld := (h.locked.waiter w r).mpr hr
      refine enabled_of_running (p := r) h (h.running ?_) ?_ (.inr hproc) (.inr (.inl ⟨w,hheld⟩)) <;>
      · intro hr
        rw [hr] at hheld
        exact hheld
    have hfree : ∀ w, s.waiterLock w = none := by
      intro w
      rw [Option.eq_none_iff_forall_ne_some]
      exact fun r hr => hlock ⟨w,r,hr⟩
    have hgo : ∀ r, s.state r = .running → s.pc r ≠ .idle → Enabled ide s :=
      fun r hr hne => enabled_of_running h hr hne (.inr hproc) (.inr (.inr hfree))
    rcases h.alive p with hstate | hstate | hstate
    · exact hgo p hstate hne
    · exact ⟨.dispatch p,_,trivial,if_pos ⟨hproc,hstate⟩⟩
    have hpc : s.pc p = .asleep p := (h.fits p).asleep (by rw [hstate]; nofun)
    obtain ⟨a,ha⟩ := h.placed p
    cases a with
    | start =>
      have hb := ha.start.mpr rfl
      rw [hpc] at hb
      exact hb.elim
    | finished =>
      obtain ⟨r,next,hr⟩ := (h.fits p).woken (.inr hstate) (ha.finished.mpr rfl)
      exact hgo r (h.running (hr ▸ nofun)) (hr ▸ nofun)
    | hand r =>
      have hr := (ha.hand r).mpr rfl
      refine hgo r (h.running ?_) ?_ <;>
      · intro hpc
        rw [hpc] at hr
        cases hr
    | queued d =>
      obtain ⟨o,ho⟩ := h.channel (ide.chan d)
      have hq := (ha.queue d).mpr rfl
      obtain ⟨r,hr⟩ := Option.isSome_iff_exists.mp (ho.served d rfl (List.ne_nil_of_mem hq))
      have hruns := (ho.runs r).mpr hr
      refine hgo r (h.running ?_) ?_ <;>
      · intro hpc
        rw [hpc] at hruns
        exact hruns

end Enabled

end TinyOs.Block
