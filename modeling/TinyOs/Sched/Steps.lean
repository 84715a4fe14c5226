import TinyOs.Sched.Queue

namespace TinyOs.Sched

open List Option State Machine

variable {C : Type} {s s' : State C} {c : C} {p q np : Slot} {cond : Proc → Bool} {r : Proc}

@[simp] theorem enqueue_cpu (s : State C) (p : Slot) : (s.enqueue p).cpu = s.cpu := by
  unfold enqueue
  split <;> rfl

@[simp] theorem enqueue_proc (s : State C) (p : Slot) : (s.enqueue p).proc = s.proc := by
  unfold enqueue
  split <;> rfl

theorem setProc_comm {r' : Proc} (hq : q ≠ p) :
    (s.setProc q r').setProc p r = (s.setProc p r).setProc q r' := by
  simp only [setProc,Function.update_comm hq]

theorem enqueue_setProc (hq : q ≠ p) : (s.enqueue q).setProc p r = (s.setProc p r).enqueue q := by
  unfold enqueue
  rw [setProc_ne hq]
  exact apply_ite (setProc · p r) ..

theorem enqueue_setCpu [DecidableEq C] {pc : Pc} :
    (s.enqueue p).setCpu c pc = (s.setCpu c pc).enqueue p :=
  apply_ite (setCpu · c pc) ..

inductive Wakes (s : State C) : State C → Prop where
  | refl : Wakes s s
  | wake {t p} (h : Wakes s t) (hp : (t.proc p).state = .sleeping) : Wakes s (State.enqueue
      (t.setProc p { t.proc p with state := .runnable, chan := none, wakeupTick := 0 }) p)
  | resched {t} (b : C → Bool) (h : Wakes s t) : Wakes s { t with needResched := b }

theorem Wakes.wakeIf (h : Wakes s s') (hcond : ∀ r, cond r = true → r.state = .sleeping) (p : Slot) :
    Wakes s (s'.wakeIf cond p) := by
  unfold State.wakeIf
  split
  · rename_i hp
    exact h.wake (hcond _ hp)
  · exact h

theorem Wakes.foldl (h : Wakes s s') (hcond : ∀ r, cond r = true → r.state = .sleeping)
    (l : List Slot) : Wakes s (l.foldl (State.wakeIf cond) s') := by
  induction l generalizing s' with
  | nil => exact h
  | cons p ps ih => exact ih (h.wakeIf hcond p)

theorem wakeup_cond (chan : Chan) (r : Proc)
    (hr : (decide (r.state = .sleeping) && decide (r.chan = some chan)) = true) :
    r.state = .sleeping :=
  of_decide_eq_true (Bool.and_eq_true_iff.mp hr).1

theorem wakes_wakeup (s : State C) (chan : Chan) : Wakes s (s.wakeup chan) :=
  Wakes.refl.foldl (wakeup_cond chan) _

theorem wakes_wakeParent (s : State C) (parent : Option Slot) : Wakes s (s.wakeParent parent) := by
  cases parent with
  | none => exact .refl
  | some q => exact wakes_wakeup s (.proc q)

theorem wakes_signalSend (s : State C) (pid : Int) : Wakes s (s.signalSend pid) := by
  unfold signalSend
  split
  · exact .refl
  · exact Wakes.refl.wakeIf (fun _ => of_decide_eq_true) _

theorem Inv.wakes (h : Inv s) (hw : Wakes s s') : Inv s' := by
  induction hw with
  | refl => exact h
  | @wake t p _ hsleep h =>
    apply h.ready
    · rw [hsleep]
      nofun
    · rw [hsleep]
      nofun
    · rfl
    · exact (h.fits p).stack (.inr (.inr hsleep))
    · exact (h.fits p).parked (.inr hsleep)
    · exact h.fresh p
    · exact h.uncreated (by rw [hsleep]; nofun)
  | resched b _ h => exact h.congr rfl rfl rfl rfl rfl fun _ => ⟨rfl,rfl,rfl,rfl⟩

structure Woken (s s' : State C) : Prop where
  cpu : s'.cpu = s.cpu
  proc : ∀ q, s'.proc q = s.proc q ∨ (s.proc q).state = .sleeping ∧
    s'.proc q = { s.proc q with state := .runnable, chan := none, wakeupTick := 0 }

theorem Wakes.woken (hw : Wakes s s') : Woken s s' := by
  induction hw with
  | refl => exact ⟨rfl,fun _ => .inl rfl⟩
  | @wake t p _ hsleep h =>
    refine ⟨(enqueue_cpu ..).trans h.cpu,fun q => ?_⟩
    rw [enqueue_proc]
    by_cases hq : q = p
    · subst hq
      rw [setProc_self]
      rcases h.proc q with hsame | ⟨-,hnew⟩
      · rw [hsame] at hsleep ⊢
        exact .inr ⟨hsleep,rfl⟩
      · rw [hnew] at hsleep
        cases hsleep
    · rw [setProc_ne hq]
      exact h.proc q
  | resched b _ h => exact ⟨h.cpu,h.proc⟩

theorem Proc.not_inUse (h : r.state = .unused ∨ r.state = .used ∨ r.state = .zombie) :
    ¬ r.inUse := by
  rintro (hr | hr | hr) <;> rw [hr] at h <;> simp at h

theorem Inv.free (h : Inv s) (hold : (s.proc q).state = .zombie ∨
    (s.proc q).state = .unused ∨ (s.proc q).state = .used)
    (hnew : r.state = .unused) (hpos : r.pos = (s.proc q).pos)
    (hno : ∀ p, (s.proc p).pos ≠ .creating q) : Inv (s.setProc q r) := by
  have hnot : ¬ (s.proc q).inUse := by
    apply Proc.not_inUse
    rcases hold with h | h | h <;> simp [h]
  apply h.slot hnot (Proc.not_inUse (.inl hnew))
  · rw [hpos]
    exact h.fresh q
  · intro k hk
    rw [hpos] at hk
    exact hnot ((h.fits q).exiting k hk)
  · exact fun p _ hp => absurd hp (hno p)

theorem Inv.zombieReap (h : Inv s) (hz : (s.proc q).state = .zombie) :
    Inv (s.zombieReapLocked q).1 := by
  have hunlinked : Inv (s.unlink q) := by
    apply h.congr
    · rfl
    · exact erase_of_not_mem (h.not_queued (by rw [hz]; nofun))
    · rfl
    · rfl
    · rfl
    · exact fun _ => ⟨rfl,rfl,rfl,rfl⟩
  apply hunlinked.free
  · exact .inl hz
  · rfl
  · rfl
  · exact h.uncreated (by rw [hz]; nofun)

theorem waitScan_zombie {z : Slot} {pid : Int}
    (hz : (List.finRange nproc).find? (s.isZombieKid p pid) = some z) :
    (s.proc z).parent = some p ∧ (s.proc z).state = .zombie := by
  have := find?_some hz
  simp only [isZombieKid,isKid,Bool.and_eq_true,decide_eq_true_eq] at this
  exact ⟨this.1.1.1,this.1.2⟩

theorem bootProc_spec : ∀ p, (p ∈ [(1 : Slot),2] ↔ (State.bootProc p).state = .runnable) ∧
    (State.bootProc p).state ≠ .running ∧ (State.bootProc p).state ≠ .sleeping ∧
    ((State.bootProc p).state = .runnable →
      (State.bootProc p).saved = true ∧ (State.bootProc p).kstack = true) ∧
    (State.bootProc p).pos = .code := by
  decide +kernel

theorem boot_inv : Inv (State.boot : State C) := by
  refine ⟨rfl,by change [(1 : Slot),2].Nodup; decide,rfl,fun p => ?_,fun p np hpos => ?_⟩
  · obtain ⟨hqueue,hrun,hsleep,hready,hcode⟩ := bootProc_spec p
    refine ⟨hqueue,nofun,nofun,nofun,?_,?_,fun k hpos => nomatch hcode.symm.trans hpos⟩
    · rintro (hr | hr)
      · exact .inl (hready hr).1
      · exact absurd hr hsleep
    · rintro (hr | hr | hr)
      · exact absurd hr hrun
      · exact (hready hr).2
      · exact absurd hr hsleep
  · exact nomatch (bootProc_spec p).2.2.2.2.symm.trans hpos

variable [DecidableEq C]

theorem wakes_schedTick (s : State C) (c : C) (now : Nat) : Wakes s (s.schedTick c now) := by
  have hwakes : Wakes s (s.wakeAll fun r =>
      r.state = .sleeping && r.wakeupTick ≠ 0 && r.wakeupTick ≤ now) := by
    refine Wakes.refl.foldl (fun r hr => ?_) _
    simp only [Bool.and_eq_true,decide_eq_true_eq] at hr
    exact hr.1.1
  unfold schedTick
  dsimp only
  split
  · exact hwakes.resched _
  · exact hwakes

theorem Inv.setPos (h : Inv s) (hc : s.cpu c = .run p) {pos : At}
    (hpos : ∀ np, pos = .creating np → Fresh s p np) :
    Inv (s.setProc p { s.proc p with pos := pos }) := by
  have hstate := h.running c p hc
  have hown : Inv ((s.setProc p { s.proc p with pos := pos }).setCpu c (.run p)) :=
    h.own hc rfl nofun (fun _ => hstate) (by rw [hstate]; nofun) (fun _ => rfl) hpos
      (fun _ _ => .inl hstate)
  have hsame : (s.setProc p { s.proc p with pos := pos }).setCpu c (.run p) =
      s.setProc p { s.proc p with pos := pos } := by
    rw [← hc]
    simp [setCpu,setProc]
  rwa [hsame] at hown

theorem Inv.sleepOn (h : Inv s) (hc : s.cpu c = .run p) {chan : Option Chan} {tick : Nat} {pos : At}
    (hpos : ∀ np, pos = .creating np → Fresh s p np) : Inv (s.sleepOn c p chan tick pos) := by
  apply h.own hc
  · rfl
  · nofun
  · nofun
  · nofun
  · exact fun _ => rfl
  · exact hpos
  · exact fun _ _ => .inr (.inr rfl)

theorem Inv.yield (h : Inv s) (hc : s.cpu c = .run p) : Inv (s.yield c p) := by
  have hstate := h.running c p hc
  obtain ⟨t,ht⟩ : ∃ t, t = s.sleepOn c p none 0 (s.proc p).pos := ⟨_,rfl⟩
  have hslept : Inv t := by
    rw [ht]
    exact h.sleepOn hc (h.fresh p)
  have htp : (t.proc p).state = .sleeping ∧ (t.proc p).pos = (s.proc p).pos := by
    rw [ht]
    simp [State.sleepOn,State.setCpu,State.setProc]
  have htc : (t.cpu c).holder = some p := by
    rw [ht]
    simp [State.sleepOn,State.setCpu,Pc.holder]
  have hready : Inv ((t.setProc p { s.proc p with state := .runnable }).enqueue p) := by
    apply hslept.ready
    · rw [htp.1]
      decide
    · rw [htp.1]
      decide
    · rfl
    · exact (h.fits p).stack (.inl hstate)
    · exact .inr ⟨c,htc⟩
    · rw [← htp.2]
      exact hslept.fresh p
    · exact hslept.uncreated (by rw [htp.1]; decide)
  have hsame : (t.setProc p { s.proc p with state := .runnable }).enqueue p =
      ((s.setProc p { s.proc p with state := .runnable }).enqueue p).setCpu c (.leave p false) := by
    rw [enqueue_setCpu,ht]
    simp only [State.sleepOn,State.setProc,State.setCpu,Function.update_idem]
  rw [hsame] at hready
  exact hready.congr rfl rfl rfl rfl rfl fun _ => ⟨rfl,rfl,rfl,rfl⟩

theorem Inv.preemptCheck (h : Inv s) (hc : s.cpu c = .run p) : Inv (s.preemptCheck c p) := by
  unfold State.preemptCheck
  split
  · split
    · exact h.congr rfl rfl rfl rfl rfl fun _ => ⟨rfl,rfl,rfl,rfl⟩
    · exact h.yield hc
  · exact h

theorem Inv.setCpu (h : Inv s) {pc : Pc} (hold : ∀ q, (s.cpu c).holder = some q → q = p)
    (hnew : ∀ q, pc.holder = some q → q = p)
    (hheld : pc.holder = some p → (s.cpu c).holder = some p) (hnd : pc ≠ .dispatching p)
    (hrun : pc = .run p → (s.proc p).state = .running)
    (hpark : (s.proc p).parked →
      (s.proc p).saved = true ∨ pc.holder = some p ∨ ∃ d, d ≠ c ∧ (s.cpu d).holder = some p) :
    Inv (s.setCpu c pc) := by
  have hturn := h.turn (s.proc p).saved hold hnew hheld hnd hrun ?_ hpark
  · rwa [setProc_saved] at hturn
  · by_cases hsaved : (s.proc p).saved = true
    · exact .inl hsaved
    · exact .inr fun d _ hd => hsaved ((h.fits p).dispatching d hd).2

theorem Inv.switchIn (h : Inv s) (hc : s.cpu c = .dispatching p) :
    Inv ((s.setProc p { s.proc p with saved := false }).setCpu c (.run p)) := by
  have hheld : (s.cpu c).holder = some p := holder_dispatching hc
  apply h.turn
  · intro q hq
    rw [hheld] at hq
    exact (some.inj hq).symm
  · exact fun q hq => (some.inj hq).symm
  · exact fun _ => hheld
  · nofun
  · exact fun _ => ((h.fits p).dispatching c hc).1
  · exact .inr fun d hdc hd => hdc ((h.fits p).one d c (holder_dispatching hd) hheld)
  · exact fun _ => .inr (.inl rfl)

theorem Inv.sched (h : Inv s) {f : Bool} (hc : s.cpu c = .leave p f) : Inv (s.sched c p) := by
  have hheld : ∀ q, (s.cpu c).holder = some q → q = p := by
    intro q hq
    rw [hc] at hq
    exact (some.inj hq).symm
  unfold State.sched
  split
  · rename_i hstate
    refine h.setCpu hheld nofun nofun nofun nofun ?_
    rintro (hr | hr) <;> rw [hr] at hstate <;> simp at hstate
  · exact h.turn true hheld nofun nofun nofun nofun (.inl rfl) fun _ => .inl rfl

theorem Inv.idle (h : Inv s) (hc : s.cpu c = .back p) : Inv (s.setCpu c .sched) := by
  have hnone : ∀ q, (s.cpu c).holder ≠ some q := by
    intro q hq
    rw [hc] at hq
    cases hq
  refine h.setCpu (p := p) (fun q hq => absurd hq (hnone q)) nofun nofun nofun nofun ?_
  intro hpark
  rcases (h.fits p).parked hpark with hsaved | ⟨d,hd⟩
  · exact .inl hsaved
  refine .inr (.inr ⟨d,?_,hd⟩)
  rintro rfl
  exact hnone p hd

theorem Inv.kthreadReap (h : Inv s) (hc : s.cpu c = .back p) : Inv (s.kthreadReap c p).1 := by
  unfold State.kthreadReap
  split
  · rename_i hstate
    have hfree : Inv (s.setProc p { s.proc p with kstack := false }) :=
      h.free (.inr (.inl hstate)) hstate rfl (h.uncreated (by rw [hstate]; nofun))
    exact hfree.idle hc
  · exact h.idle hc

theorem Inv.kthreadExit (h : Inv s) (hc : s.cpu c = .run p) : Inv (s.kthreadExit c p) := by
  apply h.own hc
  · rfl
  · nofun
  · nofun
  · nofun
  · rintro (hr | hr | hr) <;> cases hr
  · nofun
  · nofun

theorem Inv.exitWithXstate (h : Inv s) (hc : s.cpu c = .run p) : Inv (s.exitWithXstate c p) := by
  have hstate := h.running c p hc
  have hnot : p ∉ s.queue := h.not_queued (by rw [hstate]; nofun)
  have hrep : Inv ((s.reparent p).unlink p) := by
    apply h.congr
    · rfl
    · exact erase_of_not_mem hnot
    · rfl
    · rfl
    · rfl
    · intro q
      simp only [unlink,reparent]
      split <;> exact ⟨rfl,rfl,rfl,rfl⟩
  apply hrep.own hc
  · rfl
  · nofun
  · nofun
  · nofun
  · rintro (hr | hr | hr) <;> cases hr
  · nofun
  · nofun

theorem Inv.procAlloc (h : Inv s) (hc : s.cpu c = .run p) : Inv (s.procAlloc p).1 := by
  unfold State.procAlloc
  split
  · exact h
  rename_i np hnp
  have hunused : (s.proc np).state = .unused := by
    have := find?_some hnp
    simp only [Bool.and_eq_true,decide_eq_true_eq] at this
    exact this.2
  have hstate := h.running c p hc
  have hne : p ≠ np := by
    rintro rfl
    rw [hstate] at hunused
    cases hunused
  have hno := h.uncreated (p := np) (by rw [hunused]; nofun)
  rw [if_neg (h.not_queued (by rw [hunused]; nofun))]
  obtain ⟨r,hr⟩ : ∃ r : Proc, r = { Proc.clear with state := .used, pid := s.nextpid } := ⟨_,rfl⟩
  rw [← hr]
  have htaken : Inv (s.setProc np r) := by
    apply h.slot (Proc.not_inUse (.inl hunused)) (Proc.not_inUse (.inr (.inl (by rw [hr]))))
    · rw [hr]
      nofun
    · rw [hr]
      nofun
    · exact fun q _ hq => absurd hq (hno q)
  have hmark : Inv ((s.setProc np r).setProc p { (s.setProc np r).proc p with
      pos := .creating np }) := by
    apply htaken.setPos hc
    rintro _ ⟨⟩
    refine ⟨hne.symm,by rw [setProc_self,hr],by rw [setProc_self,hr]; rfl,fun q hq => ?_⟩
    by_cases hqn : q = np
    · rw [hqn,setProc_self,hr] at hq
      cases hq
    · rw [setProc_ne hqn] at hq
      exact absurd hq (hno q)
  rw [setProc_ne hne] at hmark
  exact hmark.congr rfl rfl rfl rfl rfl fun _ => ⟨rfl,rfl,rfl,rfl⟩

theorem Inv.letGo (h : Inv s) (hc : s.cpu c = .run p) (hpos : (s.proc p).pos = .creating np) :
    Inv (s.setProc p { s.proc p with pos := .code }) ∧ np ≠ p ∧
      (∀ q, ((s.setProc p { s.proc p with pos := .code }).proc q).pos ≠ .creating np) ∧
      (s.proc np).state = .used ∧ (s.proc np).kstack = false := by
  obtain ⟨hne,hused,hnone,huniq⟩ := h.fresh p np hpos
  refine ⟨h.setPos hc nofun,hne,fun q hq => ?_,hused,hnone⟩
  by_cases hqp : q = p
  · rw [hqp] at hq
    simp [setProc] at hq
  have hq' : (s.proc q).pos = .creating np := by
    simpa [setProc,hqp] using hq
  exact hqp (huniq q hq')

theorem Inv.publish (h : Inv s) (hc : s.cpu c = .run p) (hpos : (s.proc p).pos = .creating np) :
    Inv (s.publish p np) := by
  obtain ⟨hgo,hne,hno,hused,-⟩ := h.letGo hc hpos
  rw [State.publish,enqueue_proc,setProc_ne hne.symm,enqueue_setProc hne,setProc_comm hne]
  apply hgo.ready
  · rw [setProc_ne hne,hused]
    nofun
  · rw [setProc_ne hne,hused]
    nofun
  · rfl
  · rfl
  · exact .inl rfl
  · exact setProc_ne hne ▸ hgo.fresh np
  · exact hno

theorem Inv.procFree (h : Inv s) (hc : s.cpu c = .run p) (hpos : (s.proc p).pos = .creating np) :
    Inv (s.procFree p np).1 := by
  obtain ⟨hgo,hne,hno,hused,-⟩ := h.letGo hc hpos
  have hgone : s.unlink np = s := by
    rw [unlink,erase_of_not_mem (h.not_queued (by rw [hused]; nofun))]
  rw [State.procFree,hgone]
  dsimp only
  rw [setProc_ne hne.symm,setProc_comm hne]
  apply hgo.free
  · exact .inr (.inr (by rw [setProc_ne hne,hused]))
  · rfl
  · rw [setProc_ne hne]
  · exact hno

theorem Inv.waitScan (h : Inv s) (hc : s.cpu c = .run p) (pid : Int) :
    Inv (s.waitScan p pid).1 := by
  unfold State.waitScan
  split
  · rename_i z hz
    exact (h.zombieReap (waitScan_zombie hz).2).setPos hc nofun
  split
  · exact h.setPos hc nofun
  · exact h.setPos hc nofun

theorem Inv.exitWake (h : Inv s) {parent : Option Slot} (hc : s.cpu c = .exiting p parent) :
    Inv ((s.wakeParent parent).setCpu c (.leave p true)) := by
  have hheld : ((s.wakeParent parent).cpu c).holder = some p := by
    rw [(wakes_wakeParent s parent).woken.cpu,hc]
    rfl
  apply (h.wakes (wakes_wakeParent s parent)).setCpu (p := p)
  · intro q hq
    rw [hheld] at hq
    exact (some.inj hq).symm
  · exact fun q hq => (some.inj hq).symm
  · exact fun _ => hheld
  · nofun
  · nofun
  · exact fun _ => .inr (.inl rfl)

def HeadFree (s : State C) : Op C → Prop
  | .dispatch _ => ∀ p ∈ s.queue.head?, ∀ d, (s.cpu d).leaving ≠ some p
  | _ => True

instance [Fintype C] (s : State C) (op : Op C) : Decidable (HeadFree s op) := by
  apply Op.casesOn (motive := fun op => Decidable (HeadFree s op)) op <;> intros <;> unfold HeadFree <;>
    infer_instance

theorem Inv.schedulerSection (h : Inv s) (hc : s.cpu c = .sched) (hfree : HeadFree s (.dispatch c)) :
    Inv (s.schedulerSection c) := by
  cases hq : s.queue with
  | nil =>
    unfold State.schedulerSection
    rw [hq]
    exact h
  | cons p rest =>
    have hready : (s.proc p).state = .runnable := (h.fits p).queued.mp (by rw [hq]; simp)
    refine h.dispatch hc hq fun d hd => hfree p (by rw [hq]; rfl) d (h.leaving ?_ hd)
    rw [hready]
    nofun

theorem Inv.step (h : Inv s) {op : Op C} {r : State C × List Event} (hfree : HeadFree s op)
    (hs : s.step op = some r) : Inv r.1 := by
  cases step_move hs with
  | dispatch hc => exact h.schedulerSection hc hfree
  | switchIn hc => exact h.switchIn hc
  | switchOut hc => exact h.sched hc
  | reap hc => exact h.kthreadReap hc
  | yield hc => exact h.yield hc
  | preempt hc => exact h.preemptCheck hc
  | sleep hc _ _ | sleepDeadline hc _ _ => exact h.sleepOn hc (h.fresh _)
  | @wakeup chan =>
    dsimp only
    exact h.wakes (wakes_wakeup s chan)
  | @tick c now =>
    dsimp only
    exact h.wakes (wakes_schedTick s c now)
  | @signalSend pid => exact h.wakes (wakes_signalSend s pid)
  | alloc hc _ => exact h.procAlloc hc
  | publish hc hpos => exact h.publish hc hpos
  | abandon hc hpos => exact h.procFree hc hpos
  | exitCall hc _ _ | wait hc _ => exact h.setPos hc nofun
  | exitPublish hc _ => exact h.exitWithXstate hc
  | exitWake hc => exact h.exitWake hc
  | kthreadExit hc _ => exact h.kthreadExit hc
  | waitScan hc _ => exact h.waitScan hc _
  | waitSleep hc _ => exact h.sleepOn hc nofun

theorem run_inv {ops : List (Op C)} {out : List (List Event)}
    (hgood : Always State.step HeadFree State.boot ops)
    (h : run State.step State.boot ops = some (s,out)) : Inv s :=
  run_history (I := fun _ s => Inv s) (fun _ _ _ _ _ hI hgood hs => hI.step hgood hs)
    boot_inv hgood h

end TinyOs.Sched
