import TinyOs.Sched.Machine

namespace TinyOs.Sched

open List
open Function (update update_of_ne update_self)

variable {C : Type} {s s' : State C} {c : C} {p q np : Slot} {r : Proc} {pc : Pc}

def Proc.parked (r : Proc) : Prop := r.state = .runnable ∨ r.state = .sleeping

def Proc.inUse (r : Proc) : Prop := r.state = .running ∨ r.parked

structure Proc.Fits (r : Proc) (queue : List Slot) (cpu : C → Pc) (p : Slot) : Prop where
  queued : p ∈ queue ↔ r.state = .runnable
  one : ∀ c c', (cpu c).holder = some p → (cpu c').holder = some p → c = c'
  dispatching : ∀ c, cpu c = .dispatching p → r.state = .running ∧ r.saved = true
  running : ∀ c, cpu c = .run p → r.state = .running
  parked : r.parked → r.saved = true ∨ ∃ c, (cpu c).holder = some p
  stack : r.inUse → r.kstack = true
  exiting : ∀ k, r.pos = .exitCalled k → r.inUse

def Fresh (s : State C) (p np : Slot) : Prop :=
  np ≠ p ∧ (s.proc np).state = .used ∧ (s.proc np).kstack = false ∧
    ∀ q, (s.proc q).pos = .creating np → q = p

structure Inv (s : State C) : Prop where
  alive : s.panicked = false
  nodup : s.queue.Nodup
  fifo : s.readied = s.dispatched ++ s.queue
  fits : ∀ p, (s.proc p).Fits s.queue s.cpu p
  fresh : ∀ p np, (s.proc p).pos = .creating np → Fresh s p np

theorem holder_dispatching (h : pc = .dispatching q) : pc.holder = some q := by
  rw [h]
  rfl

theorem holder_run (h : pc = .run q) : pc.holder = some q := by
  rw [h]
  rfl

theorem Inv.leaving (h : Inv s) (hp : (s.proc p).state ≠ .running)
    (hc : (s.cpu c).holder = some p) : (s.cpu c).leaving = some p := by
  cases hpc : s.cpu c with
  | sched | back q =>
    rw [hpc] at hc
    cases hc
  | dispatching q =>
    rw [hpc] at hc
    cases hc
    exact absurd ((h.fits p).dispatching c hpc).1 hp
  | run q =>
    rw [hpc] at hc
    cases hc
    exact absurd ((h.fits p).running c hpc) hp
  | exiting q parent | leave q final =>
    rw [hpc] at hc
    exact hc

theorem Proc.Fits.frame {r' : Proc} {l l' : List Slot} {f f' : C → Pc} (h : r.Fits l f p)
    (hr : r'.state = r.state ∧ r'.saved = r.saved ∧ r'.kstack = r.kstack ∧ r'.pos = r.pos)
    (hl : p ∈ l' ↔ p ∈ l)
    (hf : ∀ d, f' d = f d ∨ (f d).holder ≠ some p ∧ (f' d).holder ≠ some p) : r'.Fits l' f' p := by
  obtain ⟨hstate,hsaved,hkstack,hpos⟩ := hr
  have hcpu : ∀ d, (f' d).holder = some p → f' d = f d := fun d hd =>
    (hf d).resolve_right fun hno => hno.2 hd
  constructor
  · rw [hl,hstate]
    exact h.queued
  · intro d d' hd hd'
    rw [hcpu d hd] at hd
    rw [hcpu d' hd'] at hd'
    exact h.one d d' hd hd'
  · intro d hd
    rw [hcpu d (holder_dispatching hd)] at hd
    rw [hstate,hsaved]
    exact h.dispatching d hd
  · intro d hd
    rw [hcpu d (holder_run hd)] at hd
    rw [hstate]
    exact h.running d hd
  · rw [Proc.parked,hstate,hsaved]
    refine fun hpark => (h.parked hpark).imp_right fun ⟨d,hd⟩ => ⟨d,?_⟩
    rwa [(hf d).resolve_right fun hno => hno.1 hd]
  · rw [Proc.inUse,Proc.parked,hstate,hkstack]
    exact h.stack
  · rw [hpos,Proc.inUse,Proc.parked,hstate]
    exact h.exiting

theorem Fresh.same (h : Fresh s p np)
    (hstate : (s'.proc np).state = .used ∧ (s'.proc np).kstack = false)
    (hpos : ∀ q, (s'.proc q).pos = .creating np → q = p ∨ (s.proc q).pos = .creating np) :
    Fresh s' p np :=
  ⟨h.1,hstate.1,hstate.2,fun q hq => (hpos q hq).elim id (h.2.2.2 q)⟩

theorem Inv.put (h : Inv s) (halive : s'.panicked = s.panicked)
    (hproc : s'.proc = update s.proc p r) (hnodup : s'.queue.Nodup)
    (hfifo : s'.readied = s'.dispatched ++ s'.queue)
    (hqueue : ∀ q, q ≠ p → (q ∈ s'.queue ↔ q ∈ s.queue)) (hcpu : ∀ q, q ≠ p → ∀ d,
      s'.cpu d = s.cpu d ∨ (s.cpu d).holder ≠ some q ∧ (s'.cpu d).holder ≠ some q)
    (hfits : r.Fits s'.queue s'.cpu p) (hpos : ∀ np, r.pos = .creating np → Fresh s p np)
    (hcreated : ∀ q, q ≠ p → (s.proc q).pos = .creating p → r.state = .used ∧ r.kstack = false) :
    Inv s' := by
  have hself : s'.proc p = r := by rw [hproc,update_self]
  have hne : ∀ q, q ≠ p → s'.proc q = s.proc q := fun q hq => by rw [hproc,update_of_ne hq]
  refine ⟨halive.trans h.alive,hnodup,hfifo,fun q => ?_,fun q np hq => ?_⟩
  · by_cases hqp : q = p
    · rw [hqp,hself]
      exact hfits
    · rw [hne q hqp]
      exact (h.fits q).frame ⟨rfl,rfl,rfl,rfl⟩ (hqueue q hqp) (hcpu q hqp)
  by_cases hqp : q = p
  · rw [hqp,hself] at hq
    have hf := hpos np hq
    rw [hqp]
    refine hf.same (by rw [hne np hf.1]; exact ⟨hf.2.1,hf.2.2.1⟩) fun x hx => ?_
    by_cases hxp : x = p
    · exact .inl hxp
    · exact .inr (hne x hxp ▸ hx)
  rw [hne q hqp] at hq
  have hf := h.fresh q np hq
  refine hf.same ?_ fun x hx => ?_
  · by_cases hnp : np = p
    · rw [hnp,hself]
      exact hcreated q hqp (hnp ▸ hq)
    · rw [hne np hnp]
      exact ⟨hf.2.1,hf.2.2.1⟩
  · by_cases hxp : x = p
    · rw [hxp,hself] at hx
      exact absurd ((hpos np hx).2.2.2 q hq) hqp
    · exact .inr (hne x hxp ▸ hx)

theorem Inv.running (h : Inv s) (c : C) (p : Slot) (hc : s.cpu c = .run p) :
    (s.proc p).state = .running := (h.fits p).running c hc

theorem Inv.not_queued (h : Inv s) (hp : (s.proc p).state ≠ .runnable) : p ∉ s.queue := fun hq =>
  hp ((h.fits p).queued.mp hq)

theorem Inv.uncreated (h : Inv s) (hp : (s.proc p).state ≠ .used) (q : Slot) :
    (s.proc q).pos ≠ .creating p := fun hq =>
  hp (h.fresh q p hq).2.1

theorem Inv.congr (h : Inv s) (halive : s'.panicked = s.panicked) (hqueue : s'.queue = s.queue)
    (hcpu : s'.cpu = s.cpu) (hreadied : s'.readied = s.readied)
    (hdispatched : s'.dispatched = s.dispatched)
    (hproc : ∀ q, (s'.proc q).state = (s.proc q).state ∧ (s'.proc q).saved = (s.proc q).saved ∧
      (s'.proc q).kstack = (s.proc q).kstack ∧ (s'.proc q).pos = (s.proc q).pos) : Inv s' := by
  refine ⟨by rw [halive,h.alive],by rw [hqueue]; exact h.nodup,?_,fun q => ?_,fun q np hq => ?_⟩
  · rw [hreadied,hdispatched,hqueue]
    exact h.fifo
  · rw [hqueue,hcpu]
    exact (h.fits q).frame (hproc q) Iff.rfl fun _ => .inl rfl
  · have hf := h.fresh q np ((hproc q).2.2.2 ▸ hq)
    refine hf.same ⟨(hproc np).1.trans hf.2.1,(hproc np).2.2.1.trans hf.2.2.1⟩ fun x hx => ?_
    exact .inr ((hproc x).2.2.2 ▸ hx)

theorem setProc_saved (s : State C) (p : Slot) :
    s.setProc p { s.proc p with saved := (s.proc p).saved } = s := by
  simp [State.setProc]

theorem Inv.slot (h : Inv s) (hold : ¬ (s.proc q).inUse) (hnew : ¬ r.inUse)
    (hpos : ∀ np, r.pos = .creating np → Fresh s q np) (hexit : ∀ k, r.pos ≠ .exitCalled k)
    (hcreated : ∀ p, p ≠ q → (s.proc p).pos = .creating q → r.state = .used ∧ r.kstack = false) :
    Inv (s.setProc q r) := by
  have hq := h.fits q
  refine h.put rfl rfl h.nodup h.fifo (fun _ _ => Iff.rfl) (fun _ _ _ => .inl rfl) ?_ hpos hcreated
  constructor
  · have hnot : q ∉ s.queue := h.not_queued fun hq => hold (.inr (.inl hq))
    exact ⟨fun hq => absurd hq hnot,fun hq => absurd (.inr (.inl hq)) hnew⟩
  · exact hq.one
  · exact fun d hd => absurd (.inl (hq.dispatching d hd).1) hold
  · exact fun d hd => absurd (.inl (hq.running d hd)) hold
  · exact fun hpark => absurd (.inr hpark) hnew
  · exact fun huse => absurd huse hnew
  · exact fun k hk => absurd hk (hexit k)

theorem enqueue_eq {s : State C} (hr : (s.proc q).state = .runnable) (hq : q ∉ s.queue) :
    s.enqueue q = { s with queue := s.queue ++ [q], readied := s.readied ++ [q] } := by
  rw [State.enqueue,if_neg]
  rintro (hne | hmem)
  · exact hne hr
  · exact hq hmem

theorem Inv.ready (h : Inv s) (hold : (s.proc q).state ≠ .running)
    (hnq : (s.proc q).state ≠ .runnable) (hr : r.state = .runnable) (hstack : r.kstack = true)
    (hpark : r.saved = true ∨ ∃ d, (s.cpu d).holder = some q)
    (hpos : ∀ np, r.pos = .creating np → Fresh s q np)
    (hcreated : ∀ p, (s.proc p).pos ≠ .creating q) : Inv ((s.setProc q r).enqueue q) := by
  have hnot : q ∉ s.queue := h.not_queued hnq
  have hq := h.fits q
  rw [enqueue_eq (s := s.setProc q r) (by rw [setProc_self,hr]) hnot]
  refine h.put rfl rfl ?_ ?_ ?_ (fun _ _ _ => .inl rfl) ?_ hpos fun p _ hp => absurd hp (hcreated p)
  · exact nodup_append.mpr ⟨h.nodup,nodup_singleton q,fun x hx y hy heq =>
      hnot (mem_singleton.mp hy ▸ heq ▸ hx)⟩
  · change s.readied ++ [q] = s.dispatched ++ (s.queue ++ [q])
    rw [h.fifo,append_assoc]
  · intro x hx
    change x ∈ s.queue ++ [q] ↔ x ∈ s.queue
    simp [hx]
  constructor
  · simp [hr]
  · exact hq.one
  · exact fun d hd => absurd (hq.dispatching d hd).1 hold
  · exact fun d hd => absurd (hq.running d hd) hold
  · exact fun _ => hpark
  · exact fun _ => hstack
  · exact fun _ _ => .inr (.inl hr)

section

variable [DecidableEq C]

theorem turned (hold : ∀ q, (s.cpu c).holder = some q → q = p)
    (hnew : ∀ q, pc.holder = some q → q = p) (q : Slot) (hq : q ≠ p) (d : C) :
    update s.cpu c pc d = s.cpu d ∨
      (s.cpu d).holder ≠ some q ∧ (update s.cpu c pc d).holder ≠ some q := by
  by_cases hd : d = c
  · rw [hd,update_self]
    exact .inr ⟨fun heq => hq (hold q heq),fun heq => hq (hnew q heq)⟩
  · exact .inl (update_of_ne hd ..)

theorem Inv.own (h : Inv s) (hc : s.cpu c = .run p)
    (hholder : pc.holder = some p) (hnd : pc ≠ .dispatching p)
    (hrun : pc = .run p → r.state = .running) (hnr : r.state ≠ .runnable)
    (hstack : r.inUse → r.kstack = (s.proc p).kstack)
    (hpos : ∀ np, r.pos = .creating np → Fresh s p np)
    (hexit : ∀ k, r.pos = .exitCalled k → r.inUse) : Inv ((s.setProc p r).setCpu c pc) := by
  have hstate := h.running c p hc
  have hp := h.fits p
  have hheld : (s.cpu c).holder = some p := holder_run hc
  have honly : ∀ d, (update s.cpu c pc d).holder = some p → d = c := by
    intro d hd
    by_contra hne
    rw [update_of_ne hne] at hd
    exact hne (hp.one d c hd hheld)
  refine h.put rfl rfl h.nodup h.fifo (fun _ _ => Iff.rfl) (turned ?_ ?_) ?_ hpos ?_
  · exact fun q hq => Option.some.inj (hq.symm.trans hheld)
  · exact fun q hq => Option.some.inj (hq.symm.trans hholder)
  · constructor
    · have hnot : p ∉ s.queue := h.not_queued (by rw [hstate]; nofun)
      exact ⟨fun hq => absurd hq hnot,fun hq => absurd hq hnr⟩
    · exact fun d d' hd hd' => (honly d hd).trans (honly d' hd').symm
    · intro d hd
      rw [honly d (holder_dispatching hd),setCpu_self] at hd
      exact absurd hd hnd
    · intro d hd
      rw [honly d (holder_run hd),setCpu_self] at hd
      exact hrun hd
    · exact fun _ => .inr ⟨c,by rw [setCpu_self,hholder]⟩
    · intro huse
      rw [hstack huse]
      exact hp.stack (.inl hstate)
    · exact hexit
  · exact fun q _ hq => absurd hq (h.uncreated (by rw [hstate]; nofun) q)

theorem Inv.turn (h : Inv s) (b : Bool) (hold : ∀ q, (s.cpu c).holder = some q → q = p)
    (hnew : ∀ q, pc.holder = some q → q = p)
    (hheld : pc.holder = some p → (s.cpu c).holder = some p) (hnd : pc ≠ .dispatching p)
    (hrun : pc = .run p → (s.proc p).state = .running)
    (hothers : b = true ∨ ∀ d, d ≠ c → s.cpu d ≠ .dispatching p) (hpark : (s.proc p).parked →
      b = true ∨ pc.holder = some p ∨ ∃ d, d ≠ c ∧ (s.cpu d).holder = some p) :
    Inv ((s.setProc p { s.proc p with saved := b }).setCpu c pc) := by
  have hp := h.fits p
  have hback : ∀ d, (update s.cpu c pc d).holder = some p → (s.cpu d).holder = some p := by
    intro d hd
    by_cases hdc : d = c
    · rw [hdc,update_self] at hd
      rw [hdc]
      exact hheld hd
    · rwa [update_of_ne hdc] at hd
  refine h.put rfl rfl h.nodup h.fifo (fun _ _ => Iff.rfl) (turned hold hnew) ?_ (h.fresh p)
    fun q _ hq => ⟨(h.fresh q p hq).2.1,(h.fresh q p hq).2.2.1⟩
  constructor
  · exact hp.queued
  · exact fun d d' hd hd' => hp.one d d' (hback d hd) (hback d' hd')
  · intro d hd
    by_cases hdc : d = c
    · rw [hdc,setCpu_self] at hd
      exact absurd hd hnd
    rw [setCpu_ne hdc] at hd
    exact ⟨(hp.dispatching d hd).1,hothers.resolve_right fun hno => hno d hdc hd⟩
  · intro d hd
    by_cases hdc : d = c
    · rw [hdc,setCpu_self] at hd
      exact hrun hd
    · rw [setCpu_ne hdc] at hd
      exact hp.running d hd
  · intro hparked
    rcases hpark hparked with hb | hpc | ⟨d,hdc,hd⟩
    · exact .inl hb
    · exact .inr ⟨c,by rw [setCpu_self,hpc]⟩
    · exact .inr ⟨d,by rw [setCpu_ne hdc]; exact hd⟩
  · exact hp.stack
  · exact hp.exiting

theorem Inv.dispatch (h : Inv s) {rest : List Slot} (hc : s.cpu c = .sched)
    (hq : s.queue = p :: rest) (hfree : ∀ d, (s.cpu d).holder ≠ some p) :
    Inv (s.schedulerSection c) := by
  have hp := h.fits p
  have hstate : (s.proc p).state = .runnable := hp.queued.mp (by rw [hq]; simp)
  have hkstack : (s.proc p).kstack = true := hp.stack (.inr (.inl hstate))
  have hsaved : (s.proc p).saved = true :=
    (hp.parked (.inl hstate)).resolve_right fun ⟨d,hd⟩ => hfree d hd
  have hnodup := h.nodup
  have hfifo := h.fifo
  rw [hq] at hnodup hfifo
  obtain ⟨hnot,hrest⟩ := nodup_cons.mp hnodup
  have hsec : s.schedulerSection c =
      { (s.setProc p { s.proc p with state := .running }).setCpu c (.dispatching p) with
        queue := rest, dispatched := s.dispatched ++ [p] } := by
    unfold State.schedulerSection
    rw [hq]
    simp [hstate,hkstack]
  have honly : ∀ d, (update s.cpu c (.dispatching p) d).holder = some p → d = c := by
    intro d hd
    by_contra hdc
    rw [update_of_ne hdc] at hd
    exact hfree d hd
  rw [hsec]
  refine h.put rfl rfl hrest ?_ ?_ (turned (s := s) ?_ ?_) ?_ (h.fresh p) ?_
  · change s.readied = s.dispatched ++ [p] ++ rest
    rw [hfifo,append_assoc,singleton_append]
  · intro q hne
    rw [hq]
    simp [hne]
  · rw [hc]
    nofun
  · exact fun q hq => (Option.some.inj hq).symm
  · constructor
    · exact ⟨fun hmem => absurd hmem hnot,nofun⟩
    · exact fun d d' hd hd' => (honly d hd).trans (honly d' hd').symm
    · exact fun _ _ => ⟨rfl,hsaved⟩
    · exact fun _ _ => rfl
    · rintro (hr | hr) <;> cases hr
    · exact fun _ => hkstack
    · exact fun _ _ => .inl rfl
  · exact fun q _ hpos => absurd hpos (h.uncreated (by rw [hstate]; nofun) q)

end

end TinyOs.Sched
