import TinyOs.Block.Waiters

namespace TinyOs.Block

open List
open Function (update update_of_ne update_self)
open Locks (Held)

variable {P D C : Type} [DecidableEq P] [DecidableEq D] [DecidableEq C] {ide : Ide D C}
  {s s' : State P D C} {op : Op P D} {p q x : P} {c : C} {d : D} {pc pc' : Pc P D C}

section Pick

omit [DecidableEq P] [DecidableEq D]

theorem ideChanPick_some {rest : List P} (h : ideChanPick ide s c = some (d,q,rest)) :
    ide.chan d = c ∧ s.queue d = q :: rest := by
  obtain ⟨d',-,hd⟩ := exists_of_findSome?_eq_some h
  split at hd
  · rename_i hc
    split at hd
    · cases hd
    rename_i hq
    cases hd
    exact ⟨hc,hq⟩
  · cases hd

theorem ideChanPick_none (h : ideChanPick ide s c = none) (hd : ide.chan d = c) :
    s.queue d = [] := by
  have hpick := findSome?_eq_none_iff.mp h d (ide.all d)
  rw [if_pos hd] at hpick
  split at hpick
  · rename_i hq
    exact hq
  · cases hpick

end Pick

omit [DecidableEq D] [DecidableEq C] in
theorem update_same {α : Type} {f : Pc P D C → α} (hpc : s.pc p = pc) (hf : f pc' = f pc) (r : P) :
    f (update s.pc p pc' r) = f (s.pc r) := by
  by_cases hr : r = p
  · rw [hr,update_self,hf,hpc]
  · rw [update_of_ne hr]

inductive Place (P D : Type) where
  | start
  | queued (d : D)
  | hand (r : P)
  | finished

structure At (s : State P D C) (p : P) (a : Place P D) : Prop where
  start : (s.pc p).before ↔ a = .start
  queue : ∀ d, p ∈ s.queue d ↔ a = .queued d
  hand : ∀ r, (s.pc r).hand = some p ↔ a = .hand r
  finished : s.done p = true ↔ a = .finished

namespace At

omit [DecidableEq P] [DecidableEq D] [DecidableEq C]

variable {a : Place P D}

theorem frame (h : At s p a) (hstart : (s'.pc p).before ↔ (s.pc p).before)
    (hqueue : ∀ d, p ∈ s'.queue d ↔ p ∈ s.queue d)
    (hhand : ∀ r, (s'.pc r).hand = some p ↔ (s.pc r).hand = some p)
    (hdone : s'.done p = s.done p) : At s' p a where
  start := hstart.trans h.start
  queue := fun d => (hqueue d).trans (h.queue d)
  hand := fun r => (hhand r).trans (h.hand r)
  finished := hdone ▸ h.finished

theorem of_start (h : At s p a) (hpc : (s.pc p).before) : At s p .start := h.start.mp hpc ▸ h

theorem of_queue (h : At s p a) (hq : p ∈ s.queue d) : At s p (.queued d) := (h.queue d).mp hq ▸ h

theorem of_hand (h : At s p a) {r : P} (hr : (s.pc r).hand = some p) : At s p (.hand r) :=
  (h.hand r).mp hr ▸ h

theorem of_finished (h : At s p a) (hd : s.done p = true) : At s p .finished := h.finished.mp hd ▸ h

end At

section Moves

omit [DecidableEq D] [DecidableEq C]

variable {a b : Place P D}

theorem At.keep (h : At s x a) (hpc : s.pc p = pc) (hnew : s'.pc = update s.pc p pc')
    (hqueue : s'.queue = s.queue) (hdone : s'.done = s.done) (hbefore : pc'.before = pc.before)
    (hhand : pc'.hand = pc.hand) : At s' x a := by
  refine h.frame ?_ (fun d => by rw [hqueue]) (fun r => ?_) (by rw [hdone])
  · rw [hnew,update_same hpc hbefore]
  · rw [hnew,update_same hpc hhand]

theorem at_call (h : At s x a) (hpc : s.pc p = .idle) (hover : s.done p = true)
    (hnew : s'.pc = update s.pc p .submit) (hqueue : s'.queue = s.queue)
    (hdone : s'.done = update s.done p false) : ∃ a', At s' x a' := by
  have hhand : ∀ r, (s'.pc r).hand = (s.pc r).hand := hnew ▸ update_same hpc rfl
  by_cases hx : x = p
  · subst hx
    have ho := h.of_finished hover
    refine ⟨.start,⟨?_,fun d => ?_,fun r => ?_,?_⟩⟩
    · rw [hnew,update_self]
      exact iff_of_true trivial rfl
    · rw [hqueue,ho.queue]
      exact iff_of_false nofun nofun
    · rw [hhand,ho.hand]
      exact iff_of_false nofun nofun
    · rw [hdone,update_self]
      exact iff_of_false nofun nofun
  · refine ⟨a,h.frame ?_ (fun d => by rw [hqueue]) (fun r => by rw [hhand]) ?_⟩
    · rw [hnew,update_of_ne hx]
    · rw [hdone,update_of_ne hx]

theorem at_hand (h : At s x a) (hq : At s q b) (hfree : ∀ r, b ≠ .hand r)
    (hopen : b ≠ .finished) (hpc : s.pc p = pc) (hnone : pc.hand = none)
    (hnew : s'.pc = update s.pc p pc') (hhand : pc'.hand = some q)
    (hstart : (s'.pc x).before ↔ x ≠ q ∧ (s.pc x).before)
    (hqueue : ∀ d, x ∈ s'.queue d ↔ x ≠ q ∧ x ∈ s.queue d) (hdone : s'.done = s.done) :
    ∃ a', At s' x a' := by
  have hself : (s'.pc p).hand = some q := by rw [hnew,update_self,hhand]
  have hother : ∀ r ≠ p, s'.pc r = s.pc r := fun r hr => by rw [hnew,update_of_ne hr]
  by_cases hx : x = q
  · subst hx
    refine ⟨.hand p,⟨?_,fun d => ?_,fun r => ?_,?_⟩⟩
    · rw [hstart]
      exact iff_of_false (fun hne => hne.1 rfl) nofun
    · rw [hqueue]
      exact iff_of_false (fun hne => hne.1 rfl) nofun
    · by_cases hr : r = p
      · rw [hr,hself]
        exact iff_of_true rfl rfl
      · rw [hother r hr,hq.hand]
        exact iff_of_false (hfree r) fun he => hr (Place.hand.inj he).symm
    · rw [hdone,hq.finished]
      exact iff_of_false hopen nofun
  · refine ⟨a,h.frame ?_ (fun d => ?_) (fun r => ?_) (by rw [hdone])⟩
    · rw [hstart,and_iff_right hx]
    · rw [hqueue,and_iff_right hx]
    · by_cases hr : r = p
      · rw [hr,hself,hpc,hnone]
        exact iff_of_false (fun he => hx (Option.some.inj he).symm) nofun
      · rw [hother r hr]

theorem at_refuse (h : At s x a) (hp : At s p b) (hpc : s.pc p = .submit)
    (hnew : s'.pc = update s.pc p (.endIo p none)) (hqueue : s'.queue = s.queue)
    (hdone : s'.done = s.done) : ∃ a', At s' x a' := by
  have ho := hp.of_start (hpc ▸ trivial)
  refine at_hand h ho nofun nofun hpc rfl hnew rfl ?_ (fun d => ?_) hdone
  · rw [hnew]
    by_cases hx : x = p
    · rw [hx,update_self]
      exact iff_of_false id fun hne => hne.1 rfl
    · rw [update_of_ne hx,and_iff_right hx]
  · rw [hqueue]
    refine (and_iff_right_of_imp ?_).symm
    rintro hx rfl
    cases (ho.queue d).mp hx

variable [DecidableEq D]

theorem at_push (h : At s x a) (hpc : s.pc p = .enqueue d) (hnew : s'.pc = update s.pc p pc')
    (hafter : ¬ pc'.before) (hhand : pc'.hand = none)
    (hqueue : s'.queue = update s.queue d (s.queue d ++ [p])) (hdone : s'.done = s.done) :
    ∃ a', At s' x a' := by
  have hhands : ∀ r, (s'.pc r).hand = (s.pc r).hand := hnew ▸ update_same hpc hhand
  by_cases hx : x = p
  · subst hx
    have ho := h.of_start (hpc ▸ trivial)
    refine ⟨.queued d,⟨?_,fun d' => ?_,fun r => ?_,?_⟩⟩
    · rw [hnew,update_self]
      exact iff_of_false hafter nofun
    · rw [hqueue]
      by_cases hd : d' = d
      · subst hd
        rw [update_self]
        exact iff_of_true (mem_append_right _ (mem_singleton_self x)) rfl
      · rw [update_of_ne hd,ho.queue]
        exact iff_of_false nofun fun he => hd (Place.queued.inj he).symm
    · rw [hhands,ho.hand]
      exact iff_of_false nofun nofun
    · rw [hdone,ho.finished]
      exact iff_of_false nofun nofun
  · refine ⟨a,h.frame ?_ (fun d' => ?_) (fun r => by rw [hhands]) (by rw [hdone])⟩
    · rw [hnew,update_of_ne hx]
    rw [hqueue]
    by_cases hd : d' = d
    · rw [hd,update_self,mem_append,mem_singleton]
      exact or_iff_left hx
    · rw [update_of_ne hd]

theorem at_pick {rest : List P} (h : At s x a) (hq : At s q b)
    (hpc : s.pc p = .run c) (hnew : s'.pc = update s.pc p pc') (hbefore : pc'.before = False)
    (hhand : pc'.hand = some q) (hold : s.queue d = q :: rest) (hnodup : (s.queue d).Nodup)
    (hqueue : s'.queue = update s.queue d rest) (hdone : s'.done = s.done) : ∃ a', At s' x a' := by
  have ho := hq.of_queue (d := d) (hold ▸ mem_cons_self)
  refine at_hand h ho nofun nofun hpc rfl hnew hhand ?_ (fun d' => ?_) hdone
  · rw [hnew,update_same (f := Pc.before) hpc hbefore]
    refine (and_iff_right_of_imp ?_).symm
    rintro hx rfl
    cases ho.start.mp hx
  rw [hqueue]
  by_cases hd : d' = d
  · rw [hd,update_self,hold,mem_cons]
    have hnot := (nodup_cons.mp (hold ▸ hnodup)).1
    exact ⟨fun hx => ⟨ne_of_mem_of_not_mem hx hnot,.inr hx⟩,fun hx => hx.2.resolve_left hx.1⟩
  rw [update_of_ne hd]
  refine (and_iff_right_of_imp ?_).symm
  rintro hx rfl
  exact hd (Place.queued.inj ((ho.queue d').mp hx)).symm

theorem at_endIo {next : Option C} (h : At s x a) (hpc : s.pc p = .endIo q next) :
    ∃ a', At (bioWaitEndIo s p q next) x a' := by
  have hself : (bioWaitEndIo s p q next).pc p = .waking q next := update_self ..
  have hother : ∀ r ≠ p, (bioWaitEndIo s p q next).pc r = s.pc r := fun r hr => update_of_ne hr ..
  have hstart : ((bioWaitEndIo s p q next).pc x).before ↔ (s.pc x).before := by
    by_cases hx : x = p
    · rw [hx,hself,hpc]
      exact Iff.rfl
    · rw [hother x hx]
  by_cases hx : x = q
  · subst hx
    have ho := h.of_hand (r := p) (hpc ▸ rfl)
    refine ⟨.finished,⟨?_,fun d => ?_,fun r => ?_,?_⟩⟩
    · rw [hstart,ho.start]
      exact iff_of_false nofun nofun
    · change x ∈ s.queue d ↔ _
      rw [ho.queue]
      exact iff_of_false nofun nofun
    · refine iff_of_false (fun hh => ?_) nofun
      by_cases hr : r = p
      · rw [hr,hself] at hh
        cases hh
      · rw [hother r hr,ho.hand] at hh
        exact hr (Place.hand.inj hh).symm
    · exact iff_of_true (update_self ..) rfl
  · refine ⟨a,h.frame hstart (fun _ => Iff.rfl) (fun r => ?_) (update_of_ne hx ..)⟩
    by_cases hr : r = p
    · rw [hr,hself,hpc]
      exact iff_of_false nofun fun he => hx (Option.some.inj he).symm
    · rw [hother r hr]

end Moves

theorem placed_step (hfit : ∀ x, Fits s x) (hnodup : ∀ d, (s.queue d).Nodup)
    (h : ∀ x, ∃ a, At s x a) (hs : Step ide s op s') (x : P) : ∃ a, At s' x a := by
  obtain ⟨a,ha⟩ := h x
  cases hs with
  | call bio hrun hpc => exact at_call ha hpc ((hfit _).idle hpc) rfl rfl rfl
  | refuse alloc st hrun hpc =>
    obtain ⟨b,hb⟩ := h _
    exact at_refuse ha hb hpc rfl rfl rfl
  | accept hrun hpc hd | rest hrun hpc hpick | finish ok st hrun hpc | clear hrun hpc
  | wake hrun hpc hlock | handOff hrun hpc hlock | unlock hrun hpc
  | park hrun hpc => exact ⟨a,ha.keep hpc rfl rfl rfl rfl rfl⟩
  | push hrun hpc =>
    refine at_push ha hpc rfl ?_ ?_ rfl rfl
    · split <;> exact id
    · split <;> rfl
  | pick hrun hpc hpick =>
    obtain ⟨b,hb⟩ := h _
    exact at_pick ha hb hpc rfl rfl rfl (ideChanPick_some hpick).2 (hnodup _) rfl rfl
  | sector hrun hpc hleft => exact ⟨a,ha.keep hpc rfl rfl rfl (Eq.refl False) (Eq.refl (some _))⟩
  | endIo hrun hpc hlock => exact at_endIo ha hpc
  | release hrun hpc =>
    rename_i next
    cases next <;> exact ⟨a,ha.keep hpc rfl rfl rfl rfl rfl⟩
  | leave hrun hpc hlock hdone | going hrun hpc hlock hdone =>
    rcases hpc with hpc | hpc <;> exact ⟨a,ha.keep hpc rfl rfl rfl rfl rfl⟩
  | signal hlock hsleep
  | dispatch hlock hready => exact ⟨a,ha.frame Iff.rfl (fun _ => Iff.rfl) (fun _ => Iff.rfl) rfl⟩

def State.Over (s : State P D C) (p : P) (k : Nat) : Prop :=
  0 < k ∧ (k < s.calls p ∨ k = s.calls p ∧ s.done p = true)

structure Ended (s : State P D C) : Prop where
  called : ∀ p, s.done p = false → 0 < s.calls p
  once : ∀ p k, s.Over p k → s.ended.count (p,k) = 1
  never : ∀ p k, ¬ s.Over p k → s.ended.count (p,k) = 0

namespace Ended

section

omit [DecidableEq D] [DecidableEq C]

theorem of_over (h : Ended s) (hcalled : ∀ p, s'.done p = false → 0 < s'.calls p)
    (hover : ∀ p k, s'.Over p k ↔ s.Over p k) (hended : s'.ended = s.ended) : Ended s' := by
  refine ⟨hcalled,fun p k hk => ?_,fun p k hk => ?_⟩
  · rw [hended]
    exact h.once p k ((hover p k).mp hk)
  · rw [hended]
    exact h.never p k (mt (hover p k).mpr hk)

theorem keep (h : Ended s) (hdone : s'.done = s.done) (hcalls : s'.calls = s.calls)
    (hended : s'.ended = s.ended) : Ended s' := by
  refine h.of_over ?_ (fun p k => ?_) hended
  · rw [hdone,hcalls]
    exact h.called
  · rw [State.Over,State.Over,hdone,hcalls]

theorem call (h : Ended s) (hover : s.done p = true) (hdone : s'.done = update s.done p false)
    (hcalls : s'.calls = update s.calls p (s.calls p + 1)) (hended : s'.ended = s.ended) :
    Ended s' := by
  refine h.of_over (fun x => ?_) (fun x k => ?_) hended
  · rw [hdone,hcalls]
    by_cases hx : x = p
    · rw [hx,update_self,update_self]
      exact fun _ => Nat.succ_pos _
    · rw [update_of_ne hx,update_of_ne hx]
      exact h.called x
  · rw [State.Over,State.Over,hdone,hcalls]
    by_cases hx : x = p
    · rw [hx,update_self,update_self,hover]
      simp only [Bool.false_eq_true,and_false,or_false,and_true]
      omega
    · rw [update_of_ne hx,update_of_ne hx]

end

omit [DecidableEq C] in
theorem endIo {next : Option C} (h : Ended s) (hdone : s.done q = false) :
    Ended (bioWaitEndIo s p q next) := by
  have hover : ∀ x k, (bioWaitEndIo s p q next).Over x k ↔ s.Over x k ∨ (x,k) = s.tag q := by
    intro x k
    have hpos := h.called q hdone
    change 0 < k ∧ (k < s.calls x ∨ k = s.calls x ∧ update s.done q true x = true) ↔
      (0 < k ∧ (k < s.calls x ∨ k = s.calls x ∧ s.done x = true)) ∨ (x,k) = (q,s.calls q)
    rw [Prod.mk.injEq]
    by_cases hx : x = q
    · rw [hx,update_self,hdone]
      simp only [and_true,Bool.false_eq_true,and_false,or_false,true_and]
      omega
    · rw [update_of_ne hx]
      simp only [hx,false_and,or_false]
  have hnot : ¬ s.Over q (s.calls q) := by
    rintro ⟨-,hlt | ⟨-,hd⟩⟩
    · exact lt_irrefl _ hlt
    · exact Bool.false_ne_true (hdone.symm.trans hd)
  have hcount : ∀ x k, (bioWaitEndIo s p q next).ended.count (x,k) =
      s.ended.count (x,k) + [s.tag q].count (x,k) := fun x k => count_append ..
  refine ⟨fun x hx => ?_,fun x k hk => ?_,fun x k hk => ?_⟩
  · refine h.called x ?_
    change update s.done q true x = false at hx
    by_cases hxq : x = q
    · rw [hxq,update_self] at hx
      cases hx
    · rwa [update_of_ne hxq] at hx
  · rw [hcount]
    rcases (hover x k).mp hk with hold | hnew
    · have hne : (x,k) ≠ s.tag q := by
        rintro ⟨⟩
        exact hnot hold
      rw [h.once x k hold,count_singleton,if_neg (by simpa using hne.symm)]
    · have hold : ¬ s.Over x k := by
        cases hnew
        exact hnot
      rw [h.never x k hold,hnew,count_singleton_self]
  · have hne := mt (hover x k).mpr hk
    rw [not_or] at hne
    rw [hcount,h.never x k hne.1,count_singleton,if_neg (by simpa using Ne.symm hne.2)]

theorem step (h : Ended s) (hfit : ∀ x, Fits s x) (hplace : ∀ x, ∃ a, At s x a)
    (hs : Step ide s op s') : Ended s' := by
  cases hs with
  | call bio hrun hpc => exact h.call ((hfit _).idle hpc) rfl rfl rfl
  | endIo hrun hpc hlock =>
    rename_i p q next
    obtain ⟨a,ha⟩ := hplace q
    have ho := ha.of_hand (r := p) (hpc ▸ rfl)
    refine h.endIo (Bool.eq_false_iff.mpr fun hd => ?_)
    cases ho.finished.mp hd
  | _ => exact h.keep rfl rfl rfl

end Ended

end TinyOs.Block
