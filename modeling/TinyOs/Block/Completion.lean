import TinyOs.Block.Progress

namespace TinyOs.Block

open Function (update update_of_ne update_self)
open Count Machine List Option State
open Sched (ProcState)

variable {P D C : Type} [DecidableEq P] [DecidableEq D] [DecidableEq C] {ide : Ide D C}
  {s s' : State P D C} {op : Op P D} {o : Option (P × Int)} {p q x : P} {c : C} {d : D}
  {pc pc' : Pc P D C}

section Measure

def Pc.weight (st : ProcState) (done : Bool) (sectors : Nat) : Pc P D C → Nat
  | idle => 0
  | check => if done then 3 else 10
  | asleep _ =>
    match st with
    | .sleeping => 6
    | .runnable => if done then 5 else 12
    | _ => if done then 4 else 11
  | parking _ => 7
  | handing _ => 8
  | going _ => 9
  | run _ => 11
  | woke _ _ => 12
  | waking _ _ => 13
  | endIo _ _ => 14
  | executed _ _ _ => 15
  | execute _ _ left => 16 + left / sectSize
  | enqueue _ => 18 + sectors
  | submit => 19 + sectors

namespace State

def sectors (s : State P D C) (p : P) : Nat := (s.bio p).size / sectSize

def work (s : State P D C) (p : P) : Nat := (s.pc p).weight (s.state p) (s.done p) (s.sectors p)

open Classical in
noncomputable def waiting (s : State P D C) (p : P) : Nat :=
  if ∃ d, p ∈ s.queue d then 6 + s.sectors p else 0

noncomputable def measure [Fintype P] (s : State P D C) : Nat := ∑ p, s.work p + ∑ p, s.waiting p

end State

section

omit [DecidableEq P] [DecidableEq D] [DecidableEq C]

theorem weight_done (st : ProcState) (n : Nat) (pc : Pc P D C) (b : Bool) :
    pc.weight st true n ≤ pc.weight st b n := by
  cases b with
  | true => exact le_refl _
  | false =>
    cases pc with
    | check => exact (by decide : 3 ≤ 10)
    | asleep w => cases st <;> simp [Pc.weight]
    | _ => exact le_refl _

theorem waiting_eq (hqueue : (∃ d, x ∈ s'.queue d) ↔ ∃ d, x ∈ s.queue d)
    (hbio : s'.bio x = s.bio x) : s'.waiting x = s.waiting x := by
  classical
  exact if_congr hqueue (by rw [sectors,sectors,hbio]) rfl

theorem work_eq (hpc : s'.pc x = s.pc x) (hstate : s'.state x = s.state x)
    (hdone : s'.done x = s.done x) (hbio : s'.bio x = s.bio x) : s'.work x = s.work x := by
  rw [work,work,sectors,sectors,hpc,hstate,hdone,hbio]

theorem waiting_congr [Fintype P] (hqueue : s'.queue = s.queue) (hbio : s'.bio = s.bio) :
    ∑ x, s'.waiting x = ∑ x, s.waiting x := by
  exact Finset.sum_congr rfl fun x _ => waiting_eq (by rw [hqueue]) (by rw [hbio])

end

variable [Fintype P]

section

omit [DecidableEq D] [DecidableEq C]

theorem measure_lt (hqueue : s'.queue = s.queue) (hbio : s'.bio = s.bio)
    (hothers : ∀ x ≠ p, s'.work x ≤ s.work x) (hp : s'.work p < s.work p) :
    s'.measure < s.measure := by
  rw [State.measure,State.measure,waiting_congr hqueue hbio]
  refine Nat.add_lt_add_right (Finset.sum_lt_sum (fun x _ => ?_) ⟨p,Finset.mem_univ p,hp⟩) _
  by_cases hx : x = p
  · rw [hx]
    exact hp.le
  · exact hothers x hx

theorem measure_lt_of_move (hpc : s.pc p = pc) (hrun : s.state p = .running)
    (hnew : s'.pc = update s.pc p pc') (hqueue : s'.queue = s.queue) (hbio : s'.bio = s.bio)
    (hstate : s'.state = s.state) (hdone : s'.done = s.done)
    (hlt : pc'.weight .running (s.done p) (s.sectors p) < pc.weight .running (s.done p) (s.sectors p)) :
    s'.measure < s.measure := by
  refine measure_lt hqueue hbio (p := p) (fun x hx => ?_) ?_
  · exact (work_eq (by rw [hnew,update_of_ne hx]) (by rw [hstate]) (by rw [hdone])
      (by rw [hbio])).le
  · rw [work,work,sectors,hnew,update_self,hstate,hdone,hbio,hpc,hrun]
    exact hlt

theorem measure_wake {next : Option C} (hfit : ∀ x, Fits s x) (hdone : s.done q = true)
    (hpc : s.pc p = .waking q next) :
    ((s.wakeup q).setPc p (.woke q next)).measure < s.measure := by
  refine measure_lt rfl rfl (p := p) (fun x hx => ?_) ?_
  · have hx' : ((s.wakeup q).setPc p (.woke q next)).pc x = s.pc x := update_of_ne hx ..
    rw [work,work,hx']
    by_cases hsleep : s.state x = .sleeping ∧ s.chan x = some q
    · have hs : ((s.wakeup q).setPc p (.woke q next)).state x = .runnable := if_pos hsleep
      obtain rfl : x = q := some.inj (((hfit x).chan hsleep.1).symm.trans hsleep.2)
      rw [hs,(hfit x).asleep (by rw [hsleep.1]; nofun),hsleep.1]
      change Pc.weight .runnable (s.done x) _ _ ≤ _
      rw [hdone]
      exact (by decide : 5 ≤ 6)
    · have hs : ((s.wakeup q).setPc p (.woke q next)).state x = s.state x := if_neg hsleep
      rw [hs]
      exact le_refl _
  · have hp : ((s.wakeup q).setPc p (.woke q next)).pc p = .woke q next := update_self ..
    rw [work,work,hp,hpc]
    exact Nat.lt_succ_self 12

end

theorem measure_push (hplace : ∀ x, ∃ a, At s x a) (hpc : s.pc p = .enqueue d) :
    (ideSubmitBio ide s p d).measure < s.measure := by
  have hwork := sum_add_of_ne (f := (ideSubmitBio ide s p d).work) (g := s.work) p fun x hx => by
    exact work_eq (update_of_ne hx ..) rfl rfl rfl
  have hmem : ∀ d' x, x ∈ (ideSubmitBio ide s p d).queue d' ↔ x ∈ s.queue d' ∨ d' = d ∧ x = p := by
    intro d' x
    change x ∈ update s.queue d (s.queue d ++ [p]) d' ↔ _
    by_cases hd : d' = d
    · rw [hd,update_self,mem_append,mem_singleton]
      simp
    · rw [update_of_ne hd]
      simp [hd]
  have hwait := sum_add_of_ne (f := (ideSubmitBio ide s p d).waiting) (g := s.waiting) p fun x hx => by
    refine waiting_eq ?_ rfl
    simp only [hmem,hx,and_false,or_false]
  obtain ⟨a,ha⟩ := hplace p
  have hstart := ha.of_start (hpc ▸ trivial)
  have hbefore : s.waiting p = 0 := by
    refine if_neg ?_
    rintro ⟨d',hd⟩
    cases (hstart.queue d').mp hd
  have hafter : (ideSubmitBio ide s p d).waiting p = 6 + s.sectors p :=
    if_pos ⟨d,(hmem d p).mpr (.inr ⟨rfl,rfl⟩)⟩
  have hold : s.work p = 18 + s.sectors p := by
    rw [work,hpc]
    rfl
  have hnew : (ideSubmitBio ide s p d).work p ≤ 11 := by
    have hself : (ideSubmitBio ide s p d).pc p = if s.busy (ide.chan d) then .check else
      .run (ide.chan d) := update_self ..
    rw [work,hself]
    split
    · simp only [Pc.weight]
      split <;> decide
    · exact le_refl 11
  rw [State.measure,State.measure]
  omega

omit [DecidableEq C] in
theorem measure_pick {rest : List P} (hplace : ∀ x, ∃ a, At s x a) (hnodup : (s.queue d).Nodup)
    (hpc : s.pc p = .run c) (hqueue : s.queue d = q :: rest)
    (hnew : s'.pc = update s.pc p (.execute c q (s.bio q).size))
    (hqueue' : s'.queue = update s.queue d rest) (hbio : s'.bio = s.bio)
    (hstate : s'.state = s.state) (hdone : s'.done = s.done) : s'.measure < s.measure := by
  have hwork := sum_add_of_ne (f := s'.work) (g := s.work) p fun x hx => by
    exact work_eq (by rw [hnew,update_of_ne hx]) (by rw [hstate]) (by rw [hdone]) (by rw [hbio])
  have hmem : ∀ d' x, x ≠ q → (x ∈ s'.queue d' ↔ x ∈ s.queue d') := by
    intro d' x hx
    rw [hqueue']
    by_cases hd : d' = d
    · rw [hd,update_self,hqueue,mem_cons]
      exact (or_iff_right hx).symm
    · rw [update_of_ne hd]
  have hwait := sum_add_of_ne (f := s'.waiting) (g := s.waiting) q fun x hx => by
    exact waiting_eq (exists_congr fun d' => hmem d' x hx) (by rw [hbio])
  obtain ⟨a,ha⟩ := hplace q
  have hqueued := ha.of_queue (d := d) (hqueue ▸ mem_cons_self)
  have hbefore : s.waiting q = 6 + s.sectors q := if_pos ⟨d,hqueue ▸ mem_cons_self⟩
  have hafter : s'.waiting q = 0 := by
    refine if_neg ?_
    rintro ⟨d',hd'⟩
    rw [hqueue'] at hd'
    by_cases hd : d' = d
    · rw [hd,update_self] at hd'
      exact (nodup_cons.mp (hqueue ▸ hnodup)).1 hd'
    rw [update_of_ne hd] at hd'
    cases (hqueued.queue d').mp hd'
    exact hd rfl
  have hold : s.work p = 11 := by
    rw [work,hpc]
    rfl
  have hrun' : s'.work p = 16 + s.sectors q := by
    rw [work,hnew,update_self]
    rfl
  rw [State.measure,State.measure]
  omega

omit [DecidableEq C] in
theorem measure_endIo {next : Option C} (hpc : s.pc p = .endIo q next) :
    (bioWaitEndIo s p q next).measure < s.measure := by
  refine measure_lt rfl rfl (p := p) (fun x hx => ?_) ?_
  · have hx' : (bioWaitEndIo s p q next).pc x = s.pc x := update_of_ne hx ..
    rw [work,work,hx']
    change (s.pc x).weight (s.state x) (update s.done q true x) (s.sectors x) ≤ _
    by_cases hxq : x = q
    · rw [hxq,update_self]
      exact weight_done ..
    · rw [update_of_ne hxq]
  · have hp : (bioWaitEndIo s p q next).pc p = .waking q next := update_self ..
    rw [work,work,hp,hpc]
    exact Nat.lt_succ_self 13

theorem measure_step (h : Inv ide s) (hs : Step ide s op s') (hop : op.Internal) :
    s'.measure < s.measure := by
  cases hs with
  | call bio hrun hpc | signal hlock hsleep => exact hop.elim
  | refuse alloc st hrun hpc | accept hrun hpc hd =>
    refine measure_lt_of_move hpc hrun rfl rfl rfl rfl rfl ?_
    simp only [Pc.weight]
    omega
  | push hrun hpc => exact measure_push h.placed hpc
  | rest hrun hpc hpick =>
    refine measure_lt_of_move hpc hrun rfl rfl rfl rfl rfl ?_
    simp only [Pc.weight]
    split <;> decide
  | pick hrun hpc hpick =>
    exact measure_pick h.placed (h.queues.nodup _) hpc (ideChanPick_some hpick).2 rfl rfl rfl rfl rfl
  | sector hrun hpc hleft =>
    refine measure_lt_of_move hpc hrun rfl rfl rfl rfl rfl ?_
    simp only [Pc.weight,sectSize] at hleft ⊢
    omega
  | finish ok st hrun hpc =>
    refine measure_lt_of_move hpc hrun rfl rfl rfl rfl rfl ?_
    exact Nat.lt_of_lt_of_le (Nat.lt_succ_self 15) (Nat.le_add_right ..)
  | clear hrun hpc | handOff hrun hpc hlock | unlock hrun hpc =>
    exact measure_lt_of_move hpc hrun rfl rfl rfl rfl rfl (Nat.lt_succ_self _)
  | endIo hrun hpc hlock => exact measure_endIo hpc
  | wake hrun hpc hlock => exact measure_wake h.fits (h.waking _ _ _ hpc).1 hpc
  | release hrun hpc =>
    rename_i next
    cases next with
    | none =>
      refine measure_lt_of_move hpc hrun rfl rfl rfl rfl rfl ?_
      simp only [Pc.weight,elim_none]
      split <;> decide
    | some c => exact measure_lt_of_move hpc hrun rfl rfl rfl rfl rfl (Nat.lt_succ_self 11)
  | leave hrun hpc hlock hdone | going hrun hpc hlock hdone =>
    rcases hpc with hpc | hpc <;>
    · refine measure_lt_of_move hpc hrun rfl rfl rfl rfl rfl ?_
      simp only [Pc.weight,hdone]
      decide
  | park hrun hpc =>
    rename_i p w
    refine measure_lt rfl rfl (p := p) (fun x hx => ?_) ?_
    · exact le_of_eq (work_eq (update_of_ne hx ..) (update_of_ne hx ..) rfl rfl)
    have hw : s.work p = 7 := by
      rw [work,hpc]
      rfl
    have hself : (update s.pc p (.asleep w) p).weight
        (update s.state p .sleeping p) (s.done p) (s.sectors p) = 6 := by
      rw [update_self,update_self]
      rfl
    exact hself.trans_lt (hw ▸ Nat.lt_succ_self 6)
  | dispatch hlock hready =>
    rename_i p
    have hpc : s.pc p = .asleep p := (h.fits p).asleep (by rw [hready]; nofun)
    refine measure_lt rfl rfl (p := p) (fun x hx => ?_) ?_
    · exact le_of_eq (work_eq rfl (update_of_ne hx ..) rfl rfl)
    have hold : s.work p = (.asleep p : Pc P D C).weight .runnable (s.done p) (s.sectors p) := by
      rw [work,hpc,hready]
    have hnew : (s.pc p).weight (update s.state p .running p) (s.done p) (s.sectors p) =
        (.asleep p : Pc P D C).weight .running (s.done p) (s.sectors p) := by
      rw [hpc,update_self]
    refine hnew.trans_lt (hold ▸ ?_)
    simp only [Pc.weight]
    split <;> decide

end Measure

theorem run_inv {bio : P → Bio D} {ops : List (Op P D)} {outs : List (Option (P × Int))}
    (hrun : run (step ide) (start bio) ops = some (s,outs)) : Inv ide s :=
  run_preserves (fun _ _ _ _ h hs => inv_step h (step_cases hs)) (inv_start bio) hrun

omit [DecidableEq C] in
theorem ended_of_idle (h : Inv ide s) (hidle : s.pc p = .idle) {k : Nat} (hk : 0 < k)
    (hle : k ≤ s.calls p) : s.ended.count (p,k) = 1 := by
  refine h.ended.once p k ⟨hk,?_⟩
  rcases Nat.lt_or_eq_of_le hle with hlt | heq
  · exact .inl hlt
  · exact .inr ⟨heq,(h.fits p).idle hidle⟩

theorem drains [Fintype P] (h : Inv ide s) {more : List (Op P D)} {t : State P D C}
    {outs : List (Option (P × Int))} (hmore : ∀ op ∈ more, op.Internal)
    (hrun : run (step ide) s more = some (t,outs)) : more.length ≤ s.measure ∧
      ((∀ op, op.Internal → step ide t op = none) →
        ∀ p, t.pc p = .idle ∧ ∀ k, 0 < k → k ≤ t.calls p → t.ended.count (p,k) = 1) := by
  have ht : Inv ide t := run_preserves (fun _ _ _ _ h hs => inv_step h (step_cases hs)) h hrun
  have hstep : ∀ (u : State P D C) op u' o, Inv ide u → op.Internal → step ide u op = some (u',o) →
      Inv ide u' ∧ u'.measure < u.measure :=
    fun _ _ _ _ hu hop hs => ⟨inv_step hu (step_cases hs),measure_step hu (step_cases hs) hop⟩
  have hlen := run_length_le hstep h hmore hrun
  refine ⟨by omega,fun hstuck p => ?_⟩
  have hidle : t.pc p = .idle := by
    by_contra hne
    obtain ⟨op,r,hop,hs⟩ := enabled ht hne
    rw [hstuck op hop] at hs
    cases hs
  exact ⟨hidle,fun k hk hle => ended_of_idle ht hidle hk hle⟩

theorem block_io_completes_once [Fintype P] (ide : Ide D C) (bio : P → Bio D) (ops : List (Op P D))
    (s : State P D C) (outs : List (Option (P × Int)))
    (hrun : run (step ide) (start bio) ops = some (s,outs)) :
    (∀ p k, s.ended.count (p,k) ≤ 1) ∧
    (∀ p k, 0 < k → k < s.calls p ∨ k = s.calls p ∧ s.pc p = .idle → s.ended.count (p,k) = 1) ∧
    (∃ bound, ∀ more t os, (∀ op ∈ more, op.Internal) → run (step ide) s more = some (t,os) →
      more.length ≤ bound ∧ ((∀ op, op.Internal → step ide t op = none) →
        ∀ p, t.pc p = .idle ∧ ∀ k, 0 < k → k ≤ t.calls p → t.ended.count (p,k) = 1)) ∧
    (∀ d, s.completed d <+: s.submitted d) ∧
    (∀ d, s.queue d ≠ [] → s.busy (ide.chan d) = true ∧ ∃! r, (s.pc r).runs (ide.chan d)) ∧
    (∀ p, s.waiterLock p = none → ¬ (s.state p = .sleeping ∧ s.done p = true)) := by
  have h : Inv ide s := run_inv hrun
  refine ⟨fun p k => ?_,fun p k hk hover => ?_,⟨s.measure,fun more t os => drains h⟩,fun d => ?_,
    fun d hd => ?_,fun p hlock ⟨hsleep,hdone⟩ => ?_⟩
  · by_cases hover : s.Over p k
    · exact (h.ended.once p k hover).le
    · rw [h.ended.never p k hover]
      exact Nat.zero_le 1
  · rcases hover with hlt | ⟨heq,hidle⟩
    · exact h.ended.once p k ⟨hk,.inl hlt⟩
    · exact ended_of_idle h hidle hk heq.le
  · obtain ⟨o,ho⟩ := h.channel (ide.chan d)
    rw [ho.order d rfl,append_assoc]
    exact prefix_append ..
  · obtain ⟨o,ho⟩ := h.channel (ide.chan d)
    have hsome := ho.served d rfl hd
    obtain ⟨r,rfl⟩ := isSome_iff_exists.mp hsome
    refine ⟨ho.busy.trans hsome,r,(ho.runs r).mpr rfl,fun r' hr' => ?_⟩
    exact some.inj ((ho.runs r').mp hr').symm
  · obtain ⟨r,next,hr⟩ := (h.fits p).woken (.inr hsleep) hdone
    have hheld := h.locked.waiter_holder hr rfl
    rw [hlock] at hheld
    cases hheld

def oneDisk : Ide Unit Unit where
  tab := [()]
  chan _ := ()
  capacity _ := 8
  all _ := mem_singleton_self ()

def oneSector : Bio Unit := ⟨some (),0,sectSize,true⟩

def completeRun : List (Op (Fin 2) Unit) :=
  [.submitBioWait 1 oneSector,.submit 1 true,.push 1,.pick 1,.submitBioWait 0 oneSector,
    .submit 0 true,.push 0,.check 0,.handOff 0,.unlock 0,.park 0,.sector 1 true,.sector 1 true,
    .clear 1,.endIo 1,.wake 1,.release 1,.pick 1,.sector 1 true,.sector 1 true,.clear 1,.endIo 1]

theorem block_io_completes_once_two_processes : ∃ s outs,
    run (step oneDisk) (start fun _ => oneSector) (completeRun ++ [.wake 1,.release 1]) =
      some (s,outs) ∧ s.state 0 = .runnable ∧ s.done 0 = true ∧
      s.completed () <+: s.submitted () := by
  refine run_shows (fun s => s.state 0 = .runnable ∧ s.done 0 = true) (by decide +kernel) ?_
  intro s outs hs hp
  exact ⟨hp.1,hp.2,(block_io_completes_once oneDisk _ _ s outs hs).2.2.2.1 ()⟩

theorem submitter_asleep_when_done : ∃ s outs,
    run (step oneDisk) (start fun _ => oneSector) completeRun = some (s,outs) ∧
      s.state 0 = .sleeping ∧ s.pc 0 = .asleep 0 ∧ s.done 0 = true :=
  run_reaches (by decide +kernel)

end TinyOs.Block
