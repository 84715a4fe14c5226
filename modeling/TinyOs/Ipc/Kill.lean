import TinyOs.Ipc.Blocked
import TinyOs.Ipc.SignalReturn

namespace TinyOs.Blocked

open List Option Machine Signal

variable {s s' t : State} {op : Op} {o : Unit} {c : Call} {p : Signal.Proc} {env : Env}

def Waits (w : World) : Call → Prop
  | .pipeRead _ => w.nread = w.nwrite ∧ w.writers ≠ 0
  | .pipeWrite n i =>
    w.readers ≠ 0 ∧ i < n ∧ if 0 < n ∧ n ≤ pipeSize then
      (w.nread + BitVec.ofNat 32 pipeSize).toNat < (w.nwrite + BitVec.ofNat 32 n).toNat
    else w.nwrite = w.nread + BitVec.ofNat 32 pipeSize
  | .waitChild pid =>
    w.children ≠ [] ∧ ∀ np ∈ w.children, np.zombie = true → pid ≠ -1 ∧ np.pid ≠ pid
  | .fileflock cmd => flockConflict w cmd = true
  | .consoleRead _ _ => w.cons = []
  | .nanosleep deadline => w.ticks < deadline
  | .futexWait _ | .blockIo _ => True

def Quiet (c : Call) (_ : State) : Op → Prop
  | .world w => Waits w c
  | _ => True

def Interruptible : Call → Prop
  | .consoleRead _ _ | .nanosleep _ | .futexWait _ | .blockIo _ => True
  | _ => False

def Pending (s : State) : Prop := (∃ more, s.pos = .call (.blockIo more)) ∧ s.bioDone = false

inductive Dying (s : State) : Prop
  | gone (hpos : s.pos = .gone)
  | blocked (c : Call) (hpos : s.pos = .call c) (hsleep : s.state = .sleeping → Pending s)
      (hnext : ∀ s' o, step s .resume = some (s',o) → s'.pos = .leaving ∨ Pending s')
  | leaving (hpos : s.pos = .leaving) (hsleep : s.state ≠ .sleeping)
      (hnext : ∀ env s' o, step s (.notify env) = some (s',o) → s'.pos = .gone)

def Ends (c : Call) (s : State) : Prop :=
  ∀ s₁ o more t outs, step s (.send sigkill) = some (s₁,o) → Always step (Quiet c) s₁ more →
    run step s₁ more = some (t,outs) → Dying t

def Clear (p : Signal.Proc) : Prop := p.sighandling = true ∨ ∀ sig, 1 ≤ sig → sig < sigkill →
    p.sighand sig = sigDfl ∨ p.sighand sig = sigIgn

structure Doomed (p : Signal.Proc) : Prop where
  pending : p.sigpending.getLsbD 8 = true
  unmasked : p.sigmasked.getLsbD 8 = false
  default : p.sighand sigkill = sigDfl
  user : p.tf.cs &&& 3 = dplUser
  clear : Clear p

section Notify

theorem and_sigkill (v : Word) : v &&& sigbit sigkill = 0 ↔ v.getLsbD 8 = false := by
  have hbit : sigbit sigkill = BitVec.twoPow 32 8 := by decide
  rw [hbit,BitVec.and_twoPow]
  cases v.getLsbD 8 with
  | true | false => decide

theorem sigbit_other {sig : Nat} (hlo : 1 ≤ sig) (hne : sig ≠ sigkill) (hlt : sig < nsig) :
    (sigbit sig).getLsbD 8 = false := by
  have hall : ∀ sig < nsig, 1 ≤ sig → sig ≠ sigkill → (sigbit sig).getLsbD 8 = false := by
    decide
  exact hall sig hlt hlo hne

theorem Doomed.can (h : Doomed p) : signalCanInterrupt p = true := by
  have hbits : ¬ (p.sigpending &&& ~~~p.sigmasked &&& sigbit sigkill = 0) := by
    rw [and_sigkill,BitVec.getLsbD_and,BitVec.getLsbD_not,h.pending,h.unmasked]
    decide
  rw [signalCanInterrupt,List.any_eq_true]
  refine ⟨sigkill,by decide,?_⟩
  rw [h.default]
  simp only [hbits,ne_eq,not_false_eq_true,decide_true,Bool.true_and]
  decide

theorem notifyLoop_gone {sigs : List Nat} (hsigs : ∀ sig ∈ sigs, 1 ≤ sig ∧ sig < sigkill)
    (rest : List Nat) (hpending : p.sigpending.getLsbD 8 = true)
    (hmasked : p.sigmasked.getLsbD 8 = false)
    (hclear : ∀ sig, 1 ≤ sig → sig < sigkill → p.sighand sig = sigDfl ∨ p.sighand sig = sigIgn) :
    (notifyLoop env (sigs ++ sigkill :: rest) p).mode = .gone := by
  induction sigs generalizing p with
  | nil =>
    have hbits : ¬ (p.sigpending &&& ~~~p.sigmasked &&& sigbit sigkill = 0) := by
      rw [and_sigkill,BitVec.getLsbD_and,BitVec.getLsbD_not,hpending,hmasked]
      decide
    simp only [nil_append,notifyLoop,if_neg hbits,if_true]
    rfl
  | cons sig sigs ih =>
    obtain ⟨hlo,hhi⟩ := hsigs sig mem_cons_self
    have hrest : ∀ sig' ∈ sigs, 1 ≤ sig' ∧ sig' < sigkill :=
      fun sig' hs => hsigs sig' (mem_cons_of_mem sig hs)
    have hnsig : sig < nsig := hhi.trans (by decide)
    have hkeep : (p.sigpending &&& ~~~sigbit sig).getLsbD 8 = true := by
      rw [BitVec.getLsbD_and,BitVec.getLsbD_not,hpending,sigbit_other hlo hhi.ne hnsig]
      decide
    simp only [cons_append,notifyLoop]
    split
    · exact ih hrest hpending hmasked hclear
    rw [if_neg hhi.ne]
    split
    · exact ih hrest hkeep hmasked hclear
    rename_i hign
    rw [if_pos ((hclear sig hlo hhi).resolve_right hign)]
    split
    · rfl
    · exact ih hrest hkeep hmasked hclear

theorem Doomed.notify (h : Doomed p) (env : Env) : (signalNotify p env).mode = .gone := by
  rw [signalNotify,if_neg (not_not.mpr h.user)]
  split
  · rw [if_pos]
    · rfl
    · rw [ne_eq,and_sigkill,h.pending]
      exact Bool.noConfusion
  rename_i hfree
  have hsplit : (range nsig).tail =
      (range sigkill).tail ++ sigkill :: (range nsig).drop (sigkill + 1) := by
    decide
  have hclear := h.clear.resolve_left hfree
  rw [hsplit]
  refine notifyLoop_gone (fun sig hs => ?_) _ h.pending h.unmasked hclear
  have hall : ∀ sig ∈ (range sigkill).tail, 1 ≤ sig ∧ sig < sigkill := by decide
  exact hall sig hs

theorem post_sighand (p : Signal.Proc) {sig n : Nat} (hn : n ≠ sigkill) :
    (post p sig).sighand n = p.sighand n := by
  simp only [post,setPending]
  split
  · rename_i hsig
    rw [unblock,hsig]
    exact Function.update_of_ne hn ..
  · rfl

theorem post_keeps (p : Signal.Proc) (sig : Nat) : (post p sig).tf = p.tf ∧
    (post p sig).sighandling = p.sighandling ∧ (post p sig).sigold = p.sigold := by
  simp only [post,setPending]
  split <;> exact ⟨rfl,rfl,rfl⟩

theorem Clear.post (h : Clear p) (sig : Nat) : Clear (post p sig) := by
  refine h.imp (fun hh => (post_keeps p sig).2.1.trans hh) fun hh n hlo hhi => ?_
  rw [post_sighand p hhi.ne]
  exact hh n hlo hhi

theorem doomed_post (huser : p.tf.cs &&& 3 = dplUser) (hclear : Clear p) :
    Doomed (post p sigkill) where
  pending := by
    simp only [post,setPending,unblock,if_true,BitVec.getLsbD_or]
    rw [show (sigbit sigkill).getLsbD 8 = true by decide,Bool.or_true]
  unmasked := by
    simp only [post,setPending,unblock,if_true,BitVec.getLsbD_and]
    rw [show (~~~sigbit sigkill).getLsbD 8 = false by decide,Bool.and_false]
  default := by
    simp only [post,setPending,unblock,if_true]
    exact Function.update_self ..
  user := by
    rw [(post_keeps p sigkill).1]
    exact huser
  clear := hclear.post sigkill

theorem Doomed.post (h : Doomed p) (sig : Nat) : Doomed (post p sig) := by
  by_cases hsig : sig = sigkill
  · subst hsig
    exact doomed_post h.user h.clear
  have hpost : Signal.post p sig = Signal.setPending p sig := by
    rw [Signal.post,if_neg hsig]
  refine ⟨?_,?_,?_,by rw [(post_keeps p sig).1]; exact h.user,h.clear.post sig⟩
  · rw [hpost,setPending,BitVec.getLsbD_or,h.pending,Bool.true_or]
  · rw [hpost]
    exact h.unmasked
  · rw [hpost]
    exact h.default

theorem Doomed.setEax (h : Doomed p) (ret : Word) : Doomed (setEax p ret) :=
  ⟨h.pending,h.unmasked,h.default,h.user,h.clear⟩

end Notify

section Dying

inductive Mark (s : State) : Prop
  | gone (hpos : s.pos = .gone)
  | blocked (c : Call) (hpos : s.pos = .call c) (hd : Doomed s.proc) (hint : Interruptible c)
      (hsleep : s.state = .sleeping → Pending s)
  | leaving (hpos : s.pos = .leaving) (hd : Doomed s.proc) (hsleep : s.state ≠ .sleeping)

theorem resume_cases (h : Doomed s.proc) (hpos : s.pos = .call c) (hint : Interruptible c)
    (hs : step s .resume = some (s',o)) : Doomed s'.proc ∧
      (s'.pos = .leaving ∧ s'.state = .running ∨ Pending s') := by
  simp only [step,hpos] at hs
  obtain ⟨hrun,hs⟩ := ite_none_right_eq_some.mp hs
  cases hs
  cases c with
  | consoleRead n i =>
    have hcan : can s = true := h.can
    have hleaves : afterSleep s (.consoleRead n i) = (s.world,interrupted i) := if_pos hcan
    rw [hleaves]
    exact ⟨h.setEax _,.inl ⟨rfl,hrun⟩⟩
  | nanosleep deadline | futexWait val => exact ⟨h.setEax _,.inl ⟨rfl,hrun⟩⟩
  | blockIo more =>
    simp only [afterSleep]
    cases hdone : s.bioDone with
    | true =>
      cases more with
      | zero => exact ⟨h.setEax _,.inl ⟨rfl,hrun⟩⟩
      | succ more => exact ⟨h,.inr ⟨⟨more,rfl⟩,rfl⟩⟩
    | false => exact ⟨h,.inr ⟨⟨more,rfl⟩,hdone⟩⟩
  | _ => exact hint.elim

theorem notify_gone (hd : Doomed s.proc) (hs : step s (.notify env) = some (s',o)) :
    s'.pos = .gone := by
  obtain ⟨-,hs⟩ := ite_none_right_eq_some.mp hs
  have hgone := Doomed.notify (p := { s.proc with mode := .kernel })
    ⟨hd.pending,hd.unmasked,hd.default,hd.user,hd.clear⟩ env
  cases hs
  exact if_pos hgone

theorem pending_interruptible (h : Pending s) : ∃ c, s.pos = .call c ∧ Interruptible c := by
  obtain ⟨⟨more,hpos⟩,-⟩ := h
  exact ⟨_,hpos,trivial⟩

theorem wake_not_sleeping (s : State) : (wake s).state ≠ .sleeping := by
  rw [wake]
  split
  · exact nofun
  · assumption

theorem wake_keeps (s : State) :
    (wake s).pos = s.pos ∧ (wake s).proc = s.proc ∧ (wake s).killed = s.killed := by
  rw [wake]
  split <;> exact ⟨rfl,rfl,rfl⟩

theorem Mark.awake (h : Mark s) (hpos : s'.pos = s.pos) (hproc : Doomed s.proc → Doomed s'.proc)
    (hstate : s'.state ≠ .sleeping) : Mark s' := by
  cases h with
  | gone hp => exact .gone (hpos.trans hp)
  | blocked c hp hd hint hsleep =>
    exact .blocked c (hpos.trans hp) (hproc hd) hint fun hs => absurd hs hstate
  | leaving hp hd hsleep => exact .leaving (hpos.trans hp) (hproc hd) hstate

theorem Mark.wake (h : Mark s) (hpos : s'.pos = s.pos) (hproc : Doomed s.proc → Doomed s'.proc) :
    Mark (wake s') := by
  obtain ⟨hp,hd,-⟩ := wake_keeps s'
  exact h.awake (hp.trans hpos) (by rwa [hd]) (wake_not_sleeping s')

theorem Mark.not_user (h : Mark s) : s.pos ≠ .user := by
  cases h with
  | gone hp | blocked c hp hd hint hsleep | leaving hp hd hsleep => exact hp ▸ nofun

theorem mark_step (hm : Mark s) (hs : step s op = some (s',o)) : Mark s' := by
  cases op with
  | run tf | signal sig handler | sigreturn | interrupt | call c =>
    simp only [step,hm.not_user,false_and,if_false] at hs
    cases hs
  | resume =>
    cases hm with
    | gone hp | leaving hp hd hsleep =>
      simp only [step,hp] at hs
      cases hs
    | blocked c hp hd hint hsleep =>
      obtain ⟨hdoomed,⟨hpos,hrun⟩ | hpending⟩ := resume_cases hd hp hint hs
      · exact .leaving hpos hdoomed (hrun ▸ nofun)
      · obtain ⟨c',hc',hint'⟩ := pending_interruptible hpending
        exact .blocked c' hc' hdoomed hint' fun _ => hpending
  | notify env =>
    have hpos := (ite_none_right_eq_some.mp hs).1.1
    cases hm with
    | gone hp | blocked c hp hd hint hsleep => cases hpos.symm.trans hp
    | leaving hp hd hsleep => exact .gone (notify_gone hd hs)
  | preempt | dispatch =>
    obtain ⟨-,hs⟩ := ite_none_right_eq_some.mp hs
    cases hs
    exact hm.awake rfl id nofun
  | wakeup | complete =>
    cases hs
    exact hm.wake rfl id
  | send sig =>
    obtain ⟨-,hs⟩ := ite_none_left_eq_some.mp hs
    cases hs
    exact hm.wake rfl fun hd => hd.post sig
  | world w =>
    cases hs
    cases hm with
    | gone hp => exact .gone hp
    | blocked c hp hd hint hsleep => exact .blocked c hp hd hint hsleep
    | leaving hp hd hsleep => exact .leaving hp hd hsleep

theorem Mark.dying (hm : Mark s) : Dying s := by
  cases hm with
  | gone hp => exact .gone hp
  | blocked c hp hd hint hsleep =>
    exact .blocked c hp hsleep fun s' o hs => (resume_cases hd hp hint hs).2.imp_left And.left
  | leaving hp hd hsleep => exact .leaving hp hsleep fun env s' o hs => notify_gone hd hs

end Dying

section Runs

structure Sane (s : State) : Prop where
  killed : s.killed = false
  user : s.pos ≠ .gone → s.proc.tf.cs &&& 3 = dplUser
  old : ∀ tf ∈ s.proc.sigold, tf.cs &&& 3 = dplUser

namespace Sane

theorem keep (h : Sane s) (hkilled : s'.killed = s.killed) (hgone : s'.pos ≠ .gone → s.pos ≠ .gone)
    (hcs : s'.proc.tf.cs = s.proc.tf.cs) (hold : s'.proc.sigold = s.proc.sigold) : Sane s' where
  killed := hkilled.trans h.killed
  user := by
    rw [hcs]
    exact fun hne => h.user (hgone hne)
  old := by
    rw [hold]
    exact h.old

theorem follow (h : Sane s) (hpos : s.pos ≠ .gone) (r : World × Verdict) : Sane (follow s r) := by
  rw [Blocked.follow]
  split
  · exact h.keep rfl (fun _ => hpos) rfl rfl
  · exact h.keep rfl (fun _ => hpos) rfl rfl
  · exact h.keep rfl (fun _ => hpos) rfl rfl
  · obtain ⟨htf,-,hold⟩ := post_keeps s.proc 13
    have hcs : (post s.proc 13).tf.cs = s.proc.tf.cs := by rw [htf]
    exact h.keep rfl (fun _ => hpos) hcs hold

theorem wake (h : Sane s) : Sane (wake s) := by
  obtain ⟨hpos,hproc,hkilled⟩ := wake_keeps s
  exact h.keep hkilled (by rw [hpos]; exact id) (by rw [hproc]) (by rw [hproc])

theorem sigreturn (h : Sane s) (hpos : s.pos ≠ .gone) :
    Sane { s with proc := doSigreturn s.proc, pos := .leaving } := by
  simp only [doSigreturn]
  split
  · rename_i old hh hold
    exact ⟨h.killed,fun _ => h.old old hold,fun _ htf => by cases htf⟩
  · exact h.keep rfl (fun _ => hpos) rfl rfl

theorem notify (h : Sane s) (hpos : s.pos ≠ .gone) (env : Env) : Sane { s with
      proc := signalNotify { s.proc with mode := .kernel } env
      pos := if (signalNotify { s.proc with mode := .kernel } env).mode = .gone then .gone
        else .user } := by
  have huser := h.user hpos
  cases signalNotify_cases { s.proc with mode := .kernel } env with
  | plain hmem htf ht =>
    exact h.keep rfl (fun _ => hpos) (congrArg Trapframe.cs htf) (congrArg (·.2.1) ht)
  | gone hmem hmode ht =>
    have hnone : (signalNotify { s.proc with mode := .kernel } env).sigold = none :=
      congrArg (·.2.1) ht
    refine ⟨h.killed,fun hne => absurd (if_pos hmode) hne,fun tf htf => ?_⟩
    rw [hnone] at htf
    cases htf
  | delivered hmem hfree ht hcs hframe =>
    have hsome : (signalNotify { s.proc with mode := .kernel } env).sigold = some s.proc.tf :=
      congrArg (·.2.1) ht
    refine ⟨h.killed,fun _ => (congrArg (· &&& 3) hcs).trans huser,fun tf htf => ?_⟩
    rw [hsome] at htf
    cases htf
    exact huser

theorem step (h : Sane s) (hs : step s op = some (s',o)) : Sane s' := by
  cases op with
  | run tf =>
    obtain ⟨hguard,hs⟩ := ite_none_right_eq_some.mp hs
    cases hs
    exact ⟨h.killed,fun _ => hguard.2.2,h.old⟩
  | signal sig handler =>
    obtain ⟨hguard,hs⟩ := ite_none_right_eq_some.mp hs
    cases hs
    refine h.keep rfl (fun _ => by rw [hguard.1]; decide) ?_ ?_
    · simp only [doSignal]
      split
      · rfl
      · split <;> rfl
    · exact congrArg (·.2.1) (doSignal_track s.proc sig handler)
  | sigreturn =>
    obtain ⟨hguard,hs⟩ := ite_none_right_eq_some.mp hs
    cases hs
    exact h.sigreturn (by rw [hguard.1]; decide)
  | interrupt =>
    obtain ⟨hguard,hs⟩ := ite_none_right_eq_some.mp hs
    cases hs
    exact h.keep rfl (fun _ => by rw [hguard.1]; decide) rfl rfl
  | call c =>
    obtain ⟨hguard,hs⟩ := ite_none_right_eq_some.mp hs
    cases hs
    exact h.follow (by rw [hguard.1]; decide) _
  | resume =>
    simp only [Blocked.step] at hs
    split at hs
    · rename_i c hpos
      split at hs
      · cases hs
        exact h.follow (by rw [hpos]; exact fun hc => by cases hc) _
      · cases hs
    · cases hs
  | notify env =>
    obtain ⟨hguard,hs⟩ := ite_none_right_eq_some.mp hs
    cases hs
    exact h.notify (by rw [hguard.1]; decide) env
  | preempt | dispatch =>
    obtain ⟨-,hs⟩ := ite_none_right_eq_some.mp hs
    cases hs
    exact h.keep rfl id rfl rfl
  | wakeup =>
    cases hs
    exact h.wake
  | complete =>
    cases hs
    exact Sane.wake (h.keep rfl id rfl rfl)
  | send sig =>
    obtain ⟨-,hs⟩ := ite_none_left_eq_some.mp hs
    cases hs
    obtain ⟨htf,-,hold⟩ := post_keeps s.proc sig
    exact Sane.wake (h.keep rfl id (congrArg Trapframe.cs htf) hold)
  | world w =>
    cases hs
    exact h.keep rfl id rfl rfl

end Sane

theorem pipeFull_sleeps {w : World} (r : Int) (hr : w.readers ≠ 0) :
    pipeFull w false r c = .sleep c := by
  rw [pipeFull,if_neg hr]
  rfl

theorem sleeps_again (hkilled : s.killed = false) (hc : ¬ Interruptible c) (hw : Waits s.world c) :
    ∃ c', (afterSleep s c).2 = .sleep c' ∧ ¬ Interruptible c' := by
  cases c with
  | pipeRead n =>
    refine ⟨.pipeRead n,?_,id⟩
    have hempty : s.world.nread = s.world.nwrite ∧ s.world.writers ≠ 0 := hw
    simp only [afterSleep,enter,pipeRead,hkilled]
    rw [if_pos hempty]
    rfl
  | pipeWrite n i =>
    obtain ⟨hr,hi,hfull⟩ := hw
    simp only [afterSleep,pipeWriteLoop,hkilled]
    split at hfull
    · rename_i hatomic
      rw [if_pos hatomic,if_pos hfull]
      exact ⟨_,pipeFull_sleeps _ hr,id⟩
    rename_i hlong
    have hzero : (s.world.nread + BitVec.ofNat 32 pipeSize - s.world.nwrite).toNat = 0 := by
      rw [hfull,BitVec.sub_self]
      rfl
    rw [if_neg hlong,hzero,Nat.min_zero,add_zero,if_neg (not_le.mpr hi)]
    exact ⟨_,pipeFull_sleeps _ hr,id⟩
  | waitChild pid =>
    obtain ⟨hkids,hnone⟩ := hw
    refine ⟨.waitChild pid,?_,id⟩
    have hfind :
        (s.world.children.find? fun np => np.zombie && (pid == -1 || np.pid == pid)) = none := by
      rw [find?_eq_none]
      intro np hnp hz
      rw [Bool.and_eq_true,Bool.or_eq_true,beq_iff_eq,beq_iff_eq] at hz
      obtain ⟨hpid,hne⟩ := hnone np hnp hz.1
      exact hz.2.elim hpid hne
    simp only [afterSleep,enter,waitChild,if_neg hkids,hfind]
  | fileflock cmd =>
    refine ⟨.fileflock cmd,?_,id⟩
    have hconflict : flockConflict s.world cmd = true := hw
    simp only [afterSleep,enter,fileflock,hconflict,if_true]
  | _ => exact absurd trivial hc

theorem resume_sleeps {c' : Call} (hpos : s.pos = .call c) (hstate : s.state = .running)
    (hverdict : (afterSleep s c).2 = .sleep c') :
    ∃ t, step s .resume = some (t,()) ∧ t.state = .sleeping ∧ t.pos = .call c' := by
  have hfollow : follow s (afterSleep s c) =
      { s with world := (afterSleep s c).1, state := .sleeping, pos := .call c' } := by
    rw [follow,hverdict]
  refine ⟨follow s (afterSleep s c),?_,by rw [hfollow],by rw [hfollow]⟩
  simp only [step,hpos,hstate,if_true]

theorem sigkill_ends_blocked (s₀ : State) (h₀ : Sane s₀) (ops : List Op) (s : State)
    (outs : List Unit) (hrun : run step s₀ ops = some (s,outs)) (c : Call) (hpos : s.pos = .call c)
    (hsleep : s.state = .sleeping) :
    (Interruptible c → Clear s.proc → Ends c s) ∧
      (¬ Interruptible c → Waits s.world c → ¬ Ends c s) := by
  have hsane : Sane s := run_preserves (fun _ _ _ _ h hs => h.step hs) h₀ hrun
  have hsend : step s (.send sigkill) =
      some (wake { s with proc := post s.proc sigkill },()) := by
    rw [step,if_neg]
    rintro (hgone | hsig)
    · cases hpos.symm.trans hgone
    · exact absurd hsig (by decide)
  refine ⟨fun hint hclear s₁ o more t os hs hquiet hmore => ?_,fun hc hw hends => ?_⟩
  · rw [hsend] at hs
    cases hs
    obtain ⟨hwpos,hwproc,-⟩ := wake_keeps { s with proc := post s.proc sigkill }
    have hdoomed := doomed_post (hsane.user (hpos ▸ nofun)) hclear
    have ht : Mark t := run_preserves (fun _ _ _ _ hm hs => mark_step hm hs)
      (.blocked c (hwpos.trans hpos) (by rwa [hwproc]) hint fun hs => absurd hs
        (wake_not_sleeping _)) hmore
    exact ht.dying
  -- The wakeup, the dispatch and the next look at the event.
  have hwake : wake { s with proc := post s.proc sigkill } =
      { s with proc := post s.proc sigkill, state := .runnable } := by
    rw [wake,if_pos hsleep]
  rw [hwake] at hsend
  obtain ⟨c',hverdict,hc'⟩ := sleeps_again (s := { s with
    proc := post s.proc sigkill, state := .running }) hsane.killed hc hw
  have hdispatch : step { s with proc := post s.proc sigkill, state := .runnable } .dispatch =
      some ({ s with proc := post s.proc sigkill, state := .running },()) := by
    rw [step,if_pos ⟨rfl,by rw [hpos]; exact nofun⟩]
  obtain ⟨t,ht,htstate,htpos⟩ := resume_sleeps (s := { s with
    proc := post s.proc sigkill, state := .running }) hpos rfl hverdict
  have hmore : run step { s with proc := post s.proc sigkill, state := .runnable }
      [.dispatch,.resume] = some (t,[(),()]) := by
    simp only [run,hdispatch,ht,bind_some,map_some]
  have hquiet : Always step (Quiet c)
      { s with proc := post s.proc sigkill, state := .runnable } [.dispatch,.resume] := by
    simp only [Always,Quiet,hdispatch,ht,elim_some,and_self]
  cases hends _ _ _ t _ hsend hquiet hmore with
  | gone hp | leaving hp hne hnext => cases htpos.symm.trans hp
  | blocked c'' hp hpending hnext =>
    obtain ⟨⟨more,hbio⟩,-⟩ := hpending htstate
    cases htpos.symm.trans hbio
    exact hc' trivial

end Runs

section Examples

def emptyWorld : World := ⟨0,0,1,1,[],[],[],true,0,0⟩

def userCode : State where
  proc := ⟨.user,1,⟨0,0,0,0,0,0,0,0,0x23,0,0x400100,0x1b,0x202,0xbffff000,0x23⟩,fun _ => 0,
    fun _ => sigDfl,0,0,false,none,[],[]⟩
  killed := false
  state := .running
  pos := .user
  world := emptyWorld
  bioDone := false

def works : Env := ⟨true,none,none,none⟩

theorem userCode_sane : Sane userCode := ⟨rfl,fun _ => by decide,nofun⟩

theorem sigkill_ends_blocked_console : ∃ s outs,
    run step userCode [.call (.consoleRead 1 0)] = some (s,outs) ∧ s.state = .sleeping ∧
      Ends (.consoleRead 1 0) s := by
  have hrun : ∃ s outs, run step userCode [.call (.consoleRead 1 0)] = some (s,outs) ∧
      (s.pos = .call (.consoleRead 1 0) ∧ s.state = .sleeping ∧ s.proc.sighand 1 = sigDfl) :=
    run_reaches (by decide +kernel)
  obtain ⟨s,outs,hs,hpos,hsleep,-⟩ := hrun
  have hclear : Clear s.proc := by
    cases hs
    exact .inr fun _ _ _ => .inl rfl
  exact ⟨s,outs,hs,hsleep,
    (sigkill_ends_blocked userCode userCode_sane _ s outs hs _ hpos hsleep).1 trivial hclear⟩

theorem killed_process_sleeps_again : (∃ s outs, run step userCode
      [.call (.pipeRead 1),.send sigkill,.dispatch,.resume] = some (s,outs) ∧
        s.state = .sleeping ∧ s.pos = .call (.pipeRead 1)) ∧
    ∃ s outs, run step userCode
      [.signal 2 0x400000,.notify works,.call (.nanosleep 9),.send sigkill,.send 2,.dispatch,
        .resume,.notify works,.call (.nanosleep 9)] = some (s,outs) ∧
        s.state = .sleeping ∧ s.pos = .call (.nanosleep 9) :=
  ⟨run_reaches (by decide +kernel),run_reaches (by decide +kernel)⟩

end Examples

end TinyOs.Blocked
