import TinyOs.Sched.Kin

namespace TinyOs.Sched

open State Machine

variable {C : Type} {s s' : State C} {c : C} {p q np : Slot} {r : Proc} {pid : Int}

def Proc.waiting (r : Proc) (pid : Int) : Prop :=
  r.pos = .toSleep pid ∨ r.pos = .scan pid ∧ r.state = .sleeping

def Proc.zombieOf (r : Proc) (q : Slot) (pid : Int) : Prop :=
  r.parent = some q ∧ r.state = .zombie ∧ (pid = -1 ∨ r.pid = pid)

def Proc.waitsFor? (r : Proc) : Option Int :=
  match r.pos with
  | .toSleep pid => some pid
  | .scan pid => if r.state = .sleeping then some pid else none
  | _ => none

theorem Proc.waiting.waitsFor (h : r.waiting pid) : pid ∈ r.waitsFor? := by
  unfold Proc.waitsFor?
  rcases h with hpos | ⟨hpos,hsleep⟩
  · rw [hpos]
    rfl
  · rw [hpos]
    exact if_pos hsleep

def At.toSleep? : At → Option Int
  | .toSleep pid => some pid
  | _ => none

def Pc.wakes? : Pc → Option Slot
  | .exiting _ q => q
  | _ => none

theorem isZombieKid_iff : s.isZombieKid p pid q = true ↔ (s.proc q).zombieOf p pid := by
  simp only [isZombieKid,isKid,Proc.zombieOf,Bool.and_eq_true,Bool.or_eq_true,
    decide_eq_true_eq]
  constructor
  · rintro ⟨⟨⟨hparent,-⟩,hstate⟩,hpid⟩
    exact ⟨hparent,hstate,hpid⟩
  · rintro ⟨hparent,hstate,hpid⟩
    exact ⟨⟨⟨hparent,by rw [hstate]; decide⟩,hstate⟩,hpid⟩

structure Heard (s : State C) : Prop where
  placed : ∀ q, (s.proc q).Placed q
  chan : ∀ q pid, (s.proc q).state = .sleeping → (s.proc q).pos = .scan pid →
    (s.proc q).chan = some (.proc q)
  pending : ∀ q z pid, (s.proc q).waiting pid → (s.proc z).zombieOf q pid →
    ∃ c p, s.cpu c = .exiting p (some q)

def Kept (s s' : State C) : Prop := ∀ d a q, s.cpu d = .exiting a q → s'.cpu d = .exiting a q

theorem Kept.of_eq (hcpu : s'.cpu = s.cpu) : Kept s s' := by
  intro d a q hd
  rw [hcpu]
  exact hd

theorem Kept.turn [DecidableEq C] {pc : Pc} (hc : ∀ a q, s.cpu c ≠ .exiting a q)
    (hcpu : s'.cpu = (s.setCpu c pc).cpu) : Kept s s' := by
  intro d a q hd
  have hdc : d ≠ c := by
    rintro rfl
    exact hc a q hd
  rw [hcpu,setCpu_ne hdc]
  exact hd

theorem Heard.congr (h : Heard s) (hproc : s'.proc = s.proc) (hcpu : Kept s s') : Heard s' := by
  constructor
  · rw [hproc]
    exact h.placed
  · rw [hproc]
    exact h.chan
  · rw [hproc]
    intro q z pid hw hz
    obtain ⟨d,a,hd⟩ := h.pending q z pid hw hz
    exact ⟨d,a,hcpu d a (some q) hd⟩

theorem Heard.put (h : Heard s) (hproc : s'.proc = (s.setProc p r).proc) (hcpu : Kept s s')
    (hr : r.Placed p)
    (hchan : ∀ pid, r.state = .sleeping → r.pos = .scan pid → r.chan = some (.proc p))
    (hwait : ∀ pid, r.waiting pid → (s.proc p).waiting pid ∨ ∀ z, ¬ (s.proc z).zombieOf p pid)
    (hzombie : ∀ q pid, r.zombieOf q pid → (s.proc p).zombieOf q pid) : Heard s' := by
  refine Heard.congr (s := s.setProc p r) ?_ hproc hcpu
  have hback : ∀ z q pid, ((s.setProc p r).proc z).zombieOf q pid → (s.proc z).zombieOf q pid := by
    intro z q pid hz
    by_cases hzp : z = p
    · rw [hzp,setProc_self] at hz
      rw [hzp]
      exact hzombie q pid hz
    · rwa [setProc_ne hzp] at hz
  constructor
  · intro q
    by_cases hq : q = p
    · rw [hq,setProc_self]
      exact hr
    · rw [setProc_ne hq]
      exact h.placed q
  · intro q pid
    by_cases hq : q = p
    · rw [hq,setProc_self]
      exact hchan pid
    · rw [setProc_ne hq]
      exact h.chan q pid
  intro q z pid hw hz
  by_cases hq : q = p
  · rw [hq,setProc_self] at hw
    rw [hq] at hz ⊢
    rcases hwait pid hw with hold | hnone
    · exact h.pending p z pid hold (hback z p pid hz)
    · exact absurd (hback z p pid hz) (hnone z)
  · rw [setProc_ne hq] at hw
    exact h.pending q z pid hw (hback z q pid hz)

theorem Heard.setCpu [DecidableEq C] (h : Heard s) {pc : Pc}
    (hc : ∀ a q, s.cpu c = .exiting a (some q) → ∀ pid, (s.proc q).waiting pid →
      ∀ z, ¬ (s.proc z).zombieOf q pid) :
    Heard (s.setCpu c pc) := by
  refine ⟨h.placed,h.chan,?_⟩
  intro q z pid hw hz
  obtain ⟨d,a,hd⟩ := h.pending q z pid hw hz
  refine ⟨d,a,?_⟩
  have hdc : d ≠ c := by
    rintro rfl
    exact hc a q hd pid hw z hz
  rw [setCpu_ne hdc]
  exact hd

theorem Proc.zombieOf.unwoken {z : Slot} (hz : (s'.proc z).zombieOf q pid) (hw : Woken s s') :
    (s.proc z).zombieOf q pid := by
  rcases hw.proc z with hsame | ⟨-,hnew⟩
  · rwa [hsame] at hz
  · rw [hnew] at hz
    cases hz.2.1

theorem Heard.woken (h : Heard s) (hw : Woken s s') : Heard s' := by
  constructor
  · exact fun q => (h.placed q).woken hw
  · intro q pid hsleep
    have hq := hw.sleeping hsleep
    rw [hq] at hsleep ⊢
    exact h.chan q pid hsleep
  rw [hw.cpu]
  intro q z pid hq hz
  apply h.pending q z pid
  · rcases hq with hq | ⟨hq,hsleep⟩
    · left
      rwa [hw.pos] at hq
    · rw [hw.sleeping hsleep] at hq hsleep
      exact .inr ⟨hq,hsleep⟩
  · exact hz.unwoken hw

theorem Heard.change (h : Heard s) (hproc : s'.proc = (s.setProc p r).proc) (hcpu : Kept s s')
    (hplaced : r.Placed p) (hr : r.state ≠ .zombie)
    (hchan : ∀ pid, r.state = .sleeping → r.pos = .scan pid → r.chan = some (.proc p))
    (hwait : ∀ pid, r.waiting pid → (s.proc p).waiting pid) : Heard s' :=
  h.put hproc hcpu hplaced hchan (fun pid hw => .inl (hwait pid hw)) fun _ _ hz => absurd hz.2.1 hr

theorem Heard.awake (h : Heard s) (hproc : s'.proc = (s.setProc p r).proc) (hcpu : Kept s s')
    (hplaced : r.Placed p) (hr : r.state ≠ .zombie) (hsleep : r.state ≠ .sleeping)
    (hpos : r.pos = (s.proc p).pos) : Heard s' := by
  apply h.change hproc hcpu hplaced hr
  · exact fun _ hs => absurd hs hsleep
  · rintro pid (hw | ⟨-,hw⟩)
    · rw [hpos] at hw
      exact .inl hw
    · exact absurd hw hsleep

theorem Heard.same (h : Heard s) (hproc : s'.proc = (s.setProc p r).proc) (hcpu : Kept s s')
    (hstate : r.state = (s.proc p).state) (hparent : r.parent = (s.proc p).parent)
    (hpid : r.pid = (s.proc p).pid) (hchan : r.chan = (s.proc p).chan)
    (hpos : r.pos = (s.proc p).pos) : Heard s' := by
  apply h.put hproc hcpu ((h.placed p).congr hstate hparent hpos)
  · rw [hstate,hpos,hchan]
    exact h.chan p
  · intro pid
    rw [Proc.waiting,hstate,hpos]
    exact .inl
  · intro q pid
    rw [Proc.zombieOf,hstate,hparent,hpid]
    exact id

theorem Heard.setPos (h : Heard s) {pos : At}
    (hproc : s'.proc = (s.setProc p { s.proc p with pos := pos }).proc) (hcpu : s'.cpu = s.cpu)
    (hrun : (s.proc p).state = .running) (hnew : pos ≠ .creating 0)
    (hexit : p = initproc → ∀ k, pos ≠ .exitCalled k)
    (hpos : ∀ pid, pos = .toSleep pid → ∀ z, ¬ (s.proc z).zombieOf p pid) : Heard s' := by
  apply h.put hproc (.of_eq hcpu) ((h.placed p).live (.inl hrun) (.inl hrun) rfl hnew hexit)
  · intro pid hsleep
    rw [hrun] at hsleep
    cases hsleep
  · rintro pid (hw | ⟨-,hsleep⟩)
    · exact .inr (hpos pid hw)
    · rw [hrun] at hsleep
      cases hsleep
  · intro q pid hz
    exact nomatch hrun.symm.trans hz.2.1

theorem Heard.ended (h : Heard s) (hinv : Inv s) (hc : s.cpu c = .run p) {k : Bool}
    (hpos : (s.proc p).pos = .exitCalled k) : p ≠ 0 ∧ p ≠ initproc := by
  constructor
  · exact (h.placed p).ne_zero (by rw [hinv.running c p hc]; nofun)
  · exact fun hi => ((h.placed p).init hi).2.2 k hpos

theorem Heard.waitScan (h : Heard s) (hinv : Inv s) (hc : s.cpu c = .run p) (pid : Int) :
    Heard (s.waitScan p pid).1 := by
  have hrun := hinv.running c p hc
  unfold State.waitScan
  split
  · rename_i z hz
    have hzombie := (waitScan_zombie hz).2
    have hzero : z ≠ 0 := (h.placed z).ne_zero (by rw [hzombie]; nofun)
    have hinit : z ≠ initproc := (h.placed z).ne_init (Proc.not_inUse (.inr (.inr hzombie)))
    have hreaped : Heard (s.zombieReapLocked z).1 :=
      h.awake rfl (.of_eq rfl) (.plain hzero hinit (h.placed z).uncreated nofun) nofun nofun rfl
    have hrun := (hinv.zombieReap hzombie).running c p hc
    exact hreaped.setPos rfl rfl hrun nofun nofun nofun
  rename_i hnone
  split
  · refine h.setPos rfl rfl hrun nofun nofun ?_
    rintro _ ⟨⟩ z hz
    exact List.find?_eq_none.mp hnone z (List.mem_finRange z) (isZombieKid_iff.mpr hz)
  · exact h.setPos rfl rfl hrun nofun nofun nofun

theorem Heard.procAlloc (h : Heard s) (hinv : Inv s) (hc : s.cpu c = .run p) :
    Heard (s.procAlloc p).1 := by
  unfold State.procAlloc
  split
  · exact h
  rename_i np hnp
  have hfound := List.find?_some hnp
  simp only [Bool.and_eq_true,decide_eq_true_eq] at hfound
  obtain ⟨hzero,hunused⟩ := hfound
  split
  · exact h.congr rfl (.of_eq rfl)
  have hinit : np ≠ initproc := (h.placed np).ne_init (Proc.not_inUse (.inl hunused))
  have hrun := hinv.running c p hc
  have hne : p ≠ np := by
    rintro rfl
    cases hrun.symm.trans hunused
  have htaken : Heard (s.setProc np { Proc.clear with state := .used, pid := s.nextpid }) := by
    refine h.change rfl (.of_eq rfl) (.plain hzero hinit nofun nofun) nofun nofun ?_
    rintro pid (hw | ⟨hw,-⟩) <;> cases hw
  rw [← setProc_ne hne] at hrun
  have hnew : At.creating np ≠ .creating 0 := fun heq => hzero (At.creating.inj heq)
  refine htaken.setPos ?_ rfl hrun hnew nofun nofun
  rw [setProc_ne hne]

theorem Heard.created (h : Heard s) (hinv : Inv s)
    (hpos : (s.proc p).pos = .creating np) : np ≠ 0 ∧ np ≠ initproc ∧ p ≠ np := by
  obtain ⟨hne,hused,-,-⟩ := hinv.fresh p np hpos
  refine ⟨?_,(h.placed np).ne_init (Proc.not_inUse (.inr (.inl hused))),hne.symm⟩
  rintro rfl
  exact (h.placed p).uncreated hpos

theorem Heard.publish (h : Heard s) (hinv : Inv s) (hc : s.cpu c = .run p)
    (hpos : (s.proc p).pos = .creating np) : Heard (s.publish p np) := by
  obtain ⟨hzero,hinit,hne⟩ := h.created hinv hpos
  have hchild : Heard (enqueue (s.setProc np { s.proc np with
      state := .runnable, parent := some p, kstack := true, saved := true }) np) :=
    h.awake (enqueue_proc ..) (.of_eq (enqueue_cpu ..))
      (.plain hzero hinit (h.placed np).uncreated fun heq => hne (Option.some.inj heq)) nofun nofun rfl
  refine hchild.setPos rfl rfl ?_ nofun nofun nofun
  rw [enqueue_proc,setProc_ne hne]
  exact hinv.running c p hc

theorem Heard.procFree (h : Heard s) (hinv : Inv s) (hc : s.cpu c = .run p)
    (hpos : (s.proc p).pos = .creating np) : Heard (s.procFree p np).1 := by
  obtain ⟨hzero,hinit,hne⟩ := h.created hinv hpos
  have hfree : Heard ((s.unlink np).setProc np { s.proc np with
      state := .unused, pid := 0, parent := none, kstack := false, saved := false }) :=
    h.awake rfl (.of_eq rfl) (.plain hzero hinit (h.placed np).uncreated nofun) nofun nofun rfl
  refine hfree.setPos rfl rfl ?_ nofun nofun nofun
  rw [setProc_ne hne]
  exact hinv.running c p hc

theorem reparent_proc (s : State C) (p q : Slot) : ((s.reparent p).proc q).state = (s.proc q).state ∧
    ((s.reparent p).proc q).pos = (s.proc q).pos ∧ ((s.reparent p).proc q).chan = (s.proc q).chan ∧
    ((s.reparent p).proc q).pid = (s.proc q).pid := by
  simp only [reparent]
  split <;> exact ⟨rfl,rfl,rfl,rfl⟩

theorem reparent_zombieOf {z : Slot} (hz : ((s.reparent p).proc z).zombieOf q pid) :
    (s.proc z).zombieOf q pid ∨ q = initproc ∧ (s.proc z).zombieOf p pid := by
  simp only [reparent] at hz
  split at hz
  · rename_i hparent
    obtain ⟨hinit,hstate,hpid⟩ := hz
    exact .inr ⟨(Option.some.inj hinit).symm,hparent.1,hstate,hpid⟩
  · exact .inl hz

theorem reparent_self (h : (s.proc p).parent ≠ some p) : (s.reparent p).proc p = s.proc p := by
  simp only [reparent]
  exact if_neg fun hboth => h hboth.1

theorem boot_heard : Heard (State.boot : State C) := by
  constructor
  · exact boot_placed
  · exact fun q _ hsleep => absurd hsleep (bootProc_spec q).2.2.1
  · rintro q z pid (hw | ⟨hw,-⟩)
    · exact nomatch (bootProc_spec q).2.2.2.2.symm.trans hw
    · exact nomatch (bootProc_spec q).2.2.2.2.symm.trans hw

variable [DecidableEq C]

theorem Heard.schedulerSection (h : Heard s) (hinv : Inv s) (hc : s.cpu c = .sched) :
    Heard (s.schedulerSection c) := by
  unfold State.schedulerSection
  split
  · exact h
  rename_i p rest hq
  split
  · exact h.congr rfl (.of_eq rfl)
  have hstate : (s.proc p).state = .runnable := (hinv.fits p).queued.mp (by rw [hq]; simp)
  refine h.awake rfl (.turn (by rw [hc]; nofun) rfl) ?_ nofun nofun rfl
  exact (h.placed p).stay (.inr (.inl hstate)) (.inl rfl) rfl rfl

theorem Heard.yield (h : Heard s) (hinv : Inv s) (hc : s.cpu c = .run p) : Heard (s.yield c p) := by
  have hcpu : (s.yield c p).cpu = (s.setCpu c (.leave p false)).cpu := by
    simp only [State.yield,State.setCpu,enqueue_cpu]
    rfl
  refine h.awake (enqueue_proc ..) (.turn (by simp [hc]) hcpu) ?_ (by simp) (by simp) rfl
  exact (h.placed p).stay (.inl (hinv.running c p hc)) (.inr (.inl rfl)) rfl rfl

theorem Heard.sleepOn (h : Heard s) (hinv : Inv s) (hc : s.cpu c = .run p) {chan : Option Chan}
    {tick : Nat}
    {pos : At} (hnew : pos ≠ .creating 0) (hexit : p = initproc → ∀ k, pos ≠ .exitCalled k)
    (hpos : ∀ pid, pos ≠ .toSleep pid)
    (hscan : ∀ pid, pos = .scan pid → chan = some (.proc p) ∧ (s.proc p).pos = .toSleep pid) :
    Heard (s.sleepOn c p chan tick pos) := by
  refine h.change rfl (.turn (by rw [hc]; nofun) rfl)
    ((h.placed p).live (.inl (hinv.running c p hc)) (.inr (.inr rfl)) rfl hnew hexit) nofun
    (fun pid _ hp => (hscan pid hp).1) ?_
  rintro pid (hw | ⟨hw,-⟩)
  · exact absurd hw (hpos pid)
  · exact .inl (hscan pid hw).2

theorem Heard.sched (h : Heard s) {f : Bool} (hc : s.cpu c = .leave p f) : Heard (s.sched c p) := by
  unfold State.sched
  split
  · exact h.congr rfl (.turn (by rw [hc]; nofun) rfl)
  · exact h.same (p := p) rfl (.turn (by rw [hc]; nofun) rfl) rfl rfl rfl rfl rfl

theorem Heard.kthreadReap (h : Heard s) (hc : s.cpu c = .back p) : Heard (s.kthreadReap c p).1 := by
  unfold State.kthreadReap
  split
  · exact h.same (p := p) rfl (.turn (by rw [hc]; nofun) rfl) rfl rfl rfl rfl rfl
  · exact h.congr rfl (.turn (by rw [hc]; nofun) rfl)

theorem Heard.kthreadExit (h : Heard s) (hinv : Inv s) (hc : s.cpu c = .run p)
    (hpos : (s.proc p).pos = .exitCalled true) : Heard (s.kthreadExit c p) := by
  obtain ⟨hzero,hinit⟩ := h.ended hinv hc hpos
  refine h.change rfl (.turn (by rw [hc]; nofun) rfl)
    (.plain hzero hinit nofun ((h.placed p).own hzero)) nofun nofun ?_
  rintro pid (hw | ⟨hw,-⟩) <;> cases hw

def Prompt (s : State C) (op : Op C) : Prop := HeadFree s op ∧
    match op with
    | .exitWake c => ∀ q ∈ (s.cpu c).wakes?, ∀ pid ∈ (s.proc q).pos.toSleep?,
        ∀ z, s.isZombieKid q pid z = false
    | .exitPublish c => ∀ p ∈ (s.cpu c).running?, (s.proc p).parent ≠ some initproc →
        ∀ pid ∈ (s.proc initproc).waitsFor?, ∀ z, s.isZombieKid p pid z = false
    | _ => True

instance [Fintype C] (s : State C) (op : Op C) : Decidable (Prompt s op) := by
  apply Op.casesOn (motive := fun op => Decidable (Prompt s op)) op <;> intros <;> unfold Prompt <;>
    infer_instance

theorem Heard.exitWithXstate (h : Heard s) (hinv : Inv s) (hc : s.cpu c = .run p)
    (hpos : (s.proc p).pos = .exitCalled false) (hprompt : Prompt s (.exitPublish c)) :
    Heard (s.exitWithXstate c p) := by
  obtain ⟨hzero,hinit⟩ := h.ended hinv hc hpos
  obtain ⟨t,ht⟩ : ∃ t, t = s.exitWithXstate c p := ⟨_,rfl⟩
  have hself : t.proc p =
      { (s.reparent p).proc p with state := .zombie, saved := false, pos := .code } := by
    rw [ht]
    exact setProc_self ..
  have hother : ∀ q, q ≠ p → t.proc q = (s.reparent p).proc q := by
    intro q hq
    rw [ht]
    exact setProc_ne hq
  have hcpu : t.cpu c = .exiting p (s.proc p).parent := by
    rw [ht]
    exact setCpu_self ..
  rw [← ht]
  constructor
  · intro q
    have hrep := (h.placed q).reparent hzero
    by_cases hq : q = p
    · subst hq
      rw [hself]
      exact .plain hzero hinit nofun (hrep.own hzero)
    · rw [hother q hq]
      exact hrep
  · intro q pid hsleep hscan
    have hq : q ≠ p := by
      rintro rfl
      rw [hself] at hsleep
      cases hsleep
    obtain ⟨hstate,hpos,hchan,-⟩ := reparent_proc s p q
    rw [hother q hq] at hsleep hscan ⊢
    rw [hchan]
    exact h.chan q pid (hstate ▸ hsleep) (hpos ▸ hscan)
  intro q z pid hw hz
  have hq : q ≠ p := by
    rintro rfl
    rw [hself] at hw
    rcases hw with hw | ⟨hw,-⟩ <;> cases hw
  have hwait : (s.proc q).waiting pid := by
    obtain ⟨hstate,hpos,-,-⟩ := reparent_proc s p q
    rwa [hother q hq,Proc.waiting,hstate,hpos] at hw
  by_cases hzp : z = p
  · rw [hzp,hself,reparent_self ((h.placed p).own hzero)] at hz
    exact ⟨c,p,by rw [hcpu,hz.1]⟩
  rw [hother z hzp] at hz
  rcases reparent_zombieOf hz with hold | ⟨rfl,hmoved⟩
  · obtain ⟨d,a,hd⟩ := h.pending q z pid hwait hold
    have hkept : Kept s t := .turn (by rw [hc]; nofun) (by rw [ht]; rfl)
    exact ⟨d,a,hkept d a (some q) hd⟩
  · by_cases hold : (s.proc p).parent = some initproc
    · exact ⟨c,p,by rw [hcpu,hold]⟩
    have hkid := hprompt.2 p (by rw [hc]; rfl) hold pid hwait.waitsFor z
    rw [isZombieKid_iff.mpr hmoved] at hkid
    cases hkid

theorem Heard.exitWake (h : Heard s) {parent : Option Slot} (hc : s.cpu c = .exiting p parent)
    (hprompt : Prompt s (.exitWake c)) :
    Heard ((s.wakeParent parent).setCpu c (.leave p true)) := by
  have hwoken := (wakes_wakeParent s parent).woken
  have hheard := h.woken hwoken
  apply hheard.setCpu
  intro a q hd pid hw z hz
  rw [hwoken.cpu,hc] at hd
  cases hd
  rcases hw with hw | ⟨hw,hsleep⟩
  · rw [hwoken.pos] at hw
    have hnot := hprompt.2 q (by rw [hc]; rfl) pid (by rw [hw]; rfl) z
    rw [isZombieKid_iff.mpr (hz.unwoken hwoken)] at hnot
    cases hnot
  · have hchan := hheard.chan q pid hsleep hw
    rw [wakeParent] at hsleep hchan
    exact wakeup_not_sleeping s (.proc q) q ⟨hsleep,hchan⟩

theorem Heard.step (h : Heard s) (hinv : Inv s) {op : Op C} {r : State C × List Event}
    (hprompt : Prompt s op) (hs : s.step op = some r) : Heard r.1 := by
  cases step_move hs with
  | dispatch hc => exact h.schedulerSection hinv hc
  | @switchIn c p hc => exact h.same (p := p) rfl (.turn (by rw [hc]; nofun) rfl) rfl rfl rfl rfl rfl
  | switchOut hc => exact h.sched hc
  | reap hc => exact h.kthreadReap hc
  | yield hc => exact h.yield hinv hc
  | preempt hc =>
    dsimp only [preemptCheck]
    split
    · split
      · exact h.congr rfl (.of_eq rfl)
      · exact h.yield hinv hc
    · exact h
  | @sleep c p n hc hscan hsleep | @sleepDeadline c p n hc hscan hsleep =>
    exact h.sleepOn hinv hc (h.placed p).uncreated (fun hi => ((h.placed p).init hi).2.2) hsleep
      fun pid hp => absurd hp (hscan pid)
  | @wakeup chan =>
    dsimp only
    exact h.woken (wakes_wakeup s chan).woken
  | @tick c now =>
    dsimp only
    exact h.woken (wakes_schedTick s c now).woken
  | @signalSend pid => exact h.woken (wakes_signalSend s pid).woken
  | alloc hc _ => exact h.procAlloc hinv hc
  | publish hc hpos => exact h.publish hinv hc hpos
  | abandon hc hpos => exact h.procFree hinv hc hpos
  | exitCall hc _ hinit =>
    exact h.setPos rfl rfl (hinv.running _ _ hc) nofun (fun hi => absurd hi hinit) nofun
  | wait hc _ => exact h.setPos rfl rfl (hinv.running _ _ hc) nofun nofun nofun
  | exitPublish hc hpos => exact h.exitWithXstate hinv hc hpos hprompt
  | exitWake hc => exact h.exitWake hc hprompt
  | kthreadExit hc hpos => exact h.kthreadExit hinv hc hpos
  | waitScan hc _ => exact h.waitScan hinv hc _
  | waitSleep hc hpos =>
    refine h.sleepOn hinv hc nofun nofun nofun ?_
    rintro _ ⟨⟩
    exact ⟨rfl,hpos⟩

theorem no_missed_zombie (ops : List (Op C)) (s : State C) (out : List (List Event))
    (hprompt : Always State.step Prompt State.boot ops)
    (h : run State.step State.boot ops = some (s,out)) (q z : Slot) (pid : Int)
    (hsleep : (s.proc q).state = .sleeping) (hpos : (s.proc q).pos = .scan pid)
    (hz : s.isZombieKid q pid z) : ∃ c p, s.cpu c = .exiting p (some q) := by
  have hrun : Inv s ∧ Heard s := run_history (I := fun _ s => Inv s ∧ Heard s)
    (fun _ _ _ _ _ hI hgood hs => ⟨hI.1.step hgood.1 hs,hI.2.step hI.1 hgood hs⟩)
    ⟨boot_inv,boot_heard⟩ hprompt h
  exact hrun.2.pending q z pid (.inr ⟨hpos,hsleep⟩) (isZombieKid_iff.mp hz)

def exitAfterSleep : List (Op Unit) :=
  [.dispatch (),.switchIn (),.alloc (),.publish (),.wait () (-1),.waitScan (),.waitSleep (),
    .switchOut (),.reap (),.dispatch (),.switchIn (),.sleep () 7,.switchOut (),.reap (),
    .dispatch (),.switchIn (),.exitCall () false,.exitPublish ()]

theorem no_missed_zombie_slept : ∃ s out,
    run State.step State.boot exitAfterSleep = some (s,out) ∧
      ((s.proc 1).state = .sleeping ∧ (s.proc 1).pos = .scan (-1) ∧ s.isZombieKid 1 (-1) 3) ∧
      ∃ c p, s.cpu c = .exiting p (some 1) := by
  have hprompt : Always step Prompt boot exitAfterSleep := by decide +kernel
  refine run_shows (fun s => (s.proc 1).state = .sleeping ∧ (s.proc 1).pos = .scan (-1) ∧
    s.isZombieKid 1 (-1) 3) (by decide +kernel) fun s out hs h => ⟨h,?_⟩
  exact no_missed_zombie exitAfterSleep s out hprompt hs 1 3 (-1) h.1 h.2.1 h.2.2

def exitBeforeSleep : List (Op Bool) :=
  [.dispatch false,.switchIn false,.alloc false,.publish false,.wait false (-1),.waitScan false,
    .dispatch true,.switchIn true,.sleep true 7,.switchOut true,.reap true,.dispatch true,
    .switchIn true,.exitCall true false,.exitPublish true,.exitWake true,.waitSleep false]

theorem wait_misses_zombie : ∃ s out,
    run State.step State.boot exitBeforeSleep = some (s,out) ∧
      (s.proc 1).state = .sleeping ∧ (s.proc 1).pos = .scan (-1) ∧ s.isZombieKid 1 (-1) 3 = true ∧
      s.cpu false = .leave 1 false ∧ s.cpu true = .leave 3 true ∧
      ∀ p k, (s.proc p).pos ≠ .exitCalled k :=
  run_reaches (by decide +kernel)

end TinyOs.Sched
