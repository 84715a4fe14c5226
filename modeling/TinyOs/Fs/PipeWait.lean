import TinyOs.Fs.PipeEnds

namespace TinyOs.Fs

open Finset List State Machine Event

open Function (update update_of_ne update_self)

variable {P : Type} {s s' : State P} {p : P} {op : Op P} {es : List (Event P)} {k c : Call}
  {popped pushed : List Byte} {chan : Chan} {pi : Pipe}

def Blocked (pi : Pipe) : Chan → Call → Prop
  | .nread, .read _ _ => pi.nread = pi.nwrite ∧ pi.writers ≠ 0
  | .nwrite, .write _ src _ _ _ =>
    pi.readers ≠ 0 ∧ (src.length ≤ pipeSize → pi.nread + pipeSize < pi.nwrite + src.length)
  | _, _ => False

theorem Blocked.cases (h : Blocked pi chan k) :
    (∃ f n, chan = .nread ∧ k = .read f n ∧ pi.nread = pi.nwrite ∧ pi.writers ≠ 0) ∨
      ∃ f src i total rest, chan = .nwrite ∧ k = .write f src i total rest ∧ pi.readers ≠ 0 ∧
        (src.length ≤ pipeSize → pi.nread + pipeSize < pi.nwrite + src.length) := by
  cases chan with
  | nread =>
    cases k with
    | read f n => exact .inl ⟨f,n,rfl,rfl,h⟩
    | _ => exact h.elim
  | nwrite =>
    cases k with
    | write f src i total rest => exact .inr ⟨f,src,i,total,rest,rfl,rfl,h⟩
    | _ => exact h.elim
  | _ => exact h.elim

def State.Pending (s : State P) (chan : Chan) : Prop :=
  ∃ q c ws flow, s.tasks q = .inside c ws flow ∧ chan ∈ ws

def Settled (s : State P) (p : P) : Task → Prop
  | .inside _ _ flow => s.lock = some p ∧ ∀ chan k, flow = .sleep chan k → Blocked s.pipe chan k
  | .parking chan k => s.procLock = some p ∧ (Blocked s.pipe chan k ∨ s.Pending chan)
  | .asleep chan k => Blocked s.pipe chan k ∨ s.Pending chan
  | _ => True

def Sleepers (s : State P) : Prop := ∀ p, Settled s p (s.tasks p)

structure Short (pi : Pipe) : Prop where
  read_le : pi.nread ≤ pi.nwrite
  room : pi.nwrite ≤ pi.nread + pipeSize
  small : pi.nwrite < 2 ^ 31

theorem Pipe.Holds.short (h : pi.Holds popped pushed)
    (hlen : pushed.length < 2 ^ 31) : Short pi := by
  have hr := h.read
  have hw := h.write
  have hle := h.length_le
  have hroom := h.room
  rw [Nat.mod_eq_of_lt (by simp only [word]; omega)] at hr hw
  exact ⟨by omega,by omega,by omega⟩

theorem Short.noWrap (h : Short s.pipe) (op : Op P) : s.NoWrap op := by
  intro _ hn hwrap
  have := hwrap.1
  have := h.small
  simp only [pipeSize,word] at *
  omega

namespace Ends

theorem reader_counted (h : Ends s) {f : Fin nFile} {n : Nat}
    (hfits : (Call.read f n).Fits (s.files f)) : s.pipe.readers ≠ 0 := by
  rw [h.readers]
  exact card_ne_zero_of_mem (mem_filter.mpr ⟨mem_univ f,hfits⟩)

theorem counts_small (h : Ends s) : s.pipe.readers ≤ nFile ∧ s.pipe.writers ≤ nFile := by
  rw [h.readers,h.writers]
  exact ⟨(card_le_univ _).trans (by simp),(card_le_univ _).trans (by simp)⟩

theorem blocked_enter (h : Ends s) (hk : k.Fits (s.files k.file)) (hb : Blocked s.pipe chan k)
    (hgrow : s.pipe.nwrite ≤ (s.stretch p c).pipe.nwrite) :
    Blocked (s.stretch p c).pipe chan k ∨ chan ∈ (s.stretch p c).wakes := by
  obtain ⟨hsmallr,hsmallw⟩ := h.counts_small
  cases c with
  | write f src i total rest =>
    obtain ⟨x,hx,hs⟩ := h.wrote p f src i total rest
    rw [hs] at hgrow ⊢
    change s.pipe.nwrite ≤ x.pipe.nwrite at hgrow
    change Blocked x.pipe chan k ∨ chan ∈ x.wakes
    rcases hb.cases with ⟨g,n,rfl,rfl,-⟩ | ⟨g,src',i',total',rest',rfl,rfl,hr,hfull⟩
    · rcases hx.wakes with hw | hsame | hzero
      · exact .inr hw
      · rw [hsame]
        exact .inl hb
      · exact absurd hzero (h.reader_counted hk)
    · refine .inl ⟨hx.readers ▸ hr,fun hle => ?_⟩
      have := hfull hle
      rw [hx.nread]
      omega
  | read f n =>
    obtain ⟨x,hx,hs⟩ := h.took p f n
    rw [hs]
    change Blocked x.pipe chan k ∨ chan ∈ x.wakes
    rcases hx.waits with ⟨hsame,-⟩ | ⟨hwake,hne,-⟩
    · rw [hsame]
      exact .inl hb
    rcases hb.cases with ⟨g,m,rfl,rfl,-⟩ | ⟨g,src',i',total',rest',rfl,rfl,-⟩
    · exact absurd hb hne
    · exact .inr hwake
  | release f =>
    simp only [stretch,Stretch.map,pipeRelease]
    generalize (s.files f).getD ⟨false,false⟩ = file
    rcases hb.cases with ⟨g,m,rfl,rfl,he,hw⟩ | ⟨g,src',i',total',rest',rfl,rfl,hr,hfull⟩
    · by_cases hw' : (if file.writable = true then dropEnd s.pipe.writers else s.pipe.writers) = 0
      · cases hf : file.writable with
        | true =>
          rw [hf,if_pos rfl] at hw'
          exact .inr (by simp [hw'])
        | false =>
          rw [hf] at hw'
          exact absurd hw' hw
      · exact .inl ⟨he,hw'⟩
    · by_cases hr' : (if file.readable = true then dropEnd s.pipe.readers else s.pipe.readers) = 0
      · cases hf : file.readable with
        | true =>
          rw [hf,if_pos rfl] at hr'
          exact .inr (by simp [hr'])
        | false =>
          rw [hf] at hr'
          exact absurd hr' hr
      · exact .inl ⟨hr',hfull⟩
  | openFifo f file =>
    simp only [stretch,Stretch.map,fifoOnOpen]
    have hcount : ∀ (b : Bool) (k : Nat), k ≤ nFile → k ≠ 0 →
        (if b = true then (k + 1) % word else k) ≠ 0 := by
      intro b k hk hne
      rw [Nat.mod_eq_of_lt (by simp only [nFile,word] at *; omega)]
      cases b <;> simp [hne]
    rcases hb.cases with ⟨g,m,rfl,rfl,he,hw⟩ | ⟨g,src',i',total',rest',rfl,rfl,hr,hfull⟩
    · exact .inl ⟨he,hcount _ _ hsmallw hw⟩
    · exact .inl ⟨hcount _ _ hsmallr hr,hfull⟩

theorem blocked_going (h : Ends s) (hshort : Short s.pipe)
    (hk : (s.stretch p c).flow = .sleep chan k) : Blocked (s.stretch p c).pipe chan k := by
  cases c with
  | write f src i total rest =>
    obtain ⟨x,hx,hs⟩ := h.wrote p f src i total rest
    rw [hs] at hk ⊢
    simp only [Stretch.map] at hk
    split at hk
    · cases hk
    rename_i chan' j hflow
    cases hk
    obtain ⟨rfl,hr,hfull⟩ := hx.sleep _ j hflow
    refine ⟨hx.readers ▸ hr,fun hle => ?_⟩
    obtain ⟨hsame,htest⟩ := hfull hle
    change x.pipe.nread + pipeSize < x.pipe.nwrite + src.length
    rw [hsame]
    have := hshort.small
    have := hshort.read_le
    simp only [pipeSize,word] at *
    omega
  | read f n =>
    obtain ⟨x,hx,hs⟩ := h.took p f n
    rw [hs] at hk ⊢
    simp only [Stretch.map] at hk
    rcases hx.waits with ⟨hsame,⟨j,hflow⟩,hb⟩ | ⟨-,-,r,hflow⟩
    · rw [hflow] at hk
      cases hk
      change Blocked x.pipe _ _
      rw [hsame]
      exact hb
    · rw [hflow] at hk
      cases hk
  | release f | openFifo f file => cases hk

end Ends

namespace Sleepers

variable {ws : List Chan} {flow : Flow Call}

theorem inside (h : Sleepers s) (hp : s.tasks p = .inside c ws flow) :
    s.lock = some p ∧ ∀ chan k, flow = .sleep chan k → Blocked s.pipe chan k := by
  have hset := h p
  rwa [hp] at hset

theorem unlocked (h : Sleepers s) (hl : s.lock = none) (chan : Chan) : ¬ s.Pending chan := by
  rintro ⟨q,c,ws,flow,hq,-⟩
  rw [(h.inside hq).1] at hl
  cases hl

theorem asleep (h : Sleepers s) (hl : s.lock = none)
    (hp : s.tasks p = .asleep chan k) : Blocked s.pipe chan k := by
  have hset := h p
  rw [hp] at hset
  exact hset.resolve_right (h.unlocked hl chan)

theorem retask [DecidableEq P] (h : Sleepers s) {t : Task} (hpipe : s'.pipe = s.pipe)
    (htasks : s'.tasks = update s.tasks p t)
    (hdone : ∀ c ws flow, s.tasks p = .inside c ws flow → ws = [])
    (hlock : ∀ q, q ≠ p → s.lock = some q → s'.lock = some q)
    (hproc : ∀ q, q ≠ p → s.procLock = some q → s'.procLock = some q)
    (ht : (∀ chan, s.Pending chan → s'.Pending chan) → Settled s' p t) : Sleepers s' := by
  have hpend : ∀ chan, s.Pending chan → s'.Pending chan := by
    rintro chan ⟨q,c,ws,flow,hq,hmem⟩
    have hqp : q ≠ p := by
      rintro rfl
      rw [hdone c ws flow hq] at hmem
      cases hmem
    exact ⟨q,c,ws,flow,by rw [htasks,update_of_ne hqp,hq],hmem⟩
  intro q
  rw [htasks]
  by_cases hqp : q = p
  · rw [hqp,update_self]
    exact ht hpend
  rw [update_of_ne hqp]
  have hq := h q
  cases hqt : s.tasks q <;> rw [hqt] at hq
  case inside => exact ⟨hlock q hqp hq.1,hpipe ▸ hq.2⟩
  case parking => exact ⟨hproc q hqp hq.1,hpipe ▸ hq.2.imp_right (hpend _)⟩
  case asleep chan k => exact (hpipe ▸ hq : Blocked s'.pipe chan k ∨ _).imp_right (hpend chan)
  all_goals trivial

theorem enter [DecidableEq P] (h : Sleepers s) (he : Ends s) (hl : s.lock = none)
    (hshort : Short s.pipe) (hgrow : s.pipe.nwrite ≤ (s.stretch p c).pipe.nwrite) :
    Sleepers { s with
      pipe := (s.stretch p c).pipe
      files := s.filesAfter c
      lock := some p
      tasks := update s.tasks p (.inside c (s.stretch p c).wakes (s.stretch p c).flow) } := by
  intro q
  dsimp only
  by_cases hqp : q = p
  · subst hqp
    rw [update_self]
    exact ⟨rfl,fun chan k hk => he.blocked_going hshort hk⟩
  rw [update_of_ne hqp]
  have hq := h q
  have hfits := he.fits q
  have hkeep : ∀ chan k, k.Fits (s.files k.file) → Blocked s.pipe chan k ∨ s.Pending chan →
      Blocked (s.stretch p c).pipe chan k ∨ State.Pending { s with
        pipe := (s.stretch p c).pipe
        files := s.filesAfter c
        lock := some p
        tasks := update s.tasks p (.inside c (s.stretch p c).wakes (s.stretch p c).flow) } chan := by
    intro chan k hk hb
    refine (he.blocked_enter hk (hb.resolve_right (h.unlocked hl chan)) hgrow).imp_right ?_
    exact fun hw => ⟨p,c,_,_,update_self ..,hw⟩
  cases hqt : s.tasks q <;> rw [hqt] at hq hfits
  case inside => cases hl.symm.trans hq.1
  case parking => exact ⟨hq.1,hkeep _ _ hfits hq.2⟩
  case asleep => exact hkeep _ _ hfits hq
  all_goals trivial

theorem wake [DecidableEq P] (h : Sleepers s) (hl : s.procLock = none)
    (hp : s.tasks p = .inside c (chan :: ws) flow) :
    Sleepers ((s.wakeup chan).setTask p (.inside c ws flow)) := by
  have hlock := (h.inside hp).1
  intro q
  simp only [setTask]
  by_cases hqp : q = p
  · rw [hqp,update_self]
    exact h.inside hp
  rw [update_of_ne hqp]
  rcases s.wakeup_task chan q with ⟨k,-,hk⟩ | ⟨hk,hnot⟩
  · rw [hk]
    trivial
  rw [hk]
  have hq := h q
  cases hqt : s.tasks q <;> rw [hqt] at hq
  case inside => exact hq
  case parking => cases hl.symm.trans hq.1
  case asleep chan' k =>
    refine Or.imp_right ?_ hq
    rintro ⟨r,d,vs,fl,hr,hmem⟩
    obtain rfl := Option.some.inj (hlock.symm.trans (h.inside hr).1)
    rw [hp] at hr
    cases hr
    have hchan : chan' ≠ chan := by
      rintro rfl
      exact hnot k hqt
    exact ⟨p,c,ws,flow,update_self ..,(mem_cons.mp hmem).resolve_left hchan⟩
  all_goals trivial

end Sleepers

theorem Step.sleepers [DecidableEq P] (hs : Step s op s' es) (he : Ends s) (h : Sleepers s)
    (hshort : Short s.pipe) (hgrow : s.pipe.nwrite ≤ s'.pipe.nwrite) : Sleepers s' := by
  have hrest : ∀ p, s.resting p → ∀ c ws flow, s.tasks p = .inside c ws flow → ws = [] := by
    intro p hp c ws flow hin
    rw [resting,hin] at hp
    cases hp
  have hother : ∀ {o o' : Option P} {p : P}, o = some p → ∀ q, q ≠ p → o = some q → o' = some q := by
    rintro _ _ p rfl q hq ⟨⟩
    exact absurd rfl hq
  cases hs with
  | refuse => exact h
  | write hp | read hp | close hp | openFifo hp =>
    exact h.retask rfl rfl (hrest _ hp) (fun _ _ => id) (fun _ _ => id) fun _ => trivial
  | enter hl hp => exact h.enter he hl hshort hgrow
  | wake hl hp => exact h.wake hl hp
  | @leave p c r hp =>
    refine h.retask rfl rfl (by rw [hp]; rintro _ _ _ ⟨⟩; rfl) (hother (h.inside hp).1) (fun _ _ => id)
      fun _ => ?_
    cases c with
    | write =>
      simp only [afterReturn]
      split
      · trivial
      · split <;> trivial
    | read | release | openFifo => trivial
  | @park p c k chan hl hp =>
    refine h.retask rfl rfl (by rw [hp]; rintro _ _ _ ⟨⟩; rfl) (hother (h.inside hp).1) ?_ fun _ =>
      ⟨rfl,.inl ((h.inside hp).2 chan k rfl)⟩
    intro q _ hlq
    rw [hl] at hlq
    cases hlq
  | @settle p chan k hp =>
    have hset := h p
    rw [hp] at hset
    exact h.retask rfl rfl (by simp [hp]) (fun _ _ => id) (hother hset.1) fun hpend =>
      hset.2.imp_right (hpend chan)
  | signal hl hp | efault hp =>
    exact h.retask rfl rfl (by simp [hp]) (fun _ _ => id) (fun _ _ => id) fun _ => trivial

theorem Created.sleepers (h : Created s) : Sleepers s := by
  cases h <;> exact fun _ => trivial

def Pipe.free (pi : Pipe) : Nat := pipeSize - (pi.nwrite + word - pi.nread) % word

theorem Pipe.Holds.grows {pi' : Pipe} {popped' more : List Byte}
    (h : pi.Holds popped pushed) (h' : pi'.Holds popped' (pushed ++ more))
    (hlen : (pushed ++ more).length < 2 ^ 31) : pi.nwrite ≤ pi'.nwrite := by
  have hw := h.write
  have hw' := h'.write
  rw [length_append] at hlen hw'
  rw [Nat.mod_eq_of_lt (by simp only [word]; omega)] at hw hw'
  omega

theorem run_sleepers [DecidableEq P] [Fintype P] {ops : List (Op P)}
    {out : List (List (Event P))} (h : Created s)
    (hrun : run State.step s ops = some (s',out))
    (hlen : (stored out.flatten).length < 2 ^ 31) :
    Sleepers s' ∧ Short s'.pipe := by
  have hinv := run_traces (I := fun os s => Ends s ∧ ((stored os.flatten).length < 2 ^ 31 →
      s.pipe.Holds (returned os.flatten) (stored os.flatten) ∧ Sleepers s))
    ?_ ⟨h.ends,fun _ => ⟨h.holds,h.sleepers⟩⟩ hrun
  · obtain ⟨hh,hs⟩ := hinv.2 hlen
    exact ⟨hs,hh.short hlen⟩
  intro os s op s' es ⟨hends,hshort⟩ hs
  have hstep := step_cases hs
  refine ⟨hstep.ends hends,fun hlen => ?_⟩
  rw [flatten_append,flatten_singleton,stored_append] at hlen ⊢
  have hlen' : (stored os.flatten).length < 2 ^ 31 := by
    rw [length_append] at hlen
    omega
  obtain ⟨hh,hsl⟩ := hshort hlen'
  have hh' := hstep.holds hh ((hh.short hlen').noWrap op)
  rw [returned_append]
  exact ⟨hh',hstep.sleepers hends hsl (hh.short hlen') (hh.grows hh' hlen)⟩

theorem no_lost_wakeup [DecidableEq P] [Fintype P] (s s' : State P) (ops : List (Op P))
    (out : List (List (Event P))) (h : Created s)
    (hrun : run State.step s ops = some (s',out))
    (hlen : (stored out.flatten).length < 2 ^ 31) (hlock : s'.lock = none) :
    (∀ p k, s'.tasks p = .asleep .nread k →
      ¬ (s'.pipe.nread ≠ s'.pipe.nwrite ∨ s'.pipe.writers = 0)) ∧
    ∀ p f src i total rest, s'.tasks p = .asleep .nwrite (.write f src i total rest) →
      src.length ≤ pipeSize → ¬ (src.length ≤ s'.pipe.free ∨ s'.pipe.readers = 0) := by
  obtain ⟨hs,hshort⟩ := run_sleepers h hrun hlen
  refine ⟨?_,?_⟩
  · intro p k hp
    have hb := hs.asleep hlock hp
    cases k with
    | read f n =>
      rintro (hne | hw)
      · exact hne hb.1
      · exact hb.2 hw
    | write | release | openFifo => cases hb
  intro p f src i total rest hp hle
  obtain ⟨hr,hfull⟩ := hs.asleep hlock hp
  have hspace := hfull hle
  rintro (hfree | hzero)
  · have hrl := hshort.read_le
    have hroom := hshort.room
    have hsm := hshort.small
    have hmod : (s'.pipe.nwrite + word - s'.pipe.nread) % word =
        s'.pipe.nwrite - s'.pipe.nread := by
      simp only [word]
      omega
    rw [Pipe.free,hmod] at hfree
    omega
  · exact hr hzero

def sleepyRun : List (Op (Fin 2)) :=
  [.write 0 1 (List.replicate 510 7),.enter 0,.wake 0,.leave 0,.write 1 1 [1,2,3],.enter 1,.wake 1,
    .park 1,.settle 1,.read 0 0 0,.enter 0,.wake 0,.leave 0,.enter 1,.wake 1,.park 1,.settle 1]

def sleepingWrite : Task → Option (List Byte)
  | .asleep .nwrite (.write _ src _ _ _) => some src
  | _ => none

theorem no_lost_wakeup_three_bytes : ∃ s' out f i total rest,
    run State.step (pipealloc (fun _ => 0) 0 1) sleepyRun = some (s',out) ∧
      s'.tasks 1 = .asleep .nwrite (.write f [1,2,3] i total rest) ∧
      ¬ (3 ≤ s'.pipe.free ∨ s'.pipe.readers = 0) := by
  obtain ⟨⟨s',out⟩,hrun,htest⟩ := Option.map_eq_some_iff.mp (show
    (run step (pipealloc (fun _ => 0) 0 1) sleepyRun).map (fun r =>
      ((stored r.2.flatten).length,r.1.lock,
        sleepingWrite (r.1.tasks 1))) = some (510,none,some [1,2,3]) by decide +kernel)
  simp only [Prod.mk.injEq] at htest
  obtain ⟨hlen,hlock,htask⟩ := htest
  unfold sleepingWrite at htask
  split at htask
  · rename_i f src i total rest hp
    cases htask
    exact ⟨s',out,f,i,total,rest,hrun,hp,
      (no_lost_wakeup _ s' _ out (.pipe _ (by decide)) hrun (by rw [hlen]; decide) hlock).2
        1 f _ i total rest hp (by decide)⟩
  · cases htask

end TinyOs.Fs
