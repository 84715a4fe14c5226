import TinyOs.Ipc.FutexWake

namespace TinyOs.Futex

open List Machine State
open Function (update_of_ne update_self)

variable {n c : Nat} {map : Fin n → Nat → Option Nat} {s s' : State n} {op : Op n} {o : Option
  (Fin n × Int)} {outs : List (Option (Fin n × Int))} {ops : List (Op n)} {p q : Fin n} {key : Nat}
  {val : Word}

def Pc.got (key : Nat) : Pc → List Byte
  | .copyin k _ got => if k = key then got else []
  | _ => []

def Untorn (map : Fin n → Nat → Option Nat) (s : State n) : Op n → Prop
  | .store p uaddr v => ∀ w ∈ futexKey map p uaddr, ∀ q, ∀ i < ((s.proc q).pc.got w).length,
      byte v i = byte (s.mem w) i
  | _ => True

instance : DecidablePred (Untorn map s)
  | .store p uaddr v => inferInstanceAs (Decidable (∀ w ∈ futexKey map p uaddr, ∀ q,
      ∀ i < ((s.proc q).pc.got w).length, byte v i = byte (s.mem w) i))
  | .futexWait _ _ _ | .futexWake _ _ _ | .lock _ | .read _ | .handOff _ | .unlock _ | .park _
  | .scan _ | .leave _ | .signal _ | .dispatch _ => .isTrue trivial

def Copied (s : State n) : Prop := ∀ p key val got, (s.proc p).pc = .copyin key val got →
    got = (List.range got.length).map (byte (s.mem key))

theorem Trans.copied {r : Proc} {got : List Byte} (h : Trans map s op p r) (hc : Copied s)
    (hr : r.pc = .copyin key val got) : got = (List.range got.length).map (byte (s.mem key)) := by
  cases h with
  | same | woken | dispatched => exact hc p key val got hr
  | called | parked => cases hr
  | own hrun hown =>
    dsimp only at hr
    have hold := hc p key val
    generalize (s.proc p).pc = pc at hown hold
    cases hown with
    | begun => cases hr; rfl
    | copied hgot =>
      cases hr
      rename_i old
      rw [length_append,length_singleton,range_succ,map_append,map_singleton,← hold old rfl]
    | _ => cases hr

theorem copied_step (hc : Copied s) (hu : Untorn map s op) (hs : step map s op = some (s',o)) :
    Copied s' := by
  intro p key val got hp
  have hcur := (step_trans hs p).copied hc hp
  rcases step_mem hs with hmem | ⟨r,uaddr,v,w,rfl,hw,hmem⟩
  · rw [hmem]
    exact hcur
  have hproc : s'.proc = s.proc := by
    simp only [step] at hs
    split at hs
    · cases hs
      rfl
    · cases hs
  rw [hmem]
  by_cases hkey : key = w
  · subst hkey
    rw [update_self,hcur,length_map,length_range]
    refine map_congr_left fun i hi => (hu key hw p i ?_).symm
    rw [← hproc,hp,Pc.got,if_pos rfl]
    exact mem_range.mp hi
  · rw [update_of_ne hkey]
    exact hcur

theorem Trans.compared {r : Proc} (h : Trans map s op p r) (hr : Pc.Compared key val r.pc) :
    r.calls = (s.proc p).calls ∧ (Pc.Compared key val (s.proc p).pc ∨
      ∃ got, (s.proc p).pc = .copyin key val got ∧ 3 ≤ got.length ∧
        ofBytes (got ++ [byte (s.mem key) got.length]) = val) := by
  cases h with
  | same | woken | dispatched => exact ⟨rfl,.inl hr⟩
  | called => simp [Pc.Compared] at hr
  | own hrun hown =>
    refine ⟨rfl,?_⟩
    dsimp only at hr
    generalize (s.proc p).pc = pc at hown
    cases hown with
    | equal hgot hval =>
      rcases hr with hr | hr | hr | hr <;> cases hr
      exact .inr ⟨_,rfl,hgot,hval⟩
    | handOff =>
      rcases hr with hr | hr | hr | hr <;> cases hr
      exact .inl (.inl rfl)
    | unlock =>
      rcases hr with hr | hr | hr | hr <;> cases hr
      exact .inl (.inr (.inl rfl))
    | _ => simp [Pc.Compared] at hr
  | parked hrun hpc =>
    refine ⟨rfl,.inl ?_⟩
    rcases hr with hr | hr | hr | hr <;> cases hr
    rw [hpc]
    exact .inr (.inr (.inl rfl))

theorem Inv.equal (h : Inv s) (hc : Copied s) {got : List Byte}
    (hp : (s.proc p).pc = .copyin key val got) (hgot : 3 ≤ got.length)
    (hval : ofBytes (got ++ [byte (s.mem key) got.length]) = val) :
    s.futexLock = some p ∧ s.mem key = val := by
  refine ⟨(h.futex p).mp (show (s.proc p).pc.holdsFutex from hp ▸ trivial),?_⟩
  have hshort := h.short p key val got hp
  have hlen : got.length = 3 := by omega
  have hall : got ++ [byte (s.mem key) got.length] = (List.range 4).map (byte (s.mem key)) := by
    rw [range_succ,map_append,map_singleton,← hlen,← hc p key val got hp]
  rw [← hval,hall,ofBytes_bytes]

theorem run_compared (hinv : Inv s) (hc : Copied s) (hgood : Always (step map) (Untorn map) s ops)
    (hrun : run (step map) s ops = some (s',outs)) (hp : Pc.Compared key val (s'.proc p).pc) :
    (s'.proc p).calls = (s.proc p).calls ∧ Pc.Compared key val (s.proc p).pc ∨
      ∃ before after t os, ops = before ++ after ∧ run (step map) s before = some (t,os) ∧
        t.futexLock = some p ∧ (t.proc p).calls = (s'.proc p).calls ∧ t.mem key = val := by
  induction ops generalizing s outs with
  | nil =>
    cases hrun
    exact .inl ⟨rfl,hp⟩
  | cons op ops ih =>
    obtain ⟨t,o,rest,ht,hrest,rfl⟩ := run_cons hrun
    obtain ⟨hop,hops⟩ := hgood
    rw [ht] at hops
    rcases ih (inv_step hinv ht) (copied_step hc hop ht) hops hrest with
      ⟨hcalls,hcmp⟩ | ⟨before,after,u,os,rfl,hu,h⟩
    · obtain ⟨hsame,hold | ⟨got,hgot,hlen,hval⟩⟩ := (step_trans ht p).compared hcmp
      · exact .inl ⟨hcalls.trans hsame,hold⟩
      · obtain ⟨hlock,hmem⟩ := hinv.equal hc hgot hlen hval
        exact .inr ⟨[],op :: ops,s,[],rfl,rfl,hlock,(hcalls.trans hsame).symm,hmem⟩
    · refine .inr ⟨op :: before,after,u,o :: os,rfl,?_,h⟩
      simp only [run,ht,Option.bind_some,hu,Option.map_some]

namespace Pc

def Waits : Pc → Prop
  | waitCall _ _ | copyin _ _ _ | matched _ _ | handing _ _ | parking _ _ | asleep _ _ => True
  | _ => False

end Pc

structure Past (p : Fin n) (c key : Nat) (s : State n) : Prop where
  le : c ≤ (s.proc p).calls
  pc : (s.proc p).calls = c → (s.proc p).pc.Waits → ∃ val, Pc.Compared key val (s.proc p).pc

structure Gone (p : Fin n) (c : Nat) (s : State n) : Prop where
  le : c ≤ (s.proc p).calls
  awake : (s.proc p).calls = c → (s.proc p).state ≠ .sleeping
  pc : (s.proc p).calls = c → (s.proc p).pc.Waits → ∃ key val, (s.proc p).pc = .asleep key val

theorem past_step (h : Past p c key s) (hs : step map s op = some (s',o)) : Past p c key s' := by
  have htrans := step_trans hs p
  obtain ⟨hle,hpc⟩ := h
  refine ⟨?_,?_⟩
  · generalize s'.proc p = r at htrans
    cases htrans with
    | called => exact Nat.le_succ_of_le hle
    | _ => exact hle
  generalize s'.proc p = r at htrans
  cases htrans with
  | same | woken | dispatched => exact hpc
  | called =>
    intro hcalls
    dsimp only at hcalls
    omega
  | own hrun hown =>
    dsimp only
    generalize (s.proc p).pc = pc at hown hpc
    cases hown with
    | equal | begun | copied =>
      intro hc _
      obtain ⟨v,hv⟩ := hpc hc trivial
      simp [Pc.Compared] at hv
    | handOff | unlock =>
      intro hc _
      obtain ⟨v,hv⟩ := hpc hc trivial
      refine ⟨v,?_⟩
      simpa [Pc.Compared] using hv
    | _ => exact fun _ hw => hw.elim
  | parked hrun hp =>
    intro hc _
    rw [hp] at hpc
    obtain ⟨v,hv⟩ := hpc hc trivial
    refine ⟨v,?_⟩
    simpa [Pc.Compared] using hv

theorem gone_step (h : Gone p c s) (hs : step map s op = some (s',o)) : Gone p c s' := by
  have htrans := step_trans hs p
  obtain ⟨hle,hawake,hpc⟩ := h
  generalize hr : s'.proc p = r at htrans
  suffices c ≤ r.calls ∧ (r.calls = c → r.state ≠ .sleeping) ∧
      (r.calls = c → r.pc.Waits → ∃ key val, r.pc = .asleep key val) by
    obtain ⟨h1,h2,h3⟩ := hr ▸ this
    exact ⟨h1,h2,h3⟩
  cases htrans with
  | same => exact ⟨hle,hawake,hpc⟩
  | woken | dispatched => exact ⟨hle,fun _ => nofun,hpc⟩
  | called =>
    refine ⟨Nat.le_succ_of_le hle,fun hc => ?_,fun hc => ?_⟩ <;>
    · dsimp only at hc
      omega
  | own hrun hown =>
    refine ⟨hle,hawake,fun hc hw => ?_⟩
    dsimp only at hc hw ⊢
    generalize (s.proc p).pc = pc at hown hpc
    cases hown with
    | wakeCall | refused | wakeRefused | wakeBegun | resumed | differs | scanned
    | left => exact hw.elim
    | _ =>
      obtain ⟨k,v,hkv⟩ := hpc hc trivial
      cases hkv
  | parked hrun hp =>
    refine ⟨hle,fun hc => ?_,fun _ _ => ⟨_,_,rfl⟩⟩
    rw [hp] at hpc
    obtain ⟨k,v,hkv⟩ := hpc hc trivial
    cases hkv

theorem scan_gone {nwake : Int} (hinv : Inv s) (h : Past p c key s)
    (hq : (s.proc q).pc = .waking key nwake) (hall : ((s.sleepers key).card : Int) ≤ nwake)
    (hs : step map s (.scan q) = some (s',o)) : Gone p c s' := by
  simp only [step] at hs
  split at hs
  · rename_i key' nwake' hlock hat
    obtain ⟨hrun,hpc⟩ := at?_eq_some hat
    rw [hq] at hpc
    cases hpc
    have hentry := wakeLoop_entry key nwake s.proc p
    have hawake := wakeLoop_all hall p
    have hsamepc := wakeLoop_pc key nwake s.proc p
    obtain ⟨hle,hpast⟩ := h
    cases hs
    by_cases hpq : p = q
    · subst hpq
      have hself : (wakeLoop key nwake s.proc).1 p = s.proc p := by
        rcases hentry with h | ⟨h,-⟩
        · exact h
        · simp [Proc.asleepOn,hrun] at h
      refine ⟨?_,fun _ => ?_,fun _ => ?_⟩
      · simpa [setPc,hself] using hle
      · simp [setPc,hself,hrun]
      · simp [setPc,Pc.Waits]
    have hcalls : ((wakeLoop key nwake s.proc).1 p).calls = (s.proc p).calls := by
      rcases hentry with h | ⟨-,h⟩
      · rw [h]
      · rw [h,Proc.wake]
    have hcmp : (s.proc p).calls = c → (s.proc p).pc.Waits →
        ∃ val, (s.proc p).pc = .asleep key val := by
      intro hc hw
      obtain ⟨v,hm | hh | hk | ha⟩ := hpast hc hw
      · exact absurd hm (hinv.not_inside hq hlock hpq (.inl trivial))
      · exact absurd hh (hinv.not_inside hq hlock hpq (.inr trivial))
      · exact absurd hk (hinv.not_inside hq hlock hpq (.inr trivial))
      · exact ⟨v,ha⟩
    simp only [setPc]
    constructor
    · dsimp only
      rw [update_of_ne hpq,hcalls]
      exact hle
    · dsimp only
      rw [update_of_ne hpq,hcalls]
      intro hc hsleep
      rcases hentry with h | ⟨-,h⟩
      · rw [h] at hsleep hawake
        obtain ⟨k,v,hk,hchan⟩ := hinv.asleep p hsleep
        obtain ⟨v',hv'⟩ := hcmp hc (by rw [hk]; trivial)
        rw [hk] at hv'
        cases hv'
        simp [Proc.asleepOn,hsleep,hchan] at hawake
      · rw [h] at hsleep
        cases hsleep
    · dsimp only
      rw [update_of_ne hpq,hcalls,hsamepc]
      intro hc hw
      obtain ⟨v,hv⟩ := hcmp hc hw
      exact ⟨key,v,hv⟩
  · cases hs

theorem futex_no_lost_wakeup (map : Fin n → Nat → Option Nat) (mem : Nat → Word)
    (ops : List (Op n)) (s : State n) (outs : List (Option (Fin n × Int)))
    (hgood : Always (step map) (Untorn map) (start n mem) ops)
    (hrun : run (step map) (start n mem) ops = some (s,outs)) :
    (∀ p key val, (s.proc p).state = .sleeping → (s.proc p).pc = .asleep key val →
      ∃ before after t os, ops = before ++ after ∧
        run (step map) (start n mem) before = some (t,os) ∧ t.futexLock = some p ∧
        (t.proc p).calls = (s.proc p).calls ∧ t.mem key = val) ∧
    (∀ before r uaddr v middle q after s₁ s₂ os₁ os₂ p key val nwake,
      ops = before ++ .store r uaddr v :: (middle ++ .scan q :: after) →
      run (step map) (start n mem) before = some (s₁,os₁) →
      run (step map) (start n mem) (before ++ .store r uaddr v :: middle) = some (s₂,os₂) →
      futexKey map r uaddr = some key → v ≠ val → Pc.Compared key val (s₁.proc p).pc →
      (s₂.proc q).pc = .waking key nwake → ((s₂.sleepers key).card : Int) ≤ nwake →
      ¬ ((s.proc p).calls = (s₁.proc p).calls ∧ (s.proc p).state = .sleeping)) := by
  refine ⟨fun p key val _ hp => ?_,?_⟩
  · have hcopied : Copied (start n mem) := nofun
    rcases run_compared (inv_start mem) hcopied hgood hrun (.inr (.inr (.inr hp))) with
      ⟨-,h⟩ | h
    · rcases h with h | h | h | h <;> cases h
    · exact h
  intro before r uaddr v middle q after s₁ s₂ os₁ os₂ p key val nwake hops h₁ h₂ _ _ hcmp hq hall
  rw [hops,← cons_append,← append_assoc] at hrun
  obtain ⟨t,ts,us,ht,hu⟩ := run_split hrun
  rw [h₂] at ht
  cases ht
  obtain ⟨s₃,o,rest,h₃,hafter,-⟩ := run_cons hu
  obtain ⟨t,ts,us,ht,hmiddle⟩ := run_split h₂
  rw [h₁] at ht
  cases ht
  have hinv : Inv s₂ := run_preserves (fun _ _ _ _ => inv_step) (inv_start mem) h₂
  have hpast : Past p (s₁.proc p).calls key s₂ := run_preserves (fun _ _ _ _ => past_step)
      ⟨le_refl _,fun _ _ => ⟨val,hcmp⟩⟩ hmiddle
  have hgone : Gone p (s₁.proc p).calls s :=
    run_preserves (fun _ _ _ _ => gone_step) (scan_gone hinv hpast hq hall h₃) hafter
  exact fun ⟨hc,hsleep⟩ => hgone.awake hc hsleep

def sleepRun : List (Op 2) :=
  [.futexWait 0 0 0,.lock 0,.read 0,.read 0,.read 0,.read 0,.handOff 0,.unlock 0,.park 0]

theorem futex_no_lost_wakeup_sleeper : ∃ s outs,
    run (step fun _ => some) (start 2 fun _ => 0) sleepRun = some (s,outs) ∧
      ∃ before after t os, sleepRun = before ++ after ∧
        run (step fun _ => some) (start 2 fun _ => 0) before = some (t,os) ∧
        t.futexLock = some 0 ∧ (t.proc 0).calls = (s.proc 0).calls ∧ t.mem 0 = 0 := by
  have hgood : Always (step fun _ => some) (Untorn fun _ => some) (start 2 fun _ => 0) sleepRun := by
    decide +kernel
  exact run_shows (fun s => (s.proc 0).state = .sleeping ∧ (s.proc 0).pc = .asleep 0 0)
    (by decide +kernel)
    fun s outs hs hp => (futex_no_lost_wakeup _ _ _ s outs hgood hs).1 0 0 0 hp.1 hp.2

def tornRun : List (Op 2) :=
  [.futexWait 0 0 0x100,.lock 0,.read 0,.store 1 0 0x101,.read 0,.read 0,.read 0,.handOff 0,
    .unlock 0,.park 0]

theorem futex_sleeps_on_torn_word : ∃ s outs,
    run (step fun _ => some) (start 2 fun _ => 0) tornRun = some (s,outs) ∧
      (s.proc 0).state = .sleeping ∧ (s.proc 0).pc = .asleep 0 0x100 ∧
      ∀ before after t os, tornRun = before ++ after →
        run (step fun _ => some) (start 2 fun _ => 0) before = some (t,os) → t.mem 0 ≠ 0x100 := by
  have hall : ∀ k < 11, (run (step fun _ => some) (start 2 fun _ => 0) (tornRun.take k)).all
      (fun r => r.1.mem 0 ≠ 0x100) = true := by
    decide +kernel
  refine run_shows (fun s => (s.proc 0).state = .sleeping ∧ (s.proc 0).pc = .asleep 0 0x100)
    (by decide +kernel) fun s outs hs hp => ⟨hp.1,hp.2,fun before after t os hops ht => ?_⟩
  have hlen : before.length < 11 := by
    have := congrArg List.length hops
    rw [length_append] at this
    change 10 = _ at this
    omega
  have htake := hall before.length hlen
  rw [hops,take_left,ht] at htake
  simpa using htake

end TinyOs.Futex
