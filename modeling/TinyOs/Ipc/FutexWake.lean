import TinyOs.Ipc.Futex

namespace TinyOs.Futex

open Option List State
open Sched (ProcState)
open Locks (Held)

variable {n : Nat} {map : Fin n → Nat → Option Nat} {s s' : State n} {op : Op n}
  {o : Option (Fin n × Int)} {p q : Fin n} {key : Nat} {val : Word}

section WakeLoop

variable {nwake : Int} {proc : Fin n → Proc}

theorem wakeLoop_entry (key : Nat) (nwake : Int) (proc : Fin n → Proc) (p : Fin n) :
    (wakeLoop key nwake proc).1 p = proc p ∨
      (proc p).asleepOn key = true ∧ (wakeLoop key nwake proc).1 p = (proc p).wake :=
  Scan.upTo_entry (nodup_finRange n) p

theorem wakeLoop_pc (key : Nat) (nwake : Int) (proc : Fin n → Proc) (p : Fin n) :
    ((wakeLoop key nwake proc).1 p).pc = (proc p).pc := by
  rcases wakeLoop_entry key nwake proc p with h | ⟨-,h⟩
  · rw [h]
  · rw [h,Proc.wake]

theorem State.sleepers_card (s : State n) (key : Nat) : (s.sleepers key).card =
    ((List.finRange n).filter fun p => (s.proc p).asleepOn key).length := by
  simp only [sleepers,Finset.card_def,Finset.filter_val,Fin.univ_def,Multiset.filter_coe,
    Multiset.coe_card,Bool.decide_eq_true]

theorem wakeLoop_all (h : ((s.sleepers key).card : Int) ≤ nwake) (p : Fin n) :
    ((wakeLoop key nwake s.proc).1 p).asleepOn key = false := by
  refine Scan.upTo_all (fun r => ?_) (nodup_finRange n) ?_ p (mem_finRange p)
  · rfl
  · rw [← s.sleepers_card]
    change ((0 : Nat) : Int) + _ ≤ _
    omega

end WakeLoop

inductive Own (map : Fin n → Nat → Option Nat) (s : State n) (op : Op n) (p : Fin n) :
    Pc → Pc → Prop
  | wakeCall {uaddr : Nat} {nwake : Int} (hop : op = .futexWake p uaddr nwake) :
      Own map s op p .user (.wakeCall uaddr nwake)
  | refused (uaddr : Nat) (val : Word) : Own map s op p (.waitCall uaddr val) (.leaving (-1))
  | begun {uaddr key : Nat} (val : Word) (hlock : s.futexLock = none)
      (hkey : futexKey map p uaddr = some key) :
      Own map s op p (.waitCall uaddr val) (.copyin key val [])
  | wakeRefused {uaddr : Nat} (nwake : Int) (hkey : futexKey map p uaddr = none) :
      Own map s op p (.wakeCall uaddr nwake) (.leaving (-1))
  | wakeBegun {uaddr key : Nat} (nwake : Int) (hkey : futexKey map p uaddr = some key) :
      Own map s op p (.wakeCall uaddr nwake) (.waking key nwake)
  | resumed (key : Nat) (val : Word) : Own map s op p (.asleep key val) (.leaving 0)
  | copied {key : Nat} {val : Word} {got : List Byte} (hgot : got.length + 1 < 4) :
      Own map s op p (.copyin key val got) (.copyin key val (got ++ [byte (s.mem key) got.length]))
  | equal {key : Nat} {val : Word} {got : List Byte} (hgot : 3 ≤ got.length)
      (hval : ofBytes (got ++ [byte (s.mem key) got.length]) = val) :
      Own map s op p (.copyin key val got) (.matched key val)
  | differs (key : Nat) (val : Word) (got : List Byte) :
      Own map s op p (.copyin key val got) (.leaving 0)
  | handOff {key : Nat} {val : Word} (hlock : s.procLock = none) :
      Own map s op p (.matched key val) (.handing key val)
  | unlock (key : Nat) (val : Word) : Own map s op p (.handing key val) (.parking key val)
  | scanned (key : Nat) (nwake ret : Int) (hop : op = .scan p) :
      Own map s op p (.waking key nwake) (.leaving ret)
  | left (ret : Int) : Own map s op p (.leaving ret) .user

inductive Trans (map : Fin n → Nat → Option Nat) (s : State n) (op : Op n) (p : Fin n) :
    Proc → Prop
  | same : Trans map s op p (s.proc p)
  | woken (h : (s.proc p).state = .sleeping) : Trans map s op p (s.proc p).wake
  | dispatched (h : (s.proc p).state = .runnable) :
      Trans map s op p { s.proc p with state := .running }
  | called {uaddr : Nat} {val : Word} (hop : op = .futexWait p uaddr val)
      (h : (s.proc p).pc = .user) :
      Trans map s op p { s.proc p with
        pc := .waitCall uaddr val
        calls := (s.proc p).calls + 1 }
  | own {pc : Pc} (hrun : (s.proc p).state = .running) (h : Own map s op p (s.proc p).pc pc) :
      Trans map s op p { s.proc p with pc := pc }
  | parked {key : Nat} {val : Word} (hrun : (s.proc p).state = .running)
      (h : (s.proc p).pc = .parking key val) :
      Trans map s op p { s.proc p with
        state := .sleeping
        chan := some key
        pc := .asleep key val }

theorem State.at?_eq_some {pc : Pc} (h : s.at? p = some pc) :
    (s.proc p).state = .running ∧ (s.proc p).pc = pc := by
  obtain ⟨hrun,h⟩ := ite_none_right_eq_some.mp h
  exact ⟨hrun,Option.some.inj h⟩

theorem Trans.update {r : Proc} {proc : Fin n → Proc} (hr : Trans map s op p r)
    (hproc : ∀ q, q ≠ p → Trans map s op q (proc q)) (q : Fin n) :
    Trans map s op q (Function.update proc p r q) := by
  by_cases hq : q = p
  · subst hq
    rw [Function.update_self]
    exact hr
  · rw [Function.update_of_ne hq]
    exact hproc q hq

theorem Trans.setPc {pc pc' : Pc} (hat : s.at? p = some pc) (hown : Own map s op p pc pc')
    (q : Fin n) : Trans map s op q ((s.setPc p pc').proc q) := by
  obtain ⟨hrun,hpc⟩ := at?_eq_some hat
  subst hpc
  exact .update (.own hrun hown) (fun q _ => .same) q

theorem step_trans (h : step map s op = some (s',o)) (q : Fin n) :
    Trans map s op q (s'.proc q) := by
  cases op with
  | store p uaddr v =>
    simp only [step] at h
    split at h
    · cases h
      exact .same
    · cases h
  | futexWait p uaddr val =>
    obtain ⟨hat,h⟩ := ite_none_right_eq_some.mp h
    cases h
    exact .update (.called rfl (at?_eq_some hat).2) (fun q _ => .same) q
  | futexWake p uaddr nwake =>
    obtain ⟨hat,h⟩ := ite_none_right_eq_some.mp h
    split at h
    · cases h
      exact .same
    · cases h
      exact .setPc hat (.wakeCall rfl) q
  | lock p =>
    simp only [step] at h
    split at h
    · rename_i uaddr val hlock hat
      cases h
      refine .setPc hat ?_ q
      split
      · exact .refused uaddr val
      · rename_i key hkey
        exact .begun val hlock hkey
    · rename_i uaddr nwake hlock hat
      cases h
      refine .setPc hat ?_ q
      split
      · rename_i hkey
        exact .wakeRefused nwake hkey
      · rename_i key hkey
        exact .wakeBegun nwake hkey
    · rename_i key val hlock hat
      cases h
      exact .setPc hat (.resumed key val) q
    · cases h
  | read p =>
    simp only [step] at h
    split at h
    · rename_i key val got hat
      cases h
      refine .setPc hat ?_ q
      have hlen : (got ++ [byte (s.mem key) got.length]).length = got.length + 1 :=
        length_append
      rw [hlen]
      split
      · rename_i hgot
        exact .copied hgot
      rename_i hgot
      split
      · rename_i hval
        exact .equal (by omega) hval
      · exact .differs key val got
    · cases h
  | handOff p | unlock p | leave p =>
    simp only [step] at h
    split at h
    · rename_i hat
      cases h
      refine .setPc hat ?_ q
      constructor <;> assumption
    · cases h
  | park p =>
    simp only [step] at h
    split at h
    · rename_i key val hat
      obtain ⟨hrun,hpc⟩ := at?_eq_some hat
      cases h
      exact .update (.parked hrun hpc) (fun q _ => .same) q
    · cases h
  | scan p =>
    simp only [step] at h
    split at h
    · rename_i key nwake hlock hat
      obtain ⟨hrun,hpc⟩ := at?_eq_some hat
      have hentry := wakeLoop_entry key nwake s.proc
      cases h
      refine .update ?_ (fun q _ => ?_) q
      · have hself : (wakeLoop key nwake s.proc).1 p = s.proc p := by
          rcases hentry p with h | ⟨h,-⟩
          · exact h
          · simp [Proc.asleepOn,hrun] at h
        simp only [hself]
        exact .own hrun (hpc ▸ .scanned key nwake _ rfl)
      dsimp only
      rcases hentry q with h | ⟨h,hw⟩
      · rw [h]
        exact .same
      rw [hw]
      simp only [Proc.asleepOn,Bool.and_eq_true,decide_eq_true_eq] at h
      exact .woken h.1
    · cases h
  | signal p =>
    obtain ⟨hs,h⟩ := ite_none_right_eq_some.mp h
    cases h
    exact .update (.woken hs.2) (fun q _ => .same) q
  | dispatch p =>
    obtain ⟨hs,h⟩ := ite_none_right_eq_some.mp h
    cases h
    exact .update (.dispatched hs.2) (fun q _ => .same) q

theorem step_mem (h : step map s op = some (s',o)) :
    s'.mem = s.mem ∨ ∃ p uaddr v w, op = .store p uaddr v ∧ futexKey map p uaddr = some w ∧
      s'.mem = Function.update s.mem w v := by
  cases op with
  | store p uaddr v =>
    simp only [step] at h
    split at h
    · rename_i w hat hkey
      cases h
      exact .inr ⟨p,uaddr,v,w,rfl,hkey,rfl⟩
    · cases h
  | _ =>
    left
    simp only [step] at h
    repeat' split at h
    all_goals first | cases h; rfl | cases h

structure Inv (s : State n) : Prop where
  futex : Held (fun r : Proc => r.pc.holdsFutex) s.futexLock s.proc
  proc : Held (fun r : Proc => r.pc.holdsProc) s.procLock s.proc
  asleep : ∀ p, (s.proc p).state = .sleeping →
    ∃ key val, (s.proc p).pc = .asleep key val ∧ (s.proc p).chan = some key
  short : ∀ p key val got, (s.proc p).pc = .copyin key val got → got.length < 4

theorem inv_start (mem : Nat → Word) : Inv (start n mem) :=
  ⟨fun _ => ⟨nofun,nofun⟩,fun _ => ⟨nofun,nofun⟩,nofun,nofun⟩

theorem Trans.asleep {r : Proc} (h : Trans map s op p r) (hinv : Inv s) (hr : r.state = .sleeping) :
    ∃ key val, r.pc = .asleep key val ∧ r.chan = some key := by
  cases h with
  | same => exact hinv.asleep p hr
  | woken | dispatched => cases hr
  | called hop hpc =>
    obtain ⟨key,v,hasleep,-⟩ := hinv.asleep p hr
    rw [hpc] at hasleep
    cases hasleep
  | own hrun => cases hrun.symm.trans hr
  | parked => exact ⟨_,_,rfl,rfl⟩

theorem Trans.short {r : Proc} {got : List Byte} (h : Trans map s op p r) (hinv : Inv s)
    (hr : r.pc = .copyin key val got) : got.length < 4 := by
  cases h with
  | same | woken | dispatched => exact hinv.short p key val got hr
  | called | parked => cases hr
  | own hrun hown =>
    dsimp only at hr
    generalize (s.proc p).pc = pc at hown
    cases hown with
    | begun => cases hr; exact Nat.zero_lt_succ 3
    | copied hgot => cases hr; simpa using hgot
    | _ => cases hr

section Locked

variable {pc : Pc}

theorem Inv.not_inside {nwake : Int} (h : Inv s) (hq : (s.proc q).pc = .waking key nwake)
    (hlock : s.procLock = none) (hpq : p ≠ q) (hpc : pc.holdsFutex ∨ pc.holdsProc) :
    (s.proc p).pc ≠ pc := by
  rintro rfl
  rcases hpc with hf | hp
  · exact hpq (h.futex.unique hf (hq ▸ trivial))
  · cases hlock.symm.trans ((h.proc p).mp hp)

theorem Inv.wakeLoop (h : Inv s) (key : Nat) (nwake : Int) :
    Held (fun r : Proc => r.pc.holdsFutex) s.futexLock (wakeLoop key nwake s.proc).1 ∧
      Held (fun r : Proc => r.pc.holdsProc) s.procLock (wakeLoop key nwake s.proc).1 := by
  have hpc := wakeLoop_pc key nwake s.proc
  exact ⟨h.futex.congr fun q => by rw [hpc q],h.proc.congr fun q => by rw [hpc q]⟩

end Locked

theorem step_locks (h : Inv s) (hs : step map s op = some (s',o)) :
    Held (fun r : Proc => r.pc.holdsFutex) s'.futexLock s'.proc ∧
      Held (fun r : Proc => r.pc.holdsProc) s'.procLock s'.proc := by
  cases op with
  | store p uaddr v =>
    simp only [step] at hs
    split at hs
    · cases hs
      exact ⟨h.futex,h.proc⟩
    · cases hs
  | futexWait p uaddr val =>
    obtain ⟨hat,hs⟩ := ite_none_right_eq_some.mp hs
    have hpc := (at?_eq_some hat).2
    cases hs
    exact ⟨h.futex.keep (hpc ▸ Iff.rfl),h.proc.keep (hpc ▸ Iff.rfl)⟩
  | futexWake p uaddr nwake =>
    obtain ⟨hat,hs⟩ := ite_none_right_eq_some.mp hs
    have hpc := (at?_eq_some hat).2
    split at hs
    · cases hs
      exact ⟨h.futex,h.proc⟩
    · cases hs
      exact ⟨h.futex.keep (hpc ▸ Iff.rfl),h.proc.keep (hpc ▸ Iff.rfl)⟩
  | lock p =>
    simp only [step] at hs
    split at hs
    · rename_i uaddr val hlock hat
      have hpc := (at?_eq_some hat).2
      cases hs
      cases futexKey map p uaddr <;>
        exact ⟨Held.acquire (hlock ▸ h.futex) trivial,h.proc.keep (hpc ▸ Iff.rfl)⟩
    · rename_i uaddr nwake hlock hat
      have hpc := (at?_eq_some hat).2
      cases hs
      cases futexKey map p uaddr <;>
        exact ⟨Held.acquire (hlock ▸ h.futex) trivial,h.proc.keep (hpc ▸ Iff.rfl)⟩
    · rename_i key val hlock hat
      have hpc := (at?_eq_some hat).2
      cases hs
      exact ⟨Held.acquire (hlock ▸ h.futex) trivial,h.proc.keep (hpc ▸ Iff.rfl)⟩
    · cases hs
  | read p =>
    simp only [step] at hs
    split at hs
    · rename_i key val got hat
      have hpc := (at?_eq_some hat).2
      cases hs
      refine ⟨h.futex.keep (hpc ▸ ?_),h.proc.keep (hpc ▸ ?_)⟩
      all_goals
        split
        · exact Iff.rfl
        · split <;> exact Iff.rfl
    · cases hs
  | handOff p =>
    simp only [step] at hs
    split at hs
    · rename_i key val hlock hat
      have hpc := (at?_eq_some hat).2
      cases hs
      exact ⟨h.futex.keep (hpc ▸ Iff.rfl),Held.acquire (hlock ▸ h.proc) trivial⟩
    · cases hs
  | unlock p | leave p =>
    simp only [step] at hs
    split at hs
    · rename_i hat
      have hpc := (at?_eq_some hat).2
      cases hs
      exact ⟨h.futex.release (hpc ▸ trivial) id,h.proc.keep (hpc ▸ Iff.rfl)⟩
    · cases hs
  | park p =>
    simp only [step] at hs
    split at hs
    · rename_i key val hat
      have hpc := (at?_eq_some hat).2
      cases hs
      exact ⟨h.futex.keep (hpc ▸ Iff.rfl),h.proc.release (hpc ▸ trivial) id⟩
    · cases hs
  | scan p =>
    simp only [step] at hs
    split at hs
    · rename_i key nwake hlock hat
      have hpc := (at?_eq_some hat).2
      obtain ⟨hf,hp⟩ := h.wakeLoop key nwake
      have hself := wakeLoop_pc key nwake s.proc p
      rw [hpc] at hself
      cases hs
      exact ⟨hf.keep (hself ▸ Iff.rfl),hp.keep (hself ▸ Iff.rfl)⟩
    · cases hs
  | signal p | dispatch p =>
    simp only [step] at hs
    split at hs
    · cases hs
      exact ⟨h.futex.keep Iff.rfl,h.proc.keep Iff.rfl⟩
    · cases hs

theorem inv_step (h : Inv s) (hs : step map s op = some (s',o)) : Inv s' := by
  obtain ⟨hf,hp⟩ := step_locks h hs
  exact ⟨hf,hp,fun p => (step_trans hs p).asleep h,fun p key val got => (step_trans hs p).short h⟩

end TinyOs.Futex
