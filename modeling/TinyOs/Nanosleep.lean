import Mathlib.Logic.Function.Iterate
import TinyOs.Memlayout

namespace TinyOs.Nanosleep

open Function (iterate_succ_apply' iterate_mul)

def timerHz : Nat := 100

def nsecPerSec : Nat := 1000000000

def nsecPerTick : Nat := nsecPerSec / timerHz

structure Timespec where
  sec : Nat
  nsec : Nat

def timespecToTicks (t : Timespec) : Nat :=
  if t.sec = 0 ∧ t.nsec = 0 then 0
  else
    let ticks := t.sec * timerHz % word
    let ticks := (ticks + (t.nsec + nsecPerTick - 1) / nsecPerTick) % word
    let ticks := if ticks = 0 then 1 else ticks
    if 0xffffffff < ticks then 0xffffffff else ticks

structure State where
  ticks : Nat
  wakeupTick : Nat
  sleeping : Bool

def sleepDeadline (now deadline : Nat) : State :=
  if deadline ≤ now then ⟨now,0,false⟩ else ⟨now,deadline,true⟩

def sysNanosleep (now : Nat) (t : Timespec) : State :=
  let nticks := timespecToTicks t
  if t.nsec < nsecPerSec ∧ 0 < nticks then sleepDeadline now ((now + nticks) % word)
  else ⟨now,0,false⟩

def timerHandler (s : State) : State :=
  let now := (s.ticks + 1) % word
  if s.sleeping ∧ s.wakeupTick ≠ 0 ∧ s.wakeupTick ≤ now then ⟨now,0,false⟩
  else { s with ticks := now }

def period (cpus : Nat) : State → State := timerHandler^[cpus]

def Timespec.periods (t : Timespec) : Nat :=
  (t.sec * nsecPerSec + t.nsec + nsecPerTick - 1) / nsecPerTick

variable {now d n j cpus : Nat} {t : Timespec} {s : State}

theorem awake (h : s.sleeping = false) (j : Nat) : (timerHandler^[j] s).sleeping = false := by
  induction j with
  | zero => exact h
  | succ j ih =>
    rw [iterate_succ_apply',timerHandler]
    simp [ih]

theorem asleep (hd : now + n < word) (hj : j < n) :
    timerHandler^[j] ⟨now,now + n,true⟩ = ⟨now + j,now + n,true⟩ := by
  induction j with
  | zero => rfl
  | succ j ih =>
    rw [iterate_succ_apply',ih (by omega),timerHandler]
    simp only [Nat.mod_eq_of_lt (show now + j + 1 < word by omega)]
    rw [if_neg (by omega)]
    rfl

theorem sleeping_iff (hd : now + n < word) (hn : 0 < n) (j : Nat) :
    (timerHandler^[j] ⟨now,now + n,true⟩).sleeping = true ↔ j < n := by
  by_cases hj : j < n
  · rw [asleep hd hj]
    exact ⟨fun _ => hj,fun _ => rfl⟩
  have hwoken : (timerHandler^[n] ⟨now,now + n,true⟩).sleeping = false := by
    obtain ⟨m,rfl⟩ := Nat.exists_eq_add_one.mpr hn
    rw [iterate_succ_apply',asleep hd (Nat.lt_succ_self m),timerHandler]
    simp only [Nat.mod_eq_of_lt (show now + m + 1 < word by omega)]
    rw [if_pos ⟨trivial,by omega,by omega⟩]
  obtain ⟨i,rfl⟩ := Nat.exists_eq_add_of_le (Nat.le_of_not_lt hj)
  rw [add_comm,Function.iterate_add_apply,awake hwoken]
  simp

theorem timespecToTicks_eq (t : Timespec) : timespecToTicks t = if t.periods = 0 then 0
      else if t.periods % word = 0 then 1 else t.periods % word := by
  have hper : t.periods = t.sec * 100 + (t.nsec + 10000000 - 1) / 10000000 := by
    simp only [Timespec.periods,nsecPerTick,nsecPerSec,timerHz]
    omega
  have hlt := Nat.mod_lt t.periods (show 0 < word by decide)
  simp only [timespecToTicks,timerHz,nsecPerTick,nsecPerSec,Nat.reduceDiv,Nat.mod_add_mod,← hper]
  split
  · rw [if_pos (by omega)]
  rw [if_neg (by omega : t.periods ≠ 0),if_neg]
  have hword : word = 0xffffffff + 1 := rfl
  split <;> omega

theorem period_iterate (k : Nat) : (period cpus)^[k] s = timerHandler^[cpus * k] s := by
  rw [period,iterate_mul]

theorem nanosleep_long_enough_iff (hnsec : t.nsec < nsecPerSec) (hnow : now < word)
    (hcpus : 0 < cpus) :
    ((∀ k < min t.periods (word - 1), ((period cpus)^[k] (sysNanosleep now t)).sleeping = true) ∧
        ∃ k, ((period cpus)^[k] (sysNanosleep now t)).sleeping = false) ↔
      t.periods = 0 ∨ now + t.periods % word < word ∧ (t.periods = 1 ∨
        cpus = 1 ∧ (t.periods < word ∨ t.periods % word = word - 1)) := by
  have hticks := timespecToTicks_eq t
  have hword : word = 4294967296 := rfl
  simp only [period_iterate,sysNanosleep,hnsec,true_and]
  generalize timespecToTicks t = n at hticks ⊢
  by_cases hzero : t.periods = 0
  · rw [if_pos hzero] at hticks
    rw [hticks,hzero]
    exact ⟨fun _ => .inl rfl,fun _ => ⟨fun k hk => by omega,0,rfl⟩⟩
  rw [if_neg hzero,hword] at hticks
  have hn : 0 < n ∧ (t.periods % 4294967296 = n ∨ t.periods % 4294967296 = 0 ∧ n = 1) := by
    split at hticks <;> omega
  rw [if_pos hn.1,sleepDeadline,or_iff_right hzero]
  by_cases hlt : now + n < word
  · rw [Nat.mod_eq_of_lt hlt,if_neg (by omega)]
    simp only [sleeping_iff hlt hn.1,← Bool.not_eq_true]
    rw [hword] at hlt ⊢
    constructor
    · rintro ⟨hall,-⟩
      have hlast := hall (min t.periods (4294967296 - 1) - 1) (by omega)
      have hone : cpus = 1 ∨ t.periods = 1 := by
        by_contra hno
        have := Nat.mul_le_mul_right (min t.periods (4294967296 - 1) - 1) (show 2 ≤ cpus by omega)
        omega
      rcases hone with rfl | hone <;> omega
    · rintro ⟨-,hone | ⟨rfl,hper⟩⟩
      · refine ⟨fun k hk => ?_,n,not_lt.mpr (Nat.le_mul_of_pos_left n hcpus)⟩
        rw [show k = 0 by omega]
        exact hn.1
      · exact ⟨fun k hk => by omega,n,by omega⟩
  · rw [hword] at hlt hnow ⊢
    rw [if_pos (by omega)]
    refine ⟨fun h => ?_,fun h => by omega⟩
    have := h.1 0 (by omega)
    cases this

theorem nanosleep_long_enough_second :
    (∀ k < min 150 (word - 1), ((period 1)^[k] (sysNanosleep 7 ⟨1,500000000⟩)).sleeping = true) ∧
      ∃ k, ((period 1)^[k] (sysNanosleep 7 ⟨1,500000000⟩)).sleeping = false :=
  (nanosleep_long_enough_iff (t := ⟨1,500000000⟩) (by decide) (by decide) (by decide)).mpr
    (by decide +kernel)

theorem nanosleep_wakes_early : ((period 2)^[75] (sysNanosleep 7 ⟨1,500000000⟩)).sleeping = false ∧
      (sysNanosleep 0xffffffff ⟨1,500000000⟩).sleeping = false ∧
      (Timespec.mk 1 500000000).periods = 150 := by
  decide +kernel

end TinyOs.Nanosleep
