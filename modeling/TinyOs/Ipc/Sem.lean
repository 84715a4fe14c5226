import Mathlib.Algebra.BigOperators.Group.Finset.Basic
import TinyOs.Ipc.FutexWait

namespace TinyOs.Sem

open Futex (Word)

abbrev semValueMax : Nat := 32767

structure Shared (n : Nat) where
  map : Fin n → Nat → Option Nat
  addr : Fin n → Nat
  word : Nat
  mapped : ∀ p, Futex.futexKey map p (addr p) = some word

inductive User where
  | idle
  | load (wait : Bool)
  | cas (wait : Bool) (v : Word)
  | futexWait
  | waiting
  | add
  | sub
  | futexWake
  | posting
  deriving DecidableEq

inductive Call where
  | semWait
  | semTrywait
  | semPost

def Call.entry : Call → User
  | .semWait => .load true
  | .semTrywait => .load false
  | .semPost => .add

structure State (n : Nat) where
  kernel : Futex.State n
  user : Fin n → User
  woken : Fin n → Bool

inductive Op (n : Nat) where
  | call (p : Fin n) (c : Call)
  | go (p : Fin n)
  | kernel (op : Futex.Op n)

variable {n : Nat}

def IsKernel : Futex.Op n → Prop
  | .store _ _ _ | .futexWait _ _ _ | .futexWake _ _ _ => False
  | _ => True

instance : DecidablePred (IsKernel : Futex.Op n → Prop)
  | .store _ _ _ | .futexWait _ _ _ | .futexWake _ _ _ => .isFalse id
  | .lock _ | .read _ | .handOff _ | .unlock _ | .park _ | .scan _ | .leave _ | .signal _
  | .dispatch _ => .isTrue trivial

namespace State

def setUser (s : State n) (p : Fin n) (u : User) : State n :=
  { s with user := Function.update s.user p u }

def retried (s : State n) (p : Fin n) : State n :=
  { s with woken := Function.update s.woken p false }

def enter (s : State n) (kernel : Futex.State n) : State n :=
  { s with
    kernel := kernel
    woken := fun q => s.woken q ||
      (s.kernel.proc q).state = .sleeping && (kernel.proc q).state ≠ .sleeping }

end State

section Step

variable (sh : Shared n)

def State.value (s : State n) : Word := s.kernel.mem sh.word

def futex (s : State n) (op : Futex.Op n) : Option (State n) :=
  (Futex.step sh.map s.kernel op).map fun r => s.enter r.1

def instr (s : State n) (p : Fin n) : Option (State n × Option (Fin n × Int)) :=
  let v := s.value sh
  match s.user p with
  | .idle => none
  | .load wait =>
    if v.toInt ≤ 0 then
      if wait then some ((s.retried p).setUser p .futexWait,none)
      else some (s.setUser p .idle,some (p,-1))
    else some (s.setUser p (.cas wait v),none)
  | .cas wait old =>
    if v = old then
      (futex sh s (.store p (sh.addr p) (old - 1))).map fun t =>
        ((t.retried p).setUser p .idle,some (p,0))
    else some (s.setUser p (.load wait),none)
  | .futexWait =>
    (futex sh s (.futexWait p (sh.addr p) 0)).map fun t => (t.setUser p .waiting,none)
  | .waiting => some (s.setUser p (.load true),none)
  | .add =>
    (futex sh s (.store p (sh.addr p) (v + 1))).map fun t =>
      if v.toInt ≥ semValueMax then (t.setUser p .sub,none)
      else if v = 0 then (t.setUser p .futexWake,none)
      else (t.setUser p .idle,some (p,0))
  | .sub =>
    (futex sh s (.store p (sh.addr p) (v - 1))).map fun t => (t.setUser p .idle,some (p,-1))
  | .futexWake =>
    (futex sh s (.futexWake p (sh.addr p) 1)).map fun t => (t.setUser p .posting,none)
  | .posting => some (s.setUser p .idle,some (p,0))

def step (s : State n) : Op n → Option (State n × Option (Fin n × Int))
  | .call p c =>
    if s.kernel.at? p = some .user ∧ s.user p = .idle then some (s.setUser p c.entry,none)
    else none
  | .go p => if s.kernel.at? p = some .user then instr sh s p else none
  | .kernel op => if IsKernel op then (futex sh s op).map fun t => (t,none) else none

def start (v : Word) : State n := ⟨Futex.start n fun _ => v,fun _ => .idle,fun _ => false⟩

end Step

def Posting : User → Futex.Pc → Prop
  | .add, _ | .futexWake, _ | .posting, .wakeCall _ _ | .posting, .waking _ _ => True
  | _, _ => False

structure Stranded (sh : Shared n) (s : State n) : Prop where
  positive : 0 < (s.value sh).toInt
  asleep : ∃ p, s.user p = .waiting ∧ (s.kernel.proc p).state = .sleeping
  nobody : ∀ q, ¬ Posting (s.user q) (s.kernel.proc q).pc ∧ s.woken q = false

end TinyOs.Sem
