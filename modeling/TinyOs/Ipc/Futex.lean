import Mathlib.Data.Fintype.Card
import TinyOs.Library.Locks
import TinyOs.Library.Scan
import TinyOs.Sched.Machine

namespace TinyOs.Futex

open List

open Function (update)
open Sched (ProcState)

abbrev Word := BitVec 32

abbrev Byte := BitVec 8

def byte (w : Word) (i : Nat) : Byte := w.extractLsb' (8 * i) 8

def ofBytes (bs : List Byte) : Word := BitVec.ofNat 32 (bs.foldr (fun b n => b.toNat + 256 * n) 0)

theorem ofBytes_bytes (w : Word) : ofBytes ((List.range 4).map (byte w)) = w := by
  have hw := w.isLt
  apply BitVec.eq_of_toNat_eq
  simp only [ofBytes,byte,range,range.loop,map_cons,map_nil,foldr_cons,
    foldr_nil,BitVec.toNat_ofNat,BitVec.extractLsb'_toNat,Nat.shiftRight_eq_div_pow]
  omega

inductive Pc where
  | user
  | waitCall (uaddr : Nat) (val : Word)
  | copyin (key : Nat) (val : Word) (got : List Byte)
  | matched (key : Nat) (val : Word)
  | handing (key : Nat) (val : Word)
  | parking (key : Nat) (val : Word)
  | asleep (key : Nat) (val : Word)
  | wakeCall (uaddr : Nat) (nwake : Int)
  | waking (key : Nat) (nwake : Int)
  | leaving (ret : Int)
  deriving DecidableEq

namespace Pc

def holdsFutex : Pc → Prop
  | copyin _ _ _ | matched _ _ | handing _ _ | waking _ _ | leaving _ => True
  | _ => False

def holdsProc : Pc → Prop
  | handing _ _ | parking _ _ => True
  | _ => False

def Compared (key : Nat) (val : Word) (pc : Pc) : Prop :=
  pc = .matched key val ∨ pc = .handing key val ∨ pc = .parking key val ∨ pc = .asleep key val

end Pc

structure Proc where
  state : ProcState
  chan : Option Nat
  pc : Pc
  calls : Nat

def Proc.wake (r : Proc) : Proc := { r with state := .runnable, chan := none }

def Proc.asleepOn (key : Nat) (r : Proc) : Bool := r.state = .sleeping && r.chan = some key

structure State (n : Nat) where
  mem : Nat → Word
  futexLock : Option (Fin n)
  procLock : Option (Fin n)
  proc : Fin n → Proc

inductive Op (n : Nat) where
  | store (p : Fin n) (uaddr : Nat) (v : Word)
  | futexWait (p : Fin n) (uaddr : Nat) (val : Word)
  | futexWake (p : Fin n) (uaddr : Nat) (nwake : Int)
  | lock (p : Fin n)
  | read (p : Fin n)
  | handOff (p : Fin n)
  | unlock (p : Fin n)
  | park (p : Fin n)
  | scan (p : Fin n)
  | leave (p : Fin n)
  | signal (p : Fin n)
  | dispatch (p : Fin n)

variable {n : Nat}

namespace State

def sleepers (s : State n) (key : Nat) : Finset (Fin n) :=
  Finset.univ.filter fun p => (s.proc p).asleepOn key = true

def setPc (s : State n) (p : Fin n) (pc : Pc) : State n :=
  { s with proc := update s.proc p { s.proc p with pc := pc } }

def at? (s : State n) (p : Fin n) : Option Pc :=
  if (s.proc p).state = .running then some (s.proc p).pc else none

end State

def wakeLoop (key : Nat) (nwake : Int) (proc : Fin n → Proc) : (Fin n → Proc) × Nat :=
  Scan.upTo (Proc.asleepOn key) Proc.wake nwake (List.finRange n) (proc,0)

section Step

variable (map : Fin n → Nat → Option Nat)

def futexKey (p : Fin n) (uaddr : Nat) : Option Nat := if uaddr % 4 = 0 then map p uaddr else none

def step (s : State n) : Op n → Option (State n × Option (Fin n × Int))
  | .store p uaddr v =>
    match s.at? p, futexKey map p uaddr with
    | some .user, some w => some ({ s with mem := update s.mem w v },none)
    | _, _ => none
  | .futexWait p uaddr val =>
    if s.at? p = some .user then
      some ({ s with
          proc := update s.proc p { s.proc p with
            pc := .waitCall uaddr val
            calls := (s.proc p).calls + 1 } },none)
    else none
  | .futexWake p uaddr nwake =>
    if s.at? p = some .user then
      if nwake ≤ 0 then some (s,some (p,0)) else some (s.setPc p (.wakeCall uaddr nwake),none)
    else none
  | .lock p =>
    match s.futexLock, s.at? p with
    | none, some (.waitCall uaddr val) =>
      some ({ s.setPc p (match futexKey map p uaddr with
        | none => .leaving (-1)
        | some key => .copyin key val []) with futexLock := some p },none)
    | none, some (.wakeCall uaddr nwake) =>
      some ({ s.setPc p (match futexKey map p uaddr with
        | none => .leaving (-1)
        | some key => .waking key nwake) with futexLock := some p },none)
    | none, some (.asleep _ _) => some ({ s.setPc p (.leaving 0) with futexLock := some p },none)
    | _, _ => none
  | .read p =>
    match s.at? p with
    | some (.copyin key val got) =>
      let got := got ++ [byte (s.mem key) got.length]
      some (s.setPc p (if got.length < 4 then .copyin key val got
        else if ofBytes got = val then .matched key val
        else .leaving 0),none)
    | _ => none
  | .handOff p =>
    match s.procLock, s.at? p with
    | none, some (.matched key val) =>
      some ({ s.setPc p (.handing key val) with procLock := some p },none)
    | _, _ => none
  | .unlock p =>
    match s.at? p with
    | some (.handing key val) => some ({ s.setPc p (.parking key val) with futexLock := none },none)
    | _ => none
  | .park p =>
    match s.at? p with
    | some (.parking key val) =>
      some ({ s with
        proc := update s.proc p { s.proc p with
          state := .sleeping
          chan := some key
          pc := .asleep key val }
        procLock := none },none)
    | _ => none
  | .scan p =>
    match s.procLock, s.at? p with
    | none, some (.waking key nwake) =>
      let r := wakeLoop key nwake s.proc
      some ({ s with proc := r.1 }.setPc p (.leaving r.2),none)
    | _, _ => none
  | .leave p =>
    match s.at? p with
    | some (.leaving r) => some ({ s.setPc p .user with futexLock := none },some (p,r))
    | _ => none
  | .signal p =>
    if s.procLock = none ∧ (s.proc p).state = .sleeping then
      some ({ s with proc := update s.proc p (s.proc p).wake },none)
    else none
  | .dispatch p =>
    if s.procLock = none ∧ (s.proc p).state = .runnable then
      some ({ s with
        proc := update s.proc p { s.proc p with state := .running } },none)
    else none

end Step

def start (n : Nat) (mem : Nat → Word) : State n :=
  ⟨mem,none,none,fun _ => ⟨.running,none,.user,0⟩⟩

end TinyOs.Futex
