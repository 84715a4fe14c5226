import TinyOs.Library.Locks
import TinyOs.Sched.Machine

namespace TinyOs.Block

open Function (update)
open Sched (ProcState)

abbrev sectSize : Nat := 512

inductive Status where
  | ok
  | ioerr
  | notsupp
  deriving DecidableEq

structure Bio (D : Type) where
  disk : Option D
  sector : Nat
  size : Nat
  data : Bool

structure Ide (D C : Type) where
  tab : List D
  chan : D → C
  capacity : D → Nat
  all : ∀ d, d ∈ tab

inductive Pc (P D C : Type) where
  | idle
  | submit
  | enqueue (d : D)
  | run (c : C)
  | execute (c : C) (rq : P) (left : Nat)
  | executed (c : C) (rq : P) (st : Status)
  | endIo (rq : P) (next : Option C)
  | waking (rq : P) (next : Option C)
  | woke (rq : P) (next : Option C)
  | check
  | going (w : P)
  | handing (w : P)
  | parking (w : P)
  | asleep (w : P)
  deriving DecidableEq

structure State (P D C : Type) where
  queue : D → List P
  busy : C → Bool
  curRq : C → Option P
  waiterLock : P → Option P
  procLock : Option P
  pc : P → Pc P D C
  state : P → ProcState
  chan : P → Option P
  bio : P → Bio D
  status : P → Status
  done : P → Bool
  calls : P → Nat
  submitted : D → List (P × Nat)
  completed : D → List (P × Nat)
  ended : List (P × Nat)

inductive Op (P D : Type) where
  | submitBioWait (p : P) (bio : Bio D)
  | submit (p : P) (alloc : Bool)
  | push (p : P)
  | pick (p : P)
  | sector (p : P) (ok : Bool)
  | clear (p : P)
  | endIo (p : P)
  | wake (p : P)
  | release (p : P)
  | check (p : P)
  | handOff (p : P)
  | unlock (p : P)
  | park (p : P)
  | signal (p : P)
  | dispatch (p : P)

variable {P D C : Type} [DecidableEq P] [DecidableEq D] [DecidableEq C]

namespace State

def setPc (s : State P D C) (p : P) (pc : Pc P D C) : State P D C :=
  { s with pc := update s.pc p pc }

def setStatus (s : State P D C) (p : P) (st : Status) : State P D C :=
  { s with status := update s.status p st }

omit [DecidableEq D] [DecidableEq C] in
def at? (s : State P D C) (p : P) : Option (Pc P D C) :=
  if s.state p = .running then some (s.pc p) else none

def tag (s : State P D C) (p : P) : P × Nat := (p,s.calls p)

def wakeup (s : State P D C) (w : P) : State P D C :=
  { s with
    state := fun p => if s.state p = .sleeping ∧ s.chan p = some w then .runnable else s.state p
    chan := fun p => if s.state p = .sleeping ∧ s.chan p = some w then none else s.chan p }

end State

section Step

variable (ide : Ide D C)

def refused (d : D) (b : Bio D) : Prop := b.data = false ∨ b.size = 0 ∨ b.size % sectSize ≠ 0 ∨
    ide.capacity d < (b.sector + b.size / sectSize) % 2 ^ 32

instance (d : D) (b : Bio D) : Decidable (refused ide d b) := by
  unfold refused
  infer_instance

def ideChanPick (s : State P D C) (c : C) : Option (D × P × List P) := ide.tab.findSome? fun d =>
    if ide.chan d = c then
      match s.queue d with
      | [] => none
      | q :: rest => some (d,q,rest)
    else none

def submitBio (s : State P D C) (p : P) (alloc : Bool) : State P D C :=
  match (s.bio p).disk with
  | none => (s.setStatus p .notsupp).setPc p (.endIo p none)
  | some d =>
    if refused ide d (s.bio p) ∨ alloc = false then
      (s.setStatus p .ioerr).setPc p (.endIo p none)
    else (s.setStatus p .ok).setPc p (.enqueue d)

def ideRun (s : State P D C) (p : P) (c : C) : State P D C :=
  match ideChanPick ide s c with
  | none =>
    { s.setPc p .check with
      busy := update s.busy c false
      curRq := update s.curRq c none }
  | some (d,q,rest) =>
    { s.setPc p (.execute c q (s.bio q).size) with
      queue := update s.queue d rest
      curRq := update s.curRq c (some q) }

def ideSubmitBio (s : State P D C) (p : P) (d : D) : State P D C :=
  let c := ide.chan d
  { s.setPc p (if s.busy c then .check else .run c) with
    queue := update s.queue d (s.queue d ++ [p])
    busy := update s.busy c true
    submitted := update s.submitted d (s.submitted d ++ [s.tag p]) }

def bioWaitEndIo (s : State P D C) (p q : P) (next : Option C) : State P D C :=
  { s.setPc p (.waking q next) with
    waiterLock := update s.waiterLock q (some p)
    done := update s.done q true
    ended := s.ended ++ [s.tag q]
    completed := match next, (s.bio q).disk with
      | some _, some d => update s.completed d (s.completed d ++ [s.tag q])
      | _, _ => s.completed }

def step (s : State P D C) : Op P D → Option (State P D C × Option (P × Int))
  | .submitBioWait p bio =>
    if s.at? p = some .idle then
      some ({ s.setPc p .submit with
        bio := update s.bio p bio
        done := update s.done p false
        calls := update s.calls p (s.calls p + 1) },none)
    else none
  | .submit p alloc =>
    if s.at? p = some .submit then some (submitBio ide s p alloc,none) else none
  | .push p =>
    match s.at? p with
    | some (.enqueue d) => some (ideSubmitBio ide s p d,none)
    | _ => none
  | .pick p =>
    match s.at? p with
    | some (.run c) => some (ideRun ide s p c,none)
    | _ => none
  | .sector p ok =>
    match s.at? p with
    | some (.execute c q left) =>
      some (s.setPc p (
        if sectSize ≤ left then
          if ok then .execute c q (left - sectSize) else .executed c q .ioerr
        else .executed c q (if left = 0 then .ok else .ioerr)),none)
    | _ => none
  | .clear p =>
    match s.at? p with
    | some (.executed c q st) =>
      some ({ (s.setStatus q st).setPc p (.endIo q (some c)) with
        curRq := update s.curRq c none },none)
    | _ => none
  | .endIo p =>
    match s.at? p with
    | some (.endIo q next) =>
      if s.waiterLock q = none then some (bioWaitEndIo s p q next,none) else none
    | _ => none
  | .wake p =>
    match s.procLock, s.at? p with
    | none, some (.waking q next) => some ((s.wakeup q).setPc p (.woke q next),none)
    | _, _ => none
  | .release p =>
    match s.at? p with
    | some (.woke q next) =>
      some ({ s.setPc p (next.elim .check .run) with
        waiterLock := update s.waiterLock q none },none)
    | _ => none
  | .check p =>
    if (s.at? p = some .check ∨ s.at? p = some (.asleep p)) ∧ s.waiterLock p = none then
      if s.done p then
        some (s.setPc p .idle,some (p,if s.status p = .ok then 0 else -1))
      else
        some ({ s.setPc p (.going p) with
          waiterLock := update s.waiterLock p (some p) },none)
    else none
  | .handOff p =>
    match s.procLock, s.at? p with
    | none, some (.going w) => some ({ s.setPc p (.handing w) with procLock := some p },none)
    | _, _ => none
  | .unlock p =>
    match s.at? p with
    | some (.handing w) =>
      some ({ s.setPc p (.parking w) with
        waiterLock := update s.waiterLock w none },none)
    | _ => none
  | .park p =>
    match s.at? p with
    | some (.parking w) =>
      some ({ s.setPc p (.asleep w) with
        state := update s.state p .sleeping
        chan := update s.chan p (some w)
        procLock := none },none)
    | _ => none
  | .signal p =>
    if s.procLock = none ∧ s.state p = .sleeping then
      some ({ s with
        state := update s.state p .runnable
        chan := update s.chan p none },none)
    else none
  | .dispatch p =>
    if s.procLock = none ∧ s.state p = .runnable then
      some ({ s with state := update s.state p .running },none)
    else none

end Step

def start (bio : P → Bio D) : State P D C where
  queue _ := []
  busy _ := false
  curRq _ := none
  waiterLock _ := none
  procLock := none
  pc _ := .idle
  state _ := .running
  chan _ := none
  bio := bio
  status _ := .ok
  done _ := true
  calls _ := 0
  submitted _ := []
  completed _ := []
  ended := []

end TinyOs.Block
